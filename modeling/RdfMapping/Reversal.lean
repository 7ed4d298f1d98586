/-
# Reversal

From triples back to a document in shorthand, with the same settings that compilation takes.
-/
import RdfMapping.Compilation
import RdfMapping.RuleGraph.Decoding
import RdfMapping.Shorthand.Text

namespace RdfMapping

open Mapping (Document)
open Rdf (Quad)
open RuleGraph (DecodeError)
open Shorthand (Settings)

/-- Reads a document from quads.  Its prefixes are those of the settings. -/
def reverse (settings : Settings) (qs : List Quad) : Except DecodeError Document :=
  RuleGraph.decode settings.base settings.withBuiltin.prefixes qs

/-- Writes the document of some quads in shorthand, with the prefixes of the settings. -/
def reverseToText (settings : Settings) (keepDialect : Bool) (qs : List Quad) :
    Except DecodeError String := do
  let doc ← reverse settings qs
  let fallback := settings.withBuiltin.prefixes.getD .empty
  (Shorthand.writeText doc { fallback, keepDialect }).mapError fun d => .flawed [d]

end RdfMapping
