/-
# Compilation

From a document in shorthand to triples, with the settings that hold when the document is
silent.
-/
import RdfMapping.RuleGraph.Emission
import RdfMapping.Shorthand.Document

namespace RdfMapping

open Iri (PrefixTable)
open Mapping (Dialect)
open Rdf (Quad)
open Shorthand (Settings)

/-- The settings with the built-in prefixes, which can be bound anew. -/
def Shorthand.Settings.withBuiltin (settings : Settings) : Settings :=
  { settings with
    prefixes := some (PrefixTable.builtin.merge (settings.prefixes.getD .empty)) }

/-- The triples of a document and what is needed to write them. -/
structure Compiled where
  triples : List Quad
  base : String
  prefixes : PrefixTable
  dialect : Dialect
  warnings : List Diagnostic

/-- Compiles a document in shorthand to a dialect, or to the one it declares. -/
def compile (settings : Settings) (dialect : Option Dialect) (root : Option Yaml.Node) :
    Except (List Diagnostic) Compiled := do
  let parsed ← Shorthand.parse settings.withBuiltin root
  let doc := parsed.document
  let dialect := dialect.getD doc.dialect
  let triples ← RuleGraph.emit doc dialect
  return ⟨triples, doc.base, doc.table, dialect, parsed.warnings⟩

end RdfMapping
