/-
# Configuration

What a project sets for its conversions.
-/
import RdfMapping.Duration
import RdfMapping.Iri.PrefixTable
import RdfMapping.Iri.Reference
import RdfMapping.Rdf.Format

namespace RdfMapping

open Iri (PrefixTable)
open Rdf (Format FormatError)

/-- What a project sets for its conversions. -/
structure Configuration where
  /-- What is written: `rml`, `r2rml` or `yaml`. -/
  target : String := ""
  /-- The name of the format in which triples are written. -/
  rdfFormat : String := ""
  /-- Whether shorthand says which dialect it came from. -/
  keepDialect : Bool := false
  /-- The base of documents that declare none. -/
  base : String := ""
  /-- Labels and namespaces in the order in which they are declared. -/
  prefixes : List (String × String) := []
  /-- How long changes of files are gathered. -/
  debounce : Duration := ⟨0⟩
deriving DecidableEq, Repr

/-- Why a configuration cannot be used. -/
inductive ConfigurationFlaw where
  | unknownTarget (target : String)
  | rdfFormat (error : FormatError)
  | relativeBase (base : String)
  | negativeDebounce
  | emptyNamespace (label : String)
deriving DecidableEq, Repr

/-- The wording of a flaw. -/
def ConfigurationFlaw.message : ConfigurationFlaw → String
  | unknownTarget target => "output.format must be rml, r2rml or yaml, got " ++ Text.quote target
  | rdfFormat error => "output.syntax: " ++ error.message
  | relativeBase base => "base must be an absolute IRI, got " ++ Text.quote base
  | negativeDebounce => "watch.debounce must not be negative"
  | emptyNamespace label => "prefix " ++ Text.quote label ++ " has an empty namespace"

namespace Configuration

/-- The values that hold when nothing is set. -/
def default : Configuration :=
  { target := "rml", rdfFormat := Format.turtle.name, debounce := .ofMilliseconds 200 }

/-- The declared prefixes; the last namespace of a label counts. -/
def table? (c : Configuration) : Option PrefixTable :=
  if c.prefixes.isEmpty then none else some (.ofList c.prefixes)

/-- Puts what another configuration sets over this one; its prefixes come after. -/
def merge (c other : Configuration) : Configuration :=
  { target := if other.target = "" then c.target else other.target
    rdfFormat := if other.rdfFormat = "" then c.rdfFormat else other.rdfFormat
    keepDialect := c.keepDialect || other.keepDialect
    base := if other.base = "" then c.base else other.base
    prefixes := c.prefixes ++ other.prefixes
    debounce := if other.debounce = ⟨0⟩ then c.debounce else other.debounce }

/-- All flaws of a configuration. -/
def flaws (c : Configuration) : List ConfigurationFlaw :=
  (if ["rml", "r2rml", "yaml"].contains c.target then [] else [.unknownTarget c.target]) ++
    (match Format.ofName c.rdfFormat with
      | .ok _ => []
      | .error error => [.rdfFormat error]) ++
    (if c.base ≠ "" && !Iri.isAbsolute c.base then [.relativeBase c.base] else []) ++
    (if c.debounce.nanoseconds < 0 then [.negativeDebounce] else []) ++
    (c.prefixes.filter (·.2 = "")).map (.emptyNamespace ·.1)

end Configuration

end RdfMapping
