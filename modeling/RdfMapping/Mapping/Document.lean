/-
# Mapping documents

A document is a base IRI, a prefix table, a dialect and an ordered store of triples maps,
found by identifier through an index.  Identifiers are unique, and a frozen document takes
no further maps.
-/
import RdfMapping.Iri.PrefixTable
import RdfMapping.Mapping.TermMap
import RdfMapping.Text.Cut
import RdfMapping.Text.Lowercase

namespace RdfMapping.Mapping

open Iri (PrefixTable)

/-! ## Identifiers -/

/-- Characters of an identifier after the first. -/
def isIdChar (c : Char) : Bool :=
  c.isAlphanum || c = '_' || c = '.' || c = '/' || c = '#' || c = '-'

/-- An identifier begins with a letter or an underscore. -/
def isValidIdChars : List Char → Bool
  | [] => false
  | c :: rest => (c.isAlpha || c = '_') && rest.all isIdChar

/-- Whether a text can name a triples map. -/
def isValidId (id : String) : Bool :=
  isValidIdChars id.toList

/-- The IRI of an identifier; a `#` goes between unless the base ends in one or in a slash. -/
def mapIri (base id : String) : String :=
  if Text.endsWith "/" base || Text.endsWith "#" base then base ++ id else base ++ "#" ++ id

/-! ## Dialects -/

/-- The vocabulary a document is written in. -/
inductive Dialect where
  /-- Mappings of any source. -/
  | rml
  /-- Mappings of relational tables and queries. -/
  | r2rml
deriving DecidableEq, Repr

namespace Dialect

/-- The name of a dialect. -/
def name : Dialect → String
  | rml => "rml"
  | r2rml => "r2rml"

/-- The dialect with a name, in any letter case. -/
def ofName? (s : String) : Option Dialect :=
  if Text.lower s = "rml" then some rml else if Text.lower s = "r2rml" then some r2rml else none

/-- The text of the error for a name that is no dialect. -/
def unknownMessage (s : String) : String :=
  "unknown dialect " ++ Text.quote s ++ " (want rml or r2rml)"

end Dialect

/-! ## Triples maps -/

/-- Where the records of a triples map come from.  An absent part is empty. -/
structure LogicalSource where
  /-- Where the data is: a path or an address. -/
  access : String := ""
  /-- The IRI of the language of references. -/
  formulation : String := ""
  /-- What selects the records. -/
  iterator : String := ""
  /-- The name of a relational table or view. -/
  table : String := ""
  /-- A relational query. -/
  query : String := ""
  /-- The IRI of the version of the query language. -/
  sqlVersion : String := ""
deriving DecidableEq, Repr

namespace LogicalSource

/-- Whether no part is present. -/
def isEmpty (s : LogicalSource) : Bool :=
  s == {}

/-- Whether the source is a table or a query and nothing else. -/
def isRelational (s : LogicalSource) : Bool :=
  s.access = "" && s.formulation = "" && s.iterator = "" && (s.table ≠ "" || s.query ≠ "")

end LogicalSource

/-- How the subjects of a triples map are made, with their classes and graphs. -/
structure SubjectMap where
  term : TermMap := {}
  classes : List String := []
  graphs : List TermMap := []

/-- A triple for each of the predicates and each of the objects. -/
structure PredicateObjectMap where
  span : Span := {}
  predicates : List TermMap := []
  objects : List TermMap := []
  graphs : List TermMap := []

/-- Whether two predicate-object maps are equal apart from positions. -/
def PredicateObjectMap.same (a b : PredicateObjectMap) : Bool :=
  TermMap.sameAll a.predicates b.predicates && TermMap.sameAll a.objects b.objects &&
    TermMap.sameAll a.graphs b.graphs

/-- Whether two lists of predicate-object maps are equal apart from positions. -/
def PredicateObjectMap.sameAll : List PredicateObjectMap → List PredicateObjectMap → Bool
  | [], [] => true
  | a :: as, b :: bs => a.same b && sameAll as bs
  | _, _ => false

/-- The triples made from every record of one source. -/
structure TriplesMap where
  id : String
  span : Span := {}
  source : LogicalSource := {}
  subject : SubjectMap := {}
  predicateObjects : List PredicateObjectMap := []

namespace TriplesMap

/-- The term maps of a triples map with their paths in messages. -/
def termMaps (tm : TriplesMap) : List (String × TermMap) :=
  ("subject", tm.subject.term) ::
    tm.subject.graphs.mapIdx (fun i g => ("graph[" ++ toString i ++ "]", g)) ++
    (tm.predicateObjects.mapIdx fun i pom =>
      let path := "po[" ++ toString i ++ "]"
      pom.predicates.mapIdx (fun j p => (path ++ ".p[" ++ toString j ++ "]", p)) ++
      pom.objects.mapIdx (fun j o => (path ++ ".o[" ++ toString j ++ "]", o)) ++
      pom.graphs.mapIdx (fun j g => (path ++ ".graph[" ++ toString j ++ "]", g))).flatten

end TriplesMap

/-! ## Documents -/

/-- The base IRI of a document that declares none. -/
def defaultBase : String := "http://example.com/"

/-- A mapping document.  The index gives the place of the map with an identifier. -/
structure Document where
  base : String := ""
  prefixes : Option PrefixTable := none
  dialect : Dialect := .rml
  maps : List TriplesMap := []
  index : List (String × Nat) := []
  frozen : Bool := false

/-- Why a triples map is not added. -/
inductive AddError where
  | frozen
  | duplicateId (id : String)
deriving DecidableEq, Repr

/-- The text of the error. -/
def AddError.message : AddError → String
  | frozen => "document is frozen"
  | duplicateId id => "duplicate triples map id: " ++ Text.quote id

namespace Document

/-- A document without maps, with a base and a table or the defaults. -/
def create (base : String) (prefixes : Option PrefixTable) : Document :=
  { base := if base = "" then defaultBase else base
    prefixes := some (prefixes.getD .builtin) }

/-- The table of a document that has none is empty. -/
def table (d : Document) : PrefixTable :=
  d.prefixes.getD .empty

/-- Enters a triples map at the end, and says why not if it is refused. -/
def insert (tm : TriplesMap) : StateM Document (Option AddError) := do
  if (← get).frozen then return some .frozen
  if ((← get).index.lookup tm.id).isSome then return some (.duplicateId tm.id)
  modify fun d => { d with index := d.index ++ [(tm.id, d.maps.length)] }
  modify fun d => { d with maps := d.maps ++ [tm] }
  return none

/-- The document with a further triples map, unless that is refused. -/
def add (d : Document) (tm : TriplesMap) : Except AddError Document :=
  match (insert tm).run d with
  | (none, d') => .ok d'
  | (some e, _) => .error e

/-- Forbids further additions. -/
def freeze (d : Document) : Document :=
  { d with frozen := true }

/-- The triples map with an identifier. -/
def lookup? (d : Document) (id : String) : Option TriplesMap := do
  d.maps[← d.index.lookup id]?

/-- The identifiers of the triples maps, in order. -/
def ids (d : Document) : List String :=
  d.maps.map TriplesMap.id

/-- The IRI of the triples map with an identifier. -/
def iriOf (d : Document) (id : String) : String :=
  mapIri d.base id

end Document

end RdfMapping.Mapping
