/-
# Sources in shorthand

A source is written `access~formulation`, `[access~formulation, iterator]` or as a mapping
of its parts.  A document may declare sources by name, and a mapping may use them.
-/
import RdfMapping.Shorthand.Key
import RdfMapping.Shorthand.Scalar

namespace RdfMapping.Shorthand

open Iri.PrefixTable (qlNamespace)
open Mapping (LogicalSource)
open Yaml (Node Entry)

/-! ## Reference formulations -/

/-- The reference formulations that have a short name. -/
def formulations : List (String × String) :=
  [("csv", qlNamespace ++ "CSV"), ("jsonpath", qlNamespace ++ "JSONPath"),
    ("xpath", qlNamespace ++ "XPath")]

/-- The formulation with a short name, in any letter case, or with a prefixed name. -/
def Scope.formulation? (scope : Scope) (name : String) : Option String :=
  match formulations.lookup (Text.lower name) with
  | some iri => some iri
  | none => if Text.hasChar ':' name then (scope.resolve name).toOption else none

/-! ## One source -/

/-- Reads `access~formulation`, where what follows the last tilde may belong to the access. -/
def readAccess (scope : Scope) (n : Node) (place : Place) : Reading LogicalSource := do
  let text ← readScalar (some n) place
  match Text.cutLast? "~" text with
  | none => return { access := text }
  | some (access, name) =>
    if name = "" || Text.hasChar '/' name || Text.hasChar '.' name then
      return { access := text }
    else match scope.formulation? name with
      | some formulation => return { access, formulation }
      | none =>
        refuse (.unknownFormulation name (formulations.map Prod.fst)) (some n) place

/-- The parts of a source. -/
inductive SourceKey where
  | access
  | formulation
  | iterator
  | table
  | query
  | sqlVersion
deriving DecidableEq, Repr

/-- The spellings of the parts of a source. -/
def sourceKeys : Keyring SourceKey where
  spellings :=
    [("access", .access), ("iterator", .iterator), ("query", .query),
      ("referenceformulation", .formulation), ("sqlversion", .sqlVersion), ("table", .table),
      ("tablename", .table)]
  name
    | .access => "access"
    | .formulation => "referenceFormulation"
    | .iterator => "iterator"
    | .table => "table"
    | .query => "query"
    | .sqlVersion => "sqlVersion"

/-- The text of a part of a source, empty if the part is absent or no text. -/
def readSourcePart (keys : Keyed SourceKey) (k : SourceKey) (place : Place) : Noted String :=
  match keys.value? k with
  | none => pure ""
  | some n => return (← (readScalar (some n) (place.sub (sourceKeys.name k))).run).getD ""

/-- Reads a source from its parts. -/
def readSourceParts (scope : Scope) (n : Node) (place : Place) : Reading LogicalSource :=
  flawless do
    let keys ← readKeys sourceKeys n place
    let access ← readSourcePart keys .access place
    let iterator ← readSourcePart keys .iterator place
    let table ← readSourcePart keys .table place
    let query ← readSourcePart keys .query place
    let name ← readSourcePart keys .formulation place
    let formulation ←
      if name = "" then pure ""
      else match scope.formulation? name with
        | some formulation => pure formulation
        | none => do
          note (.unknownFormulation name []) (keys.value? .formulation) place
          pure ""
    let version ← readSourcePart keys .sqlVersion place
    let sqlVersion ←
      if version = "" then pure ""
      else match scope.resolve (if Text.hasChar ':' version then version else "rr:" ++ version) with
        | .ok sqlVersion => pure sqlVersion
        | .error problem => do
          note problem (keys.value? .sqlVersion) place
          pure ""
    return { access, formulation, iterator, table, query, sqlVersion }

/-- Reads `[access~formulation, iterator]` or the parts of a source. -/
def readSource (scope : Scope) (n : Node) (place : Place) : Reading LogicalSource :=
  if n.isSequence then
    match n.items with
    | [access] => readAccess scope access place
    | [access, iterator] => do
      let source ← readAccess scope access place
      let iterator ← readScalar (some iterator) (place.sub "iterator")
      return { source with iterator }
    | elems => refuse (.sourceLength elems.length) (some n) place
  else if n.isMapping then readSourceParts scope n place
  else refuse (.wrongForm .source n.kindName) (some n) place

/-! ## Declared sources -/

/-- A source declared by name. -/
structure NamedSource where
  name : String
  source : LogicalSource
  span : Span

/-- The declared source with a name. -/
def namedSource? (declared : List NamedSource) (name : String) : Option LogicalSource :=
  (declared.find? fun s => s.name == name).map NamedSource.source

/-- Reads the declaration of a source and adds it to those `declared` before. -/
def readNamedSource (scope : Scope) (declared : List NamedSource) (e : Entry) :
    Noted (List NamedSource) := do
  let name := e.key.text
  let place : Place := { path := "sources." ++ name }
  let source ← (if e.value.isScalar then readAccess scope e.value place
    else readSource scope e.value place).run
  match source with
  | none => return declared
  | some source =>
    if (namedSource? declared name).isSome then do
      note (.repeatedSource name) (some e.key) place
      return declared
    else return declared ++ [⟨name, source, e.key.span⟩]

/-- Reads the declared sources of a document. -/
def readNamedSources (scope : Scope) (n : Option Node) : Noted (List NamedSource) :=
  match n with
  | none => pure []
  | some n =>
    if n.isNull then pure []
    else if n.isMapping then n.entries.foldlM (readNamedSource scope) []
    else do
      note (.wrongForm .namedSources n.kindName) (some n) { path := "sources" }
      return []

/-! ## The source of a mapping -/

/-- The sources a mapping lists; two texts may be one source. -/
def listedSources (declared : List NamedSource) (n : Node) : List Node :=
  if n.isNull then []
  else if n.isSequence then
    match n.items with
    | [first, second] =>
      if first.isScalar && second.isScalar && (namedSource? declared first.text).isNone &&
          Text.hasChar '~' first.text then [n]
      else [first, second]
    | elems => elems
  else n.items

/-- Reads the source of a mapping. -/
def readMappingSource (scope : Scope) (declared : List NamedSource) (n : Node) (place : Place) :
    Noted LogicalSource :=
  match listedSources declared n with
  | [] => pure {}
  | [item] =>
    if item.isScalar then
      match namedSource? declared item.text with
      | some source => pure source
      | none =>
        if !Text.hasChar '~' item.text && !declared.isEmpty then do
          note (.unknownSource item.text (declared.map NamedSource.name)) (some item) place
          return {}
        else return (← (readAccess scope item place).run).getD {}
    else return (← (readSource scope item place).run).getD {}
  | several => do
    note (.severalSources several.length) (some n) place
    return {}

/-- The name of the declared source a mapping uses. -/
def usedSource? (declared : List NamedSource) (n : Node) : Option String :=
  match listedSources declared n with
  | [item] =>
    if item.isScalar && (namedSource? declared item.text).isSome then some item.text else none
  | _ => none

end RdfMapping.Shorthand
