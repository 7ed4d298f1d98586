/-
# Documents in shorthand

A document has prefixes, a base, a dialect, declared sources and mappings.  All problems of a
document are reported together; a document that is free of them is checked against the rules
of mappings and frozen.
-/
import RdfMapping.Mapping.Validation
import RdfMapping.Shorthand.PredicateObject
import RdfMapping.Shorthand.Source

namespace RdfMapping.Shorthand

open Iri (PrefixTable)
open Mapping
open Yaml (Node Entry)

/-! ## Mappings -/

/-- The parts of a mapping. -/
inductive MappingKey where
  | sources
  | subject
  | classes
  | graphs
  | predicateObjects
deriving DecidableEq, Repr

/-- The spellings of the parts of a mapping. -/
def mappingKeys : Keyring MappingKey where
  spellings :=
    [("class", .classes), ("classes", .classes), ("g", .graphs), ("graph", .graphs),
      ("graphs", .graphs), ("po", .predicateObjects), ("predicate", .predicateObjects),
      ("predicateobjects", .predicateObjects), ("s", .subject), ("source", .sources),
      ("sources", .sources), ("subject", .subject), ("subjects", .subject)]
  name
    | .sources => "sources"
    | .subject => "subject"
    | .classes => "class"
    | .graphs => "graph"
    | .predicateObjects => "po"

/-- Reads the one subject of a mapping. -/
def readSubject (scope : Scope) (n : Node) (place : Place) : Reading TermMap :=
  if n.isNull then refuse .emptySubject (some n) place
  else match n.items with
    | [] => refuse .emptySubject (some n) place
    | [subject] => readTerm scope { position := .subject } subject place
    | several => refuse (.severalSubjects several.length) (some n) place

/-- Reads the classes of the subjects of a mapping. -/
def readClasses (scope : Scope) (n : Node) (place : Place) : Noted (List String) :=
  Logged.those (n.items.mapIdx fun i c =>
    scope.readIri (some c) (place.sub ("class[" ++ toString i ++ "]")))

/-- Reads the part of a mapping with a key, which may be absent. -/
def readMappingPart {α : Type} (keys : Keyed MappingKey) (k : MappingKey) (absent : α)
    (read : Node → Noted α) : Noted α :=
  match keys.value? k with
  | some n => read n
  | none => pure absent

/-- Reads the parts of a mapping. -/
def readMappingParts (scope : Scope) (declared : List NamedSource) (key body : Node)
    (place : Place) : Noted TriplesMap := do
  let id := place.mapping
  let keys ← readKeys mappingKeys body place
  let source ← readMappingPart keys .sources {} fun n =>
    readMappingSource scope declared n (place.sub "sources")
  let term ← (match keys.value? .subject with
    | some n => readSubject scope n (place.sub "subject")
    | none => refuse (.noSubject id) (some key) place).run
  let classes ← readMappingPart keys .classes [] fun n => readClasses scope n place
  let graphs ← readMappingPart keys .graphs [] fun n => readGraphs scope n (place.sub "graph")
  let predicateObjects ← readMappingPart keys .predicateObjects [] fun n =>
    readPredicateObjects scope n (place.sub "po")
  return { id, span := key.span, source, subject := { term := term.getD {}, classes, graphs },
           predicateObjects }

/-- Reads a mapping. -/
def readMapping (scope : Scope) (declared : List NamedSource) (key body : Node) (place : Place) :
    Reading TriplesMap :=
  if body.isNull then refuse (.emptyMapping place.mapping) (some key) place
  else if body.isMapping then flawless (readMappingParts scope declared key body place)
  else refuse (.wrongForm (.mapping place.mapping) body.kindName) (some body) place

/-- Adds a mapping that was read to a document, and notes it if the document refuses it. -/
def enterMapping (doc : Document) (tm : TriplesMap) (key : Node) (place : Place) :
    Noted Document :=
  match (Document.insert tm).run doc with
  | (none, doc) => return doc
  | (some error, doc) => do
    note (.refusedMapping error) (some key) place
    return doc

/-- Reads a mapping and adds it to a document. -/
def addMapping (scope : Scope) (declared : List NamedSource) (doc : Document) (e : Entry) :
    Noted Document := do
  let id := e.key.text
  let place : Place := { mapping := id }
  if !isValidId id then do
    note (.invalidMappingId id) (some e.key) place
    return doc
  else if (doc.lookup? id).isSome then do
    note (.repeatedMapping id) (some e.key) place
    return doc
  else match ← (readMapping scope declared e.key e.value place).run with
    | none => return doc
    | some tm => enterMapping doc tm e.key place

/-- Reads mappings and adds them to a document. -/
def addMappings (scope : Scope) (declared : List NamedSource) (doc : Document)
    (n : Option Node) : Noted Document :=
  match n with
  | none => pure doc
  | some n =>
    if n.isNull then pure doc
    else if n.isMapping then n.entries.foldlM (addMapping scope declared) doc
    else do
      note (.wrongForm .mappings n.kindName) (some n) { path := "mappings" }
      return doc

/-! ## Declarations -/

/-- Reads the declaration of a prefix and adds it to a table. -/
def readPrefix (table : PrefixTable) (e : Entry) : Noted PrefixTable := do
  let label := e.key.text
  match ← (readScalar (some e.value) { path := "prefixes." ++ label }).run with
  | some iri => return table.set label iri
  | none => return table

/-- Reads the declared prefixes and adds them to a table. -/
def readPrefixes (table : PrefixTable) (n : Option Node) : Noted PrefixTable :=
  match n with
  | none => pure table
  | some n =>
    if n.isNull then pure table
    else if n.isMapping then n.entries.foldlM readPrefix table
    else do
      note (.wrongForm .prefixes n.kindName) (some n) { path := "prefixes" }
      return table

/-- Reads the declared base, which is an absolute IRI. -/
def readBase (base : String) (n : Option Node) : Noted String :=
  match n with
  | none => pure base
  | some n =>
    if n.isNull then pure base
    else do
      let place : Place := { path := "base" }
      match ← (readScalar (some n) place).run with
      | none => return base
      | some text =>
        if Iri.isAbsolute text then return text
        else do
          note (.relativeBase text) (some n) place
          return base

/-- Reads the declared dialect. -/
def readDialect (dialect : Dialect) (n : Option Node) : Noted Dialect :=
  match n with
  | none => pure dialect
  | some n =>
    if n.isNull then pure dialect
    else do
      let place : Place := { path := "dialect" }
      match ← (readScalar (some n) place).run with
      | none => return dialect
      | some text =>
        match Dialect.ofName? text with
        | some declared => return declared
        | none => do
          note (.unknownDialect text) (some n) place
          return dialect

/-! ## Documents -/

/-- The parts of a document. -/
inductive DocumentKey where
  | prefixes
  | base
  | sources
  | mappings
  | dialect
deriving DecidableEq, Repr

/-- The spellings of the parts of a document. -/
def documentKeys : Keyring DocumentKey where
  spellings :=
    [("base", .base), ("dialect", .dialect), ("mappings", .mappings), ("prefixes", .prefixes),
      ("sources", .sources)]
  name
    | .prefixes => "prefixes"
    | .base => "base"
    | .sources => "sources"
    | .mappings => "mappings"
    | .dialect => "dialect"

/-- What holds before a document is read; by default the built-in table and base. -/
structure Settings where
  base : String := ""
  prefixes : Option PrefixTable := none

/-- A document and the sources it declares. -/
structure Draught where
  document : Document
  declared : List NamedSource

/-- Reads the parts of a document. -/
def readDocument (settings : Settings) (body : Option Node) : Noted Draught := do
  let keys ← match body with
    | some n => readKeys documentKeys n {}
    | none => pure []
  let table ← readPrefixes (settings.prefixes.getD .builtin) (keys.value? .prefixes)
  let base ← readBase (if settings.base = "" then defaultBase else settings.base)
    (keys.value? .base)
  let dialect ← readDialect .rml (keys.value? .dialect)
  let scope : Scope := ⟨table, base⟩
  let declared ← readNamedSources scope (keys.value? .sources)
  let document ← addMappings scope declared { Document.create base (some table) with dialect }
    (keys.value? .mappings)
  return ⟨document, declared⟩

/-! ## Unused sources -/

/-- The value with a key among entries. -/
def valueOf? {κ : Type} [BEq κ] (ring : Keyring κ) (n : Node) (k : κ) : Option Node :=
  (readKeys ring n {}).value.value? k

/-- The names of the declared sources the mappings of a document use. -/
def usedSources (declared : List NamedSource) (body : Node) : List String :=
  match valueOf? documentKeys body .mappings with
  | none => []
  | some mappings => mappings.entries.filterMap fun e => do
    usedSource? declared (← valueOf? mappingKeys e.value .sources)

/-- The warning for a declared source that no mapping uses. -/
def unusedSource (s : NamedSource) : Diagnostic :=
  { severity := .warning, kind := .semantic, code := "unused_source"
    message := "source " ++ Text.quote s.name ++ " is never used"
    location := { span := s.span, path := "sources." ++ s.name } }

/-- The warnings for a document. -/
def unusedSources (declared : List NamedSource) (body : Option Node) : List Diagnostic :=
  let used := (body.map (usedSources declared)).getD []
  (declared.filter fun s => !used.contains s.name).map unusedSource

/-! ## Parsing -/

/-- A frozen document and what is worth a warning in its text. -/
structure Parsed where
  document : Document
  warnings : List Diagnostic

/-- Reads a document from its top-level node.  A document without one is empty. -/
def parseBody (settings : Settings) (body : Option Node) : Except (List Diagnostic) Parsed :=
  let read := readDocument settings body
  if !read.notes.isEmpty then .error read.notes
  else match read.value.document.violations with
    | [] => .ok ⟨read.value.document.freeze, unusedSources read.value.declared body⟩
    | violations => .error violations

/-- Reads a document from a tree. -/
def parse (settings : Settings) (root : Option Node) : Except (List Diagnostic) Parsed :=
  match root.bind Node.body? with
  | none => parseBody settings none
  | some body =>
    if body.isNull || body.isMapping then parseBody settings (some body)
    else .error [(Problem.wrongForm .document body.kindName).diagnostic
      (Place.location {} (some body))]

end RdfMapping.Shorthand
