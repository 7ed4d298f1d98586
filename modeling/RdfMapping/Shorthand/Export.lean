/-
# Writing shorthand

The shorthand of a document.  Of the forms a term or an entry may have, the first is taken
that reads back as the same term maps.
-/
import RdfMapping.Shorthand.PredicateObject
import RdfMapping.Shorthand.Source
import RdfMapping.Shorthand.Spelling

namespace RdfMapping.Shorthand

open Iri (PrefixTable)
open Mapping
open Yaml (Node Entry)

/-! ## Nodes -/

/-- An entry with a text as its key. -/
def entry (key : String) (value : Node) : Entry :=
  ⟨.ofText key, value⟩

/-- The entry of a text, unless it is empty. -/
def textEntry (key text : String) : List Entry :=
  if text = "" then [] else [entry key (.ofText text)]

/-- The only node itself, or a list of all nodes. -/
def single (list : List Node → Node) : List Node → Node
  | [n] => n
  | ns => list ns

/-- A list of nodes, on one line if all are scalars. -/
def compactList (ns : List Node) : Node :=
  if ns.all Node.isScalar then .flowList ns else .blockList ns

/-! ## Reading back -/

/-- Whether a node reads as a term map. -/
def readsAsTerm (scope : Scope) (site : Site) (n : Node) (tm : TermMap) : Bool :=
  let read := (readTerm scope site n {}).run
  read.notes.isEmpty &&
    match read.value with
    | some got => got.same tm
    | none => false

/-- Whether a node reads as predicate-object maps. -/
def readsAsPairs (scope : Scope) (n : Node) (poms : List PredicateObjectMap) : Bool :=
  let read := readPredicateObjects scope n {}
  read.notes.isEmpty && PredicateObjectMap.sameAll read.value poms

/-- The first scalar that reads as a term map. -/
def firstScalar? (scope : Scope) (site : Site) (tm : TermMap) (texts : List String) :
    Option Node :=
  (texts.map Node.ofText).find? fun n => readsAsTerm scope site n tm

/-! ## Terms -/

/-- The join conditions of a term map. -/
def writeConditions (conditions : List JoinCondition) : Node :=
  single .blockList (conditions.map fun c =>
    .mapping {} true [entry "child" (.ofText c.child), entry "parent" (.ofText c.parent)])

/-- The kind of terms a mapping with a value means if it states none. -/
def mappingTermType (site : Site) (tm : TermMap) : TermType :=
  match tm.value with
  | some (.constant term) =>
    if site.prefersLiteral || term.datatype ≠ "" || term.language ≠ "" then .literal else .iri
  | _ => impliedTermType site tm

/-- The entries for what a term map states besides its value. -/
def writeAttributes (s : Style) (site : Site) (tm : TermMap) : Writing (List Entry) := do
  let datatype ← if tm.datatype = "" then pure "" else s.iriText tm.datatype
  return (if tm.termType = mappingTermType site tm then []
      else [entry "type" (.ofText tm.termType.name)]) ++
    textEntry "datatype" datatype ++ textEntry "language" tm.language

/-- The entries of a constant. -/
def writeConstant (s : Style) (term : Constant) : Writing (List Entry) := do
  let value ← if term.kind = .iri then s.iriText term.value else pure term.value
  let datatype ← if term.datatype = "" then pure "" else s.iriText term.datatype
  return entry "constant" (.ofText value) :: textEntry "datatype" datatype ++
    textEntry "language" term.language

/-- The node of parameters: a mapping if their names differ, and else a list of pairs. -/
def writeParameterList (entries : List (String × Node)) : Node :=
  if (entries.map Prod.fst).Nodup then .ofEntries (entries.map fun (key, value) => entry key value)
  else .blockList (entries.map fun (key, value) => compactList [.ofText key, value])

/-- The entries of a function. -/
def writeFunction (s : Style) (iri : String) (parameters : List (String × Node)) :
    Writing (List Entry) := do
  let function ← s.iriText iri
  return entry "function" (.ofText function) ::
    (if parameters.isEmpty then [] else [entry "parameters" (writeParameterList parameters)])

/-- The name of the value class of a term map. -/
def describe (tm : TermMap) : String :=
  match tm.value with
  | some value => value.className
  | none => "(empty)"

/-- Writes a term map as a scalar, or else as a mapping with the entries of its value. -/
def writeTermWith (s : Style) (site : Site) (tm : TermMap) (value : Writing (List Entry)) :
    Writing Node := do
  let texts ← s.candidates site tm
  match firstScalar? (s.scope (← get)) site tm texts with
  | some n => return n
  | none =>
    let value ← value
    let attributes ← writeAttributes s site tm
    let n := Node.ofEntries (value ++ attributes)
    if readsAsTerm (s.scope (← get)) site n tm then return n
    else throw (.unwritableTerm site.position (describe tm))

mutual

/-- Writes a term map. -/
def writeTerm (s : Style) (site : Site) : TermMap → Writing Node
  | ⟨none, type, datatype, language, span⟩ =>
    writeTermWith s site ⟨none, type, datatype, language, span⟩ (throw .noValue)
  | ⟨some value, type, datatype, language, span⟩ =>
    writeTermWith s site ⟨some value, type, datatype, language, span⟩ (writeValue s value)

/-- Writes the entries of a value. -/
def writeValue (s : Style) : Value → Writing (List Entry)
  | .constant term => writeConstant s term
  | .reference name => return [entry "reference" (.ofText name)]
  | .template pattern => return [entry "template" (.ofText pattern)]
  | .function iri parameters => do
    let entries ← writeParameters s parameters
    writeFunction s iri entries
  | .join parent conditions =>
    return [entry "mapping" (.ofText parent), entry "condition" (writeConditions conditions)]

/-- Writes the names and values of parameters. -/
def writeParameters (s : Style) : List Parameter → Writing (List (String × Node))
  | [] => return []
  | ⟨name, value⟩ :: rest => do
    let key ← s.iriText name
    let n ← writeTerm s { position := .parameter } value
    return (key, n) :: (← writeParameters s rest)

end

/-- Writes term maps. -/
def writeTerms (s : Style) (site : Site) (tms : List TermMap) : Writing (List Node) :=
  tms.mapM (writeTerm s site)

/-! ## Predicates and objects -/

/-- The site of the objects of some predicates. -/
def objectSite (predicates : List TermMap) : Site :=
  { position := .object, ofType := statesType predicates }

/-- Writes a predicate as a scalar that is none of the `seen` texts. -/
def writeKey (s : Style) (seen : List String) (tm : TermMap) : Writing (Option Node) := do
  let n ← writeTerm s { position := .predicate } tm
  return if n.isScalar && !seen.contains n.text then some n else none

/-- Writes predicate-object maps as a mapping of predicate to objects, after `seen` keys. -/
def writeInlineEntries (s : Style) (seen : List String) :
    List PredicateObjectMap → Writing (Option (List Entry))
  | [] => return some []
  | pom :: rest => do
    match pom.predicates, pom.graphs with
    | [predicate], [] =>
      match ← writeKey s seen predicate with
      | none => return none
      | some key => do
        let objects ← writeTerms s (objectSite pom.predicates) pom.objects
        let more ← writeInlineEntries s (key.text :: seen) rest
        return more.map (⟨key, single compactList objects⟩ :: ·)
    | _, _ => return none

/-- Takes an obstacle for the lack of a form. -/
def optional {α : Type} (x : Writing (Option α)) : Writing (Option α) :=
  tryCatch x fun _ => return none

/-- Writes predicate-object maps as a mapping of predicate to objects. -/
def writeInline (s : Style) (poms : List PredicateObjectMap) : Writing (Option Node) :=
  optional do
    match ← writeInlineEntries s [] poms with
    | none => return none
    | some entries =>
      let n := Node.ofEntries entries
      return if readsAsPairs (s.scope (← get)) n poms then some n else none

/-- The tag beside an object with a datatype or a language. -/
def tagText (s : Style) (datatype language : String) : Writing String :=
  if language ≠ "" then return language ++ "~lang" else s.iriText datatype

/-- An object without its datatype and language, and these as a tag. -/
def splitTag (s : Style) (tm : TermMap) : Writing (TermMap × String) :=
  match tm.value with
  | some (.constant term) =>
    if term.kind = .literal && (term.datatype ≠ "" || term.language ≠ "") then do
      let tag ← tagText s term.datatype term.language
      let untagged := { term with datatype := "", language := "" }
      return ({ tm with value := some (.constant untagged) }, tag)
    else return (tm, "")
  | _ =>
    if tm.isTagged then do
      let tag ← tagText s tm.datatype tm.language
      return ({ tm with datatype := "", language := "" }, tag)
    else return (tm, "")

/-- The entry `[predicate, object]` or `[predicate, object, tag]`. -/
def listEntry (predicate : Node) (tag : String) (object : Node) : Node :=
  .flowList ([predicate, object] ++ if tag = "" then [] else [.ofText tag])

/-- Whether a node reads as a single predicate-object map among the entries of a list. -/
def readsAsEntry (scope : Scope) (pom : PredicateObjectMap) (n : Node) : Bool :=
  readsAsPairs scope (.blockList [n]) [pom]

/-- Writes a predicate and an object as a list. -/
def writeList (s : Style) (pom : PredicateObjectMap) (predicate object : TermMap) :
    Writing (Option Node) := do
  let p ← writeTerm s { position := .predicate } predicate
  if !p.isScalar then return none
  else
    let site := objectSite [predicate]
    let (plain, tag) ← splitTag s object
    let texts ← s.candidates site plain
    let scope := s.scope (← get)
    match (texts.map fun t => listEntry p tag (.ofText t)).find? (readsAsEntry scope pom) with
    | some n => return some n
    | none =>
      if (object.value.map Value.isFunction).getD false then return none
      else
        let o ← writeTerm s site object
        let n := listEntry p "" o
        return if readsAsEntry (s.scope (← get)) pom n then some n else none

/-- Writes a predicate-object map as a list, if it has one predicate and one object. -/
def writeCompact (s : Style) (pom : PredicateObjectMap) : Writing (Option Node) :=
  match pom.predicates, pom.objects, pom.graphs with
  | [predicate], [object], [] => optional (writeList s pom predicate object)
  | _, _, _ => return none

/-- Writes a predicate-object map as an entry of a list. -/
def writePair (s : Style) (pom : PredicateObjectMap) : Writing Node := do
  match ← writeCompact s pom with
  | some n => return n
  | none =>
    let predicates ← writeTerms s { position := .predicate } pom.predicates
    let objects ← writeTerms s (objectSite pom.predicates) pom.objects
    let graphs ← writeTerms s { position := .graph } pom.graphs
    let n := Node.ofEntries ([entry "p" (single compactList predicates),
      entry "o" (single compactList objects)] ++
      if graphs.isEmpty then [] else [entry "graph" (single compactList graphs)])
    if readsAsEntry (s.scope (← get)) pom n then return n else throw .unwritablePair

/-- Writes the entries of a list, the first of which has a number. -/
def writeEntries (s : Style) (i : Nat) : List PredicateObjectMap → Writing (List Node)
  | [] => return []
  | pom :: rest => do
    let n ← tryCatch (writePair s pom) fun e => throw (.atPair i e)
    return n :: (← writeEntries s (i + 1) rest)

/-- Writes predicate-object maps as a mapping if that reads back, and else as a list. -/
def writePairs (s : Style) (poms : List PredicateObjectMap) : Writing Node := do
  match ← writeInline s poms with
  | some n => return n
  | none => return .blockList (← writeEntries s 0 poms)

/-! ## Triples maps -/

/-- The short name of a reference formulation. -/
def formulationName? (iri : String) : Option String :=
  (formulations.find? fun f => f.2 == iri).map Prod.fst

/-- Writes the parts of a source. -/
def writeSourceParts (s : Style) (ls : LogicalSource) : Writing Node := do
  let formulation ← match formulationName? ls.formulation with
    | some name => pure name
    | none => if ls.formulation = "" then pure "" else s.iriText ls.formulation
  let sqlVersion ← if ls.sqlVersion = "" then pure "" else s.iriText ls.sqlVersion
  return .ofEntries (textEntry "access" ls.access ++
    textEntry "referenceFormulation" formulation ++ textEntry "iterator" ls.iterator ++
    textEntry "table" ls.table ++ textEntry "query" ls.query ++
    textEntry "sqlVersion" sqlVersion)

/-- Writes a source. -/
def writeSource (s : Style) (ls : LogicalSource) : Writing Node :=
  let plain := !Text.hasChar '~' ls.access
  match formulationName? ls.formulation with
  | some name =>
    if ls.access ≠ "" && plain && ls.table = "" && ls.query = "" && ls.sqlVersion = "" then
      let head := Node.ofText (ls.access ++ "~" ++ name)
      return if ls.iterator = "" then head else .flowList [head, .ofText ls.iterator]
    else writeSourceParts s ls
  | none =>
    if plain && ls = { access := ls.access } then return .ofText ls.access
    else writeSourceParts s ls

/-- Puts an obstacle at its place in a document. -/
def located {α : Type} (mapping path : String) (x : Writing α) :
    ExceptT Diagnostic (StateM PrefixTable) α :=
  x.adapt fun e =>
    { kind := .semantic, code := "invalid_value", message := e.message
      location := { mapping, path } }

/-- Writes a triples map. -/
def writeTriplesMap (s : Style) (tm : TriplesMap) :
    ExceptT Diagnostic (StateM PrefixTable) Node := do
  let source ← if tm.source.isEmpty then pure []
    else (fun n => [entry "sources" n]) <$> located tm.id "sources" (writeSource s tm.source)
  let subject ← located tm.id "subject" (writeTerm s { position := .subject } tm.subject.term)
  let classes ← located tm.id "class" (tm.subject.classes.mapM s.iriText)
  let graphs ← located tm.id "graph" (writeTerms s { position := .graph } tm.subject.graphs)
  let pairs ← if tm.predicateObjects.isEmpty then pure []
    else (fun n => [entry "predicate" n]) <$>
      located tm.id "predicate" (writePairs s tm.predicateObjects)
  return .ofEntries (source ++ [entry "subject" subject] ++
    (if classes.isEmpty then []
      else [entry "class" (single .flowList (classes.map Node.ofText))]) ++
    (if graphs.isEmpty then [] else [entry "graph" (single .blockList graphs)]) ++ pairs)

/-! ## Documents -/

/-- The prefixes of a document that are not built in. -/
def declaredPrefixes (doc : Document) : PrefixTable :=
  doc.table.filter fun label ns => !PrefixTable.isBuiltin label ns

/-- How a document is written. -/
structure WriteOptions where
  /-- Prefixes for IRIs that those of the document do not cover. -/
  fallback : PrefixTable := .empty
  /-- Whether the dialect of a relational document is stated. -/
  keepDialect : Bool := false

/-- Writes the triples maps of a document. -/
def writeMaps (s : Style) (maps : List TriplesMap) :
    ExceptT Diagnostic (StateM PrefixTable) (List Entry) :=
  maps.mapM fun tm => return entry tm.id (← writeTriplesMap s tm)

/-- The tree of a document. -/
def write (doc : Document) (options : WriteOptions) : Except Diagnostic Node :=
  let s : Style := ⟨doc.base, doc.table, options.fallback⟩
  let (maps, declared) := (writeMaps s doc.maps).run.run (declaredPrefixes doc)
  maps.map fun maps =>
    .document {} [.ofEntries (
      (if declared.bindings.isEmpty then []
        else [entry "prefixes" (.ofEntries (declared.bindings.map fun (label, ns) =>
          entry label (.ofText ns)))]) ++
      (if doc.base = defaultBase then [] else [entry "base" (.ofText doc.base)]) ++
      (if options.keepDialect && doc.dialect = .r2rml then
        [entry "dialect" (.ofText doc.dialect.name)] else []) ++
      [entry "mappings" (.mapping {} maps.isEmpty maps)])]

end RdfMapping.Shorthand
