/-
# Decoding rule graphs

Triples are grouped into a document.  Triples maps are the nodes with a source; all of them
are known before any join is read, so the order of the triples never changes what a join
refers to.  Every triple has to be used: one that belongs to no map is a flaw.
-/
import RdfMapping.Logged
import RdfMapping.Mapping.Validation
import RdfMapping.RuleGraph.Flaw
import RdfMapping.RuleGraph.Graph
import RdfMapping.RuleGraph.Naming

namespace RdfMapping.RuleGraph

open Iri (PrefixTable)
open Mapping
open Rdf (Term Quad Tag)

/-! ## Findings -/

/-- What is noted while a graph is decoded. -/
inductive Finding where
  /-- A flaw of a map. -/
  | flaw (d : Diagnostic)
  /-- The flaws of a source.  A source that several maps share is reported once. -/
  | source (node : Term) (flaws : List Diagnostic)
  /-- The triple with a number belongs to a map. -/
  | used (number : Nat)
  /-- A function value leads back to itself. -/
  | endless

/-- A part of a document with what was noted. -/
abbrev Decoding (α : Type) := Logged Finding α

/-- A part of a document that may be missing, with what was noted. -/
abbrev Trial (α : Type) := Attempt Finding α

namespace Finding

/-- The flaw a finding is by itself. -/
def flaw? : Finding → Option Diagnostic
  | flaw d => some d
  | _ => none

/-- The number of the triple a finding marks as used. -/
def used? : Finding → Option Nat
  | used number => some number
  | _ => none

/-- The flaws among findings, those of the sources in `seen` left out. -/
def report (seen : List Term) : List Finding → List Diagnostic
  | [] => []
  | .flaw d :: rest => d :: report seen rest
  | .source node flaws :: rest =>
    if seen.contains node then report seen rest else flaws ++ report (node :: seen) rest
  | .used _ :: rest => report seen rest
  | .endless :: rest => report seen rest

/-- Whether a finding says that decoding does not come to an end. -/
def isEndless : Finding → Bool
  | endless => true
  | _ => false

end Finding

/-- What decoding needs to know: the graph, the identifiers, and the one at hand. -/
structure Context where
  graph : Graph
  ids : List (Term × String)
  mapping : String

namespace Context

/-- Notes a flaw at a path. -/
def note (c : Context) (f : Flaw) (path : String) : Decoding Unit :=
  .tell [.flaw (f.diagnostic c.mapping path)]

/-- Notes a flaw at a path and gives no value. -/
def refuse {α : Type} (c : Context) (f : Flaw) (path : String) : Trial α :=
  .fail [.flaw (f.diagnostic c.mapping path)]

/-- Marks the triples of edges as used. -/
def use (es : List Edge) : Decoding Unit :=
  .tell (es.map fun e => .used e.number)

/-- The edges from a node with one of the properties, all of them used. -/
def take (c : Context) (n : Term) (properties : List String) : Decoding (List Edge) := do
  let es := c.graph.edges n properties
  use es
  return es

/-- Uses the statements that a node belongs to one of the classes. -/
def takeTypes (c : Context) (n : Term) (classes : List String) : Decoding Unit :=
  use ((c.graph.edges n [rdfType]).filter fun e => e.object.iri?.any classes.contains)

/-- The value of a property a node has at most once.  A value of the wrong sort is not used. -/
def property (c : Context) (read : Term → Option String) (n : Term) (path : String)
    (properties : List String) : Decoding String :=
  match c.graph.edges n properties with
  | [] => pure ""
  | [e] =>
    match read e.object with
    | some text => do
      use [e]
      return text
    | none => pure ""
  | e :: rest => do
    c.note (.severalValues n (rest.length + 1) e.property) path
    return ""

end Context

/-! ## Terms -/

/-- The text of a plain literal. -/
def textOf? : Term → Option String
  | .literal text .plain => some text
  | .literal text (.datatype type) => if type = xsdString then some text else none
  | _ => none

/-- The constant a term is. -/
def constantOf : Term → Except Flaw Constant
  | .iri value => .ok (.ofIri value)
  | .blank label => .ok ⟨.blankNode, label, "", ""⟩
  | .literal text .plain => .ok (.ofText text)
  | .literal text (.language code) => .ok ⟨.literal, text, "", code⟩
  | .literal text (.datatype type) => .ok ⟨.literal, text, type, ""⟩
  | .missing => .error .missingTerm
  | found => .error (.unsupportedTerm found)

/-- The kind of terms an IRI stands for. -/
def kindOf? : Term → Option TermType
  | .iri value =>
    if value = Kind.iri then some .iri
    else if value = Kind.blankNode then some .blankNode
    else if value = Kind.literal then some .literal
    else none
  | _ => none

/-! ## Sources -/

/-- Decodes the parts of a source. -/
def decodeSourceParts (c : Context) (n : Term) : Decoding LogicalSource := do
  let text (part : String) := c.property textOf? n ("sources." ++ part)
  let iri (part : String) := c.property Term.iri? n ("sources." ++ part)
  c.takeTypes n Class.ofSources
  let access ← text "access" [Property.source]
  let formulation ← iri "referenceFormulation" [Property.referenceFormulation]
  let iterator ← text "iterator" [Property.iterator]
  let table ← text "table" [Property.tableName]
  let query ← text "query" [Property.query, Property.sqlQuery]
  let sqlVersion ← iri "sqlVersion" [Property.sqlVersion]
  return { access, formulation, iterator, table, query, sqlVersion }

/-- Decodes a source, which triples maps may share. -/
def decodeSource (c : Context) (n : Term) : Decoding LogicalSource :=
  if n.isNode then
    let parts := decodeSourceParts c n
    ⟨parts.value, .source n (parts.notes.filterMap Finding.flaw?) ::
      (parts.notes.filterMap Finding.used?).map .used⟩
  else do
    c.note (.notANode .source n) "sources"
    return {}

/-! ## Joins -/

/-- Takes a node in a role that it may have for one map only. -/
def takeNode (c : Context) (role : Role) (links : List String) (n : Term) (path : String) :
    Trial Unit :=
  if !n.isNode then c.refuse (.notANode role n) path
  else if 1 < c.graph.referrers n links then
    c.refuse (.shared role n (c.graph.referrers n links)) path
  else pure ()

/-- Decodes a join condition. -/
def decodeCondition (c : Context) (n : Term) (path : String) : Trial JoinCondition := do
  takeNode c .joinCondition [Property.joinCondition] n path
  c.takeTypes n [Class.join]
  let child ← c.property textOf? n (path ++ ".child") [Property.child]
  let parent ← c.property textOf? n (path ++ ".parent") [Property.parent]
  if child = "" || parent = "" then c.refuse (.incompleteCondition n) path
  else return ⟨child, parent⟩

/-- The path of a part with a number. -/
def numbered (path : String) (i : Nat) : String :=
  path ++ "[" ++ toString i ++ "]"

/-- Decodes a join with the triples map of a node. -/
def decodeJoin (c : Context) (n parent : Term) (path : String) : Trial Value :=
  match c.ids.lookup parent with
  | none => c.refuse (.danglingJoin parent) path
  | some id => do
    let es ← c.take n [Property.joinCondition]
    let conditions ← Attempt.all (es.mapIdx fun i e =>
      decodeCondition c e.object (numbered (path ++ ".condition") i))
    if conditions.isEmpty then c.refuse (.noJoinCondition parent) path
    else return .join id conditions

/-! ## Term maps -/

/-- Decodes a constant. -/
def decodeConstant (c : Context) (t : Term) (path : String) : Trial Constant :=
  match constantOf t with
  | .ok term => pure term
  | .error f => c.refuse f path

/-- Decodes the value of a term map.  `functionAt` decodes function values. -/
def decodeValue (c : Context) (functionAt : Term → String → Trial Value) (n : Term) (e : Edge)
    (path : String) : Trial Value :=
  if e.property = Property.constant then return .constant (← decodeConstant c e.object path)
  else if e.property = Property.template then
    match textOf? e.object with
    | some pattern => pure (.template pattern)
    | none => c.refuse (.templateNotText e.object) path
  else if e.property = Property.functionValue then functionAt e.object path
  else if e.property = Property.parentTriplesMap then decodeJoin c n e.object path
  else
    match textOf? e.object with
    | some name => pure (.reference name)
    | none => c.refuse (.referenceNotText e.property e.object) path

/-- Decodes the stated kind of the terms of a term map. -/
def decodeStated (c : Context) (n : Term) (path : String) : Trial (Option TermType) :=
  match c.graph.edges n [Property.termType] with
  | [] => pure none
  | [e] =>
    match kindOf? e.object with
    | some kind => do
      Context.use [e]
      return some kind
    | none => c.refuse (.invalidTermType n) path
  | _ => c.refuse (.invalidTermType n) path

/-- Puts a datatype and a language on a constant, which has to be a plain literal. -/
def tagConstant (c : Context) (term : Constant) (datatype language path : String) :
    Trial Constant :=
  if datatype = "" && language = "" then pure term
  else if term.kind ≠ .literal || term.datatype ≠ "" || term.language ≠ "" then
    c.refuse (.taggedConstant term) path
  else pure { term with datatype, language }

/-- Decodes what a term map states besides its value; the kind may be implied. -/
def decodeAttributes (c : Context) (position : Position) (n : Term) (value : Value)
    (path : String) : Trial TermMap := do
  let stated ← decodeStated c n path
  let datatype ← c.property Term.iri? n path [Property.datatype]
  let language ← c.property textOf? n path [Property.language]
  match value with
  | .constant term => do
    let term ← tagConstant c term datatype language path
    if stated.getD term.kind = term.kind then
      return { value := some (.constant term), termType := term.kind }
    else c.refuse (.contradictingType (stated.getD term.kind) term) path
  | value =>
    let tm : TermMap := { value := some value, datatype, language }
    return { tm with termType := stated.getD (defaultTermType position tm) }

/-- Decodes a term map. -/
def decodeTermMap (c : Context) (functionAt : Term → String → Trial Value)
    (position : Position) (n : Term) (path : String) : Trial TermMap := do
  takeNode c .termMap Property.termMapLinks n path
  c.takeTypes n Class.ofTermMaps
  match c.graph.edges n Property.values with
  | [e] => do
    Context.use [e]
    let value ← decodeValue c functionAt n e path
    decodeAttributes c position n value path
  | es => c.refuse (.valueCount n (es.map Edge.property)) path

/-- Decodes the term maps a node links to.  A shortcut leads to a constant directly. -/
def decodeLinked (c : Context) (functionAt : Term → String → Trial Value) (position : Position)
    (n : Term) (path link shortcut : String) : Decoding (List TermMap) := do
  let es ← c.take n [link, shortcut]
  Logged.those (es.mapIdx fun i e =>
    if e.property = shortcut then
      return .ofConstant (← decodeConstant c e.object (numbered path i))
    else decodeTermMap c functionAt position e.object (numbered path i))

/-- Decodes the graphs a node links to. -/
def decodeGraphs (c : Context) (functionAt : Term → String → Trial Value) (n : Term)
    (path : String) : Decoding (List TermMap) :=
  decodeLinked c functionAt .graph n path Property.graphMap Property.graph

/-- Decodes a predicate-object map. -/
def decodePair (c : Context) (functionAt : Term → String → Trial Value) (n : Term)
    (path : String) : Trial PredicateObjectMap := do
  takeNode c .predicateObjectMap [Property.predicateObjectMap] n path
  c.takeTypes n [Class.predicateObjectMap]
  let predicates ← decodeLinked c functionAt .predicate n (path ++ ".p") Property.predicateMap
    Property.predicate
  let objects ← decodeLinked c functionAt .object n (path ++ ".o") Property.objectMap
    Property.object
  let graphs ← decodeGraphs c functionAt n (path ++ ".graph")
  return { predicates, objects, graphs }

/-! ## Functions -/

/-- An entry of a function value. -/
inductive FunctionEntry where
  /-- The function that is called. -/
  | executes (iri : String)
  /-- A parameter. -/
  | parameter (p : Parameter)

namespace FunctionEntry

/-- The function an entry names. -/
def executes? : FunctionEntry → Option String
  | executes iri => some iri
  | parameter _ => none

/-- The parameter an entry is. -/
def parameter? : FunctionEntry → Option Parameter
  | executes _ => none
  | parameter p => some p

end FunctionEntry

/-- The IRI that a term map always makes. -/
def constantIri? (tm : TermMap) : Option String :=
  match tm.value with
  | some (.constant term) => if term.kind = .iri then some term.value else none
  | _ => none

/-- The entry a predicate-object map stands for; `name` is the function named so far. -/
def entryOf (c : Context) (name : String) (pom : PredicateObjectMap) (path : String) :
    Trial FunctionEntry :=
  match pom.predicates, pom.objects, pom.graphs with
  | [predicate], [object], [] =>
    match constantIri? predicate with
    | none => c.refuse .functionPredicate path
    | some iri =>
      if iri ≠ Property.executes then pure (.parameter ⟨iri, object⟩)
      else match constantIri? object with
        | some function =>
          if name ≠ "" then c.refuse .executesEntry path else pure (.executes function)
        | none => c.refuse .executesEntry path
  | _, _, _ => c.refuse .functionEntry path

/-- Decodes an entry of a function value; `name` is the function named so far. -/
def decodeEntry (c : Context) (functionAt : Term → String → Trial Value) (name : String)
    (n : Term) (path : String) : Trial FunctionEntry := do
  let pom ← decodePair c functionAt n path
  entryOf c name pom path

/-- Decodes the entries of a function value; `name` is the function named so far. -/
def decodeEntries (c : Context) (functionAt : Term → String → Trial Value) (path : String)
    (i : Nat) (name : String) : List Edge → Trial (String × List Parameter)
  | [] => pure (name, [])
  | e :: rest => OptionT.mk do
    let entry ← (decodeEntry c functionAt name e.object (numbered (path ++ ".function") i)).run
    let next := (entry.bind FunctionEntry.executes?).getD name
    let more ← (decodeEntries c functionAt path (i + 1) next rest).run
    return do
      let entry ← entry
      let more ← more
      return (more.1, entry.parameter?.toList ++ more.2)

/-- Decodes a function value.  `functionAt` decodes the function values inside it. -/
def decodeFunction (c : Context) (functionAt : Term → String → Trial Value) (n : Term)
    (path : String) : Trial Value := do
  takeNode c .functionValue [Property.functionValue] n path
  c.takeTypes n [Class.triplesMap]
  let sources ← c.take n [Property.logicalSource]
  let _ ← Logged.each (sources.map fun e => decodeSource c e.object)
  let entries ← c.take n [Property.predicateObjectMap]
  let (name, parameters) ← decodeEntries c functionAt path 0 "" entries
  if name = "" then c.refuse (.noFunction n) path else return .function name parameters

/-- Decodes function values nested at most so deep. -/
def functionWithin (c : Context) : Nat → Term → String → Trial Value
  | 0, _, _ => .fail [.endless]
  | depth + 1, n, path => decodeFunction c (functionWithin c depth) n path

/-! ## Triples maps -/

/-- Decodes the classes of the subjects of a map. -/
def decodeClasses (c : Context) (n : Term) : Decoding (List String) := do
  let es := (c.graph.edges n [Property.classOf]).filter fun e => e.object.iri?.isSome
  Context.use es
  return es.filterMap fun e => e.object.iri?

/-- Decodes the subjects of a map. -/
def decodeSubject (c : Context) (functionAt : Term → String → Trial Value) (e : Edge) :
    Trial SubjectMap :=
  if e.property = Property.subject then
    return { term := .ofConstant (← decodeConstant c e.object "subject") }
  else if 1 < c.graph.referrers e.object [Property.subjectMap] then
    c.refuse (.sharedSubjectMap e.object (c.graph.referrers e.object [Property.subjectMap]))
      "subject"
  else do
    let term ← decodeTermMap c functionAt .subject e.object "subject"
    let classes ← decodeClasses c e.object
    let graphs ← decodeGraphs c functionAt e.object "graph"
    return { term, classes, graphs }

/-- Decodes the one source of a triples map. -/
def decodeOwnSource (c : Context) (n : Term) : Decoding LogicalSource := do
  match ← c.take n Property.sources with
  | [e] => decodeSource c e.object
  | es => do
    c.note (.severalSources n es.length) "sources"
    return {}

/-- Decodes the one subject map of a triples map. -/
def decodeOwnSubject (c : Context) (functionAt : Term → String → Trial Value) (n : Term) :
    Decoding (Option SubjectMap) := do
  match ← c.take n [Property.subjectMap, Property.subject] with
  | [] => do
    c.note (.noSubjectMap n) "subject"
    return none
  | [e] => (decodeSubject c functionAt e).run
  | es => do
    c.note (.severalSubjectMaps n es.length) "subject"
    return none

/-- Decodes the predicate-object maps of a triples map. -/
def decodePairs (c : Context) (functionAt : Term → String → Trial Value) (n : Term) :
    Decoding (List PredicateObjectMap) := do
  let es ← c.take n [Property.predicateObjectMap]
  Logged.those (es.mapIdx fun i e => decodePair c functionAt e.object (numbered "po" i))

/-- Decodes a triples map. -/
def decodeTriplesMap (c : Context) (functionAt : Term → String → Trial Value) (n : Term) :
    Decoding TriplesMap := do
  c.takeTypes n [Class.triplesMap]
  let source ← decodeOwnSource c n
  let subject ← decodeOwnSubject c functionAt n
  let predicateObjects ← decodePairs c functionAt n
  return { id := c.mapping, source, subject := subject.getD {}, predicateObjects }

/-! ## Documents -/

/-- The dialect of a graph: it is relational if it says nothing else. -/
def dialectOf (g : Graph) : Dialect :=
  if g.uses [Property.logicalTable] && !g.uses Property.beyondRelational then .r2rml else .rml

/-- The triples that no map used. -/
def leftovers (g : Graph) (used : List Nat) : List Quad :=
  (g.triples.zipIdx.filter fun t => !used.contains t.2).map Prod.fst ++ g.named

/-- The base of a document: the one given, the one its nodes share, or the default one. -/
def chooseBase (base : String) (anchors : List Term) : String :=
  if base = "" then (inferBase? anchors).getD defaultBase else base

/-- Decodes the triples maps of a graph, with function values nested at most so deep. -/
def decodeMaps (depth : Nat) (g : Graph) (ids : List (Term × String)) :
    Decoding (List TriplesMap) :=
  .each (ids.map fun (n, id) =>
    decodeTriplesMap ⟨g, ids, id⟩ (functionWithin ⟨g, ids, id⟩ depth) n)

/-- Why quads give no document. -/
inductive DecodeError where
  /-- Something is wrong with the triples, or with the document they make up. -/
  | flawed (found : List Diagnostic)
  /-- A function value leads back to itself, and decoding does not come to an end. -/
  | endless
deriving DecidableEq, Repr

/-- The document to which the maps of a graph are added. -/
def emptyDocument (base : String) (prefixes : Option PrefixTable) (g : Graph) : Document :=
  { Document.create base (some (prefixes.getD .builtin)) with dialect := dialectOf g }

/-- What comes of a document and of what was noted while it was decoded. -/
def conclude (g : Graph) (notes : List Finding) (doc : Document) :
    Except DecodeError Document :=
  let flaws := Finding.report [] notes
  if notes.any Finding.isEndless then .error .endless
  else if !flaws.isEmpty then .error (.flawed flaws)
  else match leftovers g (notes.filterMap Finding.used?) with
    | [] => if doc.isValid then .ok doc.freeze else .error (.flawed doc.violations)
    | rest => .error (.flawed (rest.map fun q => (Flaw.unrecognized q).diagnostic "" ""))

/-- Decodes the document of a list of quads, with function values nested at most so deep. -/
def decodeWithin (depth : Nat) (base : String) (prefixes : Option PrefixTable)
    (qs : List Quad) : Except DecodeError Document :=
  let g := Graph.ofQuads qs
  let base := chooseBase base g.anchors
  let maps := decodeMaps depth g (g.anchors.zip (assignIds base g.anchors))
  match maps.value.foldlM Document.add (emptyDocument base prefixes g) with
  | .ok doc => conclude g maps.notes doc
  | .error e => .error (.flawed [(Flaw.refused e).diagnostic "" ""])

/-- Decodes the document of a list of quads.  Without a table the built-in prefixes are taken,
and an empty base is inferred.  Each function value is the object of a triple, so those that are
nested deeper than there are such triples repeat one of them and go on for ever. -/
def decode (base : String) (prefixes : Option PrefixTable) (qs : List Quad) :
    Except DecodeError Document :=
  decodeWithin (Graph.ofQuads qs).functionCount base prefixes qs

end RdfMapping.RuleGraph
