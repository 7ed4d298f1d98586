/-
# Emission

A document as triples.  Every map, source, term map, function value and join condition is a
node; the nodes of triples maps are IRIs, the others blank nodes with fresh labels.  The
triples come in a fixed order, so that a document is always written the same way.

Fresh labels come from a counter, which every step passes on (`Step`).
-/
import RdfMapping.Mapping.Document
import RdfMapping.Rdf.Term
import RdfMapping.RuleGraph.Vocabulary

namespace RdfMapping.RuleGraph

open Mapping Rdf

/-! ## What the relational dialect cannot express -/

/-- What is wrong with the source of a triples map in the relational dialect. -/
def sourceUnsupported (tm : TriplesMap) : List Diagnostic :=
  let location : Location := { span := tm.span, mapping := tm.id }
  if tm.source.isEmpty then
    [{ kind := .semantic, code := "missing_logical_table", location
       message := "R2RML needs a table or query for mapping " ++ Text.quote tm.id }]
  else if !tm.source.isRelational then
    [{ kind := .unsupportedInR2rml, code := "unsupported_in_r2rml", location
       message := "source " ++ Text.quote tm.source.access ++ " of mapping " ++
         Text.quote tm.id ++ " is not relational" }]
  else []

/-- Whether a term map is the result of a function. -/
def isFunctionMap (t : TermMap) : Bool :=
  t.value.any Value.isFunction

/-- The functions of a triples map, which the relational dialect lacks. -/
def functionsUnsupported (tm : TriplesMap) : List Diagnostic :=
  (tm.termMaps.filter fun (_, t) => isFunctionMap t).map fun (path, t) =>
    { kind := .unsupportedInR2rml, code := "unsupported_in_r2rml"
      location := { span := t.span, mapping := tm.id, path }
      message := "function maps cannot be expressed in R2RML" }

/-- All of a document that the relational dialect cannot express. -/
def unsupported (doc : Document) : List Diagnostic :=
  doc.maps.flatMap fun tm => sourceUnsupported tm ++ functionsUnsupported tm

/-! ## Labels in use -/

mutual

/-- The labels of the blank nodes in a term map, also in parameters of functions. -/
def labelsOf : TermMap → List String
  | ⟨none, _, _, _, _⟩ => []
  | ⟨some value, _, _, _, _⟩ => labelsOfValue value

/-- The labels of the blank nodes in a value. -/
def labelsOfValue : Value → List String
  | .constant term => if term.kind = .blankNode then [term.value] else []
  | .function _ parameters => labelsOfParameters parameters
  | _ => []

/-- The labels of the blank nodes in parameters. -/
def labelsOfParameters : List Parameter → List String
  | [] => []
  | ⟨_, value⟩ :: rest => labelsOf value ++ labelsOfParameters rest

end

/-- The labels of the blank nodes in a document, which fresh nodes avoid. -/
def labelsIn (doc : Document) : List String :=
  doc.maps.flatMap fun tm => tm.termMaps.flatMap fun (_, t) => labelsOf t

/-! ## Steps -/

/-- What a step writes, and the counter it leaves. -/
structure Written (α : Type) where
  value : α
  next : Nat
  triples : List Quad

/-- A step of emission, from the counter it finds. -/
def Step (α : Type) : Type := Nat → Written α

namespace Step

instance : Monad Step where
  pure a := fun n => ⟨a, n, []⟩
  bind x f := fun n =>
    let r := x n
    let s := f r.value r.next
    ⟨s.value, s.next, r.triples ++ s.triples⟩

/-- Writes triples. -/
def write (triples : List Quad) : Step Unit :=
  fun n => ⟨(), n, triples⟩

/-- Runs a step for every element of a list. -/
def each {α : Type} (f : α → Step Unit) : List α → Step Unit
  | [] => pure ()
  | a :: as => do
    f a
    each f as

end Step

/-- The label with a number. -/
def labelAt (n : Nat) : String := "b" ++ toString n

/-- The first number from `n` on whose label is not in use. -/
def freshNumber (used : List String) (n : Nat) : Nat :=
  ((List.range' n (used.length + 1)).find? fun i => !used.contains (labelAt i)).getD n

/-- A blank node whose label is not in use. -/
def freshNode (used : List String) : Step Term :=
  fun n =>
    let i := freshNumber used n
    ⟨.blank (labelAt i), i + 1, []⟩

/-! ## Parts of a document -/

/-- A triple with the given property. -/
def triple (s : Term) (property : String) (o : Term) : Quad :=
  { subject := s, predicate := .iri property, object := o }

/-- A triple with a text, unless the text is empty. -/
def textTriple (s : Term) (property value : String) : List Quad :=
  if value = "" then [] else [triple s property (.ofText value)]

/-- A triple with an IRI, unless the IRI is empty. -/
def iriTriple (s : Term) (property value : String) : List Quad :=
  if value = "" then [] else [triple s property (.iri value)]

/-- The class of a node. -/
def typeTriple (s : Term) (class_ : String) : Quad :=
  triple s rdfType (.iri class_)

/-- A constant as a term.  A language goes before a datatype. -/
def termOf (c : Constant) : Term :=
  match c.kind with
  | .iri => .iri c.value
  | .blankNode => .blank c.value
  | .literal =>
    if c.language ≠ "" then .literal c.value (.language c.language)
    else if c.datatype ≠ "" then .literal c.value (.datatype c.datatype)
    else .ofText c.value

/-- The IRI that names a kind of terms. -/
def kindIri : TermType → String
  | .iri => Kind.iri
  | .blankNode => Kind.blankNode
  | .literal => Kind.literal

/-- The names that differ between the dialects. -/
def sourceProperty : Dialect → String
  | .rml => Property.logicalSource
  | .r2rml => Property.logicalTable

@[inherit_doc sourceProperty]
def queryProperty : Dialect → String
  | .rml => Property.query
  | .r2rml => Property.sqlQuery

@[inherit_doc sourceProperty]
def referenceProperty : Dialect → String
  | .rml => Property.reference
  | .r2rml => Property.column

/-- The class of the node of a source. -/
def sourceClass (dialect : Dialect) (ls : LogicalSource) : String :=
  match dialect with
  | .rml => Class.logicalSource
  | .r2rml => if ls.query ≠ "" && ls.table = "" then Class.view else Class.logicalTable

/-- The triples of a source; in the relational dialect table, query and version. -/
def sourceTriples (dialect : Dialect) (node : Term) (ls : LogicalSource) : List Quad :=
  typeTriple node (sourceClass dialect ls) ::
    (match dialect with
      | .rml => textTriple node Property.source ls.access ++
          iriTriple node Property.referenceFormulation ls.formulation ++
          textTriple node Property.iterator ls.iterator
      | .r2rml => []) ++
    textTriple node Property.tableName ls.table ++
    textTriple node (queryProperty dialect) ls.query ++
    iriTriple node Property.sqlVersion ls.sqlVersion

/-- What a document is written with: the base, the dialect and the labels in use. -/
structure Setting where
  base : String
  dialect : Dialect
  used : List String

/-- A join condition of a node. -/
def joinStep (s : Setting) (node : Term) (c : JoinCondition) : Step Unit := do
  let jc ← freshNode s.used
  .write (triple node Property.joinCondition jc :: typeTriple jc Class.join ::
    textTriple jc Property.child c.child ++ textTriple jc Property.parent c.parent)

/-- Term type, datatype and language of a node, where they are not implied. -/
def attributeTriples (node : Term) (position : Position) (tm : TermMap) : List Quad :=
  (if !tm.value.any Value.isConstant && tm.termType ≠ defaultTermType position tm then
    [triple node Property.termType (.iri (kindIri tm.termType))] else []) ++
  iriTriple node Property.datatype tm.datatype ++
  textTriple node Property.language tm.language

/-- The class of the node of an object. -/
def objectClass (tm : TermMap) : String :=
  if tm.value.any Value.isJoin then Class.refObjectMap else Class.objectMap

/-- The head of an entry of a function: a node with one constant predicate. -/
def entryStep (s : Setting) (node : Term) (property : String) : Step Term := do
  let entry ← freshNode s.used
  .write [triple node Property.predicateObjectMap entry, typeTriple entry Class.predicateObjectMap]
  let pm ← freshNode s.used
  .write [triple entry Property.predicateMap pm, typeTriple pm Class.predicateMap,
    triple pm Property.constant (.iri property)]
  return entry

mutual

/-- A term map at its node. -/
def termMapStep (s : Setting) (node : Term) (class_ : String) (position : Position) :
    TermMap → Step Unit
  | ⟨none, termType, datatype, language, span⟩ =>
    .write (typeTriple node class_ ::
      attributeTriples node position ⟨none, termType, datatype, language, span⟩)
  | ⟨some value, termType, datatype, language, span⟩ => do
    .write [typeTriple node class_]
    valueStep s node value
    if !value.isJoin then
      .write (attributeTriples node position ⟨some value, termType, datatype, language, span⟩)

/-- The value of a term map at its node. -/
def valueStep (s : Setting) (node : Term) : Value → Step Unit
  | .constant term => .write [triple node Property.constant (termOf term)]
  | .reference name => .write [triple node (referenceProperty s.dialect) (.ofText name)]
  | .template pattern => .write [triple node Property.template (.ofText pattern)]
  | .function iri parameters => do
    let fn ← freshNode s.used
    .write [triple node Property.functionValue fn]
    let entry ← entryStep s fn Property.executes
    let om ← freshNode s.used
    .write [triple entry Property.objectMap om, typeTriple om Class.objectMap,
      triple om Property.constant (.iri iri)]
    parametersStep s fn parameters
  | .join parent conditions => do
    .write [triple node Property.parentTriplesMap (.iri (mapIri s.base parent))]
    Step.each (joinStep s node) conditions

/-- The parameters of a function at the node of its value. -/
def parametersStep (s : Setting) (fn : Term) : List Parameter → Step Unit
  | [] => pure ()
  | ⟨name, value⟩ :: rest => do
    let entry ← entryStep s fn name
    let om ← freshNode s.used
    .write [triple entry Property.objectMap om]
    termMapStep s om (objectClass value) .parameter value
    parametersStep s fn rest

end

/-- A term map at a new node, linked from another. -/
def linkedStep (s : Setting) (node : Term) (link class_ : String) (position : Position)
    (tm : TermMap) : Step Unit := do
  let n ← freshNode s.used
  .write [triple node link n]
  termMapStep s n class_ position tm

/-- The graphs of a map. -/
def graphsStep (s : Setting) (node : Term) (graphs : List TermMap) : Step Unit :=
  .each (linkedStep s node Property.graphMap Class.graphMap .graph) graphs

/-- A predicate-object map of a triples map. -/
def pairStep (s : Setting) (node : Term) (pom : PredicateObjectMap) : Step Unit := do
  let n ← freshNode s.used
  .write [triple node Property.predicateObjectMap n, typeTriple n Class.predicateObjectMap]
  Step.each (linkedStep s n Property.predicateMap Class.predicateMap .predicate) pom.predicates
  Step.each (fun o => linkedStep s n Property.objectMap (objectClass o) .object o) pom.objects
  graphsStep s n pom.graphs

/-- A triples map. -/
def triplesMapStep (s : Setting) (tm : TriplesMap) : Step Unit := do
  let node : Term := .iri (mapIri s.base tm.id)
  let src ← freshNode s.used
  .write (triple node (sourceProperty s.dialect) src :: sourceTriples s.dialect src tm.source)
  .write [typeTriple node Class.triplesMap]
  let sm ← freshNode s.used
  .write [triple node Property.subjectMap sm]
  termMapStep s sm Class.subjectMap .subject tm.subject.term
  .write (tm.subject.classes.map fun c => triple sm Property.classOf (.iri c))
  graphsStep s sm tm.subject.graphs
  Step.each (pairStep s node) tm.predicateObjects

/-! ## Documents -/

/-- The triples of a document in a dialect, whether or not the dialect can express it. -/
def triplesOf (doc : Document) (dialect : Dialect) : List Quad :=
  (Step.each (triplesMapStep ⟨doc.base, dialect, labelsIn doc⟩) doc.maps 0).triples

/-- The triples of a document, or what its dialect cannot express. -/
def emit (doc : Document) (dialect : Dialect) : Except (List Diagnostic) (List Quad) :=
  if dialect = .r2rml && !(unsupported doc).isEmpty then .error (unsupported doc)
  else .ok (triplesOf doc dialect)

end RdfMapping.RuleGraph
