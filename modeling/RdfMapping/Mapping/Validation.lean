/-
# Validation

The rules a complete document obeys.  Every violation is reported, in document order, with
the mapping and the path of the element at fault.
-/
import RdfMapping.Mapping.Document
import RdfMapping.Mapping.Template
import RdfMapping.Text.Suggestion

namespace RdfMapping.Mapping

/-! ## Violations -/

/-- A rule that a document breaks. -/
inductive Violation where
  | noDocument
  | emptyBase
  | invalidId (id : String)
  | duplicateId (id : String)
  | emptyClass
  | incompletePair
  | noValue (position : Position)
  | constantOfOtherKind (kind termType : TermType)
  | literalConstant (position : Position) (value : String)
  | invalidTemplate (error : TemplateError)
  | emptyReference
  | misplacedJoin (position : Position)
  | notAnIri (position : Position) (termType : TermType)
  | literalSubject
  | datatypeAndLanguage
  | taggedNonLiteral (termType : TermType)
  | noFunction
  | noParameterPredicate
  | unknownParent (parent : String) (known : List String)
  | noCondition (parent : String)
  | incompleteCondition (index : Nat)

namespace Violation

/-- The code of a violation. -/
def code : Violation → String
  | noDocument => "document_is_nil"
  | emptyBase => "invalid_base"
  | invalidId _ => "invalid_mapping_id"
  | duplicateId _ => "duplicate_mapping"
  | emptyClass => "invalid_value"
  | incompletePair | noValue _ | emptyReference | noParameterPredicate => "missing_value"
  | constantOfOtherKind _ _ | literalConstant _ _ | notAnIri _ _ | literalSubject
  | datatypeAndLanguage | taggedNonLiteral _ => "invalid_term_type"
  | invalidTemplate _ => "invalid_template"
  | misplacedJoin _ => "misplaced_join"
  | noFunction => "missing_function"
  | unknownParent _ _ => "dangling_join_reference"
  | noCondition _ | incompleteCondition _ => "missing_join_condition"

/-- The wording of a violation. -/
def message : Violation → String
  | noDocument => "document is nil"
  | emptyBase => "base IRI is empty"
  | invalidId id => "invalid mapping id " ++ Text.quote id
  | duplicateId id => "duplicate mapping " ++ Text.quote id
  | emptyClass => "empty class IRI"
  | incompletePair => "predicate-object map needs at least one predicate and one object"
  | noValue position => position.name ++ " map has no value"
  | constantOfOtherKind kind termType =>
    "constant is a " ++ kind.name ++ " but term type is " ++ termType.name
  | literalConstant position value =>
    position.name ++ " constant must be an IRI, got literal " ++ Text.quote value
  | invalidTemplate error => error.message
  | emptyReference => "empty reference"
  | misplacedJoin position => "a join may only generate objects, not a " ++ position.name
  | notAnIri position termType =>
    position.name ++ " term type must be iri, got " ++ termType.name
  | literalSubject => "subject cannot be a literal"
  | datatypeAndLanguage => "datatype and language are mutually exclusive"
  | taggedNonLiteral termType =>
    "datatype or language requires a literal term type, got " ++ termType.name
  | noFunction => "function map has no function IRI"
  | noParameterPredicate => "parameter has no predicate"
  | unknownParent parent _ => "join refers to unknown mapping " ++ Text.quote parent
  | noCondition parent => "join with " ++ Text.quote parent ++ " has no condition"
  | incompleteCondition index =>
    "join condition " ++ toString index ++ " needs both child and parent"

/-- What the writer may have meant. -/
def suggestions : Violation → List String
  | unknownParent parent known => Text.suggest parent known 3
  | _ => []

/-- A violation as a diagnostic. -/
def diagnostic (v : Violation) (location : Location := {}) : Diagnostic :=
  { kind := .semantic, code := v.code, message := v.message, location
    suggestions := v.suggestions }

end Violation

/-! ## Rules of term maps -/

/-- The rules on term type, datatype and language. -/
def termTypeViolations (position : Position) (tm : TermMap) : List Violation :=
  (match position with
    | .predicate | .graph => if tm.termType ≠ .iri then [.notAnIri position tm.termType] else []
    | .subject => if tm.termType = .literal then [.literalSubject] else []
    | .object | .parameter => []) ++
  (if tm.datatype ≠ "" && tm.language ≠ "" then [.datatypeAndLanguage] else []) ++
  (if tm.isTagged && tm.termType ≠ .literal then [.taggedNonLiteral tm.termType] else [])

/-- The rules on a constant. -/
def constantViolations (position : Position) (termType : TermType) (term : Constant) :
    List Violation :=
  (if term.kind ≠ termType then [.constantOfOtherKind term.kind termType] else []) ++
  (if !position.allowsLiteral && term.kind = .literal then [.literalConstant position term.value]
    else [])

/-- The parent is in the document and every condition is complete. -/
def joinViolations (doc : Document) (parent : String) (conditions : List JoinCondition) :
    List Violation :=
  (if (doc.lookup? parent).isNone then [.unknownParent parent doc.ids] else []) ++
  (if conditions = [] then [.noCondition parent] else []) ++
  (conditions.mapIdx fun i c =>
    if c.child = "" || c.parent = "" then [Violation.incompleteCondition i] else []).flatten

/-- The rules on a value that is no function. -/
def valueViolations (doc : Document) (position : Position) (termType : TermType) :
    Value → List Violation
  | .constant term => constantViolations position termType term
  | .template pattern =>
    match Template.parse pattern with
    | .ok _ => []
    | .error e => [.invalidTemplate e]
  | .reference name => if name = "" then [.emptyReference] else []
  | .function _ _ => []
  | .join parent conditions =>
    (if position ≠ .object then [.misplacedJoin position] else []) ++
      joinViolations doc parent conditions

/-- The place of an element of a mapping. -/
def placeIn (mapping path : String) (span : Span) : Location :=
  { span, mapping, path }

mutual

/-- What is wrong with a term map. -/
def termMapViolations (doc : Document) (mapping path : String) (position : Position) :
    TermMap → List Diagnostic
  | ⟨none, _, _, _, span⟩ => [(Violation.noValue position).diagnostic (placeIn mapping path span)]
  | ⟨some value, termType, datatype, language, span⟩ =>
    let tm : TermMap := ⟨some value, termType, datatype, language, span⟩
    (valueViolations doc position termType value).map (·.diagnostic (placeIn mapping path span)) ++
    functionViolations doc mapping path value ++
    (termTypeViolations position tm).map (·.diagnostic (placeIn mapping path span))

/-- What is wrong with a function and its parameters. -/
def functionViolations (doc : Document) (mapping path : String) : Value → List Diagnostic
  | .function iri parameters =>
    (if iri = "" then [Violation.noFunction.diagnostic (placeIn mapping path {})] else []) ++
    parameterViolations doc mapping path 0 parameters
  | _ => []

/-- What is wrong with the parameters of a function. -/
def parameterViolations (doc : Document) (mapping path : String) (number : Nat) :
    List Parameter → List Diagnostic
  | [] => []
  | ⟨name, value⟩ :: rest =>
    let place := path ++ ".parameters[" ++ toString number ++ "]"
    (if name = "" then
      [Violation.noParameterPredicate.diagnostic (placeIn mapping place value.span)] else []) ++
    termMapViolations doc mapping place .parameter value ++
    parameterViolations doc mapping path (number + 1) rest

end

/-! ## Rules of documents -/

/-- What is wrong with term maps in a list whose path has a name. -/
def termMapsViolations (doc : Document) (mapping path : String) (position : Position)
    (tms : List TermMap) : List Diagnostic :=
  (tms.mapIdx fun i tm =>
    termMapViolations doc mapping (path ++ "[" ++ toString i ++ "]") position tm).flatten

/-- What is wrong with a predicate-object map. -/
def pairViolations (doc : Document) (mapping path : String) (pom : PredicateObjectMap) :
    List Diagnostic :=
  (if pom.predicates.isEmpty || pom.objects.isEmpty then
    [Violation.incompletePair.diagnostic (placeIn mapping path pom.span)] else []) ++
  termMapsViolations doc mapping (path ++ ".predicates") .predicate pom.predicates ++
  termMapsViolations doc mapping (path ++ ".objects") .object pom.objects ++
  termMapsViolations doc mapping (path ++ ".graphs") .graph pom.graphs

/-- What is wrong with the parts of a triples map. -/
def triplesMapViolations (doc : Document) (tm : TriplesMap) : List Diagnostic :=
  termMapViolations doc tm.id "subject" .subject tm.subject.term ++
  termMapsViolations doc tm.id "subject.graphs" .graph tm.subject.graphs ++
  (tm.subject.classes.mapIdx fun i c =>
    if c = "" then
      [Violation.emptyClass.diagnostic
        (placeIn tm.id ("classes[" ++ toString i ++ "]") tm.subject.term.span)]
    else []).flatten ++
  (tm.predicateObjects.mapIdx fun i pom =>
    pairViolations doc tm.id ("po[" ++ toString i ++ "]") pom).flatten

/-- What is wrong with triples maps after those in `seen`. -/
def mapsViolations (doc : Document) (seen : List String) : List TriplesMap → List Diagnostic
  | [] => []
  | tm :: rest =>
    let place := placeIn tm.id "" tm.span
    (if isValidId tm.id then [] else [(Violation.invalidId tm.id).diagnostic place]) ++
    (if seen.contains tm.id then [(Violation.duplicateId tm.id).diagnostic place] else []) ++
    triplesMapViolations doc tm ++ mapsViolations doc (tm.id :: seen) rest

namespace Document

/-- All that is wrong with a document. -/
def violations (doc : Document) : List Diagnostic :=
  (if doc.base = "" then [Violation.emptyBase.diagnostic] else []) ++
    mapsViolations doc [] doc.maps

/-- Whether a document obeys every rule. -/
def isValid (doc : Document) : Bool :=
  doc.violations.isEmpty

end Document

end RdfMapping.Mapping
