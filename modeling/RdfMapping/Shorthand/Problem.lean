/-
# Problems of shorthand

Everything that can be wrong with a document in shorthand, each with the kind of fault, its
code and its wording.  `Problem.diagnostic` puts a problem at its place.
-/
import RdfMapping.Iri.Resolution
import RdfMapping.Mapping.Document
import RdfMapping.Mapping.Template
import RdfMapping.Text.Suggestion

namespace RdfMapping.Shorthand

open Iri (UndeclaredPrefix)
open Mapping (TemplateError Position TermType)

/-! ## Faults of scalars -/

/-- Why a scalar has no value class. -/
inductive InferenceError where
  /-- It has braces and a reference marker. -/
  | ambiguous
  /-- It has a reference marker without a name. -/
  | emptyReference
  /-- Its braces make no template. -/
  | invalidTemplate (error : TemplateError)
deriving DecidableEq, Repr

/-- The wording of the fault. -/
def InferenceError.message : InferenceError → String
  | ambiguous => "scalar mixes template braces with a $ reference marker"
  | emptyReference => "empty reference $()"
  | invalidTemplate error => error.message

/-- The code of the fault. -/
def InferenceError.code : InferenceError → String
  | ambiguous => "ambiguous_value_class"
  | emptyReference => "invalid_value"
  | invalidTemplate _ => "invalid_template"

/-! ## Problems -/

/-- A part of a document that must have a certain form, with that form in words. -/
inductive Form where
  | document
  | prefixes
  | mappings
  | mapping (id : String)
  | predicateObjects
  | predicateObjectEntry
  | namedSources
  | source
  | term (position : Position)
  | parameters
  | joinCondition
  | mergedSection (name : String)

/-- The form in words. -/
def Form.requirement : Form → String
  | document => "document must be a mapping"
  | prefixes => "prefixes must be a mapping of label to namespace"
  | mappings => "mappings must be a mapping of identifier to mapping"
  | mapping id => "mapping " ++ Text.quote id ++ " must be a mapping"
  | predicateObjects => "predicate-objects must be a mapping or a sequence"
  | predicateObjectEntry => "predicate-object entry must be a sequence or a mapping"
  | namedSources => "sources must be a mapping of name to source"
  | source => "source must be a sequence or a mapping"
  | term position => position.name ++ " must be a scalar or a mapping"
  | parameters => "parameters must be a mapping or a sequence"
  | joinCondition => "join condition must be a mapping"
  | mergedSection name => name ++ " must be a mapping to be merged"

/-- What is wrong with a document in shorthand. -/
inductive Problem where
  | wrongForm (form : Form) (found : String)
  | notAScalar (found : String)
  | unknownKey (key : String) (known : List String)
  | repeatedKey (key canonical : String)
  | undeclaredPrefix (error : UndeclaredPrefix)
  | relativeBase (base : String)
  | unknownDialect (name : String)
  | invalidMappingId (id : String)
  | repeatedMapping (id : String)
  | refusedMapping (error : Mapping.AddError)
  | emptyMapping (id : String)
  | noSubject (id : String)
  | emptySubject
  | severalSubjects (count : Nat)
  | listEntryLength (count : Nat)
  | incompleteEntry
  | taggedTwice
  | repeatedSource (name : String)
  | severalSources (count : Nat)
  | unknownSource (name : String) (known : List String)
  | sourceLength (count : Nat)
  | unknownFormulation (name : String) (known : List String)
  | missingTerm (position : Position)
  | badScalar (scalar : String) (error : InferenceError)
  | badTemplate (error : TemplateError)
  | noValueClass (classes : List String)
  | severalValueClasses (present : List String)
  | strayParameters
  | strayConditions
  | misplacedJoin (position : Position)
  | unknownTermType (name : String)
  | contradictingType (stated suffix : TermType)
  | taggedConstant (kind : TermType)
  | incompleteParameter
  | badParameter
  | noJoinCondition (parent : String)
  | notEqualFunction (name : String)
  | unknownOperand (name : String)
  | incompleteEqual
  | conflictingSetting (name : String)

namespace Problem

/-- What sort of fault a problem is. -/
def kind : Problem → Kind
  | undeclaredPrefix _ => .unresolvablePrefix
  | invalidMappingId _ | repeatedMapping _ | refusedMapping _ | severalSubjects _
  | repeatedSource _ | severalSources _ | unknownSource _ _ | noValueClass _ | severalValueClasses _
  | misplacedJoin _ | noJoinCondition _ | incompleteEqual => .semantic
  | _ => .parse

/-- The code of a problem. -/
def code : Problem → String
  | wrongForm .document _ => "syntax"
  | unknownKey _ _ | unknownOperand _ => "unknown_key"
  | undeclaredPrefix _ => "unresolvable_prefix"
  | relativeBase _ => "invalid_base"
  | invalidMappingId _ => "invalid_mapping_id"
  | repeatedMapping _ | refusedMapping _ | repeatedSource _ => "duplicate_mapping"
  | emptyMapping _ | noSubject _ | emptySubject => "missing_subject"
  | severalSubjects _ => "multiple_subjects"
  | incompleteEntry | missingTerm _ | noValueClass _ | incompleteParameter => "missing_value"
  | taggedTwice | unknownTermType _ | contradictingType _ _ | taggedConstant _ =>
    "invalid_term_type"
  | severalSources _ => "multiple_sources"
  | unknownSource _ _ => "unknown_source"
  | badScalar _ error => error.code
  | badTemplate _ => "invalid_template"
  | severalValueClasses _ => "ambiguous_value_class"
  | misplacedJoin _ => "misplaced_join"
  | noJoinCondition _ | incompleteEqual => "missing_join_condition"
  | _ => "invalid_value"

/-- The wording of a problem. -/
def message : Problem → String
  | wrongForm form found => form.requirement ++ ", got a " ++ found
  | notAScalar found => "expected a scalar, got " ++ found
  | unknownKey key _ => "unknown key " ++ Text.quote key
  | repeatedKey key canonical => "key " ++ Text.quote key ++ " repeats " ++ Text.quote canonical
  | undeclaredPrefix error => error.message
  | relativeBase base => "base " ++ Text.quote base ++ " is not an absolute IRI"
  | unknownDialect name => Mapping.Dialect.unknownMessage name
  | invalidMappingId id =>
    "mapping identifier " ++ Text.quote id ++ " must start with a letter or '_' and use only " ++
      "letters, digits and '_', '-', '.', '/', '#'"
  | repeatedMapping id => "mapping " ++ Text.quote id ++ " is declared more than once"
  | refusedMapping error => error.message
  | emptyMapping id => "mapping " ++ Text.quote id ++ " is empty"
  | noSubject id => "mapping " ++ Text.quote id ++ " has no subject"
  | emptySubject => "subject is empty"
  | severalSubjects count => "a mapping has exactly one subject, got " ++ toString count
  | listEntryLength count =>
    "predicate-object list needs 2 or 3 elements, got " ++ toString count
  | incompleteEntry => "predicate-object entry needs both predicates and objects"
  | taggedTwice => "datatype or language given twice"
  | repeatedSource name => "source " ++ Text.quote name ++ " is declared more than once"
  | severalSources count =>
    "a mapping reads exactly one source, got " ++ toString count ++
      "; split it into one mapping per source"
  | unknownSource name _ => "unknown source " ++ Text.quote name
  | sourceLength count =>
    "source shorthand is [access~formulation, iterator], got " ++ toString count ++ " elements"
  | unknownFormulation name _ => "unknown reference formulation " ++ Text.quote name
  | missingTerm position => position.name ++ " value is missing"
  | badScalar scalar error => Text.quote scalar ++ ": " ++ error.message
  | badTemplate error => error.message
  | noValueClass classes => "term map needs one of " ++ Text.join ", " classes
  | severalValueClasses present =>
    "term map has more than one value class: " ++ Text.join ", " present
  | strayParameters => "parameters are only allowed with a function"
  | strayConditions => "conditions are only allowed with a mapping reference"
  | misplacedJoin position =>
    "a mapping reference is only allowed as an object, not as a " ++ position.name
  | unknownTermType name =>
    "unknown term type " ++ Text.quote name ++ " (want iri, literal or blanknode)"
  | contradictingType stated suffix =>
    "type " ++ stated.name ++ " contradicts the ~" ++ suffix.name ++ " suffix"
  | taggedConstant kind =>
    "invalid term type: datatype or language on a " ++ kind.name ++ " constant"
  | incompleteParameter => "parameter entry needs both parameter and value"
  | badParameter =>
    "parameter entry must be [parameter, value] or \x7bparameter, value\x7d"
  | noJoinCondition parent =>
    "join with mapping " ++ Text.quote parent ++ " has no join condition"
  | notEqualFunction name => "join condition function must be equal, got " ++ Text.quote name
  | unknownOperand name =>
    "equal takes str1 (child) and str2 (parent), got " ++ Text.quote name
  | incompleteEqual => "equal needs both str1 and str2"
  | conflictingSetting name =>
    name ++ " is set to different values by the merged documents"

/-- What the writer may have meant. -/
def suggestions : Problem → List String
  | unknownKey key known => Text.suggest key known 2
  | unknownSource name known => Text.suggest name known 2
  | unknownFormulation name known => Text.suggest name known 2
  | _ => []

/-- A problem at its place. -/
def diagnostic (p : Problem) (location : Location) : Diagnostic :=
  { kind := p.kind, code := p.code, message := p.message, location, suggestions := p.suggestions }

end Problem

end RdfMapping.Shorthand
