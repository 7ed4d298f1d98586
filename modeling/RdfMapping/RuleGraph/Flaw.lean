/-
# Flaws of rule graphs

Everything that can be wrong with triples that should make up a document, each with the kind
of fault, its code and its wording.
-/
import RdfMapping.Mapping.TermMap
import RdfMapping.RuleGraph.Emission

namespace RdfMapping.RuleGraph

open Mapping (TermType Constant)
open Rdf (Term Quad)

/-- The parts of a document that nodes stand for. -/
inductive Role where
  | source
  | predicateObjectMap
  | termMap
  | joinCondition
  | functionValue
deriving DecidableEq, Repr

/-- The name of a role. -/
def Role.name : Role → String
  | source => "logical source"
  | predicateObjectMap => "predicate-object map"
  | termMap => "term map"
  | joinCondition => "join condition"
  | functionValue => "function value"

/-- What is wrong with triples. -/
inductive Flaw where
  | severalSources (node : Term) (count : Nat)
  | noSubjectMap (node : Term)
  | severalSubjectMaps (node : Term) (count : Nat)
  | sharedSubjectMap (node : Term) (count : Nat)
  | shared (role : Role) (node : Term) (count : Nat)
  | notANode (role : Role) (found : Term)
  | severalValues (node : Term) (count : Nat) (property : String)
  | missingTerm
  | unsupportedTerm (found : Term)
  | valueCount (node : Term) (properties : List String)
  | templateNotText (found : Term)
  | referenceNotText (property : String) (found : Term)
  | invalidTermType (node : Term)
  | taggedConstant (term : Constant)
  | contradictingType (stated : TermType) (term : Constant)
  | danglingJoin (parent : Term)
  | noJoinCondition (parent : Term)
  | incompleteCondition (node : Term)
  | functionEntry
  | functionPredicate
  | executesEntry
  | noFunction (node : Term)
  | unrecognized (triple : Quad)
  | refused (error : Mapping.AddError)

namespace Flaw

/-- What sort of fault a flaw is. -/
def kind : Flaw → Kind
  | danglingJoin _ | noJoinCondition _ | incompleteCondition _ => .semantic
  | _ => .decompile

/-- The code of a flaw. -/
def code : Flaw → String
  | severalSources _ _ => "multiple_logical_sources"
  | noSubjectMap _ => "missing_subject_map"
  | severalSubjectMaps _ _ => "multiple_subject_maps"
  | sharedSubjectMap _ _ => "shared_subject_map"
  | shared _ _ _ => "shared_node"
  | valueCount _ _ => "ambiguous_value_class"
  | invalidTermType _ => "invalid_term_type"
  | danglingJoin _ => "dangling_join_reference"
  | noJoinCondition _ | incompleteCondition _ => "missing_join_condition"
  | noFunction _ => "missing_function"
  | unrecognized _ => "unrecognized_triple"
  | refused _ => "duplicate_mapping"
  | _ => "malformed_term_map"

/-- The wording of a flaw. -/
def message : Flaw → String
  | severalSources node count =>
    node.render ++ " has " ++ toString count ++ " logical sources"
  | noSubjectMap node => node.render ++ " has no subject map"
  | severalSubjectMaps node count =>
    node.render ++ " has " ++ toString count ++ " subject maps"
  | sharedSubjectMap node count =>
    "subject map " ++ node.render ++ " is shared by " ++ toString count ++ " triples maps"
  | shared role node count =>
    role.name ++ " " ++ node.render ++ " is shared by " ++ toString count ++ " maps"
  | notANode role found => role.name ++ " must be a node, got " ++ found.render
  | severalValues node count property =>
    node.render ++ " has " ++ toString count ++ " values for " ++ (Term.iri property).render
  | missingTerm => "missing term"
  | unsupportedTerm found => "unsupported term " ++ found.render
  | valueCount node properties =>
    "term map " ++ node.render ++ " needs exactly one value class, got " ++
      toString properties.length ++ " [" ++
      Text.join ", " (properties.map fun p => (Term.iri p).render) ++ "]"
  | templateNotText found => "rr:template must be a string, got " ++ found.render
  | referenceNotText property found =>
    (Term.iri property).render ++ " must be a string, got " ++ found.render
  | invalidTermType node => "term map " ++ node.render ++ " has an invalid rr:termType"
  | taggedConstant term => "datatype or language on constant " ++ (termOf term).render
  | contradictingType stated term =>
    "rr:termType " ++ (Term.iri (kindIri stated)).render ++ " contradicts constant " ++
      (termOf term).render
  | danglingJoin parent =>
    "rr:parentTriplesMap " ++ parent.render ++ " is not a triples map"
  | noJoinCondition parent => "join with " ++ parent.render ++ " has no rr:joinCondition"
  | incompleteCondition node =>
    "join condition " ++ node.render ++ " needs rr:child and rr:parent"
  | functionEntry => "function entries need one predicate and one object"
  | functionPredicate => "function entry predicates must be constant IRIs"
  | executesEntry => "fno:executes needs exactly one constant function IRI"
  | noFunction node => "function value " ++ node.render ++ " has no fno:executes"
  | unrecognized triple => "unrecognized triple " ++ triple.render
  | refused error => error.message

/-- A flaw in a triples map, at a path. -/
def diagnostic (f : Flaw) (mapping path : String) : Diagnostic :=
  { kind := f.kind, code := f.code, message := f.message, location := { mapping, path } }

end Flaw

end RdfMapping.RuleGraph
