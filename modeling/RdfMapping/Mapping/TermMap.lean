/-
# Term maps

A term map says how one RDF term is made from a record of a source: a constant, the value
of a field, a template, the result of a function, or a subject of another triples map.
-/
import RdfMapping.Diagnostic

namespace RdfMapping.Mapping

/-! ## Kinds of terms and positions -/

/-- The kind of RDF term a term map makes. -/
inductive TermType where
  | iri
  | blankNode
  | literal
deriving DecidableEq, Repr

namespace TermType

/-- The name of a term type in shorthand. -/
def name : TermType → String
  | iri => "iri"
  | blankNode => "blanknode"
  | literal => "literal"

/-- The term type with a name. -/
def ofName? (s : String) : Option TermType :=
  if s = "iri" || s = "IRI" then some iri
  else if s = "blanknode" || s = "blank" || s = "BlankNode" then some blankNode
  else if s = "literal" || s = "Literal" then some literal
  else none

end TermType

/-- Where a term map stands in a triples map. -/
inductive Position where
  | subject
  | predicate
  | object
  | graph
  | parameter
deriving DecidableEq, Repr

namespace Position

/-- The name of a position. -/
def name : Position → String
  | subject => "subject"
  | predicate => "predicate"
  | object => "object"
  | graph => "graph"
  | parameter => "parameter"

/-- Positions whose constants may be literals: objects and function parameters. -/
def allowsLiteral : Position → Bool
  | object | parameter => true
  | subject | predicate | graph => false

end Position

/-! ## Values -/

/-- A constant RDF term.  Datatype and language belong to literals. -/
structure Constant where
  kind : TermType
  value : String
  datatype : String := ""
  language : String := ""
deriving DecidableEq, Repr

namespace Constant

/-- The IRI as a constant. -/
def ofIri (iri : String) : Constant := ⟨.iri, iri, "", ""⟩

/-- The plain literal as a constant. -/
def ofText (text : String) : Constant := ⟨.literal, text, "", ""⟩

end Constant

/-- A field of the child record equals a field of the parent record. -/
structure JoinCondition where
  child : String := ""
  parent : String := ""
deriving DecidableEq, Repr

mutual

/-- The source of the terms of a term map. -/
inductive Value where
  /-- Always the same term. -/
  | constant (term : Constant)
  /-- The value of a field. -/
  | reference (name : String)
  /-- A template with the values of fields. -/
  | template (pattern : String)
  /-- The result of a function. -/
  | function (iri : String) (parameters : List Parameter)
  /-- The subjects of another triples map for records that satisfy the conditions. -/
  | join (parent : String) (conditions : List JoinCondition)

/-- A parameter of a function and the value it gets. -/
structure Parameter where
  predicate : String
  value : TermMap

/-- A term map.  Its datatype and language are not those of a constant. -/
structure TermMap where
  value : Option Value := none
  termType : TermType := .iri
  datatype : String := ""
  language : String := ""
  span : Span := {}

end

instance : Inhabited TermMap := ⟨{}⟩

namespace Value

/-- The name of the class of a value. -/
def className : Value → String
  | constant _ => "constant"
  | reference _ => "reference"
  | template _ => "template"
  | function _ _ => "function"
  | join _ _ => "join"

/-- Whether a value is a constant. -/
def isConstant : Value → Bool
  | constant _ => true
  | _ => false

/-- Whether a value is a function. -/
def isFunction : Value → Bool
  | function _ _ => true
  | _ => false

/-- Whether a value is a join. -/
def isJoin : Value → Bool
  | join _ _ => true
  | _ => false

end Value

/-! ## Equality apart from positions -/

mutual

/-- Whether two values are equal apart from the positions in them. -/
def Value.same : Value → Value → Bool
  | .constant a, .constant b => a == b
  | .reference a, .reference b => a == b
  | .template a, .template b => a == b
  | .function f ps, .function g qs => f == g && Parameter.sameAll ps qs
  | .join p cs, .join q ds => p == q && cs == ds
  | _, _ => false

/-- Whether two lists of parameters are equal apart from the positions in them. -/
def Parameter.sameAll : List Parameter → List Parameter → Bool
  | [], [] => true
  | ⟨p, v⟩ :: ps, ⟨q, w⟩ :: qs => p == q && v.same w && Parameter.sameAll ps qs
  | _, _ => false

/-- Whether two term maps are equal apart from positions. -/
def TermMap.same : TermMap → TermMap → Bool
  | ⟨none, t, d, l, _⟩, ⟨none, u, e, m, _⟩ => t == u && d == e && l == m
  | ⟨some v, t, d, l, _⟩, ⟨some w, u, e, m, _⟩ => t == u && d == e && l == m && v.same w
  | _, _ => false

end

/-- Whether two lists of term maps are equal apart from positions. -/
def TermMap.sameAll : List TermMap → List TermMap → Bool
  | [], [] => true
  | x :: xs, y :: ys => x.same y && sameAll xs ys
  | _, _ => false

/-! ## Defaults -/

namespace TermMap

/-- The constant term map of a term. -/
def ofConstant (term : Constant) : TermMap :=
  { value := some (.constant term), termType := term.kind }

/-- Whether a datatype or a language is stated. -/
def isTagged (tm : TermMap) : Bool :=
  tm.datatype ≠ "" || tm.language ≠ ""

end TermMap

/-- The kind of term that is meant when none is stated: an IRI in the positions that allow no
literal; elsewhere the kind of a constant, a literal for fields, functions and what has a
datatype or a language, and an IRI for the rest. -/
def defaultTermType (position : Position) (tm : TermMap) : TermType :=
  if !position.allowsLiteral then .iri
  else match tm.value with
    | some (.constant term) => term.kind
    | some (.reference _) | some (.function _ _) => .literal
    | _ => if tm.isTagged then .literal else .iri

end RdfMapping.Mapping
