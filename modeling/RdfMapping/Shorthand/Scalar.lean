/-
# Scalars and names in shorthand

Texts and IRIs read from nodes.  An IRI may be written as a prefixed name or relative to the
base; `Scope` is what such names mean in a document.
-/
import RdfMapping.Shorthand.Reading

namespace RdfMapping.Shorthand

open Iri (PrefixTable)
open Yaml (Node)

/-- What names mean: the declared prefixes and the base IRI. -/
structure Scope where
  table : PrefixTable
  base : String

/-- The text of a scalar that is not null. -/
def readScalar (n : Option Node) (place : Place) : Reading String :=
  match n with
  | none => refuse (.notAScalar "nothing") none place
  | some n =>
    if n.isNull then refuse (.notAScalar "null") (some n.target) place
    else if n.isScalar then pure n.target.text
    else refuse (.notAScalar ("a " ++ n.kindName)) (some n.target) place

namespace Scope

/-- The IRI a text stands for. -/
def resolve (scope : Scope) (text : String) : Except Problem String :=
  (scope.table.resolve scope.base text).mapError .undeclaredPrefix

/-- The IRI a text stands for, if there is a text. -/
def resolveOptional (scope : Scope) (text : String) : Except Problem String :=
  if text = "" then .ok "" else scope.resolve text

/-- The IRI a scalar stands for. -/
def readIri (scope : Scope) (n : Option Node) (place : Place) : Reading String := do
  let text ← readScalar n place
  match scope.resolve text with
  | .ok iri => return iri
  | .error problem => refuse problem n place

end Scope

end RdfMapping.Shorthand
