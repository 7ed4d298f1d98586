/-
# Contracting IRIs

The converse of resolution: an absolute IRI is written as a prefixed name when a namespace
of the table begins it and what is left is a plain local name.  The longest namespace wins,
and of several labels for it the one declared first.  A template is contracted by its head.
-/
import RdfMapping.Iri.Resolution

namespace RdfMapping.Iri

/-- A prefixed name and the label it uses. -/
structure Compact where
  text : String
  label : String
deriving DecidableEq, Repr

/-- A local name without escapes. -/
def isLocalName : List Char → Bool
  | [] => true
  | c :: rest => (isNameStart c || c.isDigit) && rest.all isNameChar && rest.getLast? ≠ some '.'

namespace PrefixTable

/-- The better of two bindings: the next one if it passes a test and is longer. -/
def better (passes : String → Bool) (best : Option (String × String)) (next : String × String) :
    Option (String × String) :=
  if next.2 ≠ "" && passes next.2 then
    match best with
    | none => some next
    | some found => if found.2.utf8ByteSize < next.2.utf8ByteSize then some next else some found
  else best

/-- The first of the longest namespaces that pass a test. -/
def longest? (bindings : List (String × String)) (passes : String → Bool) :
    Option (String × String) :=
  bindings.foldl (better passes) none

/-- The prefixed name for what remains of `text` after the namespace that wins. -/
def contractWith? (t : PrefixTable) (text : String) (passes : String → Bool) : Option Compact := do
  let (label, ns) ← longest? t.bindings passes
  let rest ← Text.stripStart? ns text
  return ⟨label ++ ":" ++ rest, label⟩

/-- Whether a namespace leaves a plain local name of the IRI. -/
def leavesLocalName (iri ns : String) : Bool :=
  match Chars.stripStart? ns.toList iri.toList with
  | some rest => isLocalName rest
  | none => false

/-- The prefixed name of an IRI, if there is one. -/
def contract? (t : PrefixTable) (iri : String) : Option Compact :=
  t.contractWith? iri (leavesLocalName iri)

/-- Whether a namespace begins a head and no two slashes follow. -/
def leavesHead (head ns : String) : Bool :=
  match Chars.stripStart? ns.toList head.toList with
  | some rest => !(['/', '/'].isPrefixOf rest)
  | none => false

/-- The template with its head abbreviated, if a namespace begins it. -/
def contractTemplate? (t : PrefixTable) (pattern : String) : Option Compact :=
  t.contractWith? pattern (leavesHead (cutHead pattern).1)

end PrefixTable

end RdfMapping.Iri
