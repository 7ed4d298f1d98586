/-
# Suggestions

What a writer may have meant by a name that is not known: the known names that are close
to it, the closest first.
-/
import RdfMapping.Text.Cut
import RdfMapping.Text.EditDistance
import RdfMapping.Text.Lowercase

namespace RdfMapping.Text

/-! ## Similarity -/

/-- How much of two texts agrees: `agreeing` of `length` characters. -/
structure Similarity where
  agreeing : Nat
  length : Nat
deriving DecidableEq, Repr

namespace Similarity

/-- Complete agreement. -/
def full : Similarity := ⟨1, 1⟩

/-- The similarity of two texts: of the longer one, what an edit into the other leaves. -/
def of (s t : String) : Similarity :=
  let longest := max s.length t.length
  if longest = 0 then full else ⟨longest - editDistance s t, longest⟩

/-- Comparison of the two fractions. -/
def atLeast (a b : Similarity) : Bool :=
  b.agreeing * a.length ≤ a.agreeing * b.length

/-- The fraction with six decimals, a half going to the even digit. -/
def render (a : Similarity) : String :=
  let scaled := a.agreeing * 1000000
  let quotient := scaled / a.length
  let twice := 2 * (scaled % a.length)
  let up := a.length < twice || (twice = a.length && quotient % 2 = 1)
  let rounded := if up then quotient + 1 else quotient
  let decimals := Nat.toDigits 10 (rounded % 1000000)
  toString (rounded / 1000000) ++ "." ++
    .ofList (List.replicate (6 - decimals.length) '0' ++ decimals)

end Similarity

/-- The least similarity of a suggestion: three characters of five. -/
def suggestionThreshold : Similarity := ⟨3, 5⟩

/-! ## Names -/

/-- A name without the separators `_`, `-` and space, in lower case. -/
def normalize (s : String) : String :=
  .ofList ((s.toList.filter fun c => !(c = '_' || c = '-' || c = ' ')).map lowerChar)

/-- How close a known name is to the one given. -/
def closeness (name known : String) : Similarity :=
  if sameFolded name known then .full else .of (normalize name) (normalize known)

/-- At most `limit` known names close to `name`, closest first; zero is no limit. -/
def suggest (name : String) (known : List String) (limit : Nat) : List String :=
  let scored := (known.filter (· ≠ name)).map fun k => (k, closeness name k)
  let close := scored.filter fun (_, score) => score.atLeast suggestionThreshold
  let sorted := close.mergeSort fun (_, a) (_, b) => a.atLeast b
  let names := sorted.map Prod.fst
  if limit = 0 then names else names.take limit

end RdfMapping.Text
