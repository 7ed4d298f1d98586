/-
# Edit distance

The least number of insertions, deletions and substitutions of single characters that turn one text
into another.  A row for `a` and a text `b` holds the distance of every initial part of `a` from
`b`; reading one more character of `b` gives the next row.
-/

namespace RdfMapping.Text

/-- The next row after its first entry; `diagonal`, `row` and `left` are the entries around. -/
def nextEntries (c : Char) : List Char → Nat → Nat → List Nat → List Nat
  | x :: a, diagonal, left, above :: row =>
    let entry := min (min (above + 1) (left + 1)) (diagonal + if x = c then 0 else 1)
    entry :: nextEntries c a above entry row
  | _, _, _, _ => []

/-- The row after one more character `c`. -/
def nextRow (a : List Char) (row : List Nat) (c : Char) : List Nat :=
  match row with
  | [] => []
  | first :: rest => (first + 1) :: nextEntries c a first (first + 1) rest

/-- The row for the empty text: the initial part of length `n` is `n` deletions away. -/
def firstRow (a : List Char) : List Nat :=
  List.range (a.length + 1)

/-- The edit distance of two texts; the rows run over the shorter one. -/
def editDistance (s t : String) : Nat :=
  let (a, b) := if s.length ≤ t.length then (s.toList, t.toList) else (t.toList, s.toList)
  (b.foldl (nextRow a) (firstRow a)).getLastD 0

end RdfMapping.Text
