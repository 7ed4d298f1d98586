/-
# Edit scripts

The rows by which `editDistance` is computed hold the distances of the textbook recursion, and these
are the least numbers of changes of single characters.
-/
import Mathlib.Order.Bounds.Defs
import RdfMapping.Text.EditDistance

namespace RdfMapping.Text

variable {a b c : List Char} {m n : Nat}

/-! ## Scripts -/

/-- One character is inserted, deleted or substituted. -/
inductive Edit : List Char → List Char → Prop where
  | insert (before after : List Char) (x : Char) : Edit (before ++ after) (before ++ x :: after)
  | delete (before after : List Char) (x : Char) : Edit (before ++ x :: after) (before ++ after)
  | substitute (before after : List Char) (x y : Char) :
    Edit (before ++ x :: after) (before ++ y :: after)

/-- So many changes, one after the other. -/
inductive Edits : Nat → List Char → List Char → Prop where
  | none (a : List Char) : Edits 0 a a
  | next {n : Nat} {a b c : List Char} : Edits n a b → Edit b c → Edits (n + 1) a c

namespace Edit

theorem cons (x : Char) (h : Edit a b) : Edit (x :: a) (x :: b) := by
  cases h with
  | insert before after y => exact .insert (x :: before) after y
  | delete before after y => exact .delete (x :: before) after y
  | substitute before after y z => exact .substitute (x :: before) after y z

theorem symm (h : Edit a b) : Edit b a := by
  cases h with
  | insert before after x => exact .delete before after x
  | delete before after x => exact .insert before after x
  | substitute before after x y => exact .substitute before after y x

theorem reverse (h : Edit a b) : Edit a.reverse b.reverse := by
  cases h with
  | insert before after x => simpa using Edit.insert after.reverse before.reverse x
  | delete before after x => simpa using Edit.delete after.reverse before.reverse x
  | substitute before after x y => simpa using Edit.substitute after.reverse before.reverse x y

end Edit

namespace Edits

theorem cons (x : Char) (h : Edits n a b) : Edits n (x :: a) (x :: b) := by
  induction h with
  | none a => exact .none (x :: a)
  | next _ hedit ih => exact .next ih (hedit.cons x)

theorem trans (h : Edits m a b) (h' : Edits n b c) : Edits (m + n) a c := by
  induction h' with
  | none => exact h
  | next _ hedit ih => exact .next (ih h) hedit

/-- A change may also come first. -/
theorem first (hedit : Edit a b) (h : Edits n b c) : Edits (n + 1) a c := by
  rw [Nat.add_comm]
  exact trans (.next (.none a) hedit) h

theorem symm (h : Edits n a b) : Edits n b a := by
  induction h with
  | none a => exact .none a
  | next _ hedit ih => exact first hedit.symm ih

theorem reverse (h : Edits n a b) : Edits n a.reverse b.reverse := by
  induction h with
  | none a => exact .none a.reverse
  | next _ hedit ih => exact .next ih hedit.reverse

theorem insertAll (b : List Char) : Edits b.length [] b := by
  induction b with
  | nil => exact .none []
  | cons y b ih => exact .next ih (.insert [] b y)

end Edits

/-! ## The recursion -/

/-- The distance of two texts by recursion on their first characters. -/
def distance : List Char → List Char → Nat
  | [], b => b.length
  | x :: a, [] => (x :: a).length
  | x :: a, y :: b =>
    min (min (distance a (y :: b) + 1) (distance (x :: a) b + 1))
      (distance a b + if x = y then 0 else 1)
termination_by a b => a.length + b.length

@[simp] theorem distance_nil_left (b : List Char) : distance [] b = b.length := by
  rw [distance]

@[simp] theorem distance_nil_right (a : List Char) : distance a [] = a.length := by
  cases a <;> rw [distance]

theorem distance_cons_cons (x y : Char) (a b : List Char) :
    distance (x :: a) (y :: b) =
      min (min (distance a (y :: b) + 1) (distance (x :: a) b + 1))
        (distance a b + if x = y then 0 else 1) := by
  rw [distance]

/-- A script as short as the recursion says. -/
theorem edits_distance (a b : List Char) : Edits (distance a b) a b := by
  induction a, b using distance.induct with
  | case1 b =>
    rw [distance_nil_left]
    exact .insertAll b
  | case2 x a =>
    rw [distance_nil_right]
    exact (Edits.insertAll (x :: a)).symm
  | case3 x a y b hdelete hinsert hboth =>
    rw [distance_cons_cons]
    -- the least of the three numbers is one of them
    rcases Nat.le_total (min (distance a (y :: b) + 1) (distance (x :: a) b + 1))
      (distance a b + if x = y then 0 else 1) with hle | hle
    · rw [Nat.min_eq_left hle]
      rcases Nat.le_total (distance a (y :: b) + 1) (distance (x :: a) b + 1) with hle | hle
      · rw [Nat.min_eq_left hle]
        exact .first (.delete [] a x) hdelete
      · rw [Nat.min_eq_right hle]
        exact .next hinsert (.insert [] b y)
    · rw [Nat.min_eq_right hle]
      by_cases hxy : x = y
      · rw [if_pos hxy, ← hxy]
        exact hboth.cons x
      · rw [if_neg hxy]
        exact .next (hboth.cons x) (.substitute [] b x y)

/-! ## Lower bounds -/

theorem distance_cons_left_le (x : Char) (a b : List Char) :
    distance (x :: a) b ≤ distance a b + 1 := by
  cases b with
  | nil => simp
  | cons y b =>
    rw [distance_cons_cons]
    omega

theorem distance_insert_le (y : Char) (a b : List Char) :
    distance a (y :: b) ≤ distance a b + 1 := by
  cases a with
  | nil => simp
  | cons x a =>
    rw [distance_cons_cons]
    omega

theorem distance_delete_le (y : Char) (a b : List Char) :
    distance a b ≤ distance a (y :: b) + 1 := by
  induction a with
  | nil => simp; omega
  | cons x a ih =>
    have hleft := distance_cons_left_le x a b
    rw [distance_cons_cons]
    omega

theorem distance_substitute_le (y z : Char) (a b : List Char) :
    distance a (z :: b) ≤ distance a (y :: b) + 1 := by
  induction a with
  | nil => simp
  | cons x a ih =>
    rw [distance_cons_cons, distance_cons_cons]
    split <;> omega

/-- What holds of ends holds of texts with the same beginning. -/
theorem distance_append_le (h : ∀ a, distance a c ≤ distance a b + 1) (before a : List Char) :
    distance a (before ++ c) ≤ distance a (before ++ b) + 1 := by
  induction before generalizing a with
  | nil => exact h a
  | cons y before ih =>
    rw [List.cons_append, List.cons_append]
    induction a with
    | nil =>
      have hlength := ih []
      simp only [distance_nil_left, List.length_cons] at hlength ⊢
      omega
    | cons x a iha =>
      have hinsert := ih (x :: a)
      have hboth := ih a
      rw [distance_cons_cons, distance_cons_cons]
      omega

/-- One change moves the distance by at most one. -/
theorem distance_le_of_edit (h : Edit b c) (a : List Char) : distance a c ≤ distance a b + 1 := by
  cases h with
  | insert before after x => exact distance_append_le (fun a => distance_insert_le x a after) ..
  | delete before after x => exact distance_append_le (fun a => distance_delete_le x a after) ..
  | substitute before after x y =>
    exact distance_append_le (fun a => distance_substitute_le x y a after) ..

theorem distance_self (a : List Char) : distance a a = 0 := by
  induction a with
  | nil => simp
  | cons x a ih => simp [distance_cons_cons, ih]

theorem distance_le_of_edits (h : Edits n a b) : distance a b ≤ n := by
  induction h with
  | none a => exact Nat.le_of_eq (distance_self a)
  | next _ hedit ih => exact Nat.le_trans (distance_le_of_edit hedit _) (Nat.succ_le_succ ih)

/-- **The recursion gives the length of the shortest scripts.** -/
theorem isLeast_distance (a b : List Char) : IsLeast {n | Edits n a b} (distance a b) :=
  ⟨edits_distance a b, fun _ h => distance_le_of_edits h⟩

/-! ## A metric -/

theorem distance_comm (a b : List Char) : distance a b = distance b a :=
  Nat.le_antisymm (distance_le_of_edits (edits_distance b a).symm)
    (distance_le_of_edits (edits_distance a b).symm)

theorem distance_eq_zero_iff : distance a b = 0 ↔ a = b := by
  constructor
  · intro h
    have hscript := edits_distance a b
    rw [h] at hscript
    cases hscript
    rfl
  · rintro rfl
    exact distance_self a

theorem distance_triangle (a b c : List Char) : distance a c ≤ distance a b + distance b c :=
  distance_le_of_edits ((edits_distance a b).trans (edits_distance b c))

theorem distance_reverse (a b : List Char) : distance a.reverse b.reverse = distance a b := by
  have hle (a b : List Char) : distance a.reverse b.reverse ≤ distance a b :=
    distance_le_of_edits (edits_distance a b).reverse
  have hback := hle a.reverse b.reverse
  rw [List.reverse_reverse, List.reverse_reverse] at hback
  exact Nat.le_antisymm (hle a b) hback

/-! ## Rows

The rows go over initial parts, while the recursion takes first characters off: both texts are read
here from their ends. -/

/-- The entries of a row after the first. -/
def entries (d : List Char) : List Char → List Char → List Nat
  | _, [] => []
  | before, x :: a => distance (x :: before) d :: entries d (x :: before) a

/-- The row of `a` for a text. -/
def row (a d : List Char) : List Nat :=
  distance [] d :: entries d [] a

theorem entries_nil (before a : List Char) :
    entries [] before a = List.range' (before.length + 1) a.length := by
  induction a generalizing before with
  | nil => rfl
  | cons x a ih =>
    rw [entries, ih, distance_nil_right, List.length_cons, List.length_cons, List.range'_succ]

theorem firstRow_eq (a : List Char) : firstRow a = row a [] := by
  rw [firstRow, row, entries_nil, distance_nil_left, List.range_eq_range', List.range'_succ]
  rfl

/-- One entry follows from the entry before it and the two above. -/
theorem nextEntries_eq (y : Char) (d before a : List Char) :
    nextEntries y a (distance before d) (distance before (y :: d)) (entries d before a) =
      entries (y :: d) before a := by
  induction a generalizing before with
  | nil => rfl
  | cons x a ih =>
    have hentry : min (min (distance (x :: before) d + 1) (distance before (y :: d) + 1))
        (distance before d + if x = y then 0 else 1) = distance (x :: before) (y :: d) := by
      rw [distance_cons_cons, Nat.min_comm (distance (x :: before) d + 1)]
    rw [entries, nextEntries, entries]
    simp only [hentry, ih]

theorem nextRow_eq (a d : List Char) (y : Char) : nextRow a (row a d) y = row a (y :: d) := by
  have hfirst : distance [] d + 1 = distance [] (y :: d) := by simp
  rw [row, nextRow, hfirst, nextEntries_eq, row]

/-- **After some characters, the row is that of what was read.** -/
theorem foldl_nextRow (a b d : List Char) :
    b.foldl (nextRow a) (row a d) = row a (b.reverse ++ d) := by
  induction b generalizing d with
  | nil => rfl
  | cons y b ih =>
    rw [List.foldl_cons, nextRow_eq, ih, List.reverse_cons, List.append_assoc,
      List.singleton_append]

theorem getLastD_entries (d before a : List Char) (n : Nat) :
    (distance before d :: entries d before a).getLastD n = distance (a.reverse ++ before) d := by
  induction a generalizing before n with
  | nil => rfl
  | cons x a ih =>
    rw [entries, List.getLastD_cons, ih, List.reverse_cons, List.append_assoc,
      List.singleton_append]

theorem getLastD_row (a d : List Char) : (row a d).getLastD 0 = distance a.reverse d := by
  rw [row, getLastD_entries, List.append_nil]

theorem editDistance_eq_distance (s t : String) :
    editDistance s t = distance s.toList t.toList := by
  have hrows (a b : List Char) : (b.foldl (nextRow a) (firstRow a)).getLastD 0 = distance a b := by
    rw [firstRow_eq, foldl_nextRow, getLastD_row, List.append_nil, distance_reverse]
  by_cases hlength : s.length ≤ t.length
  · simp only [editDistance, if_pos hlength, hrows]
  · simp only [editDistance, if_neg hlength, hrows]
    exact distance_comm _ _

/-- **The edit distance is the least number of insertions, deletions and substitutions** that turn
one text into the other; it is the number of the textbook recursion, and a metric. -/
theorem editDistance_isLeast (s t : String) :
    editDistance s t = distance s.toList t.toList ∧
      IsLeast {n | Edits n s.toList t.toList} (editDistance s t) ∧
      editDistance s t = editDistance t s ∧
      (editDistance s t = 0 ↔ s.toList = t.toList) ∧
      ∀ u, editDistance s u ≤ editDistance s t + editDistance t u := by
  simp only [editDistance_eq_distance]
  exact ⟨trivial, isLeast_distance _ _, distance_comm _ _, distance_eq_zero_iff,
    fun u => distance_triangle _ _ _⟩

example : editDistance "kitten" "sitting" = 3 := by decide

end RdfMapping.Text
