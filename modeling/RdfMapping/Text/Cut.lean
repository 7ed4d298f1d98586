/-
# Cutting texts

Texts are stored as strings and taken apart as lists of characters.  The functions of the same
names in `RdfMapping.Text` do the same to strings.
-/

namespace RdfMapping

variable {c : Char} {s before after : List Char}

namespace Chars

/-! ## Cuts of lists of characters -/

/-- What stands before and after the first `c`. -/
def cutFirst? (c : Char) : List Char → Option (List Char × List Char)
  | [] => none
  | d :: rest =>
    if d = c then some ([], rest)
    else (cutFirst? c rest).map fun (before, after) => (d :: before, after)

/-- What stands before and after the last place where `sep` begins. -/
def cutLast? (sep : List Char) : List Char → Option (List Char × List Char)
  | [] => if sep = [] then some ([], []) else none
  | d :: rest =>
    match cutLast? sep rest with
    | some (before, after) => some (d :: before, after)
    | none => if sep.isPrefixOf (d :: rest) then some ([], (d :: rest).drop sep.length) else none

/-- What follows `start` in a list that begins with it. -/
def stripStart? : List Char → List Char → Option (List Char)
  | [], s => some s
  | _ :: _, [] => none
  | c :: start, d :: s => if c = d then stripStart? start s else none

/-- What precedes `stop` in a list that ends with it. -/
def stripEnd? (stop s : List Char) : Option (List Char) :=
  (stripStart? stop.reverse s.reverse).map List.reverse

/-- The parts of a list between the occurrences of `c`; there is always at least one. -/
def splitAll (c : Char) : List Char → List (List Char)
  | [] => [[]]
  | d :: rest =>
    if d = c then [] :: splitAll c rest
    else match splitAll c rest with
      | [] => [[d]]
      | part :: parts => (d :: part) :: parts

theorem of_cutFirst? (h : cutFirst? c s = some (before, after)) :
    s = before ++ c :: after ∧ c ∉ before := by
  induction s generalizing before with
  | nil => simp [cutFirst?] at h
  | cons d rest ih =>
    by_cases hd : d = c
    · simp_all [cutFirst?]
    · simp only [cutFirst?, if_neg hd, Option.map_eq_some_iff] at h
      obtain ⟨⟨b, a⟩, hcut, heq⟩ := h
      cases heq
      obtain ⟨hrest, hb⟩ := ih hcut
      rw [hrest, List.cons_append, List.mem_cons, not_or]
      exact ⟨rfl, Ne.symm hd, hb⟩

/-- A cut at the first `c` loses nothing but that `c`. -/
theorem cutFirst?_eq_some (h : cutFirst? c s = some (before, after)) :
    s = before ++ c :: after :=
  (of_cutFirst? h).1

theorem not_mem_of_cutFirst? (h : cutFirst? c s = some (before, after)) : c ∉ before :=
  (of_cutFirst? h).2

theorem cutFirst?_append (h : c ∉ before) (after : List Char) :
    cutFirst? c (before ++ c :: after) = some (before, after) := by
  induction before with
  | nil => rw [List.nil_append, cutFirst?, if_pos rfl]
  | cons d before ih =>
    rw [List.mem_cons, not_or] at h
    rw [List.cons_append, cutFirst?, if_neg (Ne.symm h.1), ih h.2]
    rfl

/-- A cut at the last `sep` loses nothing but that `sep`. -/
theorem cutLast?_eq_some {sep : List Char} (h : cutLast? sep s = some (before, after)) :
    s = before ++ sep ++ after := by
  induction s generalizing before with
  | nil =>
    rw [cutLast?] at h
    split at h
    · next hsep =>
      cases h
      rw [hsep]
      rfl
    · cases h
  | cons d rest ih =>
    rw [cutLast?] at h
    split at h
    · next b a hcut =>
      cases h
      rw [ih hcut, List.cons_append, List.cons_append]
    · split at h
      · next hstart =>
        cases h
        obtain ⟨tail, htail⟩ := List.isPrefixOf_iff_prefix.1 hstart
        rw [← htail, List.drop_left, List.nil_append]
      · cases h

theorem cutLast?_eq_none (h : c ∉ s) : cutLast? [c] s = none := by
  induction s with
  | nil => rfl
  | cons d rest ih =>
    rw [List.mem_cons, not_or] at h
    rw [cutLast?, ih h.2]
    simp [List.isPrefixOf, h.1]

theorem cutLast?_append (h : c ∉ after) (before : List Char) :
    cutLast? [c] (before ++ c :: after) = some (before, after) := by
  induction before with
  | nil =>
    rw [List.nil_append, cutLast?, cutLast?_eq_none h]
    simp [List.isPrefixOf]
  | cons d before ih => rw [List.cons_append, cutLast?, ih]

/-- What is stripped from the start can be put back. -/
theorem stripStart?_eq_some {start rest : List Char} (h : stripStart? start s = some rest) :
    s = start ++ rest := by
  induction start generalizing s with
  | nil => simpa [stripStart?] using h
  | cons c start ih =>
    cases s with
    | nil => simp [stripStart?] at h
    | cons d s =>
      by_cases hc : c = d
      · simp only [stripStart?, if_pos hc] at h
        rw [ih h, hc, List.cons_append]
      · simp [stripStart?, hc] at h

theorem stripStart?_append (start rest : List Char) :
    stripStart? start (start ++ rest) = some rest := by
  induction start with
  | nil => rfl
  | cons c start ih => rw [List.cons_append, stripStart?, if_pos rfl, ih]

end Chars

namespace Text

/-! ## Cuts of strings -/

/-- What stands before and after the first `c`. -/
def cutFirst? (c : Char) (s : String) : Option (String × String) :=
  (Chars.cutFirst? c s.toList).map fun (before, after) => (.ofList before, .ofList after)

theorem cutFirst?_eq_some {s before after : String} (h : cutFirst? c s = some (before, after)) :
    s.toList = before.toList ++ c :: after.toList ∧ c ∉ before.toList := by
  obtain ⟨⟨b, a⟩, hcut, heq⟩ := Option.map_eq_some_iff.1 h
  cases heq
  rw [String.toList_ofList, String.toList_ofList]
  exact ⟨Chars.cutFirst?_eq_some hcut, Chars.not_mem_of_cutFirst? hcut⟩

theorem cutFirst?_eq_of_toList {s before after : String}
    (hs : s.toList = before.toList ++ c :: after.toList) (h : c ∉ before.toList) :
    cutFirst? c s = some (before, after) := by
  rw [cutFirst?, hs, Chars.cutFirst?_append h]
  simp

/-- What stands before and after the last occurrence of `sep`. -/
def cutLast? (sep s : String) : Option (String × String) :=
  (Chars.cutLast? sep.toList s.toList).map fun (before, after) => (.ofList before, .ofList after)

theorem cutLast?_eq_some {sep s before after : String}
    (h : cutLast? sep s = some (before, after)) : s = before ++ sep ++ after := by
  obtain ⟨⟨b, a⟩, hcut, heq⟩ := Option.map_eq_some_iff.1 h
  cases heq
  rw [← String.toList_inj]
  simpa using Chars.cutLast?_eq_some hcut

/-- What follows `start` in a text that begins with it. -/
def stripStart? (start s : String) : Option String :=
  (Chars.stripStart? start.toList s.toList).map .ofList

/-- What precedes `stop` in a text that ends with it. -/
def stripEnd? (stop s : String) : Option String :=
  (Chars.stripEnd? stop.toList s.toList).map .ofList

/-- Whether a text begins with `start`. -/
def startsWith (start s : String) : Bool :=
  start.toList.isPrefixOf s.toList

/-- Whether a text ends with `stop`. -/
def endsWith (stop s : String) : Bool :=
  stop.toList.isSuffixOf s.toList

/-- Whether a character occurs in a text. -/
def hasChar (c : Char) (s : String) : Bool :=
  s.toList.contains c

/-- The texts in order with `sep` between neighbours. -/
def join (sep : String) : List String → String
  | [] => ""
  | [s] => s
  | s :: t :: rest => s ++ sep ++ join sep (t :: rest)

end Text

end RdfMapping
