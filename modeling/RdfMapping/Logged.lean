/-
# Results with notes

Input is read to its end even when parts of it are wrong, so that all that is wrong is found
in one go.  `Logged` is a value together with the notes taken on the way to it, and `Attempt`
one that may also be missing.
-/

namespace RdfMapping

/-- A value and the notes taken on the way to it. -/
structure Logged (ν : Type) (α : Type) where
  value : α
  notes : List ν := []

namespace Logged

variable {ν α β : Type}

instance : Monad (Logged ν) where
  pure a := { value := a }
  bind x f :=
    let y := f x.value
    ⟨y.value, x.notes ++ y.notes⟩

@[simp]
theorem value_pure (a : α) : (pure a : Logged ν α).value = a := rfl

@[simp]
theorem notes_pure (a : α) : (pure a : Logged ν α).notes = [] := rfl

@[simp]
theorem value_bind (x : Logged ν α) (f : α → Logged ν β) :
    (x >>= f).value = (f x.value).value := rfl

@[simp]
theorem notes_bind (x : Logged ν α) (f : α → Logged ν β) :
    (x >>= f).notes = x.notes ++ (f x.value).notes := rfl

/-- Takes notes. -/
def tell (notes : List ν) : Logged ν Unit :=
  ⟨(), notes⟩

end Logged

/-- A value that may be missing, and the notes taken on the way to it. -/
abbrev Attempt (ν : Type) (α : Type) := OptionT (Logged ν) α

namespace Logged

variable {ν α : Type}

/-- The values of all parts, with the notes on all. -/
def each : List (Logged ν α) → Logged ν (List α)
  | [] => pure []
  | x :: rest => do
    let a ← x
    let as ← each rest
    return a :: as

/-- The values of those parts that have one, with the notes on all. -/
def those : List (Attempt ν α) → Logged ν (List α)
  | [] => pure []
  | x :: rest => do
    let a ← x.run
    let as ← those rest
    return a.toList ++ as

/-- The values of `each` are those of the parts, in order. -/
theorem value_each (xs : List (Logged ν α)) : (each xs).value = xs.map value := by
  induction xs with
  | nil => rfl
  | cons x rest ih => exact congrArg (x.value :: ·) ih

/-- The notes of `each` are those of the parts, in order. -/
theorem notes_each (xs : List (Logged ν α)) : (each xs).notes = xs.flatMap notes := by
  induction xs with
  | nil => rfl
  | cons x rest ih =>
    change x.notes ++ ((each rest).notes ++ []) = _
    rw [List.append_nil, ih, List.flatMap_cons]

/-- The values of `those` are the values that the parts have, in order. -/
theorem value_those (xs : List (Attempt ν α)) :
    (those xs).value = xs.filterMap fun x => x.run.value := by
  induction xs with
  | nil => rfl
  | cons x rest ih =>
    change x.run.value.toList ++ (those rest).value = _
    rw [ih, List.filterMap_cons]
    cases x.run.value <;> rfl

/-- The notes of `those` are those of the parts, in order. -/
theorem notes_those (xs : List (Attempt ν α)) :
    (those xs).notes = xs.flatMap fun x => x.run.notes := by
  induction xs with
  | nil => rfl
  | cons x rest ih =>
    change x.run.notes ++ ((those rest).notes ++ []) = _
    rw [List.append_nil, ih, List.flatMap_cons]

/-- A value of `those` is the value of one of the parts. -/
theorem mem_those {xs : List (Attempt ν α)} {a : α} (h : a ∈ (those xs).value) :
    ∃ x ∈ xs, x.run.value = some a := by
  rw [value_those] at h
  exact List.mem_filterMap.1 h

end Logged

namespace Attempt

variable {ν α β : Type}

/-- Takes notes and gives no value. -/
def fail (notes : List ν) : Attempt ν α :=
  OptionT.mk ⟨none, notes⟩

/-- The values of all parts, or none if one of them is missing. -/
def all : List (Attempt ν α) → Attempt ν (List α)
  | [] => pure []
  | x :: rest => OptionT.mk do
    let a ← x.run
    let as ← (all rest).run
    return do
      let a ← a
      let as ← as
      return a :: as

/-- Two values, with the notes on both; none if one of them is missing. -/
def both (x : Attempt ν α) (y : Attempt ν β) : Attempt ν (α × β) := OptionT.mk do
  let a ← x.run
  let b ← y.run
  return do
    let a ← a
    let b ← b
    return (a, b)

/-- A list, unless it is empty. -/
def nonempty (xs : List α) : Attempt ν (List α) :=
  OptionT.mk (pure (if xs.isEmpty then none else some xs))

/-! ## Values and notes of attempts -/

theorem value_pure (a : α) : (pure a : Attempt ν α).run.value = some a := rfl

theorem notes_pure (a : α) : (pure a : Attempt ν α).run.notes = [] := rfl

theorem value_fail (notes : List ν) : (fail notes : Attempt ν α).run.value = none := rfl

theorem notes_fail (notes : List ν) : (fail notes : Attempt ν α).run.notes = notes := rfl

theorem value_lift (x : Logged ν α) : (liftM x : Attempt ν α).run.value = some x.value := rfl

theorem notes_lift (x : Logged ν α) : (liftM x : Attempt ν α).run.notes = x.notes :=
  List.append_nil x.notes

theorem value_bind (x : Attempt ν α) (f : α → Attempt ν β) :
    (x >>= f).run.value = x.run.value.bind fun a => (f a).run.value := by
  change (match x.run.value with | some a => _ | none => _ : Logged ν (Option β)).value = _
  cases x.run.value <;> rfl

/-- The notes on the second part are taken only if the first part has a value. -/
theorem notes_bind (x : Attempt ν α) (f : α → Attempt ν β) :
    (x >>= f).run.notes =
      x.run.notes ++ (x.run.value.map fun a => (f a).run.notes).getD [] := by
  change x.run.notes ++
    (match x.run.value with | some a => _ | none => _ : Logged ν (Option β)).notes = _
  cases x.run.value <;> rfl

/-- The second part is left out if the first part has no value. -/
theorem run_bind (x : Attempt ν α) (f : α → Attempt ν β) :
    (x >>= f).run = x.run >>= fun a => a.elim (pure none) fun a => (f a).run := by
  rcases x with ⟨_ | a, notes⟩ <;> rfl

theorem run_lift (x : Logged ν α) : (liftM x : Attempt ν α).run = x >>= fun a => pure (some a) :=
  rfl

theorem mem_notes_bind {x : Attempt ν α} {f : α → Attempt ν β} {note : ν} :
    note ∈ (x >>= f).run.notes ↔
      note ∈ x.run.notes ∨ ∃ a, x.run.value = some a ∧ note ∈ (f a).run.notes := by
  rw [notes_bind, List.mem_append]
  cases x.run.value <;> simp

/-- The values of `all`, if every part has one. -/
theorem value_all (xs : List (Attempt ν α)) :
    (all xs).run.value = xs.mapM fun x => x.run.value := by
  induction xs with
  | nil => rfl
  | cons x rest ih =>
    change (do let a ← x.run.value; let as ← (all rest).run.value; return a :: as) = _
    rw [ih, List.mapM_cons]

/-- The notes of `all` are those of the parts, in order. -/
theorem notes_all (xs : List (Attempt ν α)) :
    (all xs).run.notes = xs.flatMap fun x => x.run.notes := by
  induction xs with
  | nil => rfl
  | cons x rest ih =>
    change x.run.notes ++ ((all rest).run.notes ++ []) = _
    rw [List.append_nil, ih, List.flatMap_cons]

end Attempt

end RdfMapping
