/-
# What attempts give

An attempt may note problems and still give a value.  Here is what holds of the values that it may
give, for each of the ways in which attempts are put together.
-/
import RdfMapping.Logged

namespace RdfMapping

namespace Attempt

variable {ν α β : Type}

/-- Every value that an attempt may give has a property, whatever is noted beside it. -/
def Gives (x : Attempt ν α) (P : α → Prop) : Prop :=
  ∀ a, x.run.value = some a → P a

variable {P Q : α → Prop} {S : β → Prop} {x : Attempt ν α}

theorem Gives.pure {a : α} (h : P a) : Gives (Pure.pure a : Attempt ν α) P := by
  intro b hb
  cases hb
  exact h

theorem Gives.fail (notes : List ν) : Gives (Attempt.fail notes : Attempt ν α) P :=
  fun a h => absurd h.symm (Option.some_ne_none a)

theorem Gives.mono (h : x.Gives P) (hPQ : ∀ a, P a → Q a) : x.Gives Q :=
  fun a ha => hPQ a (h a ha)

theorem Gives.trivial (x : Attempt ν α) : x.Gives fun _ => True :=
  fun _ _ => True.intro

theorem Gives.bind {f : α → Attempt ν β} (hx : x.Gives P) (hf : ∀ a, P a → (f a).Gives S) :
    (x >>= f).Gives S := by
  intro b hb
  rw [value_bind] at hb
  obtain ⟨a, ha, hfa⟩ := Option.bind_eq_some_iff.1 hb
  exact hf a (hx a ha) b hfa

/-- What holds of the value whatever comes before it. -/
theorem Gives.bind_right {f : α → Attempt ν β} (hf : ∀ a, (f a).Gives S) : (x >>= f).Gives S :=
  (Gives.trivial x).bind fun a _ => hf a

theorem Gives.lift {y : Logged ν α} (h : P y.value) : Gives (liftM y : Attempt ν α) P := by
  intro a ha
  cases ha
  exact h

theorem Gives.all {xs : List (Attempt ν α)} (h : ∀ x ∈ xs, Gives x P) :
    (Attempt.all xs).Gives fun as => ∀ a ∈ as, P a := by
  intro as has
  rw [value_all] at has
  induction xs generalizing as with
  | nil =>
    cases has
    exact fun a ha => absurd ha List.not_mem_nil
  | cons x rest ih =>
    rw [List.forall_mem_cons] at h
    rw [List.mapM_cons] at has
    obtain ⟨a, ha, hrest⟩ := Option.bind_eq_some_iff.1 has
    obtain ⟨as', has', heq⟩ := Option.bind_eq_some_iff.1 hrest
    cases heq
    exact List.forall_mem_cons.2 ⟨h.1 a ha, ih h.2 as' has'⟩

theorem Gives.both {y : Attempt ν β} (hx : x.Gives P) (hy : y.Gives S) :
    (Attempt.both x y).Gives fun p => P p.1 ∧ S p.2 := by
  intro p hp
  obtain ⟨a, ha, hrest⟩ := Option.bind_eq_some_iff.1 hp
  obtain ⟨b, hb, heq⟩ := Option.bind_eq_some_iff.1 hrest
  cases heq
  exact ⟨hx a ha, hy b hb⟩

theorem Gives.nonempty {as : List α} (h : ∀ a ∈ as, P a) :
    (Attempt.nonempty as : Attempt ν (List α)).Gives fun bs => ∀ b ∈ bs, P b := by
  intro bs hbs
  change (if as.isEmpty then none else some as) = some bs at hbs
  split at hbs
  · cases hbs
  · cases hbs
    exact h

/-- The values that could be had are those of attempts. -/
theorem Gives.those {xs : List (Attempt ν α)} (h : ∀ x ∈ xs, Gives x P) :
    ∀ a ∈ (Logged.those xs).value, P a := by
  intro a ha
  obtain ⟨x, hx, hvalue⟩ := Logged.mem_those ha
  exact h x hx a hvalue

/-! ## Missing values that are explained -/

/-- An attempt gives a value with a property, or notes why it has none. -/
structure Finds (x : Attempt ν α) (P : α → Prop) : Prop where
  gives : x.Gives P
  explains : x.run.value = none → x.run.notes ≠ []

theorem Finds.pure {a : α} (h : P a) : Finds (Pure.pure a : Attempt ν α) P :=
  ⟨.pure h, fun hnone => absurd hnone (Option.some_ne_none a)⟩

theorem Finds.fail {note : ν} {notes : List ν} :
    Finds (Attempt.fail (note :: notes) : Attempt ν α) P :=
  ⟨.fail _, fun _ => List.cons_ne_nil note notes⟩

theorem Finds.mono (h : x.Finds P) (hPQ : ∀ a, P a → Q a) : x.Finds Q :=
  ⟨h.gives.mono hPQ, h.explains⟩

theorem Finds.bind {f : α → Attempt ν β} (hx : x.Finds P) (hf : ∀ a, P a → (f a).Finds S) :
    (x >>= f).Finds S := by
  refine ⟨hx.gives.bind fun a ha => (hf a ha).gives, fun hnone hnotes => ?_⟩
  rw [value_bind] at hnone
  rw [notes_bind, List.append_eq_nil_iff] at hnotes
  cases hvalue : x.run.value with
  | none => exact hx.explains hvalue hnotes.1
  | some a =>
    rw [hvalue] at hnone hnotes
    exact (hf a (hx.gives a hvalue)).explains hnone hnotes.2

theorem Finds.lift {y : Logged ν α} (h : P y.value) : Finds (liftM y : Attempt ν α) P :=
  ⟨.lift h, fun hnone => absurd hnone (Option.some_ne_none y.value)⟩

/-- What is only noted comes before what is found. -/
theorem Finds.lift_bind {y : Logged ν α} {f : α → Attempt ν β} (hf : (f y.value).Finds S) :
    ((liftM y : Attempt ν α) >>= f).Finds S := by
  refine (Finds.lift (P := fun a => a = y.value) rfl).bind fun a ha => ?_
  rw [ha]
  exact hf

theorem Finds.both {y : Attempt ν β} (hx : x.Finds P) (hy : y.Finds S) :
    (Attempt.both x y).Finds fun p => P p.1 ∧ S p.2 := by
  refine ⟨hx.gives.both hy.gives, fun hnone hnotes => ?_⟩
  change x.run.notes ++ (y.run.notes ++ []) = [] at hnotes
  rw [List.append_nil, List.append_eq_nil_iff] at hnotes
  change (x.run.value.bind fun a => y.run.value.bind fun b => some (a, b)) = none at hnone
  cases hvalue : x.run.value with
  | none => exact hx.explains hvalue hnotes.1
  | some a =>
    rw [hvalue, Option.bind_some, Option.bind_eq_none_iff] at hnone
    exact hy.explains (Option.eq_none_iff_forall_ne_some.2 fun b hb =>
      Option.some_ne_none _ (hnone b hb)) hnotes.2

theorem Finds.all {xs : List (Attempt ν α)} (h : ∀ x ∈ xs, Finds x P) :
    (Attempt.all xs).Finds fun as => ∀ a ∈ as, P a := by
  refine ⟨.all fun x hx => (h x hx).gives, fun hnone hnotes => ?_⟩
  rw [notes_all, List.flatMap_eq_nil_iff] at hnotes
  rw [value_all] at hnone
  induction xs with
  | nil => cases hnone
  | cons x rest ih =>
    rw [List.forall_mem_cons] at h hnotes
    rw [List.mapM_cons] at hnone
    cases hvalue : x.run.value with
    | none => exact h.1.explains hvalue hnotes.1
    | some a =>
      cases hrest : rest.mapM fun x => x.run.value with
      | none => exact ih h.2 hrest hnotes.2
      | some as =>
        rw [hvalue, hrest] at hnone
        cases hnone

end Attempt

end RdfMapping
