/-
# Readings that agree

Two readings agree if their values are related and both or neither of them are without notes.  What
the notes say does not matter, since the same may be read at two places and reported in other words.
-/
import RdfMapping.Proofs.Shorthand.Clean

namespace RdfMapping

/-! ## Lists that agree in each element -/

theorem forall₂_map_both {α β γ : Type} {R : β → γ → Prop} {f : α → β} {g : α → γ} {as : List α}
    (h : ∀ a ∈ as, R (f a) (g a)) : List.Forall₂ R (as.map f) (as.map g) := by
  rw [List.forall₂_map_left_iff, List.forall₂_map_right_iff, List.forall₂_same]
  exact h

theorem forall₂_mapIdx_both {α β γ : Type} {R : β → γ → Prop} {f : Nat → α → β}
    {g : Nat → α → γ} {as : List α} (h : ∀ i, ∀ a ∈ as, R (f i a) (g i a)) :
    List.Forall₂ R (as.mapIdx f) (as.mapIdx g) := by
  induction as generalizing f g with
  | nil => exact .nil
  | cons a as ih =>
    rw [List.mapIdx_cons, List.mapIdx_cons]
    exact .cons (h 0 a (List.mem_cons_self ..))
      (ih fun i b hb => h (i + 1) b (List.mem_cons_of_mem a hb))

/-! ## Values with notes -/

namespace Logged

variable {ν α β γ δ : Type} {R : α → β → Prop} {S : γ → δ → Prop}

/-- The values are related, and both or neither are without notes. -/
structure Agree (R : α → β → Prop) (x : Logged ν α) (y : Logged ν β) : Prop where
  value : R x.value y.value
  clean : x.notes = [] ↔ y.notes = []

variable {x : Logged ν α} {y : Logged ν β}

theorem Agree.pure {a : α} {b : β} (h : R a b) :
    Agree R (Pure.pure a : Logged ν α) (Pure.pure b) :=
  ⟨h, Iff.rfl⟩

theorem Agree.mono (h : Agree R x y) {R' : α → β → Prop} (hR : ∀ a b, R a b → R' a b) :
    Agree R' x y :=
  ⟨hR _ _ h.value, h.clean⟩

theorem Agree.bind {f : α → Logged ν γ} {g : β → Logged ν δ} (h : Agree R x y)
    (hf : ∀ a b, R a b → Agree S (f a) (g b)) : Agree S (x >>= f) (y >>= g) := by
  have hnext := hf _ _ h.value
  refine ⟨hnext.value, ?_⟩
  rw [notes_bind, notes_bind, List.append_eq_nil_iff, List.append_eq_nil_iff, h.clean, hnext.clean]

theorem Agree.bind_eq {x y : Logged ν α} {f : α → Logged ν γ} {g : α → Logged ν δ}
    (h : Agree Eq x y) (hf : ∀ a, Agree S (f a) (g a)) : Agree S (x >>= f) (y >>= g) := by
  apply h.bind
  rintro a _ rfl
  exact hf a

/-- What agrees with a clean reading is a clean one too. -/
theorem Agree.exists_eq_pure (h : Agree R x y) {a : α} (hx : x = Pure.pure a) :
    ∃ b, y = Pure.pure b ∧ R a b := by
  obtain ⟨rfl, hnotes⟩ := eq_pure_iff.1 hx
  exact ⟨y.value, eq_pure_iff.2 ⟨rfl, h.clean.1 hnotes⟩, h.value⟩

theorem Agree.each {xs : List (Logged ν α)} {ys : List (Logged ν β)}
    (h : List.Forall₂ (Agree R) xs ys) :
    Agree (List.Forall₂ R) (Logged.each xs) (Logged.each ys) := by
  induction h with
  | nil => exact .pure .nil
  | cons hxy _ ih => exact hxy.bind fun a b hab => ih.bind fun as bs hs => .pure (.cons hab hs)

end Logged

/-! ## Values that may be missing -/

namespace Attempt

variable {ν α β γ δ : Type} {R : α → β → Prop} {S : γ → δ → Prop}

/-- Both values are missing or related, and both or no notes. -/
def Agree (R : α → β → Prop) (x : Attempt ν α) (y : Attempt ν β) : Prop :=
  Logged.Agree (Option.Rel R) x.run y.run

variable {x : Attempt ν α} {y : Attempt ν β}

theorem Agree.pure {a : α} {b : β} (h : R a b) :
    Agree R (Pure.pure a : Attempt ν α) (Pure.pure b) :=
  Logged.Agree.pure (.some h)

theorem Agree.fail {notes more : List ν} (h : notes ≠ []) (hmore : more ≠ []) :
    Agree R (Attempt.fail notes) (Attempt.fail more) :=
  ⟨.none, iff_of_false h hmore⟩

theorem Agree.mono (h : Agree R x y) {R' : α → β → Prop} (hR : ∀ a b, R a b → R' a b) :
    Agree R' x y := by
  refine Logged.Agree.mono h fun a b hab => ?_
  cases hab with
  | some hab => exact .some (hR _ _ hab)
  | none => exact .none

theorem Agree.run {x y : Attempt ν α} (h : Agree Eq x y) : Logged.Agree Eq x.run y.run := by
  refine Logged.Agree.mono h fun a b hab => ?_
  cases hab with
  | some hab => rw [hab]
  | none => rfl

/-- What agrees with a clean reading is the same reading. -/
theorem Agree.eq_pure {x y : Attempt ν α} (h : Agree Eq x y) {a : α} (hx : x = Pure.pure a) :
    y = Pure.pure a := by
  obtain ⟨b, hy, rfl⟩ := h.run.exists_eq_pure (eq_pure_iff.1 hx)
  exact eq_pure_iff.2 hy

theorem Agree.bind {f : α → Attempt ν γ} {g : β → Attempt ν δ} (h : Agree R x y)
    (hf : ∀ a b, R a b → Agree S (f a) (g b)) : Agree S (x >>= f) (y >>= g) := by
  unfold Agree
  rw [run_bind, run_bind]
  refine Logged.Agree.bind h fun a b hab => ?_
  cases hab with
  | some hab => exact hf _ _ hab
  | none => exact .pure .none

theorem Agree.bind_eq {x y : Attempt ν α} {f : α → Attempt ν γ} {g : α → Attempt ν δ}
    (h : Agree Eq x y) (hf : ∀ a, Agree S (f a) (g a)) : Agree S (x >>= f) (y >>= g) := by
  apply h.bind
  rintro a _ rfl
  exact hf a

theorem Agree.lift {x : Logged ν α} {y : Logged ν β} (h : Logged.Agree R x y) :
    Agree R (liftM x : Attempt ν α) (liftM y) :=
  h.bind fun _ _ hab => .pure (.some hab)

theorem Agree.both {z : Attempt ν γ} {w : Attempt ν δ} (h : Agree R x y) (h' : Agree S z w) :
    Agree (fun p q => R p.1 q.1 ∧ S p.2 q.2) (Attempt.both x z) (Attempt.both y w) := by
  refine Logged.Agree.bind h fun a b hab => Logged.Agree.bind h' fun c d hcd => .pure ?_
  cases hab with
  | some hab =>
    cases hcd with
    | some hcd => exact .some ⟨hab, hcd⟩
    | none => exact .none
  | none => exact .none

theorem Agree.all {xs : List (Attempt ν α)} {ys : List (Attempt ν β)}
    (h : List.Forall₂ (Agree R) xs ys) :
    Agree (List.Forall₂ R) (Attempt.all xs) (Attempt.all ys) := by
  induction h with
  | nil => exact .pure .nil
  | cons hxy _ ih =>
    refine Logged.Agree.bind hxy fun a b hab => Logged.Agree.bind ih fun as bs hs => .pure ?_
    cases hab with
    | some hab =>
      cases hs with
      | some hs => exact .some (.cons hab hs)
      | none => exact .none
    | none => exact .none

theorem Agree.nonempty {as : List α} {bs : List β} (h : List.Forall₂ R as bs) :
    Agree (List.Forall₂ R) (Attempt.nonempty as : Attempt ν (List α)) (Attempt.nonempty bs) := by
  refine Logged.Agree.pure ?_
  cases h with
  | nil => exact .none
  | cons hab hs => exact .some (.cons hab hs)

end Attempt

namespace Logged

variable {ν α β : Type} {R : α → β → Prop}

theorem Agree.those {xs : List (Attempt ν α)} {ys : List (Attempt ν β)}
    (h : List.Forall₂ (Attempt.Agree R) xs ys) :
    Agree (List.Forall₂ R) (Logged.those xs) (Logged.those ys) := by
  induction h with
  | nil => exact .pure .nil
  | cons hxy _ ih =>
    refine Agree.bind hxy fun a b hab => ih.bind fun as bs hs => .pure ?_
    cases hab with
    | some hab => exact .cons hab hs
    | none => exact hs

end Logged

end RdfMapping
