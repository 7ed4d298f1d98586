/-
# Clean readings

A reading without problems is the pure one of its value.  Readings are put together in a few ways,
and each of them is clean just if its parts are.
-/
import Mathlib.Data.List.Forall2
import RdfMapping.Shorthand.Document

namespace RdfMapping

variable {α β γ : Type} {n : Option Node} {place : Place} {R : β → γ → Prop} {f : Nat → α → β}
  {as : List α} {cs : List γ} {bs : List β}

/-! ## Values with notes -/

namespace Logged

variable {ν α β : Type}

instance : LawfulMonad (Logged ν) :=
  LawfulMonad.mk' (Logged ν)
    (fun x => congrArg (Logged.mk x.value) (List.append_nil x.notes))
    (fun _ _ => rfl)
    (fun _ _ _ => congrArg (Logged.mk _) (List.append_assoc _ _ _))

theorem eq_pure_iff {x : Logged ν α} {a : α} : x = pure a ↔ x.value = a ∧ x.notes = [] := by
  obtain ⟨b, notes⟩ := x
  exact ⟨fun h => by cases h; exact ⟨rfl, rfl⟩, fun h => by rw [← h.1]; exact congrArg _ h.2⟩

theorem bind_eq_pure_iff {x : Logged ν α} {f : α → Logged ν β} {b : β} :
    x >>= f = pure b ↔ ∃ a, x = pure a ∧ f a = pure b := by
  constructor
  · intro h
    rw [eq_pure_iff, value_bind, notes_bind, List.append_eq_nil_iff] at h
    exact ⟨x.value, eq_pure_iff.2 ⟨rfl, h.2.1⟩, eq_pure_iff.2 ⟨h.1, h.2.2⟩⟩
  · rintro ⟨a, rfl, hf⟩
    rw [pure_bind, hf]

theorem tell_eq_pure_iff {notes : List ν} {u : Unit} : tell notes = pure u ↔ notes = [] :=
  ⟨fun h => congrArg Logged.notes h, fun h => by rw [h]; rfl⟩

theorem each_eq_pure {xs : List (Logged ν α)} {as : List α}
    (h : List.Forall₂ (fun x a => x = pure a) xs as) : each xs = pure as := by
  induction h with
  | nil => rfl
  | cons hx _ ih => rw [each, hx, pure_bind, ih, pure_bind]

theorem those_eq_pure {xs : List (Attempt ν α)} {as : List α}
    (h : List.Forall₂ (fun x a => x = pure a) xs as) : those xs = pure as := by
  induction h with
  | nil => rfl
  | @cons x a xs as hx _ ih =>
    have hrun : x.run = pure (some a) := congrArg OptionT.run hx
    rw [those, hrun, pure_bind, ih, pure_bind]
    rfl

end Logged

/-! ## Lists of parts -/

theorem forall₂_mapIdx_left (h : List.Forall₂ (fun a c => ∀ i, R (f i a) c) as cs) :
    List.Forall₂ R (as.mapIdx f) cs := by
  induction as generalizing f cs with
  | nil =>
    cases h
    exact .nil
  | cons a as ih =>
    cases h with
    | cons hac hrest =>
      rw [List.mapIdx_cons]
      exact .cons (hac 0) (ih (hrest.imp fun _ _ h i => h (i + 1)))

theorem forall₂_of_mapIdx_left (h : List.Forall₂ R (as.mapIdx f) cs) :
    List.Forall₂ (fun a c => ∃ i, R (f i a) c) as cs := by
  induction as generalizing f cs with
  | nil =>
    cases h
    exact .nil
  | cons a as ih =>
    rw [List.mapIdx_cons] at h
    cases h with
    | cons hac hrest =>
      exact .cons ⟨0, hac⟩ ((ih hrest).imp fun _ _ h => h.elim fun i hi => ⟨i + 1, hi⟩)

theorem forall_mem_right {R : α → β → Prop} {P : β → Prop} (h : List.Forall₂ R as bs)
    (hP : ∀ a b, R a b → P b) : ∀ b ∈ bs, P b := by
  induction h with
  | nil => exact fun _ hb => absurd hb List.not_mem_nil
  | @cons a b _ _ hab _ ih => exact List.forall_mem_cons.2 ⟨hP a b hab, ih⟩

/-- Pairs that each have something in common with a third make lists that do. -/
theorem exists_forall₂ {P : α → γ → Prop} {Q : β → γ → Prop}
    (h : List.Forall₂ (fun a b => ∃ c, P a c ∧ Q b c) as bs) :
    ∃ cs, List.Forall₂ P as cs ∧ List.Forall₂ Q bs cs := by
  induction h with
  | nil => exact ⟨[], .nil, .nil⟩
  | cons hab _ ih =>
    obtain ⟨c, hP, hQ⟩ := hab
    obtain ⟨cs, hPs, hQs⟩ := ih
    exact ⟨c :: cs, .cons hP hPs, .cons hQ hQs⟩

/-! ## Values that may be missing -/

namespace Attempt

variable {ν α β : Type} {x : Attempt ν α} {a : α} {b : β} {xs : List (Attempt ν α)} {as : List α}

theorem eq_pure_iff : x = pure a ↔ x.run = pure (some a) :=
  Iff.rfl

theorem pure_inj {b : α} : (pure a : Attempt ν α) = pure b ↔ a = b :=
  ⟨fun h => Option.some.inj (congrArg (fun x => x.run.value) h), congrArg pure⟩

theorem bind_eq_pure_iff {f : α → Attempt ν β} :
    x >>= f = pure b ↔ ∃ a, x = pure a ∧ f a = pure b := by
  constructor
  · intro h
    rw [eq_pure_iff, run_bind, Logged.bind_eq_pure_iff] at h
    obtain ⟨a, hx, hf⟩ := h
    cases a with
    | none => cases hf
    | some a => exact ⟨a, hx, hf⟩
  · rintro ⟨a, rfl, hf⟩
    rw [pure_bind, hf]

theorem fail_ne_pure {notes : List ν} : (fail notes : Attempt ν α) ≠ pure a :=
  nofun

theorem lift_eq_pure_iff {x : Logged ν α} : (liftM x : Attempt ν α) = pure a ↔ x = pure a := by
  rw [eq_pure_iff, run_lift, Logged.bind_eq_pure_iff]
  constructor
  · rintro ⟨b, hx, hb⟩
    cases hb
    exact hx
  · exact fun hx => ⟨a, hx, rfl⟩

theorem all_eq_pure (h : List.Forall₂ (fun x a => x = pure a) xs as) : all xs = pure as := by
  induction h with
  | nil => rfl
  | @cons x a xs as hx _ ih =>
    have hrun : x.run = pure (some a) := congrArg OptionT.run hx
    rw [eq_pure_iff, all, OptionT.run_mk, hrun, pure_bind, ih]
    rfl

/-- The parts of a clean list are clean. -/
theorem forall₂_of_all_eq_pure (h : all xs = pure as) :
    List.Forall₂ (fun x a => x = pure a) xs as := by
  induction xs generalizing as with
  | nil =>
    cases pure_inj.1 h
    exact .nil
  | cons x rest ih =>
    rw [eq_pure_iff, all, OptionT.run_mk, Logged.bind_eq_pure_iff] at h
    obtain ⟨a, hx, hrest⟩ := h
    obtain ⟨bs, hbs, hvalue⟩ := Logged.bind_eq_pure_iff.1 hrest
    cases a with
    | none => cases hvalue
    | some a =>
      cases bs with
      | none => cases hvalue
      | some bs =>
        cases hvalue
        exact .cons hx (ih hbs)

/-- A pair is clean just if both parts are. -/
theorem both_eq_pure_iff {y : Attempt ν β} : both x y = pure (a, b) ↔ x = pure a ∧ y = pure b := by
  constructor
  · intro h
    obtain ⟨a', hx, h⟩ := Logged.bind_eq_pure_iff.1 (eq_pure_iff.1 h)
    obtain ⟨b', hy, h⟩ := Logged.bind_eq_pure_iff.1 h
    cases a' with
    | none => cases h
    | some a =>
      cases b' with
      | none => cases h
      | some b =>
        cases h
        exact ⟨hx, hy⟩
  · rintro ⟨rfl, rfl⟩
    rfl

theorem nonempty_eq_pure (h : as ≠ []) : (nonempty as : Attempt ν (List α)) = pure as := by
  rw [nonempty, if_neg (by simpa using h)]
  rfl

end Attempt

namespace Shorthand

open Yaml (Node Entry)

variable {α : Type}

theorem flawless_eq_pure {x : Noted α} {a : α} (h : x = pure a) : flawless x = pure a := by
  rw [h]
  rfl

theorem refuse_ne_pure {p : Problem} {a : α} :
    (refuse p n place : Reading α) ≠ pure a :=
  Attempt.fail_ne_pure

theorem note_ne_pure {p : Problem} {u : Unit} :
    note p n place ≠ pure u :=
  nofun

/-! ## Texts and names -/

/-- A scalar is read just if it is one and not null. -/
theorem readScalar_eq_pure_iff {text : String} :
    readScalar n place = pure text ↔
      ∃ m, n = some m ∧ m.isNull = false ∧ m.isScalar = true ∧ m.target.text = text := by
  cases n with
  | none => exact ⟨fun h => absurd h refuse_ne_pure, nofun⟩
  | some m =>
    simp only [readScalar, Option.some.injEq, exists_eq_left']
    split
    · next hnull => exact ⟨fun h => absurd h refuse_ne_pure, fun h => by simp [hnull] at h⟩
    · next hnull =>
      split
      · next hscalar =>
        refine ⟨fun h => ⟨by simpa using hnull, hscalar, ?_⟩, fun h => by rw [h.2.2]⟩
        exact Option.some.inj (congrArg (fun x => x.run.value) h)
      · next hscalar => exact ⟨fun h => absurd h refuse_ne_pure, fun h => absurd h.2.1 hscalar⟩

@[simp]
theorem readScalar_ofText (text : String) (place : Place) :
    readScalar (some (.ofText text)) place = pure text := rfl

theorem readIri_ofText {scope : Scope} {text iri : String} (place : Place) :
    scope.readIri (some (.ofText text)) place = pure iri ↔ scope.resolve text = .ok iri := by
  rw [Scope.readIri, readScalar_ofText, pure_bind]
  cases scope.resolve text with
  | ok other => exact Attempt.pure_inj.trans ⟨congrArg _, Except.ok.inj⟩
  | error e => exact ⟨fun h => absurd h refuse_ne_pure, fun h => by cases h⟩

/-! ## Keys -/

section Keys

variable {κ : Type} [BEq κ] {ring : Keyring κ} {found keys : Keyed κ} {e : Entry} {place' : Place}
  {es : List Entry} {n : Node} {parts : List (κ × String × Option Node)}

/-- An entry is read just if its key is known and new. -/
theorem collectKeys_cons_eq_pure_iff {rest : List Entry} :
    collectKeys ring place found (e :: rest) = pure keys ↔
      ∃ k, ring.find? e = some k ∧ found.get? k = none ∧
        collectKeys ring place (found ++ [(k, e)]) rest = pure keys := by
  have hnoted {problem : Problem} {n : Option Node} {next : Unit → Noted (Keyed κ)} :
      note problem n place >>= next ≠ pure keys := by
    intro h
    obtain ⟨u, hu, -⟩ := Logged.bind_eq_pure_iff.1 h
    exact note_ne_pure hu
  rw [collectKeys]
  cases ring.find? e with
  | none => simpa using hnoted
  | some k =>
    cases hfound : found.get? k with
    | none => simp [hfound]
    | some e' => simpa [hfound] using hnoted

/-- Keys that are read without a problem at one place are so at every other. -/
theorem collectKeys_eq_pure (h : collectKeys ring place found es = pure keys) :
    collectKeys ring place' found es = pure keys := by
  induction es generalizing found with
  | nil => exact h
  | cons e rest ih =>
    obtain ⟨k, hk, hnew, hrest⟩ := collectKeys_cons_eq_pure_iff.1 h
    exact collectKeys_cons_eq_pure_iff.2 ⟨k, hk, hnew, ih hrest⟩

theorem readKeys_eq_pure (h : readKeys ring n place = pure keys) :
    readKeys ring n place' = pure keys :=
  collectKeys_eq_pure h

/-- What is found with a key was written with it. -/
theorem find?_of_mem_collectKeys (h : collectKeys ring place found es = pure keys) {p : κ × Entry}
    (hp : p ∈ keys) : p ∈ found ∨ p.2 ∈ es ∧ ring.find? p.2 = some p.1 := by
  induction es generalizing found with
  | nil =>
    cases h
    exact .inl hp
  | cons e rest ih =>
    obtain ⟨k, hk, -, hrest⟩ := collectKeys_cons_eq_pure_iff.1 h
    rcases ih hrest with hfound | ⟨hmem, hfind⟩
    · rcases List.mem_append.1 hfound with hfound | hnew
      · exact .inl hfound
      · rw [List.mem_singleton.1 hnew]
        exact .inr ⟨List.mem_cons_self .., hk⟩
    · exact .inr ⟨List.mem_cons_of_mem _ hmem, hfind⟩

/-- A part that is found has a known key. -/
theorem find?_of_get? [LawfulBEq κ] {keys : Keyed κ} (h : readKeys ring n place = pure keys) {k : κ}
    (he : keys.get? k = some e) : e ∈ n.entries ∧ ring.find? e = some k := by
  have hmem : (k, e) ∈ keys := by
    clear h
    induction keys with
    | nil => cases he
    | cons p rest ih =>
      rw [Keyed.get?, List.lookup_cons] at he
      split at he
      · next heq =>
        cases he
        rw [eq_of_beq heq]
        exact List.mem_cons_self ..
      · exact List.mem_cons_of_mem _ (ih he)
  exact (find?_of_mem_collectKeys h hmem).resolve_left List.not_mem_nil

/-! ### Parts that may be absent -/

/-- The entries of parts with their keys; those that are absent are left out. -/
def partEntries (parts : List (κ × String × Option Node)) : List Entry :=
  parts.flatMap fun p => p.2.2.toList.map fun n => ⟨.ofText p.2.1, n⟩

/-- The parts by key. -/
def keyedParts (parts : List (κ × String × Option Node)) : Keyed κ :=
  parts.flatMap fun p => p.2.2.toList.map fun n => (p.1, ⟨.ofText p.2.1, n.target⟩)

theorem get?_append (found more : Keyed κ) (k : κ) :
    Keyed.get? (found ++ more) k = (found.get? k).or (more.get? k) :=
  List.lookup_append

variable [LawfulBEq κ]

/-- Parts with known and distinct keys are all found. -/
theorem collectKeys_parts (hkeys : ∀ p ∈ parts, ring.spellings.lookup (Text.lower p.2.1) = some p.1)
    (hnodup : (parts.map Prod.fst).Nodup) (hfound : ∀ p ∈ parts, found.get? p.1 = none) :
    collectKeys ring place found
      ((partEntries parts).map fun e => ⟨e.key.target, e.value.target⟩) =
        pure (found ++ keyedParts parts) := by
  induction parts generalizing found with
  | nil => exact congrArg pure (List.append_nil found).symm
  | cons p rest ih =>
    obtain ⟨k, key, n⟩ := p
    rw [List.forall_mem_cons] at hkeys hfound
    rw [List.map_cons, List.nodup_cons] at hnodup
    cases n with
    | none => exact ih hkeys.2 hnodup.2 hfound.2
    | some n =>
      have hnew : ∀ p ∈ rest, Keyed.get? (found ++ [(k, ⟨.ofText key, n.target⟩)]) p.1 = none := by
        intro p hp
        have hne : p.1 ≠ k := fun heq => hnodup.1 (heq ▸ List.mem_map.2 ⟨p, hp, rfl⟩)
        rw [get?_append, hfound.2 p hp, Option.none_or, Keyed.get?, List.lookup_cons,
          beq_eq_false_iff_ne.2 hne]
        rfl
      have hcons : partEntries ((k, key, some n) :: rest) =
        ⟨.ofText key, n⟩ :: partEntries rest := rfl
      have hfind : ring.find? ⟨.ofText key, n.target⟩ = some k := hkeys.1
      have hih := ih hkeys.2 hnodup.2 hnew
      rw [List.append_assoc] at hih
      rw [hcons, List.map_cons, collectKeys]
      split
      · next hnone => exact absurd (hfind.symm.trans hnone) (Option.some_ne_none k)
      · next k' hsome =>
        cases hfind.symm.trans hsome
        rw [hfound.1, if_neg (by simp)]
        exact hih

/-- **Parts with known keys are read by key.** -/
theorem readKeys_parts (hkeys : ∀ p ∈ parts, ring.spellings.lookup (Text.lower p.2.1) = some p.1)
    (hnodup : (parts.map Prod.fst).Nodup) (place : Place) :
    readKeys ring (.ofEntries (partEntries parts)) place = pure (keyedParts parts) :=
  collectKeys_parts hkeys hnodup fun _ _ => rfl

omit [LawfulBEq κ] in
theorem value?_keyedParts_cons (k k' : κ) (key : String) (n : Option Node)
    (rest : List (κ × String × Option Node)) :
    (keyedParts ((k', key, n) :: rest)).value? k =
      if k == k' then (n.map Node.target).or ((keyedParts rest).value? k)
      else (keyedParts rest).value? k := by
  cases n with
  | none => simp [keyedParts]
  | some n =>
    have hcons : keyedParts ((k', key, some n) :: rest) =
      (k', ⟨.ofText key, n.target⟩) :: keyedParts rest := rfl
    rw [hcons, Keyed.value?, Keyed.get?, List.lookup_cons]
    cases h : k == k' <;> rfl

/-- **The value with a key is that of the part.** -/
theorem value?_keyedParts (hnodup : (parts.map Prod.fst).Nodup)
    (hplain : ∀ p ∈ parts, p.2.2.map Node.target = p.2.2) (k : κ) :
    (keyedParts parts).value? k = (parts.lookup k).bind Prod.snd := by
  induction parts with
  | nil => rfl
  | cons p rest ih =>
    obtain ⟨k', key, n⟩ := p
    rw [List.map_cons, List.nodup_cons] at hnodup
    rw [List.forall_mem_cons] at hplain
    rw [value?_keyedParts_cons, List.lookup_cons, ih hnodup.2 hplain.2]
    cases heq : k == k' with
    | false => rfl
    | true =>
      -- the key does not come again
      have hnone : rest.lookup k = none := by
        rw [List.lookup_eq_none_iff]
        intro q hq
        have hne : k ≠ q.1 := by
          rw [eq_of_beq heq]
          exact fun h => hnodup.1 (h ▸ List.mem_map.2 ⟨q, hq, rfl⟩)
        simpa using hne
      rw [hnone, Option.bind_none, Option.or_none]
      exact hplain.1

end Keys

end Shorthand

end RdfMapping
