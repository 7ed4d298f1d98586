/-
# Maps that differ in order only

Lists with the same elements in another order, where being the same element is itself a relation,
and the parts of documents that agree up to the order of the lists in them.
-/
import Mathlib.Data.List.Forall2
import Mathlib.Data.List.Perm.Basic
import RdfMapping.Mapping.Document

namespace RdfMapping

/-! ## Lists that can be paired off -/

/-- The elements of two lists can be paired off so that partners are related. -/
inductive Reordered {α β : Type} (R : α → β → Prop) : List α → List β → Prop where
  | nil : Reordered R [] []
  | cons {a : α} {b : β} {l : List α} {before after : List β} :
    R a b → Reordered R l (before ++ after) → Reordered R (a :: l) (before ++ b :: after)

namespace Reordered

variable {α β γ δ : Type} {R : α → β → Prop} {S : γ → δ → Prop} {l : List α} {l' : List β}

theorem of_forall₂ (h : List.Forall₂ R l l') : Reordered R l l' := by
  induction h with
  | nil => exact .nil
  | cons hab _ ih => exact @cons _ _ _ _ _ _ [] _ hab ih

theorem mono_mem {T : α → β → Prop} (h : Reordered R l l')
    (hRT : ∀ a ∈ l, ∀ b ∈ l', R a b → T a b) : Reordered T l l' := by
  induction h with
  | nil => exact .nil
  | @cons a b l before after hab _ ih =>
    refine .cons (hRT a (List.mem_cons_self ..) b (by simp) hab) (ih fun x hx y hy => ?_)
    refine hRT x (List.mem_cons_of_mem _ hx) y ?_
    rw [List.mem_append, List.mem_cons]
    exact (List.mem_append.1 hy).imp_right .inr

theorem mono {T : α → β → Prop} (h : Reordered R l l') (hRT : ∀ a b, R a b → T a b) :
    Reordered T l l' :=
  h.mono_mem fun a _ b _ => hRT a b

/-- Each element has a partner. -/
theorem exists_of_mem_left (h : Reordered R l l') {a : α} (ha : a ∈ l) : ∃ b ∈ l', R a b := by
  induction h with
  | nil => exact absurd ha List.not_mem_nil
  | @cons x y l before after hxy _ ih =>
    rcases List.mem_cons.1 ha with rfl | ha
    · exact ⟨y, by simp, hxy⟩
    · obtain ⟨b, hb, hab⟩ := ih ha
      refine ⟨b, ?_, hab⟩
      rcases List.mem_append.1 hb with hb | hb
      · exact List.mem_append_left _ hb
      · exact List.mem_append_right _ (List.mem_cons_of_mem _ hb)

/-- Each element is a partner. -/
theorem exists_of_mem_right (h : Reordered R l l') {b : β} (hb : b ∈ l') :
    ∃ a ∈ l, R a b := by
  induction h with
  | nil => exact absurd hb List.not_mem_nil
  | @cons x y l before after hxy _ ih =>
    have hcases : b = y ∨ b ∈ before ++ after := by
      rcases List.mem_append.1 hb with hb | hb
      · exact .inr (List.mem_append_left _ hb)
      · rcases List.mem_cons.1 hb with rfl | hb
        · exact .inl rfl
        · exact .inr (List.mem_append_right _ hb)
    rcases hcases with rfl | hb
    · exact ⟨x, List.mem_cons_self .., hxy⟩
    · obtain ⟨a, ha, hab⟩ := ih hb
      exact ⟨a, List.mem_cons_of_mem _ ha, hab⟩

theorem length_eq (h : Reordered R l l') : l.length = l'.length := by
  induction h with
  | nil => rfl
  | cons _ _ ih =>
    simp only [List.length_cons, List.length_append] at ih ⊢
    omega

theorem eq_nil (h : Reordered R [] l') : l' = [] :=
  List.eq_nil_of_length_eq_zero h.length_eq.symm

/-- A list of one element is paired off with a list of one element. -/
theorem eq_singleton {a : α} (h : Reordered R [a] l') : ∃ b, l' = [b] ∧ R a b := by
  obtain ⟨b, rfl⟩ := List.length_eq_one_iff.1 h.length_eq.symm
  obtain ⟨b', hb', hab⟩ := h.exists_of_mem_left (List.mem_singleton.2 rfl)
  rw [List.mem_singleton.1 hb'] at hab
  exact ⟨b, rfl, hab⟩

/-- Lists whose images are permutations are paired off. -/
theorem of_perm_map {f : α → γ} {h : β → γ} :
    ∀ {l : List α} {l' : List β}, (l.map f).Perm (l'.map h) →
      Reordered (fun a b => f a = h b) l l' := by
  intro l
  induction l with
  | nil =>
    intro l' hp
    rw [List.map_nil, List.nil_perm, List.map_eq_nil_iff] at hp
    rw [hp]
    exact .nil
  | cons a l ih =>
    intro l' hp
    have hmem : f a ∈ l'.map h := hp.subset (List.mem_cons_self ..)
    obtain ⟨b, hb, hba⟩ := List.mem_map.1 hmem
    obtain ⟨before, after, rfl⟩ := List.append_of_mem hb
    refine .cons hba.symm (ih ?_)
    rw [List.map_cons, List.map_append, List.map_cons, hba] at hp
    rw [List.map_append]
    exact (hp.trans List.perm_middle).cons_inv

/-- Permutations are paired off by equality, and nothing else is. -/
theorem eq_iff_perm {l l' : List α} : Reordered Eq l l' ↔ l.Perm l' := by
  constructor
  · intro h
    induction h with
    | nil => exact .nil
    | @cons a b l before after hab _ ih =>
      subst hab
      exact (ih.cons a).trans List.perm_middle.symm
  · intro h
    have hmap : (l.map id).Perm (l'.map id) := by simpa using h
    exact of_perm_map hmap

theorem exists_append_of_forall₂ {Q : α → γ → Prop} {l₁ l₂ : List α} {m : List γ}
    (h : List.Forall₂ Q (l₁ ++ l₂) m) :
    ∃ m₁ m₂, List.Forall₂ Q l₁ m₁ ∧ List.Forall₂ Q l₂ m₂ ∧ m = m₁ ++ m₂ := by
  induction l₁ generalizing m with
  | nil => exact ⟨[], m, .nil, h, rfl⟩
  | cons a l₁ ih =>
    obtain ⟨x, rest, hx, hrest, rfl⟩ := List.forall₂_cons_left_iff.1 h
    obtain ⟨m₁, m₂, h₁, h₂, rfl⟩ := ih hrest
    exact ⟨x :: m₁, m₂, .cons hx h₁, h₂, rfl⟩

/-- What is made of the elements one by one is paired off as the elements are. -/
theorem transport {P : α → γ → Prop} {Q : β → δ → Prop} (h : Reordered R l l')
    (hS : ∀ a b x y, R a b → P a x → Q b y → S x y) :
    ∀ {m : List γ} {m' : List δ}, List.Forall₂ P l m → List.Forall₂ Q l' m' →
      Reordered S m m' := by
  induction h with
  | nil =>
    rintro _ _ ⟨⟩ ⟨⟩
    exact .nil
  | @cons a b l before after hab _ ih =>
    rintro _ m' (_ | ⟨hax, hlm⟩) hm'
    obtain ⟨B, rest, hB, hrest, rfl⟩ := exists_append_of_forall₂ hm'
    obtain ⟨y, A, hby, hA, rfl⟩ := List.forall₂_cons_left_iff.1 hrest
    exact .cons (hS _ _ _ _ hab hax hby) (ih hlm (List.rel_append hB hA))

theorem forall₂_mapIdx (f : Nat → α → γ) (l : List α) :
    List.Forall₂ (fun a x => ∃ i, x = f i a) l (l.mapIdx f) := by
  induction l generalizing f with
  | nil => exact .nil
  | cons a l ih =>
    rw [List.mapIdx_cons]
    refine .cons ⟨0, rfl⟩ ((ih fun i => f (i + 1)).imp ?_)
    rintro b x ⟨i, hi⟩
    exact ⟨i + 1, hi⟩

theorem mapIdx {f : Nat → α → γ} {k : Nat → β → δ} (h : Reordered R l l')
    (hS : ∀ i j a b, R a b → S (f i a) (k j b)) :
    Reordered S (l.mapIdx f) (l'.mapIdx k) := by
  refine h.transport ?_ (forall₂_mapIdx f l) (forall₂_mapIdx k l')
  rintro a b _ _ hab ⟨i, rfl⟩ ⟨j, rfl⟩
  exact hS i j a b hab

theorem map {f : α → γ} {k : β → δ} (h : Reordered R l l')
    (hS : ∀ a b, R a b → S (f a) (k b)) : Reordered S (l.map f) (l'.map k) := by
  induction h with
  | nil => exact .nil
  | cons hab _ ih =>
    rw [List.map_append] at ih
    rw [List.map_append]
    exact .cons (hS _ _ hab) ih

/-- Parts that are chosen alike are paired off. -/
theorem filterMap {f : α → Option γ} {k : β → Option δ} (h : Reordered R l l')
    (hS : ∀ a b, R a b → Option.Rel S (f a) (k b)) :
    Reordered S (l.filterMap f) (l'.filterMap k) := by
  induction h with
  | nil => exact .nil
  | @cons a b l before after hab _ ih =>
    rw [List.filterMap_append] at ih
    rw [List.filterMap_append, List.filterMap_cons, List.filterMap_cons]
    have hrel := hS a b hab
    revert hrel
    generalize f a = x
    generalize k b = y
    intro hrel
    cases hrel with
    | some hxy => exact .cons hxy ih
    | none => exact ih

end Reordered

namespace Mapping

/-! ## Term maps up to order -/

mutual

/-- Values that agree up to order, with the parents of joins related by `ρ`. -/
def Value.Alike (ρ : String → String → Prop) : Value → Value → Prop
  | .constant a, .constant b => a = b
  | .reference a, .reference b => a = b
  | .template a, .template b => a = b
  | .function f ps, .function h qs => f = h ∧ Parameter.AlikeAll ρ ps qs
  | .join p cs, .join q ds => ρ p q ∧ cs.Perm ds
  | _, _ => False

/-- Lists of parameters that can be paired off. -/
def Parameter.AlikeAll (ρ : String → String → Prop) : List Parameter → List Parameter → Prop
  | [], qs => qs = []
  | ⟨name, v⟩ :: ps, qs =>
    ∃ before w after, qs = before ++ ⟨name, w⟩ :: after ∧ v.Alike ρ w ∧
      Parameter.AlikeAll ρ ps (before ++ after)

/-- Term maps that agree up to the order of parameters and join conditions. -/
def TermMap.Alike (ρ : String → String → Prop) : TermMap → TermMap → Prop
  | ⟨none, t, d, l, _⟩, ⟨none, u, e, m, _⟩ => t = u ∧ d = e ∧ l = m
  | ⟨some v, t, d, l, _⟩, ⟨some w, u, e, m, _⟩ => t = u ∧ d = e ∧ l = m ∧ v.Alike ρ w
  | _, _ => False

end

/-- Parameters with the same name and values that agree up to order. -/
def Parameter.Alike (ρ : String → String → Prop) (p q : Parameter) : Prop :=
  p.predicate = q.predicate ∧ p.value.Alike ρ q.value

/-- Parameters are alike if they can be paired off. -/
theorem Parameter.alikeAll_iff {ρ : String → String → Prop} {ps qs : List Parameter} :
    Parameter.AlikeAll ρ ps qs ↔ Reordered (Parameter.Alike ρ) ps qs := by
  induction ps generalizing qs with
  | nil =>
    rw [Parameter.AlikeAll]
    exact ⟨fun h => by rw [h]; exact .nil, fun h => h.eq_nil⟩
  | cons p ps ih =>
    obtain ⟨name, v⟩ := p
    rw [Parameter.AlikeAll]
    constructor
    · rintro ⟨before, w, after, rfl, hvw, h⟩
      exact .cons ⟨rfl, hvw⟩ (ih.1 h)
    · rintro (_ | @⟨_, ⟨name', w⟩, _, before, after, ⟨hname, hvw⟩, h⟩)
      cases hname
      exact ⟨before, w, after, rfl, hvw, ih.2 h⟩

section Mono

variable {ρ σ : String → String → Prop}

mutual

/-- The parents of joins may be related more loosely. -/
theorem Value.Alike.mono (h : ∀ p q, ρ p q → σ p q) : ∀ {v w : Value}, v.Alike ρ w → v.Alike σ w
  | .constant _, .constant _, hvw | .reference _, .reference _, hvw
  | .template _, .template _, hvw => by
    rw [Value.Alike] at hvw ⊢
    exact hvw
  | .function _ _, .function _ _, hvw => by
    rw [Value.Alike] at hvw ⊢
    exact ⟨hvw.1, Parameter.AlikeAll.mono h hvw.2⟩
  | .join _ _, .join _ _, hvw => by
    rw [Value.Alike] at hvw ⊢
    exact ⟨h _ _ hvw.1, hvw.2⟩

theorem Parameter.AlikeAll.mono (h : ∀ p q, ρ p q → σ p q) :
    ∀ {ps qs : List Parameter}, Parameter.AlikeAll ρ ps qs → Parameter.AlikeAll σ ps qs
  | [], _, hps => hps
  | ⟨_, _⟩ :: _, _, hps => by
    rw [Parameter.AlikeAll] at hps ⊢
    obtain ⟨before, w, after, heq, hvw, hrest⟩ := hps
    exact ⟨before, w, after, heq, TermMap.Alike.mono h hvw, Parameter.AlikeAll.mono h hrest⟩

theorem TermMap.Alike.mono (h : ∀ p q, ρ p q → σ p q) :
    ∀ {a b : TermMap}, a.Alike ρ b → a.Alike σ b
  | ⟨none, _, _, _, _⟩, ⟨none, _, _, _, _⟩, hab => hab
  | ⟨some _, _, _, _, _⟩, ⟨some _, _, _, _, _⟩, hab => by
    rw [TermMap.Alike] at hab ⊢
    exact ⟨hab.1, hab.2.1, hab.2.2.1, Value.Alike.mono h hab.2.2.2⟩

end

end Mono

/-- Predicate-object maps that agree up to order. -/
structure PredicateObjectMap.Alike (ρ : String → String → Prop) (a b : PredicateObjectMap) :
    Prop where
  predicates : Reordered (TermMap.Alike ρ) a.predicates b.predicates
  objects : Reordered (TermMap.Alike ρ) a.objects b.objects
  graphs : Reordered (TermMap.Alike ρ) a.graphs b.graphs

/-- Subject maps that agree up to order. -/
structure SubjectMap.Alike (ρ : String → String → Prop) (a b : SubjectMap) : Prop where
  term : a.term.Alike ρ b.term
  classes : a.classes.Perm b.classes
  graphs : Reordered (TermMap.Alike ρ) a.graphs b.graphs

/-- Triples maps that agree up to order and `ρ`. -/
structure TriplesMap.Alike (ρ : String → String → Prop) (a b : TriplesMap) : Prop where
  id : ρ a.id b.id
  source : a.source = b.source
  subject : a.subject.Alike ρ b.subject
  predicateObjects :
    Reordered (PredicateObjectMap.Alike ρ) a.predicateObjects b.predicateObjects

theorem PredicateObjectMap.Alike.mono {ρ σ : String → String → Prop}
    (h : ∀ p q, ρ p q → σ p q) {a b : PredicateObjectMap} (hab : a.Alike ρ b) : a.Alike σ b :=
  ⟨hab.predicates.mono fun _ _ => TermMap.Alike.mono h,
    hab.objects.mono fun _ _ => TermMap.Alike.mono h,
    hab.graphs.mono fun _ _ => TermMap.Alike.mono h⟩

theorem TriplesMap.Alike.mono {ρ σ : String → String → Prop} (h : ∀ p q, ρ p q → σ p q)
    {a b : TriplesMap} (hab : a.Alike ρ b) : a.Alike σ b :=
  ⟨h _ _ hab.id, hab.source,
    ⟨hab.subject.term.mono h, hab.subject.classes,
      hab.subject.graphs.mono fun _ _ => TermMap.Alike.mono h⟩,
    hab.predicateObjects.mono fun _ _ => PredicateObjectMap.Alike.mono h⟩

end Mapping

end RdfMapping
