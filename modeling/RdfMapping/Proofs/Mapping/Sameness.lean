/-
# Maps that are equal apart from positions

Positions in the text are not part of what a map means.  `bare` drops them: maps are the same
apart from positions if their bare forms are equal, and then they obey the rules together.
-/
import Mathlib.Data.List.Forall2
import RdfMapping.Proofs.Mapping.Rules

namespace RdfMapping.Mapping

variable {xs ys : List TermMap} {a b : TriplesMap}

/-! ## Maps without positions -/

mutual

/-- A value without the positions in it. -/
def Value.bare : Value → Value
  | .function iri parameters => .function iri (Parameter.bareAll parameters)
  | .constant term => .constant term
  | .reference name => .reference name
  | .template pattern => .template pattern
  | .join parent conditions => .join parent conditions

/-- Parameters without the positions in them. -/
def Parameter.bareAll : List Parameter → List Parameter
  | [] => []
  | ⟨name, value⟩ :: rest => ⟨name, value.bare⟩ :: Parameter.bareAll rest

/-- A term map without positions. -/
def TermMap.bare : TermMap → TermMap
  | ⟨none, t, d, l, _⟩ => ⟨none, t, d, l, {}⟩
  | ⟨some value, t, d, l, _⟩ => ⟨some value.bare, t, d, l, {}⟩

end

/-- A subject map without positions. -/
def SubjectMap.bare (s : SubjectMap) : SubjectMap :=
  ⟨s.term.bare, s.classes, s.graphs.map TermMap.bare⟩

/-- A predicate-object map without positions. -/
def PredicateObjectMap.bare (pom : PredicateObjectMap) : PredicateObjectMap :=
  ⟨{}, pom.predicates.map TermMap.bare, pom.objects.map TermMap.bare,
    pom.graphs.map TermMap.bare⟩

/-- A triples map without positions. -/
def TriplesMap.bare (tm : TriplesMap) : TriplesMap :=
  ⟨tm.id, {}, tm.source, tm.subject.bare, tm.predicateObjects.map PredicateObjectMap.bare⟩

mutual

theorem Value.bare_bare : ∀ v : Value, v.bare.bare = v.bare
  | .constant _ | .reference _ | .template _ | .join _ _ => rfl
  | .function _ ps => by simp [Value.bare, Parameter.bareAll_bareAll ps]

theorem Parameter.bareAll_bareAll :
    ∀ ps : List Parameter, Parameter.bareAll (Parameter.bareAll ps) = Parameter.bareAll ps
  | [] => rfl
  | ⟨_, value⟩ :: rest => by
    simp [Parameter.bareAll, TermMap.bare_bare value, Parameter.bareAll_bareAll rest]

theorem TermMap.bare_bare : ∀ tm : TermMap, tm.bare.bare = tm.bare
  | ⟨none, _, _, _, _⟩ => rfl
  | ⟨some value, _, _, _, _⟩ => by simp [TermMap.bare, Value.bare_bare value]

end

theorem PredicateObjectMap.bare_bare (pom : PredicateObjectMap) : pom.bare.bare = pom.bare := by
  simp [PredicateObjectMap.bare, TermMap.bare_bare]

theorem TriplesMap.bare_bare (tm : TriplesMap) : tm.bare.bare = tm.bare := by
  simp [TriplesMap.bare, SubjectMap.bare, TermMap.bare_bare, PredicateObjectMap.bare_bare]

mutual

theorem Value.same_iff : ∀ v w : Value, v.same w = true ↔ v.bare = w.bare
  | .constant _, w | .reference _, w | .template _, w | .join _ _, w => by
    cases w <;> simp [Value.same, Value.bare]
  | .function _ ps, w => by cases w <;> simp [Value.same, Value.bare, Parameter.sameAll_iff ps]

theorem Parameter.sameAll_iff : ∀ ps qs : List Parameter,
    Parameter.sameAll ps qs = true ↔ Parameter.bareAll ps = Parameter.bareAll qs
  | [], qs => by rcases qs with _ | ⟨⟨_, _⟩, _⟩ <;> simp [Parameter.sameAll, Parameter.bareAll]
  | ⟨_, value⟩ :: rest, qs => by
    rcases qs with _ | ⟨⟨_, _⟩, _⟩ <;> simp [Parameter.sameAll, Parameter.bareAll,
      TermMap.same_iff value, Parameter.sameAll_iff rest]

/-- **Term maps are the same if they are equal without positions.** -/
theorem TermMap.same_iff : ∀ a b : TermMap, a.same b = true ↔ a.bare = b.bare
  | ⟨none, _, _, _, _⟩, b => by
    obtain ⟨_ | _, _, _, _, _⟩ := b <;> simp [TermMap.same, TermMap.bare, and_assoc]
  | ⟨some value, _, _, _, _⟩, b => by
    obtain ⟨_ | _, _, _, _, _⟩ := b
    · simp [TermMap.same, TermMap.bare]
    · simp only [TermMap.same, TermMap.bare, Bool.and_eq_true, beq_iff_eq, Value.same_iff value]
      grind

end

/-- The position of a term map does not count. -/
theorem TermMap.same_withSpan (tm : TermMap) (span : Span) : tm.same { tm with span } = true := by
  obtain ⟨_ | value, _, _, _, _⟩ := tm <;> exact (TermMap.same_iff _ _).2 rfl

/-- Term maps that are equal apart from positions have a value together. -/
theorem TermMap.value_of_same : ∀ {a b : TermMap}, a.same b = true →
    (a.value = none ∧ b.value = none) ∨
      ∃ v w, a.value = some v ∧ b.value = some w ∧ v.same w = true
  | ⟨none, _, _, _, _⟩, ⟨none, _, _, _, _⟩, _ => .inl ⟨rfl, rfl⟩
  | ⟨some v, _, _, _, _⟩, ⟨some w, _, _, _, _⟩, h => by
    rw [TermMap.same, Bool.and_eq_true] at h
    exact .inr ⟨v, w, rfl, rfl, h.2⟩

/-! ### Lists of maps -/

theorem TermMap.sameAll_iff_forall₂ : ∀ {xs ys : List TermMap},
    TermMap.sameAll xs ys = true ↔ List.Forall₂ (fun x y => x.same y = true) xs ys
  | [], [] | [], _ :: _ | _ :: _, [] => by simp [TermMap.sameAll]
  | _ :: _, _ :: _ => by
    rw [TermMap.sameAll, Bool.and_eq_true, TermMap.sameAll_iff_forall₂, List.forall₂_cons]

theorem TermMap.sameAll_iff :
    TermMap.sameAll xs ys = true ↔ xs.map TermMap.bare = ys.map TermMap.bare := by
  simp only [TermMap.sameAll_iff_forall₂, TermMap.same_iff, ← List.forall₂_eq_eq_eq,
    List.forall₂_map_left_iff, List.forall₂_map_right_iff]

theorem TermMap.sameAll_refl (tms : List TermMap) : TermMap.sameAll tms tms = true :=
  TermMap.sameAll_iff.2 rfl

theorem TermMap.sameAll_symm (h : TermMap.sameAll xs ys = true) : TermMap.sameAll ys xs = true :=
  TermMap.sameAll_iff.2 (TermMap.sameAll_iff.1 h).symm

theorem TermMap.ne_nil_of_sameAll (h : TermMap.sameAll xs ys = true) (hx : xs ≠ []) : ys ≠ [] := by
  rintro rfl
  exact hx (List.map_eq_nil_iff.1 (TermMap.sameAll_iff.1 h))

theorem PredicateObjectMap.same_iff {a b : PredicateObjectMap} :
    a.same b = true ↔ a.bare = b.bare := by
  simp only [PredicateObjectMap.same, PredicateObjectMap.bare, Bool.and_eq_true,
    TermMap.sameAll_iff, PredicateObjectMap.mk.injEq, true_and, and_assoc]

theorem PredicateObjectMap.sameAll_iff_forall₂ : ∀ {xs ys : List PredicateObjectMap},
    PredicateObjectMap.sameAll xs ys = true ↔ List.Forall₂ (fun x y => x.same y = true) xs ys
  | [], [] | [], _ :: _ | _ :: _, [] => by simp [PredicateObjectMap.sameAll]
  | _ :: _, _ :: _ => by
    rw [PredicateObjectMap.sameAll, Bool.and_eq_true, PredicateObjectMap.sameAll_iff_forall₂,
      List.forall₂_cons]

theorem PredicateObjectMap.sameAll_iff {xs ys : List PredicateObjectMap} :
    PredicateObjectMap.sameAll xs ys = true ↔
      xs.map PredicateObjectMap.bare = ys.map PredicateObjectMap.bare := by
  simp only [PredicateObjectMap.sameAll_iff_forall₂, PredicateObjectMap.same_iff,
    ← List.forall₂_eq_eq_eq, List.forall₂_map_left_iff, List.forall₂_map_right_iff]

/-! ## Triples maps -/

/-- Triples maps that are equal apart from positions. -/
structure TriplesMap.Matches (a b : TriplesMap) : Prop where
  id : a.id = b.id
  source : a.source = b.source
  subject : a.subject.term.same b.subject.term = true
  classes : a.subject.classes = b.subject.classes
  graphs : TermMap.sameAll a.subject.graphs b.subject.graphs = true
  predicateObjects : PredicateObjectMap.sameAll a.predicateObjects b.predicateObjects = true

theorem TriplesMap.matches_iff : a.Matches b ↔ a.bare = b.bare := by
  simp only [TriplesMap.bare, SubjectMap.bare, TriplesMap.mk.injEq, SubjectMap.mk.injEq,
    ← TermMap.same_iff, ← TermMap.sameAll_iff, ← PredicateObjectMap.sameAll_iff]
  exact ⟨fun ⟨hid, hsource, hterm, hclasses, hgraphs, hpoms⟩ =>
      ⟨hid, trivial, hsource, ⟨hterm, hclasses, hgraphs⟩, hpoms⟩,
    fun ⟨hid, _, hsource, ⟨hterm, hclasses, hgraphs⟩, hpoms⟩ =>
      ⟨hid, hsource, hterm, hclasses, hgraphs, hpoms⟩⟩

theorem TriplesMap.Matches.symm (h : a.Matches b) : b.Matches a :=
  TriplesMap.matches_iff.2 (TriplesMap.matches_iff.1 h).symm

theorem TriplesMap.matches_bare (tm : TriplesMap) : tm.Matches tm.bare := by
  rw [TriplesMap.matches_iff, TriplesMap.bare_bare]

/-! ## The rules do not depend on positions -/

mutual

theorem Value.Alike.of_same : ∀ {v w : Value}, v.same w = true → v.Alike Eq w
  | .constant _, .constant _, h | .reference _, .reference _, h | .template _, .template _, h => by
    rwa [Value.same, beq_iff_eq] at h
  | .function _ _, .function _ _, h => by
    rw [Value.same, Bool.and_eq_true, beq_iff_eq] at h
    exact ⟨h.1, Parameter.AlikeAll.of_same h.2⟩
  | .join _ _, .join _ _, h => by
    rw [Value.same, Bool.and_eq_true, beq_iff_eq, beq_iff_eq] at h
    exact ⟨h.1, h.2 ▸ .refl _⟩

theorem Parameter.AlikeAll.of_same : ∀ {ps qs : List Parameter},
    Parameter.sameAll ps qs = true → Parameter.AlikeAll Eq ps qs
  | [], [], _ => rfl
  | ⟨_, _⟩ :: _, ⟨_, _⟩ :: _, h => by
    simp only [Parameter.sameAll, Bool.and_eq_true, beq_iff_eq] at h
    obtain ⟨⟨rfl, hvalue⟩, hrest⟩ := h
    exact ⟨[], _, _, rfl, TermMap.Alike.of_same hvalue, Parameter.AlikeAll.of_same hrest⟩

/-- Term maps that are equal apart from positions agree up to order. -/
theorem TermMap.Alike.of_same : ∀ {a b : TermMap}, a.same b = true → a.Alike Eq b
  | ⟨none, _, _, _, _⟩, ⟨none, _, _, _, _⟩, h => by
    simpa only [TermMap.same, TermMap.Alike, Bool.and_eq_true, beq_iff_eq, and_assoc] using h
  | ⟨some _, _, _, _, _⟩, ⟨some _, _, _, _, _⟩, h => by
    simp only [TermMap.same, Bool.and_eq_true, beq_iff_eq] at h
    exact ⟨h.1.1.1, h.1.1.2, h.1.2, Value.Alike.of_same h.2⟩

end

theorem TermMap.reordered_of_sameAll (h : TermMap.sameAll xs ys = true) :
    Reordered (TermMap.Alike Eq) xs ys :=
  .of_forall₂ ((TermMap.sameAll_iff_forall₂.1 h).imp fun _ _ => TermMap.Alike.of_same)

theorem PredicateObjectMap.Alike.of_same {a b : PredicateObjectMap} (h : a.same b = true) :
    a.Alike Eq b := by
  simp only [PredicateObjectMap.same, Bool.and_eq_true] at h
  exact ⟨TermMap.reordered_of_sameAll h.1.1, TermMap.reordered_of_sameAll h.1.2,
    TermMap.reordered_of_sameAll h.2⟩

/-- **Triples maps that are equal apart from positions obey the rules together.** -/
theorem TriplesMap.Ok.of_matches {known known' : String → Prop}
    (hknown : ∀ id, known id → known' id) (h : a.Matches b) (ha : a.Ok known) : b.Ok known' := by
  have halike : a.Alike Eq b :=
    ⟨h.id, h.source, ⟨.of_same h.subject, .of_eq h.classes, TermMap.reordered_of_sameAll h.graphs⟩,
      .of_forall₂ ((PredicateObjectMap.sameAll_iff_forall₂.1 h.predicateObjects).imp
        fun _ _ => .of_same)⟩
  exact .of_alike (fun id _ heq => heq ▸ hknown id) halike (h.id ▸ ha.id) ha

end RdfMapping.Mapping
