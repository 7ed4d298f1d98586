/-
# The rules of documents

What holds of a term map, a triples map and a document if validation lists nothing.  None of it
depends on places, and little on the order of lists.
-/
import RdfMapping.Mapping.Validation
import RdfMapping.Proofs.Mapping.Reordering

namespace RdfMapping.Mapping

/-! ## The rules -/

/-- The rules on term type, datatype and language. -/
structure TypeOk (position : Position) (termType : TermType) (datatype language : String) :
    Prop where
  iri : position = .predicate ∨ position = .graph → termType = .iri
  subject : position = .subject → termType ≠ .literal
  exclusive : datatype = "" ∨ language = ""
  tagged : datatype ≠ "" ∨ language ≠ "" → termType = .literal

mutual

/-- The rules on a value; `known` says which identifiers a join may refer to. -/
def Value.Ok (known : String → Prop) (position : Position) (termType : TermType) : Value → Prop
  | .constant term =>
    term.kind = termType ∧ (term.kind = .literal → position.allowsLiteral = true)
  | .reference name => name ≠ ""
  | .template pattern => Template.isValid pattern = true
  | .function iri parameters => iri ≠ "" ∧ Parameter.OkAll known parameters
  | .join parent conditions =>
    position = .object ∧ known parent ∧ conditions ≠ [] ∧
      ∀ c ∈ conditions, c.child ≠ "" ∧ c.parent ≠ ""

/-- The rules on the parameters of a function. -/
def Parameter.OkAll (known : String → Prop) : List Parameter → Prop
  | [] => True
  | ⟨name, value⟩ :: rest =>
    name ≠ "" ∧ value.Ok known .parameter ∧ Parameter.OkAll known rest

/-- The rules on a term map. -/
def TermMap.Ok (known : String → Prop) (position : Position) : TermMap → Prop
  | ⟨none, _, _, _, _⟩ => False
  | ⟨some value, termType, datatype, language, _⟩ =>
    value.Ok known position termType ∧ TypeOk position termType datatype language

end

theorem Parameter.okAll_iff {known : String → Prop} {ps : List Parameter} :
    Parameter.OkAll known ps ↔ ∀ p ∈ ps, p.predicate ≠ "" ∧ p.value.Ok known .parameter := by
  induction ps with
  | nil => simp [Parameter.OkAll]
  | cons p rest ih =>
    obtain ⟨name, value⟩ := p
    rw [Parameter.OkAll, ih, List.forall_mem_cons, and_assoc]

/-- The rules on a predicate-object map. -/
structure PredicateObjectMap.Ok (known : String → Prop) (pom : PredicateObjectMap) : Prop where
  somePredicate : pom.predicates ≠ []
  someObject : pom.objects ≠ []
  predicates : ∀ tm ∈ pom.predicates, tm.Ok known .predicate
  objects : ∀ tm ∈ pom.objects, tm.Ok known .object
  graphs : ∀ tm ∈ pom.graphs, tm.Ok known .graph

/-- The rules on a triples map. -/
structure TriplesMap.Ok (known : String → Prop) (tm : TriplesMap) : Prop where
  id : isValidId tm.id = true
  subject : tm.subject.term.Ok known .subject
  classes : ∀ c ∈ tm.subject.classes, c ≠ ""
  graphs : ∀ g ∈ tm.subject.graphs, g.Ok known .graph
  predicateObjects : ∀ pom ∈ tm.predicateObjects, pom.Ok known

/-- What holds of all term maps of a triples map. -/
theorem forall_termMaps {P : TermMap → Prop} {tm : TriplesMap} :
    (∀ t ∈ tm.termMaps, P t.2) ↔
      P tm.subject.term ∧ (∀ g ∈ tm.subject.graphs, P g) ∧
        ∀ pom ∈ tm.predicateObjects, (∀ t ∈ pom.predicates, P t) ∧ (∀ t ∈ pom.objects, P t) ∧
          ∀ t ∈ pom.graphs, P t := by
  have hmap (l : List TermMap) (path : Nat → String) :
      (∀ t ∈ l.mapIdx fun i tm => (path i, tm), P t.2) ↔ ∀ t ∈ l, P t := by
    simp only [List.mem_mapIdx]
    constructor
    · intro h t ht
      obtain ⟨i, hi, rfl⟩ := List.mem_iff_getElem.1 ht
      exact h _ ⟨i, hi, rfl⟩
    · rintro h _ ⟨i, hi, rfl⟩
      exact h _ (List.getElem_mem hi)
  unfold TriplesMap.termMaps
  rw [List.cons_append, List.forall_mem_cons, List.forall_mem_append, hmap]
  refine and_congr_right fun _ => and_congr_right fun _ => ?_
  simp only [List.mem_flatten, List.mem_mapIdx]
  constructor
  · intro h pom hpom
    obtain ⟨i, hi, rfl⟩ := List.mem_iff_getElem.1 hpom
    have hall := fun t ht => h t ⟨_, ⟨i, hi, rfl⟩, ht⟩
    rwa [List.forall_mem_append, List.forall_mem_append, hmap, hmap, hmap, and_assoc] at hall
  · rintro h t ⟨_, ⟨i, hi, rfl⟩, ht⟩
    revert t
    rw [List.forall_mem_append, List.forall_mem_append, hmap, hmap, hmap, and_assoc]
    exact h _ (List.getElem_mem hi)

/-! ## The rules are what validation checks -/

/-- No violation means that the kind of term is allowed. -/
theorem termTypeViolations_eq_nil_iff {position : Position} {tm : TermMap} :
    termTypeViolations position tm = [] ↔
      TypeOk position tm.termType tm.datatype tm.language := by
  unfold termTypeViolations TermMap.isTagged
  constructor
  · intro h
    simp only [List.append_eq_nil_iff] at h
    obtain ⟨⟨hpos, hexc⟩, htag⟩ := h
    refine ⟨?_, ?_, ?_, ?_⟩
    · rintro (rfl | rfl) <;> simpa using hpos
    · rintro rfl
      simpa using hpos
    · by_contra hne
      simp_all
    · intro hne
      by_contra hl
      simp_all
  · rintro ⟨hiri, hsub, hexc, htag⟩
    simp only [List.append_eq_nil_iff]
    refine ⟨⟨?_, ?_⟩, ?_⟩
    · cases position <;> simp_all
    · rcases hexc with h | h <;> simp [h]
    · by_cases hne : tm.datatype ≠ "" ∨ tm.language ≠ ""
      · simp [htag hne]
      · simp_all

theorem constantViolations_eq_nil_iff {position : Position} {termType : TermType}
    {term : Constant} :
    constantViolations position termType term = [] ↔
      term.kind = termType ∧ (term.kind = .literal → position.allowsLiteral = true) := by
  unfold constantViolations
  by_cases hk : term.kind = termType <;> by_cases hl : term.kind = .literal <;>
    cases position.allowsLiteral <;> simp_all

theorem flatten_mapIdx_eq_nil_iff {α β : Type} {f : Nat → α → List β} {l : List α}
    {P : α → Prop} (h : ∀ i a, f i a = [] ↔ P a) :
    (l.mapIdx f).flatten = [] ↔ ∀ a ∈ l, P a := by
  rw [List.flatten_eq_nil_iff]
  constructor
  · intro hall a ha
    obtain ⟨i, hi, rfl⟩ := List.mem_iff_getElem.1 ha
    exact (h i _).1 (hall _ (List.mem_mapIdx.2 ⟨i, hi, rfl⟩))
  · intro hall x hx
    obtain ⟨i, hi, rfl⟩ := List.mem_mapIdx.1 hx
    exact (h i _).2 (hall _ (List.getElem_mem hi))

theorem joinViolations_eq_nil_iff {doc : Document} {parent : String}
    {conditions : List JoinCondition} :
    joinViolations doc parent conditions = [] ↔
      (doc.lookup? parent).isSome ∧ conditions ≠ [] ∧
        ∀ c ∈ conditions, c.child ≠ "" ∧ c.parent ≠ "" := by
  unfold joinViolations
  rw [List.append_eq_nil_iff, List.append_eq_nil_iff, and_assoc,
    flatten_mapIdx_eq_nil_iff (P := fun c => c.child ≠ "" ∧ c.parent ≠ "") (by simp)]
  refine and_congr ?_ (and_congr ?_ Iff.rfl)
  · cases doc.lookup? parent <;> simp
  · by_cases h : conditions = [] <;> simp [h]

/-- The identifiers of a document. -/
def Document.Knows (doc : Document) (id : String) : Prop :=
  (doc.lookup? id).isSome = true

section Checks

variable {doc : Document} {mapping : String}

mutual

theorem termMapViolations_eq_nil_iff :
    ∀ {tm : TermMap} {path : String} {position : Position},
      termMapViolations doc mapping path position tm = [] ↔ tm.Ok doc.Knows position
  | ⟨none, _, _, _, _⟩, path, position => by
    rw [termMapViolations, TermMap.Ok]
    simp
  | ⟨some value, t, d, l, s⟩, path, position => by
    rw [termMapViolations, TermMap.Ok]
    simp only [List.append_eq_nil_iff, List.map_eq_nil_iff]
    rw [termTypeViolations_eq_nil_iff, valueViolations_eq_nil_iff]

/-- No violation means that the value obeys the rules. -/
theorem valueViolations_eq_nil_iff :
    ∀ {v : Value} {path : String} {position : Position} {termType : TermType},
      valueViolations doc position termType v = [] ∧
        functionViolations doc mapping path v = [] ↔ v.Ok doc.Knows position termType
  | .constant term, path, position, termType => by
    rw [valueViolations, functionViolations, Value.Ok, constantViolations_eq_nil_iff]
    · simp
    · simp
  | .reference name, path, position, termType => by
    rw [valueViolations, functionViolations, Value.Ok]
    · simp
    · simp
  | .template pattern, path, position, termType => by
    rw [valueViolations, functionViolations, Value.Ok, Template.isValid]
    · cases Template.parse pattern <;> simp [Except.isOk, Except.toBool]
    · simp
  | .function iri parameters, path, position, termType => by
    rw [valueViolations, functionViolations, Value.Ok, List.append_eq_nil_iff,
      parameterViolations_eq_nil_iff]
    simp
  | .join parent conditions, path, position, termType => by
    rw [valueViolations, functionViolations, Value.Ok, List.append_eq_nil_iff,
      joinViolations_eq_nil_iff]
    · simp [Document.Knows]
    · simp

theorem parameterViolations_eq_nil_iff :
    ∀ {ps : List Parameter} {path : String} {number : Nat},
      parameterViolations doc mapping path number ps = [] ↔ Parameter.OkAll doc.Knows ps
  | [], path, number => by
    rw [parameterViolations, Parameter.OkAll]
    simp
  | ⟨name, value⟩ :: rest, path, number => by
    rw [parameterViolations, Parameter.OkAll, List.append_eq_nil_iff, List.append_eq_nil_iff,
      termMapViolations_eq_nil_iff, parameterViolations_eq_nil_iff, and_assoc]
    simp

end

theorem termMapsViolations_eq_nil_iff {path : String} {position : Position}
    {tms : List TermMap} :
    termMapsViolations doc mapping path position tms = [] ↔
      ∀ tm ∈ tms, tm.Ok doc.Knows position :=
  flatten_mapIdx_eq_nil_iff fun _ _ => termMapViolations_eq_nil_iff

theorem pairViolations_eq_nil_iff {path : String} {pom : PredicateObjectMap} :
    pairViolations doc mapping path pom = [] ↔ pom.Ok doc.Knows := by
  unfold pairViolations
  simp only [List.append_eq_nil_iff, termMapsViolations_eq_nil_iff]
  constructor
  · rintro ⟨⟨⟨hsome, hp⟩, ho⟩, hg⟩
    have hne : pom.predicates ≠ [] ∧ pom.objects ≠ [] := by simpa using hsome
    exact ⟨hne.1, hne.2, hp, ho, hg⟩
  · rintro ⟨hp, ho, hps, hos, hgs⟩
    exact ⟨⟨⟨by simp [hp, ho], hps⟩, hos⟩, hgs⟩

/-- No violation means that the map obeys the rules. -/
theorem triplesMapViolations_eq_nil_iff {tm : TriplesMap} :
    isValidId tm.id = true ∧ triplesMapViolations doc tm = [] ↔ tm.Ok doc.Knows := by
  have hclasses (path : Nat → Location) : (tm.subject.classes.mapIdx fun i c =>
      if c = "" then [Violation.emptyClass.diagnostic (path i)] else []).flatten = [] ↔
        ∀ c ∈ tm.subject.classes, c ≠ "" :=
    flatten_mapIdx_eq_nil_iff fun _ _ => by simp
  have hpairs (path : Nat → String) : (tm.predicateObjects.mapIdx fun i pom =>
      pairViolations doc tm.id (path i) pom).flatten = [] ↔
        ∀ pom ∈ tm.predicateObjects, pom.Ok doc.Knows :=
    flatten_mapIdx_eq_nil_iff fun _ _ => pairViolations_eq_nil_iff
  unfold triplesMapViolations
  simp only [List.append_eq_nil_iff, termMapViolations_eq_nil_iff,
    termMapsViolations_eq_nil_iff, hclasses, hpairs]
  constructor
  · rintro ⟨hid, ⟨⟨hs, hg⟩, hc⟩, hp⟩
    exact ⟨hid, hs, hc, hg, hp⟩
  · rintro ⟨hid, hs, hc, hg, hp⟩
    exact ⟨hid, ⟨⟨hs, hg⟩, hc⟩, hp⟩

/-- Maps that follow others obey the rules and have identifiers of their own. -/
theorem mapsViolations_eq_nil_iff {seen : List String} {maps : List TriplesMap} :
    mapsViolations doc seen maps = [] ↔
      (∀ tm ∈ maps, tm.Ok doc.Knows) ∧ (∀ tm ∈ maps, tm.id ∉ seen) ∧
        (maps.map TriplesMap.id).Nodup := by
  induction maps generalizing seen with
  | nil => simp [mapsViolations]
  | cons tm rest ih =>
    have hid : (if isValidId tm.id = true then ([] : List Diagnostic)
        else [(Violation.invalidId tm.id).diagnostic (placeIn tm.id "" tm.span)]) = [] ↔
          isValidId tm.id = true := by simp
    have hseen : (if seen.contains tm.id = true then
        [(Violation.duplicateId tm.id).diagnostic (placeIn tm.id "" tm.span)]
          else ([] : List Diagnostic)) = [] ↔ tm.id ∉ seen := by simp
    unfold mapsViolations
    simp only [List.append_eq_nil_iff, hid, hseen, ih, List.map_cons, List.nodup_cons,
      List.mem_cons, List.mem_map, not_or, not_exists, not_and, forall_eq_or_imp]
    rw [← triplesMapViolations_eq_nil_iff]
    constructor
    · rintro ⟨⟨⟨hv, hs⟩, ht⟩, hok, hnot, hnodup⟩
      exact ⟨⟨⟨hv, ht⟩, hok⟩, ⟨hs, fun a ha => (hnot a ha).2⟩, fun a ha => (hnot a ha).1, hnodup⟩
    · rintro ⟨⟨⟨hv, ht⟩, hok⟩, ⟨hs, hnot⟩, hown, hnodup⟩
      exact ⟨⟨⟨hv, hs⟩, ht⟩, hok, fun a ha => ⟨hown a ha, hnot a ha⟩, hnodup⟩

end Checks

/-- **A document is valid if it has a base, distinct identifiers and maps that obey the rules.** -/
theorem Document.isValid_iff {doc : Document} :
    doc.isValid = true ↔
      doc.base ≠ "" ∧ doc.ids.Nodup ∧ ∀ tm ∈ doc.maps, tm.Ok doc.Knows := by
  rw [Document.isValid, List.isEmpty_iff, Document.violations, List.append_eq_nil_iff,
    mapsViolations_eq_nil_iff, Document.ids]
  simp only [List.not_mem_nil, not_false_eq_true, implies_true, true_and]
  constructor
  · rintro ⟨hbase, hok, hnodup⟩
    exact ⟨by simpa using hbase, hnodup, hok⟩
  · rintro ⟨hbase, hnodup, hok⟩
    exact ⟨by simp [hbase], hok, hnodup⟩

/-- The rules do not ask whether a document is frozen. -/
theorem Document.isValid_freeze {doc : Document} (h : doc.isValid = true) :
    doc.freeze.isValid = true := by
  obtain ⟨hbase, hids, hok⟩ := Document.isValid_iff.1 h
  exact Document.isValid_iff.2 ⟨hbase, hids, hok⟩

/-! ## Reordering keeps the rules -/

section OfAlike

variable {ρ : String → String → Prop} {known known' : String → Prop}

mutual

/-- Values that agree up to order obey the rules together. -/
theorem Value.Ok.of_alike (h : ∀ p q, ρ p q → known p → known' q) :
    ∀ {v w : Value} {position : Position} {termType : TermType}, v.Alike ρ w →
      v.Ok known position termType → w.Ok known' position termType
  | .constant _, .constant _, _, _, hvw, hv | .reference _, .reference _, _, _, hvw, hv
  | .template _, .template _, _, _, hvw, hv => by
    rw [Value.Alike] at hvw
    subst hvw
    rw [Value.Ok] at hv ⊢
    exact hv
  | .function _ _, .function _ _, _, _, hvw, hv => by
    rw [Value.Alike] at hvw
    rw [Value.Ok] at hv ⊢
    exact ⟨hvw.1 ▸ hv.1, Parameter.OkAll.of_alike h hvw.2 hv.2⟩
  | .join _ _, .join _ _, _, _, hvw, hv => by
    rw [Value.Alike] at hvw
    rw [Value.Ok] at hv ⊢
    obtain ⟨hparent, hperm⟩ := hvw
    obtain ⟨hpos, hknown, hne, hall⟩ := hv
    refine ⟨hpos, h _ _ hparent hknown, ?_, fun c hc => hall c (hperm.symm.subset hc)⟩
    rintro rfl
    exact hne hperm.eq_nil

/-- Parameters that agree up to order obey the rules together. -/
theorem Parameter.OkAll.of_alike (h : ∀ p q, ρ p q → known p → known' q) :
    ∀ {ps qs : List Parameter}, Parameter.AlikeAll ρ ps qs → Parameter.OkAll known ps →
      Parameter.OkAll known' qs
  | [], _, hps, _ => by
    rw [Parameter.AlikeAll] at hps
    rw [hps, Parameter.OkAll]
    trivial
  | ⟨_, _⟩ :: _, _, hps, hok => by
    rw [Parameter.AlikeAll] at hps
    rw [Parameter.OkAll] at hok
    obtain ⟨before, w, after, rfl, hvw, hrest⟩ := hps
    obtain ⟨hname, hv, hok⟩ := hok
    have hw := TermMap.Ok.of_alike h hvw hv
    have hothers := Parameter.OkAll.of_alike h hrest hok
    rw [Parameter.okAll_iff] at hothers ⊢
    intro p hp
    rcases List.mem_append.1 hp with hp | hp
    · exact hothers p (List.mem_append_left _ hp)
    · rcases List.mem_cons.1 hp with rfl | hp
      · exact ⟨hname, hw⟩
      · exact hothers p (List.mem_append_right _ hp)

theorem TermMap.Ok.of_alike (h : ∀ p q, ρ p q → known p → known' q) :
    ∀ {a b : TermMap} {position : Position}, a.Alike ρ b → a.Ok known position →
      b.Ok known' position
  | ⟨none, _, _, _, _⟩, _, _, _, ha => by
    rw [TermMap.Ok] at ha
    exact ha.elim
  | ⟨some _, _, _, _, _⟩, ⟨some _, _, _, _, _⟩, _, hab, ha => by
    rw [TermMap.Alike] at hab
    rw [TermMap.Ok] at ha ⊢
    obtain ⟨rfl, rfl, rfl, hvw⟩ := hab
    exact ⟨Value.Ok.of_alike h hvw ha.1, ha.2⟩

end

theorem TermMap.forall_ok_of_reordered (h : ∀ p q, ρ p q → known p → known' q)
    {xs ys : List TermMap} {position : Position} (hxy : Reordered (TermMap.Alike ρ) xs ys)
    (hx : ∀ tm ∈ xs, tm.Ok known position) : ∀ tm ∈ ys, tm.Ok known' position := by
  intro y hy
  obtain ⟨x, hmem, hab⟩ := hxy.exists_of_mem_right hy
  exact TermMap.Ok.of_alike h hab (hx x hmem)

theorem PredicateObjectMap.Ok.of_alike (h : ∀ p q, ρ p q → known p → known' q)
    {a b : PredicateObjectMap} (hab : a.Alike ρ b) (ha : a.Ok known) : b.Ok known' := by
  have hne {xs ys : List TermMap} (hxy : Reordered (TermMap.Alike ρ) xs ys) (hx : xs ≠ []) :
      ys ≠ [] := by
    rintro rfl
    exact hx (List.eq_nil_of_length_eq_zero hxy.length_eq)
  exact ⟨hne hab.predicates ha.somePredicate, hne hab.objects ha.someObject,
    TermMap.forall_ok_of_reordered h hab.predicates ha.predicates,
    TermMap.forall_ok_of_reordered h hab.objects ha.objects,
    TermMap.forall_ok_of_reordered h hab.graphs ha.graphs⟩

/-- **Triples maps that agree up to order obey the rules together.** -/
theorem TriplesMap.Ok.of_alike (h : ∀ p q, ρ p q → known p → known' q) {a b : TriplesMap}
    (hab : a.Alike ρ b) (hid : isValidId b.id = true) (ha : a.Ok known) : b.Ok known' := by
  refine ⟨hid, TermMap.Ok.of_alike h hab.subject.term ha.subject, ?_,
    TermMap.forall_ok_of_reordered h hab.subject.graphs ha.graphs, ?_⟩
  · intro c hc
    exact ha.classes c (hab.subject.classes.symm.subset hc)
  · intro pom hpom
    obtain ⟨pom', hmem, hpp⟩ := hab.predicateObjects.exists_of_mem_right hpom
    exact PredicateObjectMap.Ok.of_alike h hpp (ha.predicateObjects pom' hmem)

end OfAlike

end RdfMapping.Mapping
