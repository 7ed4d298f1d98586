/-
# Datatypes and languages

A term map states the datatype or the language of its terms itself, unless it is a constant: then it
stands with the constant, where no rule looks at it.
-/
import RdfMapping.Proofs.Mapping.Rules

namespace RdfMapping.Mapping

variable {P : TermMap → Prop} {tm : TermMap} {position : Position}

/-! ## Term maps inside term maps -/

mutual

/-- A term map and those of the parameters in it, however deep. -/
def TermMap.nested : TermMap → List TermMap
  | ⟨none, type, datatype, language, span⟩ => [⟨none, type, datatype, language, span⟩]
  | ⟨some value, type, datatype, language, span⟩ =>
    ⟨some value, type, datatype, language, span⟩ :: value.nested

/-- The term maps of the parameters in a value, however deep. -/
def Value.nested : Value → List TermMap
  | .function _ parameters => Parameter.nestedAll parameters
  | .constant _ | .reference _ | .template _ | .join _ _ => []

/-- The term maps of parameters, however deep. -/
def Parameter.nestedAll : List Parameter → List TermMap
  | [] => []
  | ⟨_, value⟩ :: rest => value.nested ++ Parameter.nestedAll rest

end

theorem Parameter.forall_nestedAll {ps : List Parameter} :
    (∀ u ∈ Parameter.nestedAll ps, P u) ↔ ∀ p ∈ ps, ∀ u ∈ p.value.nested, P u := by
  induction ps with
  | nil => simp [Parameter.nestedAll]
  | cons p rest ih =>
    obtain ⟨name, value⟩ := p
    rw [Parameter.nestedAll, List.forall_mem_append, List.forall_mem_cons, ih]

theorem TermMap.forall_nested :
    (∀ u ∈ tm.nested, P u) ↔ P tm ∧ ∀ v, tm.value = some v → ∀ u ∈ v.nested, P u := by
  obtain ⟨_ | v, type, datatype, language, span⟩ := tm
  · simp [TermMap.nested]
  · simp [TermMap.nested]

/-- What holds of a term map and of those of the parameters in it. -/
def TermMap.Every (P : TermMap → Prop) (tm : TermMap) : Prop :=
  ∀ u ∈ tm.nested, P u

/-- What holds of the term maps of the parameters in a value. -/
def Value.Every (P : TermMap → Prop) (v : Value) : Prop :=
  ∀ u ∈ v.nested, P u

theorem Value.every_of_nested_eq_nil {v : Value} (h : v.nested = []) :
    v.Every P := by
  intro u hu
  rw [h] at hu
  exact absurd hu List.not_mem_nil

/-- What holds of all term maps in a predicate-object map. -/
def PredicateObjectMap.Every (P : TermMap → Prop) (pom : PredicateObjectMap) : Prop :=
  (∀ t ∈ pom.predicates, t.Every P) ∧ (∀ t ∈ pom.objects, t.Every P) ∧
    ∀ t ∈ pom.graphs, t.Every P

/-- What holds of the term maps of a triples map, and inside them. -/
def TriplesMap.Every (P : TermMap → Prop) (tm : TriplesMap) : Prop :=
  ∀ t ∈ tm.termMaps, t.2.Every P

/-- The term maps of a document, with those of parameters. -/
def Document.termMaps (doc : Document) : List TermMap :=
  doc.maps.flatMap fun tm => tm.termMaps.flatMap fun t => t.2.nested

theorem Document.forall_termMaps {doc : Document} :
    (∀ u ∈ doc.termMaps, P u) ↔ ∀ tm ∈ doc.maps, tm.Every P := by
  simp only [Document.termMaps, List.mem_flatMap]
  constructor
  · exact fun h tm htm t ht u hu => h u ⟨tm, htm, t, ht, hu⟩
  · rintro h u ⟨tm, htm, t, ht, hu⟩
    exact h tm htm t ht u hu

section Rules

variable {known : String → Prop}

theorem TermMap.Ok.typeOk (h : tm.Ok known position) :
    TypeOk position tm.termType tm.datatype tm.language := by
  obtain ⟨_ | value, type, datatype, language, span⟩ := tm
  · rw [TermMap.Ok] at h
    exact h.elim
  · rw [TermMap.Ok] at h
    exact h.2

theorem TermMap.Ok.kind {term : Constant} (h : tm.Ok known position)
    (hvalue : tm.value = some (.constant term)) :
    term.kind = tm.termType := by
  obtain ⟨_ | value, type, datatype, language, span⟩ := tm
  · cases hvalue
  · cases hvalue
    rw [TermMap.Ok, Value.Ok] at h
    exact h.1.1

mutual

/-- The rules hold of the term maps inside a term map, too. -/
theorem TermMap.Ok.nested : ∀ {tm : TermMap} {position : Position}, tm.Ok known position →
    ∀ u ∈ tm.nested, ∃ position, u.Ok known position
  | ⟨none, _, _, _, _⟩, position, h => by
    rw [TermMap.Ok] at h
    exact h.elim
  | ⟨some value, t, d, l, s⟩, position, h => by
    rw [TermMap.nested, List.forall_mem_cons]
    refine ⟨⟨position, h⟩, ?_⟩
    rw [TermMap.Ok] at h
    exact h.1.nested

theorem Value.Ok.nested : ∀ {v : Value} {position : Position} {termType : TermType},
    v.Ok known position termType → ∀ u ∈ v.nested, ∃ position, u.Ok known position
  | .function iri parameters, position, termType, h => by
    rw [Value.Ok] at h
    rw [Value.nested]
    exact Parameter.nested_of_okAll h.2
  | .constant _, _, _, _ | .reference _, _, _, _ | .template _, _, _, _ | .join _ _, _, _, _ => by
    intro u hu
    rw [Value.nested] at hu
    exact absurd hu List.not_mem_nil

theorem Parameter.nested_of_okAll : ∀ {ps : List Parameter}, Parameter.OkAll known ps →
    ∀ u ∈ Parameter.nestedAll ps, ∃ position, u.Ok known position
  | [], _ => by
    intro u hu
    rw [Parameter.nestedAll] at hu
    exact absurd hu List.not_mem_nil
  | ⟨name, value⟩ :: rest, h => by
    rw [Parameter.OkAll] at h
    rw [Parameter.nestedAll, List.forall_mem_append]
    exact ⟨h.2.1.nested, Parameter.nested_of_okAll h.2.2⟩

end

/-- The rules hold of every term map of a triples map, at its position. -/
theorem TriplesMap.Ok.termMaps {tm : TriplesMap} (h : tm.Ok known) :
    ∀ t ∈ tm.termMaps, ∃ position, t.2.Ok known position := by
  refine (forall_termMaps (P := fun t => ∃ position, t.Ok known position)).2
    ⟨⟨_, h.subject⟩, fun g hg => ⟨_, h.graphs g hg⟩, fun pom hpom => ?_⟩
  have hpair := h.predicateObjects pom hpom
  exact ⟨fun t ht => ⟨_, hpair.predicates t ht⟩, fun t ht => ⟨_, hpair.objects t ht⟩,
    fun t ht => ⟨_, hpair.graphs t ht⟩⟩

end Rules

/-! ## Tags -/

/-- The tags of a constant stand with the constant, and only literals have them. -/
def TermMap.TagsPlaced (tm : TermMap) : Prop :=
  ∀ term, tm.value = some (.constant term) → tm.datatype = "" ∧ tm.language = "" ∧
    (term.kind ≠ .literal → term.datatype = "" ∧ term.language = "")

/-- The constant of a term map that has one for its value. -/
def TermMap.constant? (tm : TermMap) : Option Constant :=
  match tm.value with
  | some (.constant term) => some term
  | _ => none

theorem TermMap.constant?_eq_some_iff {term : Constant} :
    tm.constant? = some term ↔ tm.value = some (.constant term) := by
  obtain ⟨_ | value, type, datatype, language, span⟩ := tm
  · simp [TermMap.constant?]
  · cases value <;> simp [TermMap.constant?]

/-- The datatype of the terms of a term map: its own, or that of its constant. -/
def TermMap.termDatatype (tm : TermMap) : String :=
  (tm.constant?.map Constant.datatype).getD tm.datatype

/-- Whether the terms of a term map have a datatype. -/
def TermMap.hasDatatype (tm : TermMap) : Bool :=
  tm.datatype ≠ "" || tm.constant?.any fun term => term.datatype ≠ ""

/-- Whether the terms of a term map have a language. -/
def TermMap.hasLanguage (tm : TermMap) : Bool :=
  tm.language ≠ "" || tm.constant?.any fun term => term.language ≠ ""

/-- Tagged terms are literals; `both` allows those with both tags. -/
structure TermMap.Tagged (both : Constant → Prop) (tm : TermMap) : Prop where
  literal : tm.hasDatatype = true ∨ tm.hasLanguage = true → tm.termType = .literal
  exclusive : tm.hasDatatype = true → tm.hasLanguage = true →
    tm.datatype = "" ∧ tm.language = "" ∧ ∃ term, tm.constant? = some term ∧ both term

/-- A constant with both a datatype and a language is one that `both` allows. -/
def TermMap.BothFrom (both : Constant → Prop) (tm : TermMap) : Prop :=
  ∀ term, tm.value = some (.constant term) → term.datatype ≠ "" → term.language ≠ "" → both term

section Settled

variable {both : Constant → Prop}

/-- **The rules settle the tags of a term map if they are in place.** -/
theorem TermMap.Ok.tagged {known : String → Prop} (h : tm.Ok known position)
    (hplaced : tm.TagsPlaced) (hboth : tm.BothFrom both) :
    tm.Tagged both := by
  have htype := h.typeOk
  cases hconstant : tm.constant? with
  | none =>
    -- the tags are those that the rules speak of
    have hdatatype : tm.hasDatatype = true ↔ tm.datatype ≠ "" := by
      simp [hasDatatype, hconstant]
    have hlanguage : tm.hasLanguage = true ↔ tm.language ≠ "" := by
      simp [hasLanguage, hconstant]
    constructor
    · rw [hdatatype, hlanguage]
      exact htype.tagged
    · rw [hdatatype, hlanguage]
      exact fun hd hl => htype.exclusive.elim (absurd · hd) (absurd · hl)
  | some term =>
    have hvalue := constant?_eq_some_iff.1 hconstant
    obtain ⟨hd, hl, hkind⟩ := hplaced term hvalue
    have hdatatype : tm.hasDatatype = true ↔ term.datatype ≠ "" := by
      simp [hasDatatype, hconstant, hd]
    have hlanguage : tm.hasLanguage = true ↔ term.language ≠ "" := by
      simp [hasLanguage, hconstant, hl]
    constructor
    · rw [hdatatype, hlanguage, ← h.kind hvalue]
      intro htagged
      by_contra hne
      exact htagged.elim (· (hkind hne).1) (· (hkind hne).2)
    · rw [hdatatype, hlanguage]
      exact fun hd' hl' => ⟨hd, hl, term, hconstant, hboth term hvalue hd' hl'⟩

/-- **In a valid document with tags in place all tags are settled.** -/
theorem tagged_of_isValid {doc : Document} (hvalid : doc.isValid = true)
    (h : ∀ tm ∈ doc.maps, tm.Every fun u => u.TagsPlaced ∧ u.BothFrom both) :
    ∀ u ∈ doc.termMaps, u.Tagged both := by
  have hok := (Document.isValid_iff.1 hvalid).2.2
  refine Document.forall_termMaps.2 fun tm htm t ht u hu => ?_
  obtain ⟨position, hposition⟩ := (hok tm htm).termMaps t ht
  obtain ⟨_, hnested⟩ := hposition.nested u hu
  obtain ⟨hplaced, hboth⟩ := h tm htm t ht u hu
  exact hnested.tagged hplaced hboth

end Settled

end RdfMapping.Mapping
