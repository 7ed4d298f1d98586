/-
# Emitted graphs are well formed

What emission writes for a valid document is a well-formed rule graph, in both dialects: new nodes
are led to once, every term map has one value, and every join leads to a map with one source.
-/
import RdfMapping.Proofs.Emission.Dialects
import RdfMapping.Proofs.Emission.Outline
import RdfMapping.Proofs.Emission.RoundTrip
import RdfMapping.Proofs.Shorthand.Parsing

namespace RdfMapping

variable {label p class_ value : String} {tm : TriplesMap} {doc : Document} {used : List String}
  {position : Position} {ts : List Quad}

/-! ## Blank nodes of a document -/

namespace Mapping

/-- A constant stands in a term map, possibly in a parameter of a function. -/
inductive TermMap.Holds (term : Constant) : TermMap → Prop where
  | constant {t : TermMap} : t.value = some (.constant term) → Holds term t
  | parameter {t : TermMap} {iri : String} {parameters : List Parameter} {p : Parameter} :
      t.value = some (.function iri parameters) → p ∈ parameters → Holds term p.value →
      Holds term t

/-- A blank node with a label is a constant of a document. -/
def Document.HasBlank (doc : Document) (label : String) : Prop :=
  ∃ tm ∈ doc.maps, ∃ t, tm.HasTerm t ∧
    ∃ term, t.Holds term ∧ term.kind = .blankNode ∧ term.value = label

end Mapping

namespace RuleGraph

open Mapping
open Rdf (Term Quad)

mutual

/-- A label of a term map belongs to a blank constant in it. -/
theorem exists_holds_of_mem_labelsOf {label : String} :
    ∀ {t : TermMap}, label ∈ labelsOf t →
      ∃ term, t.Holds term ∧ term.kind = .blankNode ∧ term.value = label
  | ⟨none, _, _, _, _⟩, h => by
    rw [labelsOf] at h
    cases h
  | ⟨some (.constant term), _, _, _, _⟩, h => by
    rw [labelsOf, labelsOfValue] at h
    split at h
    · next hkind => exact ⟨term, .constant rfl, hkind, (List.mem_singleton.1 h).symm⟩
    · cases h
  | ⟨some (.function iri parameters), _, _, _, _⟩, h => by
    rw [labelsOf, labelsOfValue] at h
    obtain ⟨p, hp, term, hterm, hrest⟩ := exists_holds_of_mem_labelsOfParameters h
    exact ⟨term, .parameter rfl hp hterm, hrest⟩
  | ⟨some (.reference _), _, _, _, _⟩, h | ⟨some (.template _), _, _, _, _⟩, h
  | ⟨some (.join _ _), _, _, _, _⟩, h => by
    rw [labelsOf, labelsOfValue] at h
    · cases h
    all_goals nofun

theorem exists_holds_of_mem_labelsOfParameters {label : String} :
    ∀ {parameters : List Parameter}, label ∈ labelsOfParameters parameters →
      ∃ p ∈ parameters, ∃ term, p.value.Holds term ∧ term.kind = .blankNode ∧ term.value = label
  | [], h => by
    rw [labelsOfParameters] at h
    cases h
  | ⟨name, value⟩ :: rest, h => by
    rw [labelsOfParameters, List.mem_append] at h
    rcases h with h | h
    · exact ⟨_, List.mem_cons_self .., exists_holds_of_mem_labelsOf h⟩
    · obtain ⟨p, hp, hrest⟩ := exists_holds_of_mem_labelsOfParameters h
      exact ⟨p, List.mem_cons_of_mem _ hp, hrest⟩

end

theorem labelsOf_subset_of_mem {p : Parameter} {parameters : List Parameter}
    (h : p ∈ parameters) : labelsOf p.value ⊆ labelsOfParameters parameters := by
  induction parameters with
  | nil => cases h
  | cons p' rest ih =>
    obtain ⟨name, value⟩ := p'
    rw [labelsOfParameters]
    rcases List.mem_cons.1 h with rfl | h
    · exact List.subset_append_left _ _
    · exact List.Subset.trans (ih h) (List.subset_append_right _ _)

/-- The walk that collects labels reaches every constant. -/
theorem mem_labelsOf_of_holds {t : TermMap} {term : Constant} (h : t.Holds term)
    (hkind : term.kind = .blankNode) : term.value ∈ labelsOf t := by
  induction h with
  | @constant t hvalue =>
    obtain ⟨_, termType, datatype, language, span⟩ := t
    cases hvalue
    rw [labelsOf, labelsOfValue, if_pos hkind]
    exact List.mem_singleton.2 rfl
  | @parameter t iri parameters p hvalue hp _ ih =>
    obtain ⟨_, termType, datatype, language, span⟩ := t
    cases hvalue
    rw [labelsOf, labelsOfValue]
    exact labelsOf_subset_of_mem hp ih

theorem hasTerm_iff {t : TermMap} :
    tm.HasTerm t ↔ ∃ u ∈ tm.termMaps, u.2 = t := by
  have h : (∀ u, tm.HasTerm u → u ≠ t) ↔ ∀ u ∈ tm.termMaps, u.2 ≠ t := forall_hasTerm
  constructor
  · intro ht
    by_contra hno
    exact h.2 (fun u hu heq => hno ⟨u, hu, heq⟩) t ht rfl
  · rintro ⟨u, hu, heq⟩
    by_contra hno
    exact h.1 (fun v hv heq' => hno (heq' ▸ hv)) u hu heq

/-- **The labels in use are those of the blank nodes of the document.** -/
theorem mem_labelsIn_iff :
    label ∈ labelsIn doc ↔ doc.HasBlank label := by
  unfold labelsIn Document.HasBlank
  simp only [List.mem_flatMap]
  constructor
  · rintro ⟨tm, htm, t, ht, hlabel⟩
    exact ⟨tm, htm, t.2, hasTerm_iff.2 ⟨t, ht, rfl⟩, exists_holds_of_mem_labelsOf hlabel⟩
  · rintro ⟨tm, htm, t, ht, term, hterm, hkind, rfl⟩
    obtain ⟨u, hu, rfl⟩ := hasTerm_iff.1 ht
    exact ⟨tm, htm, u, hu, mem_labelsOf_of_holds hterm hkind⟩

/-! ## The parts of sketches -/

/-- The classes of term maps in their positions. -/
def Class.ofPositions : List String :=
  [subjectMap, predicateMap, objectMap, refObjectMap, graphMap]

/-- Blank nodes have a used label, and a join leads to a map. -/
structure LeafOk (used : List String) (nodes : List Term) (p : String) (o : Term) : Prop where
  label : ∀ l, o = .blank l → l ∈ used
  condition : p ≠ Property.joinCondition
  parent : p = Property.parentTriplesMap → o ∈ nodes

namespace Sketch

/-- No arrow of the node has one of the properties. -/
def Avoids (ps : List String) (s : Sketch) : Prop :=
  ∀ e ∈ s.ends, e.1 ∉ ps

variable {ps : List String} {s t : Sketch} {p : String}

theorem avoids_append : (s ++ t).Avoids ps ↔ s.Avoids ps ∧ t.Avoids ps := by
  unfold Avoids
  rw [ends_append, List.forall_mem_append]

theorem Bears.avoids (h : s.Bears p) (hp : p ∉ ps) : s.Avoids ps := by
  unfold Avoids
  induction s with
  | done => exact fun _ he => absurd he List.not_mem_nil
  | arrow q o rest ih => exact List.forall_mem_cons.2 ⟨h.1 ▸ hp, ih h.2⟩
  | link q inner rest _ ih => exact List.forall_mem_cons.2 ⟨h.1 ▸ hp, ih h.2⟩

theorem Avoids.degree_eq_zero (h : s.Avoids ps) : s.degree ps = 0 := by
  rw [degree, List.countP_eq_zero]
  intro e he
  simpa using h e he

theorem avoids_attributes (position : Position) (tm : TermMap)
    (hps : ∀ p ∈ [Property.termType, Property.datatype, Property.language], p ∉ ps) :
    (attributes position tm).Avoids ps := by
  unfold attributes
  split
  · exact fun _ he => absurd he List.not_mem_nil
  · rw [avoids_append, avoids_append]
    exact ⟨(bears_kind _ _).avoids (hps _ (by decide)), (bears_iri _ _).avoids (hps _ (by decide)),
      (bears_text _ _).avoids (hps _ (by decide))⟩

/-- A value stands for one property of the term map. -/
theorem degree_ofValue (s : Setting) (v : Value) : (ofValue s v).degree Property.values = 1 := by
  cases v with
  | constant term => rw [ofValue]; rfl
  | reference name => rw [ofValue]; cases s.dialect <;> rfl
  | template pattern => rw [ofValue]; rfl
  | function name parameters => rw [ofValue]; rfl
  | join parent conditions =>
    have hlinks : (links Property.joinCondition (conditions.map ofCondition)).degree
        Property.values = 0 := ((bears_links _ _).avoids (by decide)).degree_eq_zero
    rw [ofValue, degree, ends, List.countP_cons]
    exact congrArg (· + 1) hlinks

/-- A value has no properties but its own. -/
theorem avoids_ofValue (s : Setting) (v : Value)
    (hps : ∀ p ∈ Property.joinCondition :: Property.values, p ∉ ps) : (ofValue s v).Avoids ps := by
  cases v with
  | constant term => rw [ofValue]; exact Bears.avoids ⟨rfl, trivial⟩ (hps _ (by decide))
  | reference name =>
    rw [ofValue]
    exact Bears.avoids ⟨rfl, trivial⟩ (hps _ (by cases s.dialect <;> decide))
  | template pattern => rw [ofValue]; exact Bears.avoids ⟨rfl, trivial⟩ (hps _ (by decide))
  | function name parameters =>
    rw [ofValue]
    exact Bears.avoids ⟨rfl, trivial⟩ (hps _ (by decide))
  | join parent conditions =>
    rw [ofValue]
    have hparent : Property.parentTriplesMap ∉ ps := hps _ (by decide)
    exact List.forall_mem_cons.2 ⟨hparent, (bears_links _ _).avoids (hps _ (by decide))⟩

/-- A node states one tag at most, and nothing beside a join. -/
def Exclusive (s : Sketch) : Prop :=
  (s.Avoids [Property.datatype] ∨ s.Avoids [Property.language]) ∧
    (s.Avoids [Property.parentTriplesMap] ∨ s.Avoids Property.attributes)

theorem Avoids.mono {ps' : List String} (h : s.Avoids ps) (hsub : ps' ⊆ ps) : s.Avoids ps' :=
  fun e he hmem => h e he (hsub hmem)

theorem Avoids.exclusive (h : s.Avoids Property.attributes) : s.Exclusive :=
  ⟨.inl (h.mono (by decide)), .inr h⟩

theorem exclusive_arrow {o : Term} (h : s.Exclusive)
    (hp : p ∉ Property.parentTriplesMap :: Property.attributes) : (arrow p o s).Exclusive := by
  have hcons {ps : List String} (hs : s.Avoids ps)
      (hps : ps ⊆ Property.parentTriplesMap :: Property.attributes) : (arrow p o s).Avoids ps :=
    List.forall_mem_cons.2 ⟨fun hmem => hp (hps hmem), hs⟩
  exact ⟨h.1.imp (hcons · (by decide)) (hcons · (by decide)),
    h.2.imp (hcons · (by decide)) (hcons · (by decide))⟩

theorem Exclusive.append (hs : s.Exclusive)
    (ht : t.Avoids (Property.parentTriplesMap :: Property.attributes)) : (s ++ t).Exclusive := by
  have happend {ps : List String} (h : s.Avoids ps)
      (hps : ps ⊆ Property.parentTriplesMap :: Property.attributes) : (s ++ t).Avoids ps :=
    avoids_append.2 ⟨h, ht.mono hps⟩
  exact ⟨hs.1.imp (happend · (by decide)) (happend · (by decide)),
    hs.2.imp (happend · (by decide)) (happend · (by decide))⟩

/-- What a term map states beside its value has at most one tag. -/
theorem avoids_attributes_of_tags (position : Position) {tm : TermMap}
    (h : tm.datatype = "" ∨ tm.language = "") :
    (attributes position tm).Avoids [Property.datatype] ∨
      (attributes position tm).Avoids [Property.language] := by
  unfold attributes
  split
  · exact .inl fun _ he => absurd he List.not_mem_nil
  · simp only [avoids_append]
    refine h.imp (fun hd => ⟨(bears_kind _ _).avoids (by decide), ?_, ?_⟩)
      fun hl => ⟨(bears_kind _ _).avoids (by decide), ?_, ?_⟩
    · rw [hd]
      exact fun _ he => absurd he List.not_mem_nil
    · exact (bears_text _ _).avoids (by decide)
    · exact (bears_iri _ _).avoids (by decide)
    · rw [hl]
      exact fun _ he => absurd he List.not_mem_nil

/-- **A term map with one tag at most states what goes together.** -/
theorem exclusive_ofTermMap (s : Setting) (position : Position) {v : Value} {tm : TermMap}
    (hv : tm.value = some v) (htags : tm.datatype = "" ∨ tm.language = "") :
    (ofValue s v ++ attributes position tm).Exclusive := by
  constructor
  · exact (avoids_attributes_of_tags position htags).imp
      (fun h => avoids_append.2 ⟨avoids_ofValue s v (by decide), h⟩)
      fun h => avoids_append.2 ⟨avoids_ofValue s v (by decide), h⟩
  · cases hj : v.isJoin with
    | true =>
      have hnone : attributes position tm = done := if_pos (by rw [hv]; exact hj)
      exact .inr (avoids_append.2 ⟨avoids_ofValue s v (by decide),
        hnone ▸ fun _ he => absurd he List.not_mem_nil⟩)
    | false =>
      refine .inl (avoids_append.2 ⟨?_, avoids_attributes _ _ (by decide)⟩)
      cases v with
      | constant _ | template _ | function _ _ =>
        rw [ofValue]
        exact Bears.avoids ⟨rfl, trivial⟩ (by decide)
      | reference _ =>
        rw [ofValue]
        exact Bears.avoids ⟨rfl, trivial⟩ (by cases s.dialect <;> decide)
      | join _ _ => cases hj

end Sketch

open Sketch

/-- A new node has arrows, one value or both sides, and tags agree. -/
structure NodeOk (p : String) (inner : Sketch) : Prop where
  ne_nil : inner.ends ≠ []
  value : ∀ e ∈ inner.ends, e.1 = rdfType →
    ∃ c, e.2 = some (.iri c) ∧ (c ∈ Class.ofPositions → inner.degree Property.values = 1)
  condition : p = Property.joinCondition →
    inner.degree [Property.child] = 1 ∧ inner.degree [Property.parent] = 1
  parent : p ≠ Property.parentTriplesMap
  exclusive : inner.Exclusive

/-- A node that states its class first. -/
theorem NodeOk.of_arrow {rest : Sketch}
    (hp : p ∉ [Property.joinCondition, Property.parentTriplesMap]) (hrest : rest.Avoids [rdfType])
    (hvalue : class_ ∈ Class.ofPositions → rest.degree Property.values = 1)
    (hexclusive : rest.Exclusive) : NodeOk p (arrow rdfType (.iri class_) rest) := by
  simp only [List.mem_cons, List.not_mem_nil, or_false, not_or] at hp
  refine ⟨List.cons_ne_nil _ _, fun e he htype => ?_, fun h => absurd h hp.1, hp.2,
    exclusive_arrow hexclusive (by decide)⟩
  rcases List.mem_cons.1 he with rfl | he
  · refine ⟨class_, rfl, fun hclass => ?_⟩
    have htype : ¬ Property.values.contains rdfType = true := by decide
    rw [degree, ends, List.countP_cons, if_neg htype]
    exact hvalue hclass
  · exact absurd (List.mem_singleton.2 htype) (hrest e he)

section Shapes

variable {s : Setting} {nodes : List Term} {known : String → Prop}

/-- The parts of a sketch are as they should be. -/
abbrev PartsOk (used : List String) (nodes : List Term) : Sketch → Prop :=
  Sketch.All (LeafOk used nodes) NodeOk

theorem leafOk_of_ne {o : Term} (hp : p ∉ [Property.joinCondition, Property.parentTriplesMap])
    (ho : ∀ l, o = .blank l → l ∈ used) : LeafOk used nodes p o := by
  simp only [List.mem_cons, List.not_mem_nil, or_false, not_or] at hp
  exact ⟨ho, hp.1, fun h => absurd h hp.2⟩

theorem partsOk_text (hp : p ∉ [Property.joinCondition, Property.parentTriplesMap]) :
    PartsOk used nodes (text p value) :=
  all_text fun _ => leafOk_of_ne hp nofun

theorem partsOk_iri (hp : p ∉ [Property.joinCondition, Property.parentTriplesMap]) :
    PartsOk used nodes (iri p value) :=
  all_iri fun _ => leafOk_of_ne hp nofun

theorem partsOk_attributes (position : Position) (tm : TermMap) :
    PartsOk used nodes (attributes position tm) := by
  refine all_attributes position tm fun p hp o ho => leafOk_of_ne ?_ fun l h => absurd h (ho l)
  exact (by decide : ∀ p ∈ [Property.termType, _, _], p ∉ [_, Property.parentTriplesMap]) p hp

/-- A join condition has both its sides. -/
theorem nodeOk_ofCondition {c : JoinCondition} (hc : c.child ≠ "") (hp : c.parent ≠ "") :
    NodeOk Property.joinCondition (ofCondition c) := by
  have hsketch : ofCondition c = arrow rdfType (.iri Class.join)
      (arrow Property.child (.ofText c.child) (arrow Property.parent (.ofText c.parent) done)) := by
    rw [ofCondition, text, text, if_neg hc, if_neg hp]
    rfl
  rw [hsketch]
  have hnone : (arrow rdfType (.iri Class.join) (arrow Property.child (.ofText c.child)
      (arrow Property.parent (.ofText c.parent) done))).Avoids Property.attributes := by
    simp only [Avoids, ends, List.forall_mem_cons]
    exact ⟨by decide, by decide, by decide, fun _ h => absurd h List.not_mem_nil⟩
  refine ⟨List.cons_ne_nil _ _, fun e he htype => ?_, fun _ => ⟨rfl, rfl⟩, by decide,
    hnone.exclusive⟩
  simp only [ends, List.mem_cons, List.not_mem_nil, or_false] at he
  rcases he with rfl | rfl | rfl
  · exact ⟨Class.join, rfl, fun h => absurd h (by decide)⟩
  · exact absurd (show Property.child = rdfType from htype) (by decide)
  · exact absurd (show Property.parent = rdfType from htype) (by decide)

/-- A term map with a value has just one. -/
theorem nodeOk_ofTermMap {tm : TermMap} (hok : tm.Ok known position)
    (hp : p ∉ [Property.joinCondition, Property.parentTriplesMap]) :
    NodeOk p (ofTermMap s class_ position tm) := by
  obtain ⟨_ | v, termType, datatype, language, span⟩ := tm
  · rw [TermMap.Ok] at hok
    exact hok.elim
  rw [TermMap.Ok] at hok
  rw [ofTermMap]
  refine .of_arrow hp
    (avoids_append.2 ⟨avoids_ofValue s v (by decide), avoids_attributes _ _ (by decide)⟩)
    (fun _ => ?_) (exclusive_ofTermMap s position rfl hok.2.exclusive)
  rw [degree_append, degree_ofValue, (avoids_attributes _ _ (by decide)).degree_eq_zero]

theorem nodeOk_ofIri (hp : p ∉ [Property.joinCondition, Property.parentTriplesMap]) :
    NodeOk p (ofIri class_ value) :=
  .of_arrow hp (Bears.avoids ⟨rfl, trivial⟩ (by decide)) (fun _ => rfl)
    (Avoids.exclusive (Bears.avoids ⟨rfl, trivial⟩ (by decide)))

theorem partsOk_ofIri (class_ value : String) :
    PartsOk used nodes (ofIri class_ value) :=
  ⟨leafOk_of_ne (by decide) nofun, leafOk_of_ne (by decide) nofun, trivial⟩

/-- A predicate-object map whose term maps are as they should be. -/
theorem nodeOk_pair {predicates objects graphs : List Sketch} :
    NodeOk Property.predicateObjectMap (pair predicates objects graphs) := by
  have havoids {ps : List String} (hp : Property.predicateMap ∉ ps) (ho : Property.objectMap ∉ ps)
      (hg : Property.graphMap ∉ ps) : (links Property.predicateMap predicates ++
        (links Property.objectMap objects ++ links Property.graphMap graphs)).Avoids ps := by
    rw [avoids_append, avoids_append]
    exact ⟨(bears_links _ _).avoids hp, (bears_links _ _).avoids ho, (bears_links _ _).avoids hg⟩
  exact .of_arrow (by decide) (havoids (by decide) (by decide) (by decide))
    (fun h => absurd h (by decide)) (havoids (by decide) (by decide) (by decide)).exclusive

theorem partsOk_pair {predicates objects graphs : List Sketch}
    (hp : ∀ t ∈ predicates, NodeOk Property.predicateMap t ∧ PartsOk used nodes t)
    (ho : ∀ t ∈ objects, NodeOk Property.objectMap t ∧ PartsOk used nodes t)
    (hg : ∀ t ∈ graphs, NodeOk Property.graphMap t ∧ PartsOk used nodes t) :
    PartsOk used nodes (pair predicates objects graphs) := by
  refine ⟨leafOk_of_ne (by decide) nofun, ?_⟩
  exact all_append.2 ⟨all_links hp, all_append.2 ⟨all_links ho, all_links hg⟩⟩

mutual

/-- **The parts of the sketch of a term map are in order.** -/
theorem partsOk_ofTermMap (hnodes : ∀ id, known id → Term.iri (mapIri s.base id) ∈ nodes)
    (class_ : String) {position : Position} :
    ∀ {tm : TermMap}, tm.Ok known position → (∀ l ∈ labelsOf tm, l ∈ s.used) →
      PartsOk s.used nodes (ofTermMap s class_ position tm)
  | ⟨none, _, _, _, _⟩, hok, _ => by
    rw [TermMap.Ok] at hok
    exact hok.elim
  | ⟨some v, _, _, _, _⟩, hok, hl => by
    rw [TermMap.Ok] at hok
    rw [labelsOf] at hl
    rw [ofTermMap]
    exact ⟨leafOk_of_ne (by decide) nofun,
      all_append.2 ⟨partsOk_ofValue hnodes hok.1 hl, partsOk_attributes _ _⟩⟩

/-- The parts of the sketch of a value are in order. -/
theorem partsOk_ofValue (hnodes : ∀ id, known id → Term.iri (mapIri s.base id) ∈ nodes)
    {position : Position} {termType : TermType} :
    ∀ {v : Value}, v.Ok known position termType → (∀ l ∈ labelsOfValue v, l ∈ s.used) →
      PartsOk s.used nodes (ofValue s v)
  | .constant term, _, hl => by
    rw [ofValue]
    exact ⟨leafOk_of_ne (by decide) fun l ho => hl l (eq_blankNode_of_termOf ho), trivial⟩
  | .reference name, _, _ => by
    rw [ofValue]
    exact ⟨leafOk_of_ne (by cases s.dialect <;> decide) nofun, trivial⟩
  | .template pattern, _, _ => by
    rw [ofValue]
    exact ⟨leafOk_of_ne (by decide) nofun, trivial⟩
  | .function name parameters, hok, hl => by
    rw [Value.Ok] at hok
    rw [labelsOfValue] at hl
    rw [ofValue]
    refine ⟨⟨List.cons_ne_nil _ _, fun e he htype => ?_, fun h => absurd h (by decide), by decide,
      ((bears_links _ _).avoids (by decide)).exclusive⟩,
      all_links (List.forall_mem_cons.2 ⟨⟨nodeOk_pair, partsOk_pair ?_ ?_ nofun⟩,
        partsOk_ofParameters hnodes hok.2 hl⟩), trivial⟩
    · -- the node of the value states no class
      have havoids (inners : List Sketch) :
          (links Property.predicateObjectMap inners).Avoids [rdfType] :=
        (bears_links _ _).avoids (by decide)
      exact absurd (List.mem_singleton.2 htype) (havoids _ e he)
    · exact List.forall_mem_singleton.2 ⟨nodeOk_ofIri (by decide), partsOk_ofIri _ _⟩
    · exact List.forall_mem_singleton.2 ⟨nodeOk_ofIri (by decide), partsOk_ofIri _ _⟩
  | .join parent conditions, hok, _ => by
    rw [Value.Ok] at hok
    obtain ⟨-, hparent, -, hconditions⟩ := hok
    rw [ofValue]
    refine ⟨⟨nofun, by decide, fun _ => hnodes parent hparent⟩, all_links fun t ht => ?_⟩
    obtain ⟨c, hc, rfl⟩ := List.mem_map.1 ht
    refine ⟨nodeOk_ofCondition (hconditions c hc).1 (hconditions c hc).2, ?_⟩
    exact ⟨leafOk_of_ne (by decide) nofun,
      all_append.2 ⟨partsOk_text (by decide), partsOk_text (by decide)⟩⟩

theorem partsOk_ofParameters (hnodes : ∀ id, known id → Term.iri (mapIri s.base id) ∈ nodes) :
    ∀ {ps : List Parameter}, Parameter.OkAll known ps → (∀ l ∈ labelsOfParameters ps, l ∈ s.used) →
      ∀ t ∈ ofParameters s ps, NodeOk Property.predicateObjectMap t ∧ PartsOk s.used nodes t
  | [], _, _ => by
    rw [ofParameters]
    exact fun t ht => absurd ht List.not_mem_nil
  | ⟨name, value⟩ :: rest, hok, hl => by
    rw [Parameter.OkAll] at hok
    rw [labelsOfParameters] at hl
    rw [ofParameters, List.forall_mem_cons]
    refine ⟨⟨nodeOk_pair, partsOk_pair ?_ ?_ nofun⟩,
      partsOk_ofParameters hnodes hok.2.2 fun l h => hl l (List.mem_append_right _ h)⟩
    · exact List.forall_mem_singleton.2 ⟨nodeOk_ofIri (by decide), partsOk_ofIri _ _⟩
    · exact List.forall_mem_singleton.2 ⟨nodeOk_ofTermMap hok.2.1 (by decide),
        partsOk_ofTermMap hnodes _ hok.2.1 fun l h => hl l (List.mem_append_left _ h)⟩

end

/-- The labels of a triples map count as used. -/
def LabelsUsed (used : List String) (tm : TriplesMap) : Prop :=
  ∀ t ∈ tm.termMaps, ∀ l ∈ labelsOf t.2, l ∈ used

theorem ok_linked (hnodes : ∀ id, known id → Term.iri (mapIri s.base id) ∈ nodes)
    (hp : p ∉ [Property.joinCondition, Property.parentTriplesMap]) (class_ : TermMap → String)
    {tms : List TermMap} (hok : ∀ t ∈ tms, t.Ok known position)
    (hl : ∀ t ∈ tms, ∀ l ∈ labelsOf t, l ∈ s.used) :
    ∀ t ∈ tms.map fun t => ofTermMap s (class_ t) position t,
      NodeOk p t ∧ PartsOk s.used nodes t := by
  intro t ht
  obtain ⟨tm, htm, rfl⟩ := List.mem_map.1 ht
  exact ⟨nodeOk_ofTermMap (hok tm htm) hp, partsOk_ofTermMap hnodes _ (hok tm htm) (hl tm htm)⟩

/-- The node of a subject map is in order. -/
theorem nodeOk_ofSubject {subject : SubjectMap} (hok : subject.term.Ok known .subject) :
    NodeOk Property.subjectMap (ofSubject s subject) := by
  obtain ⟨⟨_ | v, t, d, l, span⟩, cs, gs⟩ := subject
  · rw [TermMap.Ok] at hok
    exact hok.elim
  · -- classes and graphs add no value and no class of the node itself
    have hothers {ps : List String} (hc : Property.classOf ∉ ps) (hg : Property.graphMap ∉ ps) :
        (classes cs ++ links Property.graphMap (ofGraphs s gs)).Avoids ps :=
      avoids_append.2 ⟨(bears_classes _).avoids hc, (bears_links _ _).avoids hg⟩
    rw [TermMap.Ok] at hok
    rw [ofSubject, ofTermMap, arrow_append]
    refine .of_arrow (by decide) ?_ (fun _ => ?_)
      ((exclusive_ofTermMap s .subject rfl hok.2.exclusive).append
        (hothers (by decide) (by decide)))
    · exact avoids_append.2
        ⟨avoids_append.2 ⟨avoids_ofValue s v (by decide), avoids_attributes _ _ (by decide)⟩,
          hothers (by decide) (by decide)⟩
    · rw [degree_append, degree_append, degree_ofValue,
        (avoids_attributes _ _ (by decide)).degree_eq_zero,
        (hothers (by decide) (by decide)).degree_eq_zero]

/-- The node of a source is in order. -/
theorem nodeOk_ofSource (dialect : Dialect) (ls : LogicalSource) :
    NodeOk (sourceProperty dialect) (ofSource dialect ls) := by
  have hclass : sourceClass dialect ls ∉ Class.ofPositions := by
    cases dialect with
    | rml => exact (by decide : Class.logicalSource ∉ Class.ofPositions)
    | r2rml =>
      unfold sourceClass
      dsimp only
      split <;> decide
  refine .of_arrow (by cases dialect <;> decide) ?_ (fun h => absurd h hclass)
    (Avoids.exclusive ?_)
  all_goals
    simp only [avoids_append]
    exact ⟨(bears_text _ _).avoids (by decide), (bears_iri _ _).avoids (by decide),
      (bears_text _ _).avoids (by decide), (bears_text _ _).avoids (by decide),
      (bears_text _ _).avoids (by cases dialect <;> decide), (bears_iri _ _).avoids (by decide)⟩

theorem partsOk_ofSource (dialect : Dialect) (ls : LogicalSource) :
    PartsOk used nodes (ofSource dialect ls) := by
  refine ⟨leafOk_of_ne (by decide) nofun, ?_⟩
  simp only [all_append]
  exact ⟨partsOk_text (by decide), partsOk_iri (by decide), partsOk_text (by decide),
    partsOk_text (by decide), partsOk_text (by cases dialect <;> decide), partsOk_iri (by decide)⟩

/-- **The parts of the sketch of a triples map are in order.** -/
theorem partsOk_ofTriplesMap (hnodes : ∀ id, known id → Term.iri (mapIri s.base id) ∈ nodes)
    (hok : tm.Ok known) (hl : LabelsUsed s.used tm) :
    PartsOk s.used nodes (ofTriplesMap s tm) := by
  obtain ⟨hsubject, hgraphs, hpairs⟩ :=
    forall_termMaps (P := fun t => ∀ l ∈ labelsOf t, l ∈ s.used).1 hl
  refine ⟨nodeOk_ofSource _ _, partsOk_ofSource _ _, leafOk_of_ne (by decide) nofun,
    nodeOk_ofSubject hok.subject, all_append.2 ⟨partsOk_ofTermMap hnodes _ hok.subject hsubject,
      all_append.2 ⟨all_classes fun _ => leafOk_of_ne (by decide) nofun, all_links ?_⟩⟩,
    all_links fun t ht => ?_⟩
  · exact ok_linked hnodes (by decide) _ hok.graphs hgraphs
  · obtain ⟨pom, hpom, rfl⟩ := List.mem_map.1 ht
    obtain ⟨-, -, hp, ho, hg⟩ := hok.predicateObjects pom hpom
    obtain ⟨hlp, hlo, hlg⟩ := hpairs pom hpom
    exact ⟨nodeOk_pair, partsOk_pair (ok_linked hnodes (by decide) _ hp hlp)
      (ok_linked hnodes (by decide) _ ho hlo) (ok_linked hnodes (by decide) _ hg hlg)⟩

end Shapes

/-! ## The triples of a document -/

section Documents

variable {s : Setting} {nodes : List Term} {maps : List TriplesMap}

/-- **The drawings of maps are composed of their parts.** -/
theorem composed_drawMaps (h : ∀ tm ∈ maps, PartsOk s.used nodes (ofTriplesMap s tm))
    (hnodup : (maps.map s.node).Nodup) (k : Nat) :
    Composed s.used (LeafOk s.used nodes) NodeOk k (drawMaps s maps k).next (maps.map s.node)
        (drawMaps s maps k).triples ∧
      ∀ tm ∈ maps, Outlined (drawMaps s maps k).triples (s.node tm) (ofTriplesMap s tm) := by
  have hleaf : ∀ p o, LeafOk s.used nodes p o → ∀ l, o = .blank l → l ∈ s.used :=
    fun _ _ h => h.label
  induction maps generalizing k with
  | nil => exact ⟨.nil k [], fun _ h => absurd h List.not_mem_nil⟩
  | cons tm rest ih =>
    rw [List.forall_mem_cons] at h
    rw [List.map_cons, List.nodup_cons] at hnodup
    obtain ⟨hfirst, hout⟩ := composed_draw hleaf h.1 (k := k) not_fresh_node
    obtain ⟨hrest, houts⟩ := ih h.2 hnodup.2 (drawMap s tm k).next
    have hall := hfirst.append hleaf hrest (List.forall_mem_singleton.2 not_fresh_node)
      fun n hn => by
        obtain ⟨tm', -, rfl⟩ := List.mem_map.1 hn
        exact not_fresh_node
    refine ⟨hall, List.forall_mem_cons.2 ⟨?_, fun tm' htm' => ?_⟩⟩
    · exact hout.append_right (hrest.subject_ne hnodup.1 not_fresh_node)
    · refine (houts tm' htm').append_left (hfirst.subject_ne (fun hmem => ?_) not_fresh_node)
      exact hnodup.1 (List.mem_map.2 ⟨tm', htm', List.mem_singleton.1 hmem⟩)

end Documents

/-- A well-formed rule graph of a document.  Its new nodes are the blank nodes that have arrows. -/
structure WellFormed (doc : Document) (ts : List Quad) : Prop where
  /-- A new node is none of the blank nodes of the document, and is led to once. -/
  generated : ∀ q ∈ ts, ∀ l, q.subject = .blank l →
    ¬ doc.HasBlank l ∧ ts.countP (fun t => t.object == .blank l) = 1
  /-- A blank node that is not new is one of the document. -/
  constants : ∀ q ∈ ts, ∀ l, q.object = .blank l →
    doc.HasBlank l ∨ ∃ t ∈ ts, t.subject = .blank l
  /-- A term map has one value. -/
  values : ∀ q ∈ ts, q.predicate = .iri rdfType → (∃ c ∈ Class.ofPositions, q.object = .iri c) →
    ts.countP (fun t => t.subject == q.subject && Graph.hasProperty Property.values t) = 1
  /-- The parent of a join has one source. -/
  parents : ∀ q ∈ ts, q.predicate = .iri Property.parentTriplesMap →
    ts.countP (fun t => t.subject == q.object && Graph.hasProperty Property.sources t) = 1
  /-- A join condition has one child and one parent. -/
  conditions : ∀ q ∈ ts, q.predicate = .iri Property.joinCondition →
    ts.countP (fun t => t.subject == q.object && Graph.hasProperty [Property.child] t) = 1 ∧
      ts.countP (fun t => t.subject == q.object && Graph.hasProperty [Property.parent] t) = 1

/-- A map states its own class and no other, and has one source. -/
theorem ends_ofTriplesMap {s : Setting} :
    (∀ e ∈ (ofTriplesMap s tm).ends, e.1 = rdfType → e.2 = some (.iri Class.triplesMap)) ∧
      (ofTriplesMap s tm).degree Property.sources = 1 := by
  have hpairs {ps : List String} (hp : Property.predicateObjectMap ∉ ps) :
      (links Property.predicateObjectMap (tm.predicateObjects.map (ofPair s))).Avoids ps :=
    (bears_links _ _).avoids hp
  constructor
  · intro e he htype
    rw [ofTriplesMap, ends, ends, ends, List.mem_cons, List.mem_cons, List.mem_cons] at he
    rcases he with rfl | rfl | rfl | he
    · exact absurd (show sourceProperty s.dialect = rdfType from htype)
        (by cases s.dialect <;> decide)
    · rfl
    · exact absurd (show Property.subjectMap = rdfType from htype) (by decide)
    · exact absurd (List.mem_singleton.2 htype) (hpairs (by decide) e he)
  · have hnone : Property.predicateObjectMap ∉ Property.sources := by decide
    have hzero := (hpairs hnone).degree_eq_zero
    rw [degree] at hzero
    rw [ofTriplesMap, degree, ends, ends, ends, List.countP_cons, List.countP_cons,
      List.countP_cons, hzero]
    cases s.dialect <;> rfl

/-- A map states nothing of what term maps state. -/
theorem avoids_ofTriplesMap {s : Setting} : (ofTriplesMap s tm).Avoids Property.attributes := by
  have hpairs : (links Property.predicateObjectMap (tm.predicateObjects.map (ofPair s))).Avoids
      Property.attributes := (bears_links _ _).avoids (by decide)
  rw [ofTriplesMap]
  exact List.forall_mem_cons.2 ⟨by cases s.dialect <;> decide,
    List.forall_mem_cons.2 ⟨by decide, List.forall_mem_cons.2 ⟨by decide, hpairs⟩⟩⟩

section Assembly

variable {s : Setting} {nodes roots : List Term} {m : Nat} {q : Quad}

/-- A new node is led to once, and has the arrows of its part of a sketch. -/
theorem Composed.exists_node (h : Composed s.used (LeafOk s.used nodes) NodeOk 0 m roots ts)
    (hq : q ∈ ts) (hx : Fresh s.used 0 m q.object) :
    ∃ p inner, NodeOk p inner ∧ ts.countP (fun t => t.object == q.object) = 1 ∧
      Outlined ts q.object inner := by
  obtain ⟨p, -, hl | ⟨-, inner, hinner, hcount, hshown⟩⟩ := h.objects q hq
  · exact absurd hx (not_fresh_of_used hl.label)
  · exact ⟨p, inner, hinner, hcount, hshown⟩

/-- **Triples that are composed of the maps of a document are well formed.** -/
theorem wellFormed_of_composed (hused : s.used = labelsIn doc)
    (h : Composed s.used (LeafOk s.used (doc.maps.map s.node)) NodeOk 0 m (doc.maps.map s.node) ts)
    (hout : ∀ tm ∈ doc.maps, Outlined ts (s.node tm) (ofTriplesMap s tm)) :
    WellFormed doc ts := by
  constructor
  case generated =>
    intro q hq l hl
    rcases h.subjects q hq with hroot | ⟨hf, q', hq', ho⟩
    · obtain ⟨tm, -, htn⟩ := List.mem_map.1 hroot
      cases htn.trans hl
    · rw [← ho] at hf
      obtain ⟨p, inner, -, hcount, -⟩ := h.exists_node hq' hf
      rw [ho, hl] at hf hcount
      obtain ⟨i, -, -, hi, hlabel⟩ := hf
      cases hlabel
      refine ⟨fun hblank => hi ?_, hcount⟩
      rw [hused]
      exact mem_labelsIn_iff.2 hblank
  case constants =>
    intro q hq l hl
    obtain ⟨p, -, hleaf | ⟨-, inner, hinner, -, hshown⟩⟩ := h.objects q hq
    · refine .inl (mem_labelsIn_iff.1 ?_)
      rw [← hused]
      exact hleaf.label l hl
    · rw [hl] at hshown
      exact .inr (hshown.exists_triple hinner.ne_nil)
  case values =>
    rintro q hq hp ⟨c, hc, ho⟩
    rcases h.subjects q hq with hroot | ⟨hf, q', hq', ho'⟩
    · -- a triples map is no term map
      obtain ⟨tm, htm, htn⟩ := List.mem_map.1 hroot
      obtain ⟨e, he, hpred, hobj⟩ := (hout tm htm).exists_end hq htn.symm
      have htype : e.1 = rdfType := (Term.iri.inj (hp.symm.trans hpred)).symm
      have hclass := hobj _ (ends_ofTriplesMap.1 e he htype)
      cases ho.symm.trans hclass
      exact absurd hc (by decide)
    · rw [← ho'] at hf ⊢
      obtain ⟨p, inner, hinner, -, hshown⟩ := h.exists_node hq' hf
      obtain ⟨e, he, hpred, hobj⟩ := hshown.exists_end hq ho'.symm
      have htype : e.1 = rdfType := (Term.iri.inj (hp.symm.trans hpred)).symm
      obtain ⟨c', hc', hvalue⟩ := hinner.value e he htype
      cases ho.symm.trans (hobj _ hc')
      rw [hshown.countP_eq]
      exact hvalue hc
  case parents =>
    intro q hq hp
    obtain ⟨p, hpred, hleaf | ⟨-, inner, hinner, -⟩⟩ := h.objects q hq
    · obtain ⟨tm, htm, hto⟩ :=
        List.mem_map.1 (hleaf.parent (Term.iri.inj (hpred.symm.trans hp)))
      rw [← hto, (hout tm htm).countP_eq]
      exact ends_ofTriplesMap.2
    · exact absurd (Term.iri.inj (hpred.symm.trans hp)) hinner.parent
  case conditions =>
    intro q hq hp
    obtain ⟨p, hpred, hleaf | ⟨-, inner, hinner, -, hshown⟩⟩ := h.objects q hq
    · exact absurd (Term.iri.inj (hpred.symm.trans hp)) hleaf.condition
    · rw [hshown.countP_eq, hshown.countP_eq]
      exact hinner.condition (Term.iri.inj (hpred.symm.trans hp))

end Assembly

/-- What a document is written as, if it can be. -/
theorem emit_eq_ok_iff {dialect : Dialect} :
    emit doc dialect = .ok ts ↔
      (dialect = .r2rml → unsupported doc = []) ∧ ts = triplesOf doc dialect := by
  by_cases hd : dialect = .r2rml → unsupported doc = []
  · have hemit : emit doc dialect = .ok (triplesOf doc dialect) := by
      refine if_neg ?_
      cases dialect with
      | rml => exact Bool.false_ne_true
      | r2rml => rw [hd rfl]; exact Bool.false_ne_true
    rw [hemit]
    exact ⟨fun h => ⟨hd, (Except.ok.inj h).symm⟩, fun h => congrArg Except.ok h.2.symm⟩
  · obtain ⟨rfl, hne⟩ := Classical.not_imp.1 hd
    have hemit : emit doc .r2rml = .error (unsupported doc) :=
      if_pos (by simpa using hne)
    rw [hemit]
    exact ⟨fun h => (nomatch h), fun h => absurd h.1 hd⟩

/-- **The triples of a valid document are composed of its maps.** -/
theorem composed_of_valid (hindexed : doc.Indexed) (hvalid : doc.isValid = true)
    {dialect : Dialect} (hd : dialect = .r2rml → unsupported doc = []) :
    let s := settingOf doc dialect
    let ts := triplesOf doc dialect
    (∃ m, Composed s.used (LeafOk s.used (doc.maps.map s.node)) NodeOk 0 m (doc.maps.map s.node)
      ts) ∧ ∀ tm ∈ doc.maps, Outlined ts (s.node tm) (ofTriplesMap s tm) := by
  intro s ts
  obtain ⟨-, hids, hok⟩ := Document.isValid_iff.1 hvalid
  have hnodes : ∀ id, doc.Knows id → Term.iri (mapIri s.base id) ∈ doc.maps.map s.node := by
    intro id hid
    obtain ⟨tm, htm, rfl⟩ := List.mem_map.1 (hindexed.lookup?_isSome_iff.1 hid)
    exact List.mem_map.2 ⟨tm, htm, rfl⟩
  have hparts : ∀ tm ∈ doc.maps, PartsOk s.used (doc.maps.map s.node) (ofTriplesMap s tm) :=
    fun tm htm => partsOk_ofTriplesMap hnodes (hok tm htm)
      fun t ht => ((triplesMapFits_settingOf hd htm).terms t ht).2
  have hts : ts = (drawMaps s doc.maps 0).triples := triplesOf_eq_drawMaps hd
  obtain ⟨hcomposed, hout⟩ := composed_drawMaps hparts (nodup_nodes s hids) 0
  rw [hts]
  exact ⟨⟨_, hcomposed⟩, hout⟩

/-- **What is emitted for a valid document is well formed.** -/
theorem WellFormed.of_valid (hindexed : doc.Indexed) (hvalid : doc.isValid = true)
    {dialect : Dialect} (hts : emit doc dialect = .ok ts) : WellFormed doc ts := by
  obtain ⟨hd, rfl⟩ := emit_eq_ok_iff.1 hts
  obtain ⟨⟨m, hcomposed⟩, hout⟩ := composed_of_valid hindexed hvalid hd
  exact wellFormed_of_composed rfl hcomposed hout

/-- **What is emitted for a document from shorthand is well formed.** -/
theorem wellFormed_emit_of_parse {settings : Shorthand.Settings} {root : Option Yaml.Node}
    {parsed : Shorthand.Parsed} (hparsed : Shorthand.parse settings root = .ok parsed)
    {dialect : Dialect} {ts : List Quad} (hts : emit parsed.document dialect = .ok ts) :
    WellFormed parsed.document ts :=
  .of_valid (Shorthand.built_of_parse hparsed).indexed (Shorthand.isValid_of_parse hparsed) hts

/-- Orders that lead to other orders, with a blank node inside a function. -/
def chainedOrders : Yaml.Node :=
  let entry (key : String) (value : Yaml.Node) : Yaml.Entry := ⟨.ofText key, value⟩
  let condition := Yaml.Node.ofEntries [entry "child" (.ofText "of"), entry "parent" (.ofText "nr")]
  let call := Yaml.Node.ofEntries [entry "function" (.ofText "http://shop.org/fn/label"),
    entry "parameters" (.flowList [.flowList [.ofText "http://shop.org/fn/on",
      .ofText "b0~blanknode"]])]
  .ofEntries [entry "mappings" (.ofEntries [entry "order" (.ofEntries [
    entry "source" (.flowList [.ofText "orders.csv~csv"]),
    entry "subject" (.ofText "http://shop.org/order/$(nr)"),
    entry "predicateobjects" (.ofEntries [
      entry "http://shop.org/in"
        (.ofEntries [entry "mapping" (.ofText "order"), entry "condition" condition]),
      entry "http://shop.org/label" call])])])]

/-- Two orders, one of which is joined with the other. -/
theorem wellFormed_chainedOrders :
    ∃ parsed, Shorthand.parse {} (some chainedOrders) = .ok parsed ∧
      parsed.document.HasBlank "b0" ∧
        ∃ ts, emit parsed.document .rml = .ok ts ∧ WellFormed parsed.document ts := by
  have hread : (Shorthand.parse {} (some chainedOrders)).toOption.any (fun p =>
      labelsIn p.document == ["b0"]) = true := by
    decide +kernel
  cases hparsed : Shorthand.parse {} (some chainedOrders) with
  | error e => rw [hparsed] at hread; cases hread
  | ok parsed =>
    rw [hparsed] at hread
    have hlabels : labelsIn parsed.document = ["b0"] := eq_of_beq hread
    have hts : emit parsed.document .rml = .ok (triplesOf parsed.document .rml) := rfl
    refine ⟨parsed, rfl, mem_labelsIn_iff.1 ?_, _, hts, wellFormed_emit_of_parse hparsed hts⟩
    rw [hlabels]
    exact List.mem_singleton.2 rfl

end RuleGraph

end RdfMapping
