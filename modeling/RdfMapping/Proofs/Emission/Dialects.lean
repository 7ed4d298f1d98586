/-
# The two dialects of a document

A document that the relational dialect can express has the same triples in both dialects, up to
the names of three properties and the class of the sources.  The two emissions run side by side.
-/
import RdfMapping.Proofs.Emission.Shapes

namespace RdfMapping

open Mapping

variable {ls : LogicalSource} {t : TermMap} {tm : TriplesMap} {ts us : List Quad} {n : Term}
  {p base : String} {q : Quad} {used : List String}

/-- A table or a query, with nothing beside it but a version. -/
def Mapping.LogicalSource.IsTabular (ls : LogicalSource) : Prop :=
  ls.access = "" ∧ ls.formulation = "" ∧ ls.iterator = "" ∧ (ls.table ≠ "" ∨ ls.query ≠ "")

theorem Mapping.LogicalSource.isRelational_iff :
    ls.isRelational = true ↔ ls.IsTabular := by
  simp [isRelational, IsTabular, and_assoc]

/-- A term map stands in a position of a triples map. -/
def Mapping.TriplesMap.HasTerm (tm : TriplesMap) (t : TermMap) : Prop :=
  t = tm.subject.term ∨ t ∈ tm.subject.graphs ∨
    ∃ pom ∈ tm.predicateObjects, t ∈ pom.predicates ∨ t ∈ pom.objects ∨ t ∈ pom.graphs

/-- A term map is the result of a function. -/
def Mapping.TermMap.IsCall (t : TermMap) : Prop :=
  ∃ iri parameters, t.value = some (.function iri parameters)

namespace RuleGraph

open Rdf (Term Quad)

/-! ## What the relational dialect can express -/

theorem isFunctionMap_eq_false_iff : isFunctionMap t = false ↔ ¬ t.IsCall := by
  unfold isFunctionMap TermMap.IsCall
  rcases t.value with _ | ⟨_ | _ | _ | _ | _⟩ <;> simp [Value.isFunction]

/-- A triples map that the relational dialect can express. -/
structure IsRelational (tm : TriplesMap) : Prop where
  source : tm.source.IsTabular
  terms : ∀ t, tm.HasTerm t → ¬ t.IsCall

theorem isRelational_iff :
    IsRelational tm ↔ tm.source.IsTabular ∧ ∀ t, tm.HasTerm t → ¬ t.IsCall :=
  ⟨fun h => ⟨h.source, h.terms⟩, fun h => ⟨h.1, h.2⟩⟩

/-- Positions and paths name the same term maps. -/
theorem forall_hasTerm {P : TermMap → Prop} :
    (∀ t, tm.HasTerm t → P t) ↔ ∀ t ∈ tm.termMaps, P t.2 := by
  rw [forall_termMaps]
  unfold TriplesMap.HasTerm
  constructor
  · intro h
    exact ⟨h _ (.inl rfl), fun g hg => h g (.inr (.inl hg)), fun pom hpom =>
      ⟨fun t ht => h t (.inr (.inr ⟨pom, hpom, .inl ht⟩)),
        fun t ht => h t (.inr (.inr ⟨pom, hpom, .inr (.inl ht)⟩)),
        fun t ht => h t (.inr (.inr ⟨pom, hpom, .inr (.inr ht)⟩))⟩⟩
  · rintro ⟨hterm, hgraphs, hpoms⟩ t (rfl | ht | ⟨pom, hpom, ht | ht | ht⟩)
    · exact hterm
    · exact hgraphs t ht
    · exact (hpoms pom hpom).1 t ht
    · exact (hpoms pom hpom).2.1 t ht
    · exact (hpoms pom hpom).2.2 t ht

theorem sourceUnsupported_eq_nil_iff :
    sourceUnsupported tm = [] ↔ tm.source.IsTabular := by
  rw [← LogicalSource.isRelational_iff]
  unfold sourceUnsupported
  by_cases hempty : tm.source.isEmpty = true
  · have hsource : tm.source = {} := by simpa [LogicalSource.isEmpty] using hempty
    rw [if_pos hempty, hsource]
    exact ⟨fun h => absurd h (List.cons_ne_nil _ _), fun h => absurd h (by decide)⟩
  · simp [hempty]

/-- **Nothing is unsupported exactly if every map is relational.** -/
theorem unsupported_eq_nil_iff {doc : Document} :
    unsupported doc = [] ↔ ∀ tm ∈ doc.maps, IsRelational tm := by
  unfold unsupported
  rw [List.flatMap_eq_nil_iff]
  refine forall₂_congr fun tm _ => ?_
  rw [List.append_eq_nil_iff, sourceUnsupported_eq_nil_iff, functionsUnsupported,
    List.map_eq_nil_iff, List.filter_eq_nil_iff]
  rw [isRelational_iff, forall_hasTerm]
  simp only [Bool.not_eq_true, isFunctionMap_eq_false_iff]

/-! ## Relational names -/

/-- The relational name of a property. -/
def relationalProperty (p : String) : String :=
  if p = Property.logicalSource then Property.logicalTable
  else if p = Property.query then Property.sqlQuery
  else if p = Property.reference then Property.column
  else p

/-- The relational name of a term that stands for a property. -/
def relationalPredicate : Term → Term
  | .iri p => .iri (relationalProperty p)
  | t => t

/-- Whether one of the triples gives a property to a node. -/
def gives (ts : List Quad) (n : Term) (p : String) : Bool :=
  ts.any fun q => q.subject == n && q.predicate == .iri p

/-- The relational class of a source: a view if it has a query. -/
def relationalClass (ts : List Quad) (n : Term) : String :=
  if gives ts n Property.query && !gives ts n Property.tableName then Class.view
  else Class.logicalTable

/-- A triple of `ts` in the names of the relational dialect. -/
def relationalTriple (ts : List Quad) (q : Quad) : Quad :=
  if q.predicate = .iri rdfType ∧ q.object = .iri Class.logicalSource then
    { q with object := .iri (relationalClass ts q.subject) }
  else { q with predicate := relationalPredicate q.predicate }

/-- A triple says that its subject is a source, or gives it a query or a table. -/
def OfSource (q : Quad) : Prop :=
  (q.predicate = .iri rdfType ∧ q.object = .iri Class.logicalSource) ∨
    q.predicate = .iri Property.query ∨ q.predicate = .iri Property.tableName

/-- A triple whose property the relational dialect has, if under another name. -/
def Expressible (q : Quad) : Prop :=
  ∃ p, q.predicate = .iri p ∧ relationalProperty p ∉ Property.beyondRelational

theorem gives_append (ts us : List Quad) (n : Term) (p : String) :
    gives (ts ++ us) n p = (gives ts n p || gives us n p) :=
  List.any_append

theorem gives_eq_false (hp : p = Property.query ∨ p = Property.tableName)
    (h : ∀ q ∈ ts, OfSource q → q.subject ≠ n) : gives ts n p = false := by
  rw [gives, List.any_eq_false]
  intro q hq hgives
  rw [Bool.and_eq_true, beq_iff_eq, beq_iff_eq] at hgives
  refine h q hq (.inr ?_) hgives.1
  rcases hp with rfl | rfl
  · exact .inl hgives.2
  · exact .inr hgives.2

/-- What is said of other sources does not matter. -/
theorem relationalClass_append_right (h : ∀ q ∈ us, OfSource q → q.subject ≠ n) :
    relationalClass (ts ++ us) n = relationalClass ts n := by
  simp only [relationalClass, gives_append, gives_eq_false (.inl rfl) h,
    gives_eq_false (.inr rfl) h, Bool.or_false]

@[inherit_doc relationalClass_append_right]
theorem relationalClass_append_left (h : ∀ q ∈ ts, OfSource q → q.subject ≠ n) :
    relationalClass (ts ++ us) n = relationalClass us n := by
  simp only [relationalClass, gives_append, gives_eq_false (.inl rfl) h,
    gives_eq_false (.inr rfl) h, Bool.false_or]

theorem relationalTriple_congr
    (h : OfSource q → relationalClass ts q.subject = relationalClass us q.subject) :
    relationalTriple ts q = relationalTriple us q := by
  unfold relationalTriple
  split
  · next hq => rw [h (.inl hq)]
  · rfl

theorem relationalTriple_of_not_ofSource (h : ¬ OfSource q) :
    relationalTriple ts q = { q with predicate := relationalPredicate q.predicate } :=
  if_neg fun hq => h (.inl hq)

/-- A relational name is not renamed again to one that only the other dialect has. -/
theorem predicate_relationalTriple_notMem (h : Expressible q) :
    ∀ p ∈ Property.beyondRelational, (relationalTriple ts q).predicate ≠ .iri p := by
  obtain ⟨r, hr, hnot⟩ := h
  rintro p hp heq
  unfold relationalTriple at heq
  split at heq
  · next hq =>
    rw [hq.1] at heq
    cases heq
    exact absurd hp (by decide)
  · rw [hr] at heq
    cases heq
    exact hnot hp

/-! ## Steps side by side -/

/-- A step in the names of both dialects: with the same value and the same labels. -/
structure Step.Renames {α : Type} (x y : Step α) : Prop where
  value_eq : ∀ k, (y k).value = (x k).value
  next_eq : ∀ k, (y k).next = (x k).next
  le_next : ∀ k, k ≤ (x k).next
  triples_eq : ∀ k, (y k).triples =
    (x k).triples.map fun q => { q with predicate := relationalPredicate q.predicate }
  ordinary : ∀ k, ∀ q ∈ (x k).triples, ¬ OfSource q ∧ Expressible q

/-- A property that belongs to no source and is the same in both dialects. -/
def IsShared (p : String) : Prop :=
  p ∉ Property.beyondRelational ∧ p ≠ Property.tableName

instance (p : String) : Decidable (IsShared p) :=
  inferInstanceAs (Decidable (_ ∧ _))

theorem relationalProperty_of_isShared (h : IsShared p) :
    relationalProperty p = p := by
  have hne {r : String} (hr : r ∈ Property.beyondRelational) : p ≠ r := fun heq => h.1 (heq ▸ hr)
  rw [relationalProperty, if_neg (hne (by decide)), if_neg (hne (by decide)),
    if_neg (hne (by decide))]

/-- A triple that is the same in both dialects. -/
def IsSharedTriple (q : Quad) : Prop :=
  ∃ p, q.predicate = .iri p ∧ IsShared p ∧ (p = rdfType → q.object ≠ .iri Class.logicalSource)

namespace IsSharedTriple

variable {n o : Term} {p class_ value : String}

theorem of_property (hp : IsShared p) (htype : p ≠ rdfType) : IsSharedTriple (triple n p o) :=
  ⟨p, rfl, hp, fun h => absurd h htype⟩

theorem of_class (h : class_ ≠ Class.logicalSource) : IsSharedTriple (typeTriple n class_) := by
  refine ⟨rdfType, rfl, by decide, fun _ heq => h ?_⟩
  exact Term.iri.inj heq

theorem of_text (hp : IsShared p) (htype : p ≠ rdfType) :
    ∀ q ∈ textTriple n p value, IsSharedTriple q := by
  intro q hq
  unfold textTriple at hq
  split at hq
  · cases hq
  · rw [List.mem_singleton.1 hq]
    exact of_property hp htype

theorem of_iri (hp : IsShared p) (htype : p ≠ rdfType) :
    ∀ q ∈ iriTriple n p value, IsSharedTriple q := by
  intro q hq
  unfold iriTriple at hq
  split at hq
  · cases hq
  · rw [List.mem_singleton.1 hq]
    exact of_property hp htype

theorem ordinary (h : IsSharedTriple q) : ¬ OfSource q ∧ Expressible q := by
  obtain ⟨p, hpred, hshared, htype⟩ := h
  refine ⟨?_, p, hpred, by rw [relationalProperty_of_isShared hshared]; exact hshared.1⟩
  rintro (⟨hp, ho⟩ | hp | hp) <;> cases hpred.symm.trans hp
  · exact htype rfl ho
  · exact hshared.1 (by decide)
  · exact hshared.2 rfl

theorem rename_eq (h : IsSharedTriple q) :
    ({ q with predicate := relationalPredicate q.predicate } : Quad) = q := by
  obtain ⟨p, hpred, hshared, -⟩ := h
  obtain ⟨s, pred, o, g⟩ := q
  cases hpred
  rw [relationalPredicate, relationalProperty_of_isShared hshared]

theorem of_attributes {position : Position} {tm : TermMap} :
    ∀ q ∈ attributeTriples n position tm, IsSharedTriple q := by
  intro q hq
  rw [attributeTriples, List.mem_append, List.mem_append] at hq
  rcases hq with (hq | hq) | hq
  · split at hq
    · rw [List.mem_singleton.1 hq]
      exact of_property (by decide) (by decide)
    · cases hq
  · exact of_iri (by decide) (by decide) q hq
  · exact of_text (by decide) (by decide) q hq

end IsSharedTriple

namespace Step.Renames

variable {α β : Type} {base class_ link : String} {used : List String} {n : Term}
  {position : Position}

theorem pure (a : α) : Renames (Pure.pure a : Step α) (Pure.pure a) :=
  ⟨fun _ => rfl, fun _ => rfl, fun _ => Nat.le_refl _, fun _ => rfl,
    fun _ _ h => absurd h List.not_mem_nil⟩

/-- Steps in turn are renamed in turn. -/
theorem bind {x y : Step α} {f g : α → Step β} (h : Renames x y)
    (hk : ∀ a, Renames (f a) (g a)) : Renames (x >>= f) (y >>= g) := by
  refine ⟨fun k => ?_, fun k => ?_, fun k => ?_, fun k => ?_, fun k q hq => ?_⟩
  · change (g (y k).value (y k).next).value = (f (x k).value (x k).next).value
    rw [h.value_eq, h.next_eq, (hk _).value_eq]
  · change (g (y k).value (y k).next).next = (f (x k).value (x k).next).next
    rw [h.value_eq, h.next_eq, (hk _).next_eq]
  · exact Nat.le_trans (h.le_next k) ((hk _).le_next _)
  · change (y k).triples ++ (g (y k).value (y k).next).triples = _
    rw [h.value_eq, h.next_eq, h.triples_eq, (hk _).triples_eq, ← List.map_append]
    rfl
  · rcases List.mem_append.1 hq with hq | hq
    · exact h.ordinary k q hq
    · exact (hk _).ordinary _ q hq

theorem each {f g : α → Step Unit} {as : List α} (h : ∀ a ∈ as, Renames (f a) (g a)) :
    Renames (Step.each f as) (Step.each g as) := by
  induction as with
  | nil => exact pure ()
  | cons a as ih =>
    rw [List.forall_mem_cons] at h
    exact bind h.1 fun _ => ih h.2

theorem write (h : ∀ q ∈ ts, IsSharedTriple q) :
    Renames (Step.write ts) (Step.write ts) := by
  refine ⟨fun _ => rfl, fun _ => rfl, fun _ => Nat.le_refl _, fun _ => ?_,
    fun _ q hq => (h q hq).ordinary⟩
  exact ((List.map_congr_left fun q hq => (h q hq).rename_eq).trans (List.map_id _)).symm

theorem write_one (h : IsSharedTriple q) : Renames (Step.write [q]) (Step.write [q]) :=
  write fun _ hq => List.mem_singleton.1 hq ▸ h

theorem freshNode : Renames (freshNode used) (freshNode used) :=
  ⟨fun _ => rfl, fun _ => rfl, fun k => Nat.le_succ_of_le (freshNumber_spec used k).1,
    fun _ => rfl, fun _ _ h => absurd h List.not_mem_nil⟩

/-- A reference is written with different properties. -/
theorem reference (name : String) :
    Renames (Step.write [triple n Property.reference (.ofText name)])
      (Step.write [triple n Property.column (.ofText name)]) := by
  refine ⟨fun _ => rfl, fun _ => rfl, fun _ => Nat.le_refl _, fun _ => ?_, fun _ q hq => ?_⟩
  · have hname : relationalProperty Property.reference = Property.column := by decide
    change _ = [triple n (relationalProperty Property.reference) (.ofText name)]
    rw [hname]
    rfl
  · rw [List.mem_singleton.1 hq]
    refine ⟨?_, _, rfl, by decide⟩
    rintro (⟨h, -⟩ | h | h) <;> exact absurd (Term.iri.inj h) (by decide)

theorem joinStep (c : JoinCondition) :
    Renames (joinStep ⟨base, .rml, used⟩ n c) (joinStep ⟨base, .r2rml, used⟩ n c) := by
  refine bind freshNode fun jc => write ?_
  rw [List.cons_append, List.cons_append, List.forall_mem_cons, List.forall_mem_cons,
    List.forall_mem_append]
  exact ⟨.of_property (by decide) (by decide), .of_class (by decide),
    IsSharedTriple.of_text (by decide) (by decide), IsSharedTriple.of_text (by decide) (by decide)⟩

/-- A value that is no function is only renamed. -/
theorem valueStep {value : Value} (h : value.isFunction = false) :
    Renames (valueStep ⟨base, .rml, used⟩ n value) (valueStep ⟨base, .r2rml, used⟩ n value) := by
  cases value with
  | constant term =>
    rw [RuleGraph.valueStep, RuleGraph.valueStep]
    exact write_one (.of_property (by decide) (by decide))
  | reference name =>
    rw [RuleGraph.valueStep, RuleGraph.valueStep]
    exact reference name
  | template pattern =>
    rw [RuleGraph.valueStep, RuleGraph.valueStep]
    exact write_one (.of_property (by decide) (by decide))
  | function iri parameters => cases h
  | join parent conditions =>
    rw [RuleGraph.valueStep, RuleGraph.valueStep]
    exact bind (write_one (.of_property (by decide) (by decide))) fun _ =>
      each fun c _ => joinStep c

theorem termMapStep (h : ¬ t.IsCall) (hclass : class_ ≠ Class.logicalSource) :
    Renames (termMapStep ⟨base, .rml, used⟩ n class_ position t)
      (termMapStep ⟨base, .r2rml, used⟩ n class_ position t) := by
  obtain ⟨_ | value, termType, datatype, language, span⟩ := t
  · rw [RuleGraph.termMapStep, RuleGraph.termMapStep]
    refine write (List.forall_mem_cons.2 ⟨.of_class hclass, ?_⟩)
    exact IsSharedTriple.of_attributes
  · rw [← isFunctionMap_eq_false_iff] at h
    rw [RuleGraph.termMapStep, RuleGraph.termMapStep]
    refine bind (write_one (.of_class hclass)) fun _ => bind (valueStep h) fun _ => ?_
    split
    · exact write IsSharedTriple.of_attributes
    · exact pure _

theorem linkedStep (h : ¬ t.IsCall) (hclass : class_ ≠ Class.logicalSource)
    (hlink : IsShared link) (htype : link ≠ rdfType) :
    Renames (linkedStep ⟨base, .rml, used⟩ n link class_ position t)
      (linkedStep ⟨base, .r2rml, used⟩ n link class_ position t) :=
  bind freshNode fun _ => bind (write_one (.of_property hlink htype)) fun _ =>
    termMapStep h hclass

theorem graphsStep {graphs : List TermMap} (h : ∀ t ∈ graphs, ¬ t.IsCall) :
    Renames (graphsStep ⟨base, .rml, used⟩ n graphs) (graphsStep ⟨base, .r2rml, used⟩ n graphs) :=
  each fun t ht => linkedStep (h t ht) (by decide) (by decide) (by decide)

theorem pairStep {pom : PredicateObjectMap} (hp : ∀ t ∈ pom.predicates, ¬ t.IsCall)
    (ho : ∀ t ∈ pom.objects, ¬ t.IsCall) (hg : ∀ t ∈ pom.graphs, ¬ t.IsCall) :
    Renames (pairStep ⟨base, .rml, used⟩ n pom) (pairStep ⟨base, .r2rml, used⟩ n pom) := by
  have hobject (t : TermMap) : objectClass t ≠ Class.logicalSource := by
    unfold objectClass
    split <;> decide
  refine bind freshNode fun m => bind (write ?_) fun _ => bind (each fun t ht => ?_) fun _ =>
    bind (each fun t ht => ?_) fun _ => graphsStep hg
  · rw [List.forall_mem_cons]
    exact ⟨.of_property (by decide) (by decide), fun q hq =>
      List.mem_singleton.1 hq ▸ .of_class (by decide)⟩
  · exact linkedStep (hp t ht) (by decide) (by decide) (by decide)
  · exact linkedStep (ho t ht) (hobject t) (by decide) (by decide)

end Step.Renames

/-! ## Triples maps side by side -/

/-- What a triples map writes after its source. -/
def bodyStep (s : Setting) (tm : TriplesMap) : Step Unit := do
  let node : Term := .iri (mapIri s.base tm.id)
  .write [typeTriple node Class.triplesMap]
  let sm ← freshNode s.used
  .write [triple node Property.subjectMap sm]
  termMapStep s sm Class.subjectMap .subject tm.subject.term
  .write (tm.subject.classes.map fun c => triple sm Property.classOf (.iri c))
  graphsStep s sm tm.subject.graphs
  Step.each (pairStep s node) tm.predicateObjects

theorem Step.Renames.bodyStep (h : ∀ t, tm.HasTerm t → ¬ t.IsCall) :
    Renames (bodyStep ⟨base, .rml, used⟩ tm) (bodyStep ⟨base, .r2rml, used⟩ tm) := by
  obtain ⟨hterm, hgraphs, hpoms⟩ := forall_termMaps.1 (forall_hasTerm.1 h)
  refine bind (write_one (.of_class (by decide))) fun _ => bind freshNode fun sm =>
    bind (write_one (.of_property (by decide) (by decide))) fun _ =>
    bind (termMapStep hterm (by decide)) fun _ => bind (write fun q hq => ?_) fun _ =>
    bind (graphsStep hgraphs) fun _ => each fun pom hpom => ?_
  · obtain ⟨c, -, rfl⟩ := List.mem_map.1 hq
    exact .of_property (by decide) (by decide)
  · exact pairStep (hpoms pom hpom).1 (hpoms pom hpom).2.1 (hpoms pom hpom).2.2

/-- Triples maps that are written, and their counterparts. -/
structure Translated (used : List String) (k : Nat) (x y : Written Unit) : Prop where
  next_eq : y.next = x.next
  le_next : k ≤ x.next
  triples_eq : y.triples = x.triples.map (relationalTriple x.triples)
  sources : ∀ q ∈ x.triples, OfSource q → Fresh used k x.next q.subject
  expressible : ∀ q ∈ x.triples, Expressible q

namespace Translated

variable {used : List String} {k : Nat}

theorem nil : Translated used k ⟨(), k, []⟩ ⟨(), k, []⟩ :=
  ⟨rfl, Nat.le_refl _, rfl, fun _ h => absurd h List.not_mem_nil,
    fun _ h => absurd h List.not_mem_nil⟩

/-- Sources of maps written in turn have nothing to do with each other. -/
theorem append {x x' y y' : Written Unit} (h : Translated used k x y)
    (h' : Translated used x.next x' y') :
    Translated used k ⟨(), x'.next, x.triples ++ x'.triples⟩
      ⟨(), y'.next, y.triples ++ y'.triples⟩ := by
  refine ⟨h'.next_eq, Nat.le_trans h.le_next h'.le_next, ?_, fun q hq hsource => ?_, fun q hq => ?_⟩
  · change y.triples ++ y'.triples =
      (x.triples ++ x'.triples).map (relationalTriple (x.triples ++ x'.triples))
    rw [h.triples_eq, h'.triples_eq, List.map_append]
    congr 1
    · refine List.map_congr_left fun q hq => relationalTriple_congr fun hsource =>
        (relationalClass_append_right fun q' hq' hsource' heq => ?_).symm
      exact (h.sources q hq hsource).disjoint (heq ▸ h'.sources q' hq' hsource') (Nat.le_refl _)
    · refine List.map_congr_left fun q hq => relationalTriple_congr fun hsource =>
        (relationalClass_append_left fun q' hq' hsource' heq => ?_).symm
      exact (heq ▸ h.sources q' hq' hsource').disjoint (h'.sources q hq hsource) (Nat.le_refl _)
  · rcases List.mem_append.1 hq with hq | hq
    · exact (h.sources q hq hsource).mono (Nat.le_refl _) h'.le_next
    · exact (h'.sources q hq hsource).mono h.le_next (Nat.le_refl _)
  · exact (List.mem_append.1 hq).elim (h.expressible q) (h'.expressible q)

end Translated

/-- The triples of a relational source in the general dialect. -/
theorem sourceTriples_rml (h : ls.IsTabular) (n : Term) :
    sourceTriples .rml n ls = typeTriple n Class.logicalSource ::
      (textTriple n Property.tableName ls.table ++ textTriple n Property.query ls.query ++
        iriTriple n Property.sqlVersion ls.sqlVersion) := by
  obtain ⟨ha, hf, hi, -⟩ := h
  simp [sourceTriples, sourceClass, queryProperty, textTriple, iriTriple, ha, hf, hi]

theorem sourceTriples_r2rml (n : Term) (ls : LogicalSource) :
    sourceTriples .r2rml n ls = typeTriple n (sourceClass .r2rml ls) ::
      (textTriple n Property.tableName ls.table ++ textTriple n Property.sqlQuery ls.query ++
        iriTriple n Property.sqlVersion ls.sqlVersion) := by
  simp [sourceTriples, queryProperty]

/-- The triples that belong to a source are those at its node. -/
theorem subject_of_mem_sourceTriples {dialect : Dialect} (h : q ∈ sourceTriples dialect n ls) :
    q.subject = n := by
  have htext {p value : String} (h : q ∈ textTriple n p value) : q.subject = n := by
    unfold textTriple at h
    split at h
    · cases h
    · rw [List.mem_singleton.1 h]
      rfl
  have hiri {p value : String} (h : q ∈ iriTriple n p value) : q.subject = n := by
    unfold iriTriple at h
    split at h
    · cases h
    · rw [List.mem_singleton.1 h]
      rfl
  cases dialect with
  | rml =>
    simp only [sourceTriples, List.mem_append, List.mem_cons] at h
    rcases h with (((rfl | (h | h) | h) | h) | h) | h
    exacts [rfl, htext h, hiri h, htext h, htext h, htext h, hiri h]
  | r2rml =>
    simp only [sourceTriples, List.mem_append, List.mem_cons] at h
    rcases h with (((rfl | h) | h) | h) | h
    exacts [rfl, absurd h List.not_mem_nil, htext h, htext h, hiri h]

theorem gives_textTriple (n : Term) (p r value : String) :
    gives (textTriple n p value) n r = decide (value ≠ "" ∧ p = r) := by
  by_cases hv : value = ""
  · simp [gives, textTriple, hv]
  · by_cases hp : p = r <;> simp [gives, textTriple, triple, hv, hp]

theorem gives_iriTriple (n : Term) {r : String} (hp : p ≠ r) (value : String) :
    gives (iriTriple n p value) n r = false := by
  by_cases hv : value = "" <;> simp [gives, iriTriple, triple, hv, hp]

/-- The class of a source can be read off its triples. -/
theorem relationalClass_sourceTriples (h : ls.IsTabular) (n : Term) :
    relationalClass (sourceTriples .rml n ls) n = sourceClass .r2rml ls := by
  have hgives (p : String) : gives (sourceTriples .rml n ls) n p =
      (gives [typeTriple n Class.logicalSource] n p ||
        ((gives (textTriple n Property.tableName ls.table) n p ||
          gives (textTriple n Property.query ls.query) n p) ||
          gives (iriTriple n Property.sqlVersion ls.sqlVersion) n p)) := by
    rw [sourceTriples_rml h, ← List.singleton_append, gives_append, gives_append, gives_append]
  have htype {p : String} (hp : rdfType ≠ p) :
      gives [typeTriple n Class.logicalSource] n p = false := by
    simp [gives, typeTriple, triple, hp]
  have hquery : gives (sourceTriples .rml n ls) n Property.query = decide (ls.query ≠ "") := by
    have hne : Property.tableName ≠ Property.query := by decide
    rw [hgives, htype (by decide), gives_textTriple, gives_textTriple,
      gives_iriTriple n (by decide)]
    simp [hne]
  have htable : gives (sourceTriples .rml n ls) n Property.tableName = decide (ls.table ≠ "") := by
    have hne : Property.query ≠ Property.tableName := by decide
    rw [hgives, htype (by decide), gives_textTriple, gives_textTriple,
      gives_iriTriple n (by decide)]
    simp [hne]
  rw [relationalClass, hquery, htable, sourceClass]
  simp

theorem rename_textTriple (ts : List Quad) (n : Term) (hp : p ≠ rdfType) (value : String) :
    (textTriple n p value).map (relationalTriple ts) =
      textTriple n (relationalProperty p) value := by
  by_cases hv : value = "" <;>
    simp [textTriple, hv, relationalTriple, triple, hp, relationalPredicate]

theorem rename_iriTriple (ts : List Quad) (n : Term) (hp : p ≠ rdfType) (value : String) :
    (iriTriple n p value).map (relationalTriple ts) =
      iriTriple n (relationalProperty p) value := by
  by_cases hv : value = "" <;>
    simp [iriTriple, hv, relationalTriple, triple, hp, relationalPredicate]

/-- A source in the two dialects, among other triples. -/
theorem rename_sourceTriples (h : ls.IsTabular)
    (hclass : relationalClass ts n = sourceClass .r2rml ls) :
    (sourceTriples .rml n ls).map (relationalTriple ts) = sourceTriples .r2rml n ls := by
  have htype : relationalTriple ts (typeTriple n Class.logicalSource) =
      typeTriple n (sourceClass .r2rml ls) := by
    rw [← hclass]
    exact if_pos ⟨rfl, rfl⟩
  have htable : relationalProperty Property.tableName = Property.tableName := by decide
  have hquery : relationalProperty Property.query = Property.sqlQuery := by decide
  have hversion : relationalProperty Property.sqlVersion = Property.sqlVersion := by decide
  rw [sourceTriples_rml h, sourceTriples_r2rml, List.map_cons, List.map_append, List.map_append,
    htype, rename_textTriple _ _ (by decide), rename_textTriple _ _ (by decide),
    rename_iriTriple _ _ (by decide), htable, hquery, hversion]

/-- The triples of a table or query can be expressed. -/
theorem expressible_of_mem_sourceTriples (h : ls.IsTabular) :
    ∀ q ∈ sourceTriples .rml n ls, Expressible q := by
  have htext {p value : String} (hp : relationalProperty p ∉ Property.beyondRelational) :
      ∀ q ∈ textTriple n p value, Expressible q := by
    intro q hq
    unfold textTriple at hq
    split at hq
    · cases hq
    · exact ⟨p, by rw [List.mem_singleton.1 hq]; rfl, hp⟩
  rw [sourceTriples_rml h, List.forall_mem_cons, List.forall_mem_append, List.forall_mem_append]
  refine ⟨⟨_, rfl, by decide⟩, ⟨htext (by decide), htext (by decide)⟩, fun q hq => ?_⟩
  unfold iriTriple at hq
  split at hq
  · cases hq
  · exact ⟨_, by rw [List.mem_singleton.1 hq]; rfl, by decide⟩

/-- **A relational triples map in the two dialects.** -/
theorem translated_triplesMapStep (h : IsRelational tm) (k : Nat) :
    Translated used k (triplesMapStep ⟨base, .rml, used⟩ tm k)
      (triplesMapStep ⟨base, .r2rml, used⟩ tm k) := by
  let m := freshNumber used k + 1
  let n : Term := Sketch.newNode used k
  let link (p : String) : Quad := triple (.iri (mapIri base tm.id)) p n
  let source := sourceTriples .rml n tm.source
  let body := bodyStep ⟨base, .rml, used⟩ tm m
  let body' := bodyStep ⟨base, .r2rml, used⟩ tm m
  let block := [link Property.logicalSource] ++ source ++ body.triples
  have hbody : Step.Renames (bodyStep ⟨base, .rml, used⟩ tm) (bodyStep ⟨base, .r2rml, used⟩ tm) :=
    .bodyStep h.terms
  have hfresh : Fresh used k body.next n := Sketch.fresh_newNode (hbody.le_next m)
  have hlink : ∀ q ∈ [link Property.logicalSource], ¬ OfSource q := by
    rintro q hq (⟨h, -⟩ | h | h) <;> rw [List.mem_singleton.1 hq] at h <;>
      exact absurd (Term.iri.inj h) (by decide)
  -- only the triples of the source decide on its class
  have hclass : relationalClass block n = sourceClass .r2rml tm.source := by
    rw [relationalClass_append_right fun q hq hsource => absurd hsource (hbody.ordinary m q hq).1,
      relationalClass_append_left fun q hq hsource => absurd hsource (hlink q hq),
      relationalClass_sourceTriples h.source]
  have htriples : [link Property.logicalTable] ++ sourceTriples .r2rml n tm.source ++
      body'.triples = block.map (relationalTriple block) := by
    have hbody' : body'.triples = body.triples.map (relationalTriple block) := by
      rw [hbody.triples_eq]
      exact List.map_congr_left fun q hq =>
        (relationalTriple_of_not_ofSource (hbody.ordinary m q hq).1).symm
    have hlink' : [link Property.logicalSource].map (relationalTriple block) =
        [link Property.logicalTable] := by
      rw [List.map_singleton, relationalTriple_of_not_ofSource (hlink _ (List.mem_singleton.2 rfl))]
      rfl
    rw [List.map_append, List.map_append, hlink', rename_sourceTriples h.source hclass, hbody']
  change Translated used k ⟨(), body.next, block⟩ ⟨(), body'.next, _⟩
  refine ⟨hbody.next_eq m, ?_, htriples, fun q hq hsource => ?_, fun q hq => ?_⟩
  · exact Nat.le_trans (Nat.le_succ_of_le (freshNumber_spec used k).1) (hbody.le_next m)
  · rcases List.mem_append.1 hq with hq | hq
    · rcases List.mem_append.1 hq with hq | hq
      · exact absurd hsource (hlink q hq)
      · rw [subject_of_mem_sourceTriples hq]
        exact hfresh
    · exact absurd hsource (hbody.ordinary m q hq).1
  · rcases List.mem_append.1 hq with hq | hq
    · rcases List.mem_append.1 hq with hq | hq
      · rw [List.mem_singleton.1 hq]
        exact ⟨_, rfl, by decide⟩
      · exact expressible_of_mem_sourceTriples h.source q hq
    · exact (hbody.ordinary m q hq).2

/-- Maps are translated one after the other. -/
theorem translated_each {maps : List TriplesMap} (h : ∀ tm ∈ maps, IsRelational tm) (k : Nat) :
    Translated used k (Step.each (triplesMapStep ⟨base, .rml, used⟩) maps k)
      (Step.each (triplesMapStep ⟨base, .r2rml, used⟩) maps k) := by
  induction maps generalizing k with
  | nil => exact .nil
  | cons tm rest ih =>
    rw [List.forall_mem_cons] at h
    have hfirst : Translated used k (triplesMapStep ⟨base, .rml, used⟩ tm k)
        (triplesMapStep ⟨base, .r2rml, used⟩ tm k) := translated_triplesMapStep h.1 k
    have hrest := ih h.2 (triplesMapStep ⟨base, .rml, used⟩ tm k).next
    change Translated used k ⟨(), _, _ ++ _⟩
      ⟨(), (Step.each _ rest (triplesMapStep _ tm k).next).next,
        _ ++ (Step.each _ rest (triplesMapStep _ tm k).next).triples⟩
    rw [hfirst.next_eq]
    exact hfirst.append hrest

/-! ## Documents -/

/-- **The two dialects correspond triple by triple.**  A document has no relational triples
exactly if one of its maps has a source that is no table or query, or a function in one of its
positions.  Otherwise its relational triples are those of the general dialect, one by one, in
relational names. -/
theorem emit_r2rml_iff (doc : Document) :
    ((∃ ds, emit doc .r2rml = .error ds) ↔
      ∃ tm ∈ doc.maps, ¬ tm.source.IsTabular ∨ ∃ t, tm.HasTerm t ∧ t.IsCall) ∧
    ∀ ts, emit doc .r2rml = .ok ts →
      ∃ us, emit doc .rml = .ok us ∧ ts.length = us.length ∧
        ts = us.map (relationalTriple us) ∧
        ∀ q ∈ ts, ∀ p ∈ Property.beyondRelational, q.predicate ≠ .iri p := by
  have hrml : emit doc .rml = .ok (triplesOf doc .rml) := rfl
  have hno : (¬ ∀ tm ∈ doc.maps, IsRelational tm) ↔
      ∃ tm ∈ doc.maps, ¬ tm.source.IsTabular ∨ ∃ t, tm.HasTerm t ∧ t.IsCall := by
    simp only [isRelational_iff, not_forall, not_and_or, not_not, exists_prop]
  by_cases hrel : ∀ tm ∈ doc.maps, IsRelational tm
  · have hr2rml : emit doc .r2rml = .ok (triplesOf doc .r2rml) := by
      rw [emit, unsupported_eq_nil_iff.2 hrel]
      rfl
    have h : Translated (labelsIn doc) 0
        (Step.each (triplesMapStep ⟨doc.base, .rml, labelsIn doc⟩) doc.maps 0)
        (Step.each (triplesMapStep ⟨doc.base, .r2rml, labelsIn doc⟩) doc.maps 0) :=
      translated_each hrel 0
    have htriples : triplesOf doc .r2rml =
        (triplesOf doc .rml).map (relationalTriple (triplesOf doc .rml)) := h.triples_eq
    rw [hr2rml, ← hno]
    refine ⟨⟨fun ⟨_, herror⟩ => (nomatch herror), fun hn => absurd hrel hn⟩, ?_⟩
    rintro _ ⟨⟩
    refine ⟨_, hrml, by rw [htriples, List.length_map], htriples, fun q hq => ?_⟩
    rw [htriples] at hq
    obtain ⟨r, hr, rfl⟩ := List.mem_map.1 hq
    exact predicate_relationalTriple_notMem (h.expressible r hr)
  · have hr2rml : emit doc .r2rml = .error (unsupported doc) := by
      have hne : (unsupported doc).isEmpty = false := by
        rw [List.isEmpty_eq_false_iff]
        exact fun h => hrel (unsupported_eq_nil_iff.1 h)
      rw [emit, hne]
      rfl
    rw [hr2rml, ← hno]
    exact ⟨⟨fun _ => hrel, fun _ => ⟨_, rfl⟩⟩, fun _ hok => nomatch hok⟩

/-- A table of orders, and a query for the customers they belong to. -/
def orders : Document where
  base := "http://ex.org/"
  maps := [
    { id := "order"
      source := { table := "orders" }
      subject := { term := { value := some (.template "http://ex.org/order/\x7bid\x7d") } }
      predicateObjects := [{
        predicates := [.ofConstant (.ofIri "http://ex.org/of")]
        objects := [{ value := some (.join "customer" [⟨"customer", "id"⟩]) }] }] },
    { id := "customer"
      source := { query := "select id from customers" }
      subject := { term := { value := some (.reference "id") } } }]

/-- The table becomes a logical table and the query a view. -/
theorem emit_orders :
    ∃ ts us, emit orders .r2rml = .ok ts ∧ emit orders .rml = .ok us ∧
      ts = us.map (relationalTriple us) ∧
      (∀ q ∈ ts, ∀ p ∈ Property.beyondRelational, q.predicate ≠ .iri p) ∧
      typeTriple (.blank "b0") Class.logicalTable ∈ ts ∧
      typeTriple (.blank "b6") Class.view ∈ ts := by
  have hok : emit orders .r2rml = .ok (triplesOf orders .r2rml) := by decide +kernel
  obtain ⟨us, hus, -, htriples, hnames⟩ := (emit_r2rml_iff orders).2 _ hok
  exact ⟨_, us, hok, hus, htriples, hnames, by decide +kernel, by decide +kernel⟩

end RuleGraph

end RdfMapping
