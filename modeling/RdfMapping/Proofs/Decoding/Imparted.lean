/-
# What decoding imparts to term maps

Term maps are decoded in few places: a value, the attributes beside it, and shortcuts.  A property
that holds there holds of all term maps of a decoded document.
-/
import RdfMapping.Proofs.Decoding.Order
import RdfMapping.Proofs.Given

namespace RdfMapping.RuleGraph

open Iri (PrefixTable)
open Mapping
open Rdf (Term Quad)

/-- Decoding imparts `P` to term maps and `F` to functions. -/
structure Imparts (c : Context) (V : Term → Value → Prop) (F : Value → Prop)
    (P : TermMap → Prop) : Prop where
  constant : ∀ {n t : Term} {term : Constant}, c.graph.Leads n Property.constant t →
    constantOf t = .ok term → V n (.constant term)
  reference : ∀ (n : Term) (name : String), V n (.reference name)
  template : ∀ (n : Term) (pattern : String), V n (.template pattern)
  join : ∀ {n t : Term} (parent : String) (conditions : List JoinCondition),
    c.graph.Leads n Property.parentTriplesMap t → V n (.join parent conditions)
  function : ∀ (n : Term) {v : Value}, F v → V n v
  call : ∀ {name : String} {ps : List Parameter},
    (∀ p ∈ ps, p.predicate ≠ Property.executes ∧ P p.value) → F (.function name ps)
  attributes : ∀ {n : Term} {v : Value} (position : Position) (path : String), V n v →
    (decodeAttributes c position n v path).Gives P
  shortcut : ∀ {t : Term} {term : Constant}, constantOf t = .ok term → P (.ofConstant term)
  missing : P {}

section Parts

variable {c : Context} {functionAt : Term → String → Trial Value} {n t : Term} {path base : String}
  {position : Position} {V : Term → Value → Prop} {F : Value → Prop} {P : TermMap → Prop}
  {prefixes : Option PrefixTable} {qs : List Quad} {doc : Document}

theorem gives_refuse {α : Type} {S : α → Prop} {f : Flaw} : (c.refuse f path : Trial α).Gives S :=
  .fail _

theorem gives_decodeConstant :
    (decodeConstant c t path).Gives fun term => constantOf t = .ok term := by
  unfold decodeConstant
  split
  · next h => exact .pure h
  · exact gives_refuse

/-- The subjects of a map are those of an edge. -/
theorem exists_decodeSubject {subject : SubjectMap}
    (h : (decodeOwnSubject c functionAt n).value = some subject) :
    ∃ e, (decodeSubject c functionAt e).run.value = some subject := by
  unfold decodeOwnSubject at h
  rw [Logged.value_bind] at h
  split at h
  · cases h
  · next e _ => exact ⟨e, h⟩
  · cases h

namespace Imparts

variable (h : Imparts c V F P) (hfun : ∀ o path, (functionAt o path).Gives F)

include h hfun

/-! ## Term maps -/

/-- Values have what decoding imparts at their node. -/
theorem decodeValue {e : Edge} (he : c.graph.Leads n e.property e.object) :
    (decodeValue c functionAt n e path).Gives (V n) := by
  unfold RuleGraph.decodeValue
  split
  · next hp =>
    exact gives_decodeConstant.bind fun term hterm => .pure (h.constant (hp ▸ he) hterm)
  split
  · split
    · exact .pure (h.template n _)
    · exact gives_refuse
  split
  · exact (hfun _ _).mono fun v => h.function n
  split
  · next hp =>
    unfold decodeJoin
    split
    · exact gives_refuse
    · refine .bind_right fun es => .bind_right fun conditions => ?_
      split
      · exact gives_refuse
      · exact .pure (h.join _ _ (hp ▸ he))
  split
  · exact .pure (h.reference n _)
  · exact gives_refuse

theorem decodeTermMap : (decodeTermMap c functionAt position n path).Gives P := by
  unfold RuleGraph.decodeTermMap
  refine .bind_right fun _ => .bind_right fun _ => ?_
  split
  · next e he =>
    have hmem : e ∈ c.graph.edges n Property.values := by
      rw [he]
      exact List.mem_singleton_self e
    exact .bind_right fun _ => (h.decodeValue hfun (Graph.leads_of_mem_edges hmem).1).bind
      fun v hv => h.attributes _ _ hv
  · exact gives_refuse

theorem decodeLinked {link shortcut : String} :
    (liftM (decodeLinked c functionAt position n path link shortcut) :
      Trial (List TermMap)).Gives fun tms => ∀ tm ∈ tms, P tm := by
  refine .lift (Attempt.Gives.those fun x hx => ?_)
  obtain ⟨i, hi, rfl⟩ := List.mem_mapIdx.1 hx
  split
  · exact gives_decodeConstant.bind fun term hterm => .pure (h.shortcut hterm)
  · exact h.decodeTermMap hfun

theorem decodePair : (decodePair c functionAt n path).Gives fun pom =>
    (∀ tm ∈ pom.predicates, P tm) ∧ (∀ tm ∈ pom.objects, P tm) ∧ ∀ tm ∈ pom.graphs, P tm := by
  unfold RuleGraph.decodePair
  refine .bind_right fun _ => .bind_right fun _ => ?_
  refine (h.decodeLinked hfun).bind fun predicates hpredicates => ?_
  refine (h.decodeLinked hfun).bind fun objects hobjects => ?_
  refine (h.decodeLinked hfun).bind fun graphs hgraphs => ?_
  exact .pure ⟨hpredicates, hobjects, hgraphs⟩

/-! ## Functions -/

/-- A parameter is the object of its entry, and does not name the function. -/
theorem decodeEntry {name : String} : (decodeEntry c functionAt name n path).Gives fun entry =>
    ∀ p ∈ entry.parameter?, p.predicate ≠ Property.executes ∧ P p.value := by
  refine (h.decodePair hfun).bind fun pom hpom => ?_
  obtain ⟨-, hobjects, -⟩ := hpom
  unfold entryOf
  split
  · next object _ hobject _ =>
    rw [hobject] at hobjects
    split
    · exact gives_refuse
    · split
      · next hiri =>
        refine .pure fun p hp => ?_
        cases hp
        exact ⟨hiri, hobjects object (List.mem_singleton_self object)⟩
      · split
        · split
          · exact gives_refuse
          · exact .pure fun p hp => absurd hp (Option.not_mem_none p)
        · exact gives_refuse
  · exact gives_refuse

/-- Parameters have what decoding imparts. -/
theorem decodeEntries {i : Nat} {name : String} {es : List Edge} :
    (decodeEntries c functionAt path i name es).Gives fun found =>
      ∀ p ∈ found.2, p.predicate ≠ Property.executes ∧ P p.value := by
  induction es generalizing i name with
  | nil => exact .pure fun p hp => absurd hp List.not_mem_nil
  | cons e rest ih =>
    intro found hfound
    rw [RuleGraph.decodeEntries] at hfound
    obtain ⟨entry, hentry, hfound⟩ := Option.bind_eq_some_iff.1 hfound
    obtain ⟨more, hmore, hfound⟩ := Option.bind_eq_some_iff.1 hfound
    cases hfound
    intro p hp
    rcases List.mem_append.1 hp with hown | hrest
    · exact h.decodeEntry hfun entry hentry p (Option.mem_toList.1 hown)
    · exact ih more hmore p hrest

theorem decodeFunction : (decodeFunction c functionAt n path).Gives F := by
  unfold RuleGraph.decodeFunction
  refine .bind_right fun _ => .bind_right fun _ => .bind_right fun _ => .bind_right fun _ =>
    .bind_right fun _ => (h.decodeEntries hfun).bind fun found hfound => ?_
  dsimp only
  split
  · exact gives_refuse
  · exact .pure (h.call hfound)

omit hfun in
/-- **Function values have what decoding imparts, however deep.** -/
theorem functionWithin (depth : Nat) (n : Term) (path : String) :
    (functionWithin c depth n path).Gives F := by
  induction depth generalizing n path with
  | zero => exact .fail _
  | succ depth ih => exact h.decodeFunction ih

/-! ## Triples maps -/

theorem decodeSubject {e : Edge} : (decodeSubject c functionAt e).Gives fun subject =>
    P subject.term ∧ ∀ g ∈ subject.graphs, P g := by
  unfold RuleGraph.decodeSubject
  split
  · exact gives_decodeConstant.bind fun term hterm =>
      .pure ⟨h.shortcut hterm, fun g hg => absurd hg List.not_mem_nil⟩
  · split
    · exact gives_refuse
    · refine (h.decodeTermMap hfun).bind fun term hterm => .bind_right fun classes => ?_
      exact (h.decodeLinked hfun).bind fun graphs hgraphs => .pure ⟨hterm, hgraphs⟩

/-- All term maps of a decoded map have the property. -/
theorem decodeTriplesMap :
    ∀ u ∈ (decodeTriplesMap c functionAt n).value.termMaps, P u.2 := by
  have hpairs : ∀ pom ∈ (decodePairs c functionAt n).value, (∀ tm ∈ pom.predicates, P tm) ∧
      (∀ tm ∈ pom.objects, P tm) ∧ ∀ tm ∈ pom.graphs, P tm := by
    refine Attempt.Gives.those fun x hx => ?_
    obtain ⟨i, hi, rfl⟩ := List.mem_mapIdx.1 hx
    exact h.decodePair hfun
  -- a subject that could not be decoded is the missing one
  have hown : P ((decodeOwnSubject c functionAt n).value.getD {}).term ∧
      ∀ g ∈ ((decodeOwnSubject c functionAt n).value.getD {}).graphs, P g := by
    cases hvalue : (decodeOwnSubject c functionAt n).value with
    | none => exact ⟨h.missing, fun g hg => absurd hg List.not_mem_nil⟩
    | some subject =>
      obtain ⟨e, he⟩ := exists_decodeSubject hvalue
      exact h.decodeSubject hfun subject he
  exact forall_termMaps.2 ⟨hown.1, hown.2, hpairs⟩

end Imparts

/-- The maps of a decoded document are decoded one by one. -/
theorem exists_decodeTriplesMap (h : decode base prefixes qs = .ok doc) {tm : TriplesMap}
    (htm : tm ∈ doc.maps) :
    ∃ ids id n, tm = (decodeTriplesMap ⟨Graph.ofQuads qs, ids, id⟩
      (functionWithin ⟨Graph.ofQuads qs, ids, id⟩ (Graph.ofQuads qs).functionCount) n).value := by
  obtain ⟨-, -, -, -, rfl⟩ := decode_eq_ok_iff.1 h
  obtain ⟨-, hmaps, -⟩ := assemble_spec base prefixes (Graph.ofQuads qs)
    (Graph.ofQuads qs).functionCount
  change tm ∈ (assemble _ _ _ _).maps at htm
  rw [hmaps, decodeMaps, Logged.value_each, List.map_map] at htm
  obtain ⟨⟨n, id⟩, -, rfl⟩ := List.mem_map.1 htm
  exact ⟨_, id, n, rfl⟩

/-- **All term maps of a decoded document have what decoding imparts.** -/
theorem Imparts.of_decode (himparts : ∀ ids id, Imparts ⟨Graph.ofQuads qs, ids, id⟩ V F P)
    (h : decode base prefixes qs = .ok doc) : ∀ tm ∈ doc.maps, ∀ u ∈ tm.termMaps, P u.2 := by
  intro tm htm
  obtain ⟨ids, id, n, rfl⟩ := exists_decodeTriplesMap h htm
  exact (himparts ids id).decodeTriplesMap ((himparts ids id).functionWithin _)

end Parts

end RdfMapping.RuleGraph
