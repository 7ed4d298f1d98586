/-
# What emission forgets

Emission writes no attributes of a join, and of a constant only the tag its term can have.  The
settled form of a document leaves out what is forgotten, and is written as the document itself.
-/
import RdfMapping.Proofs.Decoding.Tags
import RdfMapping.Proofs.Emission.Shapes
import RdfMapping.Proofs.Mapping.Sameness

namespace RdfMapping

variable {position : Position} {n : Term} {v : Value} {qs : List Quad}

/-! ## The settled form -/

namespace Mapping

/-- A constant without the tags that its term cannot have. -/
def Constant.settled (term : Constant) : Constant :=
  match term.kind with
  | .literal => { term with datatype := if term.language = "" then term.datatype else "" }
  | .iri | .blankNode => { term with datatype := "", language := "" }

theorem Constant.kind_settled (term : Constant) : term.settled.kind = term.kind := by
  rcases term with ⟨_ | _ | _, value, datatype, language⟩ <;> rfl

theorem Constant.value_settled (term : Constant) : term.settled.value = term.value := by
  rcases term with ⟨_ | _ | _, value, datatype, language⟩ <;> rfl

theorem Constant.normal_settled (term : Constant) : term.settled.Normal := by
  obtain ⟨kind, value, datatype, language⟩ := term
  cases kind with
  | iri | blankNode => exact ⟨.inl rfl, fun _ => ⟨rfl, rfl⟩⟩
  | literal =>
    refine ⟨?_, fun hne => absurd rfl hne⟩
    by_cases hl : language = ""
    · exact .inr hl
    · exact .inl (if_neg hl)

mutual

/-- A value without what emission forgets, and without positions. -/
def Value.settled : Value → Value
  | .constant term => .constant term.settled
  | .reference name => .reference name
  | .template pattern => .template pattern
  | .function iri parameters => .function iri (Parameter.settledAll parameters)
  | .join parent conditions => .join parent conditions

/-- Parameters without what emission forgets, and without positions. -/
def Parameter.settledAll : List Parameter → List Parameter
  | [] => []
  | ⟨name, value⟩ :: rest => ⟨name, value.settled⟩ :: Parameter.settledAll rest

/-- A term map without what emission forgets, and without positions. -/
def TermMap.settled : TermMap → TermMap
  | ⟨none, t, d, l, _⟩ => ⟨none, t, d, l, {}⟩
  | ⟨some value, t, d, l, _⟩ =>
    if value.isJoin then ⟨some value.settled, .iri, "", "", {}⟩
    else ⟨some value.settled, t, d, l, {}⟩

end

/-- The settled form of a subject map. -/
def SubjectMap.settled (s : SubjectMap) : SubjectMap :=
  ⟨s.term.settled, s.classes, s.graphs.map TermMap.settled⟩

/-- The settled form of a predicate-object map. -/
def PredicateObjectMap.settled (pom : PredicateObjectMap) : PredicateObjectMap :=
  ⟨{}, pom.predicates.map TermMap.settled, pom.objects.map TermMap.settled,
    pom.graphs.map TermMap.settled⟩

/-- The settled form of a triples map. -/
def TriplesMap.settled (tm : TriplesMap) : TriplesMap :=
  ⟨tm.id, {}, tm.source, tm.subject.settled, tm.predicateObjects.map PredicateObjectMap.settled⟩

theorem Value.isJoin_settled (v : Value) : v.settled.isJoin = v.isJoin := by
  cases v <;> rw [Value.settled] <;> rfl

theorem Value.isConstant_settled (v : Value) : v.settled.isConstant = v.isConstant := by
  cases v <;> rw [Value.settled] <;> rfl

/-! ## It has no positions -/

mutual

theorem Value.bare_settled : ∀ v : Value, v.settled.bare = v.settled
  | .constant _ | .reference _ | .template _ | .join _ _ => by rw [Value.settled, Value.bare]
  | .function _ parameters => by
    rw [Value.settled, Value.bare, Parameter.bareAll_settledAll parameters]

theorem Parameter.bareAll_settledAll :
    ∀ ps : List Parameter, Parameter.bareAll (Parameter.settledAll ps) = Parameter.settledAll ps
  | [] => by rw [Parameter.settledAll, Parameter.bareAll]
  | ⟨_, value⟩ :: rest => by
    rw [Parameter.settledAll, Parameter.bareAll, TermMap.bare_settled value,
      Parameter.bareAll_settledAll rest]

theorem TermMap.bare_settled : ∀ tm : TermMap, tm.settled.bare = tm.settled
  | ⟨none, _, _, _, _⟩ => by rw [TermMap.settled, TermMap.bare]
  | ⟨some value, _, _, _, _⟩ => by
    rw [TermMap.settled]
    split <;> rw [TermMap.bare, Value.bare_settled value]

end

theorem TermMap.map_bare_settled (tms : List TermMap) :
    (tms.map TermMap.settled).map TermMap.bare = tms.map TermMap.settled := by
  rw [List.map_map]
  exact List.map_congr_left fun tm _ => tm.bare_settled

theorem PredicateObjectMap.bare_settled (pom : PredicateObjectMap) :
    pom.settled.bare = pom.settled := by
  simp only [PredicateObjectMap.settled, PredicateObjectMap.bare, TermMap.map_bare_settled]

theorem TriplesMap.bare_settled (tm : TriplesMap) : tm.settled.bare = tm.settled := by
  have hpairs : (tm.predicateObjects.map PredicateObjectMap.settled).map PredicateObjectMap.bare =
      tm.predicateObjects.map PredicateObjectMap.settled := by
    rw [List.map_map]
    exact List.map_congr_left fun pom _ => pom.bare_settled
  simp only [TriplesMap.settled, TriplesMap.bare, SubjectMap.settled, SubjectMap.bare,
    TermMap.bare_settled, TermMap.map_bare_settled, hpairs]

/-! ## It obeys the rules -/

section Ok

variable {known : String → Prop}

mutual

theorem Value.Ok.settled {position : Position} {termType : TermType} :
    ∀ {v : Value}, v.Ok known position termType → v.settled.Ok known position termType
  | .constant term, h => by
    rw [Value.settled, Value.Ok, term.kind_settled]
    rwa [Value.Ok] at h
  | .reference _, h | .template _, h | .join _ _, h => by rwa [Value.settled]
  | .function _ _, h => by
    rw [Value.Ok] at h
    rw [Value.settled, Value.Ok]
    exact ⟨h.1, Parameter.OkAll.settled h.2⟩

theorem Parameter.OkAll.settled :
    ∀ {ps : List Parameter}, Parameter.OkAll known ps →
      Parameter.OkAll known (Parameter.settledAll ps)
  | [], h => by rwa [Parameter.settledAll]
  | ⟨_, _⟩ :: _, h => by
    rw [Parameter.OkAll] at h
    rw [Parameter.settledAll, Parameter.OkAll]
    exact ⟨h.1, TermMap.Ok.settled h.2.1, Parameter.OkAll.settled h.2.2⟩

/-- The settled form of a term map obeys the rules. -/
theorem TermMap.Ok.settled {position : Position} :
    ∀ {tm : TermMap}, tm.Ok known position → tm.settled.Ok known position
  | ⟨none, _, _, _, _⟩, h => by
    rw [TermMap.Ok] at h
    exact h.elim
  | ⟨some v, termType, _, _, _⟩, h => by
    rw [TermMap.Ok] at h
    rw [TermMap.settled]
    split
    · next hj =>
      -- joins stand in the position of objects, which makes IRIs as any other
      cases v with
      | join parent conditions =>
        have hv := h.1
        rw [Value.Ok] at hv
        rw [TermMap.Ok, Value.settled, Value.Ok]
        obtain ⟨rfl, hrest⟩ := hv
        exact ⟨⟨rfl, hrest⟩, fun _ => rfl, fun hs => (nomatch hs), .inl rfl,
          fun ht => absurd rfl (ht.elim id id)⟩
      | constant _ | reference _ | template _ | function _ _ => cases hj
    · rw [TermMap.Ok]
      exact ⟨Value.Ok.settled h.1, h.2⟩

end

theorem TermMap.forall_ok_settled {tms : List TermMap} (h : ∀ tm ∈ tms, tm.Ok known position) :
    ∀ tm ∈ tms.map TermMap.settled, tm.Ok known position := by
  intro tm htm
  obtain ⟨tm', hmem, rfl⟩ := List.mem_map.1 htm
  exact (h tm' hmem).settled

theorem PredicateObjectMap.Ok.settled {pom : PredicateObjectMap} (h : pom.Ok known) :
    pom.settled.Ok known :=
  ⟨mt List.map_eq_nil_iff.1 h.somePredicate, mt List.map_eq_nil_iff.1 h.someObject,
    TermMap.forall_ok_settled h.predicates, TermMap.forall_ok_settled h.objects,
    TermMap.forall_ok_settled h.graphs⟩

/-- **The settled form obeys the rules.** -/
theorem TriplesMap.Ok.settled {tm : TriplesMap} (h : tm.Ok known) : tm.settled.Ok known := by
  refine ⟨h.id, h.subject.settled, h.classes, TermMap.forall_ok_settled h.graphs, ?_⟩
  intro pom hpom
  obtain ⟨pom', hmem, rfl⟩ := List.mem_map.1 hpom
  exact (h.predicateObjects pom' hmem).settled

end Ok

end Mapping

namespace RuleGraph

open Mapping
open Rdf (Term Quad)

/-! ## It is written in the same way -/

theorem termOf_settled (term : Constant) : termOf term.settled = termOf term := by
  obtain ⟨kind, value, datatype, language⟩ := term
  cases kind with
  | iri | blankNode => rfl
  | literal =>
    by_cases hl : language = ""
    · simp [Constant.settled, termOf, hl]
    · simp [Constant.settled, termOf, hl]

theorem objectClass_settled (tm : TermMap) : objectClass tm.settled = objectClass tm := by
  rcases tm with ⟨_ | value, t, d, l, span⟩
  · rw [TermMap.settled]
    rfl
  · rw [TermMap.settled]
    unfold objectClass
    split <;> simp [Value.isJoin_settled]

/-- The kind that is meant depends on the settled value and tags. -/
theorem defaultTermType_settled (position : Position) (value : Value) (t t' : TermType)
    (d l : String) (span span' : Span) :
    defaultTermType position ⟨some value.settled, t, d, l, span⟩ =
      defaultTermType position ⟨some value, t', d, l, span'⟩ := by
  unfold defaultTermType
  cases value <;> simp only [Value.settled, Constant.kind_settled] <;> rfl

section Sketches

open Sketch

variable {s : Setting}

/-- Settling keeps what is drawn beside the value. -/
theorem attributes_settled (position : Position) (tm : TermMap) :
    attributes position tm.settled = attributes position tm := by
  rcases tm with ⟨_ | value, t, d, l, span⟩
  · rw [TermMap.settled]
    rfl
  · rw [TermMap.settled]
    cases hj : value.isJoin with
    | true =>
      rw [if_pos rfl, attributes, attributes]
      simp only [Option.any_some, Value.isJoin_settled, hj]
      rfl
    | false =>
      rw [if_neg Bool.false_ne_true, attributes, attributes, kind, kind,
        defaultTermType_settled position value t t d l {} span]
      simp only [Option.any_some, Value.isJoin_settled, Value.isConstant_settled]

mutual

/-- **The settled form of a term map has the same sketch.** -/
theorem ofTermMap_settled (class_ : String) (position : Position) :
    ∀ tm : TermMap, ofTermMap s class_ position tm.settled = ofTermMap s class_ position tm
  | ⟨none, t, d, l, span⟩ => by
    have hattributes := attributes_settled position ⟨none, t, d, l, span⟩
    rw [TermMap.settled] at hattributes ⊢
    rw [ofTermMap, ofTermMap, hattributes]
  | ⟨some value, t, d, l, span⟩ => by
    have hattributes := attributes_settled position ⟨some value, t, d, l, span⟩
    rw [TermMap.settled] at hattributes ⊢
    by_cases hj : value.isJoin = true
    · rw [if_pos hj] at hattributes ⊢
      rw [ofTermMap, ofTermMap, ofValue_settled value, hattributes]
    · rw [if_neg hj] at hattributes ⊢
      rw [ofTermMap, ofTermMap, ofValue_settled value, hattributes]

theorem ofValue_settled : ∀ v : Value, ofValue s v.settled = ofValue s v
  | .constant term => by rw [Value.settled, ofValue, ofValue, termOf_settled]
  | .reference _ | .template _ | .join _ _ => by rw [Value.settled]
  | .function name parameters => by
    rw [Value.settled, ofValue, ofValue, ofParameters_settledAll parameters]

theorem ofParameters_settledAll :
    ∀ ps : List Parameter, ofParameters s (Parameter.settledAll ps) = ofParameters s ps
  | [] => by rw [Parameter.settledAll]
  | ⟨name, value⟩ :: rest => by
    rw [Parameter.settledAll, ofParameters, ofParameters, objectClass_settled,
      ofTermMap_settled _ _ value, ofParameters_settledAll rest]

end

theorem ofPair_settled (pom : PredicateObjectMap) : ofPair s pom.settled = ofPair s pom := by
  have hmap (class_ : TermMap → String) (hclass : ∀ tm, class_ tm.settled = class_ tm)
      (position : Position) (tms : List TermMap) :
      (tms.map TermMap.settled).map (fun tm => ofTermMap s (class_ tm) position tm) =
        tms.map fun tm => ofTermMap s (class_ tm) position tm := by
    rw [List.map_map]
    refine List.map_congr_left fun tm _ => ?_
    rw [Function.comp_apply, hclass, ofTermMap_settled]
  rw [ofPair, ofPair, ofGraphs, ofGraphs]
  exact congr (congrArg₂ pair (hmap (fun _ => Class.predicateMap) (fun _ => rfl) _ _)
    (hmap objectClass objectClass_settled _ _)) (hmap (fun _ => Class.graphMap) (fun _ => rfl) _ _)

/-- **The settled form of a triples map has the same sketch.** -/
theorem ofTriplesMap_settled (tm : TriplesMap) : ofTriplesMap s tm.settled = ofTriplesMap s tm := by
  have hpairs : (tm.predicateObjects.map PredicateObjectMap.settled).map (ofPair s) =
      tm.predicateObjects.map (ofPair s) := by
    rw [List.map_map]
    exact List.map_congr_left fun pom _ => ofPair_settled pom
  have hgraphs : ofGraphs s (tm.subject.graphs.map TermMap.settled) =
      ofGraphs s tm.subject.graphs := by
    rw [ofGraphs, List.map_map]
    exact List.map_congr_left fun g _ => ofTermMap_settled _ _ g
  have hsubject : ofSubject s tm.subject.settled = ofSubject s tm.subject := by
    rw [ofSubject, ofSubject, SubjectMap.settled, ofTermMap_settled, hgraphs]
  rw [ofTriplesMap, ofTriplesMap, TriplesMap.settled, hsubject, hpairs]

end Sketches

mutual

theorem labelsOf_settled : ∀ tm : TermMap, labelsOf tm.settled = labelsOf tm
  | ⟨none, _, _, _, _⟩ => by rw [TermMap.settled, labelsOf, labelsOf]
  | ⟨some value, _, _, _, _⟩ => by
    rw [TermMap.settled]
    split <;> rw [labelsOf, labelsOf, labelsOfValue_settled value]

theorem labelsOfValue_settled : ∀ v : Value, labelsOfValue v.settled = labelsOfValue v
  | .constant term => by
    rw [Value.settled, labelsOfValue, labelsOfValue, term.kind_settled, term.value_settled]
  | .reference _ | .template _ | .join _ _ => by rw [Value.settled]
  | .function _ parameters => by
    rw [Value.settled, labelsOfValue, labelsOfValue, labelsOfParameters_settled parameters]

theorem labelsOfParameters_settled :
    ∀ ps : List Parameter, labelsOfParameters (Parameter.settledAll ps) = labelsOfParameters ps
  | [] => by rw [Parameter.settledAll]
  | ⟨_, value⟩ :: rest => by
    rw [Parameter.settledAll, labelsOfParameters, labelsOfParameters, labelsOf_settled value,
      labelsOfParameters_settled rest]

end

theorem termMaps_settled (tm : TriplesMap) :
    tm.settled.termMaps = tm.termMaps.map fun t => (t.1, t.2.settled) := by
  simp only [TriplesMap.termMaps, TriplesMap.settled, SubjectMap.settled, List.map_append,
    List.map_cons, List.map_flatten, List.mapIdx_eq_zipIdx_map, List.zipIdx_map, List.map_map]
  congr 3
  funext ⟨pom, i⟩
  simp only [Function.comp_apply, Prod.map, PredicateObjectMap.settled, List.map_append,
    List.zipIdx_map, List.map_map]
  rfl

/-- The settled form of a document. -/
def settledDocument (doc : Document) : Document :=
  { doc with maps := doc.maps.map TriplesMap.settled }

theorem ids_settledDocument (doc : Document) : (settledDocument doc).ids = doc.ids := by
  rw [Document.ids, settledDocument, List.map_map]
  rfl

theorem labelsIn_settledDocument (doc : Document) :
    labelsIn (settledDocument doc) = labelsIn doc := by
  rw [labelsIn, settledDocument, List.flatMap_map, labelsIn]
  refine List.flatMap_congr fun tm _ => ?_
  rw [termMaps_settled, List.flatMap_map]
  exact List.flatMap_congr fun t _ => labelsOf_settled t.2

/-! ## Decoded maps are settled to normal form -/

theorem normal_settled_mk {value : Value} {t : TermType} {d l : String} {span : Span}
    (hconstant : value.isConstant = true → d = "" ∧ l = "") (hvalue : value.settled.Normal) :
    (TermMap.mk (some value) t d l span).settled.Normal := by
  rw [TermMap.settled]
  split <;> rw [TermMap.Normal, Value.isConstant_settled, Value.isJoin_settled]
  · exact ⟨fun _ => ⟨rfl, rfl⟩, fun _ => ⟨rfl, rfl, rfl⟩, hvalue⟩
  · next hj => exact ⟨hconstant, fun h => absurd h hj, hvalue⟩

theorem normal_settled_ofConstant (term : Constant) :
    (TermMap.ofConstant term).settled.Normal := by
  refine normal_settled_mk (fun _ => ⟨rfl, rfl⟩) ?_
  rw [Value.settled, Value.Normal]
  exact term.normal_settled

theorem normalAll_settledAll {ps : List Parameter}
    (h : ∀ p ∈ ps, p.predicate ≠ Property.executes ∧ p.value.settled.Normal) :
    Parameter.NormalAll (Parameter.settledAll ps) := by
  induction ps with
  | nil => trivial
  | cons p rest ih =>
    obtain ⟨name, value⟩ := p
    rw [List.forall_mem_cons] at h
    rw [Parameter.settledAll, Parameter.NormalAll]
    exact ⟨h.1.1, h.1.2, ih h.2⟩

section Decoding

variable {c : Context} {functionAt : Term → String → Trial Value} {path base : String}
  {term : Constant} {prefixes : Option Iri.PrefixTable} {doc : Document}

theorem gives_normal_settled (hv : v.settled.Normal) :
    (decodeAttributes c position n v path).Gives fun tm => tm.settled.Normal := by
  unfold decodeAttributes
  refine .bind_right fun stated => .bind_right fun datatype => .bind_right fun language => ?_
  split
  · refine .bind_right fun tagged => ?_
    split
    · exact .pure (normal_settled_ofConstant tagged)
    · exact gives_refuse
  · next hconstant =>
    refine .pure (normal_settled_mk (fun hc => ?_) hv)
    cases v with
    | constant term => exact absurd rfl (hconstant term)
    | _ => cases hc

/-- **Decoding gives term maps that settle to normal form.** -/
theorem imparts_normal_settled (c : Context) :
    Imparts c (fun _ v => v.settled.Normal) (fun v => v.settled.Normal)
      (fun tm => tm.settled.Normal) where
  constant _ _ := Constant.normal_settled _
  reference _ _ := trivial
  template _ _ := trivial
  join _ _ _ := trivial
  function _ _ hv := hv
  call hps := normalAll_settledAll hps
  attributes _ _ hv := gives_normal_settled hv
  shortcut _ := normal_settled_ofConstant _
  missing := trivial

/-- The edges with one property lead to different terms. -/
theorem Graph.pairwise_edges (qs : List Quad) (n : Term) (p : String) :
    ((Graph.ofQuads qs).edges n [p]).Pairwise fun e e' => e.object ≠ e'.object := by
  have hnodup : (Graph.ofQuads qs).triples.zipIdx.Pairwise fun t t' => t.1 ≠ t'.1 := by
    rw [← List.pairwise_map, List.zipIdx_map_fst]
    exact Graph.nodup_triples qs
  rw [Graph.edges, List.pairwise_filterMap]
  refine hnodup.imp_of_mem fun {t t'} ht ht' hne e he e' he' heq => hne ?_
  have hgraph {t : Quad × Nat} (ht : t ∈ (Graph.ofQuads qs).triples.zipIdx) : t.1.graph = none :=
    (Graph.mem_triples_ofQuads.1 (List.fst_mem_of_mem_zipIdx ht)).2
  obtain ⟨hs, hp, ho, -, hmem⟩ := Graph.edge?_eq_some.1 he
  obtain ⟨hs', hp', ho', -, hmem'⟩ := Graph.edge?_eq_some.1 he'
  rw [List.mem_singleton] at hmem hmem'
  have hgraphs := (hgraph ht).trans (hgraph ht').symm
  obtain ⟨⟨subject, predicate, object, graph⟩, i⟩ := t
  obtain ⟨⟨subject', predicate', object', graph'⟩, i'⟩ := t'
  simp only at hs hp ho hs' hp' ho' hgraphs
  rw [hs, hs', hp, hp', hmem, hmem', ho, ho', heq, hgraphs]

/-- **No class is listed twice.** -/
theorem nodup_decodeClasses (hc : c.graph = Graph.ofQuads qs) (n : Term) :
    (decodeClasses c n).value.Nodup := by
  change (((c.graph.edges n [Property.classOf]).filter _).filterMap fun e => e.object.iri?).Nodup
  have hedges := Graph.pairwise_edges qs n Property.classOf
  rw [← hc] at hedges
  refine (hedges.filter _).filterMap _ fun e e' hne a ha a' ha' heq => hne ?_
  rw [eq_iri ha, eq_iri ha', heq]

/-- The classes of a decoded map are distinct. -/
theorem nodup_classes_decodeTriplesMap (hc : c.graph = Graph.ofQuads qs) (n : Term) :
    (decodeTriplesMap c functionAt n).value.subject.classes.Nodup := by
  have hsubject (e : Edge) :
      (decodeSubject c functionAt e).Gives fun subject => subject.classes.Nodup := by
    unfold decodeSubject
    split
    · exact .bind_right fun term => .pure List.nodup_nil
    · split
      · exact gives_refuse
      · refine .bind_right fun term => .bind (.lift (nodup_decodeClasses hc e.object))
          fun classes hclasses => .bind_right fun graphs => .pure hclasses
  change ((decodeOwnSubject c functionAt n).value.getD {}).classes.Nodup
  cases hvalue : (decodeOwnSubject c functionAt n).value with
  | none => exact List.nodup_nil
  | some subject =>
    obtain ⟨e, he⟩ := exists_decodeSubject hvalue
    exact hsubject e subject he

/-- A node states one tag at most, and none beside a join. -/
structure Graph.Unmixed (g : Graph) : Prop where
  tags : ∀ {n d l : Term}, g.Leads n Property.datatype d → ¬ g.Leads n Property.language l
  joins : ∀ {n t o : Term} {p : String}, g.Leads n Property.parentTriplesMap t →
    p ∈ Property.attributes → ¬ g.Leads n p o

/-- A constant with tags its kind allows is settled. -/
theorem settled_constant (hboth : term.datatype = "" ∨ term.language = "")
    (hkind : term.kind ≠ .literal → term.datatype = "" ∧ term.language = "") :
    term.settled = term := by
  obtain ⟨kind, value, datatype, language⟩ := term
  cases kind with
  | iri | blankNode =>
    obtain ⟨hd, hl⟩ := hkind (by simp)
    cases hd
    cases hl
    rfl
  | literal =>
    rcases hboth with hd | hl
    · cases hd
      exact congrArg (Constant.mk .literal value · language) (ite_self "")
    · cases hl
      rfl

/-- A kind is stated by a triple. -/
theorem gives_decodeStated : (decodeStated c n path).Gives fun stated =>
    stated ≠ none → ∃ o, c.graph.Leads n Property.termType o := by
  unfold decodeStated
  split
  · exact .pure fun hne => absurd rfl hne
  · next e he =>
    have hmem : e ∈ c.graph.edges n [Property.termType] := by
      rw [he]
      exact List.mem_singleton_self e
    obtain ⟨hl, hp⟩ := Graph.leads_of_mem_edges hmem
    rw [List.mem_singleton.1 hp] at hl
    split
    · exact .bind_right fun _ => .pure fun _ => ⟨_, hl⟩
    · exact gives_refuse
  · exact gives_refuse

/-- The value at a node is settled, and a join is stated. -/
def SettledValue (g : Graph) (n : Term) (v : Value) : Prop :=
  v.settled = v ∧ (v.isJoin = true → ∃ t, g.Leads n Property.parentTriplesMap t)

theorem gives_settled_tagConstant {datatype language : String} (hterm : term.settled = term)
    (hboth : datatype = "" ∨ language = "") :
    (tagConstant c term datatype language path).Gives fun term => term.settled = term := by
  unfold tagConstant
  split
  · exact .pure hterm
  · split
    · exact gives_refuse
    · next hplain =>
      simp only [ne_eq, decide_not, Bool.or_eq_true, Bool.not_eq_true', decide_eq_false_iff_not,
        not_or, not_not] at hplain
      exact .pure (settled_constant hboth fun hkind => absurd hplain.1.1 hkind)

/-- Unmixed attributes beside a settled value are settled. -/
theorem gives_settled (hg : c.graph.Unmixed) (hv : SettledValue c.graph n v) :
    (decodeAttributes c position n v path).Gives fun tm => tm.settled = tm := by
  unfold decodeAttributes
  refine gives_decodeStated.bind fun stated hstated => ?_
  refine gives_property.bind fun datatype hdatatype => ?_
  refine gives_property.bind fun language hlanguage => ?_
  have hboth : datatype = "" ∨ language = "" := by
    by_contra hno
    rw [not_or] at hno
    obtain ⟨d, hd, -⟩ := hdatatype hno.1
    obtain ⟨l, hl, -⟩ := hlanguage hno.2
    exact hg.tags hd hl
  split
  · next term =>
    have hterm : term.settled = term := Value.constant.inj hv.1
    refine (gives_settled_tagConstant hterm hboth).bind fun tagged htagged => ?_
    split
    · refine .pure ?_
      rw [TermMap.settled, Value.settled, htagged]
      rfl
    · exact gives_refuse
  · refine .pure ?_
    rw [TermMap.settled, hv.1]
    split
    · next hj =>
      -- nothing is stated beside a join
      obtain ⟨t, ht⟩ := hv.2 hj
      have hd : datatype = "" := by
        by_contra hne
        obtain ⟨d, hd, -⟩ := hdatatype hne
        exact hg.joins ht (by decide) hd
      have hl : language = "" := by
        by_contra hne
        obtain ⟨l, hl, -⟩ := hlanguage hne
        exact hg.joins ht (by decide) hl
      have hs : stated = none := by
        by_contra hne
        obtain ⟨o, ho⟩ := hstated hne
        exact hg.joins ht (by decide) ho
      rw [hd, hl, hs]
      cases v with
      | join parent conditions => cases position <;> rfl
      | constant _ | reference _ | template _ | function _ _ => cases hj
    · rfl

theorem settledAll_eq {ps : List Parameter} (h : ∀ p ∈ ps, p.value.settled = p.value) :
    Parameter.settledAll ps = ps := by
  induction ps with
  | nil => rw [Parameter.settledAll]
  | cons p rest ih =>
    obtain ⟨name, value⟩ := p
    rw [List.forall_mem_cons] at h
    rw [Parameter.settledAll, h.1, ih h.2]

/-- **Where nothing is mixed, decoding gives settled term maps.** -/
theorem imparts_settled {g : Graph} (hg : g.Unmixed) (ids : List (Term × String)) (id : String) :
    Imparts ⟨g, ids, id⟩ (SettledValue g) (fun v => v.settled = v ∧ v.isJoin = false)
      (fun tm => tm.settled = tm) where
  constant _ hterm := by
    obtain ⟨hboth, hkind⟩ := tags_constantOf hterm
    refine ⟨?_, fun hj => by cases hj⟩
    rw [Value.settled, settled_constant hboth hkind]
  reference _ _ := ⟨by rw [Value.settled], fun hj => by cases hj⟩
  template _ _ := ⟨by rw [Value.settled], fun hj => by cases hj⟩
  join _ _ ht := ⟨by rw [Value.settled], fun _ => ⟨_, ht⟩⟩
  function _ _ hv := ⟨hv.1, fun hj => absurd (hv.2.symm.trans hj) Bool.false_ne_true⟩
  call hps := ⟨by rw [Value.settled, settledAll_eq fun p hp => (hps p hp).2], rfl⟩
  attributes position path hv := gives_settled hg hv
  shortcut hterm := by
    obtain ⟨hboth, hkind⟩ := tags_constantOf hterm
    rw [TermMap.ofConstant, TermMap.settled, Value.settled, settled_constant hboth hkind]
    rfl
  missing := by rw [TermMap.settled]

theorem PredicateObjectMap.settled_eq {pom : PredicateObjectMap} (hspan : pom.span = {})
    (hp : ∀ tm ∈ pom.predicates, tm.settled = tm) (ho : ∀ tm ∈ pom.objects, tm.settled = tm)
    (hg : ∀ tm ∈ pom.graphs, tm.settled = tm) : pom.settled = pom := by
  have hmap {tms : List TermMap} (h : ∀ tm ∈ tms, tm.settled = tm) :
      tms.map TermMap.settled = tms := (List.map_congr_left h).trans (List.map_id _)
  rw [PredicateObjectMap.settled, hmap hp, hmap ho, hmap hg, ← hspan]

/-- Nothing that is decoded has a position. -/
theorem span_decodeTriplesMap :
    ∀ pom ∈ (decodeTriplesMap c functionAt n).value.predicateObjects, pom.span = {} := by
  refine Attempt.Gives.those fun x hx => ?_
  obtain ⟨i, hi, rfl⟩ := List.mem_mapIdx.1 hx
  unfold decodePair
  exact .bind_right fun _ => .bind_right fun _ => .bind_right fun _ => .bind_right fun _ =>
    .bind_right fun _ => .pure rfl

/-- **Where nothing is mixed, the maps of a decoded document are settled.** -/
theorem settled_of_decode (hg : (Graph.ofQuads qs).Unmixed) (h : decode base prefixes qs = .ok doc)
    : ∀ tm ∈ doc.maps, tm.settled = tm := by
  intro tm htm
  obtain ⟨hterm, hgraphs, hpairs⟩ := (forall_termMaps (P := fun t => t.settled = t)).1
    (Imparts.of_decode (imparts_settled hg) h tm htm)
  obtain ⟨ids, id, n, heq⟩ := exists_decodeTriplesMap h htm
  have hspan : tm.span = {} := by
    rw [heq]
    rfl
  have hsubject : tm.subject.settled = tm.subject := by
    rw [SubjectMap.settled, hterm, (List.map_congr_left hgraphs).trans (List.map_id _)]
  have hpoms : tm.predicateObjects.map PredicateObjectMap.settled = tm.predicateObjects := by
    refine (List.map_congr_left fun pom hpom => ?_).trans (List.map_id _)
    obtain ⟨hp, ho, hg⟩ := hpairs pom hpom
    refine PredicateObjectMap.settled_eq ?_ hp ho hg
    rw [heq] at hpom
    exact span_decodeTriplesMap pom hpom
  rw [TriplesMap.settled, hsubject, hpoms, ← hspan]

/-- **The maps of a decoded document are settled to normal form.** -/
theorem normal_settled_of_decode (h : decode base prefixes qs = .ok doc) :
    ∀ tm ∈ doc.maps, tm.settled.Normal := by
  intro tm htm
  have hmap {tms : List TermMap} (h : ∀ tm ∈ tms, tm.settled.Normal) :
      ∀ tm ∈ tms.map TermMap.settled, tm.Normal := List.forall_mem_map.2 h
  obtain ⟨hterm, hgraphs, hpairs⟩ := (forall_termMaps (P := fun t => t.settled.Normal)).1
    (Imparts.of_decode (fun _ _ => imparts_normal_settled _) h tm htm)
  refine ⟨hterm, ?_, hmap hgraphs, fun pom hpom => ?_⟩
  · obtain ⟨ids, id, n, rfl⟩ := exists_decodeTriplesMap h htm
    exact nodup_classes_decodeTriplesMap rfl n
  · obtain ⟨pom', hmem, rfl⟩ := List.mem_map.1 hpom
    obtain ⟨hpredicates, hobjects, hgraphs⟩ := hpairs pom' hmem
    exact ⟨hmap hpredicates, hmap hobjects, hmap hgraphs⟩

end Decoding

end RuleGraph

end RdfMapping
