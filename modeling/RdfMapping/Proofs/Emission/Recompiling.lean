/-
# Round trips

A document is written as triples and decoded again, over and over.  The first round trip may forget
something; from then on only the order of the maps changes, and with each round trip one more place
is final.
-/
import RdfMapping.Proofs.Emission.Mentions
import RdfMapping.Proofs.Emission.Settled
import RdfMapping.Proofs.Emission.WellFormed

namespace RdfMapping.RuleGraph

open Mapping
open Iri (PrefixTable)
open Rdf (Term Quad)

variable {base : String} {prefixes : Option PrefixTable} {doc doc' : Document} {qs : List Quad}

/-- A round trip of a document, under a base. -/
def recompile (base : String) (prefixes : Option PrefixTable) (doc : Document) : Option Document :=
  match emit doc .rml with
  | .ok ts => (decode base prefixes ts).toOption
  | .error _ => none

theorem recompile_eq_some_iff :
    recompile base prefixes doc = some doc' ↔
      decode base prefixes (triplesOf doc .rml) = .ok doc' := by
  change (decode base prefixes (triplesOf doc .rml)).toOption = some doc' ↔ _
  cases decode base prefixes (triplesOf doc .rml) with
  | ok d =>
    exact ⟨fun h => congrArg Except.ok (Option.some.inj h),
      fun h => congrArg some (Except.ok.inj h)⟩
  | error e => exact ⟨fun h => (nomatch h), fun h => (nomatch h)⟩

/-- Documents decoded under a base are equal if their maps are. -/
theorem eq_of_decode {qs' : List Quad} (hbase : base ≠ "") (h : decode base prefixes qs = .ok doc)
    (h' : decode base prefixes qs' = .ok doc') (hmaps : doc.maps = doc'.maps)
    (hdialect : doc.dialect = doc'.dialect) : doc = doc' := by
  obtain ⟨-, -, -, -, rfl⟩ := decode_eq_ok_iff.1 h
  obtain ⟨-, -, -, -, rfl⟩ := decode_eq_ok_iff.1 h'
  obtain ⟨-, hm, -, hd⟩ :=
    assemble_spec base prefixes (.ofQuads qs) (Graph.ofQuads qs).functionCount
  obtain ⟨-, hm', -, hd'⟩ :=
    assemble_spec base prefixes (.ofQuads qs') (Graph.ofQuads qs').functionCount
  have hvalue := hm.symm.trans (hmaps.trans hm')
  have hdialects := hd.symm.trans (hdialect.trans hd')
  have hchoose (ns : List Term) : chooseBase base ns = base := if_neg hbase
  simp only [assemble, emptyDocument, hvalue, hdialects, hchoose]

/-! ## One round trip -/

/-- The nodes of the maps of a document. -/
def nodesOf (base : String) (doc : Document) : List Term :=
  doc.ids.map fun id => .iri (mapIri base id)

/-- A document of which a round trip forgets nothing. -/
structure Regular (base : String) (doc : Document) : Prop where
  indexed : doc.Indexed
  base : doc.base = base
  ok : ∀ tm ∈ doc.maps, tm.Ok fun id => id ∈ doc.ids
  normal : ∀ tm ∈ doc.maps, tm.Normal
  bare : ∀ tm ∈ doc.maps, tm.bare = tm

/-- What the triples of a map mention, in order. -/
def mentionsOf (base : String) (tm : TriplesMap) : List Term :=
  (Sketch.ofTriplesMap ⟨base, .rml, []⟩ tm).mentions [.iri (mapIri base tm.id)]

section Regular

variable {base : String} {prefixes : Option PrefixTable} {doc : Document}

theorem Regular.nodup_nodesOf (h : Regular base doc) : (nodesOf base doc).Nodup :=
  h.indexed.nodup.map fun _ _ heq => mapIri_injective (Term.iri.inj heq)

/-- Nodes tell names apart. -/
theorem eq_of_map_mapIri (base : String) {ids ids' : List String}
    (h : ids.map (fun id => Term.iri (mapIri base id)) =
      ids'.map fun id => Term.iri (mapIri base id)) : ids = ids' :=
  List.map_injective_iff.2 (fun _ _ heq => mapIri_injective (Term.iri.inj heq)) h

theorem Regular.drawable (h : Regular base doc) :
    ∀ tm ∈ doc.maps, Drawable (settingOf doc .rml) tm := by
  intro tm htm
  have hd : Dialect.rml = .r2rml → unsupported doc = [] := fun hd => (nomatch hd)
  exact ⟨h.normal tm htm, triplesMapFits_settingOf hd htm⟩

/-- A round trip keeps the maps, in the order of their mention. -/
structure Reorders (base : String) (doc doc' : Document) : Prop where
  regular : Regular base doc'
  dialect : doc'.dialect = .rml
  perm : doc'.maps.Perm doc.maps
  sorted : (nodesOf base doc').Pairwise fun a b =>
    (Graph.ofQuads (triplesOf doc .rml)).firstMention a <
      (Graph.ofQuads (triplesOf doc .rml)).firstMention b
  nodes : ∀ (p : Term → Bool) (mentions : Term → List Term),
    (∀ n, p n = true ↔ n ∈ nodesOf base doc) →
    (∀ tm ∈ doc.maps, (mentionsOf base tm).filter p =
      .iri (mapIri base tm.id) :: mentions (.iri (mapIri base tm.id))) →
    nodesOf base doc' = mentioned mentions (nodesOf base doc)

/-- **A round trip forgets nothing of a regular document.** -/
theorem Regular.recompile (h : Regular base doc) (hbase : EndsNamespace base)
    (prefixes : Option PrefixTable) :
    ∃ doc', decode base prefixes (triplesOf doc .rml) = .ok doc' ∧ Reorders base doc doc' := by
  have hdraw := h.drawable
  obtain ⟨hindexed, rfl, hok, hnormal, hbare⟩ := h
  let s := settingOf doc .rml
  let g : Graph := ⟨(drawMaps s doc.maps 0).triples, []⟩
  have hnodes : (doc.maps.map s.node).Nodup := nodup_nodes s hindexed.nodup
  have htriples : triplesOf doc .rml = (drawMaps s doc.maps 0).triples :=
    triplesOf_eq_drawMaps fun hd => (nomatch hd)
  have hgraph : Graph.ofQuads (triplesOf doc .rml) = g := by
    rw [htriples]
    exact ofQuads_drawMaps hdraw hnodes
  obtain ⟨doc', hdecode, hindexed', hb, hd, hbares⟩ :=
    decode_drawMaps hdraw hbase hindexed.nodup hok prefixes
  have hperm : (g.mentionOrder s doc.maps).Perm doc.maps := List.mergeSort_perm _ _
  have hmaps : doc'.maps = g.mentionOrder s doc.maps := by
    rw [hbares]
    refine (List.map_congr_left fun tm htm => ?_).trans (List.map_id _)
    exact hbare tm (hperm.subset htm)
  have hmem : ∀ tm ∈ doc'.maps, tm ∈ doc.maps := fun tm htm => hperm.subset (hmaps ▸ htm)
  have hids : ∀ id, id ∈ doc.ids → id ∈ doc'.ids := by
    intro id hid
    rw [Document.ids, hmaps]
    exact (hperm.map TriplesMap.id).symm.subset hid
  have hfrom : nodesOf doc.base doc = doc.maps.map s.node := List.map_map
  have hinto : nodesOf doc.base doc' = (g.mentionOrder s doc.maps).map s.node := by
    rw [nodesOf, Document.ids, hmaps, List.map_map]
    rfl
  refine ⟨doc', htriples ▸ hdecode, ⟨hindexed', hb, fun tm htm => ?_,
    fun tm htm => hnormal tm (hmem tm htm), fun tm htm => hbare tm (hmem tm htm)⟩, ?_, ?_, ?_,
    fun p mentions hp hm => ?_⟩
  · have hsame := (hok tm (hmem tm htm)).of_matches hids tm.matches_bare
    rwa [hbare tm (hmem tm htm)] at hsame
  · rw [hd]
    by_cases hne : doc.maps = []
    · rw [hne]
      rfl
    · exact dialectOf_drawMaps hdraw rfl hne
  · rw [hmaps]
    exact hperm
  · rw [hgraph, hinto]
    exact pairwise_mentionOrder hdraw hnodes rfl
  · rw [hinto, hfrom]
    refine map_node_mentionOrder hdraw hnodes rfl (by rwa [hfrom] at hp) fun tm htm => ?_
    have hsketch : Sketch.ofTriplesMap s tm = Sketch.ofTriplesMap ⟨doc.base, .rml, []⟩ tm :=
      ofTriplesMap_used ⟨doc.base, .rml, []⟩ (labelsIn doc) tm
    rw [hsketch]
    exact hm tm htm

end Regular

/-! ## Round trips one after the other -/

/-- What the map of a node mentions besides itself. -/
def mentionsAt (base : String) (doc : Document) (n : Term) : List Term :=
  match doc.maps.find? fun tm => Term.iri (mapIri base tm.id) == n with
  | some tm => ((mentionsOf base tm).filter (nodesOf base doc).contains).tail
  | none => []

section Run

variable {base : String} {doc : Document}

/-- The mentions of a map start with its own node. -/
theorem filter_mentionsOf (h : doc.Indexed) {tm : TriplesMap} (htm : tm ∈ doc.maps) :
    (mentionsOf base tm).filter (nodesOf base doc).contains =
      .iri (mapIri base tm.id) :: mentionsAt base doc (.iri (mapIri base tm.id)) := by
  have hfind : doc.maps.find? (fun t => Term.iri (mapIri base t.id) == .iri (mapIri base tm.id)) =
      some tm := by
    have hnodup := h.nodup
    obtain ⟨before, after, hsplit⟩ := List.append_of_mem htm
    rw [Document.ids, hsplit, List.map_append, List.map_cons, List.nodup_middle, List.nodup_cons,
      List.mem_append, not_or] at hnodup
    have hnone : before.find? (fun t => Term.iri (mapIri base t.id) == .iri (mapIri base tm.id)) =
        none := by
      rw [List.find?_eq_none]
      intro t ht heq
      have hid : t.id = tm.id := mapIri_injective (Term.iri.inj (eq_of_beq heq))
      exact hnodup.1.1 (List.mem_map.2 ⟨t, ht, hid⟩)
    rw [hsplit, List.find?_append, hnone, Option.none_or]
    exact List.find?_cons_of_pos (beq_self_eq_true _)
  have hmem : (nodesOf base doc).contains (Term.iri (mapIri base tm.id)) = true :=
    List.contains_iff_mem.2 (List.mem_map.2 ⟨tm.id, List.mem_map.2 ⟨tm, htm, rfl⟩, rfl⟩)
  rw [mentionsAt, hfind]
  simp only
  rw [mentionsOf, Sketch.ofTriplesMap, Sketch.mentions, List.singleton_append,
    List.filter_cons_of_pos hmem, List.tail_cons]

theorem Regular.mentionsAt_subset (h : Regular base doc) :
    ∀ n ∈ nodesOf base doc, mentionsAt base doc n ⊆ nodesOf base doc := by
  intro n hn x hx
  obtain ⟨id, hid, rfl⟩ := List.mem_map.1 hn
  obtain ⟨tm, htm, rfl⟩ := List.mem_map.1 hid
  have hmem : x ∈ (mentionsOf base tm).filter (nodesOf base doc).contains := by
    rw [filter_mentionsOf h.indexed htm]
    exact List.mem_cons_of_mem _ hx
  exact List.contains_iff_mem.1 (List.mem_filter.1 hmem).2

/-- **Every round trip of a regular document succeeds.** -/
theorem Regular.run (h : Regular base doc) (hbase : EndsNamespace base)
    (prefixes : Option PrefixTable) :
    ∃ d : Nat → Document, d 0 = doc ∧ ∀ k,
      decode base prefixes (triplesOf (d k) .rml) = .ok (d (k + 1)) ∧
      Reorders base (d k) (d (k + 1)) ∧
      nodesOf base (d k) =
        Nat.iterate (mentioned (mentionsAt base doc)) k (nodesOf base doc) := by
  let next (d : Document) : Document := (RuleGraph.recompile base prefixes d).getD d
  have hnext {d : Document} (hd : Regular base d) :
      decode base prefixes (triplesOf d .rml) = .ok (next d) ∧ Reorders base d (next d) := by
    obtain ⟨d', hdecode, hreorders⟩ := hd.recompile hbase prefixes
    have heq : next d = d' := congrArg (Option.getD · d) (recompile_eq_some_iff.2 hdecode)
    rw [heq]
    exact ⟨hdecode, hreorders⟩
  -- along the run the maps are those of the first document, in the order of the rounds so far
  have hrun (k : Nat) : Regular base (Nat.iterate next k doc) ∧
      (Nat.iterate next k doc).maps.Perm doc.maps ∧
      nodesOf base (Nat.iterate next k doc) =
        Nat.iterate (mentioned (mentionsAt base doc)) k (nodesOf base doc) := by
    induction k with
    | zero => exact ⟨h, .refl _, rfl⟩
    | succ k ih =>
      obtain ⟨hregular, hperm, hnodes⟩ := ih
      rw [Function.iterate_succ_apply', Function.iterate_succ_apply', ← hnodes]
      have hstep := (hnext hregular).2
      refine ⟨hstep.regular, hstep.perm.trans hperm, hstep.nodes (nodesOf base doc).contains _
        (fun n => ?_) fun tm htm => filter_mentionsOf h.indexed (hperm.subset htm)⟩
      rw [List.contains_iff_mem]
      exact ((hperm.map TriplesMap.id).map _).mem_iff.symm
  refine ⟨fun k => Nat.iterate next k doc, rfl, fun k => ?_⟩
  obtain ⟨hregular, -, hnodes⟩ := hrun k
  have hstep := hnext hregular
  rw [← Function.iterate_succ_apply' next] at hstep
  exact ⟨hstep.1, hstep.2, hnodes⟩

/-- What is known of every document that is decoded under a base. -/
theorem spec_of_decode (hbase : base ≠ "") (h : decode base prefixes qs = .ok doc) :
    doc.Indexed ∧ doc.base = base ∧ doc.dialect = dialectOf (.ofQuads qs) ∧
      ∀ tm ∈ doc.maps, tm.Ok fun id => id ∈ doc.ids := by
  obtain ⟨-, -, -, hvalid, heq⟩ := decode_eq_ok_iff.1 h
  obtain ⟨hindexed, -, hb, hd⟩ :=
    assemble_spec base prefixes (.ofQuads qs) (Graph.ofQuads qs).functionCount
  have hok := ok_of_valid hindexed hvalid
  rw [heq]
  exact ⟨⟨hindexed.nodup, hindexed.index⟩, hb.trans (if_neg hbase), hd, hok⟩

/-- **The settled form of a document is written in the same way.** -/
theorem triplesOf_settledDocument (doc : Document) :
    triplesOf (settledDocument doc) .rml = triplesOf doc .rml := by
  have hd : ∀ d : Document, Dialect.rml = .r2rml → unsupported d = [] := fun _ hd => (nomatch hd)
  rw [triplesOf_eq_drawMaps (hd _), triplesOf_eq_drawMaps (hd _)]
  have hsetting : settingOf (settledDocument doc) .rml = settingOf doc .rml := by
    rw [settingOf, labelsIn_settledDocument]
    rfl
  rw [hsetting, drawMaps, settledDocument, Step.each_map]
  refine congrArg (fun step : Step Unit => (step 0).triples) (Step.each_congr fun tm _ => ?_)
  rw [drawMap, ofTriplesMap_settled]
  rfl

/-- **The settled form of a document is regular** if it is in normal form. -/
theorem regular_settledDocument (hindexed : doc.Indexed)
    (hok : ∀ tm ∈ doc.maps, tm.Ok fun id => id ∈ doc.ids)
    (hnormal : ∀ tm ∈ doc.maps, tm.settled.Normal) : Regular doc.base (settledDocument doc) := by
  have hids := ids_settledDocument doc
  have hmaps {P : TriplesMap → Prop} (hP : ∀ tm ∈ doc.maps, P tm.settled) :
      ∀ tm ∈ (settledDocument doc).maps, P tm := List.forall_mem_map.2 hP
  refine ⟨⟨hids ▸ hindexed.nodup, hids ▸ hindexed.index⟩, rfl, hmaps fun tm htm => ?_,
    hmaps hnormal, hmaps fun tm _ => tm.bare_settled⟩
  rw [hids]
  exact (hok tm htm).settled

end Run

/-! ## The first round trip -/

/-- Lists of maps with identifiers of their own are told apart by the identifiers. -/
theorem eq_of_map_id_eq {maps maps₁ maps₂ : List TriplesMap} (h : (maps.map TriplesMap.id).Nodup)
    (h₁ : maps₁ ⊆ maps) (h₂ : maps₂ ⊆ maps)
    (hids : maps₁.map TriplesMap.id = maps₂.map TriplesMap.id) : maps₁ = maps₂ := by
  refine List.ext_getElem (by simpa using congrArg List.length hids) fun i hi hi' => ?_
  refine List.inj_on_of_nodup_map h (h₁ (List.getElem_mem hi)) (h₂ (List.getElem_mem hi')) ?_
  have hid : (maps₁.map TriplesMap.id)[i]? = (maps₂.map TriplesMap.id)[i]? := by rw [hids]
  simpa [hi, hi'] using hid

/-- **With each round trip one more map is in its final place.** -/
theorem Regular.settles (h : Regular base doc) (hbase : EndsNamespace base)
    (prefixes : Option PrefixTable) :
    ∃ d : Nat → Document, d 0 = doc ∧ ∀ k,
      decode base prefixes (triplesOf (d k) .rml) = .ok (d (k + 1)) ∧
      Reorders base (d k) (d (k + 1)) ∧
      (d (k + 1)).maps.take (k + 1) = (d k).maps.take (k + 1) := by
  obtain ⟨d, hzero, hrun⟩ := h.run hbase prefixes
  have hregular (k : Nat) : Regular base (d k) := by
    cases k with
    | zero => exact hzero ▸ h
    | succ k => exact (hrun k).2.1.regular
  refine ⟨d, hzero, fun k => ⟨(hrun k).1, (hrun k).2.1, ?_⟩⟩
  have hnodes := take_iterate_mentioned h.nodup_nodesOf h.mentionsAt_subset k
  rw [← (hrun k).2.2, ← (hrun (k + 1)).2.2, nodesOf, nodesOf, ← List.map_take, ← List.map_take]
    at hnodes
  have hids := eq_of_map_mapIri _ hnodes
  rw [Document.ids, Document.ids, ← List.map_take, ← List.map_take] at hids
  refine eq_of_map_id_eq (hregular k).indexed.nodup (fun tm htm => ?_) (List.take_subset _ _) hids
  exact (hrun k).2.1.perm.subset (List.take_subset _ _ htm)

/-- A property that a sketch avoids is on no triple of its node. -/
theorem Sketch.Avoids.predicate_ne {ps : List String} {s : Sketch} {ts : List Quad} {n : Term}
    (h : s.Avoids ps) (hout : Outlined ts n s) {q : Quad} (hq : q ∈ ts) (hn : q.subject = n)
    {p : String} (hp : p ∈ ps) : q.predicate ≠ .iri p := by
  intro hpred
  obtain ⟨e, he, hend, -⟩ := hout.exists_end hq hn
  exact h e he (Term.iri.inj (hpred.symm.trans hend) ▸ hp)

/-- **What a node of a valid document states goes together.** -/
theorem unmixed_of_valid (hindexed : doc.Indexed) (hvalid : doc.isValid = true) :
    (Graph.ofQuads (triplesOf doc .rml)).Unmixed := by
  have hrml : Dialect.rml = .r2rml → unsupported doc = [] := fun hd => (nomatch hd)
  obtain ⟨⟨m, hcomposed⟩, hout⟩ := composed_of_valid hindexed hvalid hrml
  have hnode {q : Quad} (hq : q ∈ triplesOf doc .rml) :
      ∃ s : Sketch, s.Exclusive ∧ Outlined (triplesOf doc .rml) q.subject s := by
    rcases hcomposed.subjects q hq with hroot | ⟨hf, q', hq', ho⟩
    · obtain ⟨tm, htm, htn⟩ := List.mem_map.1 hroot
      exact ⟨_, avoids_ofTriplesMap.exclusive, htn ▸ hout tm htm⟩
    · obtain ⟨p, inner, hinner, -, hshown⟩ := hcomposed.exists_node hq' (ho ▸ hf)
      exact ⟨inner, hinner.exclusive, ho ▸ hshown⟩
  constructor
  · rintro n d l ⟨q, hq, rfl, hqp, -⟩ ⟨r, hr, hrs, hrp, -⟩
    obtain ⟨hq, -⟩ := Graph.mem_triples_ofQuads.1 hq
    obtain ⟨hr, -⟩ := Graph.mem_triples_ofQuads.1 hr
    obtain ⟨s, hexclusive, hshown⟩ := hnode hq
    rcases hexclusive.1 with hnone | hnone
    · exact hnone.predicate_ne hshown hq rfl (List.mem_singleton_self _) hqp
    · exact hnone.predicate_ne hshown hr hrs (List.mem_singleton_self _) hrp
  · rintro n t o p ⟨q, hq, rfl, hqp, -⟩ hp ⟨r, hr, hrs, hrp, -⟩
    obtain ⟨hq, -⟩ := Graph.mem_triples_ofQuads.1 hq
    obtain ⟨hr, -⟩ := Graph.mem_triples_ofQuads.1 hr
    obtain ⟨s, hexclusive, hshown⟩ := hnode hq
    rcases hexclusive.2 with hnone | hnone
    · exact hnone.predicate_ne hshown hq rfl (List.mem_singleton_self _) hqp
    · exact hnone.predicate_ne hshown hr hrs hp hrp

/-- What is written in the language of sources beyond tables is decoded as such. -/
theorem dialectOf_triplesOf (doc : Document) :
    dialectOf (Graph.ofQuads (triplesOf doc .rml)) = .rml := by
  have htriples : triplesOf doc .rml = (drawMaps (settingOf doc .rml) doc.maps 0).triples :=
    triplesOf_eq_drawMaps fun hd => (nomatch hd)
  rw [htriples]
  cases hmaps : doc.maps with
  | nil => rfl
  | cons tm rest =>
    have hbeyond : (Graph.ofQuads (drawMaps (settingOf doc .rml) (tm :: rest) 0).triples).uses
        Property.beyondRelational = true := by
      -- the first triple of a map leads to its source
      rw [triples_drawMaps_cons, drawMap, Sketch.ofTriplesMap, Sketch.triples_link]
      exact List.any_eq_true.2
        ⟨_, Graph.mem_triples_ofQuads.2 ⟨List.mem_cons_self, rfl⟩, rfl⟩
    rw [dialectOf, hbeyond, Bool.not_true, Bool.and_false]
    rfl

/-- **After one round trip a valid document is regular.** -/
theorem regular_of_decode {d₁ : Document} (hindexed : doc.Indexed) (hvalid : doc.isValid = true)
    (hbase : doc.base ≠ "") (h : decode doc.base prefixes (triplesOf doc .rml) = .ok d₁) :
    Regular doc.base d₁ := by
  obtain ⟨hindexed₁, hb, -, hok⟩ := spec_of_decode hbase h
  have hsettled : settledDocument d₁ = d₁ := by
    have hmaps := settled_of_decode (unmixed_of_valid hindexed hvalid) h
    exact congrArg (fun maps => { d₁ with maps })
      ((List.map_congr_left hmaps).trans (List.map_id _))
  rw [← hsettled, ← hb]
  exact regular_settledDocument hindexed₁ hok (normal_settled_of_decode h)

/-- **The order of the maps settles.**  If a valid document is written and decoded under its base,
all further round trips succeed.  Each lists the same maps, in the order in which the triples first
mention them, and leaves one more of the first maps in its place than the one before.  So the
document no longer changes after as many round trips as it has maps, less one; and less two if the
settled form of the maps is in normal form, so that the first round trip forgets no triple that may
mention a map. -/
theorem recompile_settles {doc d₁ : Document} (hbuilt : doc.Built) (hvalid : doc.isValid = true)
    (hbase : EndsNamespace doc.base) {prefixes : Option PrefixTable}
    (h : recompile doc.base prefixes doc = some d₁) :
    ∃ d : Nat → Document, d 0 = d₁ ∧ ∀ k,
      recompile doc.base prefixes (d k) = some (d (k + 1)) ∧
      (d (k + 1)).maps.Perm (d k).maps ∧
      (d (k + 1)).ids.Pairwise (fun a b =>
        (Graph.ofQuads (triplesOf (d k) .rml)).firstMention (.iri ((d k).iriOf a)) <
          (Graph.ofQuads (triplesOf (d k) .rml)).firstMention (.iri ((d k).iriOf b))) ∧
      (d (k + 1)).maps.take (k + 1) = (d k).maps.take (k + 1) ∧
      ((d k).maps.length ≤ k + 2 → d (k + 1) = d k) ∧
      ((∀ tm ∈ doc.maps, tm.settled.Normal) →
        (d (k + 1)).maps.take (k + 2) = (d k).maps.take (k + 2) ∧
          ((d k).maps.length ≤ k + 3 → d (k + 1) = d k)) := by
  have hne := hbase.ne_empty
  have hdecode := recompile_eq_some_iff.1 h
  have hregular := regular_of_decode hbuilt.indexed hvalid hne hdecode
  obtain ⟨-, -, hdialect, -⟩ := spec_of_decode hne hdecode
  obtain ⟨d, hzero, hrun⟩ := hregular.settles hbase prefixes
  have hkept (k : Nat) : (d k).base = doc.base ∧ (d k).dialect = .rml := by
    cases k with
    | zero =>
      rw [hzero]
      exact ⟨hregular.base, hdialect.trans (dialectOf_triplesOf doc)⟩
    | succ k => exact ⟨(hrun k).2.1.regular.base, (hrun k).2.1.dialect⟩
  have hsame {k : Nat} (hmaps : (d (k + 1)).maps = (d k).maps) : d (k + 1) = d k := by
    have hdialects := (hkept (k + 1)).2.trans (hkept k).2.symm
    cases k with
    | zero => exact eq_of_decode hne (hrun 0).1 (hzero ▸ hdecode) hmaps hdialects
    | succ k => exact eq_of_decode hne (hrun (k + 1)).1 (hrun k).1 hmaps hdialects
  refine ⟨d, hzero, fun k => ⟨recompile_eq_some_iff.2 (hrun k).1, (hrun k).2.1.perm, ?_,
    (hrun k).2.2, fun hlen => ?_, fun hnormal => ?_⟩⟩
  · refine (List.pairwise_map.1 (hrun k).2.1.sorted).imp fun {a b} hab => ?_
    rw [Document.iriOf, Document.iriOf, (hkept k).1]
    exact hab
  · exact hsame (eq_of_perm_of_take_eq (hrun k).2.1.perm (hrun k).2.2 hlen)
  · -- the run starts one round trip earlier, with the settled form of the document
    obtain ⟨e, hstart, hearlier⟩ :=
      (regular_settledDocument hbuilt.indexed (ok_of_valid hbuilt.indexed hvalid) hnormal).settles
        hbase prefixes
    have heq (k : Nat) : e (k + 1) = d k := by
      induction k with
      | zero =>
        have hfirst := (hearlier 0).1
        rw [hstart, triplesOf_settledDocument] at hfirst
        exact Except.ok.inj (hfirst.symm.trans (hzero ▸ hdecode))
      | succ k ih => exact Except.ok.inj ((hearlier (k + 1)).1.symm.trans (ih ▸ (hrun k).1))
    have htake := (hearlier (k + 1)).2.2
    rw [heq k, heq (k + 1)] at htake
    exact ⟨htake, fun hlen => hsame (eq_of_perm_of_take_eq (hrun k).2.1.perm htake hlen)⟩

/-! ## Orders that do not settle at once -/

/-- A map that is joined with others. -/
def joinedMap (id : String) (parents : List String) : TriplesMap where
  id := id
  source := { access := id ++ ".csv" }
  subject := { term := { value := some (.template "http://ex.org/\x7bid\x7d") } }
  predicateObjects := parents.map fun parent => {
    predicates := [{ value := some (.constant (.ofIri "http://ex.org/to")) }]
    objects := [{ value := some (.join parent [⟨"to", "id"⟩]) }] }

/-- Four maps: the first is joined with the third, and the third with the fourth. -/
def chainedMaps : Document :=
  (Document.create "http://ex.org/maps/" none).extend
    [joinedMap "a" ["c"], joinedMap "b" [], joinedMap "c" ["d"], joinedMap "d" []]

/-- Three maps, the second of which is a datatype in the first. -/
def taggedMaps : Document :=
  (Document.create "http://ex.org/maps/" none).extend
    [{ joinedMap "a" ["b"] with predicateObjects := {
        predicates := [{ value := some (.constant (.ofIri "http://ex.org/is")) }]
        objects := [{ value := some (.constant (.ofText "x")), termType := .literal
                      datatype := "http://ex.org/maps/c" }] } ::
          (joinedMap "a" ["b"]).predicateObjects },
      joinedMap "c" [], joinedMap "b" []]

/-- A valid document and the orders after two round trips. -/
def Reordered (doc : Document) (ids₁ ids₂ : List String) : Prop :=
  doc.Built ∧ doc.isValid = true ∧ EndsNamespace doc.base ∧
    ∃ d₁ d₂, recompile doc.base none doc = some d₁ ∧ recompile doc.base none d₁ = some d₂ ∧
      d₁.ids = ids₁ ∧ d₂.ids = ids₂

/-- The four maps take two round trips. -/
theorem reordered_chainedMaps :
    Reordered chainedMaps ["a", "c", "b", "d"] ["a", "c", "d", "b"] := by
  have hbuilt : chainedMaps.Built := (Document.Built.create _ _).extend rfl (by decide)
  have hvalid : chainedMaps.isValid = true := by decide +kernel
  have hends : EndsNamespace chainedMaps.base := by decide +kernel
  have hnormal : ∀ tm ∈ chainedMaps.maps, tm.settled.Normal := by decide +kernel
  have hregular :=
    regular_settledDocument hbuilt.indexed (ok_of_valid hbuilt.indexed hvalid) hnormal
  obtain ⟨d, hzero, hrun⟩ := hregular.run hends none
  refine ⟨hbuilt, hvalid, hends, d 1, d 2, ?_, recompile_eq_some_iff.2 (hrun 1).1, ?_, ?_⟩
  · rw [recompile_eq_some_iff, ← triplesOf_settledDocument, ← hzero]
    exact (hrun 0).1
  · refine eq_of_map_mapIri chainedMaps.base ((hrun 1).2.2.trans ?_)
    decide +kernel
  · refine eq_of_map_mapIri chainedMaps.base ((hrun 2).2.2.trans ?_)
    decide +kernel

/-- The three maps take two round trips as well. -/
theorem reordered_taggedMaps : Reordered taggedMaps ["a", "c", "b"] ["a", "b", "c"] := by
  have hbuilt : taggedMaps.Built := (Document.Built.create _ _).extend rfl (by decide)
  have hvalid : taggedMaps.isValid = true := by decide +kernel
  have hends : EndsNamespace taggedMaps.base := by decide +kernel
  have hanchors : (Graph.ofQuads (triplesOf taggedMaps .rml)).anchors =
      nodesOf taggedMaps.base taggedMaps := by
    have hsourced : (Graph.ofQuads (triplesOf taggedMaps .rml)).sourced =
        nodesOf taggedMaps.base taggedMaps := by decide +kernel
    rw [Graph.anchors, hsourced]
    exact List.mergeSort_of_pairwise (by decide +kernel)
  -- the second order is known from what the maps of the first document mention
  have hread : ((decode taggedMaps.base none (triplesOf taggedMaps .rml)).toOption.any fun d₁ =>
      d₁.ids == ["a", "c", "b"] &&
        mentioned (mentionsAt taggedMaps.base d₁) (nodesOf taggedMaps.base d₁) ==
          ["a", "b", "c"].map fun id => .iri (mapIri taggedMaps.base id)) = true := by
    unfold decode decodeWithin
    simp only [hanchors]
    decide +kernel
  rw [Option.any_eq_true] at hread
  obtain ⟨d₁, hfirst, hids⟩ := hread
  rw [Bool.and_eq_true, beq_iff_eq, beq_iff_eq] at hids
  have hregular := regular_of_decode hbuilt.indexed hvalid hends.ne_empty
    (recompile_eq_some_iff.1 hfirst)
  obtain ⟨d, hzero, hrun⟩ := hregular.run hends none
  refine ⟨hbuilt, hvalid, hends, d₁, d 1, hfirst, ?_, hids.1, ?_⟩
  · rw [← hzero]
    exact recompile_eq_some_iff.2 (hrun 0).1
  · exact eq_of_map_mapIri taggedMaps.base ((hrun 1).2.2.trans hids.2)

/-- **The order need not settle with the first round trip.**  Once the third of the four maps comes
second, the fourth is mentioned before the second.  Three maps suffice if the first round trip
forgets a mention: the datatype becomes part of the literal. -/
theorem recompile_reorders :
    Reordered chainedMaps ["a", "c", "b", "d"] ["a", "c", "d", "b"] ∧
      Reordered taggedMaps ["a", "c", "b"] ["a", "b", "c"] :=
  ⟨reordered_chainedMaps, reordered_taggedMaps⟩

/-- The four maps come to rest with the second round trip. -/
theorem recompile_chainedMaps :
    chainedMaps.Built ∧ chainedMaps.isValid = true ∧ EndsNamespace chainedMaps.base ∧
      (∀ tm ∈ chainedMaps.maps, tm.settled.Normal) ∧
      ∃ d₁ d₂, recompile chainedMaps.base none chainedMaps = some d₁ ∧
        recompile chainedMaps.base none d₁ = some d₂ ∧
        recompile chainedMaps.base none d₂ = some d₂ := by
  obtain ⟨hbuilt, hvalid, hbase, d₁, -, hfirst, -, hids, -⟩ := reordered_chainedMaps
  have hnormal : ∀ tm ∈ chainedMaps.maps, tm.settled.Normal := by decide +kernel
  obtain ⟨d, hzero, hrun⟩ := recompile_settles hbuilt hvalid hbase hfirst
  have hlength : (d 1).maps.length = 4 := by
    rw [(hrun 0).2.1.length_eq, hzero, ← List.length_map TriplesMap.id, ← Document.ids, hids]
    rfl
  have hrest : d 2 = d 1 := ((hrun 1).2.2.2.2.2 hnormal).2 (Nat.le_of_eq hlength)
  refine ⟨hbuilt, hvalid, hbase, hnormal, d 0, d 1, ?_, (hrun 0).1, ?_⟩
  · rw [hzero]
    exact hfirst
  · rw [(hrun 1).1, hrest]

end RdfMapping.RuleGraph
