/-
# The order of triples does not matter

A document depends on the set of its triples.  Two lists of quads with the same members, in any
order and any number of times, are decoded together or not at all.
-/
import RdfMapping.Proofs.Decoding.Outcome

namespace RdfMapping.RuleGraph

open Iri (PrefixTable)
open Mapping
open Rdf (Term Quad)

/-! ## Identifiers of the same nodes -/

/-- Two identifiers of the same node in two graphs. -/
def SameNode (g g' : Graph) (base id id' : String) : Prop :=
  ∃ n, (n, id) ∈ g.names base ∧ (n, id') ∈ g'.names base

section Names

variable {g g' : Graph} {base : String}

theorem exists_name_of_perm (h : g.triples.Perm g'.triples) {n : Term} {id : String}
    (hn : (n, id) ∈ g.names base) : ∃ id', (n, id') ∈ g'.names base := by
  have hmem : n ∈ g'.anchors := by
    refine (Graph.anchors_perm h).subset ?_
    rw [← g.map_fst_names base]
    exact List.mem_map.2 ⟨_, hn, rfl⟩
  rw [← g'.map_fst_names base] at hmem
  obtain ⟨⟨m, id'⟩, hid', rfl⟩ := List.mem_map.1 hmem
  exact ⟨id', hid'⟩

theorem lookup_names_of_perm (h : g.triples.Perm g'.triples) :
    ∀ n id, (g.names base).lookup n = some id →
      ∃ id', (g'.names base).lookup n = some id' ∧ SameNode g g' base id id' := by
  intro n id hid
  rw [Graph.lookup_names_iff] at hid
  obtain ⟨id', hid'⟩ := exists_name_of_perm h hid
  exact ⟨id', Graph.lookup_names_iff.2 hid', n, hid, hid'⟩

theorem names_reordered (h : g.triples.Perm g'.triples) :
    Reordered (fun a b => a.1 = b.1 ∧ SameNode g g' base a.2 b.2) (g.names base)
      (g'.names base) := by
  have hfst : ((g.names base).map Prod.fst).Perm ((g'.names base).map Prod.fst) := by
    rw [g.map_fst_names, g'.map_fst_names]
    exact Graph.anchors_perm h
  refine (Reordered.of_perm_map hfst).mono_mem ?_
  rintro ⟨n, id⟩ hn ⟨m, id'⟩ hm hnm
  cases hnm
  exact ⟨rfl, n, hn, hm⟩

/-- Nodes that suggest distinct identifiers have the same ones in both graphs. -/
theorem eq_of_sameNode (h : g.triples.Perm g'.triples)
    (hsome : ∀ n ∈ g.anchors, (readableId? (chooseBase base g.anchors) n).isSome = true)
    (hnodup : (g.anchors.map (readableId? (chooseBase base g.anchors))).Nodup) {id id' : String}
    (hid : SameNode g g' base id id') : id = id' := by
  let name (n : Term) : String := (readableId? (chooseBase base g.anchors) n).getD ""
  have hperm := Graph.anchors_perm h
  have hbase := chooseBase_eq_of_perm base hperm
  have hname : ∀ n ∈ g.anchors,
      readableId? (chooseBase base g.anchors) n = some (name n) := by
    intro n hn
    obtain ⟨id, hid⟩ := Option.isSome_iff_exists.1 (hsome n hn)
    change _ = some ((readableId? (chooseBase base g.anchors) n).getD "")
    rw [hid]
    rfl
  have hmap : (g.anchors.map name).Nodup := by
    have hsomes : g.anchors.map (readableId? (chooseBase base g.anchors)) =
        (g.anchors.map name).map some := by
      rw [List.map_map]
      exact List.map_congr_left hname
    rw [hsomes] at hnodup
    exact hnodup.of_map some
  have hids : assignIds (chooseBase base g.anchors) g.anchors = g.anchors.map name :=
    assignIds_eq_map hname hmap
  have hids' : assignIds (chooseBase base g'.anchors) g'.anchors = g'.anchors.map name := by
    rw [← hbase]
    exact assignIds_eq_map (fun n hn => hname n (hperm.symm.subset hn))
      ((hperm.map name).nodup_iff.1 hmap)
  have hzip {nodes : List Term} {n : Term} {id : String}
      (hmem : (n, id) ∈ nodes.zip (nodes.map name)) : id = name n := by
    obtain ⟨i, hi, heq⟩ := List.mem_iff_getElem.1 hmem
    rw [List.getElem_zip, List.getElem_map] at heq
    cases heq
    rfl
  obtain ⟨n, hn, hn'⟩ := hid
  rw [Graph.names, hids] at hn
  rw [Graph.names, hids'] at hn'
  rw [hzip hn, hzip hn']

end Names

/-! ## Documents of the same triples -/

/-- Decoding a list of quads, with the parts of the answer named. -/
theorem decode_eq_ok_iff {base : String} {prefixes : Option PrefixTable} {qs : List Quad}
    {doc : Document} :
    let g := Graph.ofQuads qs
    let maps := decodeMaps g.functionCount g (g.names base)
    let made := assemble (chooseBase base g.anchors) prefixes g maps.value
    decode base prefixes qs = .ok doc ↔
      Clean maps.notes ∧ g.named = [] ∧ (∀ q ∈ g.triples, Uses g maps.notes q) ∧
        made.isValid = true ∧ doc = made.freeze := by
  intro g maps made
  rw [decode, decodeWithin_eq]
  exact conclude_eq_ok_iff (sourcesAgree_decodeMaps _ _ _) (Graph.nodup_triples qs)

/-- **A list with the same members is decoded as well**, up to order. -/
theorem decode_of_same_members {base : String} {prefixes : Option PrefixTable}
    {qs qs' : List Quad} (hsame : ∀ q, q ∈ qs ↔ q ∈ qs')
    (hne : ∀ q ∈ qs, q.object ≠ .iri "") {doc : Document}
    (hdoc : decode base prefixes qs = .ok doc) :
    ∃ doc', decode base prefixes qs' = .ok doc' ∧ doc.Indexed ∧ doc'.Indexed ∧
      doc.base = doc'.base ∧ doc.dialect = doc'.dialect ∧
      Reordered (TriplesMap.Alike (SameNode (.ofQuads qs) (.ofQuads qs') base)) doc.maps
        doc'.maps := by
  let g := Graph.ofQuads qs
  let g' := Graph.ofQuads qs'
  have hperm : g.triples.Perm g'.triples := Graph.triples_perm hsame
  have hbase : chooseBase base g.anchors = chooseBase base g'.anchors :=
    chooseBase_eq_of_perm base (Graph.anchors_perm hperm)
  have hcount : g.functionCount = g'.functionCount := hperm.countP_eq _
  have hdialect : dialectOf g = dialectOf g' := by
    rw [dialectOf, dialectOf, Graph.uses, Graph.uses, Graph.uses, Graph.uses, hperm.any_eq,
      hperm.any_eq]
  obtain ⟨hclean, hnamed, huses, hvalid, rfl⟩ := decode_eq_ok_iff.1 hdoc
  have hneg : ∀ q ∈ g.triples, q.object ≠ .iri "" := fun q hq =>
    hne q (Graph.mem_triples_ofQuads.1 hq).1
  have hfollows : Follows g g' (Reordered (TriplesMap.Alike (SameNode g g' base)))
      (decodeMaps g.functionCount g (g.names base))
      (decodeMaps g'.functionCount g' (g'.names base)) := by
    rw [← hcount]
    exact Follows.decodeMaps hperm hneg (lookup_names_of_perm hperm) (names_reordered hperm) _
  obtain ⟨hclean', hmaps, huses'⟩ := hfollows hclean
  obtain ⟨hindexed, hm, hb, hd⟩ := assemble_spec base prefixes g g.functionCount
  obtain ⟨hindexed', hm', hb', hd'⟩ := assemble_spec base prefixes g' g'.functionCount
  rw [← hm, ← hm'] at hmaps
  refine ⟨_, decode_eq_ok_iff.2 ⟨hclean', ?_, ?_, ?_, rfl⟩, ⟨hindexed.nodup, hindexed.index⟩,
    ⟨hindexed'.nodup, hindexed'.index⟩, ?_, ?_, hmaps⟩
  · rw [Graph.named_ofQuads_eq_nil_iff] at hnamed ⊢
    exact fun q hq => hnamed q ((hsame q).2 hq)
  · intro q hq
    exact huses' q (huses q (hperm.symm.subset hq))
  · -- the identifiers are valid and distinct, and joins refer to them
    rw [Document.isValid_iff] at hvalid ⊢
    refine ⟨by rw [hb']; exact chooseBase_ne_empty _ _, hindexed'.nodup, fun tm' htm' => ?_⟩
    obtain ⟨tm, htm, halike⟩ := hmaps.exists_of_mem_right htm'
    refine TriplesMap.Ok.of_alike ?_ halike ?_ (hvalid.2.2 tm htm)
    · rintro p q ⟨n, -, hq⟩ -
      refine hindexed'.lookup?_isSome_iff.2 ?_
      rw [Document.ids, hm', ids_decodeMaps]
      exact List.mem_map.2 ⟨_, hq, rfl⟩
    · obtain ⟨n, -, hq⟩ := halike.id
      have hmem : tm'.id ∈ (g'.names base).map Prod.snd := List.mem_map.2 ⟨_, hq, rfl⟩
      rw [g'.map_snd_names] at hmem
      exact isValidId_of_mem_assignIds hmem
  · exact hb.trans (hbase.trans hb'.symm)
  · exact hd.trans (hdialect.trans hd'.symm)

/-- **Decoding depends on the set of triples only.**  Of two lists of quads with the same members
both are decoded or none; and if the nodes of the triples maps suggest distinct identifiers, the
two documents have the same base, dialect and identifiers, and the maps with the same identifier
agree up to the order of their lists. -/
theorem decode_ok_iff_of_same_members (base : String) (prefixes : Option PrefixTable)
    {qs qs' : List Quad} (hsame : ∀ q, q ∈ qs ↔ q ∈ qs')
    (hne : ∀ q ∈ qs, q.object ≠ .iri "") :
    ((∃ doc, decode base prefixes qs = .ok doc) ↔ ∃ doc, decode base prefixes qs' = .ok doc) ∧
    ∀ doc doc', decode base prefixes qs = .ok doc → decode base prefixes qs' = .ok doc' →
      (∀ n ∈ (Graph.ofQuads qs).anchors,
        (readableId? (chooseBase base (Graph.ofQuads qs).anchors) n).isSome = true) →
      ((Graph.ofQuads qs).anchors.map
        (readableId? (chooseBase base (Graph.ofQuads qs).anchors))).Nodup →
      doc.base = doc'.base ∧ doc.dialect = doc'.dialect ∧ doc.ids.Perm doc'.ids ∧
        ∀ id tm, doc.lookup? id = some tm →
          ∃ tm', doc'.lookup? id = some tm' ∧ tm.Alike Eq tm' := by
  refine ⟨⟨?_, ?_⟩, ?_⟩
  · rintro ⟨doc, hdoc⟩
    obtain ⟨doc', hdoc', -⟩ := decode_of_same_members hsame hne hdoc
    exact ⟨doc', hdoc'⟩
  · rintro ⟨doc', hdoc'⟩
    obtain ⟨doc, hdoc, -⟩ := decode_of_same_members (fun q => (hsame q).symm)
      (fun q hq => hne q ((hsame q).2 hq)) hdoc'
    exact ⟨doc, hdoc⟩
  · intro doc doc' hdoc hdoc' hsome hnodup
    obtain ⟨made, hmade, hindexed, hindexed', hbase, hdialect, hmaps⟩ :=
      decode_of_same_members hsame hne hdoc
    cases hdoc'.symm.trans hmade
    have hperm := Graph.triples_perm hsame
    have halike : Reordered (TriplesMap.Alike Eq) doc.maps doc'.maps :=
      hmaps.mono fun _ _ => TriplesMap.Alike.mono fun _ _ => eq_of_sameNode hperm hsome hnodup
    refine ⟨hbase, hdialect, ?_, fun id tm htm => ?_⟩
    · rw [← Reordered.eq_iff_perm]
      exact halike.map fun _ _ h => h.id
    · obtain ⟨hmem, rfl⟩ := hindexed.lookup?_eq_some_iff.1 htm
      obtain ⟨tm', hmem', h⟩ := halike.exists_of_mem_left hmem
      exact ⟨tm', hindexed'.lookup?_eq_some_iff.2 ⟨hmem', h.id.symm⟩, h⟩

/-! ## Two maps in two orders -/

/-- Two triples maps, one of which joins the other. -/
def joinedMaps : List Quad :=
  let triple (s : Term) (p : String) (o : Term) : Quad :=
    { subject := s, predicate := .iri p, object := o }
  let node (name : String) : Term := .iri ("http://ex.org/" ++ name)
  [triple (node "child") Property.predicateObjectMap (.blank "pair"),
    triple (.blank "pair") Property.predicate (node "of"),
    triple (.blank "pair") Property.objectMap (.blank "join"),
    triple (.blank "join") Property.parentTriplesMap (node "parent"),
    triple (.blank "join") Property.joinCondition (.blank "condition"),
    triple (.blank "condition") Property.child (.ofText "parent_id"),
    triple (.blank "condition") Property.parent (.ofText "id"),
    triple (node "child") Property.logicalSource (.blank "children"),
    triple (.blank "children") Property.source (.ofText "children.csv"),
    triple (node "child") Property.subject (node "someone"),
    triple (node "parent") Property.logicalSource (.blank "parents"),
    triple (.blank "parents") Property.source (.ofText "parents.csv"),
    triple (node "parent") Property.subject (node "anyone")]

theorem anchors_joinedMaps :
    (Graph.ofQuads joinedMaps).anchors =
      [.iri "http://ex.org/child", .iri "http://ex.org/parent"] := by
  have hsourced : (Graph.ofQuads joinedMaps).sourced =
      [.iri "http://ex.org/child", .iri "http://ex.org/parent"] := by decide +kernel
  rw [Graph.anchors, hsourced]
  exact List.mergeSort_of_pairwise (by decide +kernel)

/-- Read backwards, the two maps make a document that agrees with the one read forwards. -/
theorem decode_joinedMaps_reverse :
    ∃ doc doc', decode "" none joinedMaps = .ok doc ∧
      decode "" none joinedMaps.reverse = .ok doc' ∧ doc.ids.Perm doc'.ids ∧
      ∀ id tm, doc.lookup? id = some tm →
        ∃ tm', doc'.lookup? id = some tm' ∧ tm.Alike Eq tm' := by
  have hsame : ∀ q, q ∈ joinedMaps ↔ q ∈ joinedMaps.reverse := fun q => List.mem_reverse.symm
  have hne : ∀ q ∈ joinedMaps, q.object ≠ .iri "" := by decide
  obtain ⟨hiff, hboth⟩ := decode_ok_iff_of_same_members "" none hsame hne
  have hok : (decode "" none joinedMaps).isOk = true := by
    unfold decode decodeWithin
    simp only [anchors_joinedMaps]
    decide +kernel
  obtain ⟨doc, hdoc⟩ : ∃ doc, decode "" none joinedMaps = .ok doc := by
    cases h : decode "" none joinedMaps with
    | ok doc => exact ⟨doc, rfl⟩
    | error e =>
      rw [h] at hok
      cases hok
  obtain ⟨doc', hdoc'⟩ := hiff.1 ⟨doc, hdoc⟩
  obtain ⟨-, -, hids, hmaps⟩ := hboth doc doc' hdoc hdoc'
    (by rw [anchors_joinedMaps]; decide +kernel) (by rw [anchors_joinedMaps]; decide +kernel)
  exact ⟨doc, doc', hdoc, hdoc', hids, hmaps⟩

end RdfMapping.RuleGraph
