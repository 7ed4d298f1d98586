/-
# Decoding what was emitted

The triples of a document are the drawings of its maps, one after the other.  Each map is shown by
the graph of all triples, so decoding finds every map again.
-/
import RdfMapping.Proofs.Decoding.Order
import RdfMapping.Proofs.Emission.Reading
import RdfMapping.Proofs.Mapping.Sameness

namespace RdfMapping.RuleGraph

open Mapping Iri
open Rdf (Term Quad)

/-! ## Drawing the maps of a document -/

/-- The node of a triples map. -/
def Setting.node (s : Setting) (tm : TriplesMap) : Term :=
  .iri (mapIri s.base tm.id)

/-- Draws a triples map at its node. -/
def drawMap (s : Setting) (tm : TriplesMap) : Step Unit :=
  (Sketch.ofTriplesMap s tm).draw s.used (s.node tm)

/-- Draws triples maps one after the other. -/
def drawMaps (s : Setting) (maps : List TriplesMap) : Step Unit :=
  .each (drawMap s) maps

/-- A map in normal form that the dialect can express. -/
structure Drawable (s : Setting) (tm : TriplesMap) : Prop where
  normal : tm.Normal
  fits : TriplesMapFits s tm

variable {s : Setting} {g : Graph} {maps before after : List TriplesMap} {tm : TriplesMap}
  {k l m : Nat} {q : Quad} {base id : String} {doc : Document} {dialect : Dialect}

/-- Emission draws the maps. -/
theorem each_triplesMapStep (h : ∀ tm ∈ maps, Drawable s tm) :
    Step.each (triplesMapStep s) maps = drawMaps s maps :=
  Step.each_congr fun tm htm => triplesMapStep_eq_draw (h tm htm).fits.source

theorem triples_drawMaps_cons :
    (drawMaps s (tm :: maps) k).triples =
      (drawMap s tm k).triples ++ (drawMaps s maps (drawMap s tm k).next).triples := rfl

theorem next_drawMaps_cons :
    (drawMaps s (tm :: maps) k).next = (drawMaps s maps (drawMap s tm k).next).next := rfl

theorem triples_drawMaps_append :
    (drawMaps s (before ++ after) k).triples =
      (drawMaps s before k).triples ++ (drawMaps s after (drawMaps s before k).next).triples := by
  rw [drawMaps, Step.each_append]
  rfl

theorem le_next_drawMaps (s : Setting) (maps : List TriplesMap) (k : Nat) :
    k ≤ (drawMaps s maps k).next := by
  induction maps generalizing k with
  | nil => exact Nat.le_refl k
  | cons tm rest ih => exact Nat.le_trans (Sketch.le_next _ _ _ _) (ih _)

/-- The properties of arrows to new nodes. -/
def allLinks (dialect : Dialect) : List String :=
  sourceProperty dialect :: linkProperties dialect

theorem sorted_allLinks (h : TriplesMapFits s tm) :
    (Sketch.ofTriplesMap s tm).Sorted (leafProperties s.dialect) (allLinks s.dialect) := by
  obtain ⟨inner, rest, heq, hinner, hrest⟩ := sorted_ofTriplesMap h
  have hsub : linkProperties s.dialect ⊆ allLinks s.dialect := List.subset_cons_self _ _
  rw [heq]
  exact ⟨List.mem_cons_self .., hinner.mono hsub, hrest.mono hsub⟩

theorem Drawable.tidy (h : Drawable s tm) :
    (Sketch.ofTriplesMap s tm).Tidy s.used (leafProperties s.dialect) (allLinks s.dialect) := by
  obtain ⟨-, inner, rest, heq, hinner, hrest⟩ := tidy_ofTriplesMap h.fits h.normal.classes
  have hsub : linkProperties s.dialect ⊆ allLinks s.dialect := List.subset_cons_self _ _
  rw [heq]
  have hmono {t : Sketch}
      (ht : t.Tidy s.used (leafProperties s.dialect) (linkProperties s.dialect)) :
      t.Tidy s.used (leafProperties s.dialect) (allLinks s.dialect) :=
    ht.mono (fun _ _ => id) fun _ _ hp => ⟨hsub hp.1, hp.2⟩
  exact ⟨⟨List.mem_cons_self .., hinner.1⟩, hmono hinner.2, hmono hrest⟩

theorem not_fresh_node : ¬ Fresh s.used l m (s.node tm) :=
  fun h => h.ne_iri _ rfl

/-- Where the ends of the triples of some maps lie. -/
theorem mem_drawMaps (h : ∀ tm ∈ maps, Drawable s tm) (hq : q ∈ (drawMaps s maps k).triples) :
    q.graph = none ∧
      ((∃ tm ∈ maps, q.subject = s.node tm) ∨ Fresh s.used k (drawMaps s maps k).next q.subject) ∧
      ∃ p, q.predicate = .iri p ∧
        (p ∈ leafProperties s.dialect ∧ (∀ l, q.object = .blank l → l ∈ s.used) ∨
          p ∈ allLinks s.dialect ∧ Fresh s.used k (drawMaps s maps k).next q.object) := by
  induction maps generalizing k with
  | nil => exact absurd hq List.not_mem_nil
  | cons tm rest ih =>
    rw [List.forall_mem_cons] at h
    rw [next_drawMaps_cons]
    have hle : k ≤ (drawMap s tm k).next := Sketch.le_next _ _ _ _
    have hnext := le_next_drawMaps s rest (drawMap s tm k).next
    rcases List.mem_append.1 hq with hq | hq
    · obtain ⟨hg, hsub, p, hp, hobj⟩ := Sketch.mem_draw h.1.tidy hq
      exact ⟨hg, hsub.imp (fun heq => ⟨tm, List.mem_cons_self .., heq⟩)
          (fun hf => hf.mono (Nat.le_refl _) hnext), p, hp,
        hobj.imp_right fun hf => ⟨hf.1, hf.2.mono (Nat.le_refl _) hnext⟩⟩
    · obtain ⟨hg, hsub, p, hp, hobj⟩ := ih h.2 hq
      exact ⟨hg, hsub.imp (fun ⟨tm', hmem, heq⟩ => ⟨tm', List.mem_cons_of_mem _ hmem, heq⟩)
          (fun hf => hf.mono hle (Nat.le_refl _)), p, hp,
        hobj.imp_right fun hf => ⟨hf.1, hf.2.mono hle (Nat.le_refl _)⟩⟩

/-- The maps touch no fresh node with a number from elsewhere. -/
theorem apart_drawMaps (h : ∀ tm ∈ maps, Drawable s tm) (hlm : m ≤ k ∨ (drawMaps s maps k).next ≤ l)
    : Apart s.used l m (drawMaps s maps k).triples := by
  induction maps generalizing k with
  | nil => exact fun q hq => absurd hq List.not_mem_nil
  | cons tm rest ih =>
    rw [List.forall_mem_cons] at h
    rw [next_drawMaps_cons] at hlm
    rw [triples_drawMaps_cons, apart_append]
    have hle : k ≤ (drawMap s tm k).next := Sketch.le_next _ _ _ _
    have hnext := le_next_drawMaps s rest (drawMap s tm k).next
    exact ⟨Sketch.apart_draw h.1.tidy not_fresh_node (hlm.imp_right (Nat.le_trans hnext)),
      ih h.2 (hlm.imp_left fun hm => Nat.le_trans hm hle)⟩

/-- The node of a map is the subject of no triple of maps with other nodes. -/
theorem subject_ne_node (h : ∀ tm ∈ maps, Drawable s tm) (hnode : s.node tm ∉ maps.map s.node)
    (hq : q ∈ (drawMaps s maps k).triples) : q.subject ≠ s.node tm := by
  intro heq
  rcases (mem_drawMaps h hq).2.1 with ⟨tm', hmem, hsub⟩ | hf
  · exact hnode (List.mem_map.2 ⟨tm', hmem, hsub.symm.trans heq⟩)
  · exact hf.ne_iri _ heq

/-- **Each triple is written once.** -/
theorem nodup_drawMaps (h : ∀ tm ∈ maps, Drawable s tm) (hnodes : (maps.map s.node).Nodup) :
    (drawMaps s maps k).triples.Nodup := by
  induction maps generalizing k with
  | nil => exact List.nodup_nil
  | cons tm rest ih =>
    rw [List.forall_mem_cons] at h
    rw [List.map_cons, List.nodup_cons] at hnodes
    rw [triples_drawMaps_cons, List.nodup_append]
    refine ⟨Sketch.nodup_draw h.1.tidy (tidy_ofTriplesMap h.1.fits h.1.normal.classes).1
      not_fresh_node, ih h.2 hnodes.2, ?_⟩
    rintro q hq q' hq' rfl
    rcases (Sketch.mem_draw h.1.tidy hq).2.1 with heq | hf
    · exact subject_ne_node h.2 hnodes.1 hq' heq
    · exact (apart_drawMaps h.2 (.inl (Nat.le_refl _)) q hq' _ hf).1 rfl

/-! ## The graph of all maps -/

/-- The graph of what is drawn consists of it. -/
theorem ofQuads_drawMaps (h : ∀ tm ∈ maps, Drawable s tm) (hnodes : (maps.map s.node).Nodup) :
    Graph.ofQuads (drawMaps s maps 0).triples = ⟨(drawMaps s maps 0).triples, []⟩ :=
  Graph.ofQuads_eq (nodup_drawMaps h hnodes) fun _ hq => (mem_drawMaps h hq).1

/-- **Each map is shown by the graph of all maps.** -/
theorem drawn_drawMaps (h : ∀ t ∈ before ++ tm :: after, Drawable s t)
    (hnodes : ((before ++ tm :: after).map s.node).Nodup)
    (hg : g.triples = (drawMaps s (before ++ tm :: after) 0).triples) :
    Drawn g (Sketch.ofTriplesMap s tm) (g.star (s.node tm))
      (List.range' (drawMaps s before 0).triples.length
        (drawMap s tm (drawMaps s before 0).next).triples.length) := by
  rw [List.forall_mem_append, List.forall_mem_cons] at h
  obtain ⟨hbefore, htm, hafter⟩ := h
  rw [List.map_append, List.map_cons, List.nodup_middle, List.nodup_cons, List.mem_append,
    not_or] at hnodes
  obtain ⟨⟨hnb, hna⟩, -⟩ := hnodes
  rw [triples_drawMaps_append, triples_drawMaps_cons, ← List.append_assoc] at hg
  have hstar : g.star (s.node tm) = outgoing (drawMaps s before 0).triples.length
      (drawMap s tm (drawMaps s before 0).next).triples (s.node tm) := by
    rw [Graph.star, hg, outgoing_append, outgoing_append,
      outgoing_eq_nil fun q hq => subject_ne_node hbefore hnb hq,
      outgoing_eq_nil fun q hq => subject_ne_node hafter hna hq, List.nil_append,
      List.append_nil, Nat.zero_add]
  rw [hstar]
  exact drawn_draw htm.tidy ⟨hg, not_fresh_node, apart_drawMaps hbefore (.inr (Nat.le_refl _)),
    apart_drawMaps hafter (.inl (Nat.le_refl _))⟩

/-- Every triple is one of a map. -/
theorem exists_map_of_mem_drawMaps (hq : q ∈ (drawMaps s maps k).triples) :
    ∃ before tm after, maps = before ++ tm :: after ∧
      q ∈ (drawMap s tm (drawMaps s before k).next).triples := by
  induction maps generalizing k with
  | nil => exact absurd hq List.not_mem_nil
  | cons tm rest ih =>
    rcases List.mem_append.1 hq with hq | hq
    · exact ⟨[], tm, rest, rfl, hq⟩
    · obtain ⟨before, tm', after, heq, hq'⟩ := ih hq
      exact ⟨tm :: before, tm', after, congrArg (tm :: ·) heq, hq'⟩

/-- The first triple of a map leads to its source, and no other does. -/
theorem filter_sources_drawMap (h : TriplesMapFits s tm) (k : Nat) :
    ((drawMap s tm k).triples.filter (Graph.hasProperty Property.sources)).map Quad.subject =
      [s.node tm] := by
  have hother (dialect : Dialect) :
      ∀ p ∈ leafProperties dialect ++ linkProperties dialect, p ∉ Property.sources := by
    cases dialect <;> decide
  have hsource (dialect : Dialect) : sourceProperty dialect ∈ Property.sources := by
    cases dialect <;> decide
  have hnone {t : Sketch} {n : Term} {k : Nat}
      (ht : t.Sorted (leafProperties s.dialect) (linkProperties s.dialect)) :
      (t.draw s.used n k).triples.filter (Graph.hasProperty Property.sources) = [] := by
    rw [List.filter_eq_nil_iff]
    intro q hq
    obtain ⟨-, p, hp, hobj⟩ := Sketch.mem_draw_of_sorted ht hq
    have hmem : p ∈ leafProperties s.dialect ++ linkProperties s.dialect :=
      List.mem_append.2 (hobj.imp_right And.left)
    simpa [Graph.hasProperty, hp, Term.iri?] using hother s.dialect p hmem
  obtain ⟨inner, rest, heq, hinner, hrest⟩ := sorted_ofTriplesMap h
  have hhead : Graph.hasProperty Property.sources
      (triple (s.node tm) (sourceProperty s.dialect) (Sketch.newNode s.used k)) = true := by
    simpa [Graph.hasProperty, triple, Term.iri?] using hsource s.dialect
  rw [drawMap, heq, Sketch.triples_link, List.filter_cons_of_pos hhead, List.filter_append,
    Sketch.drawInner, hnone hinner, hnone hrest]
  rfl

theorem filter_sources_drawMaps (h : ∀ tm ∈ maps, TriplesMapFits s tm) (k : Nat) :
    ((drawMaps s maps k).triples.filter (Graph.hasProperty Property.sources)).map Quad.subject =
      maps.map s.node := by
  induction maps generalizing k with
  | nil => rfl
  | cons tm rest ih =>
    rw [List.forall_mem_cons] at h
    rw [triples_drawMaps_cons, List.filter_append, List.map_append, filter_sources_drawMap h.1,
      ih h.2, List.singleton_append, List.map_cons]

/-- No map is the value of a function. -/
theorem isFunctionValue_node (h : ∀ tm ∈ maps, TriplesMapFits s tm)
    (hg : ∀ q ∈ g.triples, q ∈ (drawMaps s maps 0).triples) (tm : TriplesMap) :
    g.isFunctionValue (s.node tm) = false := by
  have hleaf (dialect : Dialect) : Property.functionValue ∉ leafProperties dialect := by
    cases dialect <;> decide
  rw [Graph.isFunctionValue, List.any_eq_false]
  intro q hq hv
  simp only [Bool.and_eq_true, beq_iff_eq] at hv
  obtain ⟨before, tm', after, rfl, hq⟩ := exists_map_of_mem_drawMaps (hg q hq)
  have hfits : TriplesMapFits s tm' := h tm' (List.mem_append_right _ (List.mem_cons_self ..))
  obtain ⟨-, p, hp, hl | ⟨-, label, hlabel⟩⟩ :=
    Sketch.mem_draw_of_sorted (sorted_allLinks hfits) hq
  · rw [hp, Term.iri.injEq] at hv
    exact hleaf s.dialect (hv.1 ▸ hl)
  · exact Term.noConfusion (hlabel.symm.trans hv.2)

/-- The order of maps in which their nodes are first mentioned. -/
def Graph.mentionOrder (g : Graph) (s : Setting) (maps : List TriplesMap) : List TriplesMap :=
  maps.mergeSort fun a b => g.firstMention (s.node a) ≤ g.firstMention (s.node b)

/-- **The anchors are the nodes of the maps.** -/
theorem anchors_drawMaps (h : ∀ tm ∈ maps, Drawable s tm) (hnodes : (maps.map s.node).Nodup)
    (hg : g.triples = (drawMaps s maps 0).triples) :
    g.anchors = (g.mentionOrder s maps).map s.node := by
  have hsourced : g.sourced = maps.map s.node := by
    have hfits : ∀ tm ∈ maps, TriplesMapFits s tm := fun tm htm => (h tm htm).fits
    rw [Graph.sourced, hg, filter_sources_drawMaps hfits, eraseDups_eq_self hnodes,
      List.filter_eq_self]
    intro n hn
    obtain ⟨tm, -, rfl⟩ := List.mem_map.1 hn
    rw [isFunctionValue_node hfits fun q hq => hg ▸ hq]
    rfl
  rw [Graph.anchors, hsourced, Graph.mentionOrder]
  rw [List.map_mergeSort]
  exact fun _ _ _ _ => rfl

/-! ## Names and dialect -/

theorem mapIri_injective {id' : String} (h : mapIri base id = mapIri base id') : id = id' := by
  unfold mapIri at h
  split at h <;>
  · rw [← String.toList_inj] at h ⊢
    simpa using h

theorem nodup_nodes (s : Setting) (h : (maps.map TriplesMap.id).Nodup) :
    (maps.map s.node).Nodup := by
  have hmap : maps.map s.node =
      (maps.map TriplesMap.id).map fun id => Term.iri (mapIri s.base id) := by
    rw [List.map_map]
    rfl
  rw [hmap]
  exact h.map fun _ _ heq => mapIri_injective (Term.iri.inj heq)

/-- A base that ends a namespace. -/
def EndsNamespace (base : String) : Prop :=
  Text.endsWith "/" base = true ∨ Text.endsWith "#" base = true

instance (base : String) : Decidable (EndsNamespace base) :=
  inferInstanceAs (Decidable (_ ∨ _))

theorem EndsNamespace.ne_empty (h : EndsNamespace base) : base ≠ "" := by
  rintro rfl
  revert h
  decide

theorem EndsNamespace.mapIri (h : EndsNamespace base) (id : String) :
    mapIri base id = base ++ id := by
  rw [Mapping.mapIri, if_pos (by simpa [EndsNamespace] using h)]

/-- Under a base, a longer IRI suggests its rest. -/
theorem localName_append (hbase : base ≠ "") (rest : String) :
    localName base (.iri (base ++ rest)) = rest := by
  have hstrip : Text.stripStart? base (base ++ rest) = some rest := by
    rw [Text.stripStart?, String.toList_append, Chars.stripStart?_append, Option.map_some,
      String.ofList_toList]
  rw [localName, if_neg hbase, hstrip]

/-- **The node of a map suggests its identifier.** -/
theorem readableId?_mapIri (hbase : EndsNamespace base) (hid : isValidId id = true) :
    readableId? base (.iri (mapIri base id)) = some id := by
  rw [readableId?, hbase.mapIri, localName_append hbase.ne_empty]
  exact if_pos hid

/-- **The nodes of maps are named as the maps.** -/
theorem assignIds_mapIri {ids : List String} (hbase : EndsNamespace base) (hids : ids.Nodup)
    (hvalid : ∀ id ∈ ids, isValidId id = true) :
    assignIds base (ids.map fun id => .iri (mapIri base id)) = ids := by
  have hread : ∀ id ∈ ids, readableId? base (.iri (mapIri base id)) = some id :=
    fun id hid => readableId?_mapIri hbase (hvalid id hid)
  have hmap : (ids.map fun id => Term.iri (mapIri base id)).map
      (fun n => (readableId? base n).getD "") = ids := by
    rw [List.map_map]
    refine (List.map_congr_left fun id hid => ?_).trans (List.map_id ids)
    rw [Function.comp_apply, hread id hid, Option.getD_some, id_eq]
  refine (assignIds_eq_map (fun n hn => ?_) (hmap.symm ▸ hids)).trans hmap
  obtain ⟨id, hid, rfl⟩ := List.mem_map.1 hn
  rw [hread id hid, Option.getD_some]

/-- **The nodes of the maps are named as the maps.** -/
theorem names_drawMaps (h : ∀ tm ∈ maps, Drawable s tm)
    (hg : g.triples = (drawMaps s maps 0).triples) (hbase : EndsNamespace s.base)
    (hids : (maps.map TriplesMap.id).Nodup) (hvalid : ∀ tm ∈ maps, isValidId tm.id = true) :
    g.names s.base = (g.mentionOrder s maps).map fun tm => (s.node tm, tm.id) := by
  have hperm : (g.mentionOrder s maps).Perm maps := List.mergeSort_perm _ _
  have hnodes : (g.mentionOrder s maps).map s.node = ((g.mentionOrder s maps).map TriplesMap.id).map
      fun id => .iri (mapIri s.base id) := by
    rw [List.map_map]
    rfl
  have hassign : assignIds s.base ((g.mentionOrder s maps).map s.node) =
      (g.mentionOrder s maps).map TriplesMap.id := by
    rw [hnodes]
    refine assignIds_mapIri hbase ((hperm.map _).nodup_iff.2 hids) fun id hid => ?_
    obtain ⟨tm, htm, rfl⟩ := List.mem_map.1 hid
    exact hvalid tm (hperm.subset htm)
  rw [Graph.names, anchors_drawMaps h (nodup_nodes s hids) hg, chooseBase,
    if_neg hbase.ne_empty, hassign, List.zip_map']

/-- No triple has a property that drawing does not use. -/
theorem uses_eq_false (h : ∀ tm ∈ maps, Drawable s tm)
    (hg : g.triples = (drawMaps s maps 0).triples) {ps : List String}
    (hps : ∀ p ∈ leafProperties s.dialect ++ allLinks s.dialect, p ∉ ps) : g.uses ps = false := by
  rw [Graph.uses, List.any_eq_false, hg]
  intro q hq
  obtain ⟨-, -, p, hp, hobj⟩ := mem_drawMaps h hq
  have hmem : p ∈ leafProperties s.dialect ++ allLinks s.dialect :=
    List.mem_append.2 (hobj.imp And.left And.left)
  simpa [Graph.hasProperty, hp, Term.iri?] using hps p hmem

/-- **The dialect is recognized**, unless there are no maps. -/
theorem dialectOf_drawMaps (h : ∀ tm ∈ maps, Drawable s tm)
    (hg : g.triples = (drawMaps s maps 0).triples) (hne : maps ≠ []) :
    dialectOf g = s.dialect := by
  cases hd : s.dialect with
  | rml =>
    have htable : g.uses [Property.logicalTable] = false :=
      uses_eq_false h hg (by rw [hd]; decide)
    rw [dialectOf, htable]
    rfl
  | r2rml =>
    have hbeyond : g.uses Property.beyondRelational = false :=
      uses_eq_false h hg (by rw [hd]; decide)
    have htable : g.uses [Property.logicalTable] = true := by
      obtain ⟨tm, rest, rfl⟩ := List.exists_cons_of_ne_nil hne
      rw [Graph.uses, hg, triples_drawMaps_cons, List.any_append, drawMap, Sketch.ofTriplesMap,
        Sketch.triples_link, List.any_cons, hd]
      rfl
    rw [dialectOf, htable, hbeyond]
    rfl

/-- A map that no earlier one leads to is mentioned by itself. -/
theorem firstMention_node (h : ∀ t ∈ before, Drawable s t)
    (hnode : s.node tm ∉ before.map s.node)
    (hg : g.triples = (drawMaps s (before ++ tm :: after) 0).triples)
    (hfirst : ∀ q ∈ (drawMaps s before 0).triples, q.object ≠ s.node tm) :
    g.firstMention (s.node tm) = (drawMaps s before 0).triples.length := by
  have hbefore : (drawMaps s before 0).triples.findIdx
      (fun q => q.subject == s.node tm || q.object == s.node tm) =
        (drawMaps s before 0).triples.length := by
    rw [List.findIdx_eq_length]
    intro q hq
    simp [subject_ne_node h hnode hq, hfirst q hq]
  rw [Graph.firstMention, hg, triples_drawMaps_append, List.findIdx_append, hbefore,
    if_neg (Nat.lt_irrefl _), triples_drawMaps_cons, drawMap, Sketch.ofTriplesMap,
    Sketch.triples_link, List.cons_append, List.findIdx_cons]
  simp [triple]

/-- **If no map leads to a later one, the maps are found in their order.** -/
theorem mentionOrder_eq (h : ∀ tm ∈ maps, Drawable s tm) (hnodes : (maps.map s.node).Nodup)
    (hg : g.triples = (drawMaps s maps 0).triples)
    (hfirst : ∀ before tm after, maps = before ++ tm :: after →
      ∀ q ∈ (drawMaps s before 0).triples, q.object ≠ s.node tm) :
    g.mentionOrder s maps = maps := by
  have hmention (i : Nat) (hi : i < maps.length) :
      g.firstMention (s.node maps[i]) = (drawMaps s (maps.take i) 0).triples.length := by
    have hsplit : maps = maps.take i ++ maps[i] :: maps.drop (i + 1) := by
      rw [← List.drop_eq_getElem_cons hi, List.take_append_drop]
    have hn := hnodes
    rw [hsplit, List.map_append, List.map_cons, List.nodup_middle, List.nodup_cons,
      List.mem_append, not_or] at hn
    rw [hsplit] at hg
    exact firstMention_node (fun t ht => h t (List.mem_of_mem_take ht)) hn.1.1 hg
      (hfirst _ _ _ hsplit)
  refine List.mergeSort_of_pairwise (List.pairwise_iff_getElem.2 fun i j hi hj hij => ?_)
  have htake : maps.take j = maps.take i ++ (maps.drop i).take (j - i) := by
    rw [← List.take_add, Nat.add_sub_cancel' (Nat.le_of_lt hij)]
  rw [decide_eq_true_eq, hmention i hi, hmention j hj, htake, triples_drawMaps_append,
    List.length_append]
  exact Nat.le_add_right _ _

/-! ## Documents -/

/-- What the parts of a document are written with. -/
def settingOf (doc : Document) (dialect : Dialect) : Setting :=
  ⟨doc.base, dialect, labelsIn doc⟩

theorem sourceFits_of_unsupported (h : sourceUnsupported tm = []) :
    tm.source.access = "" ∧ tm.source.formulation = "" ∧ tm.source.iterator = "" := by
  unfold sourceUnsupported at h
  simp only at h
  split at h
  · cases h
  · split at h
    · cases h
    · next hrel =>
      simp only [LogicalSource.isRelational, Bool.not_eq_true, Bool.not_eq_false',
        Bool.and_eq_true, decide_eq_true_eq] at hrel
      exact ⟨hrel.1.1.1, hrel.1.1.2, hrel.1.2⟩

/-- The maps of a document fit a dialect that can express them. -/
theorem triplesMapFits_settingOf (hd : dialect = .r2rml → unsupported doc = [])
    (htm : tm ∈ doc.maps) : TriplesMapFits (settingOf doc dialect) tm := by
  have hmap (hr : dialect = .r2rml) : sourceUnsupported tm = [] ∧ functionsUnsupported tm = [] := by
    have hall := hd hr
    rw [unsupported, List.flatMap_eq_nil_iff] at hall
    exact List.append_eq_nil_iff.1 (hall tm htm)
  refine ⟨fun hr => sourceFits_of_unsupported (hmap hr).1, fun t ht => ⟨fun hr => ?_, ?_⟩⟩
  · have hfilter := (hmap hr).2
    rw [functionsUnsupported, List.map_eq_nil_iff, List.filter_eq_nil_iff] at hfilter
    simpa using hfilter t ht
  · intro l hl
    exact List.mem_flatMap.2 ⟨tm, htm, List.mem_flatMap.2 ⟨t, ht, hl⟩⟩

/-- Emission draws the maps of a document. -/
theorem triplesOf_eq_drawMaps (hd : dialect = .r2rml → unsupported doc = []) :
    triplesOf doc dialect = (drawMaps (settingOf doc dialect) doc.maps 0).triples := by
  have hsteps : Step.each (triplesMapStep (settingOf doc dialect)) doc.maps =
      drawMaps (settingOf doc dialect) doc.maps :=
    Step.each_congr fun tm htm =>
      triplesMapStep_eq_draw (triplesMapFits_settingOf hd htm).source
  rw [← hsteps]
  rfl

section Decode

variable {ids : List (Term × String)} {known : String → Prop}

/-- **Each map is decoded**, with its own triples used. -/
theorem reads_drawMaps (h : ∀ t ∈ before ++ tm :: after, Drawable s t)
    (hnodes : ((before ++ tm :: after).map s.node).Nodup)
    (hg : g.triples = (drawMaps s (before ++ tm :: after) 0).triples) (hok : tm.Ok known)
    (hknown : ∀ id, known id → ids.lookup (.iri (mapIri s.base id)) = some id) :
    Reads (decodeTriplesMap ⟨g, ids, tm.id⟩ (functionWithin ⟨g, ids, tm.id⟩ g.functionCount)
      (s.node tm)) tm.bare
      (List.range' (drawMaps s before 0).triples.length
        (drawMap s tm (drawMaps s before 0).next).triples.length) := by
  have hnormal : tm.Normal :=
    (h tm (List.mem_append_right _ (List.mem_cons_self ..))).normal
  have hdepth : (Sketch.ofTriplesMap s tm).count Property.functionValue ≤ g.functionCount := by
    have hcount : (Sketch.ofTriplesMap s tm).count Property.functionValue ≤
        (drawMap s tm (drawMaps s before 0).next).triples.countP
          (Graph.hasProperty [Property.functionValue]) := Sketch.count_le_countP _ _ _ _
    rw [Graph.functionCount, hg, triples_drawMaps_append, triples_drawMaps_cons,
      List.countP_append, List.countP_append]
    omega
  exact reads_ofTriplesMap (c := ⟨g, ids, tm.id⟩) hknown rfl hok hnormal hdepth
    (drawn_drawMaps h hnodes hg)

/-- **The maps are decoded in the order of their mention.** -/
theorem decodeMaps_drawMaps (h : ∀ tm ∈ maps, Drawable s tm)
    (hg : g.triples = (drawMaps s maps 0).triples) (hbase : EndsNamespace s.base)
    (hids : (maps.map TriplesMap.id).Nodup)
    (hok : ∀ tm ∈ maps, tm.Ok fun id => id ∈ maps.map TriplesMap.id) :
    let decoded := decodeMaps g.functionCount g (g.names s.base)
    Clean decoded.notes ∧ decoded.value = (g.mentionOrder s maps).map TriplesMap.bare ∧
      ∀ q ∈ g.triples, Uses g decoded.notes q := by
  intro decoded
  have hperm : (g.mentionOrder s maps).Perm maps := List.mergeSort_perm _ _
  have hnames := names_drawMaps h hg hbase hids fun tm htm => (hok tm htm).id
  have hknown : ∀ id, id ∈ maps.map TriplesMap.id →
      (g.names s.base).lookup (.iri (mapIri s.base id)) = some id := by
    intro id hid
    obtain ⟨tm, htm, rfl⟩ := List.mem_map.1 hid
    rw [Graph.lookup_names_iff, hnames]
    exact List.mem_map.2 ⟨tm, hperm.symm.subset htm, rfl⟩
  let decodeAt (tm : TriplesMap) : Decoding TriplesMap :=
    decodeTriplesMap ⟨g, g.names s.base, tm.id⟩
      (functionWithin ⟨g, g.names s.base, tm.id⟩ g.functionCount) (s.node tm)
  have hreads (before tm after) (hsplit : maps = before ++ tm :: after) :
      Reads (decodeAt tm) tm.bare (List.range' (drawMaps s before 0).triples.length
        (drawMap s tm (drawMaps s before 0).next).triples.length) := by
    subst hsplit
    exact reads_drawMaps h (nodup_nodes s hids) hg
      (hok tm (List.mem_append_right _ (List.mem_cons_self ..))) hknown
  have hdecoded : decoded = Logged.each ((g.mentionOrder s maps).map decodeAt) :=
    congrArg Logged.each ((congrArg (List.map _) hnames).trans List.map_map)
  rw [hdecoded, Logged.notes_each, Logged.value_each]
  refine ⟨fun f hf => ?_, ?_, fun q hq => ?_⟩
  · obtain ⟨x, hx, hfx⟩ := List.mem_flatMap.1 hf
    obtain ⟨tm, htm, rfl⟩ := List.mem_map.1 hx
    obtain ⟨before, after, hsplit⟩ := List.append_of_mem (hperm.subset htm)
    exact (hreads before tm after hsplit).clean f hfx
  · rw [List.map_map]
    refine List.map_congr_left fun tm htm => ?_
    obtain ⟨before, after, hsplit⟩ := List.append_of_mem (hperm.subset htm)
    exact (hreads before tm after hsplit).value
  · rw [hg] at hq
    obtain ⟨before, tm, after, hsplit, hq⟩ := exists_map_of_mem_drawMaps hq
    obtain ⟨i, hi, rfl⟩ := List.mem_iff_getElem.1 hq
    have hmem : tm ∈ maps := hsplit ▸ List.mem_append_right _ (List.mem_cons_self ..)
    refine ⟨(drawMaps s before 0).triples.length + i, ?_, ?_⟩
    · refine List.mem_flatMap.2 ⟨decodeAt tm,
        List.mem_map.2 ⟨tm, hperm.symm.subset hmem, rfl⟩, ?_⟩
      exact (hreads before tm after hsplit).used _
        (List.mem_range'_1.2 ⟨Nat.le_add_right _ _, Nat.add_lt_add_left hi _⟩)
    · rw [hg, hsplit, triples_drawMaps_append, triples_drawMaps_cons,
        List.getElem?_append_right (Nat.le_add_right _ _), Nat.add_sub_cancel_left,
        List.getElem?_append_left hi, List.getElem?_eq_getElem hi]

/-- The document that is decoded from what is drawn. -/
theorem decode_drawMaps (h : ∀ tm ∈ maps, Drawable s tm) (hbase : EndsNamespace s.base)
    (hids : (maps.map TriplesMap.id).Nodup)
    (hok : ∀ tm ∈ maps, tm.Ok fun id => id ∈ maps.map TriplesMap.id)
    (prefixes : Option PrefixTable) :
    let g : Graph := ⟨(drawMaps s maps 0).triples, []⟩
    ∃ doc, decode s.base prefixes (drawMaps s maps 0).triples = .ok doc ∧ doc.Indexed ∧
      doc.base = s.base ∧ doc.dialect = dialectOf g ∧
      doc.maps = (g.mentionOrder s maps).map TriplesMap.bare := by
  intro g
  have hgraph : Graph.ofQuads (drawMaps s maps 0).triples = g :=
    ofQuads_drawMaps h (nodup_nodes s hids)
  have hperm : (g.mentionOrder s maps).Perm maps := List.mergeSort_perm _ _
  obtain ⟨hclean, hvalue, huses⟩ := decodeMaps_drawMaps (g := g) h rfl hbase hids hok
  obtain ⟨hindexed, hmaps, hb, hd⟩ := assemble_spec s.base prefixes g g.functionCount
  rw [chooseBase, if_neg hbase.ne_empty] at hindexed hmaps hb hd
  refine ⟨(assemble s.base prefixes g (decodeMaps g.functionCount g (g.names s.base)).value).freeze,
    decode_eq_ok_iff.2 ?_, ⟨hindexed.nodup, hindexed.index⟩, hb, hd, hmaps.trans hvalue⟩
  rw [hgraph, chooseBase, if_neg hbase.ne_empty]
  refine ⟨hclean, rfl, huses, Document.isValid_iff.2 ⟨?_, hindexed.nodup, ?_⟩, rfl⟩
  · rw [hb]
    exact hbase.ne_empty
  · intro tm' htm'
    rw [hmaps, hvalue] at htm'
    obtain ⟨tm, htm, rfl⟩ := List.mem_map.1 htm'
    refine TriplesMap.Ok.of_matches (fun id hid => ?_) tm.matches_bare (hok tm (hperm.subset htm))
    have hmem : id ∈ ((g.mentionOrder s maps).map TriplesMap.bare).map TriplesMap.id := by
      rw [List.map_map]
      exact (hperm.map TriplesMap.id).symm.subset hid
    rw [← hvalue, ← hmaps] at hmem
    exact hindexed.lookup?_isSome_iff.2 hmem

end Decode

/-- The maps of a valid document obey the rules. -/
theorem ok_of_valid (hindexed : doc.Indexed) (hvalid : doc.isValid = true) :
    ∀ tm ∈ doc.maps, tm.Ok fun id => id ∈ doc.ids := by
  have hknows : doc.Knows = fun id => id ∈ doc.ids :=
    funext fun id => propext hindexed.lookup?_isSome_iff
  rw [← hknows]
  exact (Document.isValid_iff.1 hvalid).2.2

/-- **What is emitted is decoded to the same document.**  A valid document in normal form whose
base ends a namespace is written in any dialect that can express it, and what is written is
decoded under the same base: to the same identifiers, in the order in which the triples mention
them, and to maps that are equal apart from positions. -/
theorem decode_emit {doc : Document} (hbuilt : doc.Built) (hvalid : doc.isValid = true)
    (hbase : EndsNamespace doc.base) (hnormal : ∀ tm ∈ doc.maps, tm.Normal) (dialect : Dialect)
    (hdialect : dialect = .r2rml → unsupported doc = []) (prefixes : Option PrefixTable) :
    ∃ qs doc', emit doc dialect = .ok qs ∧ decode doc.base prefixes qs = .ok doc' ∧
      doc'.base = doc.base ∧ doc'.ids.Perm doc.ids ∧
      (∀ id tm, doc.lookup? id = some tm → ∃ tm', doc'.lookup? id = some tm' ∧ tm.Matches tm') ∧
      (doc.maps ≠ [] → doc'.dialect = dialect) ∧
      ((∀ before tm after, doc.maps = before ++ tm :: after →
          ∀ q ∈ (Step.each (triplesMapStep (settingOf doc dialect)) before 0).triples,
            q.object ≠ .iri (doc.iriOf tm.id)) →
        doc'.ids = doc.ids) := by
  let s := settingOf doc dialect
  have hindexed := hbuilt.indexed
  have hids := hindexed.nodup
  have hdraw : ∀ tm ∈ doc.maps, Drawable s tm := fun tm htm =>
    ⟨hnormal tm htm, triplesMapFits_settingOf hdialect htm⟩
  have hemit : emit doc dialect = .ok (drawMaps s doc.maps 0).triples := by
    rw [← each_triplesMapStep hdraw]
    refine if_neg ?_
    cases dialect with
    | rml => simp
    | r2rml => simp [hdialect rfl]
  obtain ⟨doc', hdecode, hindexed', hb, hd, hmaps⟩ :=
    decode_drawMaps hdraw hbase hids (ok_of_valid hindexed hvalid) prefixes
  have hperm :
      (Graph.mentionOrder ⟨(drawMaps s doc.maps 0).triples, []⟩ s doc.maps).Perm doc.maps :=
    List.mergeSort_perm _ _
  have hids' : doc'.ids =
      (Graph.mentionOrder ⟨(drawMaps s doc.maps 0).triples, []⟩ s doc.maps).map TriplesMap.id := by
    rw [Document.ids, hmaps, List.map_map]
    rfl
  refine ⟨_, doc', hemit, hdecode, hb, ?_, fun id tm htm => ?_, fun hne => ?_, fun hfirst => ?_⟩
  · rw [hids']
    exact hperm.map _
  · obtain ⟨hmem, hid⟩ := hindexed.lookup?_eq_some_iff.1 htm
    refine ⟨tm.bare, hindexed'.lookup?_eq_some_iff.2 ⟨?_, hid⟩, tm.matches_bare⟩
    rw [hmaps]
    exact List.mem_map.2 ⟨tm, hperm.symm.subset hmem, rfl⟩
  · rw [hd]
    exact dialectOf_drawMaps hdraw rfl hne
  · rw [hids', mentionOrder_eq hdraw (nodup_nodes s hids) rfl]
    · rfl
    · intro before tm after hsplit
      rw [← each_triplesMapStep fun t ht => hdraw t (hsplit ▸ List.mem_append_left _ ht)]
      exact hfirst before tm after hsplit

/-! ## A document with a function and a join -/

/-- Persons, whose names are put in capitals by a function. -/
def personMap : TriplesMap where
  id := "person"
  source := { access := "people.csv" }
  subject := { term := { value := some (.template "http://ex.org/person/\x7bid\x7d") } }
  predicateObjects := [{
    predicates := [{ value := some (.constant (.ofIri "http://ex.org/name")) }]
    objects := [{
      value := some (.function "http://ex.org/upper"
        [⟨"http://ex.org/text", { value := some (.reference "name"), termType := .literal }⟩])
      termType := .literal, language := "en" }] }]

/-- Books, which are joined with their authors. -/
def bookMap : TriplesMap where
  id := "book"
  source := { access := "books.csv" }
  subject := {
    term := { value := some (.template "http://ex.org/book/\x7bid\x7d") }
    classes := ["http://ex.org/Book"] }
  predicateObjects := [{
    predicates := [{ value := some (.constant (.ofIri "http://ex.org/author")) }]
    objects := [{ value := some (.join "person" [⟨"author", "id"⟩]) }] }]

/-- The document of both maps. -/
def library : Document :=
  (Document.create "http://ex.org/maps/" none).extend [personMap, bookMap]

/-- The document is decoded from its triples, with its maps in order. -/
theorem decode_emit_library :
    ∃ qs doc', emit library .rml = .ok qs ∧ decode "http://ex.org/maps/" none qs = .ok doc' ∧
      doc'.dialect = .rml ∧ doc'.ids = ["person", "book"] ∧
      ∀ id tm, library.lookup? id = some tm →
        ∃ tm', doc'.lookup? id = some tm' ∧ tm.Matches tm' := by
  have hbuilt : library.Built := (Document.Built.create _ _).extend rfl (by decide)
  obtain ⟨qs, doc', hemit, hdecode, -, -, hmaps, hdialect, hids⟩ :=
    decode_emit hbuilt (by decide +kernel) (by decide) (by decide +kernel) .rml nofun none
  refine ⟨qs, doc', hemit, hdecode, hdialect nofun, hids ?_, hmaps⟩
  intro before tm after hsplit
  -- only the first map comes before another one
  rcases before with _ | ⟨first, _ | ⟨second, rest⟩⟩
  · exact fun q hq => absurd hq List.not_mem_nil
  · have hlist : [personMap, bookMap] = [first] ++ tm :: after := hsplit
    simp only [List.cons_append, List.nil_append, List.cons.injEq] at hlist
    obtain ⟨rfl, rfl, -⟩ := hlist
    decide +kernel
  · have hlist : [personMap, bookMap] = (first :: second :: rest) ++ tm :: after := hsplit
    simp at hlist

end RdfMapping.RuleGraph
