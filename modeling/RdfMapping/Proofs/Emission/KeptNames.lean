/-
# Names that survive a round trip

Emission makes the node of a triples map from the base and the identifier, and decoding makes an
identifier from the node again.  Which of them come back depends on how the base ends.
-/
import Mathlib.Data.List.Forall2
import Mathlib.Data.Set.List
import RdfMapping.Proofs.Emission.WellFormed

namespace RdfMapping.RuleGraph

open Mapping
open Rdf (Term Quad)

variable {ids : List String} {base : String} {s t b : List Char}

/-! ## The anchors of emitted triples -/

section Anchors

variable {s : Setting} {g : Graph} {maps : List TriplesMap}

/-- The graph of what is drawn has the same triples, each of them once. -/
theorem mem_ofQuads_drawMaps (h : ∀ tm ∈ maps, TriplesMapFits s tm) (q : Quad) :
    q ∈ (Graph.ofQuads (drawMaps s maps 0).triples).triples ↔ q ∈ (drawMaps s maps 0).triples := by
  rw [Graph.mem_triples_ofQuads, and_iff_left_iff_imp]
  intro hq
  obtain ⟨before, tm, after, rfl, hmem⟩ := exists_map_of_mem_drawMaps hq
  have hfits : TriplesMapFits s tm := h tm (List.mem_append_right _ (List.mem_cons_self ..))
  exact (Sketch.mem_draw_of_sorted (sorted_allLinks hfits) hmem).1

/-- **The anchors are the nodes of the maps**, in some order. -/
theorem anchors_perm_nodes (h : ∀ tm ∈ maps, TriplesMapFits s tm)
    (hnodes : (maps.map s.node).Nodup)
    (hg : ∀ q, q ∈ g.triples ↔ q ∈ (drawMaps s maps 0).triples) :
    g.anchors.Perm (maps.map s.node) := by
  rw [List.perm_ext_iff_of_nodup g.nodup_anchors hnodes]
  intro n
  have hsource : (∃ q ∈ g.triples, Graph.hasProperty Property.sources q = true ∧ q.subject = n) ↔
      n ∈ maps.map s.node := by
    rw [← filter_sources_drawMaps h 0, List.mem_map]
    simp only [List.mem_filter, hg, and_assoc]
  rw [Graph.anchors, (List.mergeSort_perm _ _).mem_iff, Graph.mem_sourced, hsource]
  constructor
  · exact And.left
  · intro hn
    refine ⟨hn, ?_⟩
    obtain ⟨tm, -, rfl⟩ := List.mem_map.1 hn
    exact isFunctionValue_node h (fun q => (hg q).1) tm

end Anchors

/-- A rearrangement of images consists of the images of a rearrangement. -/
theorem exists_perm_of_perm_map {f : String → Term} {l : List Term} (h : l.Perm (ids.map f)) :
    ∃ order : List String, order.Perm ids ∧ l = order.map f := by
  have himages : List.Forall₂ (fun n id => n = f id) (ids.map f) ids := by
    rw [List.forall₂_map_left_iff, List.forall₂_same]
    exact fun _ _ => rfl
  obtain ⟨order, hforall, hperm⟩ := List.perm_comp_forall₂ h himages
  refine ⟨order, hperm, ?_⟩
  clear hperm h himages
  induction hforall with
  | nil => rfl
  | cons hn _ ih => rw [hn, ih, List.map_cons]

/-! ## Names under the base of a document -/

/-- Under any other base the number sign is left. -/
theorem readableId?_mapIri_eq_none (hne : base ≠ "") (hbase : ¬ EndsNamespace base) (id : String) :
    readableId? base (.iri (mapIri base id)) = none := by
  have hiri : mapIri base id = base ++ ("#" ++ id) := by
    rw [mapIri, if_neg (by simpa [EndsNamespace] using hbase), String.append_assoc]
  have hinvalid : isValidId ("#" ++ id) = false := by
    rw [isValidId, String.toList_append]
    rfl
  rw [readableId?, hiri, localName_append hne]
  simp [hinvalid]

/-- The identifiers that the nodes of maps get under their base. -/
theorem assignIds_nodes (hne : base ≠ "") (hids : ids.Nodup)
    (hvalid : ∀ id ∈ ids, isValidId id = true) :
    assignIds base (ids.map fun id => .iri (mapIri base id)) =
      if EndsNamespace base then ids else (List.range' 1 ids.length).map numberedId := by
  by_cases hbase : EndsNamespace base
  · rw [if_pos hbase, assignIds_mapIri hbase hids hvalid]
  · rw [if_neg hbase]
    have hnone : (ids.map fun id => Term.iri (mapIri base id)).map (readableId? base) =
        List.replicate ids.length none := by
      rw [List.map_map, List.eq_replicate_iff]
      refine ⟨List.length_map _, fun name hname => ?_⟩
      obtain ⟨id, -, rfl⟩ := List.mem_map.1 hname
      exact readableId?_mapIri_eq_none hne hbase id
    have hnil :
        (ids.map fun id => Term.iri (mapIri base id)).filterMap (readableId? base) = [] := by
      rw [List.filterMap_eq_nil_iff]
      intro n hn
      obtain ⟨id, -, rfl⟩ := List.mem_map.1 hn
      exact readableId?_mapIri_eq_none hne hbase id
    rw [assignIds_eq_numberRest (hnil ▸ List.nodup_nil), hnil, hnone,
      numberRest_replicate_none fun _ _ => List.not_mem_nil]

/-- **Under its own base, a valid document gets its identifiers back if the base ends a
namespace, and numbers otherwise.**  The anchors of what is emitted are the nodes of its maps, in
some order; the names are the identifiers in that order, or count the nodes from one on.  A
document that is decoded has these names as its identifiers. -/
theorem names_emit {doc : Document} (hvalid : doc.isValid = true) {dialect : Dialect}
    {ts : List Quad} (hemit : emit doc dialect = .ok ts) :
    ∃ order : List String, order.Perm doc.ids ∧
      (Graph.ofQuads ts).names doc.base = (order.map fun id => .iri (doc.iriOf id)).zip
        (if EndsNamespace doc.base then order
          else (List.range' 1 order.length).map numberedId) ∧
      ∀ prefixes doc', decode doc.base prefixes ts = .ok doc' →
        doc'.ids = if EndsNamespace doc.base then order
          else (List.range' 1 order.length).map numberedId := by
  obtain ⟨hbase, hids, hok⟩ := Document.isValid_iff.1 hvalid
  obtain ⟨hdialect, rfl⟩ := emit_eq_ok_iff.1 hemit
  rw [triplesOf_eq_drawMaps hdialect]
  have hfits : ∀ tm ∈ doc.maps, TriplesMapFits (settingOf doc dialect) tm :=
    fun tm htm => triplesMapFits_settingOf hdialect htm
  have hnodes : doc.maps.map (settingOf doc dialect).node =
      doc.ids.map fun id => .iri (doc.iriOf id) := by
    rw [Document.ids, List.map_map]
    rfl
  have hperm := anchors_perm_nodes hfits (nodup_nodes _ hids) (mem_ofQuads_drawMaps hfits)
  rw [hnodes] at hperm
  obtain ⟨order, horder, hanchors⟩ := exists_perm_of_perm_map hperm
  have hvalids : ∀ id ∈ order, isValidId id = true := by
    intro id hid
    obtain ⟨tm, htm, rfl⟩ := List.mem_map.1 (horder.subset hid)
    exact (hok tm htm).id
  have hassign := assignIds_nodes hbase (horder.nodup_iff.2 hids) hvalids
  have hchoose (nodes : List Term) : chooseBase doc.base nodes = doc.base := if_neg hbase
  refine ⟨order, horder, ?_, fun prefixes doc' hdecode => ?_⟩
  · rw [Graph.names, hanchors, hchoose]
    exact congrArg _ hassign
  · obtain ⟨-, -, -, -, rfl⟩ := decode_eq_ok_iff.1 hdecode
    obtain ⟨-, hmaps, -⟩ := assemble_spec doc.base prefixes
      (Graph.ofQuads (drawMaps (settingOf doc dialect) doc.maps 0).triples)
      (Graph.ofQuads (drawMaps (settingOf doc dialect) doc.maps 0).triples).functionCount
    rw [Document.ids, Document.freeze, hmaps, ids_decodeMaps, Graph.map_snd_names, hanchors,
      hchoose]
    exact hassign

/-- Two maps under a base that does not end a namespace. -/
def fragmentLibrary : Document :=
  (Document.create "http://ex.org/maps" none).extend [personMap, bookMap]

/-- A valid document whose identifiers do not come back under its own base. -/
theorem names_emit_fragmentLibrary :
    fragmentLibrary.isValid = true ∧ fragmentLibrary.ids = ["person", "book"] ∧
      (Graph.ofQuads (triplesOf fragmentLibrary .rml)).names fragmentLibrary.base =
        [(.iri "http://ex.org/maps#person", "map_1"),
          (.iri "http://ex.org/maps#book", "map_2")] := by
  have hsourced : (Graph.ofQuads (triplesOf fragmentLibrary .rml)).sourced =
      [.iri "http://ex.org/maps#person", .iri "http://ex.org/maps#book"] := by
    decide +kernel
  refine ⟨by decide +kernel, by decide, ?_⟩
  rw [Graph.names, Graph.anchors, hsourced, List.mergeSort_of_pairwise (by decide +kernel)]
  decide +kernel

/-- Under a base that ends a namespace, the identifiers come back. -/
theorem names_emit_library :
    library.isValid = true ∧ EndsNamespace library.base ∧ ∃ ts, emit library .rml = .ok ts ∧
      ∀ prefixes doc', decode library.base prefixes ts = .ok doc' →
        doc'.ids.Perm ["person", "book"] := by
  have hvalid : library.isValid = true := by decide +kernel
  have hbase : EndsNamespace library.base := by decide
  refine ⟨hvalid, hbase, triplesOf library .rml, rfl, fun prefixes doc' hdecode => ?_⟩
  obtain ⟨order, horder, -, hids⟩ := names_emit hvalid (rfl : emit library .rml = .ok _)
  rw [hids prefixes doc' hdecode, if_pos hbase]
  exact horder

/-! ## Namespaces and what follows them -/

theorem isNamespace_concat {c : Char} : IsNamespace (s ++ [c]) ↔ endsNamespace c = true := by
  rw [IsNamespace, namespaceChars, List.reverse_concat, List.dropWhile_cons]
  by_cases hc : endsNamespace c = true
  · simp [hc]
  · -- what is left of the text is too short
    have hlength : (s.reverse.dropWhile fun c => !endsNamespace c).length ≤ s.length := by
      simpa using (List.dropWhile_sublist (l := s.reverse) _).length_le
    have hdrop : (!endsNamespace c) = true := by simpa using hc
    rw [if_pos hdrop]
    refine iff_of_false (fun heq => ?_) hc
    have hsame := congrArg List.length heq
    rw [List.length_reverse, List.length_append, List.length_singleton] at hsame
    omega

/-- Whether a text is a namespace depends on its end. -/
theorem isNamespace_append (ht : t ≠ []) : IsNamespace (s ++ t) ↔ IsNamespace t := by
  rcases List.eq_nil_or_concat' t with rfl | ⟨init, c, rfl⟩
  · exact absurd rfl ht
  · rw [← List.append_assoc, isNamespace_concat, isNamespace_concat]

theorem IsNamespace.append (hs : IsNamespace s) (ht : IsNamespace t) : IsNamespace (s ++ t) := by
  by_cases hnil : t = []
  · rwa [hnil, List.append_nil]
  · exact (isNamespace_append hnil).2 ht

theorem IsNamespace.of_append (h : IsNamespace (s ++ t)) : IsNamespace t := by
  by_cases hnil : t = []
  · rw [hnil]
    rfl
  · exact (isNamespace_append hnil).1 h

/-- Two ways to say that a base ends a namespace. -/
theorem endsNamespace_iff : EndsNamespace base ↔ base ≠ "" ∧ IsNamespace base.toList := by
  rw [EndsNamespace, Text.endsWith, Text.endsWith, List.isSuffixOf_iff_suffix,
    List.isSuffixOf_iff_suffix, ne_eq, ← String.toList_eq_nil_iff]
  rcases List.eq_nil_or_concat' base.toList with hnil | ⟨init, c, hc⟩
  · rw [hnil]
    simp
  · have hlast (d : Char) : [d] <:+ init ++ [c] ↔ c = d := by
      constructor
      · rintro ⟨init', heq⟩
        exact (List.cons.inj (List.append_inj_right' heq rfl)).1.symm
      · rintro rfl
        exact List.suffix_append _ _
    have hslash : "/".toList <:+ init ++ [c] ↔ c = '/' := hlast '/'
    have hsign : "#".toList <:+ init ++ [c] ↔ c = '#' := hlast '#'
    rw [hc, isNamespace_concat, endsNamespace, hslash, hsign, Bool.or_eq_true, decide_eq_true_eq,
      decide_eq_true_eq, or_comm]
    exact (and_iff_right (List.append_ne_nil_of_right_ne_nil _ (List.cons_ne_nil _ _))).symm

/-- **A namespace before all texts is before the namespace they share.** -/
theorem sharedNamespace_map_append (hb : IsNamespace b) {l : List (List Char)} (hl : l ≠ []) :
    sharedNamespace (l.map (b ++ ·)) = b ++ sharedNamespace l := by
  have hmap : l.map (b ++ ·) ≠ [] := fun h => hl (List.map_eq_nil_iff.1 h)
  obtain ⟨hns, hall⟩ := prefix_sharedNamespace_iff hl
  obtain ⟨hns', hall'⟩ := prefix_sharedNamespace_iff hmap
  have hge : b ++ sharedNamespace l <+: sharedNamespace (l.map (b ++ ·)) := by
    rw [hall' _ (hb.append hns), List.forall_mem_map]
    intro x hx
    exact (List.prefix_append_right_inj b).2 ((hall _ hns).1 (List.prefix_refl _) x hx)
  -- what all texts share begins with `b`, and its rest is a namespace before the rests
  obtain ⟨t, ht⟩ := (List.prefix_append b _).trans hge
  have hle : t <+: sharedNamespace l := by
    have htns : IsNamespace t := (ht ▸ hns' : IsNamespace (b ++ t)).of_append
    rw [hall t htns]
    intro x hx
    have hpre := (hall' _ hns').1 (List.prefix_refl _) (b ++ x) (List.mem_map_of_mem hx)
    rw [← ht] at hpre
    exact (List.prefix_append_right_inj b).1 hpre
  rw [← ht] at hge ⊢
  exact congrArg _ (hle.eq_of_length_le ((List.prefix_append_right_inj b).1 hge).length_le)

/-! ## The inferred base -/

/-- What follows the scheme goes on with a longer text. -/
theorem afterScheme?_append {r : List Char} (h : afterScheme? s = some r) (t : List Char) :
    afterScheme? (s ++ t) = some (r ++ t) ∧ "://".toList.length + r.length ≤ s.length := by
  induction s with
  | nil => cases h
  | cons c rest ih =>
    rw [afterScheme?] at h
    cases hstrip : Chars.stripStart? "://".toList (c :: rest) with
    | some after =>
      rw [hstrip] at h
      cases h
      have hsplit := Chars.stripStart?_eq_some hstrip
      rw [List.cons_append, afterScheme?, ← List.cons_append, hsplit, List.append_assoc,
        Chars.stripStart?_append]
      exact ⟨rfl, by rw [List.length_append]⟩
    | none =>
      rw [hstrip] at h
      obtain ⟨hrest, hlength⟩ := ih h
      -- the rest holds the whole mark, so none begins here and ends in `t`
      have hnone : Chars.stripStart? "://".toList (c :: (rest ++ t)) = none := by
        rw [Option.eq_none_iff_forall_ne_some]
        intro after hafter
        have hpre : "://".toList <+: c :: rest := by
          refine List.prefix_of_prefix_length_le ⟨after, ?_⟩ (List.prefix_append (c :: rest) t) ?_
          · exact (Chars.stripStart?_eq_some hafter).symm
          · rw [List.length_cons]
            omega
        obtain ⟨after', heq⟩ := hpre
        rw [← heq, Chars.stripStart?_append] at hstrip
        cases hstrip
      rw [List.cons_append, afterScheme?, hnone]
      exact ⟨hrest, by rw [List.length_cons]; omega⟩

/-- A text that goes on after a scheme has something after its first scheme. -/
theorem exists_afterScheme? (s r : List Char) :
    ∃ after, afterScheme? (s ++ "://".toList ++ r) = some after ∧ r.length ≤ after.length := by
  induction s with
  | nil =>
    refine ⟨r, ?_, Nat.le_refl _⟩
    have hstrip : Chars.stripStart? "://".toList (':' :: ("//".toList ++ r)) = some r :=
      Chars.stripStart?_append "://".toList r
    show afterScheme? (':' :: ("//".toList ++ r)) = some r
    rw [afterScheme?, hstrip]
  | cons c rest ih =>
    rw [List.cons_append, List.cons_append, afterScheme?]
    cases hstrip : Chars.stripStart? "://".toList (c :: (rest ++ "://".toList ++ r)) with
    | none => exact ih
    | some after =>
      refine ⟨after, rfl, ?_⟩
      have hlength := congrArg List.length (Chars.stripStart?_eq_some hstrip)
      simp only [List.length_cons, List.length_append] at hlength
      omega

/-- Whether a text has an authority is settled by its beginning. -/
theorem hasAuthority_append (h : ∃ s c r, b = s ++ "://".toList ++ c :: r) (t : List Char) :
    hasAuthority (b ++ t) = hasAuthority b := by
  obtain ⟨s, c, r, rfl⟩ := h
  obtain ⟨after, hafter, hlength⟩ := exists_afterScheme? s (c :: r)
  obtain ⟨d, rest, rfl⟩ := List.exists_cons_of_length_pos (Nat.lt_of_lt_of_le Nat.succ_pos' hlength)
  rw [hasAuthority, (afterScheme?_append hafter t).1, hasAuthority, hafter]
  rfl

/-- **What follows the base is kept or numbered.** -/
theorem forall₂_assignIds_append (hbase : base ≠ "") {rests : List String} (h : rests.Nodup) :
    List.Forall₂ (fun rest name => isValidId rest = true ∧ name = rest ∨
        isValidId rest = false ∧ ∃ k, name = numberedId k)
      rests (assignIds base (rests.map fun rest => .iri (base ++ rest))) := by
  have hread (rest : String) : readableId? base (.iri (base ++ rest)) =
      if isValidId rest then some rest else none := by
    rw [readableId?, localName_append hbase]
  have hnodup :
      ((rests.map fun rest => Term.iri (base ++ rest)).filterMap (readableId? base)).Nodup := by
    rw [List.filterMap_map]
    refine h.filterMap fun rest rest' name hname hname' => ?_
    rw [Function.comp_apply, hread, Option.mem_def, Option.ite_none_right_eq_some] at hname hname'
    exact (Option.some.inj hname.2).trans (Option.some.inj hname'.2).symm
  have hnames := forall₂_numberRest
    ((rests.map fun rest => Term.iri (base ++ rest)).filterMap (readableId? base)) 1
    ((rests.map fun rest => Term.iri (base ++ rest)).map (readableId? base))
  rw [List.map_map, List.forall₂_map_left_iff] at hnames
  rw [assignIds_eq_numberRest hnodup, List.map_map]
  refine hnames.imp fun rest name hname => ?_
  rw [Function.comp_apply, hread] at hname
  by_cases hvalid : isValidId rest = true
  · rw [if_pos hvalid] at hname
    rcases hname with hname | ⟨hname, -⟩
    · exact .inl ⟨hvalid, (Option.some.inj hname).symm⟩
    · exact absurd hname (Option.some_ne_none _)
  · rw [if_neg hvalid] at hname
    rcases hname with hname | ⟨-, hnumber⟩
    · exact absurd hname.symm (Option.some_ne_none _)
    · exact .inr ⟨Bool.not_eq_true _ ▸ hvalid, hnumber⟩

/-- **The inferred base keeps the IRIs of the triples maps whose identifiers it cuts at a valid
rest.**  The base that is inferred from the nodes of some maps is the base they were made with,
followed by the longest namespace that all identifiers begin with.  A node has the same IRI again if
and only if the rest of its identifier is valid; the others are numbered. -/
theorem inferBase?_mapIri {b : String} (hb : EndsNamespace b)
    (hscheme : ∃ s c r, b.toList = s ++ "://".toList ++ c :: r) {ids : List String}
    (hne : ids ≠ []) (hids : ids.Nodup) :
    ∃ common : String, IsNamespace common.toList ∧
      (∀ s, IsNamespace s → (s <+: common.toList ↔ ∀ id ∈ ids, s <+: id.toList)) ∧
      inferBase? (ids.map fun id => .iri (mapIri b id)) =
        (if hasAuthority b.toList then some (b ++ common) else none) ∧
      List.Forall₂ (fun id name => ∃ rest, id = common ++ rest ∧
          (mapIri (b ++ common) name = mapIri b id ↔ isValidId rest = true) ∧
          (isValidId rest = false → ∃ k, name = numberedId k))
        ids (assignIds (b ++ common) (ids.map fun id => .iri (mapIri b id))) := by
  have hmap : ids.map String.toList ≠ [] := fun h => hne (List.map_eq_nil_iff.1 h)
  obtain ⟨hns, hall⟩ := prefix_sharedNamespace_iff hmap
  have hbns : IsNamespace b.toList := (endsNamespace_iff.1 hb).2
  have hnodes : ((ids.map fun id => Term.iri (mapIri b id)).filterMap Term.iri?).map
      String.toList = (ids.map String.toList).map (b.toList ++ ·) := by
    have hiri : Term.iri? ∘ (fun id => Term.iri (mapIri b id)) = some ∘ mapIri b := rfl
    rw [List.filterMap_map, hiri, List.filterMap_eq_map, List.map_map, List.map_map]
    refine List.map_congr_left fun id _ => ?_
    rw [Function.comp_apply, hb.mapIri, String.toList_append]
    rfl
  generalize hcommon : sharedNamespace (ids.map String.toList) = common at hns hall
  have hsplit : ids ∈ Set.range (List.map (String.ofList common ++ ·)) := by
    rw [Set.range_list_map]
    intro id hid
    obtain ⟨rest, hrest⟩ := (hall common hns).1 (List.prefix_refl _) _ (List.mem_map_of_mem hid)
    refine ⟨.ofList rest, ?_⟩
    rw [← String.toList_inj, String.toList_append, String.toList_ofList, String.toList_ofList,
      hrest]
  have hends : EndsNamespace (b ++ .ofList common) := by
    rw [endsNamespace_iff, String.toList_append, String.toList_ofList]
    refine ⟨fun h => hb.ne_empty ?_, hbns.append hns⟩
    exact (String.append_eq_empty_iff.1 h).1
  refine ⟨.ofList common, ?_, ?_, ?_, ?_⟩
  · rwa [String.toList_ofList]
  · rw [String.toList_ofList]
    intro s hs
    rw [hall s hs, List.forall_mem_map]
  · rw [inferBase?, hnodes, sharedNamespace_map_append hbns hmap, hcommon]
    simp only [hasAuthority_append hscheme common]
    rw [String.ofList_append, String.ofList_toList]
  · obtain ⟨rests, rfl⟩ := hsplit
    have hkept := forall₂_assignIds_append hends.ne_empty (List.Nodup.of_map _ hids)
    have hiri (rest : String) :
        mapIri b (.ofList common ++ rest) = b ++ .ofList common ++ rest := by
      rw [hb.mapIri, String.append_assoc]
    rw [List.map_map, List.forall₂_map_left_iff]
    simp only [Function.comp_def, hiri]
    refine hkept.imp fun rest name hname => ⟨rest, rfl, ?_⟩
    rw [hends.mapIri]
    rcases hname with ⟨hvalid, rfl⟩ | ⟨hinvalid, k, rfl⟩
    · exact ⟨iff_of_true rfl hvalid, fun h => absurd hvalid (Bool.eq_false_iff.1 h)⟩
    · refine ⟨iff_of_false (fun heq => ?_) (Bool.eq_false_iff.1 hinvalid), fun _ => ⟨k, rfl⟩⟩
      -- a number is a valid identifier, so it is not the rest
      have hrest : numberedId k = rest := by
        rw [← String.toList_inj] at heq ⊢
        simpa using heq
      rw [← hrest, isValidId_numberedId] at hinvalid
      cases hinvalid

/-- Identifiers that share a namespace are cut there, and one of them is renamed. -/
theorem inferBase?_renames :
    isValidId "a/1" = true ∧ isValidId "a/b" = true ∧
      inferBase? [.iri "http://ex.org/a/1", .iri "http://ex.org/a/b"] = some "http://ex.org/a/" ∧
      assignIds "http://ex.org/a/" [.iri "http://ex.org/a/1", .iri "http://ex.org/a/b"] =
        ["map_1", "b"] ∧
      mapIri "http://ex.org/a/" "map_1" ≠ "http://ex.org/a/1" := by
  decide +kernel

/-- The base that is inferred for identifiers in one segment. -/
theorem inferBase?_mapIri_segment :
    EndsNamespace "http://ex.org/" ∧ ["a/1", "a/b"].Nodup ∧
      ∃ common : String,
        (∀ s, IsNamespace s → (s <+: common.toList ↔ ∀ id ∈ ["a/1", "a/b"], s <+: id.toList)) ∧
        inferBase? (["a/1", "a/b"].map fun id => .iri (mapIri "http://ex.org/" id)) =
          some ("http://ex.org/" ++ common) ∧
        List.Forall₂ (fun id name => ∃ rest, id = common ++ rest ∧
            (mapIri ("http://ex.org/" ++ common) name = mapIri "http://ex.org/" id ↔
              isValidId rest = true) ∧
            (isValidId rest = false → ∃ k, name = numberedId k)) ["a/1", "a/b"]
          (assignIds ("http://ex.org/" ++ common)
            (["a/1", "a/b"].map fun id => .iri (mapIri "http://ex.org/" id))) := by
  have hbase : EndsNamespace "http://ex.org/" := by decide
  have hids : ["a/1", "a/b"].Nodup := by decide
  have hscheme : ∃ s c r, "http://ex.org/".toList = s ++ "://".toList ++ c :: r :=
    ⟨"http".toList, 'e', "x.org/".toList, by decide⟩
  obtain ⟨common, -, hall, hinfer, hkept⟩ :=
    inferBase?_mapIri hbase hscheme (List.cons_ne_nil _ _) hids
  exact ⟨hbase, hids, common, hall, hinfer.trans (if_pos (by decide)), hkept⟩

end RdfMapping.RuleGraph
