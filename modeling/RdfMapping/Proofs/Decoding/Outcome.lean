/-
# What comes of a graph

When decoding succeeds: nothing is wrong, every triple is used, no quad is in a named graph and
the document is valid.  The flaws of a source are reported once, which hides nothing.
-/
import Mathlib.Data.List.Nodup
import RdfMapping.Proofs.Decoding.Agreement
import RdfMapping.Proofs.Decoding.Names
import RdfMapping.Proofs.Mapping.Rules
import RdfMapping.Proofs.Mapping.Store

namespace RdfMapping.RuleGraph

open Iri (PrefixTable)
open Mapping
open Rdf (Term Quad)

variable {qs : List Quad} {g : Graph} {notes : List Finding} {n : Term} {id : String}

/-! ## Graphs of quads -/

namespace Graph

/-- The triples of a graph after more quads. -/
theorem mem_triples_foldl {q : Quad} :
    q ∈ (qs.foldl insert g).triples ↔ q ∈ g.triples ∨ q ∈ qs ∧ q.graph = none := by
  induction qs generalizing g with
  | nil => simp
  | cons p rest ih =>
    have hstep : q ∈ (g.insert p).triples ↔ q ∈ g.triples ∨ q = p ∧ p.graph = none := by
      unfold insert
      cases hg : p.graph with
      | some label => simp
      | none =>
        by_cases hmem : p ∈ g.triples
        · simp only [Option.isSome_none, Bool.false_eq_true, if_false, List.contains_iff_mem.2 hmem,
            if_true]
          exact ⟨.inl, fun h => h.elim id fun h => h.1 ▸ hmem⟩
        · simp [hmem]
    rw [List.foldl_cons, ih, hstep, List.mem_cons]
    constructor
    · rintro ((h | ⟨rfl, h⟩) | ⟨h, hg⟩)
      · exact .inl h
      · exact .inr ⟨.inl rfl, h⟩
      · exact .inr ⟨.inr h, hg⟩
    · rintro (h | ⟨rfl | h, hg⟩)
      · exact .inl (.inl h)
      · exact .inl (.inr ⟨rfl, hg⟩)
      · exact .inr ⟨h, hg⟩

/-- No triple is in a graph twice. -/
theorem nodup_triples_foldl (hg : g.triples.Nodup) :
    (qs.foldl insert g).triples.Nodup := by
  induction qs generalizing g with
  | nil => exact hg
  | cons p rest ih =>
    refine ih ?_
    unfold insert
    split
    · exact hg
    · split
      · exact hg
      · next hnew =>
        have hp : p ∉ g.triples := by simpa using hnew
        refine List.nodup_append.2 ⟨hg, List.nodup_singleton p, ?_⟩
        rintro a ha b hb rfl
        exact hp (List.mem_singleton.1 hb ▸ ha)

/-- Quads in named graphs are set apart in order. -/
theorem named_foldl :
    (qs.foldl insert g).named = g.named ++ qs.filter fun q => q.graph.isSome := by
  induction qs generalizing g with
  | nil => simp
  | cons p rest ih =>
    rw [List.foldl_cons, ih]
    unfold insert
    cases hg : p.graph with
    | some label => simp [hg]
    | none =>
      have hfilter : (p :: rest).filter (fun q => q.graph.isSome) =
          rest.filter fun q => q.graph.isSome := List.filter_cons_of_neg (by simp [hg])
      rw [hfilter]
      simp only [Option.isSome_none, Bool.false_eq_true, if_false]
      split <;> rfl

theorem mem_triples_ofQuads {q : Quad} :
    q ∈ (ofQuads qs).triples ↔ q ∈ qs ∧ q.graph = none := by
  rw [ofQuads, mem_triples_foldl]
  simp

theorem nodup_triples (qs : List Quad) : (ofQuads qs).triples.Nodup :=
  nodup_triples_foldl List.nodup_nil

theorem named_ofQuads_eq_nil_iff :
    (ofQuads qs).named = [] ↔ ∀ q ∈ qs, q.graph = none := by
  rw [ofQuads, named_foldl, List.nil_append, List.filter_eq_nil_iff]
  simp

/-- New triples are put at the end. -/
theorem triples_foldl (hnodup : (g.triples ++ qs).Nodup) (hq : ∀ q ∈ qs, q.graph = none) :
    qs.foldl insert g = ⟨g.triples ++ qs, g.named⟩ := by
  induction qs generalizing g with
  | nil => rw [List.append_nil, List.foldl_nil]
  | cons q rest ih =>
    rw [List.forall_mem_cons] at hq
    have hnew : q ∉ g.triples := fun hmem =>
      (List.nodup_append.1 hnodup).2.2 q hmem q (List.mem_cons_self ..) rfl
    have hstep : g.insert q = ⟨g.triples ++ [q], g.named⟩ := by
      rw [insert, if_neg (by simp [hq.1]), if_neg (by simpa using hnew)]
    rw [List.append_cons] at hnodup
    rw [List.foldl_cons, hstep, ih hnodup hq.2, List.append_assoc, List.singleton_append]

/-- Distinct triples make a graph as they are. -/
theorem ofQuads_eq (hnodup : qs.Nodup) (hq : ∀ q ∈ qs, q.graph = none) :
    ofQuads qs = ⟨qs, []⟩ :=
  triples_foldl hnodup hq

/-- Quads with the same members make graphs with the same triples. -/
theorem triples_perm {qs' : List Quad} (h : ∀ q, q ∈ qs ↔ q ∈ qs') :
    (ofQuads qs).triples.Perm (ofQuads qs').triples := by
  rw [List.perm_ext_iff_of_nodup (nodup_triples qs) (nodup_triples qs')]
  intro q
  rw [mem_triples_ofQuads, mem_triples_ofQuads, h]

end Graph

/-! ## The report -/

/-- A source has the same flaws wherever it is noted, or at least some. -/
def SourcesAgree (notes : List Finding) : Prop :=
  ∀ n flaws flaws', Finding.source n flaws ∈ notes → Finding.source n flaws' ∈ notes →
    (flaws = [] ↔ flaws' = [])

/-- **Nothing is reported if nothing is wrong or endless.** -/
theorem report_eq_nil_iff (hs : SourcesAgree notes) :
    ∀ {seen : List Term},
      (∀ n ∈ seen, ∀ flaws, Finding.source n flaws ∈ notes → flaws = []) →
      (Finding.report seen notes = [] ↔ ∀ f ∈ notes, f.isClean = true ∨ f = .endless) := by
  induction notes with
  | nil => simp [Finding.report]
  | cons f rest ih =>
    intro seen hseen
    have hs' : SourcesAgree rest := fun n fl fl' h h' =>
      hs n fl fl' (List.mem_cons_of_mem _ h) (List.mem_cons_of_mem _ h')
    have hseen' : ∀ n ∈ seen, ∀ flaws, Finding.source n flaws ∈ rest → flaws = [] :=
      fun n hn fl h => hseen n hn fl (List.mem_cons_of_mem _ h)
    rw [List.forall_mem_cons]
    cases f with
    | flaw d => simp [Finding.report, Finding.isClean]
    | used i => simp [Finding.report, Finding.isClean, ih hs' hseen']
    | endless => simp [Finding.report, ih hs' hseen']
    | source n flaws =>
      rw [Finding.report]
      by_cases hn : n ∈ seen
      · -- reported before, and there was nothing to report
        rw [if_pos (List.contains_iff_mem.2 hn), ih hs' hseen']
        have hflaws := hseen n hn flaws (List.mem_cons_self ..)
        simp [Finding.isClean, hflaws]
      · rw [if_neg (by simpa using hn), List.append_eq_nil_iff]
        by_cases hflaws : flaws = []
        · have hmore : ∀ m ∈ n :: seen, ∀ fl, Finding.source m fl ∈ rest → fl = [] := by
            intro m hm fl hfl
            rcases List.mem_cons.1 hm with rfl | hm
            · exact (hs m flaws fl (List.mem_cons_self ..) (List.mem_cons_of_mem _ hfl)).1 hflaws
            · exact hseen' m hm fl hfl
          rw [ih hs' hmore]
          simp [Finding.isClean, hflaws]
        · simp [Finding.isClean, hflaws]

/-! ## What is left over -/

/-- **Nothing is left over if every triple is used.** -/
theorem leftovers_eq_nil_iff (hnodup : g.triples.Nodup) :
    leftovers g (notes.filterMap Finding.used?) = [] ↔
      g.named = [] ∧ ∀ q ∈ g.triples, Uses g notes q := by
  have hused (i : Nat) : i ∈ notes.filterMap Finding.used? ↔ Finding.used i ∈ notes := by
    rw [List.mem_filterMap]
    constructor
    · rintro ⟨f, hf, hi⟩
      cases f <;> simp [Finding.used?] at hi
      exact hi ▸ hf
    · exact fun h => ⟨_, h, rfl⟩
  rw [leftovers, List.append_eq_nil_iff, List.map_eq_nil_iff, List.filter_eq_nil_iff, and_comm]
  refine and_congr_right fun _ => ?_
  constructor
  · intro h q hq
    obtain ⟨i, hi⟩ := List.mem_iff_getElem?.1 hq
    have hmem := h (q, i) (List.mem_zipIdx_iff_getElem?.2 hi)
    refine ⟨i, (hused i).1 ?_, hi⟩
    simpa using hmem
  · rintro h ⟨q, i⟩ hqi
    rw [List.mem_zipIdx_iff_getElem?] at hqi
    obtain ⟨j, hj, hqj⟩ := h q (List.mem_of_getElem? hqi)
    -- a triple has one number only
    obtain ⟨hilt, hi⟩ := List.getElem?_eq_some_iff.1 hqi
    obtain ⟨hjlt, hj'⟩ := List.getElem?_eq_some_iff.1 hqj
    have hij : j = i := (hnodup.getElem_inj_iff).1 (hj'.trans hi.symm)
    subst hij
    simpa using (hused j).2 hj

/-! ## Sources agree -/

section Sources

variable {c : Context} {f : Finding}

/-- The flaws of a source are noted for the source itself. -/
theorem source_mem_decodeSource {m : Term} {flaws : List Diagnostic}
    (h : Finding.source m flaws ∈ (decodeSource c n).notes) :
    m = n ∧ (flaws = [] ↔ Clean (decodeSource c n).notes) := by
  unfold decodeSource at h ⊢
  split at h
  · next hn =>
    rw [if_pos hn]
    rcases List.mem_cons.1 h with h | h
    · injection h with hm hflaws
      refine ⟨hm, fun hnil g hg => ?_, fun hclean => ?_⟩
      · rcases List.mem_cons.1 hg with rfl | hg
        · rw [Finding.isClean, List.isEmpty_iff, ← hflaws, hnil]
        · obtain ⟨i, -, rfl⟩ := List.mem_map.1 hg
          rfl
      · have := hclean _ (List.mem_cons_self ..)
        rwa [Finding.isClean, List.isEmpty_iff, ← hflaws] at this
    · obtain ⟨i, -, hi⟩ := List.mem_map.1 h
      cases hi
  · exact absurd h ((Plain.bind (Plain.note _) (Plain.pure _)).not_mem rfl)

/-- What is noted on sources inside function values comes from decoding a source. -/
theorem exists_decodeSource_of_functionWithin (hf : f.isPlain = false) (hend : f ≠ .endless)
    (d : Nat) : ∃ P : Term → Prop,
      (∀ n path, f ∈ (functionWithin c d n path).run.notes ↔ P n) ∧
        ∀ n, P n → ∃ s, f ∈ (decodeSource c s).notes := by
  induction d with
  | zero =>
    refine ⟨fun _ => False, fun n path => ?_, fun _ h => h.elim⟩
    exact ⟨fun h => hend (List.mem_singleton.1 h), fun h => h.elim⟩
  | succ d ih =>
    obtain ⟨P, hP, hsource⟩ := ih
    refine ⟨_, fun n path => mem_notes_decodeFunction hf hP, ?_⟩
    rintro n ⟨-, ⟨s, -, hs⟩ | ⟨p, -, o, -, ho⟩⟩
    · exact ⟨s, hs⟩
    · exact hsource o ho

theorem exists_decodeSource_of_decodeTriplesMap (hf : f.isPlain = false) (hend : f ≠ .endless)
    {d : Nat} (h : f ∈ (decodeTriplesMap c (functionWithin c d) n).notes) :
    ∃ s, f ∈ (decodeSource c s).notes := by
  obtain ⟨P, hP, hsource⟩ := exists_decodeSource_of_functionWithin (c := c) hf hend d
  rw [mem_notes_decodeTriplesMap hf hP] at h
  rcases h with ⟨e, -, he⟩ | ⟨e, -, he⟩ | ⟨p, -, o, -, ho⟩
  · exact ⟨e.object, he⟩
  · rw [mem_notes_decodeSubject hf hP] at he
    rcases he with ⟨-, -, ⟨o, -, ho⟩ | ⟨-, t, o, -, -, ho⟩⟩
    · exact hsource o ho
    · exact hsource o ho
  · exact hsource o ho

/-- Whether something is wrong with a source does not depend on the map at hand. -/
theorem clean_decodeSource_of_clean {ids : List (Term × String)} {id' : String}
    (hclean : Clean (decodeSource ⟨g, ids, id⟩ n).notes) :
    Clean (decodeSource ⟨g, ids, id'⟩ n).notes := by
  have hre : (Context.mk g ids id).Reorders (fun _ _ => True) ⟨g, ids, id'⟩ :=
    ⟨List.Perm.refl _, fun m name h => ⟨name, h, trivial⟩⟩
  exact (Follows.decodeSource hre hclean).1

end Sources

/-- **A source has flaws for every map that uses it, or for none.** -/
theorem sourcesAgree_decodeMaps (depth : Nat) (g : Graph) (ids : List (Term × String)) :
    SourcesAgree (decodeMaps depth g ids).notes := by
  have hsource : ∀ n flaws, Finding.source n flaws ∈ (decodeMaps depth g ids).notes →
      (flaws = [] ↔ Clean (decodeSource ⟨g, ids, ""⟩ n).notes) := by
    intro n flaws h
    rw [decodeMaps, Logged.notes_each, List.mem_flatMap] at h
    obtain ⟨x, hx, hn⟩ := h
    obtain ⟨⟨a, id⟩, -, rfl⟩ := List.mem_map.1 hx
    obtain ⟨s, hs⟩ := exists_decodeSource_of_decodeTriplesMap rfl (by simp) hn
    obtain ⟨rfl, hflaws⟩ := source_mem_decodeSource hs
    rw [hflaws]
    exact ⟨clean_decodeSource_of_clean, clean_decodeSource_of_clean⟩
  intro n flaws flaws' h h'
  rw [hsource n flaws h, hsource n flaws' h']

/-! ## Documents -/

/-- **A clean graph with all triples used gives a valid document.** -/
theorem conclude_eq_ok_iff {doc doc' : Document} (hs : SourcesAgree notes)
    (hnodup : g.triples.Nodup) :
    conclude g notes doc = .ok doc' ↔
      Clean notes ∧ g.named = [] ∧ (∀ q ∈ g.triples, Uses g notes q) ∧ doc.isValid = true ∧
        doc' = doc.freeze := by
  have hclean : Clean notes ↔
      ¬ notes.any Finding.isEndless = true ∧ Finding.report [] notes = [] := by
    rw [report_eq_nil_iff hs (by simp), Bool.not_eq_true, List.any_eq_false]
    constructor
    · intro h
      refine ⟨fun f hf => ?_, fun f hf => .inl (h f hf)⟩
      have := h f hf
      cases f <;> simp_all [Finding.isClean, Finding.isEndless]
    · rintro ⟨hend, h⟩ f hf
      rcases h f hf with h | rfl
      · exact h
      · exact absurd rfl (hend _ hf)
  rw [hclean, ← and_assoc (a := g.named = []), ← leftovers_eq_nil_iff hnodup]
  unfold conclude
  by_cases hend : notes.any Finding.isEndless = true
  · simp [hend]
  · simp only [hend]
    by_cases hrep : Finding.report [] notes = []
    · simp only [hrep, List.isEmpty_nil, Bool.not_true, Bool.false_eq_true, if_false]
      cases leftovers g (notes.filterMap Finding.used?) with
      | nil =>
        by_cases hv : doc.isValid = true
        · simp [hv, eq_comm]
        · simp [hv]
      | cons q rest => simp
    · simp [hrep]

/-- The nodes of triples maps with the identifiers they get. -/
def Graph.names (g : Graph) (base : String) : List (Term × String) :=
  g.anchors.zip (assignIds (chooseBase base g.anchors) g.anchors)

theorem Graph.map_fst_names (g : Graph) (base : String) :
    (g.names base).map Prod.fst = g.anchors :=
  List.map_fst_zip (Nat.le_of_eq (length_assignIds _ _).symm)

theorem Graph.map_snd_names (g : Graph) (base : String) :
    (g.names base).map Prod.snd = assignIds (chooseBase base g.anchors) g.anchors :=
  List.map_snd_zip (Nat.le_of_eq (length_assignIds _ _))

theorem Graph.lookup_names_iff {base : String} :
    (g.names base).lookup n = some id ↔ (n, id) ∈ g.names base := by
  refine lookup_eq_some_iff_mem ?_
  rw [g.map_fst_names]
  exact g.nodup_anchors

/-- The decoded maps have the identifiers of their nodes. -/
theorem ids_decodeMaps (depth : Nat) (g : Graph) (ids : List (Term × String)) :
    (decodeMaps depth g ids).value.map TriplesMap.id = ids.map Prod.snd := by
  rw [decodeMaps, Logged.value_each, List.map_map, List.map_map]
  rfl

/-- A base is always chosen. -/
theorem chooseBase_ne_empty (base : String) (nodes : List Term) : chooseBase base nodes ≠ "" := by
  unfold chooseBase
  split
  · unfold inferBase?
    dsimp only
    split
    · next h =>
      intro hnil
      have hchars := congrArg String.toList hnil
      rw [Option.getD_some, String.toList_ofList] at hchars
      rw [hchars] at h
      exact absurd h (by decide)
    · decide
  · next h => exact h

theorem nodup_ids_decodeMaps (depth : Nat) (base : String) (g : Graph) :
    ((decodeMaps depth g (g.names base)).value.map TriplesMap.id).Nodup := by
  rw [ids_decodeMaps, g.map_snd_names]
  exact nodup_assignIds _ _

theorem indexed_emptyDocument (base : String) (prefixes : Option PrefixTable) (g : Graph) :
    (emptyDocument base prefixes g).Indexed :=
  ⟨List.nodup_nil, rfl⟩

/-- The triples maps of a graph as a document. -/
def assemble (base : String) (prefixes : Option PrefixTable) (g : Graph)
    (maps : List TriplesMap) : Document :=
  (emptyDocument base prefixes g).extend maps

/-- **No decoded map is refused.** -/
theorem foldlM_add_decodeMaps (depth : Nat) (base : String) (prefixes : Option PrefixTable)
    (g : Graph) :
    (decodeMaps depth g (g.names base)).value.foldlM Document.add
        (emptyDocument (chooseBase base g.anchors) prefixes g) =
      .ok (assemble (chooseBase base g.anchors) prefixes g
        (decodeMaps depth g (g.names base)).value) :=
  (indexed_emptyDocument _ prefixes g).foldlM_add rfl (nodup_ids_decodeMaps depth base g)

/-- What comes of a list of quads is what comes of the document of its maps. -/
theorem decodeWithin_eq (depth : Nat) (base : String) (prefixes : Option PrefixTable)
    (qs : List Quad) :
    let g := Graph.ofQuads qs
    let maps := decodeMaps depth g (g.names base)
    decodeWithin depth base prefixes qs =
      conclude g maps.notes (assemble (chooseBase base g.anchors) prefixes g maps.value) := by
  intro g maps
  have hadded := foldlM_add_decodeMaps depth base prefixes (Graph.ofQuads qs)
  rw [Graph.names] at hadded
  simp only [decodeWithin, hadded]
  rfl

/-- **The document of a graph holds all decoded maps.** -/
theorem assemble_spec (base : String) (prefixes : Option PrefixTable) (g : Graph) (depth : Nat) :
    let maps := (decodeMaps depth g (g.names base)).value
    let doc := assemble (chooseBase base g.anchors) prefixes g maps
    doc.Indexed ∧ doc.maps = maps ∧ doc.base = chooseBase base g.anchors ∧
      doc.dialect = dialectOf g := by
  intro maps doc
  have hindexed := (indexed_emptyDocument (chooseBase base g.anchors) prefixes g).extend
    (nodup_ids_decodeMaps depth base g)
  exact ⟨hindexed, rfl, if_neg (chooseBase_ne_empty base g.anchors), rfl⟩

end RdfMapping.RuleGraph
