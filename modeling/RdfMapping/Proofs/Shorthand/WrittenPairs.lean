/-
# What is written for predicates and objects

Predicate-object maps are written as a mapping of predicate to objects or as a list of entries.
All of these forms are read as the same predicate-object maps from now on.
-/
import RdfMapping.Proofs.Shorthand.WrittenTerms

namespace RdfMapping

variable {place : Place} {tag : Tagging} {os : List Node} {pom : PredicateObjectMap}
  {predicate object : TermMap} {poms : List PredicateObjectMap} {p o : Node}

namespace Mapping

/-- Predicates that are equal apart from positions state types together. -/
theorem statesType_of_sameAll : ∀ {xs ys : List TermMap}, TermMap.sameAll xs ys = true →
    Shorthand.statesType xs = Shorthand.statesType ys
  | [], [], _ => rfl
  | x :: xs, y :: ys, h => by
    rw [TermMap.sameAll, Bool.and_eq_true] at h
    have hrest := statesType_of_sameAll h.2
    unfold Shorthand.statesType at hrest ⊢
    rw [List.any_cons, List.any_cons, hrest]
    rcases TermMap.value_of_same h.1 with ⟨hx, hy⟩ | ⟨v, w, hx, hy, hsame⟩
    · rw [hx, hy]
    · rw [hx, hy]
      cases v <;> cases w <;> simp_all [Value.same]

end Mapping

namespace Shorthand

open Iri (PrefixTable)
open Mapping
open Yaml (Node Entry)

/-! ## Lists of terms -/

section Terms

variable {scope : Scope} {site : Site} {ns : List Node} {gots : List TermMap}

theorem readPredicates_eq_pure (hne : gots ≠ [])
    (h : List.Forall₂ (fun n got => readTerm scope { position := .predicate } n place = pure got)
      ns gots) : readPredicates scope ns place = pure gots := by
  refine Attempt.bind_eq_pure_iff.2 ⟨gots, Attempt.all_eq_pure ?_, Attempt.nonempty_eq_pure hne⟩
  rw [List.forall₂_map_left_iff]
  exact h

/-- An object without a tag beside it is read as a term. -/
theorem readObject_untagged (scope : Scope) (site : Site) (n : Node) (place : Place) :
    readObject scope site {} n place = readTerm scope site n place := by
  rw [readTerm_eq, readObject]
  refine bind_congr fun d => ?_
  rw [readTag, if_pos rfl, pure_bind]

theorem readObjects_eq_pure {predicates : List TermMap} (hne : gots ≠ [])
    (h : List.Forall₂ (fun n got => readObject scope (objectSite predicates) tag n place = pure got)
      ns gots) : readObjects scope predicates tag ns place = pure gots := by
  refine Attempt.bind_eq_pure_iff.2 ⟨gots, Attempt.all_eq_pure ?_, Attempt.nonempty_eq_pure hne⟩
  rw [List.forall₂_map_left_iff]
  exact h

end Terms

namespace Style

variable {s : Style} {t u : PrefixTable} {site : Site} {n : Node} {tm : TermMap}
  {tms : List TermMap} {ns : List Node}

/-- **Nodes that mean term maps are read as these**, apart from positions. -/
theorem exists_reads (h : List.Forall₂ (fun tm n => s.Means t site n tm) tms ns) :
    ∃ gots, TermMap.sameAll gots tms = true ∧ List.Forall₂ (s.Reads t site) ns gots := by
  obtain ⟨gots, hsame, hreads⟩ := exists_forall₂ (h.imp fun _ _ hmeans => hmeans.reads)
  exact ⟨gots, TermMap.sameAll_iff_forall₂.2 hsame.flip, hreads⟩

theorem objectSite_of_sameAll {xs ys : List TermMap} (h : TermMap.sameAll xs ys = true) :
    objectSite xs = objectSite ys := by
  rw [objectSite, objectSite, statesType_of_sameAll h]

/-- Predicates and objects that are written are read from now on. -/
theorem exists_pair {predicates objects : List TermMap} {ps : List Node}
    (hp : List.Forall₂ (fun tm n => s.Means t { position := .predicate } n tm) predicates ps)
    (ho : List.Forall₂ (fun tm n => s.Means t (objectSite predicates) n tm) objects os)
    (hpredicates : predicates ≠ []) (hobjects : objects ≠ []) :
    ∃ xs ys, TermMap.sameAll xs predicates = true ∧ TermMap.sameAll ys objects = true ∧
      ∀ u, s.Grows t u → ∀ place place', readPredicates (s.scope u) ps place = pure xs ∧
        readObjects (s.scope u) xs {} os place' = pure ys := by
  obtain ⟨xs, hxs, hps⟩ := exists_reads hp
  obtain ⟨ys, hys, hos⟩ := exists_reads ho
  have hx : xs ≠ [] := TermMap.ne_nil_of_sameAll (TermMap.sameAll_symm hxs) hpredicates
  have hy : ys ≠ [] := TermMap.ne_nil_of_sameAll (TermMap.sameAll_symm hys) hobjects
  refine ⟨xs, ys, hxs, hys, fun u hu place place' => ⟨?_, ?_⟩⟩
  · exact readPredicates_eq_pure hx (hps.imp fun n got h => h u hu place)
  · refine readObjects_eq_pure hy (hos.imp fun n got h => ?_)
    rw [readObject_untagged, objectSite_of_sameAll hxs]
    exact h u hu place'

/-! ## Mappings of predicate to objects -/

/-- A pair that is read as a predicate-object map from now on. -/
structure PairMeans (s : Style) (t : PrefixTable) (e : Entry) (pom : PredicateObjectMap) :
    Prop where
  plain : e.key.target = e.key ∧ e.value.target = e.value
  reads : ∃ got, got.same pom = true ∧
    ∀ u, s.Grows t u → ∀ place, readPair (s.scope u) e place = pure got

theorem PairMeans.grows {e : Entry} (h : s.PairMeans t e pom) (hg : s.Grows t u) :
    s.PairMeans u e pom :=
  ⟨h.plain, h.reads.imp fun _ hr => ⟨hr.1, fun v hv => hr.2 v (hg.trans hv)⟩⟩

/-- A node that is read as predicate-object maps from now on. -/
structure PairsMean (s : Style) (t : PrefixTable) (n : Node) (poms : List PredicateObjectMap) :
    Prop where
  target : n.target = n
  reads : ∃ gots, PredicateObjectMap.sameAll gots poms = true ∧
    ∀ u, s.Grows t u → ∀ place, readPredicateObjects (s.scope u) n place = pure gots

/-- A pair of settled terms is read as its map. -/
theorem pairMeans_entry {key : Node} (hpredicates : pom.predicates = [predicate])
    (hgraphs : pom.graphs = []) (hobjects : pom.objects ≠ [])
    (hkey : s.Means t { position := .predicate } key predicate)
    (hos : List.Forall₂ (fun tm n => s.Means t (objectSite pom.predicates) n tm) pom.objects os) :
    s.PairMeans t ⟨key, single compactList os⟩ pom := by
  have hsingle := forall_mem_right hos fun _ _ h => h.single
  refine ⟨⟨hkey.single.target, target_single target_compactList hsingle⟩, ?_⟩
  have hp : List.Forall₂ (fun tm n => s.Means t { position := .predicate } n tm) pom.predicates
      [key] := by
    rw [hpredicates]
    exact .cons hkey .nil
  obtain ⟨xs, ys, hxs, hys, hread⟩ :=
    exists_pair hp hos (by rw [hpredicates]; exact List.cons_ne_nil _ _) hobjects
  refine ⟨{ span := key.span, predicates := xs, objects := ys }, ?_, fun u hu place => ?_⟩
  · rw [PredicateObjectMap.same, hxs, hys, hgraphs]
    rfl
  · have hitems : (single compactList os).items = os := items_single items_compactList hsingle
    obtain ⟨hpred, hobj⟩ := hread u hu place place
    rw [readPair, hpred, pure_bind, hitems, hobj, pure_bind]

theorem ensures_writeKey (hs : s.Sound) (hc : s.Covers t) (seen : List String) (tm : TermMap) :
    Ensures s (writeKey s seen tm) t fun key u =>
      ∀ n, key = some n → s.Means u { position := .predicate } n tm := by
  unfold writeKey
  refine (ensures_writeTerm hs tm _ hc).bind fun n u _ hn => .pure fun m hm => ?_
  split at hm
  · cases hm
    exact hn
  · cases hm

/-- Inline entries are read as their maps from now on. -/
theorem ensures_writeInlineEntries (hs : s.Sound) (hpoms : ∀ pom ∈ poms, pom.objects ≠ [])
    (hc : s.Covers t) (seen : List String) :
    Ensures s (writeInlineEntries s seen poms) t fun es u =>
      ∀ es', es = some es' → List.Forall₂ (fun pom e => s.PairMeans u e pom) poms es' := by
  induction poms generalizing t seen with
  | nil =>
    rw [writeInlineEntries]
    refine .pure fun es' h => ?_
    cases h
    exact .nil
  | cons pom rest ih =>
    rw [List.forall_mem_cons] at hpoms
    rw [writeInlineEntries]
    split
    · next predicate hpredicates hgraphs =>
      refine (ensures_writeKey hs hc seen predicate).bind fun key u hu hkey => ?_
      split
      · exact .pure nofun
      · next key =>
        have hcu := hc.grows hu
        refine (ensures_writeTerms hs hcu _ pom.objects).bind fun os v hv hos => ?_
        refine (ih hpoms.2 (hcu.grows hv) _).bind fun more w hw hmore => .pure fun es' h => ?_
        obtain ⟨es, hes, rfl⟩ := Option.map_eq_some_iff.1 h
        refine .cons ?_ (hmore es hes)
        -- the entry still means the map after the others are written
        have hpair := pairMeans_entry hpredicates hgraphs hpoms.1 ((hkey key rfl).grows hv) hos
        exact hpair.grows hw
    · exact .pure nofun

/-- A mapping of entries that mean predicate-object maps means all of them. -/
theorem pairsMean_ofEntries {es : List Entry}
    (h : List.Forall₂ (fun pom e => s.PairMeans t e pom) poms es) :
    s.PairsMean t (.ofEntries es) poms := by
  obtain ⟨gots, hsame, hall⟩ := exists_forall₂ (h.imp fun _ _ hmeans => hmeans.reads)
  refine ⟨rfl, gots, PredicateObjectMap.sameAll_iff_forall₂.2 hsame.flip, fun u hu place => ?_⟩
  change Logged.those ((Node.ofEntries es).entries.map _) = _
  rw [entries_ofEntries (forall_mem_right h fun _ _ he => he.plain)]
  refine Logged.those_eq_pure ?_
  rw [List.forall₂_map_left_iff]
  exact hall.imp fun e got he => he u hu _

/-- A mapping of pairs is read as its maps from now on. -/
theorem ensures_writeInline (hs : s.Sound) (hpoms : ∀ pom ∈ poms, pom.objects ≠ [])
    (hc : s.Covers t) :
    Ensures s (writeInline s poms) t fun n u => ∀ m, n = some m → s.PairsMean u m poms := by
  unfold writeInline optional
  refine Ensures.tryCatch ?_ fun e u _ => .pure nofun
  refine (ensures_writeInlineEntries hs hpoms hc []).bind fun es u _ hes => ?_
  split
  · exact .pure nofun
  · next es =>
    refine Ensures.get.bind fun v w _ hvw => ?_
    obtain ⟨rfl, rfl⟩ := hvw
    refine .pure fun m hm => ?_
    split at hm
    · cases hm
      exact pairsMean_ofEntries (hes es rfl)
    · cases hm

/-! ## Entries of a list -/

/-- A node that is read as a predicate-object map from now on. -/
structure EntryMeans (s : Style) (t : PrefixTable) (n : Node) (pom : PredicateObjectMap) :
    Prop where
  target : n.target = n
  reads : ∃ got, got.same pom = true ∧
    ∀ u, s.Grows t u → ∀ place, readEntry (s.scope u) n place = pure [got]

theorem EntryMeans.grows (h : s.EntryMeans t n pom) (hg : s.Grows t u) : s.EntryMeans u n pom :=
  ⟨h.target, h.reads.imp fun _ hr => ⟨hr.1, fun v hv => hr.2 v (hg.trans hv)⟩⟩

/-! ### Lists of a predicate and an object -/

/-- How the tag of a list is read. -/
def taggingOf (tag : String) : Tagging :=
  if tag = "" then {} else .ofText tag

/-- A list has its predicate, its object and perhaps a tag. -/
theorem readList_listEntry (scope : Scope) (hp : IsSingle p) (ho : IsSingle o) (tag : String)
    (place : Place) :
    readList scope (listEntry p tag o) place = (do
      let predicates ← readPredicates scope [p] (place.item 0)
      let objects ← readObjects scope predicates (taggingOf tag) [o] (place.item 1)
      return { predicates, objects }) := by
  unfold listEntry taggingOf
  split
  · have hitems : (Node.flowList ([p, o] ++ [])).items = [p, o] := by
      change [p.target, o.target] = _
      rw [hp.target, ho.target]
    rw [readList, hitems]
    dsimp only
    rw [hp.items, ho.items]
    rfl
  · have hitems : (Node.flowList ([p, o] ++ [.ofText tag])).items = [p, o, .ofText tag] := by
      change [p.target, o.target, _] = _
      rw [hp.target, ho.target]
      rfl
    rw [readList, hitems]
    dsimp only
    rw [hp.items, ho.items]
    rfl

theorem readEntry_listEntry (scope : Scope) (p o : Node) (tag : String) (place : Place) :
    readEntry scope (listEntry p tag o) place =
      Logged.those [readList scope (listEntry p tag o) place] := rfl

/-- A list that passes the check is read at some place. -/
theorem exists_of_readsAsEntry {scope : Scope} {tag : String}
    (h : readsAsEntry scope pom (listEntry p tag o) = true) :
    ∃ got place, got.same pom = true ∧ readList scope (listEntry p tag o) place = pure got := by
  let place : Place := Place.item {} 0
  let x := readList scope (listEntry p tag o) place
  have hread : readPredicateObjects scope (.blockList [listEntry p tag o]) {} =
      (do return (← Logged.each [Logged.those [x]]).flatten) := rfl
  unfold readsAsEntry readsAsPairs at h
  dsimp only at h
  rw [hread, Bool.and_eq_true, List.isEmpty_iff] at h
  simp only [Logged.notes_bind, Logged.notes_pure, Logged.notes_each, Logged.notes_those,
    Logged.value_bind, Logged.value_pure, Logged.value_each, Logged.value_those,
    List.flatMap_cons, List.flatMap_nil, List.append_nil, List.map_cons, List.map_nil,
    List.flatten_cons, List.flatten_nil] at h
  obtain ⟨hnotes, hvalue⟩ := h
  cases hx : x.run.value with
  | none =>
    rw [List.filterMap_cons, hx] at hvalue
    cases hvalue
  | some got =>
    rw [List.filterMap_cons, hx, List.filterMap_nil, PredicateObjectMap.sameAll,
      Bool.and_eq_true] at hvalue
    exact ⟨got, place, hvalue.1, Logged.eq_pure_iff.2 ⟨hx, hnotes⟩⟩

/-- A tag whose name keeps its meaning. -/
def FirmTag (s : Style) (t : PrefixTable) (tag : Tagging) : Prop :=
  tag.datatype = "" ∨ ∃ iri, s.Settled t tag.datatype iri

theorem FirmTag.grows (h : s.FirmTag t tag) (hg : s.Grows t u) : s.FirmTag u tag :=
  h.imp_right fun hi => hi.imp fun _ hi => hi.grows hg

/-- A tag is read alike at every place. -/
theorem readTag_eq_pure {d d' : Draft} {place' : Place} (h : readTag tag d n place = pure d') :
    readTag tag d n place' = pure d' := by
  unfold readTag at h ⊢
  split at h
  · next htag =>
    rw [if_pos htag]
    exact h
  · next htag =>
    rw [if_neg htag]
    split at h
    · exact absurd h refuse_ne_pure
    · next htagged =>
      rw [if_neg htagged]
      exact h

theorem firmDraft_of_readTag {d d' : Draft} (htag : s.FirmTag t tag) (hd : s.FirmDraft t d tm)
    (h : readTag tag d n place = pure d') :
    s.FirmDraft t d' tm := by
  unfold readTag at h
  split at h
  · cases Attempt.pure_inj.1 h
    exact hd
  · split at h
    · exact absurd h refuse_ne_pure
    · cases Attempt.pure_inj.1 h
      exact ⟨htag, hd.value⟩

/-- **A firm scalar with a firm tag is read alike from now on.** -/
theorem readObject_grows (hs : s.Sound) {text : String} {got : TermMap}
    (hfirm : s.FirmText t text got) (htag : s.FirmTag t tag)
    (h : readObject (s.scope t) site tag (.ofText text) place = pure got) (hg : s.Grows t u)
    (place' : Place) : readObject (s.scope u) site tag (.ofText text) place' = pure got := by
  obtain ⟨d, hd, hrest⟩ := Attempt.bind_eq_pure_iff.1 h
  obtain ⟨d', hd', hcompletion⟩ := Attempt.bind_eq_pure_iff.1 hrest
  obtain ⟨scalar, hscalar, rfl⟩ := readDraft_ofText_eq_pure_iff.1 hd
  have hdraft := firmDraft_of_readTag htag (firmDraft_of_scalar hfirm hscalar {}) hd'
  refine Attempt.bind_eq_pure_iff.2 ⟨_, readDraft_ofText_eq_pure_iff.2 ⟨scalar, hscalar, rfl⟩, ?_⟩
  refine Attempt.bind_eq_pure_iff.2 ⟨d', readTag_eq_pure hd', ?_⟩
  exact readCompletion_eq_pure
    (complete_grows hs hg hdraft (complete_of_readCompletion hcompletion))
    _ _

/-- What is read of a predicate and an object in a list. -/
theorem readList_eq_pure_iff {scope : Scope} (hp : IsSingle p) (ho : IsSingle o) {tag : String}
    {got : PredicateObjectMap} :
    readList scope (listEntry p tag o) place = pure got ↔ ∃ x y,
      got = { predicates := [x], objects := [y] } ∧
      readTerm scope { position := .predicate } p (place.item 0) = pure x ∧
      readObject scope (objectSite [x]) (taggingOf tag) o (place.item 1) = pure y := by
  rw [readList_listEntry scope hp ho]
  constructor
  · intro h
    obtain ⟨xs, hxs, hrest⟩ := Attempt.bind_eq_pure_iff.1 h
    obtain ⟨ys, hys, hgot⟩ := Attempt.bind_eq_pure_iff.1 hrest
    cases Attempt.pure_inj.1 hgot
    obtain ⟨xs', hxs', hx⟩ := Attempt.bind_eq_pure_iff.1 hxs
    obtain ⟨ys', hys', hy⟩ := Attempt.bind_eq_pure_iff.1 hys
    cases Attempt.forall₂_of_all_eq_pure hxs' with
    | cons hread hnil =>
      cases hnil
      cases Attempt.pure_inj.1 hx
      cases Attempt.forall₂_of_all_eq_pure hys' with
      | cons hread' hnil' =>
        cases hnil'
        cases Attempt.pure_inj.1 hy
        exact ⟨_, _, rfl, hread, hread'⟩
  · rintro ⟨x, y, rfl, hx, hy⟩
    rw [readPredicates_eq_pure (List.cons_ne_nil x []) (.cons hx .nil), pure_bind,
      readObjects_eq_pure (List.cons_ne_nil y []) (.cons hy .nil), pure_bind]

/-- **A list with a firm scalar that reads as a predicate-object map means it.** -/
theorem entryMeans_of_check (hs : s.Sound) {text tag : String} (hobjects : pom.objects = [object])
    (hp : s.Means t { position := .predicate } p predicate) (htext : s.FirmText t text object)
    (htag : s.FirmTag t (taggingOf tag))
    (h : readsAsEntry (s.scope t) pom (listEntry p tag (.ofText text)) = true) :
    s.EntryMeans t (listEntry p tag (.ofText text)) pom := by
  have ho := isSingle_ofText text
  obtain ⟨got, place, hsame, hread⟩ := exists_of_readsAsEntry h
  obtain ⟨x, y, rfl, hx, hy⟩ := (readList_eq_pure_iff hp.single ho).1 hread
  obtain ⟨x', -, hreads⟩ := hp.reads
  cases Attempt.pure_inj.1 ((hreads t (.refl s t) _).symm.trans hx)
  have hobject : y.same object = true := by
    rw [PredicateObjectMap.same, hobjects] at hsame
    simp only [Bool.and_eq_true, TermMap.sameAll] at hsame
    exact hsame.1.2.1
  refine ⟨rfl, _, hsame, fun u hu place' => ?_⟩
  rw [readEntry_listEntry]
  refine Logged.those_eq_pure (.cons ((readList_eq_pure_iff hp.single ho).2 ?_) .nil)
  exact ⟨x, y, rfl, hreads u hu _, readObject_grows hs (htext.of_same hobject) htag hy hu _⟩

/-- A list of nodes that mean a predicate and an object. -/
theorem entryMeans_of_means (hpredicates : pom.predicates = [predicate])
    (hobjects : pom.objects = [object]) (hgraphs : pom.graphs = [])
    (hp : s.Means t { position := .predicate } p predicate)
    (ho : s.Means t (objectSite [predicate]) o object) :
    s.EntryMeans t (listEntry p "" o) pom := by
  obtain ⟨x, hx, hreads⟩ := hp.reads
  obtain ⟨y, hy, hreads'⟩ := ho.reads
  have hxs : TermMap.sameAll [x] [predicate] = true := by simp [TermMap.sameAll, hx]
  refine ⟨rfl, { predicates := [x], objects := [y] }, ?_, fun u hu place => ?_⟩
  · rw [PredicateObjectMap.same, hpredicates, hobjects, hgraphs]
    simp [TermMap.sameAll, hx, hy]
  · rw [readEntry_listEntry]
    refine Logged.those_eq_pure (.cons ((readList_eq_pure_iff hp.single ho.single).2 ?_) .nil)
    refine ⟨x, y, rfl, hreads u hu _, ?_⟩
    rw [objectSite_of_sameAll hxs]
    exact (readObject_untagged ..).trans (hreads' u hu _)

theorem stripEnd?_append (body stop : String) :
    Text.stripEnd? stop (body ++ stop) = some body := by
  rw [Text.stripEnd?, Chars.stripEnd?, String.toList_append, List.reverse_append,
    Chars.stripStart?_append, Option.map_some, Option.map_some, List.reverse_reverse,
    String.ofList_toList]

theorem firmTag_of_settled {tag iri : String} (h : s.Settled t tag iri) :
    s.FirmTag t (taggingOf tag) := by
  unfold taggingOf
  split
  · exact .inl rfl
  · unfold Tagging.ofText
    split
    · exact .inl rfl
    · exact .inr ⟨iri, h⟩

/-- A tag is firm from now on. -/
theorem ensures_tagText (hs : s.Sound) (hc : s.Covers t) (datatype language : String) :
    Ensures s (tagText s datatype language) t fun tag u => s.FirmTag u (taggingOf tag) := by
  unfold tagText
  split
  · refine .pure ?_
    unfold taggingOf
    split
    · exact .inl rfl
    · rw [Tagging.ofText, stripEnd?_append]
      exact .inl rfl
  · exact (ensures_iriText hs hc datatype).mono fun text u _ h =>
      firmTag_of_settled h.settled.choose_spec

/-- An object and its tag keep their meaning when split. -/
theorem ensures_splitTag (hs : s.Sound) (hc : s.Covers t) (tm : TermMap) :
    Ensures s (splitTag s tm) t fun split u =>
      split.1.meaning? = tm.meaning? ∧ s.FirmTag u (taggingOf split.2) := by
  unfold splitTag
  split
  · next term hvalue =>
    split
    · refine (ensures_tagText hs hc _ _).bind fun tag u _ htag => .pure ⟨?_, htag⟩
      unfold TermMap.meaning?
      rw [hvalue]
    · exact .pure ⟨rfl, .inl rfl⟩
  · split
    · exact (ensures_tagText hs hc _ _).bind fun tag u _ htag => .pure ⟨rfl, htag⟩
    · exact .pure ⟨rfl, .inl rfl⟩

/-- A list is read as its map from now on. -/
theorem ensures_writeList (hs : s.Sound) (hc : s.Covers t)
    (hpredicates : pom.predicates = [predicate]) (hobjects : pom.objects = [object])
    (hgraphs : pom.graphs = []) :
    Ensures s (writeList s pom predicate object) t fun n u =>
      ∀ m, n = some m → s.EntryMeans u m pom := by
  unfold writeList
  refine (ensures_writeTerm hs predicate _ hc).bind fun p u hu hp => ?_
  split
  · exact .pure nofun
  · have hcu := hc.grows hu
    refine (ensures_splitTag hs hcu object).bind fun split v hv hsplit => ?_
    obtain ⟨plain, tag⟩ := split
    obtain ⟨hmeaning, htag⟩ := hsplit
    have hcv := hcu.grows hv
    refine (ensures_candidates hs hcv _ plain).bind fun texts w hw htexts => ?_
    refine Ensures.get.bind fun x y _ hxy => ?_
    obtain ⟨rfl, rfl⟩ := hxy
    dsimp only
    split
    · next n hn =>
      obtain ⟨text, htext, rfl⟩ := List.mem_map.1 (List.mem_of_find?_eq_some hn)
      have hcheck := List.find?_some hn
      -- the candidate was chosen for the object without its tag, which has the same name in it
      have hfirm : s.FirmText _ text object := fun meant hm =>
        htexts text htext meant (hmeaning.trans hm)
      refine .pure fun m hm => ?_
      cases hm
      exact entryMeans_of_check hs hobjects (hp.grows (hv.trans hw)) hfirm (htag.grows hw) hcheck
    · split
      · exact .pure nofun
      · -- no scalar fits, so the object is written with all its parts
        refine (ensures_writeTerm hs object _ (hcv.grows hw)).bind fun o x hx ho => ?_
        refine Ensures.get.bind fun y z _ hyz => ?_
        obtain ⟨rfl, rfl⟩ := hyz
        refine .pure fun m hm => ?_
        split at hm
        · cases hm
          exact entryMeans_of_means hpredicates hobjects hgraphs
            (hp.grows ((hv.trans hw).trans hx)) ho
        · cases hm

theorem ensures_writeCompact (hs : s.Sound) (hc : s.Covers t) (pom : PredicateObjectMap) :
    Ensures s (writeCompact s pom) t fun n u => ∀ m, n = some m → s.EntryMeans u m pom := by
  unfold writeCompact
  split
  · next predicate object hpredicates hobjects hgraphs =>
    refine Ensures.tryCatch ?_ fun e u _ => .pure nofun
    exact ensures_writeList hs hc hpredicates hobjects hgraphs
  · exact .pure nofun

/-! ### Entries that name their parts -/

theorem readGraphs_eq_pure {scope : Scope} {gots : List TermMap} (hitems : n.items = ns)
    (h : List.Forall₂ (fun n got => ∀ place, readTerm scope { position := .graph } n place =
      pure got) ns gots) (place : Place) : readGraphs scope n place = pure gots := by
  rw [readGraphs, hitems]
  exact Logged.those_eq_pure (forall₂_mapIdx_left (h.imp fun _ _ hr i => hr _))

/-- The parts of an entry. -/
def entryParts (ps os gs : List Node) : List (EntryKey × String × Option Node) :=
  [(.predicates, "p", some (single compactList ps)), (.objects, "o", some (single compactList os)),
    (.graphs, "graph", if gs.isEmpty then none else some (single compactList gs))]

theorem partEntries_entryParts (ps os gs : List Node) :
    partEntries (entryParts ps os gs) =
      [entry "p" (single compactList ps), entry "o" (single compactList os)] ++
        if gs.isEmpty then [] else [entry "graph" (single compactList gs)] := by
  unfold entryParts
  split <;> rfl

theorem readKeys_entryParts (ps os gs : List Node) (place : Place) :
    readKeys entryKeys (.ofEntries (partEntries (entryParts ps os gs))) place =
      pure (keyedParts (entryParts ps os gs)) := by
  refine readKeys_parts ?_ ?_ place
  · simp only [entryParts, List.forall_mem_cons]
    decide +kernel
  · show [EntryKey.predicates, .objects, .graphs].Nodup
    decide

/-- An entry that names its parts is read part by part. -/
theorem readEntry_entryParts (scope : Scope) (ps os gs : List Node) (place : Place) :
    readEntry scope (.ofEntries (partEntries (entryParts ps os gs))) place =
      Logged.those [readParts scope (.ofEntries (partEntries (entryParts ps os gs))) place] := by
  have hnames : namesParts (.ofEntries (partEntries (entryParts ps os gs))) = true := by
    have hkey (n : Node) : (entryKeys.find? ⟨.ofText "p", n⟩).isSome = true := by
      show (entryKeys.spellings.lookup (Text.lower "p")).isSome = true
      decide +kernel
    rw [namesParts, partEntries_entryParts]
    exact List.any_eq_true.2 ⟨_, List.mem_cons_self .., hkey _⟩
  unfold readEntry
  rw [if_pos hnames]
  rfl

/-- An entry is read as what its parts are read as. -/
theorem readEntry_parts {scope : Scope} {ps gs : List Node} {xs ys zs : List TermMap}
    (hps : ∀ n ∈ ps, IsSingle n) (hos : ∀ n ∈ os, IsSingle n) (hgs : ∀ n ∈ gs, IsSingle n)
    (hx : ∀ place, readPredicates scope ps place = pure xs)
    (hy : ∀ place, readObjects scope xs {} os place = pure ys)
    (hz : List.Forall₂ (fun n got => ∀ place, readTerm scope { position := .graph } n place =
      pure got) gs zs) (place : Place) :
    readEntry scope (.ofEntries (partEntries (entryParts ps os gs))) place =
      pure [{ predicates := xs, objects := ys, graphs := zs }] := by
  rw [readEntry_entryParts]
  refine Logged.those_eq_pure (.cons (Attempt.bind_eq_pure_iff.2 ⟨_,
    Attempt.lift_eq_pure_iff.2 (readKeys_entryParts ps os gs place), ?_⟩) .nil)
  have hkp : (keyedParts (entryParts ps os gs)).value? .predicates =
      some (single compactList ps) := by
    simp [entryParts, value?_keyedParts_cons, target_single target_compactList hps]
  have hko : (keyedParts (entryParts ps os gs)).value? .objects =
      some (single compactList os) := by
    simp [entryParts, value?_keyedParts_cons, target_single target_compactList hos]
  rw [hkp, hko]
  dsimp only
  rw [items_single items_compactList hps, items_single items_compactList hos]
  refine Attempt.bind_eq_pure_iff.2 ⟨xs, hx _, Attempt.bind_eq_pure_iff.2 ⟨ys, hy _, ?_⟩⟩
  cases gs with
  | nil =>
    cases hz
    rfl
  | cons g gs =>
    have hkg : (keyedParts (entryParts ps os (g :: gs))).value? .graphs =
        some (single compactList (g :: gs)) := by
      simp [entryParts, value?_keyedParts_cons, target_single target_compactList hgs]
    rw [hkg]
    refine Attempt.bind_eq_pure_iff.2 ⟨zs, Attempt.lift_eq_pure_iff.2 ?_, rfl⟩
    exact readGraphs_eq_pure (items_single items_compactList hgs) hz _

/-- An entry with settled parts is read as its map. -/
theorem entryMeans_parts {ps gs : List Node}
    (hp : List.Forall₂ (fun tm n => s.Means t { position := .predicate } n tm) pom.predicates ps)
    (ho : List.Forall₂ (fun tm n => s.Means t (objectSite pom.predicates) n tm) pom.objects os)
    (hg : List.Forall₂ (fun tm n => s.Means t { position := .graph } n tm) pom.graphs gs)
    (hpredicates : pom.predicates ≠ []) (hobjects : pom.objects ≠ []) :
    s.EntryMeans t (.ofEntries (partEntries (entryParts ps os gs))) pom := by
  obtain ⟨xs, ys, hxs, hys, hread⟩ := exists_pair hp ho hpredicates hobjects
  obtain ⟨zs, hzs, hgraphs⟩ := exists_reads hg
  refine ⟨rfl, { predicates := xs, objects := ys, graphs := zs }, ?_, fun u hu => ?_⟩
  · rw [PredicateObjectMap.same, hxs, hys, hzs]
    rfl
  · exact readEntry_parts (forall_mem_right hp fun _ _ h => h.single)
      (forall_mem_right ho fun _ _ h => h.single) (forall_mem_right hg fun _ _ h => h.single)
      (fun place => (hread u hu place place).1) (fun place => (hread u hu place place).2)
      (hgraphs.imp fun _ _ h => h u hu)

/-- A predicate-object map is written in a form that is read. -/
theorem ensures_writePair (hs : s.Sound) (hc : s.Covers t) (hpredicates : pom.predicates ≠ [])
    (hobjects : pom.objects ≠ []) :
    Ensures s (writePair s pom) t fun n u => s.EntryMeans u n pom := by
  unfold writePair
  refine (ensures_writeCompact hs hc pom).bind fun n u hu hn => ?_
  split
  · next n => exact .pure (hn n rfl)
  · have hcu := hc.grows hu
    refine (ensures_writeTerms hs hcu _ pom.predicates).bind fun ps v hv hps => ?_
    refine (ensures_writeTerms hs (hcu.grows hv) _ pom.objects).bind fun os w hw hos => ?_
    refine (ensures_writeTerms hs ((hcu.grows hv).grows hw) _ pom.graphs).bind
      fun gs x hx hgs => ?_
    refine Ensures.get.bind fun y z _ hyz => ?_
    obtain ⟨rfl, rfl⟩ := hyz
    rw [← partEntries_entryParts]
    split
    · refine .pure (entryMeans_parts ?_ ?_ hgs hpredicates hobjects)
      · exact hps.imp fun _ _ h => h.grows (hw.trans hx)
      · exact hos.imp fun _ _ h => h.grows hx
    · exact .throw _

/-! ## Lists of entries -/

/-- Entries are read as their maps from now on. -/
theorem ensures_writeEntries (hs : s.Sound) (hc : s.Covers t) (i : Nat)
    (hpoms : ∀ pom ∈ poms, pom.predicates ≠ [] ∧ pom.objects ≠ []) :
    Ensures s (writeEntries s i poms) t fun ns u =>
      List.Forall₂ (fun pom n => s.EntryMeans u n pom) poms ns := by
  induction poms generalizing t i with
  | nil =>
    rw [writeEntries]
    exact .pure .nil
  | cons pom rest ih =>
    rw [List.forall_mem_cons] at hpoms
    rw [writeEntries]
    have hpair := ensures_writePair hs hc hpoms.1.1 hpoms.1.2
    refine (hpair.tryCatch fun e u _ => .throw _).bind fun n u hu hn => ?_
    refine (ih (hc.grows hu) (i + 1) hpoms.2).bind fun ns v hv hns => ?_
    exact .pure (.cons (hn.grows hv) hns)

/-- A list of entries is read as their maps. -/
theorem pairsMean_blockList (h : List.Forall₂ (fun pom n => s.EntryMeans t n pom) poms ns) :
    s.PairsMean t (.blockList ns) poms := by
  obtain ⟨gots, hsame, hall⟩ := exists_forall₂ (h.imp fun _ _ hmeans => hmeans.reads)
  refine ⟨rfl, gots, PredicateObjectMap.sameAll_iff_forall₂.2 hsame.flip, fun u hu place => ?_⟩
  have hitems : (Node.blockList ns).items = ns :=
    map_target (forall_mem_right h fun _ _ he => he.target)
  have heach : Logged.each ((Node.blockList ns).items.mapIdx fun i e =>
      readEntry (s.scope u) e (place.item i)) = pure (gots.map fun got => [got]) := by
    rw [hitems]
    refine Logged.each_eq_pure (forall₂_mapIdx_left ?_)
    rw [List.forall₂_map_right_iff]
    exact hall.imp fun n got hn i => hn u hu _
  change (Logged.each _ >>= fun entries => pure entries.flatten) = _
  rw [heach, pure_bind]
  exact congrArg pure (List.flatMap_singleton' gots)

/-- **What is written for predicate-object maps means them.** -/
theorem ensures_writePairs (hs : s.Sound) (hc : s.Covers t)
    (hpoms : ∀ pom ∈ poms, pom.predicates ≠ [] ∧ pom.objects ≠ []) :
    Ensures s (writePairs s poms) t fun n u => s.PairsMean u n poms := by
  unfold writePairs
  refine (ensures_writeInline hs (fun pom hpom => (hpoms pom hpom).2) hc).bind fun n u hu hn => ?_
  split
  · next n => exact .pure (hn n rfl)
  · refine (ensures_writeEntries hs (hc.grows hu) 0 hpoms).bind fun ns v hv hns => ?_
    exact .pure (pairsMean_blockList hns)

end Style

end Shorthand

end RdfMapping
