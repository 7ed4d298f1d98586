/-
# Documents that are written back

A document that was read is written again just if each of its term maps has a form that is read as
it: then the full form of every predicate-object map is read back too.
-/
import RdfMapping.Proofs.Shorthand.ReadingBack
import RdfMapping.Proofs.Shorthand.TermParts

namespace RdfMapping

variable {poms : List PredicateObjectMap} {pom : PredicateObjectMap} {tm object : TermMap}

/-- The datatype of the terms does not depend on positions. -/
theorem Mapping.TermMap.termDatatype_of_same {a b : TermMap} (h : a.same b = true) :
    a.termDatatype = b.termDatatype := by
  obtain ⟨v, _, _, _, _⟩ := a
  obtain ⟨w, _, _, _, _⟩ := b
  rcases v with _ | v <;> rcases w with _ | w
  · simp_all [TermMap.same, TermMap.termDatatype, TermMap.constant?]
  · cases h
  · cases h
  · cases v <;> cases w <;>
      simp_all [TermMap.same, Value.same, TermMap.termDatatype, TermMap.constant?]

/-- A value that a scalar may stand for. -/
def Mapping.Value.IsPlain : Value → Prop
  | .constant _ | .reference _ | .template _ => True
  | .function _ _ | .join _ _ => False

namespace Mapping.Value.IsPlain

variable {v : Value}

theorem nested (h : v.IsPlain) : v.nested = [] := by
  cases v with
  | constant | reference | template | join => rfl
  | function => exact h.elim

theorem of_same {a b : TermMap} (h : v.IsPlain) (hab : a.same b = true) (ha : a.value = some v) :
    ∃ w, b.value = some w ∧ w.IsPlain := by
  rcases TermMap.value_of_same hab with ⟨hnone, -⟩ | ⟨v', w, hv', hw, hsame⟩
  · cases hnone.symm.trans ha
  · cases ha.symm.trans hv'
    refine ⟨w, hw, ?_⟩
    cases v <;> cases w <;> trivial

end Mapping.Value.IsPlain

namespace Shorthand

open Iri (PrefixTable)
open Mapping
open Yaml (Node Entry)

theorem isPlain_of_inferValue {text : String} {v : Value} (h : inferValue text = .ok v) :
    v.IsPlain := by
  rcases cases_of_inferValue h with ⟨term, rfl⟩ | ⟨name, rfl, -⟩ | ⟨rfl, -⟩ | ⟨rfl, -⟩ <;> trivial

/-! ## Steps that may give no form -/

/-- A step that declares nothing, whose result has a property. -/
def Allows {ε α : Type} (x : ExceptT ε (StateM PrefixTable) α) (t : PrefixTable) (Q : α → Prop) :
    Prop :=
  ∃ P, Decides x t P Q

namespace Allows

variable {ε α β : Type} {t : PrefixTable} {x : ExceptT ε (StateM PrefixTable) α} {P R : Prop}
  {Q : α → Prop} {S : β → Prop} {f : α → ExceptT ε (StateM PrefixTable) β}

theorem pure {a : α} (h : Q a) : Allows (Pure.pure a : ExceptT ε (StateM PrefixTable) α) t Q :=
  ⟨True, .pure h⟩

theorem of_decides (h : Decides x t P Q) : Allows x t fun a => P ∧ Q a :=
  ⟨P, h.mono fun _ => And.intro⟩

theorem bind (hx : Allows x t Q) (hf : ∀ a, Q a → Allows (f a) t S) : Allows (x >>= f) t S := by
  obtain ⟨P, ⟨-, a, hrun, ha⟩ | ⟨-, e, hrun⟩⟩ := hx
  · obtain ⟨P', hfa⟩ := hf a ha
    refine ⟨P', ?_⟩
    rw [Decides, Ensures.run_bind_ok hrun]
    exact hfa
  · exact ⟨False, .inr ⟨not_false, e, Ensures.run_bind_error hrun⟩⟩

/-- A form is taken only if what it needs holds. -/
theorem optional {y : Writing (Option α)} (h : Allows y t fun r => ∀ a, r = some a → R) :
    Decides (optional y) t True fun r => ∀ a, r = some a → R := by
  obtain ⟨P, hy⟩ := h
  exact (hy.tryCatch fun _ => .pure fun _ hnone => by cases hnone).congr (iff_of_eq (or_true P))

end Allows

namespace Style

variable {s : Style} {t : PrefixTable} {known : String → Prop} {site : Site} {position : Position}
  {predicate : TermMap} {p : Node} {datatype : String}

/-! ## Predicates and objects -/

/-- A predicate-object map whose term maps can all be written. -/
def WritablePair (s : Style) (t : PrefixTable) (pom : PredicateObjectMap) : Prop :=
  (∀ tm ∈ pom.predicates, s.Writable t { position := .predicate } tm) ∧
    (∀ tm ∈ pom.objects, s.Writable t (objectSite pom.predicates) tm) ∧
      ∀ tm ∈ pom.graphs, s.Writable t { position := .graph } tm

/-- A triples map whose term maps can all be written. -/
def WritableMap (s : Style) (t : PrefixTable) (tm : TriplesMap) : Prop :=
  s.Writable t { position := .subject } tm.subject.term ∧
    (∀ g ∈ tm.subject.graphs, s.Writable t { position := .graph } g) ∧
      ∀ pom ∈ tm.predicateObjects, s.WritablePair t pom

instance (s : Style) (t : PrefixTable) (tm : TriplesMap) : Decidable (s.WritableMap t tm) :=
  inferInstanceAs (Decidable (_ ∧ (∀ g ∈ tm.subject.graphs, _) ∧
    ∀ pom ∈ tm.predicateObjects, (∀ u ∈ PredicateObjectMap.predicates pom, _) ∧
      (∀ u ∈ PredicateObjectMap.objects pom, _) ∧ ∀ u ∈ PredicateObjectMap.graphs pom, _))

theorem decides_writeTerms (site : Site) (h : s.Ready) {tms : List TermMap}
    (hok : ∀ tm ∈ tms, tm.Ok known site.position)
    (hplaced : ∀ tm ∈ tms, tm.Every TermMap.TagsPlaced) :
    Decides (writeTerms s site tms) t (∀ tm ∈ tms, s.Writable t site tm)
      (List.Forall₂ (fun tm n => s.Stands t site n tm) tms) :=
  .mapM fun tm htm => decides_writeTerm h tm site (hok tm htm) (hplaced tm htm)

theorem allows_writeKey (h : s.Ready) (hok : tm.Ok known .predicate)
    (hplaced : tm.Every TermMap.TagsPlaced) (seen : List String) :
    Allows (writeKey s seen tm) t fun _ => s.Writable t { position := .predicate } tm :=
  (Allows.of_decides (decides_writeTerm h tm _ hok hplaced)).bind fun _ hn => .pure hn.1

/-- Entries of predicate to objects are written only for maps whose parts can be. -/
theorem allows_writeInlineEntries (h : s.Ready) (hok : ∀ pom ∈ poms, pom.Ok known)
    (hplaced : ∀ pom ∈ poms, pom.Every TermMap.TagsPlaced) (seen : List String) :
    Allows (writeInlineEntries s seen poms) t fun r =>
      ∀ es, r = some es → ∀ pom ∈ poms, s.WritablePair t pom := by
  induction poms generalizing seen with
  | nil =>
    rw [writeInlineEntries]
    exact .pure fun _ _ => List.forall_mem_nil _
  | cons pom rest ih =>
    rw [List.forall_mem_cons] at hok hplaced
    rw [writeInlineEntries]
    split
    · next predicate hpredicates hgraphs =>
      have hmem : predicate ∈ pom.predicates := hpredicates ▸ List.mem_singleton_self predicate
      refine (allows_writeKey h (hok.1.predicates predicate hmem)
        (hplaced.1.1 predicate hmem) seen).bind fun key hpredicate => ?_
      split
      · exact .pure fun _ hnone => by cases hnone
      · have hobjects := decides_writeTerms (t := t) (objectSite pom.predicates) h
          hok.1.objects hplaced.1.2.1
        refine (Allows.of_decides hobjects).bind fun os hos => ?_
        refine (ih hok.2 hplaced.2 _).bind fun more hmore => .pure fun es hes => ?_
        obtain ⟨es', hes', -⟩ := Option.map_eq_some_iff.1 hes
        refine List.forall_mem_cons.2 ⟨⟨?_, hos.1, ?_⟩, hmore es' hes'⟩
        · rw [hpredicates]
          exact List.forall_mem_singleton.2 hpredicate
        · rw [hgraphs]
          exact List.forall_mem_nil _
    · exact .pure fun _ hnone => by cases hnone

theorem decides_writeInline (h : s.Ready) (hok : ∀ pom ∈ poms, pom.Ok known)
    (hplaced : ∀ pom ∈ poms, pom.Every TermMap.TagsPlaced) :
    Decides (writeInline s poms) t True fun r =>
      ∀ n, r = some n → ∀ pom ∈ poms, s.WritablePair t pom := by
  refine Allows.optional ((allows_writeInlineEntries h hok hplaced []).bind fun r hr => ?_)
  split
  · exact .pure fun _ hnone => by cases hnone
  · next es =>
    refine (Allows.of_decides Decides.get).bind fun u _ => .pure fun _ _ => ?_
    exact hr es rfl

/-! ### Lists of a predicate and an object -/

/-- A tag beside an object: no datatype, or the name of the object's. -/
def TagFor (s : Style) (t : PrefixTable) (tag : String) (object : TermMap) : Prop :=
  (taggingOf tag).datatype = "" ∨ (taggingOf tag).datatype = s.spelling t object.termDatatype

/-- The tag of an object names its datatype. -/
theorem decides_tagText (h : s.Ready) (language : String) (hdatatype : datatype = tm.termDatatype) :
    Decides (tagText s datatype language) t True fun tag => s.TagFor t tag tm := by
  unfold tagText
  split
  · refine .pure (.inl ?_)
    unfold taggingOf
    split
    · rfl
    · rw [Tagging.ofText, stripEnd?_append]
  · refine (decides_iriText h datatype).mono fun tag _ htag => ?_
    unfold TagFor taggingOf Tagging.ofText
    split
    · exact .inl rfl
    · split
      · exact .inl rfl
      · exact .inr (hdatatype ▸ htag)

/-- Only the tag of a literal is split off. -/
theorem decides_splitTag (h : s.Ready) (hok : tm.Ok known position) :
    Decides (splitTag s tm) t True fun r => r = (tm, "") ∨
      tm.termType = .literal ∧ s.TagFor t r.2 tm := by
  unfold splitTag
  split
  · next term hvalue =>
    have hdatatype : term.datatype = tm.termDatatype := by
      rw [TermMap.termDatatype, TermMap.constant?_eq_some_iff.2 hvalue]
      rfl
    split
    · next hliteral =>
      rw [Bool.and_eq_true, decide_eq_true_eq] at hliteral
      refine (decides_tagText h _ hdatatype).bind_sure fun tag htag => .pure (.inr ⟨?_, htag⟩)
      exact (hok.kind hvalue).symm.trans hliteral.1
    · exact .pure (.inl rfl)
  · next hconstant =>
    have hdatatype : tm.datatype = tm.termDatatype := by
      have hnone : tm.constant? = none := Option.eq_none_iff_forall_ne_some.2 fun term hterm =>
        hconstant term (TermMap.constant?_eq_some_iff.1 hterm)
      rw [TermMap.termDatatype, hnone]
      rfl
    split
    · next htagged =>
      refine (decides_tagText h _ hdatatype).bind_sure fun tag htag => .pure (.inr ⟨?_, htag⟩)
      exact hok.typeOk.tagged (by simpa [TermMap.isTagged] using htagged)
    · exact .pure (.inl rfl)

/-- A tag beside a text without tags gives the datatype, and the value stays. -/
theorem of_readTag {tag : Tagging} {d d' : Draft} {n : Node} {place : Place}
    (hd : d.datatype = "") (h : readTag tag d n place = pure d') :
    d'.datatype = tag.datatype ∧ d'.value = d.value := by
  unfold readTag at h
  split at h
  · next hnone =>
    cases Attempt.pure_inj.1 h
    rw [hnone]
    exact ⟨hd, rfl⟩
  · split at h
    · exact absurd h refuse_ne_pure
    · cases Attempt.pure_inj.1 h
      exact ⟨rfl, rfl⟩

/-- A plain value of a literal is spelled in full if the datatype is. -/
theorem writable_of_isPlain (h : s.Ready) {v : Value} (hplaced : object.TagsPlaced)
    (hok : object.Ok known position) (hliteral : object.termType = .literal)
    (hv : object.value = some v) (hplain : v.IsPlain)
    (hname : (s.scope t).resolveOptional (s.optionalSpelling t object.termDatatype) =
      .ok object.termDatatype) : s.Writable t site object := by
  refine ⟨.inr ((hasMapping_iff h hv).2 ?_), ?_⟩
  · cases v with
    | constant term =>
      have hkind : term.kind ≠ .iri := by
        rw [hok.kind hv, hliteral]
        decide
      rw [TermMap.termDatatype, TermMap.constant?_eq_some_iff.2 hv] at hname
      rw [Value.iris, if_neg hkind, List.nil_append, (hplaced term hv).1]
      exact ⟨(resolveOptional_spelling h).1 hname, rfl, trivial⟩
    | reference name =>
      rw [TermMap.termDatatype, TermMap.constant?, hv] at hname
      exact ⟨List.forall_mem_nil _, hname, trivial⟩
    | template pattern =>
      rw [TermMap.termDatatype, TermMap.constant?, hv] at hname
      refine ⟨List.forall_mem_nil _, hname, fun hiri => ?_⟩
      cases hliteral.symm.trans hiri
    | function | join => exact hplain.elim
  · intro value hvalue
    cases hv.symm.trans hvalue
    exact Value.every_of_nested_eq_nil hplain.nested

/-- A literal that is read from a scalar with a tag beside it has a full form. -/
theorem writable_of_readObject (h : s.Ready) {text tag : String} {y : TermMap} {place : Place}
    (hplaced : object.TagsPlaced) (hok : object.Ok known position)
    (hliteral : object.termType = .literal) (htag : s.TagFor t tag object)
    (hread : readObject (s.scope t) site (taggingOf tag) (.ofText text) place = pure y)
    (hsame : y.same object = true) : s.Writable t site object := by
  obtain ⟨d, hd, hrest⟩ := Attempt.bind_eq_pure_iff.1 hread
  obtain ⟨d', hd', hcompletion⟩ := Attempt.bind_eq_pure_iff.1 hrest
  obtain ⟨scalar, hscalar, rfl⟩ := readDraft_ofText_eq_pure_iff.1 hd
  obtain ⟨-, hresolve, hvalue⟩ := of_complete (complete_of_readCompletion hcompletion)
  obtain ⟨⟨body, hbody⟩, huntagged⟩ := of_draftScalar hscalar
  obtain ⟨hdatatype, hkept⟩ := of_readTag (by exact huntagged) hd'
  rw [hdatatype, TermMap.termDatatype_of_same hsame] at hresolve
  -- a scalar stands for a constant, a reference or a template
  obtain ⟨v, hv, hplain⟩ : ∃ v, y.value = some v ∧ v.IsPlain := by
    rcases hvalue with ⟨-, term, hterm, -⟩ | ⟨pattern, hpattern⟩ | ⟨hsame, -⟩
    · exact ⟨_, hterm, trivial⟩
    · exact ⟨_, hpattern, trivial⟩
    · exact ⟨_, hkept ▸ hsame, isPlain_of_inferValue hbody⟩
  obtain ⟨w, hw, hplain⟩ := hplain.of_same hsame hv
  refine writable_of_isPlain h hplaced hok hliteral hw hplain ?_
  -- the datatype comes from the tag, and so its name is read as it
  rcases htag with hempty | hname
  · rw [hempty, Scope.resolveOptional, if_pos rfl] at hresolve
    rw [← Except.ok.inj hresolve]
    rfl
  · unfold optionalSpelling
    split
    · next hempty =>
      rw [hempty]
      rfl
    · exact hname ▸ hresolve

/-- An object that is read from a scalar in a list can be written. -/
theorem writable_of_readsAsEntry (h : s.Ready) {text : String} {r : TermMap × String}
    (hobjects : pom.objects = [object]) (hok : object.Ok known position)
    (hplaced : object.TagsPlaced) (hp : s.Stands t { position := .predicate } p predicate)
    (hr : r = (object, "") ∨ object.termType = .literal ∧ s.TagFor t r.2 object)
    (htext : text ∈ s.scalars t (objectSite [predicate]) r.1)
    (hcheck : readsAsEntry (s.scope t) pom (listEntry p r.2 (.ofText text)) = true) :
    s.Writable t (objectSite [predicate]) object := by
  obtain ⟨got, place, hsame, hread⟩ := exists_of_readsAsEntry hcheck
  obtain ⟨x, y, rfl, hx, hy⟩ := (readList_eq_pure_iff hp.single (isSingle_ofText text)).1 hread
  obtain ⟨x', hx', hreads⟩ := hp.exists_read
  cases Attempt.pure_inj.1 ((hreads _).symm.trans hx)
  have hsite : TermMap.sameAll [x] [predicate] = true := by simp [TermMap.sameAll, hx']
  have hobject : y.same object = true := by
    rw [PredicateObjectMap.same, hobjects] at hsame
    simp only [Bool.and_eq_true, TermMap.sameAll] at hsame
    exact hsame.1.2.1
  rw [objectSite_of_sameAll hsite] at hy
  rcases hr with rfl | ⟨hliteral, htag⟩
  · -- without a tag beside it the scalar is read as a term
    have hterm : readTerm (s.scope t) (objectSite [predicate]) (.ofText text) (place.item 1) =
        pure y := (readObject_untagged ..).symm.trans hy
    have hhas : s.HasScalar t (objectSite [predicate]) object :=
      ⟨text, htext, readsAsTerm_iff.2
        ⟨y, (agree_readTerm (.refl _) _ _ _ _).eq_pure hterm, hobject⟩⟩
    exact ⟨.inl hhas, fun v hv => Value.every_of_nested_eq_nil (hhas.nested v hv)⟩
  · exact writable_of_readObject h hplaced hok hliteral htag hy hobject

/-- A list is written only if the parts can be. -/
theorem allows_writeList (h : s.Ready) (hpredicates : pom.predicates = [predicate])
    (hobjects : pom.objects = [object]) (hgraphs : pom.graphs = []) (hok : pom.Ok known)
    (hplaced : pom.Every TermMap.TagsPlaced) :
    Allows (writeList s pom predicate object) t fun r =>
      ∀ n, r = some n → s.WritablePair t pom := by
  have hokp := hok.predicates predicate (hpredicates ▸ List.mem_singleton_self predicate)
  have hoko := hok.objects object (hobjects ▸ List.mem_singleton_self object)
  have hplacedp := hplaced.1 predicate (hpredicates ▸ List.mem_singleton_self predicate)
  have hplacedo := hplaced.2.1 object (hobjects ▸ List.mem_singleton_self object)
  have hpair (hp : s.Writable t { position := .predicate } predicate)
      (ho : s.Writable t (objectSite [predicate]) object) : s.WritablePair t pom := by
    rw [WritablePair, hpredicates, hobjects, hgraphs]
    exact ⟨List.forall_mem_singleton.2 hp, List.forall_mem_singleton.2 ho, List.forall_mem_nil _⟩
  unfold writeList
  refine (Allows.of_decides (decides_writeTerm h predicate _ hokp hplacedp)).bind fun p hp => ?_
  split
  · exact .pure fun _ hnone => by cases hnone
  · refine (Allows.of_decides (decides_splitTag h hoko)).bind fun r hr => ?_
    refine (Allows.of_decides (decides_candidates h _ r.1)).bind fun texts htexts => ?_
    refine (Allows.of_decides Decides.get).bind fun u hu => ?_
    rw [hu.2, htexts.2]
    dsimp only
    split
    · next n hn =>
      obtain ⟨text, htext, rfl⟩ := List.mem_map.1 (List.mem_of_find?_eq_some hn)
      refine .pure fun _ _ => hpair hp.1 (writable_of_readsAsEntry h hobjects hoko
        (TermMap.forall_nested.1 hplacedo).1 hp.2 hr.2 htext (List.find?_some hn))
    · split
      · exact .pure fun _ hnone => by cases hnone
      · refine (Allows.of_decides (decides_writeTerm h object (objectSite [predicate]) hoko
          hplacedo)).bind fun o ho => ?_
        exact (Allows.of_decides Decides.get).bind fun _ _ => .pure fun _ _ => hpair hp.1 ho.1

theorem decides_writeCompact (h : s.Ready) (hok : pom.Ok known)
    (hplaced : pom.Every TermMap.TagsPlaced) :
    Decides (writeCompact s pom) t True fun r => ∀ n, r = some n → s.WritablePair t pom := by
  unfold writeCompact
  split
  · next predicate object hpredicates hobjects hgraphs =>
    exact Allows.optional (allows_writeList h hpredicates hobjects hgraphs hok hplaced)
  · exact .pure fun _ hnone => by cases hnone

/-! ### Entries that name their parts -/

theorem exists_read_all {tms : List TermMap} {ns : List Node}
    (h : List.Forall₂ (fun tm n => s.Stands t site n tm) tms ns) :
    ∃ gots, TermMap.sameAll gots tms = true ∧
      List.Forall₂ (fun n got => ∀ place, readTerm (s.scope t) site n place = pure got)
        ns gots := by
  obtain ⟨gots, hsame, hread⟩ := exists_forall₂ (h.imp fun _ _ hn => hn.exists_read)
  exact ⟨gots, TermMap.sameAll_iff_forall₂.2 hsame.flip, hread⟩

/-- An entry whose parts stand for those of a map is read so. -/
theorem readsAsEntry_parts {ps os gs : List Node} (hok : pom.Ok known)
    (hp : List.Forall₂ (fun tm n => s.Stands t { position := .predicate } n tm) pom.predicates ps)
    (ho : List.Forall₂ (fun tm n => s.Stands t (objectSite pom.predicates) n tm) pom.objects os)
    (hg : List.Forall₂ (fun tm n => s.Stands t { position := .graph } n tm) pom.graphs gs) :
    readsAsEntry (s.scope t) pom (.ofEntries (partEntries (entryParts ps os gs))) = true := by
  obtain ⟨xs, hxs, hpredicates⟩ := exists_read_all hp
  obtain ⟨ys, hys, hobjects⟩ := exists_read_all ho
  obtain ⟨zs, hzs, hgraphs⟩ := exists_read_all hg
  have hx : xs ≠ [] := TermMap.ne_nil_of_sameAll (TermMap.sameAll_symm hxs) hok.somePredicate
  have hy : ys ≠ [] := TermMap.ne_nil_of_sameAll (TermMap.sameAll_symm hys) hok.someObject
  have hentry (place : Place) :
      readEntry (s.scope t) (.ofEntries (partEntries (entryParts ps os gs))) place =
        pure [{ predicates := xs, objects := ys, graphs := zs }] :=
    readEntry_parts (forall_mem_right hp fun _ _ h => h.single)
      (forall_mem_right ho fun _ _ h => h.single) (forall_mem_right hg fun _ _ h => h.single)
      (fun place => readPredicates_eq_pure hx (hpredicates.imp fun _ _ h => h place))
      (fun place => readObjects_eq_pure hy (hobjects.imp fun _ _ h => by
        rw [readObject_untagged, objectSite_of_sameAll hxs]
        exact h place)) hgraphs place
  have hread : readPredicateObjects (s.scope t)
      (.blockList [.ofEntries (partEntries (entryParts ps os gs))]) {} =
        pure [{ predicates := xs, objects := ys, graphs := zs }] := by
    exact congrArg (fun x => Logged.each [x] >>= fun entries => pure entries.flatten) (hentry _)
  unfold readsAsEntry readsAsPairs
  rw [hread]
  simp [PredicateObjectMap.sameAll, PredicateObjectMap.same, hxs, hys, hzs]

/-- **A predicate-object map is written just if its parts can be.** -/
theorem decides_writePair (h : s.Ready) (hok : pom.Ok known)
    (hplaced : pom.Every TermMap.TagsPlaced) :
    Decides (writePair s pom) t (s.WritablePair t pom) fun _ => True := by
  unfold writePair
  refine (decides_writeCompact h hok hplaced).bind_sure fun r hr => ?_
  split
  · next n => exact (Decides.pure trivial).congr (iff_of_true trivial (hr n rfl))
  · refine (decides_writeTerms _ h hok.predicates hplaced.1).bind fun ps _ hps => ?_
    refine (decides_writeTerms (objectSite pom.predicates) h hok.objects hplaced.2.1).bind
      fun os _ hos => ?_
    refine (decides_writeTerms _ h hok.graphs hplaced.2.2).bind_total fun gs _ hgs => ?_
    refine Decides.get.bind_sure fun u hu => ?_
    rw [hu, ← partEntries_entryParts, if_pos (readsAsEntry_parts hok hps hos hgs)]
    exact .pure trivial

theorem decides_writeEntries (h : s.Ready) (hok : ∀ pom ∈ poms, pom.Ok known)
    (hplaced : ∀ pom ∈ poms, pom.Every TermMap.TagsPlaced) (i : Nat) :
    Decides (writeEntries s i poms) t (∀ pom ∈ poms, s.WritablePair t pom) fun _ => True := by
  induction poms generalizing i with
  | nil =>
    rw [writeEntries]
    exact (Decides.pure trivial).congr (iff_of_true trivial (List.forall_mem_nil _))
  | cons pom rest ih =>
    rw [List.forall_mem_cons] at hok hplaced
    rw [writeEntries, List.forall_mem_cons]
    have hpair := (decides_writePair (t := t) h hok.1 hplaced.1).tryCatch
      fun e => .throw (.atPair i e)
    refine (hpair.congr (iff_of_eq (or_false _))).bind fun n _ _ => ?_
    exact (ih hok.2 hplaced.2 (i + 1)).bind_total fun _ _ _ => .pure trivial

theorem decides_writePairs (h : s.Ready) (hok : ∀ pom ∈ poms, pom.Ok known)
    (hplaced : ∀ pom ∈ poms, pom.Every TermMap.TagsPlaced) :
    Decides (writePairs s poms) t (∀ pom ∈ poms, s.WritablePair t pom) fun _ => True := by
  unfold writePairs
  refine (decides_writeInline h hok hplaced).bind_sure fun r hr => ?_
  split
  · next n => exact (Decides.pure trivial).congr (iff_of_true trivial (hr n rfl))
  · exact (decides_writeEntries h hok hplaced 0).bind_total fun _ _ _ => .pure trivial

/-! ## Triples maps -/

theorem decides_writeSourceParts (h : s.Ready) (ls : LogicalSource) :
    Decides (writeSourceParts s ls) t True fun _ => True := by
  unfold writeSourceParts
  dsimp only
  split
  · exact Decides.bind_sure (Q := fun _ => True) (.pure trivial)
      fun _ _ => decides_optionalIri h (.pure trivial)
  · exact decides_optionalIri h (decides_optionalIri h (.pure trivial))

/-- A source is written whatever its names are, since it is not checked. -/
theorem decides_writeSource (h : s.Ready) (ls : LogicalSource) :
    Decides (writeSource s ls) t True fun _ => True := by
  unfold writeSource
  dsimp only
  split
  · split
    · exact .pure trivial
    · exact decides_writeSourceParts h ls
  · split
    · exact .pure trivial
    · exact decides_writeSourceParts h ls

/-- **A triples map is written just if its term maps can be.** -/
theorem decides_writeTriplesMap (h : s.Ready) {tm : TriplesMap} (hok : tm.Ok known)
    (hplaced : tm.Every TermMap.TagsPlaced) :
    Decides (writeTriplesMap s tm) t (s.WritableMap t tm) fun _ => True := by
  obtain ⟨hsubject, hgraphs, hpoms⟩ := forall_termMaps.1 hplaced
  have hclasses : Decides (tm.subject.classes.mapM s.iriText) t True fun _ => True :=
    ((Decides.mapM fun iri _ => decides_iriText h iri).mono fun _ _ _ => trivial).congr
      (iff_of_true (fun _ _ => trivial) trivial)
  unfold writeTriplesMap
  refine Decides.ite_bind_sure (Q := fun _ => True) (fun _ => .pure trivial)
    (fun _ => (decides_writeSource h tm.source).adapt.map fun _ _ => trivial) fun source _ => ?_
  refine (decides_writeTerm h _ { position := .subject } hok.subject hsubject).adapt.bind
    fun subject _ _ => hclasses.adapt.bind_sure fun classes _ => ?_
  refine (decides_writeTerms _ h hok.graphs hgraphs).adapt.bind fun graphs _ _ => ?_
  refine Decides.congr (Decides.ite_bind (Q := fun _ => True) (fun hempty => ?_) (fun _ => ?_)
    fun pairs _ _ => .pure trivial) (iff_of_eq (and_true _))
  · refine (Decides.pure trivial).congr (iff_of_true trivial ?_)
    rw [List.isEmpty_iff.1 hempty]
    exact List.forall_mem_nil _
  · exact (decides_writePairs h hok.predicateObjects hpoms).adapt.map fun _ _ => trivial

theorem decides_writeMaps (h : s.Ready) {maps : List TriplesMap} (hok : ∀ tm ∈ maps, tm.Ok known)
    (hplaced : ∀ tm ∈ maps, tm.Every TermMap.TagsPlaced) :
    Decides (writeMaps s maps) t (∀ tm ∈ maps, s.WritableMap t tm) fun _ => True :=
  (Decides.mapM (R := fun _ _ => True) fun tm htm =>
    (decides_writeTriplesMap h (hok tm htm) (hplaced tm htm)).bind_total
      fun _ _ _ => .pure trivial).mono fun _ _ _ => trivial

end Style

/-! ## Documents -/

/-- A document whose term maps can all be written, with no prefixes but its own. -/
def Writable (doc : Document) : Prop :=
  ∀ tm ∈ doc.maps, (styleOf doc {}).WritableMap (declaredPrefixes doc) tm

instance (doc : Document) : Decidable (Writable doc) :=
  inferInstanceAs (Decidable (∀ tm ∈ doc.maps, Style.WritableMap _ _ tm))

/-- **A document that was read is written again just if its term maps can be.** -/
theorem exists_write_iff_of_parse {root : Option Node} {parsed : Parsed}
    (h : parse {} root = .ok parsed) :
    (∃ n, write parsed.document {} = .ok n) ↔ Writable parsed.document := by
  have hread := wellRead_of_parse h
  -- nothing is declared while the maps are written, so each of them meets the same prefixes
  have hmaps := Style.decides_writeMaps (s := styleOf parsed.document {})
    (t := declaredPrefixes parsed.document) ⟨hread.base, rfl⟩
    (Document.isValid_iff.1 (isValid_of_parse h)).2.2 hread.maps
  unfold write
  dsimp only
  change (∃ n, Except.map _ ((writeMaps (styleOf parsed.document {}) _).run.run _).1 = .ok n) ↔ _
  rcases hmaps with ⟨hall, es, hrun, -⟩ | ⟨hnot, e, hrun⟩
  · rw [hrun]
    exact iff_of_true ⟨_, rfl⟩ hall
  · rw [hrun]
    refine iff_of_false ?_ hnot
    rintro ⟨n, hn⟩
    cases hn

/-! ## A mapping that is joined with itself -/

/-- Orders, each of the type of the one that the field `child` names. -/
def orderTree (child : String) : Node :=
  .ofEntries [entry "mappings" (.ofEntries [entry "order" (.ofEntries
    [entry "s" (.ofText "http://ex.org/$(nr)"),
      entry "po" (.ofEntries [entry "a" (.ofEntries [entry "mapping" (.ofText "order"),
        entry "condition" (.ofEntries [entry "child" (.ofText child),
          entry "parent" (.ofText "$(nr)")])])])])])]

/-- The field is named as a reference. -/
theorem exists_write_orders :
    ∃ parsed n, parse {} (some (orderTree "$(before)")) = .ok parsed ∧
      write parsed.document {} = .ok n := by
  have hwritable : ((parse {} (some (orderTree "$(before)"))).toOption.any fun parsed =>
      decide (Writable parsed.document)) = true := by decide +kernel
  cases hparse : parse {} (some (orderTree "$(before)")) with
  | error e =>
    rw [hparse] at hwritable
    cases hwritable
  | ok parsed =>
    rw [hparse] at hwritable
    obtain ⟨n, hn⟩ := (exists_write_iff_of_parse hparse).2 (of_decide_eq_true hwritable)
    exact ⟨parsed, n, rfl, hn⟩

/-! ## Mappings that are read but not written -/

/-- A mapping of items, under the entries of a header. -/
def itemTree (header : List Entry) (subject predicate : String) : Node :=
  .ofEntries (header ++ [entry "mappings" (.ofEntries [entry "item" (.ofEntries
    [entry "s" (.ofText subject),
      entry "po" (.ofEntries [entry predicate (.ofText "$(v)")])])])])

/-- A tree that is read and whose document is not written. -/
def Refused (root : Node) : Prop :=
  ∃ parsed, parse {} (some root) = .ok parsed ∧ ∀ n, write parsed.document {} ≠ .ok n

theorem refused_of_any {root : Node} (h : ((parse {} (some root)).toOption.any fun parsed =>
    !(write parsed.document {}).isOk) = true) : Refused root := by
  cases hparse : parse {} (some root) with
  | error e =>
    rw [hparse] at h
    cases h
  | ok parsed =>
    rw [hparse] at h
    refine ⟨parsed, hparse, fun n hn => ?_⟩
    have hok : (!(write parsed.document {}).isOk) = true := h
    rw [hn] at hok
    cases hok

/-- **What is read is not always written**: a field whose name begins with a dollar sign, of which
each reading takes one sign away; a name with a label that has a colon in it; a name from a relative
namespace, or from a base to which nothing can be added; and a template whose brackets are lost. -/
theorem refused_trees :
    Refused (orderTree "$$before") ∧
      Refused (itemTree [entry "prefixes" (.ofEntries [entry "a:b" (.ofText "http://x/")])]
        "http://ex.org/$(id)" "http://x/c") ∧
      Refused (itemTree [entry "prefixes" (.ofEntries [entry "e" (.ofText "x/")])]
        "http://ex.org/$(id)" "e:a/b") ∧
      Refused (itemTree [entry "base" (.ofText "foo:/bar/")] "http://ex.org/$(id)" "%zz") ∧
      Refused (itemTree [] "<doi:10/>{id}" "http://x/c") := by
  refine ⟨refused_of_any ?_, refused_of_any ?_, refused_of_any ?_, refused_of_any ?_,
    refused_of_any ?_⟩ <;> decide +kernel

end Shorthand

end RdfMapping
