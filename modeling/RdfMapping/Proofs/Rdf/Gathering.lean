/-
# Gathering triples

The statements of a list of triples, said without the loop that gathers them: the subjects and their
predicates in the order in which they come first, and the objects as they come.
-/
import Mathlib.Data.List.Perm.Basic
import RdfMapping.Proofs.Decoding.Names
import RdfMapping.Proofs.Rdf.Escapes

namespace RdfMapping.Rdf.Turtle

variable {lib : TermLibrary} {f : Quad → Term} {qs : List Quad} {k : Term}

/-- No two proper terms have the same text. -/
def TermLibrary.TellsApart (lib : TermLibrary) : Prop :=
  ∀ t u : Term, t.isProper = true → u.isProper = true → lib.key t = lib.key u → t = u

/-! ## Lists with keys -/

section Keys

variable {α : Type} {same : α → Bool} {change : α → α} {new : α} {keys : List Term} {k : Term}

/-- Changes the first element that passes a test, or adds a new one at the end. -/
def upsert (same : α → Bool) (change : α → α) (new : α) : List α → List α
  | [] => [new]
  | a :: rest => if same a then change a :: rest else a :: upsert same change new rest

/-- On elements made from distinct keys, the one of a key is changed or added. -/
theorem upsert_map {make make' : Term → α} (hkeys : keys.Nodup)
    (hsame : ∀ j ∈ keys, same (make j) = true ↔ j = k) (hkeep : ∀ j, j ≠ k → make j = make' j)
    (hchange : k ∈ keys → change (make k) = make' k) (hnew : k ∉ keys → new = make' k) :
    upsert same change new (keys.map make) =
      (if k ∈ keys then keys else keys ++ [k]).map make' := by
  induction keys with
  | nil => simp [upsert, hnew]
  | cons j keys ih =>
    obtain ⟨hj, hkeys⟩ := List.nodup_cons.1 hkeys
    obtain ⟨hhead, htail⟩ := List.forall_mem_cons.1 hsame
    rw [List.map_cons, upsert]
    by_cases hjk : j = k
    · subst hjk
      have hrest : keys.map make = keys.map make' :=
        List.map_congr_left fun i hi => hkeep i fun hij => hj (hij ▸ hi)
      rw [if_pos (hhead.2 rfl), hchange (List.mem_cons_self ..), hrest,
        if_pos (List.mem_cons_self ..), List.map_cons]
    · have hmem : k ∈ j :: keys ↔ k ∈ keys := by
        rw [List.mem_cons]
        exact or_iff_right fun hkj => hjk hkj.symm
      rw [if_neg fun h => hjk (hhead.1 h), hkeep j hjk,
        ih hkeys htail (fun h => hchange (hmem.2 h)) fun h => hnew fun h' => h (hmem.1 h')]
      simp only [hmem]
      split <;> rfl

/-- The same for the keys of a list in the order in which they come first. -/
theorem upsert_eraseDups {l : List Term} {make make' : Term → α}
    (hsame : ∀ j ∈ l, same (make j) = true ↔ j = k) (hkeep : ∀ j, j ≠ k → make j = make' j)
    (hchange : k ∈ l → change (make k) = make' k) (hnew : k ∉ l → new = make' k) :
    upsert same change new (l.eraseDups.map make) = (l ++ [k]).eraseDups.map make' := by
  rw [upsert_map (nodup_eraseDups l) (fun j hj => hsame j (List.mem_eraseDups.1 hj)) hkeep
    (fun h => hchange (List.mem_eraseDups.1 h)) fun h => hnew fun h' => h (List.mem_eraseDups.2 h'),
    eraseDups_concat]
  simp only [List.mem_eraseDups]

/-- Names that tell elements apart keep the order of first ones. -/
theorem eraseDups_map {g : Term → Term} {l : List Term}
    (h : ∀ a ∈ l, ∀ b ∈ l, g a = g b → a = b) : (l.map g).eraseDups = l.eraseDups.map g := by
  induction l using List.reverseRecOn with
  | nil => rfl
  | append_singleton l k ih =>
    have hl : ∀ a ∈ l, ∀ b ∈ l, g a = g b → a = b := fun a ha b hb =>
      h a (List.mem_append_left _ ha) b (List.mem_append_left _ hb)
    have hmem : g k ∈ l.map g ↔ k ∈ l := by
      refine ⟨fun hk => ?_, List.mem_map_of_mem⟩
      obtain ⟨a, ha, hak⟩ := List.mem_map.1 hk
      exact h a (List.mem_append_left _ ha) k (by simp) hak ▸ ha
    rw [List.map_append, List.map_singleton, eraseDups_concat, eraseDups_concat, ih hl]
    simp only [hmem]
    split <;> simp

/-- Triples sorted by a key are the triples. -/
theorem flatMap_filter_perm (hkeys : keys.Nodup) (hqs : ∀ q ∈ qs, f q ∈ keys) :
    (keys.flatMap fun k => qs.filter (f · = k)).Perm qs := by
  induction keys generalizing qs with
  | nil =>
    cases qs with
    | nil => exact .nil
    | cons q rest => exact absurd (hqs q (List.mem_cons_self ..)) List.not_mem_nil
  | cons k keys ih =>
    obtain ⟨hk, hkeys⟩ := List.nodup_cons.1 hkeys
    have hothers : ∀ q ∈ qs.filter (fun q => !decide (f q = k)), f q ∈ keys := by
      intro q hq
      rw [List.mem_filter] at hq
      refine (List.mem_cons.1 (hqs q hq.1)).resolve_left ?_
      simpa using hq.2
    have hsame : keys.flatMap (fun j => (qs.filter fun q => !decide (f q = k)).filter (f · = j)) =
        keys.flatMap fun j => qs.filter (f · = j) := by
      refine List.flatMap_congr fun j hj => ?_
      rw [List.filter_filter]
      refine List.filter_congr fun q _ => ?_
      have hjk : j ≠ k := fun h => hk (h ▸ hj)
      grind
    rw [List.flatMap_cons, ← hsame]
    exact ((ih hkeys hothers).append_left _).trans (List.filter_append_perm _ _)

end Keys

/-! ## Branches -/

/-- A quad in no graph, made of IRIs, blank nodes and literals. -/
structure IsTriple (q : Quad) : Prop where
  graph : q.graph = none
  subject : q.subject.isProper = true
  predicate : q.predicate.isProper = true
  object : q.object.isProper = true

/-- The predicates of some triples, each with its objects. -/
def branchesOf (qs : List Quad) : List Branch :=
  (qs.map Quad.predicate).eraseDups.map fun p =>
    ⟨p, (qs.filter (·.predicate = p)).map Quad.object⟩

/-- The subjects of some triples, each with its branches. -/
def statementsOf (qs : List Quad) : List Statement :=
  (qs.map Quad.subject).eraseDups.map fun s => ⟨s, branchesOf (qs.filter (·.subject = s))⟩

theorem addObject_eq_upsert (p o : Term) (bs : List Branch) :
    addObject lib p o bs =
      upsert (fun b => lib.key b.predicate = lib.key p)
        (fun b => { b with objects := b.objects ++ [o] }) ⟨p, [o]⟩ bs := by
  induction bs with
  | nil => rfl
  | cons b bs ih => simp only [addObject, upsert, ih, decide_eq_true_eq]

theorem addTriple_eq_upsert (sts : List Statement) (q : Quad) :
    addTriple lib sts q =
      upsert (fun st => lib.key st.subject = lib.key q.subject)
        (fun st => { st with branches := addObject lib q.predicate q.object st.branches })
        ⟨q.subject, [⟨q.predicate, [q.object]⟩]⟩ sts := by
  induction sts with
  | nil => rfl
  | cons st sts ih => simp only [addTriple, upsert, ih, decide_eq_true_eq]

section Steps

variable {qs : List Quad} {q : Quad}

theorem filter_concat_of_ne (h : k ≠ f q) :
    (qs ++ [q]).filter (f · = k) = qs.filter (f · = k) := by
  rw [List.filter_append, List.filter_cons_of_neg (by simpa using h.symm), List.filter_nil,
    List.append_nil]

theorem filter_concat_self (f : Quad → Term) :
    (qs ++ [q]).filter (f · = f q) = qs.filter (f · = f q) ++ [q] := by
  rw [List.filter_append, List.filter_cons_of_pos (by simp), List.filter_nil]

theorem filter_eq_nil_of_not_mem (h : k ∉ qs.map f) :
    qs.filter (f · = k) = [] := by
  rw [List.filter_eq_nil_iff]
  intro q hq hk
  exact h (List.mem_map.2 ⟨q, hq, by simpa using hk⟩)

theorem key_eq_iff (hlib : lib.TellsApart) (hqs : ∀ q ∈ qs, (f q).isProper = true)
    (hq : (f q).isProper = true) (hk : k ∈ qs.map f) : lib.key k = lib.key (f q) ↔ k = f q := by
  obtain ⟨r, hr, rfl⟩ := List.mem_map.1 hk
  exact ⟨hlib _ _ (hqs r hr) hq, fun h => h ▸ rfl⟩

/-- One object more. -/
theorem addObject_branchesOf (hlib : lib.TellsApart) (hqs : ∀ r ∈ qs, IsTriple r)
    (hq : IsTriple q) :
    addObject lib q.predicate q.object (branchesOf qs) = branchesOf (qs ++ [q]) := by
  rw [addObject_eq_upsert, branchesOf, branchesOf, List.map_append, List.map_singleton]
  refine upsert_eraseDups (fun p hp => ?_) (fun p hp => ?_) (fun _ => ?_) fun hp => ?_
  · rw [decide_eq_true_eq]
    exact key_eq_iff hlib (fun r hr => (hqs r hr).predicate) hq.predicate hp
  · rw [filter_concat_of_ne hp]
  · rw [filter_concat_self, List.map_append, List.map_singleton]
  · rw [filter_concat_self, filter_eq_nil_of_not_mem hp]
    rfl

/-- One triple more. -/
theorem addTriple_statementsOf (hlib : lib.TellsApart) (hqs : ∀ r ∈ qs, IsTriple r)
    (hq : IsTriple q) :
    addTriple lib (statementsOf qs) q = statementsOf (qs ++ [q]) := by
  rw [addTriple_eq_upsert, statementsOf, statementsOf, List.map_append, List.map_singleton]
  refine upsert_eraseDups (fun s hs => ?_) (fun s hs => ?_) (fun _ => ?_) fun hs => ?_
  · rw [decide_eq_true_eq]
    exact key_eq_iff hlib (fun r hr => (hqs r hr).subject) hq.subject hs
  · rw [filter_concat_of_ne hs]
  · rw [filter_concat_self,
      addObject_branchesOf hlib (fun r hr => hqs r (List.mem_filter.1 hr).1) hq]
  · rw [filter_concat_self, filter_eq_nil_of_not_mem hs]
    have hfirst := addObject_branchesOf hlib (fun r hr => absurd hr List.not_mem_nil) hq
    exact congrArg (Statement.mk q.subject) hfirst

end Steps

/-- **The loop gathers the statements of the triples.** -/
theorem group_eq (hlib : lib.TellsApart) (hqs : ∀ q ∈ qs, IsTriple q) :
    group lib qs = statementsOf qs := by
  induction qs using List.reverseRecOn with
  | nil => rfl
  | append_singleton qs q ih =>
    rw [List.forall_mem_append, List.forall_mem_singleton] at hqs
    rw [group, List.foldl_append, ← group, ih hqs.1]
    exact addTriple_statementsOf hlib hqs.1 hqs.2

/-! ## The order of the triples -/

/-- What statements keep of the triples they are gathered from: all of them and how often they come,
subjects and the predicates of a subject once and in the order in which they come first, and the
order of the objects of a subject and a predicate. -/
structure Gathers (qs : List Quad) (sts : List Statement) : Prop where
  perm : (sts.flatMap Statement.quads).Perm qs
  nodup_subjects : (sts.map Statement.subject).Nodup
  subjects : sts.map Statement.subject = (qs.map Quad.subject).eraseDups
  nodup_predicates : ∀ st ∈ sts, (st.branches.map Branch.predicate).Nodup
  predicates : ∀ st ∈ sts, st.branches.map Branch.predicate =
    ((qs.filter (·.subject = st.subject)).map Quad.predicate).eraseDups
  objects : ∀ st ∈ sts, ∀ b ∈ st.branches, b.objects =
    (qs.filter fun q => q.subject = st.subject ∧ q.predicate = b.predicate).map Quad.object

theorem map_predicate_branchesOf (qs : List Quad) :
    (branchesOf qs).map Branch.predicate = (qs.map Quad.predicate).eraseDups := by
  rw [branchesOf, List.map_map]
  exact List.map_id _

theorem map_subject_statementsOf (qs : List Quad) :
    (statementsOf qs).map Statement.subject = (qs.map Quad.subject).eraseDups := by
  rw [statementsOf, List.map_map]
  exact List.map_id _

/-- The triples of a statement are those of its subject. -/
theorem quads_branchesOf_perm {s : Term} (hs : ∀ q ∈ qs, q.subject = s)
    (hqs : ∀ q ∈ qs, IsTriple q) : (Statement.quads ⟨s, branchesOf qs⟩).Perm qs := by
  have hquads : Statement.quads ⟨s, branchesOf qs⟩ =
      (qs.map Quad.predicate).eraseDups.flatMap fun p => qs.filter (·.predicate = p) := by
    rw [Statement.quads, branchesOf, List.flatMap_map]
    refine List.flatMap_congr fun p _ => ?_
    rw [List.map_map]
    refine (List.map_congr_left fun q hq => ?_).trans (List.map_id _)
    obtain ⟨hmem, hp⟩ := List.mem_filter.1 hq
    rw [decide_eq_true_eq] at hp
    change Quad.mk s p q.object none = q
    rw [← hs q hmem, ← hp, ← (hqs q hmem).graph]
  rw [hquads]
  exact flatMap_filter_perm (nodup_eraseDups _) fun q hq =>
    List.mem_eraseDups.2 (List.mem_map_of_mem hq)

theorem quads_statementsOf_perm (hqs : ∀ q ∈ qs, IsTriple q) :
    ((statementsOf qs).flatMap Statement.quads).Perm qs := by
  rw [statementsOf, List.flatMap_map]
  refine List.Perm.trans (List.Perm.flatMap_left _ fun s _ => ?_)
    (flatMap_filter_perm (nodup_eraseDups _) fun q hq =>
      List.mem_eraseDups.2 (List.mem_map_of_mem hq))
  refine quads_branchesOf_perm (fun q hq => ?_) fun q hq => hqs q (List.mem_filter.1 hq).1
  simpa using (List.mem_filter.1 hq).2

/-- **No triple is lost, doubled or moved within its subject and predicate.** -/
theorem gathers_group (hlib : lib.TellsApart) (hqs : ∀ q ∈ qs, IsTriple q) :
    Gathers qs (group lib qs) := by
  rw [group_eq hlib hqs]
  have hsubjects := map_subject_statementsOf qs
  refine ⟨quads_statementsOf_perm hqs, hsubjects ▸ nodup_eraseDups _, hsubjects, ?_, ?_, ?_⟩
  all_goals
    intro st hst
    obtain ⟨s, -, rfl⟩ := List.mem_map.1 hst
  · exact (map_predicate_branchesOf _) ▸ nodup_eraseDups _
  · exact map_predicate_branchesOf _
  · intro b hb
    obtain ⟨p, -, rfl⟩ := List.mem_map.1 hb
    rw [List.filter_filter]
    refine congrArg (List.map Quad.object) (List.filter_congr fun q _ => ?_)
    simp [Bool.and_comm]

/-! ## IRIs in full -/

/-- A term with its IRI in full. -/
def TermLibrary.expand (lib : TermLibrary) : Term → Term
  | .iri value => .iri (lib.full value)
  | .literal text (.datatype type) => .literal text (.datatype (lib.full type))
  | t => t

/-- A triple with its IRIs in full. -/
def expandQuad (lib : TermLibrary) (q : Quad) : Quad :=
  ⟨lib.expand q.subject, lib.expand q.predicate, lib.expand q.object, q.graph⟩

/-- A statement with its IRIs in full. -/
def Statement.expand (lib : TermLibrary) (st : Statement) : Statement :=
  ⟨lib.expand st.subject,
    st.branches.map fun b => ⟨lib.expand b.predicate, b.objects.map lib.expand⟩⟩

/-- No IRI is given short in one place and in full in another. -/
structure SpeltAlike (lib : TermLibrary) (qs : List Quad) : Prop where
  subject : ∀ q ∈ qs, ∀ r ∈ qs, lib.expand q.subject = lib.expand r.subject → q.subject = r.subject
  predicate : ∀ q ∈ qs, ∀ r ∈ qs, q.subject = r.subject →
    lib.expand q.predicate = lib.expand r.predicate → q.predicate = r.predicate

theorem quads_expand (st : Statement) :
    (st.expand lib).quads = st.quads.map (expandQuad lib) := by
  simp [Statement.quads, Statement.expand, expandQuad, List.flatMap_map, List.map_flatMap,
    Function.comp_def]

/-- **In full the statements still have all triples, as often as they come.** -/
theorem Gathers.expand_perm {sts : List Statement} (h : Gathers qs sts) :
    ((sts.map (Statement.expand lib)).flatMap Statement.quads).Perm (qs.map (expandQuad lib)) := by
  have hquads : (sts.map (Statement.expand lib)).flatMap Statement.quads =
      (sts.flatMap Statement.quads).map (expandQuad lib) := by
    rw [List.flatMap_map, List.map_flatMap]
    exact List.flatMap_congr fun st _ => quads_expand st
  rw [hquads]
  exact h.perm.map _

theorem map_subject_expand (sts : List Statement) :
    (sts.map (Statement.expand lib)).map Statement.subject =
      (sts.map Statement.subject).map lib.expand := by
  rw [List.map_map, List.map_map]
  rfl

theorem map_predicate_expand (st : Statement) :
    (st.expand lib).branches.map Branch.predicate =
      (st.branches.map Branch.predicate).map lib.expand := by
  rw [Statement.expand, List.map_map, List.map_map]
  rfl

/-- In full, the triples of a subject are those of its one spelling. -/
theorem SpeltAlike.filter_subject (h : SpeltAlike lib qs) {s : Term}
    (hs : s ∈ qs.map Quad.subject) :
    (qs.map (expandQuad lib)).filter (·.subject = lib.expand s) =
      (qs.filter (·.subject = s)).map (expandQuad lib) := by
  obtain ⟨r, hr, rfl⟩ := List.mem_map.1 hs
  rw [List.filter_map]
  refine congrArg _ (List.filter_congr fun q hq => ?_)
  rw [Function.comp_apply, decide_eq_decide]
  exact ⟨h.subject q hq r hr, fun h => congrArg lib.expand h⟩

section Spelling

variable {sts : List Statement} {st : Statement}

theorem map_subject_expandQuad (rs : List Quad) :
    (rs.map (expandQuad lib)).map Quad.subject = (rs.map Quad.subject).map lib.expand := by
  rw [List.map_map, List.map_map]
  rfl

theorem map_predicate_expandQuad (rs : List Quad) :
    (rs.map (expandQuad lib)).map Quad.predicate = (rs.map Quad.predicate).map lib.expand := by
  rw [List.map_map, List.map_map]
  rfl

/-- Where no IRI is in two statements in full, none is given in two ways. -/
theorem Gathers.speltAlike (h : Gathers qs sts)
    (hfull : Gathers (qs.map (expandQuad lib)) (sts.map (Statement.expand lib))) :
    SpeltAlike lib qs := by
  constructor
  · intro q hq r hr heq
    have hsubjects := hfull.nodup_subjects
    rw [map_subject_expand, h.subjects] at hsubjects
    exact List.inj_on_of_nodup_map hsubjects (List.mem_eraseDups.2 (List.mem_map_of_mem hq))
      (List.mem_eraseDups.2 (List.mem_map_of_mem hr)) heq
  · intro q hq r hr hsame heq
    have hsubject : q.subject ∈ sts.map Statement.subject := by
      rw [h.subjects, List.mem_eraseDups]
      exact List.mem_map_of_mem hq
    obtain ⟨st, hst, hs⟩ := List.mem_map.1 hsubject
    have hpredicates := hfull.nodup_predicates _ (List.mem_map_of_mem hst)
    rw [map_predicate_expand, h.predicates st hst] at hpredicates
    have hmem {q' : Quad} (hq' : q' ∈ qs) (hs' : q'.subject = st.subject) :
        q'.predicate ∈ ((qs.filter (·.subject = st.subject)).map Quad.predicate).eraseDups :=
      List.mem_eraseDups.2 (List.mem_map_of_mem (List.mem_filter.2 ⟨hq', by simpa using hs'⟩))
    exact List.inj_on_of_nodup_map hpredicates (hmem hq hs.symm) (hmem hr (hsame ▸ hs.symm)) heq

theorem SpeltAlike.subjects (hspelt : SpeltAlike lib qs) (h : Gathers qs sts) :
    (sts.map (Statement.expand lib)).map Statement.subject =
      ((qs.map (expandQuad lib)).map Quad.subject).eraseDups := by
  rw [map_subject_expand, map_subject_expandQuad, h.subjects, eraseDups_map]
  simpa using hspelt.subject

theorem SpeltAlike.predicates (hspelt : SpeltAlike lib qs) (h : Gathers qs sts) (hst : st ∈ sts) :
    (st.expand lib).branches.map Branch.predicate =
      (((qs.map (expandQuad lib)).filter (·.subject = lib.expand st.subject)).map
        Quad.predicate).eraseDups := by
  have hsubject : st.subject ∈ qs.map Quad.subject := by
    rw [← List.mem_eraseDups, ← h.subjects]
    exact List.mem_map_of_mem hst
  rw [map_predicate_expand, hspelt.filter_subject hsubject, map_predicate_expandQuad,
    h.predicates st hst, eraseDups_map]
  simp only [List.mem_map, List.mem_filter, decide_eq_true_eq]
  rintro _ ⟨q, ⟨hq, hqs⟩, rfl⟩ _ ⟨r, ⟨hr, hrs⟩, rfl⟩ heq
  exact hspelt.predicate q hq r hr (hqs.trans hrs.symm) heq

theorem SpeltAlike.objects (hspelt : SpeltAlike lib qs) (h : Gathers qs sts) (hst : st ∈ sts)
    {b : Branch} (hb : b ∈ st.branches) :
    b.objects.map lib.expand =
      ((qs.map (expandQuad lib)).filter fun q =>
        q.subject = lib.expand st.subject ∧ q.predicate = lib.expand b.predicate).map
          Quad.object := by
  have hpredicate := List.mem_map_of_mem (f := Branch.predicate) hb
  rw [h.predicates st hst, List.mem_eraseDups, List.mem_map] at hpredicate
  obtain ⟨r, hr, hrb⟩ := hpredicate
  rw [List.mem_filter, decide_eq_true_eq] at hr
  rw [h.objects st hst b hb, List.filter_map, List.map_map, List.map_map]
  refine congrArg (List.map _) (List.filter_congr fun q hq => ?_)
  rw [Function.comp_apply, decide_eq_decide, ← hr.2, ← hrb]
  refine ⟨fun heq => ⟨congrArg lib.expand heq.1, congrArg lib.expand heq.2⟩, fun heq => ?_⟩
  have hs := hspelt.subject q hq r hr.1 heq.1
  exact ⟨hs, hspelt.predicate q hq r hr.1 hs heq.2⟩

/-- **In full the statements gather the triples just if no IRI is given in two ways.**  An IRI that
is given short in one triple and in full in another heads a statement, or stands as a predicate of
one, once for each of the two. -/
theorem gathers_expand_iff (h : Gathers qs sts) :
    Gathers (qs.map (expandQuad lib)) (sts.map (Statement.expand lib)) ↔ SpeltAlike lib qs := by
  refine ⟨h.speltAlike, fun hspelt => ⟨h.expand_perm, ?_, hspelt.subjects h, ?_, ?_, ?_⟩⟩
  · rw [hspelt.subjects h]
    exact nodup_eraseDups _
  all_goals
    intro st' hst'
    obtain ⟨st, hst, rfl⟩ := List.mem_map.1 hst'
  · rw [hspelt.predicates h hst]
    exact nodup_eraseDups _
  · exact hspelt.predicates h hst
  · intro b' hb'
    obtain ⟨b, hb, rfl⟩ := List.mem_map.1 hb'
    exact hspelt.objects h hst hb

end Spelling

end RdfMapping.Rdf.Turtle
