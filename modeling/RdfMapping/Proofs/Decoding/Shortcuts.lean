/-
# Shortcuts for constants

A shortcut leads from a map to a constant, with no node for the term map between them.  Spelling
it out puts such a node in: the map links to a new blank node, and that has the constant.
-/
import RdfMapping.Proofs.Decoding.Outcome

namespace RdfMapping.RuleGraph

open Rdf (Term Quad)

variable {ps : List String} {α β : Type} {q : Quad} {f : α → List α} {P : α → Bool} {a : α}
  {l : List α} {s : Term}

/-! ## Spelling out -/

/-- The shortcuts for constants, with the links they stand for. -/
def shortcutLinks : List (String × String) :=
  [(Property.subject, Property.subjectMap), (Property.predicate, Property.predicateMap),
    (Property.object, Property.objectMap), (Property.graph, Property.graphMap)]

/-- The link that a triple is a shortcut for. -/
def linkOf? (q : Quad) : Option String :=
  q.predicate.iri?.bind fun p => shortcutLinks.lookup p

/-- The link to the new node of a shortcut. -/
def linkTo (label : Quad → String) (link : String) (q : Quad) : Quad :=
  { q with predicate := .iri link, object := .blank (label q) }

/-- The constant of the new node of a shortcut. -/
def constantAt (label : Quad → String) (q : Quad) : Quad :=
  { q with subject := .blank (label q), predicate := .iri Property.constant }

/-- A triple with its shortcut spelled out; the new node gets a label. -/
def spellOut (label : Quad → String) (q : Quad) : List Quad :=
  match linkOf? q with
  | some link => [linkTo label link q, constantAt label q]
  | none => [q]

/-- The labels of the new nodes are distinct and not in use. -/
structure FreshLabels (label : Quad → String) (T : List Quad) : Prop where
  distinct : ∀ q ∈ T, ∀ r ∈ T, (linkOf? q).isSome = true → (linkOf? r).isSome = true →
    label q = label r → q = r
  unused : ∀ q ∈ T, ∀ r ∈ T, (linkOf? r).isSome = true →
    q.subject ≠ .blank (label r) ∧ q.object ≠ .blank (label r)

/-- A node that is no new one. -/
def IsOld (label : Quad → String) (T : List Quad) (n : Term) : Prop :=
  ∀ q ∈ T, (linkOf? q).isSome = true → n ≠ .blank (label q)

section SpellOut

variable {label : Quad → String} {T : List Quad} {q r x : Quad} {link : String} {n : Term}

theorem spellOut_of_none (h : linkOf? q = none) : spellOut label q = [q] := by
  rw [spellOut, h]

theorem spellOut_of_link (h : linkOf? q = some link) :
    spellOut label q = [linkTo label link q, constantAt label q] := by
  rw [spellOut, h]

/-- A shortcut stands for one link. -/
theorem exists_shortcut (h : linkOf? q = some link) :
    ∃ p, q.predicate = .iri p ∧ (p, link) ∈ shortcutLinks := by
  rw [linkOf?, Option.bind_eq_some_iff] at h
  obtain ⟨p, hp, hlookup⟩ := h
  refine ⟨p, ?_, ?_⟩
  · cases hq : q.predicate with
    | iri value =>
      rw [hq] at hp
      cases hp
      rfl
    | blank _ | literal _ _ | other _ | missing =>
      rw [hq] at hp
      cases hp
  · obtain ⟨l₁, l₂, heq, -⟩ := List.lookup_eq_some_iff.1 hlookup
    rw [heq]
    exact List.mem_append_right _ (List.mem_cons_self ..)

theorem linkOf?_ne_constant (h : linkOf? q = some link) : link ≠ Property.constant := by
  obtain ⟨p, -, hmem⟩ := exists_shortcut h
  have hall : ∀ s ∈ shortcutLinks, s.2 ≠ Property.constant := by decide
  exact hall _ hmem

theorem graph_of_mem_spellOut (h : x ∈ spellOut label q) : x.graph = q.graph := by
  unfold spellOut at h
  split at h
  · rcases List.mem_cons.1 h with rfl | h
    · rfl
    · rw [List.mem_singleton.1 h]
      rfl
  · rw [List.mem_singleton.1 h]

theorem exists_mem_spellOut (label : Quad → String) (q : Quad) : ∃ t, t ∈ spellOut label q := by
  unfold spellOut
  split
  · exact ⟨_, List.mem_cons_self ..⟩
  · exact ⟨_, List.mem_cons_self ..⟩

/-- A triple comes from one triple only. -/
theorem FreshLabels.eq_of_mem (hl : FreshLabels label T) (hq : q ∈ T) (hr : r ∈ T)
    (hxq : x ∈ spellOut label q) (hxr : x ∈ spellOut label r) : q = r := by
  -- one that is kept mentions no new node
  have hkept {q r : Quad} {link : String} (hq : q ∈ T) (hr : r ∈ T)
      (hlink : linkOf? r = some link) : q ∉ spellOut label r := by
    obtain ⟨hsubject, hobject⟩ := hl.unused q hq r hr (by rw [hlink]; rfl)
    rw [spellOut_of_link hlink, List.mem_cons, List.mem_singleton]
    rintro (rfl | rfl)
    · exact hobject rfl
    · exact hsubject rfl
  cases hlq : linkOf? q with
  | none =>
    rw [spellOut_of_none hlq, List.mem_singleton] at hxq
    cases hlr : linkOf? r with
    | none =>
      rw [spellOut_of_none hlr, List.mem_singleton] at hxr
      exact hxq.symm.trans hxr
    | some link => exact absurd (hxq ▸ hxr) (hkept hq hr hlr)
  | some link =>
    cases hlr : linkOf? r with
    | none =>
      rw [spellOut_of_none hlr, List.mem_singleton] at hxr
      exact absurd (hxr ▸ hxq) (hkept hr hq hlq)
    | some link' =>
      rw [spellOut_of_link hlq, List.mem_cons, List.mem_singleton] at hxq
      rw [spellOut_of_link hlr, List.mem_cons, List.mem_singleton] at hxr
      have hdistinct := hl.distinct q hq r hr (by rw [hlq]; rfl) (by rw [hlr]; rfl)
      rcases hxq with rfl | rfl <;> rcases hxr with hx | hx
      · exact hdistinct (Term.blank.inj (congrArg Quad.object hx))
      · exact absurd (Term.iri.inj (congrArg Quad.predicate hx)) (linkOf?_ne_constant hlq)
      · exact absurd (Term.iri.inj (congrArg Quad.predicate hx)).symm (linkOf?_ne_constant hlr)
      · exact hdistinct (Term.blank.inj (congrArg Quad.subject hx))

/-- Spelled out, distinct triples stay distinct. -/
theorem FreshLabels.nodup (hl : FreshLabels label T) (hT : T.Nodup) :
    (T.flatMap (spellOut label)).Nodup := by
  rw [List.nodup_flatMap]
  refine ⟨fun q _ => ?_, ?_⟩
  · cases hlink : linkOf? q with
    | none =>
      rw [spellOut_of_none hlink]
      exact List.nodup_singleton q
    | some link =>
      rw [spellOut_of_link hlink, List.nodup_cons, List.mem_singleton]
      refine ⟨fun h => ?_, List.nodup_singleton _⟩
      exact linkOf?_ne_constant hlink (Term.iri.inj (congrArg Quad.predicate h))
  · refine hT.pairwise_of_forall_ne fun q hq r hr hne => ?_
    exact fun x hxq hxr => hne (hl.eq_of_mem hq hr hxq hxr)

theorem FreshLabels.isOld (hl : FreshLabels label T) (hq : q ∈ T) :
    IsOld label T q.subject ∧ IsOld label T q.object :=
  ⟨fun r hr hlink => (hl.unused q hq r hr hlink).1, fun r hr hlink => (hl.unused q hq r hr hlink).2⟩

/-! ## What does not change -/

/-- What holds neither of a shortcut nor of its two triples is not affected. -/
theorem filter_spellOut {P : Quad → Bool}
    (h : ∀ q ∈ T, ∀ link, linkOf? q = some link →
      P q = false ∧ P (linkTo label link q) = false ∧ P (constantAt label q) = false) :
    (T.flatMap (spellOut label)).filter P = T.filter P := by
  induction T with
  | nil => rfl
  | cons q rest ih =>
    rw [List.forall_mem_cons] at h
    rw [List.flatMap_cons, List.filter_append, ih h.2]
    cases hlink : linkOf? q with
    | none =>
      rw [spellOut_of_none hlink, ← List.filter_append, List.singleton_append]
    | some link =>
      obtain ⟨hq, hto, hat⟩ := h.1 link hlink
      rw [spellOut_of_link hlink, List.filter_cons_of_neg (by simp [hto]),
        List.filter_cons_of_neg (by simp [hat]), List.filter_cons_of_neg (by simp [hq])]
      rfl

/-- Properties other than shortcuts, links and the one for constants. -/
def Unspelled (ps : List String) : Prop :=
  Property.constant ∉ ps ∧ ∀ s ∈ shortcutLinks, s.1 ∉ ps ∧ s.2 ∉ ps

instance (ps : List String) : Decidable (Unspelled ps) :=
  inferInstanceAs (Decidable (_ ∧ _))

theorem hasProperty_iri {p : String} (h : q.predicate = .iri p) :
    Graph.hasProperty ps q = ps.contains p := by
  rw [Graph.hasProperty, h]
  rfl

/-- Other properties stay as they are. -/
theorem filter_hasProperty_spellOut (h : Unspelled ps) (T : List Quad) :
    (T.flatMap (spellOut label)).filter (Graph.hasProperty ps) =
      T.filter (Graph.hasProperty ps) := by
  refine filter_spellOut fun q _ link hlink => ?_
  obtain ⟨p, hp, hmem⟩ := exists_shortcut hlink
  obtain ⟨hshort, hlong⟩ := h.2 _ hmem
  refine ⟨?_, ?_, ?_⟩
  · rw [hasProperty_iri hp]
    simpa using hshort
  · rw [hasProperty_iri (p := link) rfl]
    simpa using hlong
  · rw [hasProperty_iri (p := Property.constant) rfl]
    simpa using h.1

end SpellOut

/-! ## Anchors -/

/-- Members of a kind are spelled out to lists that begin with one. -/
def Begins {α : Type} (f : α → List α) (P : α → Bool) (a : α) : Prop :=
  if P a = true then ∃ b rest, f a = b :: rest ∧ P b = true else ∀ b ∈ f a, P b = false

theorem findIdx_flatMap_of_neg (h : Begins f P a) (ha : P a = false) :
    ((a :: l).flatMap f).findIdx P = (l.flatMap f).findIdx P + (f a).length := by
  rw [Begins, if_neg (by simp [ha])] at h
  rw [List.flatMap_cons, List.findIdx_append, if_neg]
  intro hlt
  obtain ⟨b, hb, hPb⟩ := List.findIdx_lt_length.1 hlt
  rw [h b hb] at hPb
  cases hPb

theorem findIdx_flatMap_of_pos (h : Begins f P a) (ha : P a = true) :
    ((a :: l).flatMap f).findIdx P = 0 := by
  rw [Begins, if_pos ha] at h
  obtain ⟨b, rest, hf, hb⟩ := h
  rw [List.flatMap_cons, hf, List.cons_append, List.findIdx_cons, hb]
  rfl

/-- Which of two kinds comes first does not depend on what is put in. -/
theorem findIdx_le_findIdx_flatMap {Q : α → Bool} (hP : ∀ a ∈ l, Begins f P a)
    (hQ : ∀ a ∈ l, Begins f Q a) :
    (l.flatMap f).findIdx P ≤ (l.flatMap f).findIdx Q ↔ l.findIdx P ≤ l.findIdx Q := by
  induction l with
  | nil => exact Iff.rfl
  | cons a rest ih =>
    rw [List.forall_mem_cons] at hP hQ
    have ih := ih hP.2 hQ.2
    rw [List.findIdx_cons, List.findIdx_cons]
    cases hPa : P a with
    | true =>
      rw [findIdx_flatMap_of_pos hP.1 hPa]
      exact ⟨fun _ => Nat.zero_le _, fun _ => Nat.zero_le _⟩
    | false =>
      rw [findIdx_flatMap_of_neg hP.1 hPa]
      cases hQa : Q a with
      | true =>
        -- what begins with a member of the other kind is not empty
        obtain ⟨b, more, hf, -⟩ := (if_pos hQa).mp hQ.1
        rw [findIdx_flatMap_of_pos hQ.1 hQa, hf, List.length_cons]
        simp
      | false =>
        rw [findIdx_flatMap_of_neg hQ.1 hQa]
        simpa using ih

namespace Graph

variable {label : Quad → String} {g g' : Graph} {n : Term}

/-- A graph is another one with its shortcuts spelled out. -/
structure SpellsOut (label : Quad → String) (g g' : Graph) : Prop where
  nodup : g.triples.Nodup
  labels : FreshLabels label g.triples
  triples : g'.triples = g.triples.flatMap (spellOut label)

theorem SpellsOut.filter_hasProperty (h : SpellsOut label g g') (hps : Unspelled ps) :
    g'.triples.filter (hasProperty ps) = g.triples.filter (hasProperty ps) := by
  rw [h.triples, filter_hasProperty_spellOut hps]

theorem SpellsOut.uses_eq (h : SpellsOut label g g') (hps : Unspelled ps) :
    g'.uses ps = g.uses ps := by
  have hany (l : List Quad) : l.any (hasProperty ps) = !(l.filter (hasProperty ps)).isEmpty := by
    rw [Bool.eq_iff_iff]
    simp
  rw [uses, uses, hany, hany, h.filter_hasProperty hps]

theorem SpellsOut.functionCount_eq (h : SpellsOut label g g') :
    g'.functionCount = g.functionCount := by
  rw [functionCount, functionCount, List.countP_eq_length_filter, List.countP_eq_length_filter,
    h.filter_hasProperty (by decide)]

theorem SpellsOut.dialectOf_eq (h : SpellsOut label g g') : dialectOf g' = dialectOf g := by
  rw [dialectOf, dialectOf, h.uses_eq (by decide), h.uses_eq (by decide)]

/-- The same nodes are function values. -/
theorem SpellsOut.isFunctionValue_eq (h : SpellsOut label g g') (n : Term) :
    g'.isFunctionValue n = g.isFunctionValue n := by
  have hany (l : List Quad) :
      (l.any fun q => q.predicate == .iri Property.functionValue && q.object == n) =
        (l.filter (hasProperty [Property.functionValue])).any fun q => q.object == n := by
    rw [List.any_filter]
    congr 1
    funext q
    cases hq : q.predicate with
    | iri p =>
      rw [hasProperty_iri hq, Bool.eq_iff_iff]
      simp
    | blank _ | literal _ _ | other _ | missing => simp [hasProperty, hq, Term.iri?]
  rw [isFunctionValue, isFunctionValue, hany, hany, h.filter_hasProperty (by decide)]

theorem SpellsOut.sourced_eq (h : SpellsOut label g g') : g'.sourced = g.sourced := by
  rw [sourced, sourced, h.filter_hasProperty (by decide)]
  congr 1
  funext n
  rw [h.isFunctionValue_eq]

theorem exists_subject_of_mem_anchors (h : n ∈ g.anchors) : ∃ q ∈ g.triples, q.subject = n := by
  have hsourced : n ∈ g.sourced := (List.mergeSort_perm _ _).subset h
  rw [sourced, List.mem_filter, List.mem_eraseDups, List.mem_map] at hsourced
  obtain ⟨⟨q, hq, rfl⟩, -⟩ := hsourced
  exact ⟨q, (List.mem_filter.1 hq).1, rfl⟩

/-- Whether a triple mentions a node. -/
def mentions (n : Term) (q : Quad) : Bool :=
  q.subject == n || q.object == n

/-- The first triple to mention a node also does so when it is spelled out. -/
theorem begins_mentions {T : List Quad} (hq : q ∈ T) (hold : IsOld label T n)
    (hobject : (linkOf? q).isSome = true → q.object ≠ n) :
    Begins (spellOut label) (mentions n) q := by
  unfold Begins
  cases hlink : linkOf? q with
  | none =>
    rw [spellOut_of_none hlink]
    split
    · next hm => exact ⟨q, [], rfl, hm⟩
    · next hm => simpa using hm
  | some link =>
    have hnew : Term.blank (label q) ≠ n := (hold q hq (by rw [hlink]; rfl)).symm
    have hobj : q.object ≠ n := hobject (by rw [hlink]; rfl)
    rw [spellOut_of_link hlink]
    split
    · next hm =>
      refine ⟨_, _, rfl, ?_⟩
      simpa [mentions, linkTo, hobj, hnew] using hm
    · next hm => simpa [mentions, linkTo, constantAt, hobj, hnew] using hm

/-- **The same nodes stand for triples maps**, in the same order. -/
theorem SpellsOut.anchors_eq (h : SpellsOut label g g')
    (hobject : ∀ q ∈ g.triples, (linkOf? q).isSome = true → q.object ∉ g.anchors) :
    g'.anchors = g.anchors := by
  have hmem (n : Term) (hn : n ∈ g.sourced) : n ∈ g.anchors :=
    (List.mergeSort_perm _ _).symm.subset hn
  have hbegins (n : Term) (hn : n ∈ g.anchors) :
      ∀ q ∈ g.triples, Begins (spellOut label) (mentions n) q := by
    intro q hq
    obtain ⟨r, hr, rfl⟩ := exists_subject_of_mem_anchors hn
    exact begins_mentions hq (h.labels.isOld hr).1 fun hlink heq => hobject q hq hlink (heq ▸ hn)
  have hsort := List.map_mergeSort (f := id) (l := g.sourced)
    (r := fun a b => decide (g'.firstMention a ≤ g'.firstMention b))
    (s := fun a b => decide (g.firstMention a ≤ g.firstMention b)) fun a ha b hb => by
      rw [decide_eq_decide, firstMention, firstMention, h.triples]
      exact findIdx_le_findIdx_flatMap (hbegins a (hmem a ha)) (hbegins b (hmem b hb))
  rw [List.map_id, List.map_id] at hsort
  rw [anchors, anchors, h.sourced_eq, hsort]

/-! ## Triples that lead to a node -/

/-- As many triples lead to an old node as before. -/
theorem SpellsOut.referrers_of_old (h : SpellsOut label g g') (hn : IsOld label g.triples n)
    {links : List String} (hlinks : ∀ s ∈ shortcutLinks, s.1 ∉ links)
    (hconstant : Property.constant ∉ links) : g'.referrers n links = g.referrers n links := by
  rw [referrers, referrers, List.countP_eq_length_filter, List.countP_eq_length_filter, h.triples,
    filter_spellOut]
  intro q hq link hlink
  obtain ⟨p, hp, hmem⟩ := exists_shortcut hlink
  have hnew : (Term.blank (label q) == n) = false :=
    beq_eq_false_iff_ne.2 (hn q hq (by rw [hlink]; rfl)).symm
  refine ⟨?_, ?_, ?_⟩
  · rw [hasProperty_iri hp, Bool.and_eq_false_iff]
    exact .inr (by simpa using hlinks _ hmem)
  · exact Bool.and_eq_false_iff.2 (.inl hnew)
  · rw [hasProperty_iri (p := Property.constant) rfl, Bool.and_eq_false_iff]
    exact .inr (by simpa using hconstant)

/-- A triple with a new node is one of the two of its shortcut. -/
theorem SpellsOut.eq_of_new (h : SpellsOut label g g') (hq : q ∈ g.triples) {link : String}
    (hlink : linkOf? q = some link) {t : Quad} (ht : t ∈ g'.triples) :
    (t.object = .blank (label q) → t = linkTo label link q) ∧
      (t.subject = .blank (label q) → t = constantAt label q) := by
  have hsome : (linkOf? q).isSome = true := by rw [hlink]; rfl
  rw [h.triples, List.mem_flatMap] at ht
  obtain ⟨r, hr, ht⟩ := ht
  obtain ⟨hsubject, hobject⟩ := h.labels.unused r hr q hq hsome
  cases hlinkr : linkOf? r with
  | none =>
    rw [spellOut_of_none hlinkr, List.mem_singleton] at ht
    rw [ht]
    exact ⟨(absurd · hobject), (absurd · hsubject)⟩
  | some link' =>
    have hrq (heq : Term.blank (label r) = .blank (label q)) : r = q :=
      h.labels.distinct r hr q hq (by rw [hlinkr]; rfl) hsome (Term.blank.inj heq)
    rw [spellOut_of_link hlinkr, List.mem_cons, List.mem_singleton] at ht
    rcases ht with rfl | rfl
    · refine ⟨fun heq => ?_, (absurd · hsubject)⟩
      cases hrq heq
      cases hlinkr.symm.trans hlink
      rfl
    · exact ⟨(absurd · hobject), fun heq => by rw [hrq heq]⟩

/-- One triple leads to a new node. -/
theorem SpellsOut.referrers_of_new (h : SpellsOut label g g') (hq : q ∈ g.triples) {link : String}
    (hlink : linkOf? q = some link) (links : List String) :
    g'.referrers (.blank (label q)) links ≤ 1 := by
  have hto : ∀ t ∈ g'.triples,
      (t.object == .blank (label q) && hasProperty links t) = true →
        (t == linkTo label link q) = true := by
    intro t ht hobject
    rw [Bool.and_eq_true, beq_iff_eq] at hobject
    exact beq_iff_eq.2 ((h.eq_of_new hq hlink ht).1 hobject.1)
  have hnodup : g'.triples.Nodup := h.triples ▸ h.labels.nodup h.nodup
  calc g'.referrers (.blank (label q)) links
      ≤ g'.triples.count (linkTo label link q) := List.countP_mono_left hto
    _ ≤ 1 := List.nodup_iff_count_le_one.1 hnodup _

/-! ## Edges of old nodes -/

end Graph

/-- Edges that are the same triple of two graphs, which is no shortcut. -/
structure Edge.Kept (label : Quad → String) (g g' : Graph) (e e' : Edge) : Prop where
  triple : ∃ q, linkOf? q = none ∧ q.predicate = .iri e.property ∧
    g.triples[e.number]? = some q ∧ g'.triples[e'.number]? = some q
  property : e.property = e'.property
  object : e.object = e'.object
  old : IsOld label g.triples e.object

/-- An edge that is a shortcut, and the one that links to its new node. -/
structure Edge.Spelled (label : Quad → String) (g g' : Graph) (q : Quad) (e e' : Edge) :
    Prop where
  triple : g.triples[e.number]? = some q
  triple' : g'.triples[e'.number]? = some (linkTo label e'.property q)
  shortcut : linkOf? q = some e'.property
  property : q.predicate = .iri e.property
  object : q.object = e.object
  object' : e'.object = .blank (label q)

theorem arrow?_iri {p : String} (h : q.predicate = .iri p) :
    arrow? s ps q =
      if q.subject = s && ps.contains p then some (some q, p, q.object) else none := by
  rw [arrow?, h]
  rfl

/-- What it means for a triple to be an arrow. -/
theorem arrow?_eq_some {a : Option Quad × String × Term} (h : arrow? s ps q = some a) :
    a.1 = some q ∧ q.subject = s ∧ q.predicate = .iri a.2.1 ∧ q.object = a.2.2 ∧ a.2.1 ∈ ps := by
  cases hq : q.predicate with
  | iri p =>
    rw [arrow?_iri hq] at h
    split at h
    · next hif =>
      cases h
      simp only [Bool.and_eq_true, decide_eq_true_eq, List.contains_iff_mem] at hif
      exact ⟨rfl, hif.1, rfl, rfl, hif.2⟩
    · cases h
  | blank _ | literal _ _ | other _ | missing =>
    rw [arrow?, hq] at h
    cases h

/-- A member of a list is found once. -/
theorem filterMap_ite_eq [DecidableEq α] {l : List α} (hl : l.Nodup) {x : α} (hx : x ∈ l) (y : β) :
    l.filterMap (fun a => if a = x then some y else none) = [y] := by
  induction l with
  | nil => exact absurd hx List.not_mem_nil
  | cons a rest ih =>
    obtain ⟨ha, hrest⟩ := List.nodup_cons.1 hl
    by_cases hax : a = x
    · have hno : rest.filterMap (fun a => if a = x then some y else none) = [] := by
        refine List.filterMap_eq_nil_iff.2 fun b hb => if_neg ?_
        rintro rfl
        exact ha (hax ▸ hb)
      rw [List.filterMap_cons, if_pos hax, hno]
    · rw [List.filterMap_cons, if_neg hax]
      exact ih hrest ((List.mem_cons.1 hx).resolve_left (Ne.symm hax))

theorem forall₂_flatMap {γ : Type} {R : β → γ → Prop} {f : α → List β} {k : α → List γ}
    (h : ∀ a ∈ l, List.Forall₂ R (f a) (k a)) : List.Forall₂ R (l.flatMap f) (l.flatMap k) := by
  induction l with
  | nil => exact .nil
  | cons a rest ih =>
    rw [List.forall_mem_cons] at h
    rw [List.flatMap_cons, List.flatMap_cons]
    exact List.rel_append h.1 (ih h.2)

namespace Graph

variable {label : Quad → String} {g g' : Graph} {n : Term}

/-- The edges that a triple and its spelling give an old node. -/
def ArrowSpelled (label : Quad → String) (T : List Quad) (ps : List String)
    (a b : Option Quad × String × Term) : Prop :=
  ∃ q ∈ T, a.1 = some q ∧ q.predicate = .iri a.2.1 ∧ q.object = a.2.2 ∧ a.2.1 ∈ ps ∧
    (linkOf? q = none ∧ b = a ∨
      linkOf? q = some b.2.1 ∧ b.1 = some (linkTo label b.2.1 q) ∧ b.2.2 = .blank (label q))

/-- The arrows of an old node are kept or spelled out. -/
theorem forall₂_arrow? {T : List Quad} (hq : q ∈ T) (hn : IsOld label T n)
    (hps : ∀ s ∈ shortcutLinks, s.1 ∈ ps ↔ s.2 ∈ ps) :
    List.Forall₂ (ArrowSpelled label T ps) (arrow? n ps q).toList
      ((spellOut label q).filterMap (arrow? n ps)) := by
  cases hlink : linkOf? q with
  | none =>
    rw [spellOut_of_none hlink, List.filterMap_cons, List.filterMap_nil]
    cases harrow : arrow? n ps q with
    | none => exact .nil
    | some a =>
      obtain ⟨ha, -, hp, ho, hps⟩ := arrow?_eq_some harrow
      exact .cons ⟨q, hq, ha, hp, ho, hps, .inl ⟨hlink, rfl⟩⟩ .nil
  | some link =>
    obtain ⟨p, hp, hmem⟩ := exists_shortcut hlink
    have hnew : Term.blank (label q) ≠ n := (hn q hq (by rw [hlink]; rfl)).symm
    have hconstant : arrow? n ps (constantAt label q) = none := by
      rw [arrow?_iri (p := Property.constant) rfl, if_neg]
      simp [constantAt, hnew]
    have hboth : ps.contains link = ps.contains p := by
      rw [Bool.eq_iff_iff, List.contains_iff_mem, List.contains_iff_mem]
      exact (hps _ hmem).symm
    have hlinkTo : arrow? n ps (linkTo label link q) =
        if q.subject = n && ps.contains p then
          some (some (linkTo label link q), link, .blank (label q)) else none := by
      rw [arrow?_iri (p := link) rfl, hboth]
      rfl
    rw [spellOut_of_link hlink, List.filterMap_cons, List.filterMap_cons, hconstant,
      List.filterMap_nil, arrow?_iri hp, hlinkTo]
    by_cases hif : (decide (q.subject = n) && ps.contains p) = true
    · have hmem : p ∈ ps := by simpa using (Bool.and_eq_true_iff.1 hif).2
      rw [if_pos hif, if_pos hif]
      exact .cons ⟨q, hq, rfl, hp, rfl, hmem, .inr ⟨hlink, rfl, rfl⟩⟩ .nil
    · rw [if_neg hif, if_neg hif]
      exact .nil

/-- **The edges of an old node are kept or spelled out, one by one.** -/
theorem SpellsOut.edges_of_old (h : SpellsOut label g g') (hn : IsOld label g.triples n)
    (hps : ∀ s ∈ shortcutLinks, s.1 ∈ ps ↔ s.2 ∈ ps) :
    List.Forall₂ (fun e e' => e.property ∈ ps ∧
        (Edge.Kept label g g' e e' ∨ ∃ q, Edge.Spelled label g g' q e e'))
      (g.edges n ps) (g'.edges n ps) := by
  have harrows : List.Forall₂ (ArrowSpelled label g.triples ps)
      (g.triples.filterMap (arrow? n ps)) (g'.triples.filterMap (arrow? n ps)) := by
    rw [h.triples, List.filterMap_flatMap, List.filterMap_eq_flatMap_toList]
    exact forall₂_flatMap fun q hq => forall₂_arrow? hq hn hps
  rw [← g.map_edges, ← g'.map_edges, List.forall₂_map_left_iff, List.forall₂_map_right_iff]
    at harrows
  refine harrows.imp fun e e' hee => ?_
  obtain ⟨q, hq, htriple, hp, ho, hmem, ⟨hnone, heq⟩ | ⟨hlink, htriple', ho'⟩⟩ := hee
  · simp only [Prod.mk.injEq] at heq
    have hold := (h.labels.isOld hq).2
    rw [ho] at hold
    refine ⟨hmem, .inl ⟨⟨q, hnone, hp, htriple, heq.1.trans htriple⟩, ?_, ?_, hold⟩⟩
    · exact heq.2.1.symm
    · exact heq.2.2.symm
  · exact ⟨hmem, .inr ⟨q, htriple, htriple', hlink, hp, ho, ho'⟩⟩

/-- The edges of an old node are kept if no shortcut is among them. -/
theorem SpellsOut.edges_kept (h : SpellsOut label g g') (hn : IsOld label g.triples n)
    (ps : List String) (hps : ∀ s ∈ shortcutLinks, s.1 ∉ ps ∧ s.2 ∉ ps) :
    List.Forall₂ (Edge.Kept label g g') (g.edges n ps) (g'.edges n ps) := by
  refine (h.edges_of_old hn fun s hs => iff_of_false (hps s hs).1 (hps s hs).2).imp ?_
  rintro e e' ⟨hmem, hkept | ⟨q, hspelled⟩⟩
  · exact hkept
  · obtain ⟨p, hp, hs⟩ := exists_shortcut hspelled.shortcut
    cases hspelled.property.symm.trans hp
    exact absurd hmem (hps _ hs).1

/-! ## Edges of new nodes -/

/-- A new node has its constant and nothing else. -/
theorem SpellsOut.edges_of_new_eq_nil (h : SpellsOut label g g') (hq : q ∈ g.triples)
    (hlink : (linkOf? q).isSome = true) (hps : Property.constant ∉ ps) :
    g'.edges (.blank (label q)) ps = [] := by
  obtain ⟨link, hsome⟩ := Option.isSome_iff_exists.1 hlink
  refine List.eq_nil_iff_forall_not_mem.2 fun e he => ?_
  obtain ⟨t, ht, hs, hp, -, hmem⟩ := mem_edges.1 he
  rw [(h.eq_of_new hq hsome (List.mem_of_getElem? ht)).2 hs] at hp
  exact hps (Term.iri.inj hp ▸ hmem)

/-- A new node has its constant and nothing else. -/
theorem SpellsOut.edges_of_new (h : SpellsOut label g g') (hq : q ∈ g.triples)
    (hlink : (linkOf? q).isSome = true) (ps : List String) (hps : Property.constant ∈ ps) :
    ∃ i, g'.edges (.blank (label q)) ps = [⟨i, Property.constant, q.object⟩] ∧
      g'.triples[i]? = some (constantAt label q) := by
  obtain ⟨link, hsome⟩ := Option.isSome_iff_exists.1 hlink
  have hnodup : g'.triples.Nodup := h.triples ▸ h.labels.nodup h.nodup
  have hmem : constantAt label q ∈ g'.triples := by
    rw [h.triples]
    refine List.mem_flatMap.2 ⟨q, hq, ?_⟩
    rw [spellOut_of_link hsome]
    exact List.mem_cons_of_mem _ (List.mem_singleton_self _)
  have harrow : ∀ t ∈ g'.triples, arrow? (.blank (label q)) ps t =
      if t = constantAt label q then
        some (some (constantAt label q), Property.constant, q.object) else none := by
    intro t ht
    split
    · next heq =>
      rw [heq, arrow?_iri (p := Property.constant) rfl, if_pos (by simpa [constantAt] using hps)]
      rfl
    · next hne =>
      cases ha : arrow? (.blank (label q)) ps t with
      | none => rfl
      | some a => exact absurd ((h.eq_of_new hq hsome ht).2 (arrow?_eq_some ha).2.1) hne
  have hmap := g'.map_edges (.blank (label q)) ps
  rw [List.filterMap_congr harrow, filterMap_ite_eq hnodup hmem, List.map_eq_singleton_iff] at hmap
  obtain ⟨e, hedges, he⟩ := hmap
  simp only [Prod.mk.injEq] at he
  exact ⟨e.number, by rw [hedges, ← he.2.1, ← he.2.2], he.1⟩

end Graph

end RdfMapping.RuleGraph
