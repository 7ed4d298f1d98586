/-
# What emission tells apart

Two documents under one base that are written as the same triples agree in everything that
emission does not forget.  A drawing determines its sketch, and the sketch of a triples map its
settled form.
-/
import RdfMapping.Proofs.Emission.Recompiling
import RdfMapping.Proofs.Emission.WellFormed

namespace RdfMapping.RuleGraph

open Mapping
open Rdf (Term Quad)

open Sketch

/-! ## A drawing determines the sketch -/

/-- A node that has none of the labels with a number from `k` on. -/
def Older (k : Nat) (n : Term) : Prop :=
  ∀ i, k ≤ i → n ≠ .blank (labelAt i)

theorem Older.mono {k l : Nat} {n : Term} (h : Older k n) (hkl : k ≤ l) : Older l n :=
  fun i hi => h i (Nat.le_trans hkl hi)

theorem older_iri (k : Nat) (iri : String) : Older k (.iri iri) :=
  fun _ _ h => Term.noConfusion h

/-- The first triple that follows leaves another, older node. -/
def GoesOn (n : Term) (k : Nat) (ts : List Quad) : Prop :=
  ∀ q ∈ ts.head?, q.subject ≠ n ∧ Older k q.subject

section Cancel

variable {used used' leaves ks : List String} {n : Term} {k k' : Nat} {ts ts' : List Quad}

theorem GoesOn.mono (h : GoesOn n k ts) (hk : k ≤ k') : GoesOn n k' ts :=
  fun q hq => ⟨(h q hq).1, (h q hq).2.mono hk⟩

theorem GoesOn.not_cons (h : GoesOn n k ts) {p : String} {o : Term} {us : List Quad}
    (heq : ts = triple n p o :: us) : False :=
  (h (triple n p o) (by rw [heq]; rfl)).1 rfl

/-- After a new node the triples go on with the rest of the node that leads to it. -/
theorem GoesOn.newNode (h : GoesOn n k ts) (hn : Older k n) (used : List String) (rest : Sketch)
    (l : Nat) :
    GoesOn (newNode used k) (freshNumber used k + 1) ((rest.draw used n l).triples ++ ts) := by
  have hle : k ≤ freshNumber used k := (freshNumber_spec used k).1
  have holder {x : Term} (hx : Older k x) :
      x ≠ Sketch.newNode used k ∧ Older (freshNumber used k + 1) x :=
    ⟨hx _ hle, hx.mono (Nat.le_succ_of_le hle)⟩
  intro q hq
  cases rest with
  | done => exact holder (h q hq).2
  | arrow p o rest =>
    cases hq
    exact holder hn
  | link p inner rest =>
    cases hq
    exact holder hn

/-- Triples that leave one node are equal if their predicates and objects are. -/
theorem triple_inj {p p' : String} {o o' : Term} (h : triple n p o = triple n p' o') :
    p = p' ∧ o = o' := by
  simpa only [triple, Quad.mk.injEq, Term.iri.injEq, true_and, and_true] using h

theorem le_next_drawInner (used : List String) (inner : Sketch) (k : Nat) :
    k ≤ (drawInner used inner k).next :=
  Nat.le_trans (Nat.le_succ_of_le (freshNumber_spec used k).1) (lt_next_drawInner used inner k)

theorem older_newNode (used : List String) (k : Nat) :
    Older (freshNumber used k + 1) (newNode used k) :=
  fun _ hi heq => absurd (labelAt_injective (Term.blank.inj heq)) (Nat.ne_of_lt hi)

/-- Drawings that begin with a link go on alike. -/
theorem link_cancel {p p' : String} {inner inner' rest rest' : Sketch}
    (heq : ((link p inner rest).draw used n k).triples ++ ts =
      ((link p' inner' rest').draw used' n k').triples ++ ts') :
    p = p' ∧ freshNumber used k = freshNumber used' k' ∧
      (drawInner used inner k).triples ++
          ((rest.draw used n (drawInner used inner k).next).triples ++ ts) =
        (drawInner used' inner' k').triples ++
          ((rest'.draw used' n (drawInner used' inner' k').next).triples ++ ts') := by
  rw [triples_link, triples_link, List.cons_append, List.cons_append, List.append_assoc,
    List.append_assoc] at heq
  obtain ⟨hhead, htail⟩ := List.cons.inj heq
  obtain ⟨hp, hnode⟩ := triple_inj hhead
  exact ⟨hp, labelAt_injective (Term.blank.inj hnode), htail⟩

/-- **A drawing determines the sketch**, also if more triples follow. -/
theorem draw_cancel (hdisjoint : ∀ p ∈ leaves, p ∉ ks) {s s' : Sketch}
    (hs : s.Sorted leaves ks) (hs' : s'.Sorted leaves ks) (hn : Older k n) (hn' : Older k' n)
    (h : GoesOn n k ts) (h' : GoesOn n k' ts')
    (heq : (s.draw used n k).triples ++ ts = (s'.draw used' n k').triples ++ ts') :
    s = s' ∧ ts = ts' := by
  -- the sketches are compared arrow by arrow, the drawing of a new node before what comes after
  induction s generalizing s' n k k' ts ts' with
  | done =>
    cases s' with
    | done => exact ⟨rfl, heq⟩
    | arrow p o rest => exact (h.not_cons heq).elim
    | link p inner rest => exact (h.not_cons heq).elim
  | arrow p o rest ih =>
    cases s' with
    | done => exact (h'.not_cons heq.symm).elim
    | arrow p' o' rest' =>
      obtain ⟨hhead, htail⟩ := List.cons.inj heq
      obtain ⟨rfl, rfl⟩ := triple_inj hhead
      obtain ⟨rfl, hts⟩ := ih hs.2 hs'.2 hn hn' h h' htail
      exact ⟨rfl, hts⟩
    | link p' inner' rest' =>
      have hp := (triple_inj (List.cons.inj heq).1).1
      exact absurd (hp ▸ hs'.1) (hdisjoint p hs.1)
  | link p inner rest ihi ihr =>
    cases s' with
    | done => exact (h'.not_cons heq.symm).elim
    | arrow p' o' rest' =>
      have hp := (triple_inj (List.cons.inj heq).1).1
      exact absurd hs.1 (hdisjoint p (hp ▸ hs'.1))
    | link p' inner' rest' =>
      obtain ⟨rfl, hnumber, htail⟩ := link_cancel heq
      have hl := le_next_drawInner used inner k
      have hl' := le_next_drawInner used' inner' k'
      generalize (drawInner used inner k).next = l at htail hl
      generalize (drawInner used' inner' k').next = l' at htail hl'
      have hgo := h.newNode hn used rest l
      have holder := older_newNode used' k'
      rw [Sketch.newNode, hnumber] at hgo
      rw [drawInner, Sketch.newNode, hnumber] at htail
      obtain ⟨rfl, hrest⟩ :=
        ihi hs.2.1 hs'.2.1 holder holder hgo (h'.newNode hn' used' rest' l') htail
      obtain ⟨rfl, hts⟩ :=
        ihr hs.2.2 hs'.2.2 (hn.mono hl) (hn'.mono hl') (h.mono hl) (h'.mono hl') hrest
      exact ⟨rfl, hts⟩

end Cancel

section Maps

variable {s s' : Setting} {maps maps' : List TriplesMap}

/-- What is drawn for some maps begins with the node of the first. -/
theorem head?_drawMaps {k : Nat} {q : Quad} (hq : q ∈ (drawMaps s maps k).triples.head?) :
    ∃ tm ∈ maps, q.subject = s.node tm := by
  cases maps with
  | nil => cases hq
  | cons tm rest =>
    cases hq
    exact ⟨tm, List.mem_cons_self .., rfl⟩

theorem goesOn_drawMaps {tm : TriplesMap} (hnew : s.node tm ∉ maps.map s.node) (k l : Nat) :
    GoesOn (s.node tm) l (drawMaps s maps k).triples := by
  intro q hq
  obtain ⟨tm', htm', hsubject⟩ := head?_drawMaps hq
  rw [hsubject]
  exact ⟨fun heq => hnew (heq ▸ List.mem_map.2 ⟨tm', htm', rfl⟩), older_iri _ _⟩

/-- **The drawings of maps determine identifiers and sketches.** -/
theorem drawMaps_cancel (hbase : s.base = s'.base) (hdialect : s.dialect = s'.dialect)
    (h : ∀ tm ∈ maps, TriplesMapFits s tm) (h' : ∀ tm ∈ maps', TriplesMapFits s' tm)
    (hnodes : (maps.map s.node).Nodup) (hnodes' : (maps'.map s'.node).Nodup) {k k' : Nat}
    (heq : (drawMaps s maps k).triples = (drawMaps s' maps' k').triples) :
    List.Forall₂ (fun tm tm' => tm.id = tm'.id ∧ ofTriplesMap s tm = ofTriplesMap s' tm')
      maps maps' := by
  have hdisjoint (d : Dialect) : ∀ p ∈ leafProperties d, p ∉ allLinks d := by
    cases d <;> decide
  induction maps generalizing maps' k k' with
  | nil =>
    cases maps' with
    | nil => exact .nil
    | cons tm' rest' => cases heq
  | cons tm rest ih =>
    cases maps' with
    | nil => cases heq
    | cons tm' rest' =>
      rw [List.forall_mem_cons] at h h'
      rw [List.map_cons, List.nodup_cons] at hnodes hnodes'
      rw [triples_drawMaps_cons, triples_drawMaps_cons] at heq
      have hnode : s.node tm = s'.node tm' := congrArg Quad.subject (List.cons.inj heq).1
      have hid : tm.id = tm'.id := by
        have hiri := Term.iri.inj hnode
        rw [hbase] at hiri
        exact mapIri_injective hiri
      have hgo (l : Nat) := goesOn_drawMaps hnodes'.1 l k'
      have hsorted' := sorted_allLinks h'.1
      rw [← hnode] at hgo
      rw [← hdialect] at hsorted'
      rw [drawMap, drawMap, ← hnode] at heq
      obtain ⟨hsketch, hrest⟩ := draw_cancel (hdisjoint s.dialect) (sorted_allLinks h.1) hsorted'
        (older_iri _ _) (older_iri _ _) (goesOn_drawMaps hnodes.1 _ _) (hgo _) heq
      exact .cons ⟨hid, hsketch⟩ (ih h.2 h'.2 hnodes.2 hnodes'.2 hrest)

end Maps

/-! ## A sketch determines what it was made of -/

namespace Sketch

/-- Sketches can be taken apart by the properties of their arrows. -/
theorem append_cancel {P : String → Prop} {s s' t t' : Sketch} (hs : ∀ e ∈ s.ends, P e.1)
    (hs' : ∀ e ∈ s'.ends, P e.1) (ht : ∀ e ∈ t.ends, ¬ P e.1) (ht' : ∀ e ∈ t'.ends, ¬ P e.1)
    (h : s ++ t = s' ++ t') : s = s' ∧ t = t' := by
  induction s generalizing s' with
  | done =>
    cases s' with
    | done => exact ⟨rfl, h⟩
    | arrow p o rest =>
      rw [done_append] at h
      exact absurd (hs' _ (List.mem_cons_self ..)) (ht (p, some o) (h ▸ List.mem_cons_self ..))
    | link p inner rest =>
      rw [done_append] at h
      exact absurd (hs' _ (List.mem_cons_self ..)) (ht (p, none) (h ▸ List.mem_cons_self ..))
  | arrow p o rest ih =>
    cases s' with
    | done =>
      rw [done_append] at h
      exact absurd (hs _ (List.mem_cons_self ..)) (ht' (p, some o) (h ▸ List.mem_cons_self ..))
    | arrow p' o' rest' =>
      obtain ⟨rfl, rfl, hrest⟩ := arrow.inj h
      obtain ⟨rfl, htt⟩ := ih (List.forall_mem_cons.1 hs).2 (List.forall_mem_cons.1 hs').2 hrest
      exact ⟨rfl, htt⟩
    | link p' inner' rest' => cases h
  | link p inner rest _ ih =>
    cases s' with
    | done =>
      rw [done_append] at h
      exact absurd (hs _ (List.mem_cons_self ..)) (ht' (p, none) (h ▸ List.mem_cons_self ..))
    | arrow p' o' rest' => cases h
    | link p' inner' rest' =>
      obtain ⟨rfl, rfl, hrest⟩ := link.inj h
      obtain ⟨rfl, htt⟩ := ih (List.forall_mem_cons.1 hs).2 (List.forall_mem_cons.1 hs').2 hrest
      exact ⟨rfl, htt⟩

variable {s s' t t' : Sketch} {p : String}

theorem Bears.forall_ends (h : s.Bears p) : ∀ e ∈ s.ends, e.1 = p := by
  induction s with
  | done => exact fun _ he => absurd he List.not_mem_nil
  | arrow q o rest ih => exact List.forall_mem_cons.2 ⟨h.1, ih h.2⟩
  | link q inner rest _ ih => exact List.forall_mem_cons.2 ⟨h.1, ih h.2⟩

/-- Arrows with one property are told from what follows them. -/
theorem Bears.cancel (hs : s.Bears p) (hs' : s'.Bears p) (ht : t.Avoids [p]) (ht' : t'.Avoids [p])
    (h : s ++ t = s' ++ t') : s = s' ∧ t = t' :=
  append_cancel (P := (· = p)) hs.forall_ends hs'.forall_ends
    (fun e he heq => ht e he (List.mem_singleton.2 heq))
    (fun e he heq => ht' e he (List.mem_singleton.2 heq)) h

/-- Sketches one after the other. -/
def concat : List Sketch → Sketch
  | [] => done
  | [s] => s
  | s :: t :: rest => s ++ concat (t :: rest)

theorem avoids_concat {ps : List String} {ts : List Sketch}
    (h : List.Forall₂ (fun p t => t.Bears p) ps ts) (hp : p ∉ ps) : (concat ts).Avoids [p] := by
  induction h with
  | nil => exact fun _ he => absurd he List.not_mem_nil
  | @cons q t ps ts ht hts ih =>
    rw [List.mem_cons, not_or] at hp
    have hhead : t.Avoids [p] := ht.avoids fun hq => hp.1 (List.mem_singleton.1 hq).symm
    cases hts with
    | nil => exact hhead
    | cons _ _ => exact avoids_append.2 ⟨hhead, ih hp.2⟩

/-- **Arrows that come in groups with properties of their own can be told apart.** -/
theorem concat_cancel {ps : List String} {ts ts' : List Sketch} (hps : ps.Nodup)
    (h : List.Forall₂ (fun p t => t.Bears p) ps ts)
    (h' : List.Forall₂ (fun p t => t.Bears p) ps ts') (heq : concat ts = concat ts') :
    ts = ts' := by
  induction h generalizing ts' with
  | nil =>
    cases h'
    rfl
  | @cons p t ps ts ht hts ih =>
    obtain ⟨hp, hps⟩ := List.nodup_cons.1 hps
    cases h' with
    | @cons _ t' _ ts' ht' hts' =>
      have hsplit : t = t' ∧ concat ts = concat ts' := by
        cases hts with
        | nil =>
          cases hts'
          exact ⟨heq, rfl⟩
        | cons h₁ h₂ =>
          cases hts' with
          | cons h₁' h₂' =>
            exact ht.cancel ht' (avoids_concat (.cons h₁ h₂) hp) (avoids_concat (.cons h₁' h₂') hp)
              heq
      rw [hsplit.1, ih hps hts' hsplit.2]

theorem text_injective {v v' : String} (h : text p v = text p v') : v = v' := by
  unfold text at h
  split at h <;> split at h
  · next hv hv' => rw [hv, hv']
  · cases h
  · cases h
  · cases h
    rfl

theorem iri_injective {v v' : String} (h : iri p v = iri p v') : v = v' := by
  unfold iri at h
  split at h <;> split at h
  · next hv hv' => rw [hv, hv']
  · cases h
  · cases h
  · cases h
    rfl

/-- Links determine what they lead to. -/
theorem links_injective {l l' : List Sketch} (h : links p l = links p l') : l = l' := by
  induction l generalizing l' with
  | nil =>
    cases l' with
    | nil => rfl
    | cons t rest => cases h
  | cons t rest ih =>
    cases l' with
    | nil => cases h
    | cons t' rest' =>
      obtain ⟨-, rfl, hrest⟩ := link.inj h
      rw [ih hrest]

theorem classes_injective {l l' : List String} (h : classes l = classes l') : l = l' := by
  induction l generalizing l' with
  | nil =>
    cases l' with
    | nil => rfl
    | cons c rest => cases h
  | cons c rest ih =>
    cases l' with
    | nil => cases h
    | cons c' rest' =>
      obtain ⟨-, hc, hrest⟩ := arrow.inj h
      rw [Term.iri.inj hc, ih hrest]

theorem pair_injective {ps ps' os os' gs gs' : List Sketch} (h : pair ps os gs = pair ps' os' gs') :
    ps = ps' ∧ os = os' ∧ gs = gs' := by
  have hbears (ps os gs : List Sketch) : List.Forall₂ (fun p t => t.Bears p)
      [Property.predicateMap, Property.objectMap, Property.graphMap]
      [links Property.predicateMap ps, links Property.objectMap os, links Property.graphMap gs] :=
    .cons (bears_links _ _) (.cons (bears_links _ _) (.cons (bears_links _ _) .nil))
  have hgroups := concat_cancel (by decide) (hbears _ _ _) (hbears _ _ _) (arrow.inj h).2.2
  simp only [List.cons.injEq, and_true] at hgroups
  exact ⟨links_injective hgroups.1, links_injective hgroups.2.1, links_injective hgroups.2.2⟩

theorem ofCondition_injective {c c' : JoinCondition} (h : ofCondition c = ofCondition c') :
    c = c' := by
  obtain ⟨child, parent⟩ := c
  obtain ⟨child', parent'⟩ := c'
  have hbears (c p : String) : List.Forall₂ (fun p t => t.Bears p)
      [Property.child, Property.parent] [text Property.child c, text Property.parent p] :=
    .cons (bears_text _ _) (.cons (bears_text _ _) .nil)
  have hgroups := concat_cancel (by decide) (hbears _ _) (hbears _ _) (arrow.inj h).2.2
  simp only [List.cons.injEq, and_true] at hgroups
  rw [text_injective hgroups.1, text_injective hgroups.2]

/-- The sketch of a source determines the source. -/
theorem ofSource_injective {dialect : Dialect} {ls ls' : LogicalSource}
    (h : ofSource dialect ls = ofSource dialect ls') : ls = ls' := by
  obtain ⟨access, formulation, iterator, table, query, version⟩ := ls
  obtain ⟨access', formulation', iterator', table', query', version'⟩ := ls'
  have hbears (a f i t q v : String) : List.Forall₂ (fun p t => t.Bears p)
      [Property.source, Property.referenceFormulation, Property.iterator, Property.tableName,
        queryProperty dialect, Property.sqlVersion]
      [text Property.source a, iri Property.referenceFormulation f, text Property.iterator i,
        text Property.tableName t, text (queryProperty dialect) q, iri Property.sqlVersion v] :=
    .cons (bears_text _ _) (.cons (bears_iri _ _) (.cons (bears_text _ _) (.cons (bears_text _ _)
      (.cons (bears_text _ _) (.cons (bears_iri _ _) .nil)))))
  have hgroups := concat_cancel (by cases dialect <;> decide) (hbears _ _ _ _ _ _)
    (hbears _ _ _ _ _ _) (arrow.inj h).2.2
  simp only [List.cons.injEq, and_true] at hgroups
  obtain ⟨ha, hf, hi, ht, hq, hv⟩ := hgroups
  rw [text_injective ha, iri_injective hf, text_injective hi, text_injective ht, text_injective hq,
    iri_injective hv]

end Sketch

section Determined

variable {s : Setting} {known known' : String → Prop}

/-- A term determines the constant, apart from tags that it does not show. -/
theorem settled_eq_of_termOf {a b : Constant} (h : termOf a = termOf b) :
    a.settled = b.settled := by
  have hread (c : Constant) : constantOf (termOf c) = .ok c.settled := by
    rw [← termOf_settled, constantOf_termOf c.normal_settled]
  exact Except.ok.inj (by rw [← hread a, ← hread b, h])

section Attributes

variable {position : Position} {v v' : Value} {t t' : TermType} {d d' l l' : String}
  {span span' : Span}

theorem attributes_injective (hj : v.isJoin = false) (hj' : v'.isJoin = false)
    (h : attributes position ⟨some v, t, d, l, span⟩ =
      attributes position ⟨some v', t', d', l', span'⟩) :
    kind position ⟨some v, t, d, l, span⟩ = kind position ⟨some v', t', d', l', span'⟩ ∧
      d = d' ∧ l = l' := by
  have hbears (tm : TermMap) : List.Forall₂ (fun p t => t.Bears p)
      [Property.termType, Property.datatype, Property.language]
      [kind position tm, iri Property.datatype tm.datatype, text Property.language tm.language] :=
    .cons (bears_kind _ _) (.cons (bears_iri _ _) (.cons (bears_text _ _) .nil))
  rw [attributes, attributes, Option.any_some, Option.any_some, hj, hj',
    if_neg Bool.false_ne_true, if_neg Bool.false_ne_true] at h
  have hgroups := concat_cancel (by decide) (hbears _) (hbears _) h
  simp only [List.cons.injEq, and_true] at hgroups
  exact ⟨hgroups.1, iri_injective hgroups.2.1, text_injective hgroups.2.2⟩

/-- A kind is stated unless it is the one that is meant anyway, so it can be told. -/
theorem kind_injective (hc : v.isConstant = false) (hc' : v'.isConstant = false)
    (hv : v.settled = v'.settled)
    (h : kind position ⟨some v, t, d, l, span⟩ = kind position ⟨some v', t', d, l, span'⟩) :
    t = t' := by
  have hdefault : defaultTermType position ⟨some v', t', d, l, span'⟩ =
      defaultTermType position ⟨some v, t, d, l, span⟩ := by
    rw [← defaultTermType_settled position v t t d l span span, hv,
      defaultTermType_settled position v' t t' d l span span']
  rw [kind, kind, Option.any_some, Option.any_some, hc, hc', hdefault] at h
  by_cases ht : t = defaultTermType position ⟨some v, t, d, l, span⟩ <;>
    by_cases ht' : t' = defaultTermType position ⟨some v, t, d, l, span⟩
  · rw [ht, ht']
  · rw [if_neg (by simpa using ht), if_pos (by simpa using ht')] at h
    cases h
  · rw [if_pos (by simpa using ht), if_neg (by simpa using ht')] at h
    cases h
  · rw [if_pos (by simpa using ht), if_pos (by simpa using ht')] at h
    have hiri : Term.iri (kindIri t) = .iri (kindIri t') := (arrow.inj h).2.1
    rw [← Option.some.injEq, ← kindOf?_kindIri t, hiri, kindOf?_kindIri]

/-- Term maps that state the same settle alike if their values do. -/
theorem settled_eq_of_attributes (hok : (TermMap.mk (some v) t d l span).Ok known position)
    (hok' : (TermMap.mk (some v') t' d' l' span').Ok known' position)
    (hv : v.settled = v'.settled)
    (h : attributes position ⟨some v, t, d, l, span⟩ =
      attributes position ⟨some v', t', d', l', span'⟩) :
    (TermMap.mk (some v) t d l span).settled = (TermMap.mk (some v') t' d' l' span').settled := by
  have hjoin : v'.isJoin = v.isJoin := by rw [← v'.isJoin_settled, ← hv, v.isJoin_settled]
  have hconst : v'.isConstant = v.isConstant := by
    rw [← v'.isConstant_settled, ← hv, v.isConstant_settled]
  rw [TermMap.settled, TermMap.settled, hjoin, hv]
  cases hj : v.isJoin with
  | true => rw [if_pos rfl, if_pos rfl]
  | false =>
    obtain ⟨hkind, rfl, rfl⟩ := attributes_injective hj (hjoin.trans hj) h
    rw [if_neg Bool.false_ne_true, if_neg Bool.false_ne_true]
    suffices ht : t = t' by rw [ht]
    cases hc : v.isConstant with
    | false => exact kind_injective hc (hconst.trans hc) hv hkind
    | true =>
      -- the kind of a constant is not stated, but it is that of its term
      rw [TermMap.Ok] at hok hok'
      cases v with
      | constant term =>
        cases v' with
        | constant term' =>
          have h₁ := hok.1
          have h₂ := hok'.1
          rw [Value.Ok] at h₁ h₂
          rw [Value.settled, Value.settled, Value.constant.injEq] at hv
          rw [← h₁.1, ← h₂.1, ← term.kind_settled, hv, term'.kind_settled]
        | reference _ | template _ | function _ _ | join _ _ => cases hconst
      | reference _ | template _ | function _ _ | join _ _ => cases hc

end Attributes

/-- What a term map states besides its value is told from the value. -/
theorem value_cancel {v v' : Value} {position : Position} {tm tm' : TermMap}
    (h : ofValue s v ++ attributes position tm = ofValue s v' ++ attributes position tm') :
    ofValue s v = ofValue s v' ∧ attributes position tm = attributes position tm' := by
  let ps := [Property.termType, Property.datatype, Property.language]
  have hvalue (v : Value) : (ofValue s v).Avoids ps := avoids_ofValue s v (by decide)
  have hattributes (tm : TermMap) : ∀ e ∈ (attributes position tm).ends, ¬ e.1 ∉ ps := by
    intro e he hno
    have havoid : (attributes position tm).Avoids [e.1] :=
      avoids_attributes _ _ fun p hp heq => hno (List.mem_singleton.1 heq ▸ hp)
    exact havoid e he (List.mem_singleton.2 rfl)
  exact append_cancel (P := fun p => p ∉ ps) (hvalue v) (hvalue v') (hattributes _)
    (hattributes _) h

/-- The first property of the sketch of a value tells what sort of value it is. -/
theorem ctorIdx_eq_of_ofValue {v v' : Value} (h : ofValue s v = ofValue s v') :
    v.ctorIdx = v'.ctorIdx := by
  cases v <;> cases v' <;> first | rfl | rw [ofValue, ofValue] at h
  all_goals first
    | cases h
    | exact absurd (arrow.inj h).1 (by cases s.dialect <;> decide)

mutual

/-- **The sketch of a term map determines its settled form.** -/
theorem settled_eq_of_ofTermMap {class_ class_' : String} {position : Position} :
    ∀ {tm tm' : TermMap}, tm.Ok known position → tm'.Ok known' position →
      ofTermMap s class_ position tm = ofTermMap s class_' position tm' → tm.settled = tm'.settled
  | ⟨none, _, _, _, _⟩, _, hok, _, _ => by
    rw [TermMap.Ok] at hok
    exact hok.elim
  | ⟨some _, _, _, _, _⟩, ⟨none, _, _, _, _⟩, _, hok', _ => by
    rw [TermMap.Ok] at hok'
    exact hok'.elim
  | ⟨some v, t, d, l, _⟩, ⟨some v', t', d', l', _⟩, hok, hok', h => by
    have hvok := hok
    have hvok' := hok'
    rw [TermMap.Ok] at hvok hvok'
    rw [ofTermMap, ofTermMap] at h
    obtain ⟨hv, hattributes⟩ := value_cancel (arrow.inj h).2.2
    exact settled_eq_of_attributes hok hok' (settled_eq_of_ofValue hvok.1 hvok'.1 hv) hattributes

/-- The sketch of a value determines its settled form. -/
theorem settled_eq_of_ofValue {position : Position} {t t' : TermType} :
    ∀ {v v' : Value}, v.Ok known position t → v'.Ok known' position t' →
      ofValue s v = ofValue s v' → v.settled = v'.settled
  | .constant term, v', _, _, h => by
    cases v' with
    | constant term' =>
      rw [ofValue, ofValue] at h
      rw [Value.settled, Value.settled, settled_eq_of_termOf (arrow.inj h).2.1]
    | _ => cases ctorIdx_eq_of_ofValue h
  | .reference name, v', _, _, h => by
    cases v' with
    | reference name' =>
      rw [ofValue, ofValue] at h
      cases (arrow.inj h).2.1
      rfl
    | _ => cases ctorIdx_eq_of_ofValue h
  | .template pattern, v', _, _, h => by
    cases v' with
    | template pattern' =>
      rw [ofValue, ofValue] at h
      cases (arrow.inj h).2.1
      rfl
    | _ => cases ctorIdx_eq_of_ofValue h
  | .function name ps, v', hok, hok', h => by
    cases v' with
    | function name' ps' =>
      rw [Value.Ok] at hok hok'
      rw [ofValue, ofValue] at h
      -- the first entry names the function, the others are the parameters
      obtain ⟨hname, hps⟩ := List.cons.inj (links_injective (link.inj h).2.1)
      have hiri := (arrow.inj (arrow.inj (List.cons.inj (pair_injective hname).2.1).1).2.2).2.1
      rw [Value.settled, Value.settled, Term.iri.inj hiri,
        settledAll_eq_of_ofParameters hok.2 hok'.2 hps]
    | _ => cases ctorIdx_eq_of_ofValue h
  | .join parent conditions, v', _, _, h => by
    cases v' with
    | join parent' conditions' =>
      rw [ofValue, ofValue] at h
      obtain ⟨-, hparent, hlinks⟩ := arrow.inj h
      have hconditions : conditions = conditions' :=
        List.map_injective_iff.2 (fun _ _ => ofCondition_injective) (links_injective hlinks)
      rw [mapIri_injective (Term.iri.inj hparent), hconditions]
    | _ => cases ctorIdx_eq_of_ofValue h

/-- The sketches of parameters determine their settled forms. -/
theorem settledAll_eq_of_ofParameters :
    ∀ {ps ps' : List Parameter}, Parameter.OkAll known ps → Parameter.OkAll known' ps' →
      ofParameters s ps = ofParameters s ps' → Parameter.settledAll ps = Parameter.settledAll ps'
  | [], [], _, _, _ => rfl
  | [], ⟨_, _⟩ :: _, _, _, h => by
    rw [ofParameters, ofParameters] at h
    cases h
  | ⟨_, _⟩ :: _, [], _, _, h => by
    rw [ofParameters, ofParameters] at h
    cases h
  | ⟨name, value⟩ :: rest, ⟨name', value'⟩ :: rest', hok, hok', h => by
    rw [Parameter.OkAll] at hok hok'
    rw [ofParameters, ofParameters] at h
    obtain ⟨hpair, hrest⟩ := List.cons.inj h
    obtain ⟨hname, hvalue, -⟩ := pair_injective hpair
    have hiri := (arrow.inj (arrow.inj (List.cons.inj hname).1).2.2).2.1
    rw [Parameter.settledAll, Parameter.settledAll, Term.iri.inj hiri,
      settled_eq_of_ofTermMap hok.2.1 hok'.2.1 (List.cons.inj hvalue).1,
      settledAll_eq_of_ofParameters hok.2.2 hok'.2.2 hrest]

end

/-- What one function keeps equal in lists, a coarser one does too. -/
theorem map_eq_map_of_imp {α β γ : Type} {f : α → β} {g : α → γ} {l l' : List α}
    (h : l.map f = l'.map f) (hfg : ∀ a ∈ l, ∀ b ∈ l', f a = f b → g a = g b) :
    l.map g = l'.map g := by
  induction l generalizing l' with
  | nil =>
    cases l' with
    | nil => rfl
    | cons b rest' => cases h
  | cons a rest ih =>
    cases l' with
    | nil => cases h
    | cons b rest' =>
      obtain ⟨hhead, htail⟩ := List.cons.inj h
      have hrest : rest.map g = rest'.map g := ih htail fun x hx y hy =>
        hfg x (List.mem_cons_of_mem _ hx) y (List.mem_cons_of_mem _ hy)
      rw [List.map_cons, List.map_cons, hrest,
        hfg a (List.mem_cons_self ..) b (List.mem_cons_self ..) hhead]

theorem map_settled_eq_of_ofTermMap {class_ : TermMap → String} {position : Position}
    {tms tms' : List TermMap} (hok : ∀ tm ∈ tms, tm.Ok known position)
    (hok' : ∀ tm ∈ tms', tm.Ok known' position)
    (h : (tms.map fun tm => ofTermMap s (class_ tm) position tm) =
      (tms'.map fun tm => ofTermMap s (class_ tm) position tm)) :
    tms.map TermMap.settled = tms'.map TermMap.settled :=
  map_eq_map_of_imp h fun tm htm tm' htm' => settled_eq_of_ofTermMap (hok tm htm) (hok' tm' htm')

theorem avoids_ofTermMap {ps : List String} (class_ : String) (position : Position) (tm : TermMap)
    (htype : rdfType ∉ ps) (hvalue : ∀ p ∈ Property.joinCondition :: Property.values, p ∉ ps)
    (hattributes : ∀ p ∈ [Property.termType, Property.datatype, Property.language], p ∉ ps) :
    (ofTermMap s class_ position tm).Avoids ps := by
  obtain ⟨_ | v, t, d, l, span⟩ := tm
  · rw [ofTermMap]
    exact List.forall_mem_cons.2 ⟨htype, avoids_attributes _ _ hattributes⟩
  · rw [ofTermMap]
    exact List.forall_mem_cons.2 ⟨htype,
      avoids_append.2 ⟨avoids_ofValue s v hvalue, avoids_attributes _ _ hattributes⟩⟩

/-- The sketch of a subject map determines its settled form. -/
theorem settled_eq_of_ofSubject {subject subject' : SubjectMap}
    (hok : subject.term.Ok known .subject) (hok' : subject'.term.Ok known' .subject)
    (hgraphs : ∀ g ∈ subject.graphs, g.Ok known .graph)
    (hgraphs' : ∀ g ∈ subject'.graphs, g.Ok known' .graph)
    (h : ofSubject s subject = ofSubject s subject') : subject.settled = subject'.settled := by
  let ps := [Property.classOf, Property.graphMap]
  have hterm (tm : TermMap) : (ofTermMap s Class.subjectMap .subject tm).Avoids ps :=
    avoids_ofTermMap _ _ _ (by decide) (by decide) (by decide)
  have hothers (cs : List String) (gs : List Sketch) :
      ∀ e ∈ (classes cs ++ links Property.graphMap gs).ends, ¬ e.1 ∉ ps := by
    intro e he hno
    rw [ends_append, List.mem_append] at he
    rcases he with he | he
    · exact hno (by rw [(bears_classes cs).forall_ends e he]; decide)
    · exact hno (by rw [(bears_links _ gs).forall_ends e he]; decide)
  obtain ⟨hterm, hothers⟩ := append_cancel (P := fun p => p ∉ ps) (hterm _) (hterm _)
    (hothers _ _) (hothers _ _) h
  obtain ⟨hclasses, hlinks⟩ := (bears_classes _).cancel (bears_classes _)
    ((bears_links _ _).avoids (by decide)) ((bears_links _ _).avoids (by decide)) hothers
  rw [SubjectMap.settled, SubjectMap.settled, settled_eq_of_ofTermMap hok hok' hterm,
    classes_injective hclasses,
    map_settled_eq_of_ofTermMap hgraphs hgraphs' (links_injective hlinks)]

theorem settled_eq_of_ofPair {pom pom' : PredicateObjectMap} (hok : pom.Ok known)
    (hok' : pom'.Ok known') (h : ofPair s pom = ofPair s pom') : pom.settled = pom'.settled := by
  obtain ⟨hp, ho, hg⟩ := pair_injective h
  rw [PredicateObjectMap.settled, PredicateObjectMap.settled,
    map_settled_eq_of_ofTermMap hok.predicates hok'.predicates hp,
    map_settled_eq_of_ofTermMap hok.objects hok'.objects ho,
    map_settled_eq_of_ofTermMap hok.graphs hok'.graphs hg]

/-- **The sketch of a triples map determines its settled form.** -/
theorem settled_eq_of_ofTriplesMap {tm tm' : TriplesMap} (hid : tm.id = tm'.id)
    (hok : tm.Ok known) (hok' : tm'.Ok known') (h : ofTriplesMap s tm = ofTriplesMap s tm') :
    tm.settled = tm'.settled := by
  obtain ⟨-, hsource, h⟩ := link.inj h
  obtain ⟨-, hsubject, hpairs⟩ := link.inj (arrow.inj h).2.2
  have hpairs : tm.predicateObjects.map PredicateObjectMap.settled =
      tm'.predicateObjects.map PredicateObjectMap.settled :=
    map_eq_map_of_imp (links_injective hpairs) fun pom hpom pom' hpom' =>
      settled_eq_of_ofPair (hok.predicateObjects pom hpom) (hok'.predicateObjects pom' hpom')
  rw [TriplesMap.settled, TriplesMap.settled, hid, ofSource_injective hsource,
    settled_eq_of_ofSubject hok.subject hok'.subject hok.graphs hok'.graphs hsubject, hpairs]

end Determined

/-! ## Documents -/

/-- **Documents have the same triples just if they settle alike.** -/
theorem triplesOf_eq_iff {doc doc' : Document} (hvalid : doc.isValid = true)
    (hvalid' : doc'.isValid = true) (hbase : doc.base = doc'.base) :
    triplesOf doc .rml = triplesOf doc' .rml ↔
      doc.maps.map TriplesMap.settled = doc'.maps.map TriplesMap.settled := by
  obtain ⟨-, hids, hok⟩ := Document.isValid_iff.1 hvalid
  obtain ⟨-, hids', hok'⟩ := Document.isValid_iff.1 hvalid'
  constructor
  · intro h
    have hd (d : Document) : Dialect.rml = .r2rml → unsupported d = [] := by
      intro hd
      cases hd
    rw [triplesOf_eq_drawMaps (hd doc), triplesOf_eq_drawMaps (hd doc')] at h
    have hfits (d : Document) : ∀ tm ∈ d.maps, TriplesMapFits (settingOf d .rml) tm :=
      fun tm htm => triplesMapFits_settingOf (hd d) htm
    have hdialect : (settingOf doc .rml).dialect = (settingOf doc' .rml).dialect := rfl
    have hmaps := drawMaps_cancel (show (settingOf doc .rml).base = (settingOf doc' .rml).base
      from hbase) hdialect (hfits doc) (hfits doc') (nodup_nodes _ hids) (nodup_nodes _ hids') h
    -- the labels in use do not matter to the sketches
    have hused (tm : TriplesMap) : ofTriplesMap (settingOf doc' .rml) tm =
        ofTriplesMap (settingOf doc .rml) tm := by
      rw [← ofTriplesMap_used (settingOf doc .rml) (labelsIn doc'), settingOf, settingOf, hbase]
    let whole (tm : TriplesMap) := (tm.id, ofTriplesMap (settingOf doc .rml) tm)
    have hwhole : doc.maps.map whole = doc'.maps.map whole := by
      rw [← List.forall₂_eq_eq_eq, List.forall₂_map_left_iff, List.forall₂_map_right_iff]
      exact hmaps.imp fun tm tm' htm => Prod.ext htm.1 (htm.2.trans (hused tm'))
    refine map_eq_map_of_imp hwhole fun tm htm tm' htm' heq => ?_
    exact settled_eq_of_ofTriplesMap (congrArg Prod.fst heq) (hok tm htm) (hok' tm' htm')
      (congrArg Prod.snd heq)
  · intro h
    have hdoc : triplesOf (settledDocument doc) .rml = triplesOf (settledDocument doc') .rml := by
      unfold triplesOf labelsIn settledDocument
      rw [hbase, h]
    rw [← triplesOf_settledDocument doc, hdoc, triplesOf_settledDocument doc']

/-- **Emission tells documents apart as far as it forgets nothing.**  Two documents that were read
from shorthand, under one base, are written as the same triples exactly if they have the same
settled maps: the same identifiers in the same order, and map by map the same source, classes and
term maps, apart from the attributes of joins and the datatypes of constants with a language.  If
emission forgets nothing of either, they are equal apart from positions. -/
theorem emit_eq_emit_iff {settings settings' : Shorthand.Settings} {root root' : Option Yaml.Node}
    {parsed parsed' : Shorthand.Parsed} (hparsed : Shorthand.parse settings root = .ok parsed)
    (hparsed' : Shorthand.parse settings' root' = .ok parsed')
    (hbase : parsed.document.base = parsed'.document.base) :
    (emit parsed.document .rml = emit parsed'.document .rml ↔
      parsed.document.maps.map TriplesMap.settled = parsed'.document.maps.map TriplesMap.settled) ∧
    ((∀ tm ∈ parsed.document.maps ++ parsed'.document.maps, tm.settled = tm.bare) →
      emit parsed.document .rml = emit parsed'.document .rml →
      parsed.document.maps.map TriplesMap.bare = parsed'.document.maps.map TriplesMap.bare) := by
  have htriples := triplesOf_eq_iff (Shorthand.isValid_of_parse hparsed)
    (Shorthand.isValid_of_parse hparsed') hbase
  have hemit : emit parsed.document .rml = emit parsed'.document .rml ↔
      parsed.document.maps.map TriplesMap.settled =
        parsed'.document.maps.map TriplesMap.settled := by
    rw [← htriples]
    exact ⟨fun h => Except.ok.inj h, fun h => congrArg Except.ok h⟩
  refine ⟨hemit, fun hwhole heq => ?_⟩
  rw [List.forall_mem_append] at hwhole
  calc parsed.document.maps.map TriplesMap.bare
      = parsed.document.maps.map TriplesMap.settled :=
        List.map_congr_left fun tm htm => (hwhole.1 tm htm).symm
    _ = parsed'.document.maps.map TriplesMap.settled := hemit.1 heq
    _ = parsed'.document.maps.map TriplesMap.bare := List.map_congr_left hwhole.2

/-- An order that leads to something. -/
def orderTo (object : List Yaml.Entry) : Yaml.Node :=
  let entry (key : String) (value : Yaml.Node) : Yaml.Entry := ⟨.ofText key, value⟩
  .ofEntries [entry "mappings" (.ofEntries [entry "order" (.ofEntries [
    entry "source" (.flowList [.ofText "orders.csv~csv"]),
    entry "subject" (.ofText "http://shop.org/order/$(nr)"),
    entry "predicateobjects" (.ofEntries [entry "http://shop.org/in" (.ofEntries object)])])])]

/-- The order it belongs to, with the kind of terms that are meant. -/
def sameOrder (kind : String) : List Yaml.Entry :=
  let entry (key value : String) : Yaml.Entry := ⟨.ofText key, .ofText value⟩
  [entry "mapping" "order",
    ⟨.ofText "condition", .ofEntries [entry "child" "of", entry "parent" "nr"]⟩,
    entry "type" kind]

/-- A note in English, with a datatype. -/
def englishNote (datatype : String) : List Yaml.Entry :=
  let entry (key value : String) : Yaml.Entry := ⟨.ofText key, .ofText value⟩
  [entry "constant" "urgent", entry "datatype" datatype, entry "language" "en"]

theorem map_bare_ne {maps maps' : List TriplesMap}
    (h : PredicateObjectMap.sameAll (maps.flatMap TriplesMap.predicateObjects)
      ((maps'.map TriplesMap.bare).flatMap TriplesMap.predicateObjects) = false) :
    maps.map TriplesMap.bare ≠ maps'.map TriplesMap.bare := by
  intro heq
  have hpairs : (maps.map TriplesMap.bare).flatMap TriplesMap.predicateObjects =
      (maps.flatMap TriplesMap.predicateObjects).map PredicateObjectMap.bare := by
    rw [List.flatMap_map, List.map_flatMap]
    rfl
  rw [← heq, hpairs,
    PredicateObjectMap.sameAll_iff.2 (by simp [PredicateObjectMap.bare_bare])] at h
  cases h

/-- Trees that are read differently and written alike. -/
def Forgotten (tree tree' : Yaml.Node) : Prop :=
  ∃ parsed parsed', Shorthand.parse {} (some tree) = .ok parsed ∧
    Shorthand.parse {} (some tree') = .ok parsed' ∧
    parsed.document.base = parsed'.document.base ∧
    emit parsed.document .rml = emit parsed'.document .rml ∧
    parsed.document.maps.map TriplesMap.bare ≠ parsed'.document.maps.map TriplesMap.bare

/-- What is read and written of two trees can be computed. -/
theorem forgotten_of_any {tree tree' : Yaml.Node}
    (h : (Shorthand.parse {} (some tree)).toOption.any (fun parsed =>
      (Shorthand.parse {} (some tree')).toOption.any fun parsed' =>
        parsed.document.base == parsed'.document.base &&
          triplesOf parsed.document .rml == triplesOf parsed'.document .rml &&
          PredicateObjectMap.sameAll (parsed.document.maps.flatMap TriplesMap.predicateObjects)
            ((parsed'.document.maps.map TriplesMap.bare).flatMap
              TriplesMap.predicateObjects) == false) = true) : Forgotten tree tree' := by
  unfold Forgotten
  cases hparsed : Shorthand.parse {} (some tree) with
  | error e =>
    rw [hparsed] at h
    cases h
  | ok parsed =>
    rw [hparsed] at h
    cases hparsed' : Shorthand.parse {} (some tree') with
    | error e =>
      rw [hparsed'] at h
      cases h
    | ok parsed' =>
      rw [hparsed'] at h
      simp only [Except.toOption, Option.any_some, Bool.and_eq_true, beq_iff_eq] at h
      exact ⟨parsed, parsed', rfl, rfl, h.1.1, congrArg Except.ok h.1.2, map_bare_ne h.2⟩

theorem forgotten_sameOrder :
    Forgotten (orderTo (sameOrder "iri")) (orderTo (sameOrder "literal")) :=
  forgotten_of_any (by decide +kernel)

/-- Joins that mean different kinds of terms, and constants with a language and different datatypes,
are written as the same triples, although the term maps that are read differ. -/
theorem emit_forgets :
    Forgotten (orderTo (sameOrder "iri")) (orderTo (sameOrder "literal")) ∧
      Forgotten (orderTo (englishNote "http://shop.org/a"))
        (orderTo (englishNote "http://shop.org/b")) :=
  ⟨forgotten_sameOrder, forgotten_of_any (by decide +kernel)⟩

/-- Joins that mean IRIs and joins that mean literals are settled alike. -/
theorem emit_eq_emit_sameOrder :
    ∃ parsed parsed', Shorthand.parse {} (some (orderTo (sameOrder "iri"))) = .ok parsed ∧
      Shorthand.parse {} (some (orderTo (sameOrder "literal"))) = .ok parsed' ∧
      parsed.document.maps.map TriplesMap.settled =
        parsed'.document.maps.map TriplesMap.settled := by
  obtain ⟨parsed, parsed', hparsed, hparsed', hbase, hemit, -⟩ := forgotten_sameOrder
  exact ⟨parsed, parsed', hparsed, hparsed', (emit_eq_emit_iff hparsed hparsed' hbase).1.1 hemit⟩

end RdfMapping.RuleGraph
