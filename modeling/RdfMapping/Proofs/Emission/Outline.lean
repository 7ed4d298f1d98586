/-
# The outline of a drawing

What is drawn for a sketch can be taken apart again: the triples that leave one node are the arrows
of its part of the sketch, and a new node is led to once.
-/
import RdfMapping.Proofs.Emission.Sketch

namespace RdfMapping.RuleGraph

open Rdf (Term Quad)

namespace Sketch

/-- The arrows of a node, with the terms they lead to. -/
def ends : Sketch → List (String × Option Term)
  | done => []
  | arrow p o rest => (p, some o) :: rest.ends
  | link p _ rest => (p, none) :: rest.ends

/-- How many arrows of a node have one of the properties. -/
def degree (s : Sketch) (ps : List String) : Nat :=
  s.ends.countP fun e => ps.contains e.1

theorem ends_append (s t : Sketch) : (s ++ t).ends = s.ends ++ t.ends := by
  induction s with
  | done => rfl
  | arrow p o rest ih => exact congrArg _ ih
  | link p inner rest _ ih => exact congrArg _ ih

theorem degree_append (s t : Sketch) (ps : List String) :
    (s ++ t).degree ps = s.degree ps + t.degree ps := by
  rw [degree, ends_append, List.countP_append]
  rfl

/-! ## Properties of arrows and of links -/

/-- Arrows to terms are `leaves`, and those to new nodes `links`. -/
def Sorted (leaves links : List String) : Sketch → Prop :=
  Sketch.All (fun p _ => p ∈ leaves) (fun p _ => p ∈ links)

variable {used leaves ks ks' : List String} {s t : Sketch}

theorem Tidy.sorted (h : s.Tidy used leaves ks) : s.Sorted leaves ks :=
  h.mono (fun _ _ => And.left) fun _ _ => And.left

theorem Sorted.mono (h : s.Sorted leaves ks) (hks : ks ⊆ ks') : s.Sorted leaves ks' :=
  All.mono h (fun _ _ => id) fun _ _ hp => hks hp

/-- What is drawn is an arrow, or a link to a new node. -/
theorem mem_draw_of_sorted (h : s.Sorted leaves ks) {n : Term} {k : Nat} {q : Quad}
    (hq : q ∈ (s.draw used n k).triples) :
    q.graph = none ∧ ∃ p, q.predicate = .iri p ∧
      (p ∈ leaves ∨ p ∈ ks ∧ ∃ label, q.object = .blank label) := by
  induction s generalizing n k with
  | done => exact absurd hq List.not_mem_nil
  | arrow p o rest ih =>
    rcases List.mem_cons.1 hq with rfl | hq
    · exact ⟨rfl, p, rfl, .inl h.1⟩
    · exact ih h.2 hq
  | link p inner rest ihi ihr =>
    rw [triples_link] at hq
    rcases List.mem_cons.1 hq with rfl | hq
    · exact ⟨rfl, p, rfl, .inr ⟨h.1, _, rfl⟩⟩
    · rcases List.mem_append.1 hq with hq | hq
      · exact ihi h.2.1 hq
      · exact ihr h.2.2 hq

end Sketch

/-! ## The arrows of a node -/

/-- The triples that leave a node are the arrows of a sketch, in order. -/
def Outlined (ts : List Quad) (n : Term) (s : Sketch) : Prop :=
  List.Forall₂ (fun q e => q.predicate = .iri e.1 ∧ ∀ o, e.2 = some o → q.object = o)
    (ts.filter fun q => q.subject == n) s.ends

namespace Outlined

variable {ts us : List Quad} {n o : Term} {p : String} {s : Sketch}

theorem nil : Outlined [] n .done := List.Forall₂.nil

theorem cons_arrow (h : Outlined ts n s) : Outlined (triple n p o :: ts) n (.arrow p o s) := by
  rw [Outlined, List.filter_cons_of_pos (by simp [triple])]
  exact .cons ⟨rfl, fun o' ho => Option.some.inj ho⟩ h

theorem cons_link {inner : Sketch} (h : Outlined ts n s) :
    Outlined (triple n p o :: ts) n (.link p inner s) := by
  rw [Outlined, List.filter_cons_of_pos (by simp [triple])]
  exact .cons ⟨rfl, fun o' ho => absurd ho (Option.some_ne_none o').symm⟩ h

/-- Triples that leave other nodes do not matter. -/
theorem of_filter_eq (h : Outlined ts n s)
    (hfilter : us.filter (fun q => q.subject == n) = ts.filter fun q => q.subject == n) :
    Outlined us n s := by
  rw [Outlined, hfilter]
  exact h

theorem append_right (h : Outlined ts n s) (hus : ∀ q ∈ us, q.subject ≠ n) :
    Outlined (ts ++ us) n s := by
  have hnone : us.filter (fun q => q.subject == n) = [] :=
    List.filter_eq_nil_iff.2 fun q hq => by simpa using hus q hq
  exact h.of_filter_eq (by rw [List.filter_append, hnone, List.append_nil])

theorem append_left (h : Outlined us n s) (hts : ∀ q ∈ ts, q.subject ≠ n) :
    Outlined (ts ++ us) n s := by
  have hnone : ts.filter (fun q => q.subject == n) = [] :=
    List.filter_eq_nil_iff.2 fun q hq => by simpa using hts q hq
  exact h.of_filter_eq (by rw [List.filter_append, hnone, List.nil_append])

/-- **The degree of a node is the number of triples that leave it.** -/
theorem countP_eq (h : Outlined ts n s) (ps : List String) :
    ts.countP (fun q => q.subject == n && Graph.hasProperty ps q) = s.degree ps := by
  have hcount : ∀ {qs : List Quad} {es : List (String × Option Term)},
      List.Forall₂ (fun q e => q.predicate = .iri e.1 ∧ ∀ o, e.2 = some o → q.object = o) qs es →
        qs.countP (Graph.hasProperty ps) = es.countP fun e => ps.contains e.1 := by
    intro qs es hqs
    induction hqs with
    | nil => rfl
    | cons hqe _ ih =>
      rw [List.countP_cons, List.countP_cons, ih, Graph.hasProperty, hqe.1]
      rfl
  have hand : (fun q : Quad => q.subject == n && Graph.hasProperty ps q) =
      fun q => Graph.hasProperty ps q && q.subject == n := funext fun q => Bool.and_comm _ _
  rw [hand, ← List.countP_filter]
  exact hcount h

/-- A triple that leaves the node is one of the arrows. -/
theorem exists_end (h : Outlined ts n s) {q : Quad} (hq : q ∈ ts) (hn : q.subject = n) :
    ∃ e ∈ s.ends, q.predicate = .iri e.1 ∧ ∀ o, e.2 = some o → q.object = o := by
  have hmem : q ∈ ts.filter fun q => q.subject == n := List.mem_filter.2 ⟨hq, by simpa using hn⟩
  obtain ⟨i, hi, rfl⟩ := List.mem_iff_getElem.1 hmem
  have hi' : i < s.ends.length := h.length_eq ▸ hi
  exact ⟨s.ends[i], List.getElem_mem hi', h.get hi hi'⟩

/-- An arrow of the node is a triple. -/
theorem exists_triple (h : Outlined ts n s) (hs : s.ends ≠ []) : ∃ q ∈ ts, q.subject = n := by
  have hne : ts.filter (fun q => q.subject == n) ≠ [] := by
    intro hnil
    have hlen := h.length_eq
    rw [hnil] at hlen
    exact hs (List.eq_nil_of_length_eq_zero hlen.symm)
  obtain ⟨q, hq⟩ := List.exists_mem_of_ne_nil _ hne
  obtain ⟨hmem, hn⟩ := List.mem_filter.1 hq
  exact ⟨q, hmem, by simpa using hn⟩

end Outlined

/-! ## Drawings -/

section Drawings

variable {used : List String} {leaf : String → Term → Prop} {branch : String → Sketch → Prop}

/-- Triples drawn at some nodes; new nodes are led to once. -/
structure Composed (used : List String) (leaf : String → Term → Prop)
    (branch : String → Sketch → Prop) (k m : Nat) (roots : List Term) (ts : List Quad) :
    Prop where
  le : k ≤ m
  subjects : ∀ q ∈ ts, q.subject ∈ roots ∨
    Fresh used k m q.subject ∧ ∃ q' ∈ ts, q'.object = q.subject
  objects : ∀ q ∈ ts, ∃ p, q.predicate = .iri p ∧ (leaf p q.object ∨
    Fresh used k m q.object ∧ ∃ inner, branch p inner ∧
      ts.countP (fun q' => q'.object == q.object) = 1 ∧ Outlined ts q.object inner)

namespace Composed

variable {k l m : Nat} {n : Term} {roots roots' : List Term} {ts us : List Quad}

theorem nil (k : Nat) (roots : List Term) : Composed used leaf branch k k roots [] :=
  ⟨Nat.le_refl k, fun _ h => absurd h List.not_mem_nil, fun _ h => absurd h List.not_mem_nil⟩

/-- The triples leave no new node from elsewhere. -/
theorem subject_ne (h : Composed used leaf branch k m roots ts) {x : Term}
    (hroots : x ∉ roots) (hx : ¬ Fresh used k m x) : ∀ q ∈ ts, q.subject ≠ x := by
  rintro q hq rfl
  rcases h.subjects q hq with hr | ⟨hf, -⟩
  · exact hroots hr
  · exact hx hf

/-- The triples lead to no new node from elsewhere. -/
theorem object_ne (hleaf : ∀ p o, leaf p o → ∀ label, o = .blank label → label ∈ used)
    (h : Composed used leaf branch k m roots ts) {x : Term} {i j : Nat} (hx : Fresh used i j x)
    (hkm : ¬ Fresh used k m x) : ∀ q ∈ ts, q.object ≠ x := by
  rintro q hq rfl
  obtain ⟨p, -, hl | ⟨hf, -⟩⟩ := h.objects q hq
  · exact Sketch.not_fresh_of_used (hleaf p _ hl) hx
  · exact hkm hf

/-- **Drawings can be put one after the other**, with numbers that go on. -/
theorem append (hleaf : ∀ p o, leaf p o → ∀ label, o = .blank label → label ∈ used)
    (h : Composed used leaf branch k l roots ts) (h' : Composed used leaf branch l m roots' us)
    (hroots : ∀ n ∈ roots, ¬ Fresh used l m n) (hroots' : ∀ n ∈ roots', ¬ Fresh used k l n) :
    Composed used leaf branch k m (roots ++ roots') (ts ++ us) := by
  have hdisjoint {x : Term} (hx : Fresh used k l x) : ¬ Fresh used l m x := fun hx' =>
    hx.disjoint hx' (Nat.le_refl l)
  refine ⟨Nat.le_trans h.le h'.le, fun q hq => ?_, fun q hq => ?_⟩
  · rcases List.mem_append.1 hq with hq | hq
    · rcases h.subjects q hq with hr | ⟨hf, q', hq', ho⟩
      · exact .inl (List.mem_append_left _ hr)
      · exact .inr ⟨hf.mono (Nat.le_refl _) h'.le, q', List.mem_append_left _ hq', ho⟩
    · rcases h'.subjects q hq with hr | ⟨hf, q', hq', ho⟩
      · exact .inl (List.mem_append_right _ hr)
      · exact .inr ⟨hf.mono h.le (Nat.le_refl _), q', List.mem_append_right _ hq', ho⟩
  · rcases List.mem_append.1 hq with hq | hq
    · obtain ⟨p, hp, hl | ⟨hf, inner, hb, hcount, hout⟩⟩ := h.objects q hq
      · exact ⟨p, hp, .inl hl⟩
      · -- the other triples neither lead to the new node nor leave it
        have hother := h'.object_ne hleaf hf (hdisjoint hf)
        refine ⟨p, hp, .inr ⟨hf.mono (Nat.le_refl _) h'.le, inner, hb, ?_, ?_⟩⟩
        · rw [List.countP_append, hcount, countP_object_eq_zero hother]
        · exact hout.append_right (h'.subject_ne (fun hr => hroots' _ hr hf) (hdisjoint hf))
    · obtain ⟨p, hp, hl | ⟨hf, inner, hb, hcount, hout⟩⟩ := h'.objects q hq
      · exact ⟨p, hp, .inl hl⟩
      · have hno : ¬ Fresh used k l q.object := fun hx => hdisjoint hx hf
        refine ⟨p, hp, .inr ⟨hf.mono h.le (Nat.le_refl _), inner, hb, ?_, ?_⟩⟩
        · rw [List.countP_append, hcount, countP_object_eq_zero (h.object_ne hleaf hf hno)]
        · exact hout.append_left (h.subject_ne (fun hr => hroots _ hr hf) hno)

/-- A triple to a term at one of the nodes. -/
theorem cons_arrow (h : Composed used leaf branch k m [n] ts)
    (hn : ¬ Fresh used k m n) {p : String} {o : Term} (hl : leaf p o)
    (ho : ∀ label, o = .blank label → label ∈ used) :
    Composed used leaf branch k m [n] (triple n p o :: ts) := by
  refine ⟨h.le, fun q hq => ?_, fun q hq => ?_⟩
  · rcases List.mem_cons.1 hq with rfl | hq
    · exact .inl (List.mem_singleton.2 rfl)
    · exact (h.subjects q hq).imp_right fun ⟨hf, q', hq', heq⟩ =>
        ⟨hf, q', List.mem_cons_of_mem _ hq', heq⟩
  · rcases List.mem_cons.1 hq with rfl | hq
    · exact ⟨p, rfl, .inl hl⟩
    · obtain ⟨p', hp', hl' | ⟨hf, inner, hb, hcount, hout⟩⟩ := h.objects q hq
      · exact ⟨p', hp', .inl hl'⟩
      · have hne : o ≠ q.object := fun heq =>
          Sketch.not_fresh_of_used ho (heq ▸ hf)
        refine ⟨p', hp', .inr ⟨hf, inner, hb, ?_, ?_⟩⟩
        · rw [List.countP_cons, hcount, if_neg]
          simpa [triple] using hne
        · have hsubject : n ≠ q.object := fun heq => hn (heq ▸ hf)
          exact hout.of_filter_eq (List.filter_cons_of_neg (by simpa [triple] using hsubject))

/-- A triple to a new node, with what is drawn for it. -/
theorem cons_link (hleaf : ∀ p o, leaf p o → ∀ label, o = .blank label → label ∈ used)
    {x : Term} (h : Composed used leaf branch l m [x, n] ts) (hkl : k ≤ l) (hx : Fresh used k l x)
    (hn : ¬ Fresh used k m n) {p : String} {inner : Sketch} (hb : branch p inner)
    (hout : Outlined ts x inner) :
    Composed used leaf branch k m [n] (triple n p x :: ts) := by
  have hxl : ¬ Fresh used l m x := fun hf => hx.disjoint hf (Nat.le_refl l)
  have hnx : n ≠ x := fun heq => hn (heq ▸ hx.mono (Nat.le_refl _) h.le)
  refine ⟨Nat.le_trans hkl h.le, fun q hq => ?_, fun q hq => ?_⟩
  · rcases List.mem_cons.1 hq with rfl | hq
    · exact .inl (List.mem_singleton.2 rfl)
    · rcases h.subjects q hq with hr | ⟨hf, q', hq', heq⟩
      · rcases List.mem_cons.1 hr with heq | hr
        · refine .inr ⟨heq ▸ hx.mono (Nat.le_refl _) h.le, _, List.mem_cons_self .., heq.symm⟩
        · exact .inl hr
      · exact .inr ⟨hf.mono hkl (Nat.le_refl _), q', List.mem_cons_of_mem _ hq', heq⟩
  · rcases List.mem_cons.1 hq with rfl | hq
    · refine ⟨p, rfl, .inr ⟨hx.mono (Nat.le_refl _) h.le, inner, hb, ?_, ?_⟩⟩
      · have hzero : ts.countP (fun q => q.object == (triple n p x).object) = 0 :=
          countP_object_eq_zero (h.object_ne hleaf hx hxl)
        rw [List.countP_cons, hzero, if_pos (beq_self_eq_true _)]
      · exact hout.of_filter_eq (List.filter_cons_of_neg (by simpa [triple] using hnx))
    · obtain ⟨p', hp', hl' | ⟨hf, inner', hb', hcount, hout'⟩⟩ := h.objects q hq
      · exact ⟨p', hp', .inl hl'⟩
      · have hne : x ≠ q.object := fun heq => hxl (heq ▸ hf)
        have hsubject : n ≠ q.object := fun heq => hn (heq ▸ hf.mono hkl (Nat.le_refl _))
        refine ⟨p', hp', .inr ⟨hf.mono hkl (Nat.le_refl _), inner', hb', ?_, ?_⟩⟩
        · rw [List.countP_cons, hcount, if_neg]
          simpa [triple] using hne
        · exact hout'.of_filter_eq (List.filter_cons_of_neg (by simpa [triple] using hsubject))

end Composed

open Sketch (newNode drawInner fresh_newNode)

/-- **A drawing is composed of its parts.** -/
theorem composed_draw (hleaf : ∀ p o, leaf p o → ∀ label, o = .blank label → label ∈ used)
    {s : Sketch} (hs : s.All leaf branch) {n : Term} {k : Nat}
    (hn : ¬ Fresh used k (s.draw used n k).next n) :
    Composed used leaf branch k (s.draw used n k).next [n] (s.draw used n k).triples ∧
      Outlined (s.draw used n k).triples n s := by
  induction s generalizing n k with
  | done => exact ⟨.nil k [n], .nil⟩
  | arrow p o rest ih =>
    rw [Sketch.triples_arrow, Sketch.next_arrow] at *
    obtain ⟨hcomposed, hout⟩ := ih hs.2 hn
    exact ⟨hcomposed.cons_arrow hn hs.1 (hleaf p o hs.1), hout.cons_arrow⟩
  | link p inner rest ihi ihr =>
    rw [Sketch.triples_link, Sketch.next_link] at *
    obtain ⟨hb, hinner, hrest⟩ := hs
    obtain ⟨hfresh, hle, hnext⟩ := Sketch.numbers_link used inner rest n k
    have hx : Fresh used k (freshNumber used k + 1) (newNode used k) :=
      fresh_newNode (Nat.le_refl _)
    have hxi {i j : Nat} (hi : freshNumber used k + 1 ≤ i) : ¬ Fresh used i j (newNode used k) :=
      fun hf => hx.disjoint hf hi
    have hni {i j : Nat} (hi : k ≤ i)
        (hj : j ≤ (rest.draw used n (drawInner used inner k).next).next) : ¬ Fresh used i j n :=
      fun hf => hn (hf.mono hi hj)
    obtain ⟨hci, hoi⟩ := ihi (n := newNode used k) (k := freshNumber used k + 1) hinner
      (hxi (Nat.le_refl _))
    obtain ⟨hcr, hor⟩ := ihr (n := n) (k := (drawInner used inner k).next) hrest
      (hni (by omega) (Nat.le_refl _))
    have hnx : n ≠ newNode used k := fun heq =>
      hni (Nat.le_refl k) (Nat.le_trans hle hnext) (heq ▸ hx)
    have hboth := hci.append hleaf hcr (List.forall_mem_singleton.2 (hxi hle))
      (List.forall_mem_singleton.2 (hni (by omega) hnext))
    -- the arrows of the new node stand in its own drawing, those of the node in the rest
    have hox := hoi.append_right (hcr.subject_ne (fun h => hnx (List.mem_singleton.1 h).symm)
      (hxi hle))
    have hon := hor.append_left (hci.subject_ne (fun h => hnx (List.mem_singleton.1 h))
      (hni (by omega) hnext))
    exact ⟨hboth.cons_link hleaf (Nat.le_succ_of_le hfresh) hx hn hb hox, hon.cons_link⟩

end Drawings

end RdfMapping.RuleGraph
