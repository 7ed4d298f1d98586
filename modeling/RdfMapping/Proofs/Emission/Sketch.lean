/-
# Sketches

Emission writes, for every node, the arrows that leave it; where an arrow leads to a new node, the
arrows of that node come next.  A sketch is such a tree of arrows without names for the new nodes,
and drawing it gives each of them a fresh one.
-/
import Mathlib.Data.List.Nodup
import RdfMapping.Proofs.Decoding.Names
import RdfMapping.Proofs.Decoding.Notes
import RdfMapping.RuleGraph.Emission

namespace RdfMapping.RuleGraph

open Rdf (Term Quad)

variable {used : List String} {s : Sketch} {m k : Nat} {q : Quad} {ts : List Quad} {n : Term}

/-! ## Steps -/

namespace Step

instance : LawfulMonad Step :=
  LawfulMonad.mk' Step
    (fun x => by
      funext n
      exact congrArg (Written.mk _ _) (List.append_nil _))
    (fun _ _ => rfl)
    (fun x f g => by
      funext n
      exact congrArg (Written.mk _ _) (List.append_assoc _ _ _))

/-- Triples are written one after the other. -/
theorem write_append (ts us : List Quad) : write (ts ++ us) = (do write ts; write us) := rfl

/-- Steps for two lists are taken one after the other. -/
theorem each_append {α : Type} (f : α → Step Unit) (as bs : List α) :
    each f (as ++ bs) = (do each f as; each f bs) := by
  induction as with
  | nil => rfl
  | cons a as ih =>
    rw [List.cons_append, each, ih, each, bind_assoc]

end Step

/-! ## Fresh nodes -/

/-- Different numbers have different labels. -/
theorem labelAt_injective {i j : Nat} (h : labelAt i = labelAt j) : i = j :=
  append_toString_injective "b" h

/-- The fresh number is free, and not below the counter. -/
theorem freshNumber_spec (used : List String) (n : Nat) :
    n ≤ freshNumber used n ∧ labelAt (freshNumber used n) ∉ used := by
  obtain ⟨i, hfind, hle, hi⟩ := exists_free_number (fun _ _ => labelAt_injective) used n
  have hfresh : freshNumber used n = i := congrArg (Option.getD · n) hfind
  rw [hfresh]
  exact ⟨hle, hi⟩

/-- A node with an unused label whose number lies between two others. -/
def Fresh (used : List String) (k m : Nat) (t : Term) : Prop :=
  ∃ i, k ≤ i ∧ i < m ∧ labelAt i ∉ used ∧ t = .blank (labelAt i)

namespace Fresh

variable {used : List String} {k k' l m m' : Nat} {t : Term}

/-- A new node is one of a wider range. -/
theorem mono (h : Fresh used k m t) (hk : k' ≤ k) (hm : m ≤ m') : Fresh used k' m' t := by
  obtain ⟨i, hki, him, hi, rfl⟩ := h
  exact ⟨i, Nat.le_trans hk hki, Nat.lt_of_lt_of_le him hm, hi, rfl⟩

/-- Numbers tell fresh nodes apart. -/
theorem disjoint (h : Fresh used k l t) (h' : Fresh used k' m t) (hle : l ≤ k') : False := by
  obtain ⟨i, -, hil, -, rfl⟩ := h
  obtain ⟨j, hj, -, -, hij⟩ := h'
  have heq : i = j := labelAt_injective (Term.blank.inj hij)
  omega

/-- A new node is no IRI. -/
theorem ne_iri (h : Fresh used k m t) (iri : String) : t ≠ .iri iri := by
  obtain ⟨i, -, -, -, rfl⟩ := h
  simp

end Fresh

/-- The triples do not touch the nodes with certain numbers. -/
def Apart (used : List String) (k m : Nat) (ts : List Quad) : Prop :=
  ∀ q ∈ ts, ∀ x, Fresh used k m x → q.subject ≠ x ∧ q.object ≠ x

/-- Triples apart from a range are apart from a narrower one. -/
theorem Apart.mono {k' m' : Nat} (h : Apart used k m ts) (hk : k ≤ k') (hm : m' ≤ m) :
    Apart used k' m' ts :=
  fun q hq x hx => h q hq x (hx.mono hk hm)

/-- Triples are apart if both halves are. -/
theorem apart_append {us : List Quad} :
    Apart used k m (ts ++ us) ↔ Apart used k m ts ∧ Apart used k m us :=
  List.forall_mem_append

/-- A triple between old nodes is apart. -/
theorem apart_triple {p : String} {o : Term} (hn : ¬ Fresh used k m n)
    (ho : ¬ Fresh used k m o) : Apart used k m [triple n p o] := by
  intro q hq x hx
  rw [List.mem_singleton.1 hq]
  constructor
  · rintro rfl
    exact hn hx
  · rintro rfl
    exact ho hx

/-! ## Sketches -/

/-- The arrows that leave a node, each to a term or to a new node with arrows of its own. -/
inductive Sketch where
  | done
  | arrow (p : String) (o : Term) (rest : Sketch)
  | link (p : String) (inner rest : Sketch)

namespace Sketch

/-- The arrows of two sketches, one after the other. -/
def append : Sketch → Sketch → Sketch
  | done, t => t
  | arrow p o rest, t => arrow p o (rest.append t)
  | link p inner rest, t => link p inner (rest.append t)

instance : Append Sketch := ⟨append⟩

/-- Nothing before a sketch. -/
@[simp]
theorem done_append (t : Sketch) : done ++ t = t := rfl

/-- An arrow before a sketch. -/
@[simp]
theorem arrow_append (p : String) (o : Term) (s t : Sketch) :
    arrow p o s ++ t = arrow p o (s ++ t) := rfl

/-- A link before a sketch. -/
@[simp]
theorem link_append (p : String) (inner s t : Sketch) :
    link p inner s ++ t = link p inner (s ++ t) := rfl

/-- Draws the arrows of a node. -/
def draw (used : List String) (n : Term) : Sketch → Step Unit
  | done => pure ()
  | arrow p o rest => do
    .write [triple n p o]
    rest.draw used n
  | link p inner rest => do
    let x ← freshNode used
    .write [triple n p x]
    inner.draw used x
    rest.draw used n

/-- Two sketches are drawn one after the other. -/
theorem draw_append (used : List String) (n : Term) (s t : Sketch) :
    (s ++ t).draw used n = (do s.draw used n; t.draw used n) := by
  induction s with
  | done => rfl
  | arrow p o rest ih => rw [arrow_append, draw, ih, draw, bind_assoc]
  | link p inner rest _ ih =>
    rw [link_append, draw, ih, draw]
    simp only [bind_assoc]

/-- The arrows that lead to terms. -/
def arrows : Sketch → List (String × Term)
  | done => []
  | arrow p o rest => (p, o) :: rest.arrows
  | link _ _ rest => rest.arrows

/-- Something holds of every arrow, and of links with their parts. -/
def All (leaf : String → Term → Prop) (branch : String → Sketch → Prop) : Sketch → Prop
  | done => True
  | arrow p o rest => leaf p o ∧ rest.All leaf branch
  | link p inner rest => branch p inner ∧ inner.All leaf branch ∧ rest.All leaf branch

variable {leaf leaf' : String → Term → Prop} {branch branch' : String → Sketch → Prop}

/-- What holds of two sketches holds of both in turn. -/
theorem all_append {t : Sketch} :
    (s ++ t).All leaf branch ↔ s.All leaf branch ∧ t.All leaf branch := by
  induction s with
  | done => exact (and_iff_right trivial).symm
  | arrow p o rest ih => rw [arrow_append, All, All, ih, and_assoc]
  | link p inner rest _ ih => rw [link_append, All, All, ih, and_assoc, and_assoc]

/-- What is weaker holds of all arrows too. -/
theorem All.mono (h : s.All leaf branch) (hleaf : ∀ p o, leaf p o → leaf' p o)
    (hbranch : ∀ p t, branch p t → branch' p t) : s.All leaf' branch' := by
  induction s with
  | done => trivial
  | arrow p o rest ih => exact ⟨hleaf p o h.1, ih h.2⟩
  | link p inner rest ihi ihr => exact ⟨hbranch p inner h.1, ihi h.2.1, ihr h.2.2⟩

/-- Properties are given, blank nodes are used ones, and no new node has an arrow twice. -/
abbrev Tidy (used leaves links : List String) : Sketch → Prop :=
  Sketch.All (fun p o => p ∈ leaves ∧ ∀ l, o = .blank l → l ∈ used)
    fun p inner => p ∈ links ∧ inner.arrows.Nodup

/-- The arrows of two sketches in turn. -/
theorem arrows_append (s t : Sketch) : (s ++ t).arrows = s.arrows ++ t.arrows := by
  induction s with
  | done => rfl
  | arrow p o rest ih => exact congrArg _ ih
  | link p inner rest _ ih => exact ih

/-- How many arrows of the tree with a property lead to new nodes. -/
def count (p : String) : Sketch → Nat
  | done => 0
  | arrow _ _ rest => rest.count p
  | link q inner rest => (if q = p then 1 else 0) + inner.count p + rest.count p

/-! ## What drawing writes -/

section Draw

variable {used leaves links : List String} {s inner rest : Sketch} {n : Term} {k : Nat}

/-- An arrow is drawn as one triple. -/
theorem triples_arrow (p : String) (o : Term) :
    ((arrow p o rest).draw used n k).triples = triple n p o :: (rest.draw used n k).triples := rfl

/-- An arrow takes no number. -/
theorem next_arrow (p : String) (o : Term) :
    ((arrow p o rest).draw used n k).next = (rest.draw used n k).next := rfl

/-- The node an arrow to a new node leads to. -/
def newNode (used : List String) (k : Nat) : Term := .blank (labelAt (freshNumber used k))

/-- What is drawn for a new node. -/
def drawInner (used : List String) (inner : Sketch) (k : Nat) : Written Unit :=
  inner.draw used (newNode used k) (freshNumber used k + 1)

/-- A link is drawn before what it leads to. -/
theorem triples_link (p : String) :
    ((link p inner rest).draw used n k).triples =
      triple n p (newNode used k) :: ((drawInner used inner k).triples ++
        (rest.draw used n (drawInner used inner k).next).triples) := rfl

/-- A link takes the numbers of both parts. -/
theorem next_link (p : String) :
    ((link p inner rest).draw used n k).next =
      (rest.draw used n (drawInner used inner k).next).next := rfl

/-- Drawing only counts up. -/
theorem le_next (used : List String) (s : Sketch) (n : Term) (k : Nat) :
    k ≤ (s.draw used n k).next := by
  induction s generalizing n k with
  | done => exact Nat.le_refl k
  | arrow p o rest ih => exact ih n k
  | link p inner rest ihi ihr =>
    rw [next_link]
    have hfresh := (freshNumber_spec used k).1
    have hinner := ihi (newNode used k) (freshNumber used k + 1)
    have hrest := ihr n (drawInner used inner k).next
    rw [drawInner] at hrest ⊢
    omega

/-- Drawing a new node takes its number. -/
theorem lt_next_drawInner (used : List String) (inner : Sketch) (k : Nat) :
    freshNumber used k + 1 ≤ (drawInner used inner k).next :=
  le_next used inner _ _

/-- The numbers along a link: the new node, its arrows, the rest. -/
theorem numbers_link (used : List String) (inner rest : Sketch) (n : Term) (k : Nat) :
    k ≤ freshNumber used k ∧ freshNumber used k + 1 ≤ (drawInner used inner k).next ∧
      (drawInner used inner k).next ≤ (rest.draw used n (drawInner used inner k).next).next :=
  ⟨(freshNumber_spec used k).1, lt_next_drawInner used inner k, le_next used rest n _⟩

/-- The new node is one of the numbers after the counter. -/
theorem fresh_newNode (hm : freshNumber used k + 1 ≤ m) :
    Fresh used k m (newNode used k) :=
  ⟨_, (freshNumber_spec used k).1, hm, (freshNumber_spec used k).2, rfl⟩

/-- What is drawn stays among the node, terms and new nodes. -/
theorem mem_draw (hs : s.Tidy used leaves links) (hq : q ∈ (s.draw used n k).triples) :
    q.graph = none ∧
      (q.subject = n ∨ Fresh used k (s.draw used n k).next q.subject) ∧
      ∃ p, q.predicate = .iri p ∧
        (p ∈ leaves ∧ (∀ l, q.object = .blank l → l ∈ used) ∨
          p ∈ links ∧ Fresh used k (s.draw used n k).next q.object) := by
  induction s generalizing n k with
  | done => exact absurd hq List.not_mem_nil
  | arrow p o rest ih =>
    rw [triples_arrow] at hq
    rw [next_arrow]
    rcases List.mem_cons.1 hq with rfl | hq
    · exact ⟨rfl, .inl rfl, p, rfl, .inl hs.1⟩
    · exact ih hs.2 hq
  | link p inner rest ihi ihr =>
    rw [triples_link] at hq
    rw [next_link]
    obtain ⟨hfresh, hle, hnext⟩ := numbers_link used inner rest n k
    rcases List.mem_cons.1 hq with rfl | hq
    · exact ⟨rfl, .inl rfl, p, rfl, .inr ⟨hs.1.1, fresh_newNode (Nat.le_trans hle hnext)⟩⟩
    · rcases List.mem_append.1 hq with hq | hq
      · obtain ⟨hg, hsub, p', hp', hobj⟩ := ihi hs.2.1 hq
        refine ⟨hg, .inr ?_, p', hp', hobj.imp_right fun h =>
          ⟨h.1, h.2.mono (by omega) hnext⟩⟩
        rcases hsub with hsub | hsub
        · rw [hsub]
          exact fresh_newNode (Nat.le_trans hle hnext)
        · exact hsub.mono (by omega) hnext
      · obtain ⟨hg, hsub, p', hp', hobj⟩ := ihr hs.2.2 hq
        exact ⟨hg, hsub.imp_right fun h => h.mono (by omega) (Nat.le_refl _), p', hp',
          hobj.imp_right fun h => ⟨h.1, h.2.mono (by omega) (Nat.le_refl _)⟩⟩

/-- A term of a tidy sketch is not a fresh node. -/
theorem not_fresh_of_used {o : Term} (ho : ∀ l, o = .blank l → l ∈ used) :
    ¬ Fresh used k m o := by
  rintro ⟨i, -, -, hi, rfl⟩
  exact hi (ho _ rfl)

/-- What is drawn touches no fresh node with a number from elsewhere. -/
theorem apart_draw (hs : s.Tidy used leaves links) {l : Nat} (hn : ¬ Fresh used l m n)
    (hlm : m ≤ k ∨ (s.draw used n k).next ≤ l) : Apart used l m (s.draw used n k).triples := by
  intro q hq x hx
  have hno (h : Fresh used k (s.draw used n k).next x) : False :=
    hlm.elim (hx.disjoint h) (h.disjoint hx)
  obtain ⟨-, hsub, p, -, hobj⟩ := mem_draw hs hq
  constructor
  · rintro rfl
    exact hsub.elim (fun h => hn (h ▸ hx)) hno
  · rintro rfl
    rcases hobj with ⟨-, h⟩ | ⟨-, h⟩
    · exact not_fresh_of_used h hx
    · exact hno h

/-- A node from elsewhere has no arrows in what is drawn for a new node. -/
theorem subject_ne_of_mem_drawInner (hs : inner.Tidy used leaves links)
    (hm : (drawInner used inner k).next ≤ m) (hn : ¬ Fresh used k m n)
    (hq : q ∈ (drawInner used inner k).triples) : q.subject ≠ n := by
  rintro rfl
  refine hn ?_
  have hle := lt_next_drawInner used inner k
  rcases (mem_draw hs hq).2.1 with h | h
  · rw [h]
    exact fresh_newNode (Nat.le_trans hle hm)
  · exact h.mono (Nat.le_succ_of_le (freshNumber_spec used k).1) hm

/-- The triples from a node to terms are the arrows of its sketch. -/
theorem mem_arrows_of_mem_draw (hs : s.Tidy used leaves links) {p : String} {o : Term}
    (hn : ¬ Fresh used k (s.draw used n k).next n) (ho : ∀ l, o = .blank l → l ∈ used)
    (h : triple n p o ∈ (s.draw used n k).triples) : (p, o) ∈ s.arrows := by
  induction s generalizing k with
  | done => exact absurd h List.not_mem_nil
  | arrow p' o' rest ih =>
    rw [triples_arrow] at h
    rcases List.mem_cons.1 h with h | h
    · simp only [triple, Quad.mk.injEq, Term.iri.injEq] at h
      rw [h.2.1, h.2.2.1]
      exact List.mem_cons_self ..
    · exact List.mem_cons_of_mem _ (ih hs.2 hn h)
  | link p' inner rest _ ih =>
    rw [triples_link] at h
    rw [next_link] at hn
    obtain ⟨hfresh, hle, hnext⟩ := numbers_link used inner rest n k
    rcases List.mem_cons.1 h with h | h
    · simp only [triple, Quad.mk.injEq] at h
      rw [h.2.2.1] at ho
      exact absurd (fresh_newNode (Nat.le_refl _)) (not_fresh_of_used ho)
    · rcases List.mem_append.1 h with h | h
      · exact absurd rfl (subject_ne_of_mem_drawInner hs.2.1 hnext hn h)
      · exact ih hs.2.2 (fun hf => hn (hf.mono (by omega) (Nat.le_refl _))) h

/-- **No triple is drawn twice.** -/
theorem nodup_draw (hs : s.Tidy used leaves links) (hd : s.arrows.Nodup)
    (hn : ¬ Fresh used k (s.draw used n k).next n) : (s.draw used n k).triples.Nodup := by
  induction s generalizing n k with
  | done => exact List.nodup_nil
  | arrow p o rest ih =>
    rw [triples_arrow, List.nodup_cons]
    obtain ⟨hnew, hd⟩ := List.nodup_cons.1 hd
    exact ⟨fun h => hnew (mem_arrows_of_mem_draw hs.2 hn hs.1.2 h), ih hs.2 hd hn⟩
  | link p inner rest ihi ihr =>
    rw [next_link] at hn
    obtain ⟨hfresh, hle, hnext⟩ := numbers_link used inner rest n k
    have hnode : Fresh used k (freshNumber used k + 1) (newNode used k) :=
      fresh_newNode (Nat.le_refl _)
    rw [triples_link, List.nodup_cons, List.nodup_append, List.mem_append]
    refine ⟨?_, ihi hs.2.1 hs.1.2 fun hf => hnode.disjoint hf (Nat.le_refl _),
      ihr hs.2.2 hd fun hf => hn (hf.mono (by omega) (Nat.le_refl _)), ?_⟩
    · rintro (h | h)
      · exact subject_ne_of_mem_drawInner hs.2.1 hnext hn h rfl
      · have hold := fun hf => hn (Fresh.mono hf (Nat.le_refl k) (Nat.le_trans hle hnext))
        exact (apart_draw hs.2.2 hold (.inl hle) _ h _ hnode).2 rfl
    · rintro q hq q' hq' rfl
      rcases (mem_draw hs.2.2 hq').2.1 with h | h
      · exact subject_ne_of_mem_drawInner hs.2.1 hnext hn hq h
      · rcases (mem_draw hs.2.1 hq).2.1 with h' | h'
        · exact hnode.disjoint (h' ▸ h) hle
        · exact h'.disjoint h (Nat.le_refl _)

/-- The links with a property become triples with that property. -/
theorem count_le_countP (p : String) (s : Sketch) (n : Term) (k : Nat) :
    s.count p ≤ (s.draw used n k).triples.countP (Graph.hasProperty [p]) := by
  induction s generalizing n k with
  | done => exact Nat.le_refl 0
  | arrow p' o rest ih =>
    rw [triples_arrow, List.countP_cons]
    exact Nat.le_trans (ih n k) (Nat.le_add_right _ _)
  | link p' inner rest ihi ihr =>
    rw [triples_link, List.countP_cons, List.countP_append, count]
    have hinner := ihi (newNode used k) (freshNumber used k + 1)
    have hrest := ihr n (drawInner used inner k).next
    have hone : (if p' = p then 1 else 0) =
        if Graph.hasProperty [p] (triple n p' (newNode used k)) = true then 1 else 0 := by
      simp [Graph.hasProperty, triple, Term.iri?]
    rw [drawInner] at hrest ⊢
    omega

end Draw

end Sketch

/-! ## Stars -/

/-- The edge a numbered triple is for its subject. -/
def edgeFrom? (n : Term) (t : Quad × Nat) : Option Edge :=
  if t.1.subject = n then t.1.predicate.iri?.map fun p => ⟨t.2, p, t.1.object⟩ else none

/-- The edges from a node among triples of which the first has a number. -/
def outgoing (start : Nat) (ts : List Quad) (n : Term) : List Edge :=
  (ts.zipIdx start).filterMap (edgeFrom? n)

/-- The edges from a node, in order. -/
def Graph.star (g : Graph) (n : Term) : List Edge :=
  outgoing 0 g.triples n

/-- Edges with properties are a choice of all edges. -/
theorem Graph.edges_eq_filter_star (g : Graph) (n : Term) (ps : List String) :
    g.edges n ps = (g.star n).filter fun e => ps.contains e.property := by
  rw [edges, star, outgoing, List.filter_filterMap]
  refine List.filterMap_congr fun t _ => ?_
  unfold edge? edgeFrom?
  by_cases hs : t.1.subject = n
  · cases hp : t.1.predicate.iri? with
    | none => simp [hs]
    | some p => simp [hs, Option.filter]
  · cases hp : t.1.predicate.iri? with
    | none => simp
    | some p => simp [hs]

/-- The edges of a node in two lists of triples. -/
theorem outgoing_append (start : Nat) (ts us : List Quad) (n : Term) :
    outgoing start (ts ++ us) n = outgoing start ts n ++ outgoing (start + ts.length) us n := by
  rw [outgoing, List.zipIdx_append, List.filterMap_append]
  rfl

/-- A node that triples do not leave has no edges in them. -/
theorem outgoing_eq_nil {start : Nat} (h : ∀ q ∈ ts, q.subject ≠ n) : outgoing start ts n = [] := by
  rw [outgoing, List.filterMap_eq_nil_iff]
  rintro ⟨q, i⟩ hq
  exact if_neg (h q (List.fst_mem_of_mem_zipIdx hq))

/-- The first triple is the first edge. -/
theorem outgoing_cons_self (start : Nat) (n : Term) (p : String) (o : Term) (ts : List Quad) :
    outgoing start (triple n p o :: ts) n = ⟨start, p, o⟩ :: outgoing (start + 1) ts n := by
  rw [outgoing, List.zipIdx_cons, List.filterMap_cons_some]
  · rfl
  · exact if_pos rfl

/-! ## Sketches in a graph -/

/-- A node that one triple at most leads to. -/
def Graph.Owned (g : Graph) (n : Term) : Prop :=
  n.isNode = true ∧ g.triples.countP (fun q => q.object == n) ≤ 1

/-- A graph shows a sketch: `es` are its edges, `ns` all numbers. -/
inductive Drawn (g : Graph) : Sketch → List Edge → List Nat → Prop where
  | done : Drawn g .done [] []
  | arrow {rest : Sketch} {es : List Edge} {ns : List Nat} (i : Nat) (p : String) (o : Term) :
      Drawn g rest es ns → Drawn g (.arrow p o rest) (⟨i, p, o⟩ :: es) (i :: ns)
  | link {inner rest : Sketch} {es : List Edge} {ms ns : List Nat} {x : Term} (i : Nat)
      (p : String) : g.Owned x → Drawn g inner (g.star x) ms → Drawn g rest es ns →
      Drawn g (.link p inner rest) (⟨i, p, x⟩ :: es) (i :: ms ++ ns)

/-- The edges of two sketches stand one after the other. -/
theorem Drawn.of_append {g : Graph} {t : Sketch} {es : List Edge} {ns : List Nat}
    (h : Drawn g (s ++ t) es ns) :
    ∃ es₁ es₂ ns₁ ns₂, es = es₁ ++ es₂ ∧ ns = ns₁ ++ ns₂ ∧ Drawn g s es₁ ns₁ ∧
      Drawn g t es₂ ns₂ := by
  induction s generalizing es ns with
  | done => exact ⟨[], es, [], ns, rfl, rfl, .done, h⟩
  | arrow p o rest ih =>
    cases h with
    | arrow i _ _ h =>
      obtain ⟨es₁, es₂, ns₁, ns₂, rfl, rfl, h₁, h₂⟩ := ih h
      exact ⟨_ :: es₁, es₂, i :: ns₁, ns₂, rfl, rfl, .arrow i p o h₁, h₂⟩
  | link p inner rest _ ih =>
    cases h with
    | @link _ _ es ms ns x i _ hx hinner h =>
      obtain ⟨es₁, es₂, ns₁, ns₂, rfl, rfl, h₁, h₂⟩ := ih h
      refine ⟨_ :: es₁, es₂, i :: ms ++ ns₁, ns₂, rfl, ?_, .link i p hx hinner h₁, h₂⟩
      simp

section Drawing

open Sketch (newNode drawInner fresh_newNode lt_next_drawInner numbers_link mem_draw
  not_fresh_of_used apart_draw)

variable {g : Graph} {used leaves links : List String}

/-- A node that triples do not lead to is counted zero times. -/
theorem countP_object_eq_zero {x : Term} (h : ∀ q ∈ ts, q.object ≠ x) :
    ts.countP (fun q => q.object == x) = 0 := by
  rw [List.countP_eq_zero]
  intro q hq
  simpa using h q hq

/-- A sketch is drawn between triples that touch no new node of it. -/
structure Placed (g : Graph) (used : List String) (n : Term) (k : Nat) (s : Sketch)
    (before after : List Quad) : Prop where
  triples : g.triples = before ++ (s.draw used n k).triples ++ after
  old : ¬ Fresh used k (s.draw used n k).next n
  apart_before : Apart used k (s.draw used n k).next before
  apart_after : Apart used k (s.draw used n k).next after

namespace Placed

variable {inner rest : Sketch} {p : String} {o : Term} {before after : List Quad}

/-- The rest of a sketch after an arrow. -/
theorem arrow (h : Placed g used n k (.arrow p o rest) before after)
    (ho : ∀ l, o = .blank l → l ∈ used) :
    Placed g used n k rest (before ++ [triple n p o]) after where
  triples := by
    rw [h.triples, Sketch.triples_arrow]
    simp
  old := h.old
  apart_before := apart_append.2 ⟨h.apart_before, apart_triple h.old (not_fresh_of_used ho)⟩
  apart_after := h.apart_after

/-- The link touches no other new node. -/
theorem apart_link (h : Placed g used n k (.link p inner rest) before after) {l m : Nat}
    (hl : freshNumber used k + 1 ≤ l) (hm : m ≤ ((Sketch.link p inner rest).draw used n k).next) :
    Apart used l m [triple n p (newNode used k)] :=
  apart_triple (fun hf => h.old (hf.mono (Nat.le_trans (numbers_link used inner rest n k).1
    (Nat.le_trans (Nat.le_succ _) hl)) hm)) fun hf => (fresh_newNode (Nat.le_refl _)).disjoint hf hl

/-- The new node of a link, with what is drawn for it. -/
theorem linked (h : Placed g used n k (.link p inner rest) before after)
    (hr : rest.Tidy used leaves links) :
    Placed g used (newNode used k) (freshNumber used k + 1) inner
      (before ++ [triple n p (newNode used k)])
      ((rest.draw used n (drawInner used inner k).next).triples ++ after) := by
  obtain ⟨hfresh, hle, hnext⟩ := numbers_link used inner rest n k
  refine ⟨?_, fun hf => (fresh_newNode (Nat.le_refl _)).disjoint hf (Nat.le_refl _),
    apart_append.2 ⟨h.apart_before.mono (by omega) hnext, h.apart_link (Nat.le_refl _) hnext⟩,
    apart_append.2 ⟨apart_draw hr (fun hf => h.old (hf.mono (by omega) hnext))
      (.inl (Nat.le_refl _)), h.apart_after.mono (by omega) hnext⟩⟩
  rw [h.triples, Sketch.triples_link]
  simp [drawInner]

/-- The other arrows of the node. -/
theorem others (h : Placed g used n k (.link p inner rest) before after)
    (hi : inner.Tidy used leaves links) :
    Placed g used n (drawInner used inner k).next rest
      (before ++ triple n p (newNode used k) :: (drawInner used inner k).triples) after := by
  obtain ⟨hfresh, hle, hnext⟩ := numbers_link used inner rest n k
  have hnode : ¬ Fresh used (drawInner used inner k).next
      (rest.draw used n (drawInner used inner k).next).next (newNode used k) :=
    fun hf => (fresh_newNode (Nat.le_refl _)).disjoint hf hle
  refine ⟨?_, fun hf => h.old (hf.mono (by omega) (Nat.le_refl _)), ?_,
    h.apart_after.mono (by omega) (Nat.le_refl _)⟩
  · rw [h.triples, Sketch.triples_link]
    simp
  · rw [← List.singleton_append, apart_append, apart_append]
    exact ⟨h.apart_before.mono (by omega) (Nat.le_refl _), h.apart_link hle (Nat.le_refl _),
      apart_draw hi hnode (.inr (Nat.le_refl _))⟩

/-- The new node of a link is led to once, and has its arrows. -/
theorem owned (h : Placed g used n k (.link p inner rest) before after)
    (hi : inner.Tidy used leaves links) (hr : rest.Tidy used leaves links) :
    g.Owned (newNode used k) ∧
      g.star (newNode used k) = outgoing (before.length + 1)
        (drawInner used inner k).triples (newNode used k) := by
  obtain ⟨-, hle, hnext⟩ := numbers_link used inner rest n k
  have hnode : Fresh used k (freshNumber used k + 1) (newNode used k) :=
    fresh_newNode (Nat.le_refl _)
  have hn : ¬ Fresh used k (freshNumber used k + 1) n :=
    fun hf => h.old (hf.mono (Nat.le_refl k) (Nat.le_trans hle hnext))
  have hbefore := h.apart_before.mono (Nat.le_refl k) (Nat.le_trans hle hnext)
  have hafter := h.apart_after.mono (Nat.le_refl k) (Nat.le_trans hle hnext)
  have hinner : ∀ q ∈ (drawInner used inner k).triples, q.object ≠ newNode used k := by
    intro q hq heq
    obtain ⟨-, -, p, -, ⟨-, h⟩ | ⟨-, h⟩⟩ := mem_draw hi hq
    · exact not_fresh_of_used (heq ▸ h) hnode
    · exact hnode.disjoint (heq ▸ h) (Nat.le_refl _)
  have hrest := apart_draw hr hn (.inl (lt_next_drawInner used inner k))
  constructor
  · refine ⟨rfl, ?_⟩
    rw [h.triples, Sketch.triples_link, List.countP_append, List.countP_append, List.countP_cons,
      List.countP_append, countP_object_eq_zero fun q hq => (hbefore q hq _ hnode).2,
      countP_object_eq_zero fun q hq => (hafter q hq _ hnode).2, countP_object_eq_zero hinner,
      countP_object_eq_zero fun q hq => (hrest q hq _ hnode).2]
    split <;> omega
  · rw [Graph.star, h.triples, Sketch.triples_link, List.append_assoc, List.cons_append,
      outgoing_append, outgoing_eq_nil fun q hq => (hbefore q hq _ hnode).1, List.nil_append,
      Nat.zero_add, ← List.singleton_append, outgoing_append, List.append_assoc, outgoing_append,
      outgoing_append, outgoing_eq_nil fun q hq => (hafter q hq _ hnode).1,
      outgoing_eq_nil fun q hq => (hrest q hq _ hnode).1, List.append_nil, List.append_nil,
      outgoing_eq_nil, List.nil_append, List.length_singleton]
    intro q hq heq
    rw [List.mem_singleton.1 hq] at heq
    have hnew : n = newNode used k := heq
    exact hn (hnew ▸ hnode)

end Placed

/-- **What is drawn is shown**, as long as nothing else touches the new nodes. -/
theorem drawn_draw (hs : s.Tidy used leaves links) {before after : List Quad}
    (h : Placed g used n k s before after) :
    Drawn g s (outgoing before.length (s.draw used n k).triples n)
      (List.range' before.length (s.draw used n k).triples.length) := by
  induction s generalizing n k before after with
  | done => exact .done
  | arrow p o rest ih =>
    rw [Sketch.triples_arrow, outgoing_cons_self, List.length_cons, List.range'_succ]
    have hrest := ih hs.2 (h.arrow hs.1.2)
    rw [List.length_append] at hrest
    exact .arrow _ _ _ hrest
  | link p inner rest ihi ihr =>
    obtain ⟨howned, hstar⟩ := h.owned hs.2.1 hs.2.2
    have hinner := ihi hs.2.1 (h.linked hs.2.2)
    have hrest := ihr hs.2.2 (h.others hs.2.1)
    -- what is drawn for the new node leaves other nodes
    have hskip : outgoing (before.length + 1) (drawInner used inner k).triples n = [] :=
      outgoing_eq_nil fun q hq => Sketch.subject_ne_of_mem_drawInner hs.2.1
        (numbers_link used inner rest n k).2.2 h.old hq
    rw [List.length_append] at hinner
    rw [List.length_append, List.length_cons, ← Nat.add_assoc, Nat.add_right_comm] at hrest
    rw [Sketch.triples_link, outgoing_cons_self, outgoing_append, hskip, List.nil_append,
      List.length_cons, List.range'_succ, List.length_append, ← List.range'_append_1]
    exact .link _ _ howned (hstar ▸ hinner) hrest

end Drawing

end RdfMapping.RuleGraph
