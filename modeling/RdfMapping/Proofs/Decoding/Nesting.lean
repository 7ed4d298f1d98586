/-
# Nesting of function values

A function value is decoded by decoding the function values inside it, so decoding comes to an end
exactly if the nesting does.  A node can stand in each of its roles for one map only, and this
leaves one way in which the nesting goes on for ever: the subject map of a triples map is a part of
a function value that is reached from one of its graph maps.
-/
import Mathlib.Data.List.Chain
import Mathlib.Data.List.Perm.Subperm
import Mathlib.Logic.Relation
import RdfMapping.Proofs.Decoding.Outcome

namespace RdfMapping.RuleGraph

open Iri (PrefixTable)
open Mapping
open Relation (ReflTransGen TransGen)
open Rdf (Term Quad)

/-! ## Function values inside function values -/

namespace Graph

variable {g : Graph} {a f f' h : Term} {d : Nat}

/-- A function value stands in a predicate-object map of another one. -/
def Nests (g : Graph) (f f' : Term) : Prop :=
  g.Takes [Property.functionValue] f ∧
    ∃ p, g.Leads f Property.predicateObjectMap p ∧ g.PairHolds p f'

/-- Function values are nested at least so deep below a node. -/
def NestedDeep (g : Graph) : Nat → Term → Prop
  | 0, _ => True
  | d + 1, f => ∃ f', g.Nests f f' ∧ g.NestedDeep d f'

/-- Some triple says that a node is a function value. -/
def HasFunction (g : Graph) (f : Term) : Prop :=
  ∃ t, g.Leads t Property.functionValue f

theorem PairHolds.hasFunction {p : Term} (hp : g.PairHolds p f) : g.HasFunction f := by
  obtain ⟨-, link, -, t, -, ht⟩ := hp
  exact ⟨t, ht.leads⟩

theorem Nests.hasFunction (hn : g.Nests f f') : g.HasFunction f' := by
  obtain ⟨-, p, -, hp⟩ := hn
  exact hp.hasFunction

/-- A function value belongs to one term map of one entry. -/
theorem PairHolds.unique {p q : Term} (hf : g.Takes [Property.functionValue] f)
    (hp : g.PairHolds p f) (hq : g.PairHolds q f) : p = q := by
  obtain ⟨-, k, hk, t, hpt, ht⟩ := hp
  obtain ⟨-, l, hl, u, hqu, hu⟩ := hq
  have hmem : ∀ link ∈ pairLinks, link ∈ Property.termMapLinks := by decide
  have htu : t = u := (hf.unique ht.leads hu.leads (by simp) (by simp)).1
  subst htu
  exact (ht.1.unique hpt hqu (hmem k hk) (hmem l hl)).1

/-- A function value stands inside one function value only. -/
theorem Nests.unique (hf : g.Takes [Property.functionValue] f) (ha : g.Nests a f)
    (hh : g.Nests h f) : a = h := by
  obtain ⟨-, p, hap, hp⟩ := ha
  obtain ⟨-, q, hhq, hq⟩ := hh
  have hpq : p = q := hp.unique hf hq
  subst hpq
  exact (hp.1.unique hap hhq (by simp) (by simp)).1

/-! ## Nesting that comes back -/

/-- A node below which nesting goes on has nesting of every depth. -/
theorem nestedDeep_of_forall_nests {S : Term → Prop}
    (hS : ∀ x, S x → ∃ y, g.Nests x y ∧ S y) : ∀ d x, S x → g.NestedDeep d x := by
  intro d
  induction d with
  | zero => exact fun _ _ => trivial
  | succ d ih =>
    intro x hx
    obtain ⟨y, hxy, hy⟩ := hS x hx
    exact ⟨y, hxy, ih y hy⟩

/-- A function value inside itself is nested to every depth. -/
theorem nestedDeep_of_cycle (hc : TransGen g.Nests f f) (d : Nat) : g.NestedDeep d f := by
  refine nestedDeep_of_forall_nests (S := fun x => TransGen g.Nests x x) ?_ d f hc
  intro x hx
  obtain ⟨y, hxy, hyx⟩ := TransGen.head'_iff.1 hx
  exact ⟨y, hxy, TransGen.tail' hyx hxy⟩

theorem exists_chain_of_nestedDeep (hf : g.HasFunction f) (hd : g.NestedDeep d f) :
    ∃ l, (f :: l).IsChain g.Nests ∧ l.length = d ∧ ∀ x ∈ f :: l, g.HasFunction x := by
  induction d generalizing f with
  | zero => exact ⟨[], List.isChain_singleton f, rfl, by simpa using hf⟩
  | succ d ih =>
    obtain ⟨f', hn, hd⟩ := hd
    obtain ⟨l, hl, hlen, hall⟩ := ih hn.hasFunction hd
    refine ⟨f' :: l, List.isChain_cons_cons.2 ⟨hn, hl⟩, by simp [hlen], ?_⟩
    rintro x (_ | ⟨_, hx⟩)
    · exact hf
    · exact hall x hx

/-- There are at most as many function values as triples that lead to one. -/
theorem length_le_functionCount {l : List Term} (hl : l.Nodup)
    (hall : ∀ x ∈ l, g.HasFunction x) : l.length ≤ g.functionCount := by
  let targets := (g.triples.filter (hasProperty [Property.functionValue])).map Quad.object
  have hsub : l ⊆ targets := by
    intro x hx
    obtain ⟨t, q, hq, -, hp, ho⟩ := hall x hx
    refine List.mem_map.2 ⟨q, List.mem_filter.2 ⟨hq, ?_⟩, ho⟩
    simp [hasProperty, hp, Term.iri?]
  calc l.length ≤ targets.length := (List.subperm_of_subset hl hsub).length_le
    _ = g.functionCount := by
      rw [List.length_map, functionCount, List.countP_eq_length_filter]

/-- **Nesting deeper than there are functions has one inside itself.** -/
theorem exists_cycle_of_nestedDeep (hf : g.HasFunction f)
    (hd : g.NestedDeep g.functionCount f) :
    ∃ x, ReflTransGen g.Nests f x ∧ TransGen g.Nests x x := by
  obtain ⟨l, hchain, hlen, hall⟩ := exists_chain_of_nestedDeep hf hd
  have hpair : (f :: l).Pairwise (TransGen g.Nests) :=
    (hchain.imp fun _ _ => TransGen.single).pairwise
  by_contra hno
  push Not at hno
  -- without a node that comes back the chain would hold too many function values
  have hreach : ∀ x ∈ f :: l, ReflTransGen g.Nests f x := by
    rintro x (_ | ⟨_, hx⟩)
    · exact .refl
    · exact ((List.pairwise_cons.1 hpair).1 x hx).to_reflTransGen
  have hnodup : (f :: l).Nodup := by
    refine List.Pairwise.imp_of_mem ?_ hpair
    rintro x y hx - hxy rfl
    exact hno x (hreach x hx) hxy
  have hle := length_le_functionCount hnodup hall
  rw [List.length_cons, hlen] at hle
  omega

/-- A function value that leads to one inside itself is inside itself. -/
theorem cycle_of_reaches {x : Term} (hfx : ReflTransGen g.Nests f x)
    (hx : TransGen g.Nests x x) : TransGen g.Nests f f := by
  induction hfx with
  | refl => exact hx
  | tail _ hyx ih =>
    obtain ⟨w, hxw, hwx⟩ := TransGen.tail'_iff.1 hx
    obtain ⟨v, hxv, -⟩ := TransGen.head'_iff.1 hx
    cases hyx.unique hxv.1 hwx
    exact ih (TransGen.head' hyx hxw)

/-- Below a function value, deep nesting comes back to it. -/
theorem cycle_of_nestedDeep (hf : g.HasFunction f) (hd : g.NestedDeep g.functionCount f) :
    TransGen g.Nests f f := by
  obtain ⟨x, hfx, hx⟩ := exists_cycle_of_nestedDeep hf hd
  exact cycle_of_reaches hfx hx

end Graph

/-! ## Where decoding is endless -/

section Endless

variable {c : Context} {n : Term} {path : String}

/-- A source never makes decoding endless. -/
theorem endless_not_mem_decodeSource : Finding.endless ∉ (decodeSource c n).notes := by
  unfold decodeSource
  split
  · simp
  · exact (Plain.bind (Plain.note _) (Plain.pure _)).not_mem rfl

/-- A function value is endless if the nesting is as deep. -/
theorem endless_mem_functionWithin {d : Nat} :
    ∀ n path, Finding.endless ∈ (functionWithin c d n path).run.notes ↔
      c.graph.NestedDeep d n := by
  induction d with
  | zero =>
    intro n path
    exact ⟨fun _ => trivial, fun _ => List.mem_singleton.2 rfl⟩
  | succ d ih =>
    intro n path
    rw [functionWithin, mem_notes_decodeFunction rfl ih, Graph.NestedDeep]
    constructor
    · rintro ⟨ht, ⟨s, -, hs⟩ | ⟨p, hp, o, ho, hd⟩⟩
      · exact absurd hs endless_not_mem_decodeSource
      · exact ⟨o, ⟨ht, p, hp, ho⟩, hd⟩
    · rintro ⟨o, ⟨ht, p, hp, ho⟩, hd⟩
      exact ⟨ht, .inr ⟨p, hp, o, ho, hd⟩⟩

end Endless

/-! ## Allowing more depth -/

/-- The answer of one decoding is that of another, unless the first is endless. -/
def Approximates {α : Type} (x y : Decoding α) : Prop :=
  Finding.endless ∈ x.notes ∨ x = y

namespace Approximates

variable {α β : Type} {c : Context} {n : Term} {path : String}

theorem refl (x : Decoding α) : Approximates x x :=
  .inr rfl

theorem bind {x y : Decoding α} {k l : α → Decoding β} (hx : Approximates x y)
    (hk : ∀ a, Approximates (k a) (l a)) : Approximates (x >>= k) (y >>= l) := by
  rcases hx with hx | rfl
  · exact .inl (List.mem_append_left _ hx)
  · rcases hk x.value with h | h
    · exact .inl (List.mem_append_right _ h)
    · refine .inr ?_
      change (⟨(k x.value).value, x.notes ++ (k x.value).notes⟩ : Decoding β) = _
      rw [h]
      rfl

theorem andThen {x y : Trial α} {k l : α → Trial β} (hx : Approximates x.run y.run)
    (hk : ∀ a, Approximates (k a).run (l a).run) :
    Approximates (x >>= k).run (y >>= l).run := by
  rw [Attempt.run_bind, Attempt.run_bind]
  refine bind hx fun a => ?_
  cases a with
  | none => exact refl _
  | some a => exact hk a

theorem lift {x y : Decoding α} (hx : Approximates x y) :
    Approximates (liftM x : Trial α).run (liftM y : Trial α).run := by
  rw [Attempt.run_lift, Attempt.run_lift]
  exact bind hx fun _ => refl _

theorem those {ι : Type} {xs : List ι} {f h : Nat → ι → Trial α}
    (hx : ∀ i a, Approximates (f i a).run (h i a).run) :
    Approximates (Logged.those (xs.mapIdx f)) (Logged.those (xs.mapIdx h)) := by
  induction xs generalizing f h with
  | nil => exact refl _
  | cons x rest ih =>
    rw [List.mapIdx_cons, List.mapIdx_cons]
    exact bind (hx 0 x) fun a => bind (ih fun i => hx (i + 1)) fun as => refl _

theorem each {ι : Type} {xs : List ι} {f h : ι → Decoding α}
    (hx : ∀ a, Approximates (f a) (h a)) :
    Approximates (Logged.each (xs.map f)) (Logged.each (xs.map h)) := by
  induction xs with
  | nil => exact refl _
  | cons x rest ih => exact bind (hx x) fun a => bind ih fun as => refl _

section Parts

variable {functionAt laterAt : Term → String → Trial Value}
  (h : ∀ n path, Approximates (functionAt n path).run (laterAt n path).run)

include h

theorem decodeTermMap (position : Position) :
    Approximates (decodeTermMap c functionAt position n path).run
      (decodeTermMap c laterAt position n path).run := by
  unfold RuleGraph.decodeTermMap
  refine andThen (refl _) fun _ => andThen (refl _) fun _ => ?_
  split
  · refine andThen (refl _) fun _ => andThen ?_ fun _ => refl _
    unfold decodeValue
    repeat' split
    any_goals exact refl _
    exact h _ _
  · exact refl _

theorem decodeLinked (position : Position) (link shortcut : String) :
    Approximates (decodeLinked c functionAt position n path link shortcut)
      (decodeLinked c laterAt position n path link shortcut) := by
  refine bind (refl _) fun es => those fun i e => ?_
  split
  · exact refl _
  · exact decodeTermMap h position

theorem decodePair :
    Approximates (decodePair c functionAt n path).run (decodePair c laterAt n path).run := by
  refine andThen (refl _) fun _ => andThen (refl _) fun _ => ?_
  refine andThen (lift (decodeLinked h _ _ _)) fun _ => ?_
  refine andThen (lift (decodeLinked h _ _ _)) fun _ => ?_
  exact andThen (lift (decodeLinked h _ _ _)) fun _ => refl _

theorem decodeEntries (es : List Edge) :
    ∀ i name, Approximates (decodeEntries c functionAt path i name es).run
      (decodeEntries c laterAt path i name es).run := by
  induction es with
  | nil => exact fun _ _ => refl _
  | cons e rest ih =>
    intro i name
    refine bind (andThen (decodePair h) fun _ => refl _) fun entry => ?_
    exact bind (ih (i + 1) _) fun _ => refl _

theorem decodeFunction :
    Approximates (decodeFunction c functionAt n path).run
      (decodeFunction c laterAt n path).run := by
  refine andThen (refl _) fun _ => andThen (refl _) fun _ => andThen (refl _) fun _ => ?_
  refine andThen (refl _) fun _ => andThen (refl _) fun es => ?_
  exact andThen (decodeEntries h es 0 "") fun _ => refl _

theorem decodeSubject (e : Edge) :
    Approximates (decodeSubject c functionAt e).run (decodeSubject c laterAt e).run := by
  unfold RuleGraph.decodeSubject
  split
  · exact refl _
  · split
    · exact refl _
    · refine andThen (decodeTermMap h _) fun _ => andThen (refl _) fun _ => ?_
      exact andThen (lift (decodeLinked h _ _ _)) fun _ => refl _

theorem decodeTriplesMap :
    Approximates (decodeTriplesMap c functionAt n) (decodeTriplesMap c laterAt n) := by
  refine bind (refl _) fun _ => bind (refl _) fun _ => bind ?_ fun _ => bind ?_ fun _ => refl _
  · refine bind (refl _) fun es => ?_
    rcases es with _ | ⟨e, _ | ⟨e₂, rest⟩⟩
    · exact refl _
    · exact decodeSubject h e
    · exact refl _
  · exact bind (refl _) fun es => those fun i e => decodePair h

end Parts

/-- A function value that is not endless is the same with one more level allowed. -/
theorem functionWithin_succ (d : Nat) :
    ∀ n path, Approximates (functionWithin c d n path).run
      (functionWithin c (d + 1) n path).run := by
  induction d with
  | zero => exact fun n path => .inl (List.mem_singleton.2 rfl)
  | succ d ih => exact fun n path => decodeFunction ih

theorem functionWithin {d e : Nat} (hde : d ≤ e) (n : Term) (path : String) :
    Approximates (functionWithin c d n path).run (functionWithin c e n path).run := by
  induction hde with
  | refl => exact refl _
  | step _ ih =>
    rcases ih with ih | ih
    · exact .inl ih
    · rw [ih]
      exact functionWithin_succ _ n path

theorem decodeMaps {d e : Nat} (hde : d ≤ e) (g : Graph) (ids : List (Term × String)) :
    Approximates (decodeMaps d g ids) (decodeMaps e g ids) :=
  each fun _ => decodeTriplesMap fun _ _ => functionWithin hde _ _

end Approximates

/-! ## The one way round -/

namespace Graph

variable {g : Graph} {a o p s t : Term}

/-- The subject map is a part of a function value of a graph map. -/
structure Circles (g : Graph) (a s : Term) : Prop where
  subject : ∃ e, g.edges a [Property.subjectMap, Property.subject] = [e] ∧
    e.property = Property.subjectMap ∧ e.object = s
  pair : g.Takes [Property.predicateObjectMap] s
  back : ∃ t f f', g.Leads s Property.graphMap t ∧ g.FunctionOf t f ∧
    ReflTransGen g.Nests f f' ∧ g.Takes [Property.functionValue] f' ∧
    g.Leads f' Property.predicateObjectMap s

theorem HasFunction.of_reaches (ho : g.HasFunction o) (h : ReflTransGen g.Nests o p) :
    g.HasFunction p := by
  cases h with
  | refl => exact ho
  | tail _ h => exact h.hasFunction

theorem not_hasFunction_of_mem_anchors (h : a ∈ g.anchors) : ¬ g.HasFunction a := by
  rintro ⟨t, q, hq, -, hp, ho⟩
  rw [anchors, List.mem_mergeSort, sourced, List.mem_filter] at h
  have hno := h.2
  rw [Bool.not_eq_true', isFunctionValue, List.any_eq_false] at hno
  exact hno q hq (by simp [hp, ho])

/-- The way back to a function value enters it through the term map it belongs to. -/
theorem exists_entry_of_cycle (ht : g.FunctionOf t o) (hc : TransGen g.Nests o o) :
    ∃ f q link, ReflTransGen g.Nests o f ∧ g.Takes [Property.functionValue] f ∧
      g.Leads f Property.predicateObjectMap q ∧ g.Takes [Property.predicateObjectMap] q ∧
      link ∈ pairLinks ∧ g.Leads q link t := by
  obtain ⟨f, hof, hfo⟩ := TransGen.tail'_iff.1 hc
  obtain ⟨_, ho, -⟩ := TransGen.head'_iff.1 hc
  obtain ⟨hf, q, hfq, hq, link, hlink, u, hu, huo⟩ := hfo
  have hut : u = t := (ho.1.unique huo.leads ht.leads (by simp) (by simp)).1
  subst hut
  exact ⟨f, q, link, hof, hf, hfq, hq, hlink, hu⟩

theorem mem_termMapLinks_of_mem_pairLinks {link : String} (h : link ∈ pairLinks) :
    link ∈ Property.termMapLinks :=
  List.mem_cons_of_mem _ h

/-- The function value of a subject map is not inside itself. -/
theorem not_cycle_of_subjectMap (hs : g.Leads a Property.subjectMap s)
    (ho : g.FunctionOf s o) : ¬ TransGen g.Nests o o := by
  intro hc
  obtain ⟨f, q, link, -, -, -, -, hlink, hq⟩ := exists_entry_of_cycle ho hc
  have heq := (ho.1.unique hs hq (by decide) (mem_termMapLinks_of_mem_pairLinks hlink)).2
  rw [← heq] at hlink
  exact absurd hlink (by decide)

/-- A function value of a triples map is not inside itself. -/
theorem not_cycle_of_pair (ha : ¬ g.HasFunction a)
    (hp : g.Leads a Property.predicateObjectMap p) (ho : g.PairHolds p o) :
    ¬ TransGen g.Nests o o := by
  intro hc
  obtain ⟨hpt, k, hk, t, hkt, hto⟩ := ho
  obtain ⟨f, q, link, hof, -, hfq, -, hlink, hq⟩ := exists_entry_of_cycle hto hc
  have hpq : p = q := (hto.1.unique hkt hq (mem_termMapLinks_of_mem_pairLinks hk)
    (mem_termMapLinks_of_mem_pairLinks hlink)).1
  subst hpq
  have haf : a = f := (hpt.unique hp hfq (by simp) (by simp)).1
  subst haf
  exact ha (HasFunction.of_reaches ⟨t, hto.leads⟩ hof)

/-- A function value inside itself leads back to the subject map. -/
theorem circles_of_cycle {e : Edge}
    (he : g.edges a [Property.subjectMap, Property.subject] = [e])
    (hp : e.property = Property.subjectMap) (ht : g.Leads e.object Property.graphMap t)
    (ho : g.FunctionOf t o) (hc : TransGen g.Nests o o) : g.Circles a e.object := by
  obtain ⟨f, q, link, hof, hf, hfq, hq, hlink, hqt⟩ := exists_entry_of_cycle ho hc
  have heq : e.object = q := (ho.1.unique ht hqt (by decide)
    (mem_termMapLinks_of_mem_pairLinks hlink)).1
  exact ⟨⟨e, he, hp, rfl⟩, heq ▸ hq, t, o, f, ht, ho, hof, hf, heq ▸ hfq⟩

/-- Round the circle, a function value of a graph map is inside itself. -/
theorem Circles.cycle (h : g.Circles a s) :
    ∃ t f, g.Leads s Property.graphMap t ∧ g.FunctionOf t f ∧ TransGen g.Nests f f := by
  obtain ⟨-, hs, t, f, f', ht, hf, hff', hf', hback⟩ := h
  have hpair : g.PairHolds s f := ⟨hs, Property.graphMap, by simp [pairLinks], t, ht, hf⟩
  exact ⟨t, f, ht, hf, TransGen.tail' hff' ⟨hf', s, hback, hpair⟩⟩

theorem referrers_mono {ps qs : List String} (h : ps ⊆ qs) :
    g.referrers o ps ≤ g.referrers o qs := by
  refine List.countP_mono_left fun q _ hq => ?_
  unfold hasProperty at hq ⊢
  split at hq
  · next p hp =>
    simp only [Bool.and_eq_true, List.contains_iff_mem] at hq ⊢
    exact ⟨hq.1, h hq.2⟩
  · simp at hq

end Graph

section Circles

variable {c : Context} {a : Term}

/-- A triples map that is endless with all depth there can be goes round a circle. -/
theorem circles_of_endless (ha : ¬ c.graph.HasFunction a)
    (h : Finding.endless ∈
      (decodeTriplesMap c (functionWithin c c.graph.functionCount) a).notes) :
    ∃ s tm, c.graph.Circles a s ∧ (decodeTermMap c (functionWithin c c.graph.functionCount)
      .subject s "subject").run.value = some tm := by
  rw [mem_notes_decodeTriplesMap rfl endless_mem_functionWithin] at h
  rcases h with ⟨e, -, he⟩ | ⟨e, he, hs⟩ | ⟨p, hp, o, ho, hd⟩
  · exact absurd he endless_not_mem_decodeSource
  · rw [mem_notes_decodeSubject rfl endless_mem_functionWithin] at hs
    have hmem : e ∈ c.graph.edges a [Property.subjectMap, Property.subject] := by simp [he]
    obtain ⟨hl, hps⟩ := Graph.leads_of_mem_edges hmem
    have hprop : e.property = Property.subjectMap := by
      simpa [hs.1] using hps
    rcases hs with ⟨-, -, ⟨o, ho, hd⟩ | ⟨⟨tm, htm⟩, t, o, ht, ho, hd⟩⟩
    · -- the subject map itself is no part of a predicate-object map
      have hc := Graph.cycle_of_nestedDeep ⟨_, ho.leads⟩ hd
      exact absurd hc (Graph.not_cycle_of_subjectMap (hprop ▸ hl) ho)
    · have hc := Graph.cycle_of_nestedDeep ⟨_, ho.leads⟩ hd
      exact ⟨e.object, tm, Graph.circles_of_cycle he hprop ht ho hc, htm⟩
  · have hc := Graph.cycle_of_nestedDeep ho.hasFunction hd
    exact absurd hc (Graph.not_cycle_of_pair ha hp ho)

/-- The subject map of a triples map reads the same with more depth allowed. -/
theorem value_decodeTermMap_of_le {s : Term} {d : Nat} (hs : c.graph.Leads a Property.subjectMap s)
    (hd : c.graph.functionCount ≤ d) :
    decodeTermMap c (functionWithin c c.graph.functionCount) .subject s "subject" =
      decodeTermMap c (functionWithin c d) .subject s "subject" := by
  rcases Approximates.decodeTermMap (c := c) (n := s) (Approximates.functionWithin hd)
    .subject with h | h
  · obtain ⟨o, ho, hdeep⟩ := (mem_notes_decodeTermMap rfl endless_mem_functionWithin).1 h
    have hc := Graph.cycle_of_nestedDeep ⟨_, ho.leads⟩ hdeep
    exact absurd hc (Graph.not_cycle_of_subjectMap hs ho)
  · exact h

/-- A triples map that goes round a circle is endless, whatever depth is allowed. -/
theorem endless_of_circles {s : Term} {tm : TermMap} (h : c.graph.Circles a s)
    (htm : (decodeTermMap c (functionWithin c c.graph.functionCount)
      .subject s "subject").run.value = some tm) (d : Nat) :
    Finding.endless ∈ (decodeTriplesMap c (functionWithin c d) a).notes := by
  rw [mem_notes_decodeTriplesMap rfl endless_mem_functionWithin]
  obtain ⟨t, f, ht, hf, hc⟩ := h.cycle
  obtain ⟨⟨e, he, hp, rfl⟩, -, -⟩ := h
  have hmem : e ∈ c.graph.edges a [Property.subjectMap, Property.subject] := by simp [he]
  have hl : c.graph.Leads a Property.subjectMap e.object :=
    hp ▸ (Graph.leads_of_mem_edges hmem).1
  refine .inr (.inl ⟨e, he, (mem_notes_decodeSubject rfl endless_mem_functionWithin).2 ?_⟩)
  refine ⟨by rw [hp]; decide, ?_, ?_⟩
  · -- the subject map was read, so it belongs to one map only
    rw [decodeTermMap, Attempt.value_bind, Option.bind_eq_some_iff] at htm
    obtain ⟨_, htakes, -⟩ := htm
    have hle := (value_takeNode.1 htakes).2
    exact Nat.le_trans (Graph.referrers_mono (by decide)) hle
  by_cases hdeep : ∃ o, c.graph.FunctionOf e.object o ∧ c.graph.NestedDeep d o
  · exact .inl hdeep
  refine .inr ⟨⟨tm, ?_⟩, t, f, ht, hf, Graph.nestedDeep_of_cycle hc d⟩
  rcases Nat.le_total c.graph.functionCount d with hd | hd
  · rw [← value_decodeTermMap_of_le hl hd, htm]
  · rcases Approximates.decodeTermMap (c := c) (n := e.object) (Approximates.functionWithin hd)
      .subject with happ | happ
    · exact absurd ((mem_notes_decodeTermMap rfl endless_mem_functionWithin).1 happ) hdeep
    · rw [happ, htm]

end Circles

/-! ## Endless graphs -/

theorem any_isEndless {notes : List Finding} :
    notes.any Finding.isEndless = true ↔ Finding.endless ∈ notes := by
  rw [List.any_eq_true]
  constructor
  · rintro ⟨f, hf, he⟩
    cases f with
    | endless => exact hf
    | flaw d | source node flaws | used number => simp [Finding.isEndless] at he
  · exact fun h => ⟨_, h, rfl⟩

theorem conclude_eq_endless_iff {g : Graph} {notes : List Finding} {doc : Document} :
    conclude g notes doc = .error .endless ↔ Finding.endless ∈ notes := by
  rw [← any_isEndless, conclude]
  split
  · next h => simp [h]
  · next h =>
    refine iff_of_false ?_ h
    repeat' split
    all_goals simp

theorem endless_mem_decodeMaps {depth : Nat} {g : Graph} {ids : List (Term × String)} :
    Finding.endless ∈ (decodeMaps depth g ids).notes ↔
      ∃ a id, (a, id) ∈ ids ∧ Finding.endless ∈
        (decodeTriplesMap ⟨g, ids, id⟩ (functionWithin ⟨g, ids, id⟩ depth) a).notes := by
  rw [decodeMaps, Logged.notes_each, List.mem_flatMap]
  constructor
  · rintro ⟨x, hx, hn⟩
    obtain ⟨⟨a, id⟩, hmem, rfl⟩ := List.mem_map.1 hx
    exact ⟨a, id, hmem, hn⟩
  · rintro ⟨a, id, hmem, hn⟩
    exact ⟨_, List.mem_map.2 ⟨(a, id), hmem, rfl⟩, hn⟩

/-- **Decoding is endless exactly if a triples map goes round a circle**: its subject map, which
can be read, is a predicate-object map of a function value that one of its graph maps leads to.
No depth is then enough, and otherwise more depth than there are function values changes
nothing. -/
theorem decode_eq_endless_iff (base : String) (prefixes : Option PrefixTable)
    (qs : List Quad) :
    let g := Graph.ofQuads qs
    let ids := g.anchors.zip (assignIds (chooseBase base g.anchors) g.anchors)
    (decode base prefixes qs = .error .endless ↔
      ∃ a id s tm, (a, id) ∈ ids ∧ g.Circles a s ∧
        (decodeTermMap ⟨g, ids, id⟩ (functionWithin ⟨g, ids, id⟩ g.functionCount)
          .subject s "subject").run.value = some tm) ∧
    (decode base prefixes qs = .error .endless →
      ∀ depth, decodeWithin depth base prefixes qs = .error .endless) ∧
    ∀ depth, g.functionCount ≤ depth →
      decodeWithin depth base prefixes qs = decode base prefixes qs := by
  intro g ids
  have hiff : decode base prefixes qs = .error .endless ↔
      ∃ a id s tm, (a, id) ∈ ids ∧ g.Circles a s ∧
        (decodeTermMap ⟨g, ids, id⟩ (functionWithin ⟨g, ids, id⟩ g.functionCount)
          .subject s "subject").run.value = some tm := by
    rw [decode, decodeWithin_eq, conclude_eq_endless_iff, endless_mem_decodeMaps]
    constructor
    · rintro ⟨a, id, hmem, hn⟩
      have ha := Graph.not_hasFunction_of_mem_anchors (List.of_mem_zip hmem).1
      obtain ⟨s, tm, hs, htm⟩ := circles_of_endless ha hn
      exact ⟨a, id, s, tm, hmem, hs, htm⟩
    · rintro ⟨a, id, s, tm, hmem, hs, htm⟩
      exact ⟨a, id, hmem, endless_of_circles hs htm _⟩
  have hall : decode base prefixes qs = .error .endless →
      ∀ depth, decodeWithin depth base prefixes qs = .error .endless := by
    intro h depth
    obtain ⟨a, id, s, tm, hmem, hs, htm⟩ := hiff.1 h
    rw [decodeWithin_eq, conclude_eq_endless_iff, endless_mem_decodeMaps]
    exact ⟨a, id, hmem, endless_of_circles hs htm depth⟩
  refine ⟨hiff, hall, fun depth hd => ?_⟩
  rcases Approximates.decodeMaps hd g ids with h | h
  · have hend : decode base prefixes qs = .error .endless := by
      rw [decode, decodeWithin_eq]
      exact conclude_eq_endless_iff.2 h
    rw [hend, hall hend depth]
  · rw [decode, decodeWithin_eq, decodeWithin_eq]
    change conclude g (decodeMaps depth g ids).notes
        (assemble _ prefixes g (decodeMaps depth g ids).value) =
      conclude g (decodeMaps g.functionCount g ids).notes
        (assemble _ prefixes g (decodeMaps g.functionCount g ids).value)
    rw [h]

/-- A triples map with its subject map in its own graph map. -/
def circle : List Quad :=
  let triple (s : Term) (p : String) (o : Term) : Quad :=
    { subject := s, predicate := .iri p, object := o }
  [triple (.iri "http://ex.org/a") Property.logicalSource (.blank "source"),
    triple (.iri "http://ex.org/a") Property.subjectMap (.blank "s"),
    triple (.blank "s") Property.constant (.iri "http://ex.org/x"),
    triple (.blank "s") Property.graphMap (.blank "t"),
    triple (.blank "t") Property.functionValue (.blank "f"),
    triple (.blank "f") Property.predicateObjectMap (.blank "s")]

/-- Decoding does not come to an end on every list of quads. -/
theorem decode_circle : decode "" none circle = .error .endless := by
  rw [decode, decodeWithin_eq]
  refine conclude_eq_endless_iff.2 (any_isEndless.1 ?_)
  decide +kernel

end RdfMapping.RuleGraph
