/-
# Notes taken while decoding

What the parts of the decoder note down.  Most findings are plain: a flaw at a place, or a triple
that is used.  The flaws of a source and the sign that decoding is endless come from few places.
-/
import RdfMapping.RuleGraph.Decoding

namespace RdfMapping.RuleGraph

open Mapping
open Rdf (Term Quad)

/-! ## Triples of a graph -/

namespace Graph

variable {g : Graph} {a b n o t : Term} {p q : String} {ps links : List String}

/-- A triple of the graph leads from one node to another. -/
def Leads (g : Graph) (n : Term) (p : String) (o : Term) : Prop :=
  ∃ t ∈ g.triples, t.subject = n ∧ t.predicate = .iri p ∧ t.object = o

/-- At most one triple with the links of a role leads to the node. -/
def Takes (g : Graph) (links : List String) (n : Term) : Prop :=
  n.isNode = true ∧ g.referrers n links ≤ 1

/-- What it means for a triple to be an edge. -/
theorem edge?_eq_some {s : Term} {t : Quad × Nat} {e : Edge} :
    edge? s ps t = some e ↔
      t.1.subject = s ∧ t.1.predicate = .iri e.property ∧ t.1.object = e.object ∧
        t.2 = e.number ∧ e.property ∈ ps := by
  obtain ⟨⟨qs, qp, qo, qg⟩, i⟩ := t
  obtain ⟨number, property, object⟩ := e
  cases qp with
  | iri value =>
    by_cases hs : qs = s <;> by_cases hp : value ∈ ps <;>
      simp [edge?, Term.iri?, hs, hp] <;> grind
  | blank label => simp [edge?, Term.iri?]
  | literal text tag => simp [edge?, Term.iri?]
  | other text => simp [edge?, Term.iri?]
  | missing => simp [edge?, Term.iri?]

/-- An edge is a numbered triple that leaves the node with one of the properties. -/
theorem mem_edges {e : Edge} :
    e ∈ g.edges n ps ↔
      ∃ t, g.triples[e.number]? = some t ∧ t.subject = n ∧ t.predicate = .iri e.property ∧
        t.object = e.object ∧ e.property ∈ ps := by
  rw [edges, List.mem_filterMap]
  constructor
  · rintro ⟨⟨t, i⟩, hmem, he⟩
    obtain ⟨hs, hp, ho, hi, hps⟩ := edge?_eq_some.1 he
    rw [List.mem_zipIdx_iff_getElem?] at hmem
    exact ⟨t, hi ▸ hmem, hs, hp, ho, hps⟩
  · rintro ⟨t, ht, hs, hp, ho, hps⟩
    exact ⟨(t, e.number), List.mem_zipIdx_iff_getElem?.2 ht,
      edge?_eq_some.2 ⟨hs, hp, ho, rfl, hps⟩⟩

/-- An edge is a triple of the graph. -/
theorem leads_of_mem_edges {e : Edge} (h : e ∈ g.edges n ps) :
    g.Leads n e.property e.object ∧ e.property ∈ ps := by
  obtain ⟨t, ht, hs, hp, ho, hps⟩ := mem_edges.1 h
  exact ⟨⟨t, List.mem_of_getElem? ht, hs, hp, ho⟩, hps⟩

/-- A triple of the graph is an edge. -/
theorem exists_mem_edges (h : g.Leads n p o) (hp : p ∈ ps) :
    ∃ e ∈ g.edges n ps, e.property = p ∧ e.object = o := by
  obtain ⟨t, ht, hs, hpred, ho⟩ := h
  obtain ⟨i, hi⟩ := List.mem_iff_getElem?.1 ht
  exact ⟨⟨i, p, o⟩, mem_edges.2 ⟨t, hi, hs, hpred, ho, hp⟩, rfl, rfl⟩

theorem exists_edge_iff {P : Term → Prop} :
    (∃ e ∈ g.edges n [p], P e.object) ↔ ∃ o, g.Leads n p o ∧ P o := by
  constructor
  · rintro ⟨e, he, hP⟩
    obtain ⟨hl, hp⟩ := leads_of_mem_edges he
    rw [List.mem_singleton.1 hp] at hl
    exact ⟨e.object, hl, hP⟩
  · rintro ⟨o, hl, hP⟩
    obtain ⟨e, he, -, rfl⟩ := exists_mem_edges hl (List.mem_singleton.2 rfl)
    exact ⟨e, he, hP⟩

theorem eq_of_countP_le_one {α : Type} {P : α → Bool} {l : List α} (h : l.countP P ≤ 1)
    {x y : α} (hx : x ∈ l) (hy : y ∈ l) (px : P x = true) (py : P y = true) : x = y := by
  rw [List.countP_eq_length_filter] at h
  have hx' : x ∈ l.filter P := List.mem_filter.2 ⟨hx, px⟩
  have hy' : y ∈ l.filter P := List.mem_filter.2 ⟨hy, py⟩
  rcases hl : l.filter P with _ | ⟨z, _ | ⟨w, rest⟩⟩
  · simp [hl] at hx'
  · rw [hl, List.mem_singleton] at hx' hy'
    rw [hx', hy']
  · simp [hl] at h

/-- Only one triple leads to a node that one map at most has. -/
theorem Takes.unique (h : g.Takes links n) (ha : g.Leads a p n) (hb : g.Leads b q n)
    (hp : p ∈ links) (hq : q ∈ links) : a = b ∧ p = q := by
  obtain ⟨t, ht, hts, htp, hto⟩ := ha
  obtain ⟨u, hu, hus, hup, huo⟩ := hb
  have htu : t = u := by
    refine eq_of_countP_le_one h.2 ht hu ?_ ?_
    · simp [hasProperty, htp, hto, Term.iri?, hp]
    · simp [hasProperty, hup, huo, Term.iri?, hq]
  subst htu
  refine ⟨hts.symm.trans hus, ?_⟩
  rw [htp] at hup
  exact Term.iri.inj hup

/-- The term map at a node has a function value as its one value. -/
def FunctionOf (g : Graph) (t o : Term) : Prop :=
  g.Takes Property.termMapLinks t ∧
    ∃ e, g.edges t Property.values = [e] ∧ e.property = Property.functionValue ∧ e.object = o

/-- A function value is the object of a triple that says so. -/
theorem FunctionOf.leads (h : g.FunctionOf t o) : g.Leads t Property.functionValue o := by
  obtain ⟨-, e, he, hp, rfl⟩ := h
  have hmem : e ∈ g.edges t Property.values := by rw [he]; exact List.mem_singleton.2 rfl
  exact hp ▸ (leads_of_mem_edges hmem).1

/-- The links from a predicate-object map to its term maps. -/
def pairLinks : List String :=
  [Property.predicateMap, Property.objectMap, Property.graphMap]

/-- A term map of the predicate-object map has a function value. -/
def PairHolds (g : Graph) (n o : Term) : Prop :=
  g.Takes [Property.predicateObjectMap] n ∧
    ∃ link ∈ pairLinks, ∃ t, g.Leads n link t ∧ g.FunctionOf t o

end Graph

/-! ## Clean notes and used triples -/

/-- Whether a finding says that nothing is wrong. -/
def Finding.isClean : Finding → Bool
  | .used _ => true
  | .source _ flaws => flaws.isEmpty
  | .flaw _ | .endless => false

/-- Nothing is wrong. -/
def Clean (notes : List Finding) : Prop :=
  ∀ f ∈ notes, f.isClean = true

/-- A triple of the graph is marked as used. -/
def Uses (g : Graph) (notes : List Finding) (q : Quad) : Prop :=
  ∃ i, Finding.used i ∈ notes ∧ g.triples[i]? = some q

theorem clean_append {l l' : List Finding} : Clean (l ++ l') ↔ Clean l ∧ Clean l' := by
  unfold Clean
  simp only [List.mem_append, or_imp, forall_and]

theorem uses_append {g : Graph} {l l' : List Finding} {q : Quad} :
    Uses g (l ++ l') q ↔ Uses g l q ∨ Uses g l' q := by
  unfold Uses
  simp only [List.mem_append, or_and_right, exists_or]

theorem clean_nil : Clean [] :=
  fun _ h => absurd h List.not_mem_nil

theorem not_uses_nil {g : Graph} {q : Quad} : ¬ Uses g [] q :=
  fun ⟨_, h, _⟩ => absurd h List.not_mem_nil

/-! ## Plain findings -/

/-- Whether a finding is a flaw at a place or a triple that is used. -/
def Finding.isPlain : Finding → Bool
  | .flaw _ | .used _ => true
  | .source _ _ | .endless => false

/-- Nothing but plain findings is noted. -/
def Plain {α : Type} (x : Decoding α) : Prop :=
  ∀ f ∈ x.notes, f.isPlain = true

namespace Plain

variable {α β : Type} {c : Context} {n : Term} {path : String}

theorem not_mem {x : Decoding α} {f : Finding} (h : Plain x) (hf : f.isPlain = false) :
    f ∉ x.notes := by
  intro hmem
  rw [h f hmem] at hf
  cases hf

theorem pure (a : α) : Plain (Pure.pure a : Decoding α) :=
  fun _ h => absurd h List.not_mem_nil

theorem bind {x : Decoding α} {k : α → Decoding β} (hx : Plain x)
    (hk : Plain (k x.value)) : Plain (x >>= k) := by
  intro f hf
  rw [Logged.notes_bind, List.mem_append] at hf
  exact hf.elim (hx f) (hk f)

theorem ofTrial (a : α) : Plain (Pure.pure a : Trial α).run :=
  fun _ h => absurd h List.not_mem_nil

theorem lift {x : Decoding α} (hx : Plain x) : Plain (liftM x : Trial α).run := by
  intro f hf
  rw [Attempt.notes_lift] at hf
  exact hx f hf

theorem andThen {x : Trial α} {k : α → Trial β} (hx : Plain x.run)
    (hk : ∀ a, Plain (k a).run) : Plain (x >>= k).run := by
  intro f hf
  rcases Attempt.mem_notes_bind.1 hf with hf | ⟨a, -, hf⟩
  · exact hx f hf
  · exact hk a f hf

theorem all {xs : List (Trial α)} (h : ∀ x ∈ xs, Plain x.run) : Plain (Attempt.all xs).run := by
  intro f hf
  rw [Attempt.notes_all, List.mem_flatMap] at hf
  obtain ⟨x, hx, hf⟩ := hf
  exact h x hx f hf

theorem refuse (flaw : Flaw) : Plain (c.refuse flaw path : Trial α).run := by
  intro f hf
  rw [Context.refuse, Attempt.notes_fail, List.mem_singleton] at hf
  rw [hf]
  rfl

theorem note (flaw : Flaw) : Plain (c.note flaw path) := by
  intro f hf
  rw [Context.note, Logged.tell, List.mem_singleton] at hf
  rw [hf]
  rfl

theorem use (es : List Edge) : Plain (Context.use es) := by
  intro f hf
  rw [Context.use, Logged.tell, List.mem_map] at hf
  obtain ⟨e, -, rfl⟩ := hf
  rfl

theorem take (ps : List String) : Plain (c.take n ps) :=
  bind (use _) (pure _)

theorem takeTypes (classes : List String) : Plain (c.takeTypes n classes) :=
  use _

theorem property (read : Term → Option String) (ps : List String) :
    Plain (c.property read n path ps) := by
  unfold Context.property
  split
  · exact pure _
  · split
    · exact bind (use _) (pure _)
    · exact pure _
  · exact bind (note _) (pure _)

theorem takeNode (role : Role) (links : List String) :
    Plain (takeNode c role links n path).run := by
  unfold RuleGraph.takeNode
  split
  · exact refuse _
  · split
    · exact refuse _
    · exact ofTrial _

theorem decodeCondition : Plain (decodeCondition c n path).run := by
  unfold RuleGraph.decodeCondition
  refine andThen (takeNode _ _) fun _ => andThen (lift (takeTypes _)) fun _ =>
    andThen (lift (property _ _)) fun child => andThen (lift (property _ _)) fun parent => ?_
  split
  · exact refuse _
  · exact ofTrial _

theorem decodeJoin (parent : Term) : Plain (decodeJoin c n parent path).run := by
  unfold RuleGraph.decodeJoin
  split
  · exact refuse _
  · refine andThen (lift (take _)) fun es => andThen (all ?_) fun conditions => ?_
    · intro x hx
      obtain ⟨i, hi, rfl⟩ := List.mem_mapIdx.1 hx
      exact decodeCondition
    · split
      · exact refuse _
      · exact ofTrial _

theorem decodeConstant (t : Term) : Plain (decodeConstant c t path).run := by
  unfold RuleGraph.decodeConstant
  split
  · exact ofTrial _
  · exact refuse _

/-- Attributes give rise to plain findings only. -/
theorem decodeAttributes (position : Position) (value : Value) :
    Plain (decodeAttributes c position n value path).run := by
  unfold RuleGraph.decodeAttributes
  refine andThen ?_ fun stated => andThen (lift (property _ _)) fun datatype =>
    andThen (lift (property _ _)) fun language => ?_
  · unfold decodeStated
    split
    · exact ofTrial _
    · split
      · exact andThen (lift (use _)) fun _ => ofTrial _
      · exact refuse _
    · exact refuse _
  · split
    · refine andThen ?_ fun term => ?_
      · unfold tagConstant
        split
        · exact ofTrial _
        · split
          · exact refuse _
          · exact ofTrial _
      · split
        · exact ofTrial _
        · exact refuse _
    · exact ofTrial _

/-- Entries give rise to plain findings only. -/
theorem entryOf (name : String) (pom : PredicateObjectMap) :
    Plain (entryOf c name pom path).run := by
  unfold RuleGraph.entryOf
  split
  · split
    · exact refuse _
    · split
      · exact ofTrial _
      · split
        · split
          · exact refuse _
          · exact ofTrial _
        · exact refuse _
  · exact refuse _

end Plain

/-! ## Findings that are not plain -/

section Origins

variable {c : Context} {functionAt : Term → String → Trial Value} {f : Finding}
  {P : Term → Prop} {n : Term} {path : String}

theorem value_take {ps : List String} : (c.take n ps).value = c.graph.edges n ps := rfl

/-- A node is taken in a role exactly if it can stand in that role for one map. -/
theorem value_takeNode {role : Role} {links : List String} {u : Unit} :
    (takeNode c role links n path).run.value = some u ↔ c.graph.Takes links n := by
  unfold takeNode Graph.Takes
  by_cases hn : n.isNode = true
  · by_cases hr : 1 < c.graph.referrers n links
    · simp only [hn, hr, Bool.not_true, Bool.false_eq_true, if_false, if_true, true_and]
      exact ⟨fun h => absurd h (by simp [Context.refuse, Attempt.value_fail]),
        fun h => absurd h (by omega)⟩
    · simp only [hn, hr, Bool.not_true, Bool.false_eq_true, if_false, true_and]
      exact ⟨fun _ => by omega, fun _ => rfl⟩
  · simp [hn, Context.refuse, Attempt.value_fail]

theorem Plain.mem_notes_iff {α : Type} {x : Decoding α} (hx : Plain x) (hf : f.isPlain = false) :
    f ∈ x.notes ↔ False :=
  iff_of_false (hx.not_mem hf) id

section Sequences

variable {α β : Type} {x : Decoding α} {k : α → Trial β}

theorem mem_notes_lift_bind :
    f ∈ ((liftM x : Trial α) >>= k).run.notes ↔ f ∈ x.notes ∨ f ∈ (k x.value).run.notes := by
  rw [Attempt.mem_notes_bind, Attempt.notes_lift, Attempt.value_lift]
  simp only [Option.some.injEq, exists_eq_left']

theorem Plain.mem_notes_lift_bind (hx : Plain x) (hf : f.isPlain = false) :
    f ∈ ((liftM x : Trial α) >>= k).run.notes ↔ f ∈ (k x.value).run.notes := by
  rw [RuleGraph.mem_notes_lift_bind, or_iff_right (hx.not_mem hf)]

theorem Plain.mem_notes_bind {y : Trial α} (hk : ∀ a, Plain (k a).run) (hf : f.isPlain = false) :
    f ∈ (y >>= k).run.notes ↔ f ∈ y.run.notes := by
  rw [Attempt.mem_notes_bind]
  exact or_iff_left fun ⟨a, _, hn⟩ => (hk a).not_mem hf hn

theorem mem_notes_takeNode_bind {k : Unit → Trial β} {role : Role} {links : List String}
    (hf : f.isPlain = false) :
    f ∈ (takeNode c role links n path >>= k).run.notes ↔
      c.graph.Takes links n ∧ f ∈ (k ()).run.notes := by
  rw [Attempt.mem_notes_bind, or_iff_right ((Plain.takeNode _ _).not_mem hf)]
  exact ⟨fun ⟨_, ht, hn⟩ => ⟨value_takeNode.1 ht, hn⟩, fun ⟨ht, hn⟩ => ⟨_, value_takeNode.2 ht, hn⟩⟩

end Sequences

section Functions

variable (hf : f.isPlain = false) (h : ∀ o path, f ∈ (functionAt o path).run.notes ↔ P o)

include hf h

/-- Findings of a value are those of its function. -/
theorem mem_notes_decodeValue {e : Edge} :
    f ∈ (decodeValue c functionAt n e path).run.notes ↔
      e.property = Property.functionValue ∧ P e.object := by
  have hplain {x : Trial Value} (hx : Plain x.run) (he : e.property ≠ Property.functionValue) :
      f ∈ x.run.notes ↔ e.property = Property.functionValue ∧ P e.object :=
    iff_of_false (hx.not_mem hf) fun hp => he hp.1
  unfold decodeValue
  split
  · next hc =>
    exact hplain (.andThen (.decodeConstant _) fun _ => .ofTrial _) (by rw [hc]; decide)
  split
  · next ht =>
    refine hplain ?_ (by rw [ht]; decide)
    split
    · exact .ofTrial _
    · exact .refuse _
  split
  · next hv => rw [h, and_iff_right hv]
  · next hv =>
    refine hplain ?_ hv
    split
    · exact .decodeJoin _
    · split
      · exact .ofTrial _
      · exact .refuse _

/-- A finding of a term map that is not plain is one of its function value. -/
theorem mem_notes_decodeTermMap {position : Position} :
    f ∈ (decodeTermMap c functionAt position n path).run.notes ↔
      ∃ o, c.graph.FunctionOf n o ∧ P o := by
  unfold decodeTermMap
  rw [mem_notes_takeNode_bind hf, (Plain.takeTypes _).mem_notes_lift_bind hf]
  split
  · next e he =>
    rw [(Plain.use _).mem_notes_lift_bind hf,
      Plain.mem_notes_bind (fun _ => .decodeAttributes _ _) hf, mem_notes_decodeValue hf h]
    constructor
    · rintro ⟨ht, hp, hP⟩
      exact ⟨e.object, ⟨ht, e, he, hp, rfl⟩, hP⟩
    · rintro ⟨o, ⟨ht, e', he', hp, rfl⟩, hP⟩
      obtain rfl : e = e' := List.singleton_inj.1 (he.symm.trans he')
      exact ⟨ht, hp, hP⟩
  · next hes =>
    refine iff_of_false (fun hn => (Plain.refuse _).not_mem hf hn.2) ?_
    rintro ⟨o, ⟨-, e, he, -⟩, -⟩
    exact hes e he

/-- A finding of linked term maps that is not plain is of a function. -/
theorem mem_notes_decodeLinked {position : Position} {link shortcut : String}
    (hne : link ≠ shortcut) :
    f ∈ (decodeLinked c functionAt position n path link shortcut).notes ↔
      ∃ t o, c.graph.Leads n link t ∧ c.graph.FunctionOf t o ∧ P o := by
  unfold decodeLinked
  rw [Logged.notes_bind, List.mem_append, or_iff_right ((Plain.take _).not_mem hf), value_take,
    Logged.notes_those, List.mem_flatMap]
  constructor
  · rintro ⟨x, hx, hn⟩
    obtain ⟨i, hi, rfl⟩ := List.mem_mapIdx.1 hx
    obtain ⟨hl, hps⟩ := Graph.leads_of_mem_edges (List.getElem_mem hi)
    split at hn
    · refine absurd hn (Plain.not_mem ?_ hf)
      exact .andThen (.decodeConstant _) fun _ => .ofTrial _
    · next hs =>
      obtain ⟨o, ho, hP⟩ := (mem_notes_decodeTermMap hf h).1 hn
      rw [(List.mem_cons.1 hps).resolve_right fun hp => hs (List.mem_singleton.1 hp)] at hl
      exact ⟨_, o, hl, ho, hP⟩
  · rintro ⟨t, o, hl, ho, hP⟩
    have hlink : link ∈ [link, shortcut] := List.mem_cons_self ..
    obtain ⟨e, he, hp, rfl⟩ := Graph.exists_mem_edges hl hlink
    obtain ⟨i, hi, rfl⟩ := List.mem_iff_getElem.1 he
    refine ⟨_, List.mem_mapIdx.2 ⟨i, hi, rfl⟩, ?_⟩
    rw [if_neg (by rw [hp]; exact hne)]
    exact (mem_notes_decodeTermMap hf h).2 ⟨o, ho, hP⟩

/-- A finding of a predicate-object map, if not plain, is of a function. -/
theorem mem_notes_decodePair :
    f ∈ (decodePair c functionAt n path).run.notes ↔ ∃ o, c.graph.PairHolds n o ∧ P o := by
  unfold decodePair decodeGraphs
  rw [mem_notes_takeNode_bind hf, (Plain.takeTypes _).mem_notes_lift_bind hf]
  simp only [mem_notes_lift_bind, (Plain.ofTrial _).mem_notes_iff hf, or_false]
  rw [mem_notes_decodeLinked hf h (by decide), mem_notes_decodeLinked hf h (by decide),
    mem_notes_decodeLinked hf h (by decide)]
  simp only [Graph.PairHolds, Graph.pairLinks, List.mem_cons, List.not_mem_nil, or_false]
  constructor
  · rintro ⟨ht, ⟨t, o, hl, ho, hP⟩ | ⟨t, o, hl, ho, hP⟩ | ⟨t, o, hl, ho, hP⟩⟩
    · exact ⟨o, ⟨ht, _, .inl rfl, t, hl, ho⟩, hP⟩
    · exact ⟨o, ⟨ht, _, .inr (.inl rfl), t, hl, ho⟩, hP⟩
    · exact ⟨o, ⟨ht, _, .inr (.inr rfl), t, hl, ho⟩, hP⟩
  · rintro ⟨o, ⟨ht, link, rfl | rfl | rfl, t, hl, ho⟩, hP⟩
    · exact ⟨ht, .inl ⟨t, o, hl, ho, hP⟩⟩
    · exact ⟨ht, .inr (.inl ⟨t, o, hl, ho, hP⟩)⟩
    · exact ⟨ht, .inr (.inr ⟨t, o, hl, ho, hP⟩)⟩

omit hf h in
/-- Every entry of a function value is decoded, also after one that is refused. -/
theorem notes_decodeEntries_cons {e : Edge} {rest : List Edge} {i : Nat} {name : String} :
    (decodeEntries c functionAt path i name (e :: rest)).run.notes =
      (decodeEntry c functionAt name e.object (numbered (path ++ ".function") i)).run.notes ++
        (decodeEntries c functionAt path (i + 1)
          (((decodeEntry c functionAt name e.object
            (numbered (path ++ ".function") i)).run.value.bind
              FunctionEntry.executes?).getD name) rest).run.notes := by
  rw [decodeEntries, OptionT.run_mk, Logged.notes_bind, Logged.notes_bind, Logged.notes_pure,
    List.append_nil]

theorem mem_notes_decodeEntries {es : List Edge} :
    ∀ {i : Nat} {name : String},
      f ∈ (decodeEntries c functionAt path i name es).run.notes ↔
        ∃ e ∈ es, ∃ o, c.graph.PairHolds e.object o ∧ P o := by
  induction es with
  | nil =>
    intro i name
    exact ⟨fun hn => absurd hn List.not_mem_nil, fun ⟨_, he, _⟩ => absurd he List.not_mem_nil⟩
  | cons e rest ih =>
    intro i name
    rw [notes_decodeEntries_cons, List.mem_append, decodeEntry,
      Plain.mem_notes_bind (fun _ => .entryOf _ _) hf, mem_notes_decodePair hf h, ih]
    simp only [List.mem_cons, or_and_right, exists_or, exists_eq_left]

/-- A finding of a function value, if not plain, is of a part of it. -/
theorem mem_notes_decodeFunction :
    f ∈ (decodeFunction c functionAt n path).run.notes ↔
      c.graph.Takes [Property.functionValue] n ∧
        ((∃ s, c.graph.Leads n Property.logicalSource s ∧ f ∈ (decodeSource c s).notes) ∨
          ∃ p, c.graph.Leads n Property.predicateObjectMap p ∧
            ∃ o, c.graph.PairHolds p o ∧ P o) := by
  unfold decodeFunction
  have hsources : f ∈ (Logged.each ((c.graph.edges n [Property.logicalSource]).map
      fun e => decodeSource c e.object)).notes ↔
        ∃ s, c.graph.Leads n Property.logicalSource s ∧ f ∈ (decodeSource c s).notes := by
    rw [Logged.notes_each, List.flatMap_map, List.mem_flatMap, ← Graph.exists_edge_iff]
  have hlast (r : String × List Parameter) : Plain (if r.1 = "" then c.refuse (.noFunction n) path
      else Pure.pure (.function r.1 r.2) : Trial Value).run := by
    split
    · exact .refuse _
    · exact .ofTrial _
  rw [mem_notes_takeNode_bind hf, (Plain.takeTypes _).mem_notes_lift_bind hf,
    (Plain.take _).mem_notes_lift_bind hf, mem_notes_lift_bind, value_take, hsources,
    (Plain.take _).mem_notes_lift_bind hf, value_take, Plain.mem_notes_bind hlast hf,
    mem_notes_decodeEntries hf h, ← Graph.exists_edge_iff (p := Property.predicateObjectMap)]

/-- A finding of a subject map, if not plain, is of a function value. -/
theorem mem_notes_decodeSubject {e : Edge} :
    f ∈ (decodeSubject c functionAt e).run.notes ↔
      e.property ≠ Property.subject ∧ c.graph.referrers e.object [Property.subjectMap] ≤ 1 ∧
        ((∃ o, c.graph.FunctionOf e.object o ∧ P o) ∨
          (∃ tm, (decodeTermMap c functionAt .subject e.object "subject").run.value = some tm) ∧
            ∃ t o, c.graph.Leads e.object Property.graphMap t ∧ c.graph.FunctionOf t o ∧ P o) := by
  have hclasses : Plain (decodeClasses c e.object) := .bind (.use _) (.pure _)
  unfold decodeSubject decodeGraphs
  split
  · next hs =>
    refine iff_of_false (Plain.not_mem ?_ hf) fun hn => hn.1 hs
    exact .andThen (.decodeConstant _) fun _ => .ofTrial _
  · next hs =>
    rw [and_iff_right hs, ← Nat.not_lt]
    split
    · next hr => exact iff_of_false ((Plain.refuse _).not_mem hf) fun hn => hn.1 hr
    · next hr =>
      rw [and_iff_right hr, Attempt.mem_notes_bind, mem_notes_decodeTermMap hf h]
      simp only [hclasses.mem_notes_lift_bind hf, mem_notes_lift_bind,
        (Plain.ofTrial _).mem_notes_iff hf, or_false,
        mem_notes_decodeLinked hf h (by decide : Property.graphMap ≠ Property.graph),
        exists_and_right]

end Functions

/-- A finding of the one thing that a node leads to. -/
theorem mem_notes_take_one {α : Type} (hf : f.isPlain = false) {ps : List String}
    {k : List Edge → Decoding α} (hnil : Plain (k []))
    (hmore : ∀ e e' rest, Plain (k (e :: e' :: rest))) :
    f ∈ (c.take n ps >>= k).notes ↔ ∃ e, c.graph.edges n ps = [e] ∧ f ∈ (k [e]).notes := by
  rw [Logged.notes_bind, List.mem_append, or_iff_right ((Plain.take _).not_mem hf), value_take]
  rcases c.graph.edges n ps with _ | ⟨e, _ | ⟨e', rest⟩⟩
  · exact iff_of_false (hnil.not_mem hf) (by simp)
  · simp only [List.cons.injEq, and_true, exists_eq_left']
  · exact iff_of_false ((hmore e e' rest).not_mem hf) (by simp)

theorem mem_notes_decodeOwnSource (hf : f.isPlain = false) :
    f ∈ (decodeOwnSource c n).notes ↔
      ∃ e, c.graph.edges n Property.sources = [e] ∧ f ∈ (decodeSource c e.object).notes :=
  mem_notes_take_one hf (.bind (.note _) (.pure _)) fun _ _ _ => .bind (.note _) (.pure _)

theorem mem_notes_decodeOwnSubject (hf : f.isPlain = false) :
    f ∈ (decodeOwnSubject c functionAt n).notes ↔
      ∃ e, c.graph.edges n [Property.subjectMap, Property.subject] = [e] ∧
        f ∈ (decodeSubject c functionAt e).run.notes :=
  mem_notes_take_one hf (.bind (.note _) (.pure _)) fun _ _ _ => .bind (.note _) (.pure _)

theorem mem_notes_decodePairs (hf : f.isPlain = false)
    (h : ∀ o path, f ∈ (functionAt o path).run.notes ↔ P o) :
    f ∈ (decodePairs c functionAt n).notes ↔
      ∃ p, c.graph.Leads n Property.predicateObjectMap p ∧ ∃ o, c.graph.PairHolds p o ∧ P o := by
  unfold decodePairs
  rw [Logged.notes_bind, List.mem_append, or_iff_right ((Plain.take _).not_mem hf),
    ← Graph.exists_edge_iff, Logged.notes_those, List.mem_flatMap]
  constructor
  · rintro ⟨x, hx, hn⟩
    obtain ⟨i, hi, rfl⟩ := List.mem_mapIdx.1 hx
    exact ⟨_, List.getElem_mem hi, (mem_notes_decodePair hf h).1 hn⟩
  · rintro ⟨e, he, hn⟩
    obtain ⟨i, hi, rfl⟩ := List.mem_iff_getElem.1 he
    exact ⟨_, List.mem_mapIdx.2 ⟨i, hi, rfl⟩, (mem_notes_decodePair hf h).2 hn⟩

/-- A finding of a triples map, if not plain, is of a part of it. -/
theorem mem_notes_decodeTriplesMap (hf : f.isPlain = false)
    (h : ∀ o path, f ∈ (functionAt o path).run.notes ↔ P o) :
    f ∈ (decodeTriplesMap c functionAt n).notes ↔
      (∃ e, c.graph.edges n Property.sources = [e] ∧ f ∈ (decodeSource c e.object).notes) ∨
      (∃ e, c.graph.edges n [Property.subjectMap, Property.subject] = [e] ∧
        f ∈ (decodeSubject c functionAt e).run.notes) ∨
      ∃ p, c.graph.Leads n Property.predicateObjectMap p ∧ ∃ o, c.graph.PairHolds p o ∧ P o := by
  unfold decodeTriplesMap
  simp only [Logged.notes_bind, Logged.notes_pure, List.mem_append, List.append_nil]
  rw [or_iff_right ((Plain.takeTypes _).not_mem hf), mem_notes_decodeOwnSource hf,
    mem_notes_decodeOwnSubject hf, mem_notes_decodePairs hf h]

end Origins

end RdfMapping.RuleGraph
