/-
# Every triple of a decoded graph has a place

Decoding marks the triples it uses, and a graph with a triple that was not used is refused.  What
a part of the decoder uses belongs to the node it starts from, and is known to the decoder.
-/
import Mathlib.Logic.Relation
import RdfMapping.Proofs.Decoding.Order

namespace RdfMapping.RuleGraph

open Iri (PrefixTable)
open Mapping
open Rdf (Term Quad)

/-! ## Known properties and classes -/

/-- The links that lead from a map to its parts. -/
def Property.links : List String :=
  sources ++ termMapLinks ++ [predicateObjectMap, functionValue, joinCondition]

/-- The properties of a source. -/
def Property.ofSources : List String :=
  [source, referenceFormulation, iterator, tableName, query, sqlQuery, sqlVersion]

/-- The properties that are read, apart from the one that states a class. -/
def Property.known : List String :=
  links ++ ofSources ++ values ++
    [subject, predicate, object, graph, classOf, termType, datatype, language, child, parent]

/-- The classes that are read. -/
def Class.known : List String :=
  [triplesMap, predicateObjectMap, join] ++ ofSources ++ ofTermMaps

/-- A triple has a property that is read, or states a class that is. -/
def Known (q : Quad) : Prop :=
  ∃ p, q.predicate = .iri p ∧
    (p ∈ Property.known ∨ p = rdfType ∧ ∃ c ∈ Class.known, q.object = .iri c)

/-- A triple leads from a node to another one as to its part. -/
def HasPart (qs : List Quad) (a b : Term) : Prop :=
  ∃ q ∈ qs, q.subject = a ∧ q.object = b ∧ ∃ p ∈ Property.links, q.predicate = .iri p

/-- A node with a source that is not the value of a function. -/
def IsAnchor (qs : List Quad) (n : Term) : Prop :=
  (∃ q ∈ qs, q.subject = n ∧ ∃ p ∈ Property.sources, q.predicate = .iri p) ∧
    ∀ q ∈ qs, q.predicate = .iri Property.functionValue → q.object ≠ n

/-- A node can be reached from another one, going from a map to its parts. -/
def Graph.Reaches (g : Graph) : Term → Term → Prop :=
  Relation.ReflTransGen (HasPart g.triples)

theorem Graph.Reaches.of_leads {g : Graph} {n m o : Term} {p : String} (h : g.Leads n p m)
    (hp : p ∈ Property.links) (hm : g.Reaches m o) : g.Reaches n o := by
  obtain ⟨q, hq, hs, hpred, ho⟩ := h
  exact hm.head ⟨q, hq, hs, ho, p, hp, hpred⟩

/-! ## Parts that use what belongs to a node -/

/-- A part of the decoder uses only known triples reached from a node. -/
def Keeps {α : Type} (g : Graph) (n : Term) (x : Decoding α) : Prop :=
  ∀ i, Finding.used i ∈ x.notes →
    ∃ q, g.triples[i]? = some q ∧ Known q ∧ g.Reaches n q.subject

namespace Keeps

variable {α β : Type} {c : Context} {g : Graph} {n m o : Term} {path p : String} {x : Decoding α}
  {xs : List (Trial α)} {ps : List String}

theorem of_leads (h : g.Leads n p m) (hp : p ∈ Property.links) (hx : Keeps g m x) :
    Keeps g n x := by
  intro i hi
  obtain ⟨q, hq, hknown, hreach⟩ := hx i hi
  exact ⟨q, hq, hknown, hreach.of_leads h hp⟩

theorem pure (a : α) : Keeps g n (Pure.pure a : Decoding α) :=
  fun _ h => absurd h List.not_mem_nil

theorem bind {k : α → Decoding β} (hx : Keeps g n x) (hk : Keeps g n (k x.value)) :
    Keeps g n (x >>= k) := by
  intro i hi
  rw [Logged.notes_bind, List.mem_append] at hi
  exact hi.elim (hx i) (hk i)

theorem ofTrial (a : α) : Keeps g n (Pure.pure a : Trial α).run :=
  fun _ h => absurd h List.not_mem_nil

theorem lift (hx : Keeps g n x) : Keeps g n (liftM x : Trial α).run := by
  intro i hi
  rw [Attempt.notes_lift] at hi
  exact hx i hi

theorem andThen {x : Trial α} {k : α → Trial β} (hx : Keeps g n x.run)
    (hk : ∀ a, x.run.value = some a → Keeps g n (k a).run) : Keeps g n (x >>= k).run := by
  intro i hi
  rcases Attempt.mem_notes_bind.1 hi with hi | ⟨a, ha, hi⟩
  · exact hx i hi
  · exact hk a ha i hi

theorem each {xs : List (Decoding α)} (h : ∀ x ∈ xs, Keeps g n x) :
    Keeps g n (Logged.each xs) := by
  intro i hi
  rw [Logged.notes_each, List.mem_flatMap] at hi
  obtain ⟨x, hx, hi⟩ := hi
  exact h x hx i hi

theorem those (h : ∀ x ∈ xs, Keeps g n x.run) : Keeps g n (Logged.those xs) := by
  intro i hi
  rw [Logged.notes_those, List.mem_flatMap] at hi
  obtain ⟨x, hx, hi⟩ := hi
  exact h x hx i hi

theorem all (h : ∀ x ∈ xs, Keeps g n x.run) : Keeps g n (Attempt.all xs).run := by
  intro i hi
  rw [Attempt.notes_all, List.mem_flatMap] at hi
  obtain ⟨x, hx, hi⟩ := hi
  exact h x hx i hi

theorem note (f : Flaw) : Keeps g n (c.note f path) := by
  intro i hi
  rw [Context.note, Logged.tell, List.mem_singleton] at hi
  cases hi

theorem refuse (f : Flaw) : Keeps g n (c.refuse f path : Trial α).run := by
  intro i hi
  rw [Context.refuse, Attempt.notes_fail, List.mem_singleton] at hi
  cases hi

/-! ### Triples that are used -/

/-- Edges that leave the node with known properties may be used. -/
theorem use {es : List Edge} (hes : ∀ e ∈ es, e ∈ g.edges n ps)
    (hps : ∀ p ∈ ps, p ∈ Property.known) : Keeps g n (Context.use es) := by
  intro i hi
  rw [Context.use, Logged.tell, List.mem_map] at hi
  obtain ⟨e, he, hei⟩ := hi
  cases hei
  obtain ⟨q, hq, hs, hpred, -, hp⟩ := Graph.mem_edges.1 (hes e he)
  exact ⟨q, hq, ⟨e.property, hpred, .inl (hps _ hp)⟩, hs ▸ .refl⟩

theorem take (hps : ∀ p ∈ ps, p ∈ Property.known) : Keeps c.graph n (c.take n ps) :=
  bind (use (fun _ h => h) hps) (pure _)

/-- Statements that the node belongs to known classes may be used. -/
theorem takeTypes {classes : List String} (hclasses : ∀ k ∈ classes, k ∈ Class.known) :
    Keeps c.graph n (c.takeTypes n classes) := by
  intro i hi
  rw [Context.takeTypes, Context.use, Logged.tell, List.mem_map] at hi
  obtain ⟨e, he, hei⟩ := hi
  cases hei
  obtain ⟨he, hclass⟩ := List.mem_filter.1 he
  obtain ⟨q, hq, hs, hpred, ho, hp⟩ := Graph.mem_edges.1 he
  obtain ⟨k, hk, hmem⟩ := (Option.any_eq_true _ _).1 hclass
  have hobject : q.object = .iri k := by
    rw [ho]
    cases h : e.object <;> simp_all [Term.iri?]
  refine ⟨q, hq, ⟨e.property, hpred, .inr ⟨List.mem_singleton.1 hp, k, ?_, hobject⟩⟩, hs ▸ .refl⟩
  exact hclasses k (List.contains_iff_mem.1 hmem)

theorem property {read : Term → Option String} (hps : ∀ p ∈ ps, p ∈ Property.known) :
    Keeps c.graph n (c.property read n path ps) := by
  unfold Context.property
  split
  · exact pure _
  · next e he =>
    have hmem : ∀ e' ∈ [e], e' ∈ c.graph.edges n ps := by
      rw [he]
      exact fun _ h => h
    split
    · exact bind (use hmem hps) (pure _)
    · exact pure _
  · exact bind (note _) (pure _)

theorem takeNode {role : Role} {links : List String} :
    Keeps g n (takeNode c role links m path).run := by
  unfold RuleGraph.takeNode
  split
  · exact refuse _
  · split
    · exact refuse _
    · exact ofTrial _

/-! ### Sources and joins -/

/-- A source uses triples of its own node. -/
theorem decodeSource : Keeps c.graph n (decodeSource c n) := by
  have hparts : Keeps c.graph n (decodeSourceParts c n) :=
    bind (takeTypes (by decide)) <| bind (property (by decide)) <| bind (property (by decide)) <|
      bind (property (by decide)) <| bind (property (by decide)) <|
      bind (property (by decide)) <| bind (property (by decide)) (pure _)
  unfold RuleGraph.decodeSource
  split
  · intro i hi
    -- the notes on the source are one finding and the numbers of the triples used
    rcases List.mem_cons.1 hi with hi | hi
    · cases hi
    · obtain ⟨j, hj, hji⟩ := List.mem_map.1 hi
      cases hji
      obtain ⟨f, hf, hfi⟩ := List.mem_filterMap.1 hj
      cases f with
      | used number =>
        cases hfi
        exact hparts _ hf
      | flaw d => cases hfi
      | source node flaws => cases hfi
      | endless => cases hfi
  · exact bind (note _) (pure _)

theorem decodeCondition : Keeps c.graph n (decodeCondition c n path).run := by
  unfold RuleGraph.decodeCondition
  refine andThen takeNode fun _ _ => andThen (lift (takeTypes (by decide))) fun _ _ =>
    andThen (lift (property (by decide))) fun child _ =>
    andThen (lift (property (by decide))) fun parent _ => ?_
  split
  · exact refuse _
  · exact ofTrial _

/-- A join uses the triples of its conditions. -/
theorem decodeJoin {parent : Term} : Keeps c.graph n (decodeJoin c n parent path).run := by
  unfold RuleGraph.decodeJoin
  split
  · exact refuse _
  · refine andThen (lift (take (by decide))) fun es hes => andThen (all ?_) fun conditions _ => ?_
    · intro x hx
      cases hes
      obtain ⟨i, hi, rfl⟩ := List.mem_mapIdx.1 hx
      obtain ⟨hl, hp⟩ := Graph.leads_of_mem_edges (List.getElem_mem hi)
      exact of_leads hl (by rw [List.mem_singleton.1 hp]; decide) decodeCondition
    · split
      · exact refuse _
      · exact ofTrial _

/-! ### Term maps -/

theorem decodeConstant {t : Term} : Keeps g n (decodeConstant c t path).run := by
  unfold RuleGraph.decodeConstant
  split
  · exact ofTrial _
  · exact refuse _

theorem decodeStated : Keeps c.graph n (decodeStated c n path).run := by
  unfold RuleGraph.decodeStated
  split
  · exact ofTrial _
  · next e he =>
    have hmem : ∀ e' ∈ [e], e' ∈ c.graph.edges n [Property.termType] := by
      rw [he]
      exact fun _ h => h
    split
    · exact andThen (lift (use hmem (by decide))) fun _ _ => ofTrial _
    · exact refuse _
  · exact refuse _

theorem tagConstant {term : Constant} {datatype language : String} :
    Keeps g n (tagConstant c term datatype language path).run := by
  unfold RuleGraph.tagConstant
  split
  · exact ofTrial _
  · split
    · exact refuse _
    · exact ofTrial _

theorem decodeAttributes {position : Position} {value : Value} :
    Keeps c.graph n (decodeAttributes c position n value path).run := by
  unfold RuleGraph.decodeAttributes
  refine andThen decodeStated fun stated _ => andThen (lift (property (by decide)))
    fun datatype _ => andThen (lift (property (by decide))) fun language _ => ?_
  split
  · refine andThen tagConstant fun term _ => ?_
    split
    · exact ofTrial _
    · exact refuse _
  · exact ofTrial _

/-- Reading an entry uses no triple. -/
theorem entryOf {name : String} {pom : PredicateObjectMap} :
    Keeps g n (entryOf c name pom path).run := by
  unfold RuleGraph.entryOf
  split
  · split
    · exact refuse _
    · split
      · exact ofTrial _
      · split
        · split
          · exact refuse _
          · exact ofTrial _
        · exact refuse _
  · exact refuse _

section Functions

variable {functionAt : Term → String → Trial Value}
  (hfun : ∀ o path, Keeps c.graph o (functionAt o path).run)

include hfun

/-- A value uses triples that can be reached. -/
theorem decodeValue {e : Edge} (hl : c.graph.Leads n e.property e.object) :
    Keeps c.graph n (decodeValue c functionAt n e path).run := by
  unfold RuleGraph.decodeValue
  split
  · exact andThen decodeConstant fun _ _ => ofTrial _
  split
  · split
    · exact ofTrial _
    · exact refuse _
  split
  · next hp => exact of_leads hl (by rw [hp]; decide) (hfun _ _)
  split
  · exact decodeJoin
  split
  · exact ofTrial _
  · exact refuse _

theorem decodeTermMap {position : Position} :
    Keeps c.graph n (decodeTermMap c functionAt position n path).run := by
  unfold RuleGraph.decodeTermMap
  refine andThen takeNode fun _ _ => andThen (lift (takeTypes (by decide))) fun _ _ => ?_
  split
  · next e he =>
    have hmem : ∀ e' ∈ [e], e' ∈ c.graph.edges n Property.values := by
      rw [he]
      exact fun _ h => h
    have hl := (Graph.leads_of_mem_edges (hmem e (List.mem_singleton.2 rfl))).1
    exact andThen (lift (use hmem (by decide))) fun _ _ =>
      andThen (decodeValue hfun hl) fun value _ => decodeAttributes
  · exact refuse _

theorem decodeLinked {position : Position} {link shortcut : String}
    (hlink : link ∈ Property.links) (hps : ∀ p ∈ [link, shortcut], p ∈ Property.known) :
    Keeps c.graph n (decodeLinked c functionAt position n path link shortcut) := by
  refine bind (take hps) (those ?_)
  intro x hx
  obtain ⟨i, hi, rfl⟩ := List.mem_mapIdx.1 hx
  obtain ⟨hl, hp⟩ := Graph.leads_of_mem_edges (List.getElem_mem hi)
  split
  · exact andThen decodeConstant fun _ _ => ofTrial _
  · next hs =>
    -- what is not the shortcut is the link itself
    have hp := (List.mem_cons.1 hp).resolve_right fun h => hs (List.mem_singleton.1 h)
    exact of_leads hl (by rw [hp]; exact hlink) (decodeTermMap hfun)

theorem decodePair : Keeps c.graph n (decodePair c functionAt n path).run := by
  unfold RuleGraph.decodePair decodeGraphs
  exact andThen takeNode fun _ _ => andThen (lift (takeTypes (by decide))) fun _ _ =>
    andThen (lift (decodeLinked hfun (by decide) (by decide))) fun _ _ =>
    andThen (lift (decodeLinked hfun (by decide) (by decide))) fun _ _ =>
    andThen (lift (decodeLinked hfun (by decide) (by decide))) fun _ _ => ofTrial _

/-! ### Functions and triples maps -/

theorem decodeEntries {es : List Edge}
    (hes : ∀ e ∈ es, c.graph.Leads n Property.predicateObjectMap e.object) :
    ∀ {i : Nat} {name : String},
      Keeps c.graph n (decodeEntries c functionAt path i name es).run := by
  induction es with
  | nil => exact fun {_ _} => ofTrial _
  | cons e rest ih =>
    intro i name j hj
    rw [List.forall_mem_cons] at hes
    rw [notes_decodeEntries_cons, List.mem_append] at hj
    refine hj.elim (fun hj => ?_) (ih hes.2 j)
    exact andThen (of_leads hes.1 (by decide) (decodePair hfun)) (fun _ _ => entryOf) j hj

/-- A function value uses triples behind its entries. -/
theorem decodeFunction : Keeps c.graph n (decodeFunction c functionAt n path).run := by
  unfold RuleGraph.decodeFunction
  refine andThen takeNode fun _ _ => andThen (lift (takeTypes (by decide))) fun _ _ =>
    andThen (lift (take (by decide))) fun sources hsources =>
    andThen (lift (each ?_)) fun _ _ => andThen (lift (take (by decide))) fun entries hentries =>
    andThen (decodeEntries hfun ?_) fun r _ => ?_
  · intro x hx
    cases hsources
    obtain ⟨e, he, rfl⟩ := List.mem_map.1 hx
    obtain ⟨hl, hp⟩ := Graph.leads_of_mem_edges he
    exact of_leads hl (by rw [List.mem_singleton.1 hp]; decide) decodeSource
  · intro e he
    cases hentries
    obtain ⟨hl, hp⟩ := Graph.leads_of_mem_edges he
    exact List.mem_singleton.1 hp ▸ hl
  · dsimp only
    split
    · exact refuse _
    · exact ofTrial _

end Functions

/-- **A function value uses what belongs to its node**, whatever is nested in it. -/
theorem functionWithin (depth : Nat) :
    ∀ n path, Keeps c.graph n (functionWithin c depth n path).run := by
  induction depth with
  | zero =>
    intro n path i hi
    rw [RuleGraph.functionWithin, Attempt.notes_fail, List.mem_singleton] at hi
    cases hi
  | succ depth ih => exact fun n path => decodeFunction ih

section TriplesMaps

variable {functionAt : Term → String → Trial Value}
  (hfun : ∀ o path, Keeps c.graph o (functionAt o path).run)

include hfun

/-- A subject map uses triples behind its edge. -/
theorem decodeSubject {e : Edge} (hl : c.graph.Leads n e.property e.object)
    (hp : e.property ∈ [Property.subjectMap, Property.subject]) :
    Keeps c.graph n (decodeSubject c functionAt e).run := by
  unfold RuleGraph.decodeSubject
  split
  · exact andThen decodeConstant fun _ _ => ofTrial _
  · next hs =>
    have hp : e.property = Property.subjectMap :=
      (List.mem_cons.1 hp).resolve_right fun h => hs (List.mem_singleton.1 h)
    split
    · exact refuse _
    · refine of_leads hl (by rw [hp]; decide) ?_
      refine andThen (decodeTermMap hfun) fun _ _ => andThen (lift ?_) fun _ _ =>
        andThen (lift (decodeLinked hfun (by decide) (by decide))) fun _ _ => ofTrial _
      exact bind (use (fun _ h => (List.mem_filter.1 h).1) (by decide)) (pure _)

/-- **A triples map uses what belongs to its node.** -/
theorem decodeTriplesMap : Keeps c.graph n (decodeTriplesMap c functionAt n) := by
  have hedge {ps : List String} {e : Edge} (he : c.graph.edges n ps = [e]) :
      c.graph.Leads n e.property e.object ∧ e.property ∈ ps :=
    Graph.leads_of_mem_edges (by rw [he]; exact List.mem_singleton.2 rfl)
  refine bind (takeTypes (by decide)) (bind ?_ (bind ?_ (bind ?_ (pure _))))
  · refine bind (take (by decide)) ?_
    split
    · next e he =>
      obtain ⟨hl, hp⟩ := hedge he
      have hlinks : ∀ p ∈ Property.sources, p ∈ Property.links := by decide
      exact of_leads hl (hlinks _ hp) decodeSource
    · exact bind (note _) (pure _)
  · refine bind (take (by decide)) ?_
    split
    · exact bind (note _) (pure _)
    · next e he =>
      obtain ⟨hl, hp⟩ := hedge he
      exact decodeSubject hfun hl hp
    · exact bind (note _) (pure _)
  · refine bind (take (by decide)) (those ?_)
    intro x hx
    obtain ⟨i, hi, rfl⟩ := List.mem_mapIdx.1 hx
    obtain ⟨hl, hp⟩ := Graph.leads_of_mem_edges (List.getElem_mem hi)
    exact of_leads hl (by rw [List.mem_singleton.1 hp]; decide) (decodePair hfun)

end TriplesMaps

end Keeps

/-! ## Decoded lists of quads -/

/-- A triple that was used belongs to the node of a triples map. -/
theorem exists_reaches_of_uses {g : Graph} {ids : List (Term × String)} {depth : Nat} {q : Quad}
    (h : Uses g (decodeMaps depth g ids).notes q) :
    Known q ∧ ∃ n ∈ ids.map Prod.fst, g.Reaches n q.subject := by
  obtain ⟨i, hi, hq⟩ := h
  rw [decodeMaps, Logged.notes_each, List.mem_flatMap] at hi
  obtain ⟨x, hx, hi⟩ := hi
  obtain ⟨⟨n, id⟩, hn, rfl⟩ := List.mem_map.1 hx
  obtain ⟨q', hq', hknown, hreach⟩ :=
    Keeps.decodeTriplesMap (c := ⟨g, ids, id⟩) (Keeps.functionWithin depth) i hi
  cases hq.symm.trans hq'
  exact ⟨hknown, n, List.mem_map.2 ⟨_, hn, rfl⟩, hreach⟩

/-- Anchors are the nodes of triples maps. -/
theorem isAnchor_of_mem_anchors {qs : List Quad} (hgraph : ∀ q ∈ qs, q.graph = none) {n : Term}
    (h : n ∈ (Graph.ofQuads qs).anchors) : IsAnchor qs n := by
  obtain ⟨⟨q, hq, hp, hs⟩, hfun⟩ := Graph.mem_sourced.1 ((List.mergeSort_perm _ _).subset h)
  refine ⟨⟨q, (Graph.mem_triples_ofQuads.1 hq).1, hs, ?_⟩, ?_⟩
  · unfold Graph.hasProperty at hp
    split at hp
    · next p hpred =>
      refine ⟨p, List.contains_iff_mem.1 hp, ?_⟩
      cases h : q.predicate <;> simp_all [Term.iri?]
    · cases hp
  · rintro q hq hpred rfl
    have hmem : q ∈ (Graph.ofQuads qs).triples :=
      Graph.mem_triples_ofQuads.2 ⟨hq, hgraph q hq⟩
    have htrue : (Graph.ofQuads qs).isFunctionValue q.object = true :=
      List.any_eq_true.2 ⟨q, hmem, by simp [hpred]⟩
    rw [hfun] at htrue
    cases htrue

/-- **Nothing unknown is accepted.**  In a list of quads that is decoded no quad is in a named
graph, each has a property that is read or states a class that is, and its subject can be
reached from the node of a triples map, going from maps to their parts. -/
theorem known_of_decode_eq_ok {base : String} {prefixes : Option PrefixTable} {qs : List Quad}
    {doc : Document} (h : decode base prefixes qs = .ok doc) :
    ∀ q ∈ qs, q.graph = none ∧ Known q ∧
      ∃ n, IsAnchor qs n ∧ Relation.ReflTransGen (HasPart qs) n q.subject := by
  obtain ⟨-, hnamed, huses, -, -⟩ := decode_eq_ok_iff.1 h
  have hgraph : ∀ q ∈ qs, q.graph = none := Graph.named_ofQuads_eq_nil_iff.1 hnamed
  intro q hq
  have hmem : q ∈ (Graph.ofQuads qs).triples := Graph.mem_triples_ofQuads.2 ⟨hq, hgraph q hq⟩
  obtain ⟨hknown, n, hn, hreach⟩ := exists_reaches_of_uses (huses q hmem)
  rw [Graph.map_fst_names] at hn
  refine ⟨hgraph q hq, hknown, n, isAnchor_of_mem_anchors hgraph hn, ?_⟩
  refine Relation.ReflTransGen.mono ?_ _ _ hreach
  rintro a b ⟨t, ht, hrest⟩
  exact ⟨t, (Graph.mem_triples_ofQuads.1 ht).1, hrest⟩

/-- A triples map whose subjects a function makes of a name. -/
def calledMap : List Quad :=
  let triple (s : Term) (p : String) (o : Term) : Quad :=
    { subject := s, predicate := .iri p, object := o }
  let node (name : String) : Term := .iri ("http://ex.org/" ++ name)
  [triple (node "people") Property.logicalSource (.blank "source"),
    triple (.blank "source") rdfType (.iri Class.logicalSource),
    triple (.blank "source") Property.source (.ofText "people.csv"),
    triple (node "people") Property.subjectMap (.blank "subject"),
    triple (.blank "subject") Property.functionValue (.blank "call"),
    triple (.blank "call") Property.predicateObjectMap (.blank "function"),
    triple (.blank "function") Property.predicate (.iri Property.executes),
    triple (.blank "function") Property.object (node "minted"),
    triple (.blank "call") Property.predicateObjectMap (.blank "parameter"),
    triple (.blank "parameter") Property.predicate (node "of"),
    triple (.blank "parameter") Property.objectMap (.blank "argument"),
    triple (.blank "argument") Property.reference (.ofText "name")]

theorem anchors_calledMap : (Graph.ofQuads calledMap).anchors = [.iri "http://ex.org/people"] := by
  have hsourced : (Graph.ofQuads calledMap).sourced = [.iri "http://ex.org/people"] := by
    decide +kernel
  rw [Graph.anchors, hsourced, List.mergeSort_singleton]

/-- The argument of the function is reached from the map through the call. -/
theorem known_calledMap :
    (∃ doc, decode "" none calledMap = .ok doc) ∧
      (∀ q ∈ calledMap, q.graph = none ∧ Known q) ∧
      ∃ n, IsAnchor calledMap n ∧
        Relation.ReflTransGen (HasPart calledMap) n (.blank "argument") := by
  have hok : (decode "" none calledMap).isOk = true := by
    unfold decode decodeWithin
    simp only [anchors_calledMap]
    decide +kernel
  obtain ⟨doc, hdoc⟩ : ∃ doc, decode "" none calledMap = .ok doc := by
    cases h : decode "" none calledMap with
    | ok doc => exact ⟨doc, rfl⟩
    | error e =>
      rw [h] at hok
      cases hok
  have hall := known_of_decode_eq_ok hdoc
  refine ⟨⟨doc, hdoc⟩, fun q hq => ⟨(hall q hq).1, (hall q hq).2.1⟩, ?_⟩
  have hmem : (⟨.blank "argument", .iri Property.reference, .ofText "name", none⟩ : Quad) ∈
      calledMap := by decide +kernel
  exact (hall _ hmem).2.2

end RdfMapping.RuleGraph
