/-
# Decoding the same triples in another order

Two graphs with the same triples are decoded side by side.  Their order decides in which order edges
are visited, but not whether something is wrong.  `Follows` says this for a part of the decoder.
-/
import RdfMapping.Proofs.Decoding.Entries
import RdfMapping.Proofs.Mapping.Reordering

namespace RdfMapping.RuleGraph

open Mapping
open Rdf (Term Quad)

variable {g g' : Graph} {es es' : List Edge} {e e' : Edge} {v : Value} {xs : List FunctionEntry}
  {functionAt : Term → String → Trial Value}

/-! ## Runs that follow each other -/

/-- Both values are there and related. -/
def Present {α β : Type} (R : α → β → Prop) : Option α → Option β → Prop
  | some a, some b => R a b
  | _, _ => False

theorem present_iff {α β : Type} {R : α → β → Prop} {x : Option α} {y : Option β} :
    Present R x y ↔ ∃ a b, x = some a ∧ y = some b ∧ R a b := by
  cases x <;> cases y <;> simp [Present]

/-- If a decoding is clean, so is the other, with a related value. -/
def Follows {α β : Type} (g g' : Graph) (R : α → β → Prop) (x : Decoding α) (y : Decoding β) :
    Prop :=
  Clean x.notes →
    Clean y.notes ∧ R x.value y.value ∧ ∀ q, Uses g x.notes q → Uses g' y.notes q

namespace Follows

variable {α β γ δ : Type} {g g' : Graph} {R : α → β → Prop} {S : γ → δ → Prop} {a : α} {b : β}
  {x : Decoding α} {y : Decoding β} {c : Context} {f : Flaw} {path : String} {xs : List (Trial α)}
  {ys : List (Trial β)}

theorem pure (h : R a b) : Follows g g' R (Pure.pure a : Decoding α) (Pure.pure b : Decoding β) :=
  fun _ => ⟨clean_nil, h, fun _ hq => absurd hq not_uses_nil⟩

theorem ofTrial (h : R a b) :
    Follows g g' (Present R) (Pure.pure a : Trial α).run (Pure.pure b : Trial β).run :=
  fun _ => ⟨clean_nil, h, fun _ hq => absurd hq not_uses_nil⟩

theorem bind {k : α → Decoding γ} {l : β → Decoding δ} (hx : Follows g g' R x y)
    (hk : ∀ a b, R a b → Follows g g' S (k a) (l b)) : Follows g g' S (x >>= k) (y >>= l) := by
  intro hclean
  rw [Logged.notes_bind, clean_append] at hclean
  obtain ⟨hy, hR, hu⟩ := hx hclean.1
  obtain ⟨hl, hS, hv⟩ := hk _ _ hR hclean.2
  refine ⟨?_, hS, fun q hq => ?_⟩
  · rw [Logged.notes_bind, clean_append]
    exact ⟨hy, hl⟩
  · rw [Logged.notes_bind, uses_append] at hq ⊢
    exact hq.imp (hu q) (hv q)

theorem andThen {x : Trial α} {y : Trial β} {k : α → Trial γ} {l : β → Trial δ}
    (hx : Follows g g' (Present R) x.run y.run)
    (hk : ∀ a b, R a b → Follows g g' (Present S) (k a).run (l b).run) :
    Follows g g' (Present S) (x >>= k).run (y >>= l).run := by
  rw [Attempt.run_bind, Attempt.run_bind]
  refine bind hx fun a b hab => ?_
  obtain ⟨a, b, rfl, rfl, hab⟩ := present_iff.1 hab
  exact hk a b hab

theorem lift (hx : Follows g g' R x y) :
    Follows g g' (Present R) (liftM x : Trial α).run (liftM y : Trial β).run := by
  rw [Attempt.run_lift, Attempt.run_lift]
  exact bind hx fun a b hab => pure hab

/-- Nothing has to follow a run that finds a flaw. -/
theorem of_flaw {d : Diagnostic} (h : Finding.flaw d ∈ x.notes) : Follows g g' R x y :=
  fun hx => absurd (hx _ h) (by simp [Finding.isClean])

theorem refuse {T : Option α → β → Prop} : Follows g g' T (c.refuse f path : Trial α).run y :=
  of_flaw (List.mem_singleton.2 rfl)

theorem note {k : Unit → Decoding α} : Follows g g' R (c.note f path >>= k) y :=
  of_flaw (List.mem_append_left _ (List.mem_singleton.2 rfl))

/-! ## Lists of parts -/

/-- Parts may be decoded in another order. -/
theorem each {xs : List (Decoding α)} {ys : List (Decoding β)}
    (h : Reordered (Follows g g' R) xs ys) :
    Follows g g' (Reordered R) (Logged.each xs) (Logged.each ys) := by
  unfold Follows
  rw [Logged.notes_each, Logged.notes_each, Logged.value_each, Logged.value_each]
  induction h with
  | nil => exact fun _ => ⟨clean_nil, .nil, fun _ hq => absurd hq not_uses_nil⟩
  | @cons x y xs before after hxy _ ih =>
    intro hclean
    rw [List.flatMap_cons, clean_append] at hclean
    obtain ⟨hy, hR, hu⟩ := hxy hclean.1
    obtain ⟨hys, hRs, hus⟩ := ih hclean.2
    rw [List.flatMap_append, clean_append] at hys
    rw [List.map_append] at hRs
    refine ⟨?_, ?_, ?_⟩
    · rw [List.flatMap_append, List.flatMap_cons, clean_append, clean_append]
      exact ⟨hys.1, hy, hys.2⟩
    · rw [List.map_append, List.map_cons, List.map_cons]
      exact .cons hR hRs
    · intro q hq
      rw [List.flatMap_cons, uses_append] at hq
      rw [List.flatMap_append, List.flatMap_cons, uses_append, uses_append]
      rcases hq with hq | hq
      · exact .inr (.inl (hu q hq))
      · have hq' := hus q hq
        rw [List.flatMap_append, uses_append] at hq'
        exact hq'.imp_right .inr

/-- The parts that could be had are all parts if nothing is wrong. -/
theorem those (h : Reordered (fun x y => Follows g g' (Present R) x.run y.run) xs ys) :
    Follows g g' (Reordered R) (Logged.those xs) (Logged.those ys) := by
  have heach := each (h.map (S := Follows g g' (Present R))
    (f := fun x : Trial α => x.run) (k := fun y : Trial β => y.run) fun _ _ hxy => hxy)
  intro hclean
  have hnotes {ι : Type} (zs : List (Trial ι)) :
      (Logged.those zs).notes = (Logged.each (zs.map fun z => z.run)).notes := by
    rw [Logged.notes_those, Logged.notes_each, List.flatMap_map]
  have hvalue {ι : Type} (zs : List (Trial ι)) :
      (Logged.those zs).value = (Logged.each (zs.map fun z => z.run)).value.filterMap id := by
    rw [Logged.value_those, Logged.value_each, List.map_map, List.filterMap_map]
    rfl
  rw [hnotes] at hclean
  obtain ⟨hy, hR, hq⟩ := heach hclean
  rw [hnotes, hnotes, hvalue, hvalue]
  refine ⟨hy, hR.filterMap ?_, hq⟩
  intro a b hab
  obtain ⟨a, b, rfl, rfl, hab⟩ := present_iff.1 hab
  exact .some hab

/-- Parts that are all needed may be decoded in another order. -/
theorem all (h : Reordered (fun x y => Follows g g' (Present R) x.run y.run) xs ys) :
    Follows g g' (Present (Reordered R)) (Attempt.all xs).run (Attempt.all ys).run := by
  have hall {ι : Type} (zs : List (Trial ι)) (hz : ∀ z ∈ zs, ∃ a, z.run.value = some a) :
      (Attempt.all zs).run.value = some (Logged.those zs).value := by
    rw [Attempt.value_all, Logged.value_those]
    induction zs with
    | nil => rfl
    | cons z rest ih =>
      obtain ⟨a, ha⟩ := hz z (List.mem_cons_self ..)
      rw [List.mapM_cons, ha, ih fun z hz' => hz z (List.mem_cons_of_mem _ hz'),
        List.filterMap_cons, ha]
      rfl
  have hnotes {ι : Type} (zs : List (Trial ι)) :
      (Attempt.all zs).run.notes = (Logged.those zs).notes := by
    rw [Attempt.notes_all, Logged.notes_those]
  intro hclean
  rw [hnotes] at hclean
  obtain ⟨hy, hR, hq⟩ := those h hclean
  -- a part with nothing wrong in it has a value
  have hx : ∀ x ∈ xs, Clean x.run.notes := by
    intro x hx f hf
    refine hclean f ?_
    rw [Logged.notes_those]
    exact List.mem_flatMap.2 ⟨x, hx, hf⟩
  have hxs : ∀ x ∈ xs, ∃ a, x.run.value = some a := by
    intro x hmem
    obtain ⟨y, -, hxy⟩ := h.exists_of_mem_left hmem
    obtain ⟨a, b, ha, -, -⟩ := present_iff.1 (hxy (hx x hmem)).2.1
    exact ⟨a, ha⟩
  have hys : ∀ y ∈ ys, ∃ b, y.run.value = some b := by
    intro y hmem
    obtain ⟨x, hmem', hxy⟩ := h.exists_of_mem_right hmem
    obtain ⟨a, b, -, hb, -⟩ := present_iff.1 (hxy (hx x hmem')).2.1
    exact ⟨b, hb⟩
  rw [hnotes, hnotes, hall xs hxs, hall ys hys]
  exact ⟨hy, hR, hq⟩

end Follows

/-! ## Edges of both graphs -/

/-- Edges that are the same triple of two graphs. -/
structure Edge.Alike (g g' : Graph) (e e' : Edge) : Prop where
  triple : g.triples[e.number]? = g'.triples[e'.number]?
  property : e.property = e'.property
  object : e.object = e'.object

/-- The property and object of a quad for a subject and properties. -/
def arrow? (s : Term) (ps : List String) (q : Quad) : Option (Option Quad × String × Term) := do
  let p ← q.predicate.iri?
  if q.subject = s && ps.contains p then some (some q, p, q.object) else none

/-- The edges of a node, read off the triples. -/
theorem Graph.map_edges (g : Graph) (n : Term) (ps : List String) :
    (g.edges n ps).map (fun e => (g.triples[e.number]?, e.property, e.object)) =
      g.triples.filterMap (arrow? n ps) := by
  have hpoint : ∀ t ∈ g.triples.zipIdx,
      (Graph.edge? n ps t).map (fun e => (g.triples[e.number]?, e.property, e.object)) =
        arrow? n ps t.1 := by
    rintro ⟨q, i⟩ ht
    rw [List.mem_zipIdx_iff_getElem?] at ht
    unfold Graph.edge? arrow?
    cases q.predicate.iri? with
    | none => rfl
    | some p =>
      by_cases hq : (q.subject = n && ps.contains p) = true
      · simp only [Option.bind_eq_bind, Option.bind_some, hq, if_true, Option.map_some]
        rw [ht]
      · simp only [Option.bind_eq_bind, Option.bind_some, hq]
        simp
  have hzip : g.triples.filterMap (arrow? n ps) =
      g.triples.zipIdx.filterMap fun t => arrow? n ps t.1 := by
    conv_lhs => rw [← List.zipIdx_map_fst 0 g.triples]
    rw [List.filterMap_map]
    rfl
  rw [Graph.edges, List.map_filterMap, hzip]
  exact List.filterMap_congr hpoint

/-- The edges of a node in both graphs can be paired off. -/
theorem Graph.edges_reordered (h : g.triples.Perm g'.triples) (n : Term) (ps : List String) :
    Reordered (Edge.Alike g g') (g.edges n ps) (g'.edges n ps) := by
  have hperm : ((g.edges n ps).map fun e => (g.triples[e.number]?, e.property, e.object)).Perm
      ((g'.edges n ps).map fun e => (g'.triples[e.number]?, e.property, e.object)) := by
    rw [g.map_edges, g'.map_edges]
    exact h.filterMap _
  refine (Reordered.of_perm_map hperm).mono fun e e' hee => ?_
  simp only [Prod.mk.injEq] at hee
  exact ⟨hee.1, hee.2.1, hee.2.2⟩

/-- Contexts with the same triples and identifiers related by `ρ`. -/
structure Context.Reorders (ρ : String → String → Prop) (c c' : Context) : Prop where
  triples : c.graph.triples.Perm c'.graph.triples
  ids : ∀ n id, c.ids.lookup n = some id → ∃ id', c'.ids.lookup n = some id' ∧ ρ id id'

/-! ## Sources, joins and constants -/

namespace Follows

section Parts

variable {ρ : String → String → Prop} {c c' : Context} {n : Term} {path path' : String}

/-- Edges are used if edges alike are. -/
theorem use (h : ∀ e ∈ es, ∃ e' ∈ es', Edge.Alike g g' e e') :
    Follows g g' (fun _ _ => True) (Context.use es) (Context.use es') := by
  intro _
  refine ⟨?_, trivial, ?_⟩
  · intro f hf
    obtain ⟨e, -, rfl⟩ := List.mem_map.1 hf
    rfl
  · rintro q ⟨i, hi, hq⟩
    obtain ⟨e, he, hei⟩ := List.mem_map.1 hi
    cases hei
    obtain ⟨e', he', hee⟩ := h e he
    exact ⟨e'.number, List.mem_map.2 ⟨e', he', rfl⟩, hee.triple ▸ hq⟩

theorem use_one (h : Edge.Alike g g' e e') :
    Follows g g' (fun _ _ => True) (Context.use [e]) (Context.use [e']) :=
  use fun a ha => ⟨e', List.mem_singleton.2 rfl, by rwa [List.mem_singleton.1 ha]⟩

theorem use_filter (p : Term → Bool) (h : Reordered (Edge.Alike g g') es es') :
    Follows g g' (fun _ _ => True) (Context.use (es.filter fun e => p e.object))
      (Context.use (es'.filter fun e => p e.object)) := by
  refine use fun e he => ?_
  rw [List.mem_filter] at he
  obtain ⟨e', he', hee⟩ := h.exists_of_mem_left he.1
  exact ⟨e', List.mem_filter.2 ⟨he', hee.object ▸ he.2⟩, hee⟩

theorem take (h : c.Reorders ρ c') (ps : List String) :
    Follows c.graph c'.graph (Reordered (Edge.Alike c.graph c'.graph)) (c.take n ps)
      (c'.take n ps) :=
  bind (use fun _ he => (Graph.edges_reordered h.triples n ps).exists_of_mem_left he)
    fun _ _ _ => pure (Graph.edges_reordered h.triples n ps)

theorem takeTypes (h : c.Reorders ρ c') (classes : List String) :
    Follows c.graph c'.graph (fun _ _ => True) (c.takeTypes n classes)
      (c'.takeTypes n classes) :=
  use_filter (fun o => o.iri?.any classes.contains)
    (Graph.edges_reordered h.triples n [rdfType])

/-- A property is read alike, since a node has it once. -/
theorem property (h : c.Reorders ρ c') (read : Term → Option String) (ps : List String) :
    Follows c.graph c'.graph Eq (c.property read n path ps) (c'.property read n path' ps) := by
  have hr := Graph.edges_reordered h.triples n ps
  unfold Context.property
  revert hr
  generalize c.graph.edges n ps = es
  generalize c'.graph.edges n ps = es'
  intro hr
  rcases es with _ | ⟨e, _ | ⟨e₂, rest⟩⟩
  · rw [hr.eq_nil]
    exact pure rfl
  · obtain ⟨e', rfl, he⟩ := hr.eq_singleton
    simp only [he.object]
    cases read e'.object with
    | none => exact pure rfl
    | some text => exact bind (use_one he) fun _ _ _ => pure rfl
  · exact note

theorem takeNode (h : c.Reorders ρ c') (role : Role) (links : List String) :
    Follows c.graph c'.graph (Present fun _ _ => True) (takeNode c role links n path).run
      (takeNode c' role links n path').run := by
  have hreferrers : c.graph.referrers n links = c'.graph.referrers n links :=
    h.triples.countP_eq _
  unfold RuleGraph.takeNode
  rw [hreferrers]
  split
  · exact refuse
  · split
    · exact refuse
    · exact ofTrial trivial

theorem decodeSourceParts (h : c.Reorders ρ c') :
    Follows c.graph c'.graph Eq (decodeSourceParts c n) (decodeSourceParts c' n) := by
  unfold RuleGraph.decodeSourceParts
  refine bind (takeTypes h _) fun _ _ _ => ?_
  refine bind (property h _ _) fun access _ ha => ?_
  refine bind (property h _ _) fun formulation _ hf => ?_
  refine bind (property h _ _) fun iterator _ hi => ?_
  refine bind (property h _ _) fun table _ ht => ?_
  refine bind (property h _ _) fun query _ hq => ?_
  refine bind (property h _ _) fun version _ hv => ?_
  subst ha hf hi ht hq hv
  exact pure rfl

theorem plain_decodeSourceParts : Plain (RuleGraph.decodeSourceParts c n) := by
  unfold RuleGraph.decodeSourceParts
  refine Plain.bind (Plain.takeTypes _) ?_
  iterate 6 refine Plain.bind (Plain.property _ _) ?_
  exact Plain.pure _

/-- The notes on a source say what those on its parts say. -/
theorem notes_decodeSource (hn : n.isNode = true) :
    (Clean (RuleGraph.decodeSource c n).notes ↔ Clean (RuleGraph.decodeSourceParts c n).notes) ∧
      ∀ g q, Uses g (RuleGraph.decodeSource c n).notes q ↔
        Uses g (RuleGraph.decodeSourceParts c n).notes q := by
  unfold RuleGraph.decodeSource
  rw [if_pos hn]
  have hplain := plain_decodeSourceParts (c := c) (n := n)
  generalize RuleGraph.decodeSourceParts c n = parts at hplain
  have hused (i : Nat) : Finding.used i ∈ (Finding.source n (parts.notes.filterMap Finding.flaw?) ::
      (parts.notes.filterMap Finding.used?).map .used) ↔ Finding.used i ∈ parts.notes := by
    simp only [List.mem_cons, reduceCtorEq, false_or, List.mem_map, List.mem_filterMap]
    constructor
    · rintro ⟨j, ⟨f, hf, hfj⟩, hji⟩
      cases hji
      cases f <;> simp [Finding.used?] at hfj
      exact hfj ▸ hf
    · exact fun h => ⟨i, ⟨_, h, rfl⟩, rfl⟩
  refine ⟨⟨fun hclean f hf => ?_, fun hclean f hf => ?_⟩, fun g q => ?_⟩
  · cases f with
    | used i => rfl
    | flaw d =>
      have hsource := hclean _ (List.mem_cons_self ..)
      rw [Finding.isClean, List.isEmpty_iff, List.filterMap_eq_nil_iff] at hsource
      exact absurd (hsource _ hf) (by simp [Finding.flaw?])
    | source node flaws | endless => exact absurd (hplain _ hf) (by simp [Finding.isPlain])
  · rcases List.mem_cons.1 hf with rfl | hf
    · rw [Finding.isClean, List.isEmpty_iff, List.filterMap_eq_nil_iff]
      intro f hf
      cases f with
      | flaw d => exact absurd (hclean _ hf) (by simp [Finding.isClean])
      | used i | source node flaws | endless => rfl
    · obtain ⟨i, -, rfl⟩ := List.mem_map.1 hf
      rfl
  · unfold Uses
    simp only [hused]

/-- Sources are decoded alike. -/
theorem decodeSource (h : c.Reorders ρ c') :
    Follows c.graph c'.graph Eq (decodeSource c n) (decodeSource c' n) := by
  by_cases hn : n.isNode = true
  · obtain ⟨hclean, huses⟩ := notes_decodeSource (c := c) hn
    obtain ⟨hclean', huses'⟩ := notes_decodeSource (c := c') hn
    intro hx
    obtain ⟨hy, heq, hq⟩ := decodeSourceParts h (hclean.1 hx)
    refine ⟨hclean'.2 hy, ?_, fun q hu => (huses' _ q).2 (hq q ((huses _ q).1 hu))⟩
    unfold RuleGraph.decodeSource
    rw [if_pos hn, if_pos hn]
    exact heq
  · unfold RuleGraph.decodeSource
    rw [if_neg hn]
    exact note

theorem decodeCondition (h : c.Reorders ρ c') :
    Follows c.graph c'.graph (Present Eq) (decodeCondition c n path).run
      (decodeCondition c' n path').run := by
  unfold RuleGraph.decodeCondition
  refine andThen (takeNode h _ _) fun _ _ _ => andThen (lift (takeTypes h _)) fun _ _ _ => ?_
  refine andThen (lift (property h _ _)) fun child _ hchild => ?_
  refine andThen (lift (property h _ _)) fun parent _ hparent => ?_
  subst hchild hparent
  split
  · exact refuse
  · exact ofTrial rfl

/-- Joins keep their parents and conditions up to order. -/
theorem decodeJoin (h : c.Reorders ρ c') (parent : Term) :
    Follows c.graph c'.graph (Present (Value.Alike ρ)) (decodeJoin c n parent path).run
      (decodeJoin c' n parent path').run := by
  unfold RuleGraph.decodeJoin
  cases hid : c.ids.lookup parent with
  | none => exact refuse
  | some id =>
    obtain ⟨id', hid', hρ⟩ := h.ids parent id hid
    rw [hid']
    refine andThen (lift (take h _)) fun es es' hes => ?_
    refine andThen (all (R := Eq) (hes.mapIdx fun i j e e' he => ?_))
      fun conditions conditions' hcs => ?_
    · rw [he.object]
      exact decodeCondition h
    · rw [Reordered.eq_iff_perm] at hcs
      rw [hcs.isEmpty_eq]
      split
      · exact refuse
      · refine ofTrial ?_
        rw [Value.Alike]
        exact ⟨hρ, hcs⟩

theorem decodeConstant (t : Term) :
    Follows g g' (Present Eq) (decodeConstant c t path).run (decodeConstant c' t path').run := by
  unfold RuleGraph.decodeConstant
  split
  · exact ofTrial rfl
  · exact refuse

/-- The kind that is stated is the same. -/
theorem decodeStated (h : c.Reorders ρ c') :
    Follows c.graph c'.graph (Present Eq) (decodeStated c n path).run
      (decodeStated c' n path').run := by
  have hr := Graph.edges_reordered h.triples n [Property.termType]
  unfold RuleGraph.decodeStated
  revert hr
  generalize c.graph.edges n [Property.termType] = es
  generalize c'.graph.edges n [Property.termType] = es'
  intro hr
  rcases es with _ | ⟨e, _ | ⟨e₂, rest⟩⟩
  · rw [hr.eq_nil]
    exact ofTrial rfl
  · obtain ⟨e', rfl, he⟩ := hr.eq_singleton
    simp only [he.object]
    cases kindOf? e'.object with
    | none => exact refuse
    | some kind => exact andThen (lift (use_one he)) fun _ _ _ => ofTrial rfl
  · exact refuse

/-! ## Term maps -/

theorem tagConstant (term : Constant) (datatype language : String) :
    Follows g g' (Present Eq) (tagConstant c term datatype language path).run
      (tagConstant c' term datatype language path').run := by
  unfold RuleGraph.tagConstant
  split
  · exact ofTrial rfl
  · split
    · exact refuse
    · exact ofTrial rfl

/-- The kind of terms that is meant is decided by the sort of value. -/
theorem defaultTermType_eq_of_alike {position : Position} {w : Value} (h : v.Alike ρ w)
    {t u : TermType} {d l : String} :
    defaultTermType position { value := some v, termType := t, datatype := d, language := l } =
      defaultTermType position
        { value := some w, termType := u, datatype := d, language := l } := by
  cases v <;> cases w <;>
    simp_all [Value.Alike, defaultTermType, TermMap.isTagged]

/-- What is stated beside a value is the same. -/
theorem decodeAttributes (h : c.Reorders ρ c') (position : Position) {w : Value}
    (hvw : v.Alike ρ w) :
    Follows c.graph c'.graph (Present (TermMap.Alike ρ))
      (decodeAttributes c position n v path).run
      (decodeAttributes c' position n w path').run := by
  unfold RuleGraph.decodeAttributes
  refine andThen (decodeStated h) fun stated _ hs => ?_
  refine andThen (lift (property h _ _)) fun datatype _ hd => ?_
  refine andThen (lift (property h _ _)) fun language _ hl => ?_
  subst hs hd hl
  cases v with
  | constant a =>
    cases w with
    | constant b =>
      rw [Value.Alike] at hvw
      cases hvw
      refine andThen (tagConstant _ _ _) fun term _ ht => ?_
      subst ht
      split
      · refine ofTrial ?_
        rw [TermMap.Alike, Value.Alike]
        exact ⟨rfl, rfl, rfl, rfl⟩
      · exact refuse
    | reference b | template b | function b qs | join b ds => simp [Value.Alike] at hvw
  | reference a | template a | function a ps | join a cs =>
    cases w with
    | constant b => simp [Value.Alike] at hvw
    | reference b | template b | function b qs | join b ds =>
      refine ofTrial ?_
      rw [TermMap.Alike]
      exact ⟨congrArg stated.getD (defaultTermType_eq_of_alike hvw), rfl, rfl, hvw⟩

section Functions

variable {functionAt functionAt' : Term → String → Trial Value}
  (hf : ∀ n path path', Follows c.graph c'.graph (Present (Value.Alike ρ))
    (functionAt n path).run (functionAt' n path').run)

include hf

/-- Values agree if function values do. -/
theorem decodeValue (h : c.Reorders ρ c') (he : Edge.Alike c.graph c'.graph e e') :
    Follows c.graph c'.graph (Present (Value.Alike ρ)) (decodeValue c functionAt n e path).run
      (decodeValue c' functionAt' n e' path').run := by
  unfold RuleGraph.decodeValue
  rw [he.property, he.object]
  split
  · refine andThen (decodeConstant _) fun term _ ht => ?_
    subst ht
    refine ofTrial ?_
    rw [Value.Alike]
  split
  · cases textOf? e'.object with
    | none => exact refuse
    | some pattern =>
      refine ofTrial ?_
      rw [Value.Alike]
  split
  · exact hf _ _ _
  split
  · exact decodeJoin h _
  · cases textOf? e'.object with
    | none => exact refuse
    | some name =>
      refine ofTrial ?_
      rw [Value.Alike]

/-- Term maps agree if function values do. -/
theorem decodeTermMap (h : c.Reorders ρ c') (position : Position) :
    Follows c.graph c'.graph (Present (TermMap.Alike ρ))
      (decodeTermMap c functionAt position n path).run
      (decodeTermMap c' functionAt' position n path').run := by
  have hr := Graph.edges_reordered h.triples n Property.values
  unfold RuleGraph.decodeTermMap
  refine andThen (takeNode h _ _) fun _ _ _ => andThen (lift (takeTypes h _)) fun _ _ _ => ?_
  revert hr
  generalize c.graph.edges n Property.values = es
  generalize c'.graph.edges n Property.values = es'
  intro hr
  rcases es with _ | ⟨e, _ | ⟨e₂, rest⟩⟩
  · exact refuse
  · obtain ⟨e', rfl, he⟩ := hr.eq_singleton
    refine andThen (lift (use_one he)) fun _ _ _ => ?_
    exact andThen (decodeValue hf h he) fun v w hvw => decodeAttributes h position hvw
  · exact refuse

/-- Linked term maps agree up to order. -/
theorem decodeLinked (h : c.Reorders ρ c') (position : Position) (link shortcut : String) :
    Follows c.graph c'.graph (Reordered (TermMap.Alike ρ))
      (decodeLinked c functionAt position n path link shortcut)
      (decodeLinked c' functionAt' position n path' link shortcut) := by
  refine bind (take h _) fun es es' hes => those (hes.mapIdx fun i j e e' he => ?_)
  rw [he.property, he.object]
  split
  · refine andThen (decodeConstant _) fun term _ ht => ?_
    subst ht
    refine ofTrial ?_
    rw [TermMap.ofConstant, TermMap.Alike, Value.Alike]
    exact ⟨rfl, rfl, rfl, rfl⟩
  · exact decodeTermMap hf h position

theorem decodePair (h : c.Reorders ρ c') :
    Follows c.graph c'.graph (Present (PredicateObjectMap.Alike ρ))
      (decodePair c functionAt n path).run (decodePair c' functionAt' n path').run := by
  refine andThen (takeNode h _ _) fun _ _ _ => andThen (lift (takeTypes h _)) fun _ _ _ => ?_
  refine andThen (lift (decodeLinked hf h _ _ _)) fun ps ps' hps => ?_
  refine andThen (lift (decodeLinked hf h _ _ _)) fun os os' hos => ?_
  refine andThen (lift (decodeLinked hf h _ _ _)) fun gs gs' hgs => ?_
  exact ofTrial ⟨hps, hos, hgs⟩

end Functions

/-! ## Functions -/

theorem constantIri?_eq_of_alike {a b : TermMap} (h : a.Alike ρ b) :
    constantIri? a = constantIri? b := by
  rcases a with ⟨_ | v, t, d, l, s⟩ <;> rcases b with ⟨_ | w, t', d', l', s'⟩
  · rfl
  · simp [TermMap.Alike] at h
  · simp [TermMap.Alike] at h
  · rw [TermMap.Alike] at h
    have hvw := h.2.2.2
    cases v <;> cases w <;> simp_all [Value.Alike, constantIri?]

/-- Entries that agree up to order. -/
def EntryAlike (ρ : String → String → Prop) : FunctionEntry → FunctionEntry → Prop
  | .executes f, .executes f' => f = f'
  | .parameter p, .parameter p' => p.Alike ρ p'
  | _, _ => False

/-- Alike predicate-object maps are alike as entries. -/
theorem entryOfPair_of_alike {a b : PredicateObjectMap} (h : a.Alike ρ b) {x : FunctionEntry}
    (hx : entryOfPair a = some x) : ∃ y, entryOfPair b = some y ∧ EntryAlike ρ x y := by
  obtain ⟨p, o, hps, hos, hgs⟩ := shape_of_entryOfPair hx
  obtain ⟨p', hps', hp⟩ := (hps ▸ h.predicates).eq_singleton
  obtain ⟨o', hos', ho⟩ := (hos ▸ h.objects).eq_singleton
  have hgs' : b.graphs = [] := (hgs ▸ h.graphs).eq_nil
  simp only [entryOfPair, hps, hos, hgs, hps', hos', hgs', constantIri?_eq_of_alike hp,
    constantIri?_eq_of_alike ho] at hx ⊢
  split at hx
  · cases hx
  · next iri hiri =>
    split at hx
    · next hne =>
      cases hx
      rw [if_pos hne]
      exact ⟨_, rfl, rfl, ho⟩
    · next hne =>
      rw [if_neg hne]
      obtain ⟨f, hf, rfl⟩ := Option.map_eq_some_iff.1 hx
      rw [hf]
      exact ⟨_, rfl, rfl⟩

/-- Entries are found alike in any order. -/
theorem mapM_entryOfPair_of_reordered {poms poms' : List PredicateObjectMap}
    (h : Reordered (PredicateObjectMap.Alike ρ) poms poms')
    (hxs : poms.mapM entryOfPair = some xs) :
    ∃ xs', poms'.mapM entryOfPair = some xs' ∧ Reordered (EntryAlike ρ) xs xs' := by
  induction h generalizing xs with
  | nil =>
    cases hxs
    exact ⟨[], rfl, .nil⟩
  | @cons a b l before after hab _ ih =>
    obtain ⟨x, ys, hx, hys, rfl⟩ := mapM_entryOfPair_cons.1 hxs
    obtain ⟨y, hy, hxy⟩ := entryOfPair_of_alike hab hx
    obtain ⟨xs', hxs', hre⟩ := ih hys
    rw [List.mapM_append] at hxs'
    simp only [Option.bind_eq_bind, Option.bind_eq_some_iff, Option.pure_def,
      Option.some.injEq] at hxs'
    obtain ⟨us, hus, vs, hvs, rfl⟩ := hxs'
    refine ⟨us ++ y :: vs, ?_, .cons hxy hre⟩
    rw [List.mapM_append, List.mapM_cons, hus, hy, hvs]
    rfl

theorem functionsOf_of_reordered {xs' : List FunctionEntry} (h : Reordered (EntryAlike ρ) xs xs') :
    (functionsOf xs).Perm (functionsOf xs') := by
  rw [← Reordered.eq_iff_perm]
  refine h.filterMap fun x y hxy => ?_
  cases x <;> cases y <;> simp_all [EntryAlike, FunctionEntry.executes?]

theorem parametersOf_of_reordered {xs' : List FunctionEntry} (h : Reordered (EntryAlike ρ) xs xs') :
    Reordered (Parameter.Alike ρ) (parametersOf xs) (parametersOf xs') := by
  refine h.filterMap fun x y hxy => ?_
  cases x <;> cases y <;> simp_all [EntryAlike, FunctionEntry.parameter?]

theorem forall₂_decodeEntryPairs (c : Context) (functionAt : Term → String → Trial Value)
    (path : String) (es : List Edge) :
    ∀ i, List.Forall₂ (fun e x => ∃ here, x = RuleGraph.decodePair c functionAt e.object here) es
      (decodeEntryPairs c functionAt path i es) := by
  induction es with
  | nil => exact fun _ => .nil
  | cons e rest ih => exact fun i => .cons ⟨_, rfl⟩ (ih (i + 1))

/-- Functions are not named by the empty IRI if no object is. -/
theorem entryOfPair_ne_executes {i : Nat} {poms : List PredicateObjectMap}
    (hfun : ∀ n path v, (functionAt n path).run.value = some v → v.isConstant = false)
    (hne : ∀ q ∈ c.graph.triples, q.object ≠ .iri "")
    (h : (Attempt.all (decodeEntryPairs c functionAt path i es)).run.value = some poms) :
    ∀ pom ∈ poms, entryOfPair pom ≠ some (.executes "") := by
  induction es generalizing i poms with
  | nil =>
    cases h
    exact fun _ hpom => absurd hpom List.not_mem_nil
  | cons e rest ih =>
    obtain ⟨pom, poms', hpom, hrest, rfl⟩ := value_all_cons h
    rintro p (_ | ⟨_, hp⟩) hexe
    · obtain ⟨q, hq, ho⟩ := exists_object_of_executes hfun hpom hexe
      exact hne q hq ho
    · exact ih hrest p hp hexe

section Entries

variable (h : c.Reorders ρ c') (hne : ∀ q ∈ c.graph.triples, q.object ≠ .iri "")
  {functionAt' : Term → String → Trial Value}
  (hf : ∀ n path path', Follows c.graph c'.graph (Present (Value.Alike ρ))
    (functionAt n path).run (functionAt' n path').run)
  (hfun : ∀ n path v, (functionAt n path).run.value = some v → v.isConstant = false)
  (hfun' : ∀ n path v, (functionAt' n path).run.value = some v → v.isConstant = false)

include h hne hf hfun hfun'

/-- Entries of a function may come in another order. -/
theorem decodeEntries
    (hes : Reordered (Edge.Alike c.graph c'.graph) es es') :
    Follows c.graph c'.graph
      (Present fun r r' => r.1 = r'.1 ∧ Reordered (Parameter.Alike ρ) r.2 r'.2)
      (decodeEntries c functionAt path 0 "" es).run
      (decodeEntries c' functionAt' path' 0 "" es').run := by
  have hpairs : Follows c.graph c'.graph (Present (Reordered (PredicateObjectMap.Alike ρ)))
      (Attempt.all (decodeEntryPairs c functionAt path 0 es)).run
      (Attempt.all (decodeEntryPairs c' functionAt' path' 0 es')).run := by
    refine all (hes.transport ?_ (forall₂_decodeEntryPairs c functionAt path es 0)
      (forall₂_decodeEntryPairs c' functionAt' path' es' 0))
    rintro e e' _ _ he ⟨here, rfl⟩ ⟨here', rfl⟩
    rw [he.object]
    exact decodePair hf h
  have hne' : ∀ q ∈ c'.graph.triples, q.object ≠ .iri "" := fun q hq =>
    hne q (h.triples.symm.subset hq)
  intro hclean
  obtain ⟨hclean', hpresent, huses⟩ := hpairs fun f hf => hclean f (notes_pairs_subset es 0 "" hf)
  obtain ⟨poms, poms', hpoms, hpoms', hre⟩ := present_iff.1 hpresent
  have hno := entryOfPair_ne_executes hfun hne hpoms
  have hno' := entryOfPair_ne_executes hfun' hne' hpoms'
  obtain ⟨xs, hxs, hlen⟩ := exists_entries_of_clean es hpoms hno hclean
  obtain ⟨xs', hxs', hrexs⟩ := mapM_entryOfPair_of_reordered hre hxs
  have hnames := functionsOf_of_reordered hrexs
  -- one name at most, so its place does not matter
  have hnameseq : functionsOf xs = functionsOf xs' := by
    rw [namedSoFar, if_pos rfl, List.nil_append] at hlen
    revert hlen hnames
    rcases functionsOf xs with _ | ⟨f, _ | ⟨f₂, rest⟩⟩ <;> intro hlen hnames
    · exact hnames.nil_eq
    · exact (List.perm_singleton.1 hnames.symm).symm
    · simp at hlen
  have hlen' : (namedSoFar "" ++ functionsOf xs').length ≤ 1 := hnameseq ▸ hlen
  obtain ⟨hv, hn⟩ := decodeEntries_of_entries es hpoms hno hxs hlen
  obtain ⟨hv', hn'⟩ := decodeEntries_of_entries es' hpoms' hno' hxs' hlen'
  rw [hv, hn, hv', hn']
  exact ⟨hclean', ⟨by rw [hnameseq], parametersOf_of_reordered hrexs⟩, huses⟩

/-- Function values agree if those inside them do. -/
theorem decodeFunction :
    Follows c.graph c'.graph (Present (Value.Alike ρ)) (decodeFunction c functionAt n path).run
      (decodeFunction c' functionAt' n path').run := by
  refine andThen (takeNode h _ _) fun _ _ _ => andThen (lift (takeTypes h _)) fun _ _ _ => ?_
  refine andThen (lift (take h _)) fun sources sources' hsources => ?_
  refine andThen (lift (each (R := Eq) (hsources.map fun e e' he => ?_))) fun _ _ _ => ?_
  · rw [he.object]
    exact decodeSource h
  refine andThen (lift (take h _)) fun es es' hes => ?_
  refine andThen (decodeEntries h hne hf hfun hfun' hes) fun r r' hr => ?_
  obtain ⟨name, parameters⟩ := r
  obtain ⟨name', parameters'⟩ := r'
  obtain ⟨rfl, hps⟩ := hr
  dsimp only
  split
  · exact refuse
  · refine ofTrial ?_
    rw [Value.Alike]
    exact ⟨rfl, Parameter.alikeAll_iff.2 hps⟩

end Entries

/-- A function value is no constant. -/
theorem isConstant_functionWithin {d : Nat}
    (h : (RuleGraph.functionWithin c d n path).run.value = some v) : v.isConstant = false := by
  cases d with
  | zero => cases h
  | succ d =>
    rw [RuleGraph.functionWithin, RuleGraph.decodeFunction, Attempt.value_bind,
      Option.bind_eq_some_iff] at h
    obtain ⟨_, -, h⟩ := h
    iterate 4 rw [Attempt.value_bind, Attempt.value_lift, Option.bind_some] at h
    rw [Attempt.value_bind, Option.bind_eq_some_iff] at h
    obtain ⟨⟨name, parameters⟩, -, h⟩ := h
    dsimp only at h
    split at h
    · cases h
    · cases h
      rfl

/-- **Function values agree up to order**, whatever depth is allowed. -/
theorem functionWithin (h : c.Reorders ρ c') (hne : ∀ q ∈ c.graph.triples, q.object ≠ .iri "")
    (d : Nat) : ∀ n path path', Follows c.graph c'.graph (Present (Value.Alike ρ))
      (functionWithin c d n path).run (functionWithin c' d n path').run := by
  induction d with
  | zero =>
    intro n path path' hclean
    exact absurd (hclean _ (List.mem_singleton.2 rfl)) (by simp [Finding.isClean])
  | succ d ih =>
    exact fun n path path' => decodeFunction h hne ih (fun _ _ _ => isConstant_functionWithin)
      fun _ _ _ => isConstant_functionWithin

/-! ## Triples maps -/

/-- Classes are the same up to order. -/
theorem decodeClasses (h : c.Reorders ρ c') :
    Follows c.graph c'.graph List.Perm (decodeClasses c n) (decodeClasses c' n) := by
  have hr := Graph.edges_reordered h.triples n [Property.classOf]
  refine bind (use_filter (fun o => o.iri?.isSome) hr) fun _ _ _ => pure ?_
  have hiris (es : List Edge) :
      (es.filter fun e => e.object.iri?.isSome).filterMap (fun e => e.object.iri?) =
        es.filterMap fun e => e.object.iri? := by
    rw [List.filterMap_filter]
    refine List.filterMap_congr fun e _ => ?_
    cases e.object.iri? <;> simp
  rw [hiris, hiris, ← Reordered.eq_iff_perm]
  refine hr.filterMap fun e e' he => ?_
  rw [he.object]
  cases e'.object.iri? with
  | none => exact .none
  | some iri => exact .some rfl

section Maps

variable {functionAt functionAt' : Term → String → Trial Value}
  (hf : ∀ n path path', Follows c.graph c'.graph (Present (Value.Alike ρ))
    (functionAt n path).run (functionAt' n path').run)

include hf

/-- Subject maps agree if function values do. -/
theorem decodeSubject (h : c.Reorders ρ c') (he : Edge.Alike c.graph c'.graph e e') :
    Follows c.graph c'.graph (Present (SubjectMap.Alike ρ)) (decodeSubject c functionAt e).run
      (decodeSubject c' functionAt' e').run := by
  have hreferrers : c.graph.referrers e'.object [Property.subjectMap] =
      c'.graph.referrers e'.object [Property.subjectMap] := h.triples.countP_eq _
  unfold RuleGraph.decodeSubject
  rw [he.property, he.object, hreferrers]
  split
  · refine andThen (decodeConstant _) fun term _ ht => ?_
    subst ht
    refine ofTrial ⟨?_, .nil, .nil⟩
    rw [TermMap.ofConstant, TermMap.Alike, Value.Alike]
    exact ⟨rfl, rfl, rfl, rfl⟩
  · split
    · exact refuse
    · refine andThen (decodeTermMap hf h _) fun term term' hterm => ?_
      refine andThen (lift (decodeClasses h)) fun classes classes' hclasses => ?_
      refine andThen (lift (decodeLinked hf h _ _ _)) fun graphs graphs' hgraphs => ?_
      exact ofTrial ⟨hterm, hclasses, hgraphs⟩

theorem decodeOwnSubject (h : c.Reorders ρ c') :
    Follows c.graph c'.graph (Present (SubjectMap.Alike ρ)) (decodeOwnSubject c functionAt n)
      (decodeOwnSubject c' functionAt' n) := by
  refine bind (take h _) fun es es' hes => ?_
  rcases es with _ | ⟨e, _ | ⟨e₂, rest⟩⟩
  · exact note
  · obtain ⟨e', rfl, he⟩ := hes.eq_singleton
    exact decodeSubject hf h he
  · exact note

theorem decodePairs (h : c.Reorders ρ c') :
    Follows c.graph c'.graph (Reordered (PredicateObjectMap.Alike ρ)) (decodePairs c functionAt n)
      (decodePairs c' functionAt' n) := by
  refine bind (take h _) fun es es' hes => those (hes.mapIdx fun i j e e' he => ?_)
  rw [he.object]
  exact decodePair hf h

omit hf in
theorem decodeOwnSource (h : c.Reorders ρ c') :
    Follows c.graph c'.graph Eq (decodeOwnSource c n) (decodeOwnSource c' n) := by
  refine bind (take h _) fun es es' hes => ?_
  rcases es with _ | ⟨e, _ | ⟨e₂, rest⟩⟩
  · exact note
  · obtain ⟨e', rfl, he⟩ := hes.eq_singleton
    change Follows c.graph c'.graph Eq (RuleGraph.decodeSource c e.object)
      (RuleGraph.decodeSource c' e'.object)
    rw [he.object]
    exact decodeSource h
  · exact note

theorem decodeTriplesMap (h : c.Reorders ρ c') (hid : ρ c.mapping c'.mapping) :
    Follows c.graph c'.graph (TriplesMap.Alike ρ) (decodeTriplesMap c functionAt n)
      (decodeTriplesMap c' functionAt' n) := by
  refine bind (takeTypes h _) fun _ _ _ => ?_
  refine bind (decodeOwnSource h) fun source source' hsource => ?_
  refine bind (decodeOwnSubject hf h) fun subject subject' hsubject => ?_
  refine bind (decodePairs hf h) fun pairs pairs' hpairs => pure ?_
  obtain ⟨subject, subject', rfl, rfl, hsub⟩ := present_iff.1 hsubject
  exact ⟨hid, hsource, hsub, hpairs⟩

end Maps

end Parts

/-- **The triples maps of both graphs agree up to order.** -/
theorem decodeMaps {ρ : String → String → Prop} {ids ids' : List (Term × String)}
    (htriples : g.triples.Perm g'.triples) (hne : ∀ q ∈ g.triples, q.object ≠ .iri "")
    (hlookup : ∀ n id, ids.lookup n = some id → ∃ id', ids'.lookup n = some id' ∧ ρ id id')
    (hids : Reordered (fun a b => a.1 = b.1 ∧ ρ a.2 b.2) ids ids') (depth : Nat) :
    Follows g g' (Reordered (TriplesMap.Alike ρ)) (decodeMaps depth g ids)
      (decodeMaps depth g' ids') := by
  refine each (hids.map ?_)
  rintro ⟨n, id⟩ ⟨n', id'⟩ ⟨rfl, hρ⟩
  have h : (Context.mk g ids id).Reorders ρ ⟨g', ids', id'⟩ := ⟨htriples, hlookup⟩
  exact decodeTriplesMap (functionWithin h hne depth) h hρ

end Follows

end RdfMapping.RuleGraph
