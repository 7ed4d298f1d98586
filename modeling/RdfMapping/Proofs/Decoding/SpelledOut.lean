/-
# Shortcuts are nothing but short

A graph is decoded side by side with the graph in which its shortcuts are spelled out: both runs
have the same value, both are clean or none is, and they use the same triples, spelled out.
-/
import RdfMapping.Proofs.Decoding.Order
import RdfMapping.Proofs.Decoding.Shortcuts

namespace RdfMapping.RuleGraph

open Iri (PrefixTable)
open Mapping
open Rdf (Term Quad)

variable {g g' : Graph} {q : Quad} {c c' : Context} {es es' : List Edge} {label : Quad → String}
  {ps : List String} {e e' : Edge} {n : Term} {path : String}

/-! ## Notes on both graphs -/

/-- Notes on a graph and on it spelled out: both are clean or none. -/
structure Matches (label : Quad → String) (g g' : Graph) (l l' : List Finding) : Prop where
  clean : Clean l ↔ Clean l'
  uses : Clean l → ∀ t, Uses g' l' t ↔ ∃ q, Uses g l q ∧ t ∈ spellOut label q

theorem uses_singleton {i : Nat} :
    Uses g [.used i] q ↔ g.triples[i]? = some q := by
  constructor
  · rintro ⟨j, hj, hq⟩
    cases List.mem_singleton.1 hj
    exact hq
  · exact fun hq => ⟨i, List.mem_singleton_self _, hq⟩

theorem clean_used (is : List Nat) : Clean (is.map Finding.used) := by
  intro f hf
  obtain ⟨i, -, rfl⟩ := List.mem_map.1 hf
  rfl

theorem not_clean_of_flaw {l : List Finding} {d : Diagnostic} (h : Finding.flaw d ∈ l) :
    ¬ Clean l :=
  fun hclean => absurd (hclean _ h) (by simp [Finding.isClean])

namespace Matches

variable {k k' l l' : List Finding}

theorem nil : Matches label g g' [] [] := by
  refine ⟨Iff.rfl, fun _ t => iff_of_false not_uses_nil ?_⟩
  rintro ⟨q, hq, -⟩
  exact not_uses_nil hq

theorem append (hk : Matches label g g' k k') (hl : Matches label g g' l l') :
    Matches label g g' (k ++ l) (k' ++ l') := by
  constructor
  · rw [clean_append, clean_append, hk.clean, hl.clean]
  · intro hclean t
    rw [clean_append] at hclean
    simp only [uses_append, hk.uses hclean.1, hl.uses hclean.2, or_and_right, exists_or]

/-- The order of notes does not matter here. -/
theorem congr (h : Matches label g g' l l') (hl : ∀ f, f ∈ k ↔ f ∈ l) (hl' : ∀ f, f ∈ k' ↔ f ∈ l') :
    Matches label g g' k k' := by
  constructor
  · unfold Clean
    simp only [hl, hl']
    exact h.clean
  · intro hclean t
    have hclean' : Clean l := fun f hf => hclean f ((hl f).2 hf)
    unfold Uses
    simp only [hl, hl']
    exact h.uses hclean' t

theorem of_flaws {d d' : Diagnostic} (h : Finding.flaw d ∈ l) (h' : Finding.flaw d' ∈ l') :
    Matches label g g' l l' :=
  ⟨iff_of_false (not_clean_of_flaw h) (not_clean_of_flaw h'),
    fun hclean => absurd hclean (not_clean_of_flaw h)⟩

theorem used_kept (h : e.Kept label g g' e') :
    Matches label g g' [.used e.number] [.used e'.number] := by
  obtain ⟨q, hnone, -, hq, hq'⟩ := h.triple
  refine ⟨iff_of_true (clean_used [e.number]) (clean_used [e'.number]), fun _ t => ?_⟩
  simp only [uses_singleton, hq, hq', Option.some.injEq, exists_eq_left', spellOut_of_none hnone,
    List.mem_singleton, eq_comm]

/-- A shortcut is used if its link and its constant are. -/
theorem used_spelled (h : Edge.Spelled label g g' q e e') {i : Nat}
    (hi : g'.triples[i]? = some (constantAt label q)) :
    Matches label g g' [.used e.number] [.used e'.number, .used i] := by
  refine ⟨iff_of_true (clean_used [e.number]) (clean_used [e'.number, i]), fun _ t => ?_⟩
  change Uses g' ([.used e'.number] ++ [.used i]) t ↔ _
  simp only [uses_append, uses_singleton, h.triple, h.triple', hi, Option.some.injEq,
    exists_eq_left', spellOut_of_link h.shortcut, List.mem_cons, List.not_mem_nil, or_false,
    eq_comm]

end Matches

theorem forall₂_mapIdx_both {α β γ δ : Type} {R : α → β → Prop} {S : γ → δ → Prop}
    {f : Nat → α → γ} {k : Nat → β → δ} {as : List α} {bs : List β} (h : List.Forall₂ R as bs)
    (hfk : ∀ i a b, R a b → S (f i a) (k i b)) :
    List.Forall₂ S (as.mapIdx f) (bs.mapIdx k) := by
  induction h generalizing f k with
  | nil => exact .nil
  | @cons a b _ _ hab _ ih =>
    rw [List.mapIdx_cons, List.mapIdx_cons]
    exact .cons (hfk 0 a b hab) (ih fun i => hfk (i + 1))

/-! ## Runs that mirror each other -/

/-- Decodings of both graphs have the same value and notes that match. -/
structure Mirrors {α : Type} (label : Quad → String) (g g' : Graph) (x y : Decoding α) : Prop where
  value : y.value = x.value
  notes : Matches label g g' x.notes y.notes

namespace Mirrors

variable {α β : Type} {x y : Decoding α} {f f' : Flaw} {path' : String} {xs ys : List (Trial α)}

theorem pure (a : α) : Mirrors label g g' (Pure.pure a) (Pure.pure a) :=
  ⟨rfl, .nil⟩

theorem ofTrial (a : α) :
    Mirrors label g g' (Pure.pure a : Trial α).run (Pure.pure a : Trial α).run :=
  ⟨rfl, .nil⟩

theorem bind {k l : α → Decoding β} (hx : Mirrors label g g' x y)
    (hk : ∀ a, Mirrors label g g' (k a) (l a)) : Mirrors label g g' (x >>= k) (y >>= l) := by
  have hl : (y >>= l) = ⟨(l x.value).value, y.notes ++ (l x.value).notes⟩ := by
    rw [← hx.value]
    rfl
  rw [hl]
  exact ⟨(hk x.value).value, hx.notes.append (hk x.value).notes⟩

theorem andThen {x y : Trial α} {k l : α → Trial β} (hx : Mirrors label g g' x.run y.run)
    (hk : ∀ a, Mirrors label g g' (k a).run (l a).run) :
    Mirrors label g g' (x >>= k).run (y >>= l).run := by
  rw [Attempt.run_bind, Attempt.run_bind]
  refine bind hx fun a => ?_
  cases a with
  | none => exact pure none
  | some a => exact hk a

theorem lift (hx : Mirrors label g g' x y) :
    Mirrors label g g' (liftM x : Trial α).run (liftM y : Trial α).run := by
  rw [Attempt.run_lift, Attempt.run_lift]
  exact bind hx fun a => pure (some a)

theorem refuse :
    Mirrors label g g' (c.refuse f path : Trial α).run (c'.refuse f' path' : Trial α).run :=
  ⟨rfl, .of_flaws (List.mem_singleton_self _) (List.mem_singleton_self _)⟩

theorem note : Mirrors label g g' (c.note f path) (c'.note f' path') :=
  ⟨rfl, .of_flaws (List.mem_singleton_self _) (List.mem_singleton_self _)⟩

theorem then_pure {u v : Decoding Unit} {x y : Trial α} (f : α → β)
    (h : Mirrors label g g' (u >>= fun _ => x.run) (v >>= fun _ => y.run)) :
    Mirrors label g g' (u >>= fun _ => (x >>= fun a => Pure.pure (f a)).run)
      (v >>= fun _ => (y >>= fun a => Pure.pure (f a)).run) := by
  have hnotes (z : Trial α) :
      (z >>= fun a => (Pure.pure (f a) : Trial β)).run.notes = z.run.notes := by
    rw [Attempt.notes_bind]
    cases z.run.value <;> exact List.append_nil _
  constructor
  · rw [Logged.value_bind, Logged.value_bind, Attempt.value_bind, Attempt.value_bind]
    exact congrArg (Option.bind · _) h.value
  · rw [Logged.notes_bind, Logged.notes_bind, hnotes, hnotes]
    exact h.notes

theorem each {xs ys : List (Decoding α)} (h : List.Forall₂ (Mirrors label g g') xs ys) :
    Mirrors label g g' (Logged.each xs) (Logged.each ys) := by
  induction h with
  | nil => exact pure []
  | cons hx _ ih => exact bind hx fun a => bind ih fun as => pure (a :: as)

theorem those (h : List.Forall₂ (fun x y => Mirrors label g g' x.run y.run) xs ys) :
    Mirrors label g g' (Logged.those xs) (Logged.those ys) := by
  induction h with
  | nil => exact pure []
  | cons hx _ ih => exact bind hx fun a => bind ih fun as => pure (a.toList ++ as)

theorem all (h : List.Forall₂ (fun x y => Mirrors label g g' x.run y.run) xs ys) :
    Mirrors label g g' (Attempt.all xs).run (Attempt.all ys).run := by
  induction h with
  | nil => exact ofTrial []
  | cons hx _ ih => exact bind hx fun a => bind ih fun as => pure _

/-! ## Edges that are kept -/

theorem use (h : List.Forall₂ (Edge.Kept label g g') es es') :
    Mirrors label g g' (Context.use es) (Context.use es') := by
  refine ⟨rfl, ?_⟩
  change Matches label g g' (es.map fun e => .used e.number) (es'.map fun e => .used e.number)
  induction h with
  | nil => exact .nil
  | cons he _ ih => exact (Matches.used_kept he).append ih

theorem use_filter (p : Term → Bool) (h : List.Forall₂ (Edge.Kept label g g') es es') :
    Mirrors label g g' (Context.use (es.filter fun e => p e.object))
      (Context.use (es'.filter fun e => p e.object)) := by
  refine use ?_
  induction h with
  | nil => exact .nil
  | cons he _ ih =>
    rw [List.filter_cons, List.filter_cons, he.object]
    split
    · exact .cons he ih
    · exact ih

end Mirrors

/-- Contexts that differ only in that shortcuts are spelled out. -/
structure Context.SpellsOut (label : Quad → String) (c c' : Context) : Prop where
  graph : Graph.SpellsOut label c.graph c'.graph
  ids : c'.ids = c.ids
  mapping : c'.mapping = c.mapping

/-- **The term map of a new node has the constant of the shortcut.** -/
theorem decodeTermMap_new (h : c.SpellsOut label c') (hq : q ∈ c.graph.triples)
    (hlink : (linkOf? q).isSome = true) (functionAt : Term → String → Trial Value)
    (position : Position) (path : String) :
    ∃ i, c'.graph.triples[i]? = some (constantAt label q) ∧
      decodeTermMap c' functionAt position (.blank (label q)) path =
        (do
          Context.use [⟨i, Property.constant, q.object⟩]
          return .ofConstant (← decodeConstant c' q.object path)) := by
  obtain ⟨i, hvalues, hi⟩ := h.graph.edges_of_new hq hlink Property.values (by decide)
  obtain ⟨link, hsome⟩ := Option.isSome_iff_exists.1 hlink
  have hnone {ps : List String} (hps : Property.constant ∉ ps) :
      c'.graph.edges (.blank (label q)) ps = [] := h.graph.edges_of_new_eq_nil hq hlink hps
  have htake : takeNode c' .termMap Property.termMapLinks (.blank (label q)) path = pure () := by
    unfold takeNode
    rw [if_neg (by simp [Term.isNode])]
    exact if_neg (Nat.not_lt.2 (h.graph.referrers_of_new hq hsome _))
  have hstated : decodeStated c' (.blank (label q)) path = pure none := by
    rw [decodeStated, hnone (by decide)]
  have hproperty (read : Term → Option String) {ps : List String} (hps : Property.constant ∉ ps) :
      c'.property read (.blank (label q)) path ps = pure "" := by
    rw [Context.property, hnone hps]
  have hattributes (term : Constant) :
      decodeAttributes c' position (.blank (label q)) (.constant term) path =
        pure (.ofConstant term) := by
    have htag : tagConstant c' term "" "" path = pure term := if_pos rfl
    rw [decodeAttributes, hstated, hproperty _ (by decide), hproperty _ (by decide)]
    change (tagConstant c' term "" "" path >>= fun term =>
      if term.kind = term.kind then pure _ else _) = _
    rw [htag]
    exact if_pos rfl
  have hvalue : decodeValue c' functionAt (.blank (label q)) ⟨i, Property.constant, q.object⟩ path =
      (do return .constant (← decodeConstant c' q.object path)) := if_pos rfl
  refine ⟨i, hi, ?_⟩
  rw [decodeTermMap, htake, hvalues, Context.takeTypes, hnone (by decide)]
  change (liftM (Context.use _) >>= fun _ => decodeValue c' functionAt _ _ path >>= fun value =>
    decodeAttributes c' position (.blank (label q)) value path : Trial TermMap) = _
  rw [hvalue, decodeConstant]
  cases constantOf q.object with
  | ok term =>
    change (liftM (Context.use _) >>= fun _ =>
      decodeAttributes c' position (.blank (label q)) (.constant term) path : Trial TermMap) = _
    rw [hattributes]
    rfl
  | error f => rfl

namespace Mirrors

section Parts

variable (h : c.SpellsOut label c') (hn : IsOld label c.graph.triples n)

include h hn

theorem take_bind (hps : ∀ s ∈ shortcutLinks, s.1 ∉ ps ∧ s.2 ∉ ps) {k k' : List Edge → Decoding α}
    (hk : ∀ es es', List.Forall₂ (Edge.Kept label c.graph c'.graph) es es' →
      Mirrors label c.graph c'.graph (k es) (k' es')) :
    Mirrors label c.graph c'.graph (c.take n ps >>= k) (c'.take n ps >>= k') := by
  have hedges := h.graph.edges_kept hn ps hps
  have hrest := hk _ _ hedges
  exact ⟨hrest.value, ((use hedges).notes.append .nil).append hrest.notes⟩

theorem take_andThen (hps : ∀ s ∈ shortcutLinks, s.1 ∉ ps ∧ s.2 ∉ ps) {k k' : List Edge → Trial α}
    (hk : ∀ es es', List.Forall₂ (Edge.Kept label c.graph c'.graph) es es' →
      Mirrors label c.graph c'.graph (k es).run (k' es').run) :
    Mirrors label c.graph c'.graph (liftM (c.take n ps) >>= k : Trial α).run
      (liftM (c'.take n ps) >>= k' : Trial α).run := by
  have hedges := h.graph.edges_kept hn ps hps
  have hrest := hk _ _ hedges
  exact ⟨hrest.value, (((use hedges).notes.append .nil).append .nil).append hrest.notes⟩

theorem takeTypes (classes : List String) :
    Mirrors label c.graph c'.graph (c.takeTypes n classes) (c'.takeTypes n classes) :=
  use_filter (fun o => o.iri?.any classes.contains) (h.graph.edges_kept hn _ (by decide))

/-- A property is read alike if it is no shortcut. -/
theorem property (read : Term → Option String) (hps : ∀ s ∈ shortcutLinks, s.1 ∉ ps ∧ s.2 ∉ ps) :
    Mirrors label c.graph c'.graph (c.property read n path ps) (c'.property read n path ps) := by
  have hedges := h.graph.edges_kept hn ps hps
  unfold Context.property
  revert hedges
  generalize c.graph.edges n ps = es
  generalize c'.graph.edges n ps = es'
  intro hedges
  cases hedges with
  | nil => exact pure ""
  | @cons e e' rest rest' he hrest =>
    cases hrest with
    | nil =>
      simp only [he.object]
      cases read e'.object with
      | none => exact pure ""
      | some text => exact bind (use (.cons he .nil)) fun _ => pure text
    | cons _ _ => exact bind note fun _ => pure ""

theorem takeNode (role : Role) {links : List String} (hlinks : ∀ s ∈ shortcutLinks, s.1 ∉ links)
    (hconstant : Property.constant ∉ links) :
    Mirrors label c.graph c'.graph (takeNode c role links n path).run
      (takeNode c' role links n path).run := by
  unfold RuleGraph.takeNode
  rw [h.graph.referrers_of_old hn hlinks hconstant]
  split
  · exact refuse
  · split
    · exact refuse
    · exact ofTrial ()

/-! ## Sources and joins -/

theorem decodeSourceParts :
    Mirrors label c.graph c'.graph (decodeSourceParts c n) (decodeSourceParts c' n) := by
  unfold RuleGraph.decodeSourceParts
  refine bind (takeTypes h hn _) fun _ => ?_
  refine bind (property h hn _ (by decide)) fun access => ?_
  refine bind (property h hn _ (by decide)) fun formulation => ?_
  refine bind (property h hn _ (by decide)) fun iterator => ?_
  refine bind (property h hn _ (by decide)) fun table => ?_
  refine bind (property h hn _ (by decide)) fun query => ?_
  exact bind (property h hn _ (by decide)) fun version => pure _

/-- Sources are the same. -/
theorem decodeSource :
    Mirrors label c.graph c'.graph (decodeSource c n) (decodeSource c' n) := by
  by_cases hnode : n.isNode = true
  · -- what is noted on a source is what is noted on its parts
    obtain ⟨hclean, huses⟩ := Follows.notes_decodeSource (c := c) hnode
    obtain ⟨hclean', huses'⟩ := Follows.notes_decodeSource (c := c') hnode
    have hparts := decodeSourceParts h hn
    constructor
    · unfold RuleGraph.decodeSource
      rw [if_pos hnode, if_pos hnode]
      exact hparts.value
    · constructor
      · rw [hclean, hclean', hparts.notes.clean]
      · intro hx t
        simp only [huses, huses']
        exact hparts.notes.uses (hclean.1 hx) t
  · unfold RuleGraph.decodeSource
    rw [if_neg hnode, if_neg hnode]
    exact bind note fun _ => pure _

theorem decodeCondition :
    Mirrors label c.graph c'.graph (decodeCondition c n path).run
      (decodeCondition c' n path).run := by
  unfold RuleGraph.decodeCondition
  refine andThen (takeNode h hn _ (by decide) (by decide)) fun _ => ?_
  refine andThen (lift (takeTypes h hn _)) fun _ => ?_
  refine andThen (lift (property h hn _ (by decide))) fun child => ?_
  refine andThen (lift (property h hn _ (by decide))) fun parent => ?_
  split
  · exact refuse
  · exact ofTrial _

/-- Joins are the same. -/
theorem decodeJoin (parent : Term) :
    Mirrors label c.graph c'.graph (decodeJoin c n parent path).run
      (decodeJoin c' n parent path).run := by
  unfold RuleGraph.decodeJoin
  rw [h.ids]
  cases c.ids.lookup parent with
  | none => exact refuse
  | some id =>
    refine take_andThen h hn (by decide) fun es es' hes => ?_
    refine andThen (all (forall₂_mapIdx_both hes fun i e e' he => ?_)) fun conditions => ?_
    · rw [← he.object]
      exact decodeCondition h he.old
    · split
      · exact refuse
      · exact ofTrial _

/-! ## Term maps of old nodes -/

omit h hn in
theorem decodeConstant (t : Term) :
    Mirrors label g g' (decodeConstant c t path).run (decodeConstant c' t path).run := by
  unfold RuleGraph.decodeConstant
  split
  · exact ofTrial _
  · exact refuse

/-- The stated kind is the same. -/
theorem decodeStated :
    Mirrors label c.graph c'.graph (decodeStated c n path).run (decodeStated c' n path).run := by
  have hedges := h.graph.edges_kept hn [Property.termType] (by decide)
  unfold RuleGraph.decodeStated
  revert hedges
  generalize c.graph.edges n [Property.termType] = es
  generalize c'.graph.edges n [Property.termType] = es'
  intro hedges
  cases hedges with
  | nil => exact ofTrial none
  | @cons e e' rest rest' he hrest =>
    cases hrest with
    | nil =>
      simp only [he.object]
      cases kindOf? e'.object with
      | none => exact refuse
      | some kind => exact andThen (lift (use (.cons he .nil))) fun _ => ofTrial (some kind)
    | cons _ _ => exact refuse

/-- What is stated beside a value is the same. -/
theorem decodeAttributes (position : Position) (value : Value) :
    Mirrors label c.graph c'.graph (decodeAttributes c position n value path).run
      (decodeAttributes c' position n value path).run := by
  unfold RuleGraph.decodeAttributes
  refine andThen (decodeStated h hn) fun stated => ?_
  refine andThen (lift (property h hn _ (by decide))) fun datatype => ?_
  refine andThen (lift (property h hn _ (by decide))) fun language => ?_
  cases value with
  | constant term =>
    refine andThen ?_ fun term => ?_
    · unfold tagConstant
      split
      · exact ofTrial _
      · split
        · exact refuse
        · exact ofTrial _
    · split
      · exact ofTrial _
      · exact refuse
  | reference _ | template _ | function _ _ | join _ _ => exact ofTrial _

variable {functionAt functionAt' : Term → String → Trial Value}
  (hf : ∀ o, IsOld label c.graph.triples o → ∀ path, Mirrors label c.graph c'.graph
    (functionAt o path).run (functionAt' o path).run)

include hf

/-- Values of edges that are kept are the same. -/
theorem decodeValue (he : e.Kept label c.graph c'.graph e') :
    Mirrors label c.graph c'.graph (decodeValue c functionAt n e path).run
      (decodeValue c' functionAt' n e' path).run := by
  have hold := he.old
  unfold RuleGraph.decodeValue
  rw [he.property, he.object]
  rw [he.object] at hold
  split
  · exact andThen (decodeConstant _) fun term => ofTrial _
  split
  · cases textOf? e'.object with
    | none => exact refuse
    | some pattern => exact ofTrial _
  split
  · exact hf _ hold _
  split
  · exact decodeJoin h hn _
  · cases textOf? e'.object with
    | none => exact refuse
    | some name => exact ofTrial _

/-- Term maps of old nodes are the same. -/
theorem decodeTermMap (position : Position) :
    Mirrors label c.graph c'.graph (decodeTermMap c functionAt position n path).run
      (decodeTermMap c' functionAt' position n path).run := by
  have hedges := h.graph.edges_kept hn Property.values (by decide)
  unfold RuleGraph.decodeTermMap
  refine andThen (takeNode h hn _ (by decide) (by decide)) fun _ => ?_
  refine andThen (lift (takeTypes h hn _)) fun _ => ?_
  revert hedges
  generalize c.graph.edges n Property.values = es
  generalize c'.graph.edges n Property.values = es'
  intro hedges
  cases hedges with
  | nil => exact refuse
  | @cons e e' rest rest' he hrest =>
    cases hrest with
    | nil =>
      refine andThen (lift (use (.cons he .nil))) fun _ => ?_
      exact andThen (decodeValue h hn hf he) fun value => decodeAttributes h hn position value
    | cons _ _ => exact refuse

end Parts

/-! ## Shortcuts and links -/

section Shortcuts

variable {link shortcut : String}

theorem lookup_shortcut (h : (shortcut, link) ∈ shortcutLinks) :
    shortcutLinks.lookup shortcut = some link ∧ shortcutLinks.lookup link = none := by
  have hall : ∀ s ∈ shortcutLinks,
      shortcutLinks.lookup s.1 = some s.2 ∧ shortcutLinks.lookup s.2 = none := by decide
  exact hall _ h

theorem paired_links (h : (shortcut, link) ∈ shortcutLinks) :
    ∀ s ∈ shortcutLinks, s.1 ∈ [link, shortcut] ↔ s.2 ∈ [link, shortcut] := by
  have hall : ∀ t ∈ shortcutLinks, ∀ s ∈ shortcutLinks, s.1 ∈ [t.2, t.1] ↔ s.2 ∈ [t.2, t.1] := by
    decide
  exact hall _ h

theorem linkOf?_iri {p : String} (h : q.predicate = .iri p) :
    linkOf? q = shortcutLinks.lookup p := by
  rw [linkOf?, h]
  rfl

theorem property_of_kept (h : (shortcut, link) ∈ shortcutLinks) (he : e.Kept label g g' e') :
    e.property ≠ shortcut := by
  obtain ⟨q, hnone, hp, -, -⟩ := he.triple
  rintro rfl
  rw [linkOf?_iri hp, (lookup_shortcut h).1] at hnone
  cases hnone

theorem property_of_spelled (h : (shortcut, link) ∈ shortcutLinks)
    (he : Edge.Spelled label g g' q e e') (hmem : e.property ∈ [link, shortcut]) :
    e.property = shortcut ∧ e'.property = link := by
  obtain ⟨hshort, hlong⟩ := lookup_shortcut h
  have hlookup : shortcutLinks.lookup e.property = some e'.property :=
    (linkOf?_iri he.property).symm.trans he.shortcut
  rcases List.mem_cons.1 hmem with hp | hp
  · rw [hp, hlong] at hlookup
    cases hlookup
  · rw [List.mem_singleton.1 hp, hshort] at hlookup
    exact ⟨List.mem_singleton.1 hp, (Option.some.inj hlookup).symm⟩

/-- Each edge is taken together with what it leads to. -/
theorem take_those {n : Term} {R : Edge → Edge → Prop} {f f' : Nat → Edge → Trial α}
    (hes : List.Forall₂ R (c.graph.edges n ps) (c'.graph.edges n ps))
    (hf : ∀ i e e', R e e' → Mirrors label g g' (Context.use [e] >>= fun _ => (f i e).run)
      (Context.use [e'] >>= fun _ => (f' i e').run)) :
    Mirrors label g g' (c.take n ps >>= fun es => Logged.those (es.mapIdx f))
      (c'.take n ps >>= fun es => Logged.those (es.mapIdx f')) := by
  have hlists {es es' : List Edge} {f f' : Nat → Edge → Trial α} (hes : List.Forall₂ R es es')
      (hf : ∀ i e e', R e e' → Mirrors label g g' (Context.use [e] >>= fun _ => (f i e).run)
        (Context.use [e'] >>= fun _ => (f' i e').run)) :
      Mirrors label g g' (Context.use es >>= fun _ => Logged.those (es.mapIdx f))
        (Context.use es' >>= fun _ => Logged.those (es'.mapIdx f')) := by
    induction hes generalizing f f' with
    | nil => exact pure []
    | @cons e e' es es' he _ ih =>
      have hhead := hf 0 e e' he
      have htail := @ih (fun i => f (i + 1)) (fun i => f' (i + 1)) fun i => hf (i + 1)
      constructor
      · rw [List.mapIdx_cons, List.mapIdx_cons]
        exact congrArg₂ (fun a as => a.toList ++ as) hhead.value htail.value
      · refine (hhead.notes.append htail.notes).congr (fun x => ?_) fun x => ?_
        all_goals
          simp only [Context.use, Logged.tell, Logged.notes_bind, Logged.notes_those,
            List.mapIdx_cons, List.flatMap_cons, List.map_cons, List.map_nil, List.mem_append,
            List.mem_cons, List.not_mem_nil]
          tauto
  have hboth := hlists hes hf
  constructor
  · exact hboth.value
  · refine hboth.notes.congr (fun x => ?_) fun x => ?_
    all_goals
      simp only [Context.take, Logged.notes_bind, Logged.value_bind, Logged.value_pure,
        Logged.notes_pure, List.append_nil]

end Shortcuts

/-! ## Maps with shortcuts -/

section Maps

variable {functionAt functionAt' : Term → String → Trial Value} (h : c.SpellsOut label c')
  (hf : ∀ o, IsOld label c.graph.triples o → ∀ path, Mirrors label c.graph c'.graph
    (functionAt o path).run (functionAt' o path).run)

include h

/-- A shortcut gives the term map that its new node gives. -/
theorem decodeTermMap_spelled (he : Edge.Spelled label c.graph c'.graph q e e')
    (position : Position) :
    Mirrors label c.graph c'.graph
      (Context.use [e] >>= fun _ =>
        (do return .ofConstant (← RuleGraph.decodeConstant c e.object path) : Trial TermMap).run)
      (Context.use [e'] >>= fun _ =>
        (RuleGraph.decodeTermMap c' functionAt' position e'.object path).run) := by
  obtain ⟨i, hi, hnew⟩ := decodeTermMap_new h (List.mem_of_getElem? he.triple)
    (by rw [he.shortcut]; rfl) functionAt' position path
  have hconstant : Mirrors label c.graph c'.graph
      (do return .ofConstant (← RuleGraph.decodeConstant c e.object path) : Trial TermMap).run
      (do return .ofConstant (← RuleGraph.decodeConstant c' e.object path) : Trial TermMap).run :=
    andThen (decodeConstant e.object) fun term => ofTrial _
  rw [he.object', hnew, he.object]
  exact ⟨hconstant.value, (Matches.used_spelled he hi).append hconstant.notes⟩

include hf

/-- **Linked term maps are the same**, whether a shortcut leads to them or a link. -/
theorem decodeLinked (hn : IsOld label c.graph.triples n) (position : Position)
    {link shortcut : String} (hlink : (shortcut, link) ∈ shortcutLinks) :
    Mirrors label c.graph c'.graph (decodeLinked c functionAt position n path link shortcut)
      (decodeLinked c' functionAt' position n path link shortcut) := by
  refine take_those (h.graph.edges_of_old hn (paired_links hlink)) ?_
  rintro i e e' ⟨hmem, hkept | ⟨q, hspelled⟩⟩
  · have hne := property_of_kept hlink hkept
    rw [if_neg hne, if_neg (hkept.property ▸ hne), ← hkept.object]
    exact bind (use (.cons hkept .nil)) fun _ => decodeTermMap h hkept.old hf position
  · obtain ⟨hp, hp'⟩ := property_of_spelled hlink hspelled hmem
    have hne : link ≠ shortcut := by
      rintro rfl
      have := lookup_shortcut hlink
      rw [this.1] at this
      cases this.2
    rw [if_pos hp, if_neg (by rw [hp']; exact hne)]
    exact decodeTermMap_spelled h hspelled position

theorem decodePair (hn : IsOld label c.graph.triples n) :
    Mirrors label c.graph c'.graph (decodePair c functionAt n path).run
      (decodePair c' functionAt' n path).run := by
  refine andThen (takeNode h hn _ (by decide) (by decide)) fun _ => ?_
  refine andThen (lift (takeTypes h hn _)) fun _ => ?_
  refine andThen (lift (decodeLinked h hf hn _ (by decide))) fun predicates => ?_
  refine andThen (lift (decodeLinked h hf hn _ (by decide))) fun objects => ?_
  exact andThen (lift (decodeLinked h hf hn _ (by decide))) fun graphs => ofTrial _

/-- Entries of functions are the same. -/
theorem decodeEntries (hes : List.Forall₂ (Edge.Kept label c.graph c'.graph) es es') (i : Nat)
    (name : String) :
    Mirrors label c.graph c'.graph (decodeEntries c functionAt path i name es).run
      (decodeEntries c' functionAt' path i name es').run := by
  induction hes generalizing i name with
  | nil => exact ofTrial _
  | @cons e e' es es' he _ ih =>
    refine bind ?_ fun entry => bind (ih _ _) fun more => pure _
    rw [← he.object]
    refine andThen (decodePair h hf he.old) fun pom => ?_
    unfold entryOf
    split
    · split
      · exact refuse
      · split
        · exact ofTrial _
        · split
          · split
            · exact refuse
            · exact ofTrial _
          · exact refuse
    · exact refuse

/-- Function values are the same if those inside are. -/
theorem decodeFunction (hn : IsOld label c.graph.triples n) :
    Mirrors label c.graph c'.graph (decodeFunction c functionAt n path).run
      (decodeFunction c' functionAt' n path).run := by
  refine andThen (takeNode h hn _ (by decide) (by decide)) fun _ => ?_
  refine andThen (lift (takeTypes h hn _)) fun _ => ?_
  refine take_andThen h hn (by decide) fun sources sources' hsources => ?_
  refine andThen (lift (each ?_)) fun _ => ?_
  · rw [List.forall₂_map_left_iff, List.forall₂_map_right_iff]
    refine hsources.imp fun e e' he => ?_
    rw [← he.object]
    exact decodeSource h he.old
  refine take_andThen h hn (by decide) fun es es' hes => ?_
  refine andThen (decodeEntries h hf hes 0 "") fun r => ?_
  obtain ⟨name, parameters⟩ := r
  dsimp only
  split
  · exact refuse
  · exact ofTrial _

omit hf in
/-- Classes are the same. -/
theorem decodeClasses (hn : IsOld label c.graph.triples n) :
    Mirrors label c.graph c'.graph (decodeClasses c n) (decodeClasses c' n) := by
  have hedges := h.graph.edges_kept hn [Property.classOf] (by decide)
  have hobjects : (c'.graph.edges n [Property.classOf]).map Edge.object =
      (c.graph.edges n [Property.classOf]).map Edge.object := by
    generalize c.graph.edges n [Property.classOf] = es at hedges
    generalize c'.graph.edges n [Property.classOf] = es' at hedges
    induction hedges with
    | nil => rfl
    | cons he _ ih => rw [List.map_cons, List.map_cons, ih, he.object]
  have hiris (es : List Edge) :
      (es.filter fun e => e.object.iri?.isSome).filterMap (fun e => e.object.iri?) =
        (es.map Edge.object).filterMap Term.iri? := by
    rw [List.filterMap_filter, List.filterMap_map]
    refine List.filterMap_congr fun e _ => ?_
    cases hiri : e.object.iri? <;> simp [hiri]
  constructor
  · change List.filterMap _ _ = List.filterMap _ _
    rw [hiris, hiris, hobjects]
  · exact (use_filter (fun o => o.iri?.isSome) hedges).notes.append .nil

/-- **The subject map is the same**, whether a shortcut leads to it or a link. -/
theorem decodeSubject (hmem : e.property ∈ [Property.subjectMap, Property.subject])
    (he : e.Kept label c.graph c'.graph e' ∨ ∃ q, Edge.Spelled label c.graph c'.graph q e e') :
    Mirrors label c.graph c'.graph
      (Context.use [e] >>= fun _ => (decodeSubject c functionAt e).run)
      (Context.use [e'] >>= fun _ => (decodeSubject c' functionAt' e').run) := by
  have hlink : (Property.subject, Property.subjectMap) ∈ shortcutLinks := by decide
  unfold RuleGraph.decodeSubject
  rcases he with hkept | ⟨q, hspelled⟩
  · have hne := property_of_kept hlink hkept
    have hne' : e'.property ≠ Property.subject := hkept.property ▸ hne
    rw [if_neg hne, if_neg hne', ← hkept.object,
      h.graph.referrers_of_old hkept.old (by decide) (by decide)]
    refine bind (use (.cons hkept .nil)) fun _ => ?_
    split
    · exact refuse
    · refine andThen (decodeTermMap h hkept.old hf _) fun term => ?_
      refine andThen (lift (decodeClasses h hkept.old)) fun classes => ?_
      exact andThen (lift (decodeLinked h hf hkept.old _ (by decide))) fun graphs => ofTrial _
  · obtain ⟨hp, hp'⟩ := property_of_spelled hlink hspelled hmem
    have hq := List.mem_of_getElem? hspelled.triple
    have hsome : (linkOf? q).isSome = true := by rw [hspelled.shortcut]; rfl
    -- the new node has neither classes nor graphs
    have hclasses : RuleGraph.decodeClasses c' e'.object = Pure.pure [] := by
      rw [RuleGraph.decodeClasses, hspelled.object',
        h.graph.edges_of_new_eq_nil hq hsome (by decide)]
      rfl
    have hgraphs : decodeGraphs c' functionAt' e'.object "graph" = Pure.pure [] := by
      rw [decodeGraphs, RuleGraph.decodeLinked, Context.take, hspelled.object',
        h.graph.edges_of_new_eq_nil hq hsome (by decide)]
      rfl
    have hreferrers : ¬ 1 < c'.graph.referrers e'.object [Property.subjectMap] := by
      rw [hspelled.object']
      exact Nat.not_lt.2 (h.graph.referrers_of_new hq hspelled.shortcut _)
    rw [if_pos hp, if_neg (by rw [hp']; decide), if_neg hreferrers, hclasses, hgraphs]
    have hshort :
        (do return { term := .ofConstant (← RuleGraph.decodeConstant c e.object "subject") } :
          Trial SubjectMap) =
        ((do return .ofConstant (← RuleGraph.decodeConstant c e.object "subject") :
          Trial TermMap) >>= fun term => Pure.pure { term }) := by
      unfold RuleGraph.decodeConstant
      split <;> rfl
    rw [hshort]
    exact (decodeTermMap_spelled h hspelled .subject).then_pure fun term => ({ term } : SubjectMap)

/-- The subject map is the same, by link or shortcut. -/
theorem decodeOwnSubject (hn : IsOld label c.graph.triples n) :
    Mirrors label c.graph c'.graph (decodeOwnSubject c functionAt n)
      (decodeOwnSubject c' functionAt' n) := by
  have hlink : (Property.subject, Property.subjectMap) ∈ shortcutLinks := by decide
  have hedges := h.graph.edges_of_old hn (paired_links hlink)
  unfold RuleGraph.decodeOwnSubject Context.take
  revert hedges
  generalize c.graph.edges n [Property.subjectMap, Property.subject] = es
  generalize c'.graph.edges n [Property.subjectMap, Property.subject] = es'
  intro hedges
  have hflaw {f : Flaw} {c : Context} {l : List Finding} :
      Finding.flaw (f.diagnostic c.mapping "subject") ∈
        l ++ (c.note f "subject" >>= fun _ => Pure.pure (none (α := SubjectMap))).notes :=
    List.mem_append_right _ (List.mem_singleton_self _)
  cases hedges with
  | nil => exact ⟨rfl, .of_flaws hflaw hflaw⟩
  | @cons e e' rest rest' he hrest =>
    cases hrest with
    | nil => exact decodeSubject h hf he.1 he.2
    | cons _ _ => exact ⟨rfl, .of_flaws hflaw hflaw⟩

theorem decodePairs (hn : IsOld label c.graph.triples n) :
    Mirrors label c.graph c'.graph (decodePairs c functionAt n) (decodePairs c' functionAt' n) := by
  refine take_bind h hn (by decide) fun es es' hes => ?_
  refine those (forall₂_mapIdx_both hes fun i e e' he => ?_)
  rw [← he.object]
  exact decodePair h hf he.old

omit hf in
/-- The source of a map is the same. -/
theorem decodeOwnSource (hn : IsOld label c.graph.triples n) :
    Mirrors label c.graph c'.graph (decodeOwnSource c n) (decodeOwnSource c' n) := by
  refine take_bind h hn (by decide) fun es es' hes => ?_
  cases hes with
  | nil => exact bind note fun _ => pure _
  | @cons e e' rest rest' he hrest =>
    cases hrest with
    | nil =>
      change Mirrors label c.graph c'.graph (RuleGraph.decodeSource c e.object)
        (RuleGraph.decodeSource c' e'.object)
      rw [← he.object]
      exact decodeSource h he.old
    | cons _ _ => exact bind note fun _ => pure _

theorem decodeTriplesMap (hn : IsOld label c.graph.triples n) :
    Mirrors label c.graph c'.graph (decodeTriplesMap c functionAt n)
      (decodeTriplesMap c' functionAt' n) := by
  unfold RuleGraph.decodeTriplesMap
  rw [h.mapping]
  refine bind (takeTypes h hn _) fun _ => ?_
  refine bind (decodeOwnSource h hn) fun source => ?_
  refine bind (decodeOwnSubject h hf hn) fun subject => ?_
  exact bind (decodePairs h hf hn) fun pairs => pure _

end Maps

/-- **Function values are the same**, whatever depth is allowed. -/
theorem functionWithin (h : c.SpellsOut label c') (depth : Nat) :
    ∀ o, IsOld label c.graph.triples o → ∀ path,
      Mirrors label c.graph c'.graph (functionWithin c depth o path).run
        (functionWithin c' depth o path).run := by
  induction depth with
  | zero =>
    -- neither run is clean
    intro o ho path
    have hendless : ¬ Clean [Finding.endless] := fun hclean =>
      absurd (hclean _ (List.mem_singleton_self _)) (by simp [Finding.isClean])
    exact ⟨rfl, iff_of_false hendless hendless, fun hclean => absurd hclean hendless⟩
  | succ depth ih => exact fun o ho path => decodeFunction h ih ho

/-- **The triples maps are the same.** -/
theorem decodeMaps {g' : Graph} (h : g.SpellsOut label g') {ids : List (Term × String)}
    (hids : ∀ p ∈ ids, IsOld label g.triples p.1) (depth : Nat) :
    Mirrors label g g' (decodeMaps depth g ids) (decodeMaps depth g' ids) := by
  refine each ?_
  rw [List.forall₂_map_left_iff, List.forall₂_map_right_iff, List.forall₂_same]
  rintro ⟨n, id⟩ hmem
  have hc : Context.SpellsOut label ⟨g, ids, id⟩ ⟨g', ids, id⟩ := ⟨h, rfl, rfl⟩
  exact decodeTriplesMap hc (functionWithin hc depth) (hids _ hmem)

end Mirrors

/-! ## Documents -/

section Documents

variable {l l' : List Finding}

/-- All triples are used if all of their spellings are. -/
theorem Matches.forall_uses_iff (hm : Matches label g g' l l') (h : g.SpellsOut label g')
    (hclean : Clean l) : (∀ t ∈ g'.triples, Uses g' l' t) ↔ ∀ q ∈ g.triples, Uses g l q := by
  constructor
  · intro hall q hq
    obtain ⟨t, ht⟩ := exists_mem_spellOut label q
    have hmem : t ∈ g'.triples := by
      rw [h.triples]
      exact List.mem_flatMap.2 ⟨q, hq, ht⟩
    obtain ⟨r, hr, htr⟩ := (hm.uses hclean t).1 (hall t hmem)
    have hmemr : r ∈ g.triples := by
      obtain ⟨i, -, hi⟩ := hr
      exact List.mem_of_getElem? hi
    exact h.labels.eq_of_mem hq hmemr ht htr ▸ hr
  · intro hall t ht
    rw [h.triples, List.mem_flatMap] at ht
    obtain ⟨q, hq, htq⟩ := ht
    exact (hm.uses hclean t).2 ⟨q, hall q hq, htq⟩

/-- What comes of both graphs is the same. -/
theorem outcome_iff (h : g.SpellsOut label g') (hanchors : g'.anchors = g.anchors)
    (hnamed : g'.named = g.named) (base : String) (prefixes : Option PrefixTable)
    (doc : Document) :
    let maps (g : Graph) := decodeMaps g.functionCount g (g.names base)
    let made (g : Graph) := assemble (chooseBase base g.anchors) prefixes g (maps g).value
    let Comes (g : Graph) := Clean (maps g).notes ∧ g.named = [] ∧
      (∀ q ∈ g.triples, Uses g (maps g).notes q) ∧ (made g).isValid = true ∧ doc = (made g).freeze
    Comes g' ↔ Comes g := by
  intro maps made Comes
  have hnames : g'.names base = g.names base := by rw [Graph.names, Graph.names, hanchors]
  have hids : ∀ p ∈ g.names base, IsOld label g.triples p.1 := by
    intro p hp
    have hmem : p.1 ∈ g.anchors := by
      rw [← g.map_fst_names base]
      exact List.mem_map.2 ⟨p, hp, rfl⟩
    obtain ⟨q, hq, hsubject⟩ := Graph.exists_subject_of_mem_anchors hmem
    exact hsubject ▸ (h.labels.isOld hq).1
  have hmirrors : Mirrors label g g' (maps g) (maps g') := by
    change Mirrors label g g' _ (decodeMaps g'.functionCount g' (g'.names base))
    rw [h.functionCount_eq, hnames]
    exact Mirrors.decodeMaps h hids _
  have hmade : made g' = made g := by
    change assemble (chooseBase base g'.anchors) prefixes g' (maps g').value = _
    rw [hmirrors.value, hanchors, assemble, emptyDocument, h.dialectOf_eq]
    rfl
  change _ ∧ _ ∧ _ ∧ _ ∧ _ ↔ _ ∧ _ ∧ _ ∧ _ ∧ _
  rw [hmade, hnamed, ← hmirrors.notes.clean]
  refine and_congr_right fun hclean => and_congr_right fun _ => and_congr_left fun _ => ?_
  exact hmirrors.notes.forall_uses_iff h hclean

/-- **Shortcuts are nothing but short.**  Take distinct triples, none of them a shortcut for a
constant that stands for a triples map, and spell out the shortcuts with new blank nodes: both lists
are decoded or none is, and to the same document. -/
theorem decode_spellOut (base : String) (prefixes : Option PrefixTable) {T : List Quad}
    (hT : T.Nodup) (hl : FreshLabels label T)
    (hobject : ∀ q ∈ T, (linkOf? q).isSome = true → q.object ∉ (Graph.ofQuads T).anchors)
    (doc : Document) :
    decode base prefixes (T.flatMap (spellOut label)) = .ok doc ↔
      decode base prefixes T = .ok doc := by
  have hgraphs : (∀ t ∈ T.flatMap (spellOut label), t.graph = none) ↔ ∀ q ∈ T, q.graph = none := by
    constructor
    · intro hall q hq
      obtain ⟨t, ht⟩ := exists_mem_spellOut label q
      rw [← graph_of_mem_spellOut ht]
      exact hall t (List.mem_flatMap.2 ⟨q, hq, ht⟩)
    · intro hall t ht
      obtain ⟨q, hq, htq⟩ := List.mem_flatMap.1 ht
      rw [graph_of_mem_spellOut htq, hall q hq]
  refine decode_eq_ok_iff.trans (Iff.trans ?_ decode_eq_ok_iff.symm)
  by_cases hgraph : ∀ q ∈ T, q.graph = none
  · have hg := Graph.ofQuads_eq hT hgraph
    have hg' := Graph.ofQuads_eq (hl.nodup hT) (hgraphs.2 hgraph)
    have h : Graph.SpellsOut label (.ofQuads T) (.ofQuads (T.flatMap (spellOut label))) := by
      rw [hg, hg']
      exact ⟨hT, hl, rfl⟩
    refine outcome_iff h (h.anchors_eq fun q hq => ?_) (by rw [hg, hg']) base prefixes doc
    rw [hg] at hq
    exact hobject q hq
  · -- a quad in a named graph is left over in both lists
    refine iff_of_false (fun hok => hgraph ?_) fun hok => hgraph ?_
    · exact hgraphs.1 (Graph.named_ofQuads_eq_nil_iff.1 hok.2.1)
    · exact Graph.named_ofQuads_eq_nil_iff.1 hok.2.1

/-- A triples map with a shortcut of each sort. -/
def shortMap : List Quad :=
  let triple (s : Term) (p : String) (o : Term) : Quad :=
    { subject := s, predicate := .iri p, object := o }
  let node (name : String) : Term := .iri ("http://ex.org/" ++ name)
  [triple (node "people") Property.logicalSource (.blank "source"),
    triple (.blank "source") Property.source (.ofText "people.csv"),
    triple (node "people") Property.subject (node "someone"),
    triple (node "people") Property.predicateObjectMap (.blank "pair"),
    triple (.blank "pair") Property.predicate (node "knows"),
    triple (.blank "pair") Property.object (node "anyone"),
    triple (.blank "pair") Property.graph (node "friends")]

theorem anchors_shortMap : (Graph.ofQuads shortMap).anchors = [.iri "http://ex.org/people"] := by
  have hsourced : (Graph.ofQuads shortMap).sourced = [.iri "http://ex.org/people"] := by
    decide +kernel
  rw [Graph.anchors, hsourced, List.mergeSort_singleton]

/-- Spelled out, the map makes the same document. -/
theorem decode_spellOut_shortMap :
    ∃ doc, decode "" none shortMap = .ok doc ∧
      decode "" none (shortMap.flatMap (spellOut fun q => q.object.render)) = .ok doc := by
  have hok : (decode "" none shortMap).isOk = true := by
    unfold decode decodeWithin
    simp only [anchors_shortMap]
    decide +kernel
  have hlabels : FreshLabels (fun q => q.object.render) shortMap :=
    ⟨by decide +kernel, by decide +kernel⟩
  cases hdoc : decode "" none shortMap with
  | ok doc =>
    refine ⟨doc, rfl, (decode_spellOut "" none (by decide +kernel) hlabels ?_ doc).2 hdoc⟩
    rw [anchors_shortMap]
    decide +kernel
  | error e =>
    rw [hdoc] at hok
    cases hok

end Documents

end RdfMapping.RuleGraph
