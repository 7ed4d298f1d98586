/-
# Reading what is drawn

Where a graph shows the sketch of a part of a document, decoding gives that part back.  The arrows
of a node come in pieces with one property each, and the edges that the decoder asks for are one of
the pieces (`edges_eq_piece`).
-/
import RdfMapping.Proofs.Emission.Shapes
import RdfMapping.Proofs.Mapping.Sameness

namespace RdfMapping.RuleGraph

open Mapping
open Rdf (Term Quad)

variable {g : Graph} {ns ms : List Nat} {ps : List String} {es : List Edge} {i depth : Nat}
  {t : Sketch} {p class_ datatype language : String} {ts : List Sketch}
  {position position' : Position} {known : String → Prop} {v : Value} {termType : TermType}
  {span : Span} {s : Setting}

theorem Graph.Owned.not_shared {n : Term} (h : g.Owned n) (links : List String) :
    ¬ 1 < g.referrers n links := by
  have hcount : g.referrers n links ≤ g.triples.countP fun q => q.object == n :=
    List.countP_mono_left fun q _ hq => (Bool.and_eq_true _ _ ▸ hq).1
  exact Nat.not_lt.2 (Nat.le_trans hcount h.2)

/-! ## Reading -/

/-- A part is decoded, nothing is wrong, and triples are used. -/
structure Reads {α : Type} (x : Decoding α) (a : α) (ns : List Nat) : Prop where
  clean : Clean x.notes
  value : x.value = a
  used : ∀ i ∈ ns, Finding.used i ∈ x.notes

namespace Reads

variable {α β : Type} {c : Context} {n : Term} {path : String}

theorem pure (a : α) : Reads (Pure.pure a : Decoding α) a [] :=
  ⟨clean_nil, rfl, fun _ h => absurd h List.not_mem_nil⟩

theorem mono {x : Decoding α} {a : α} (h : Reads x a ns) (hsub : ∀ i ∈ ms, i ∈ ns) : Reads x a ms :=
  ⟨h.clean, h.value, fun i hi => h.used i (hsub i hi)⟩

theorem bind {x : Decoding α} {k : α → Decoding β} {a : α} {b : β} (hx : Reads x a ns)
    (hk : Reads (k a) b ms) : Reads (x >>= k) b (ns ++ ms) := by
  obtain ⟨hclean, rfl, hused⟩ := hx
  refine ⟨?_, hk.value, fun i hi => ?_⟩
  · rw [Logged.notes_bind]
    exact clean_append.2 ⟨hclean, hk.clean⟩
  · rw [Logged.notes_bind, List.mem_append]
    exact (List.mem_append.1 hi).imp (hused i) (hk.used i)

theorem ofTrial (a : α) : Reads (Pure.pure a : Trial α).run (some a) [] :=
  pure (some a)

theorem lift {x : Decoding α} {a : α} (h : Reads x a ns) :
    Reads (liftM x : Trial α).run (some a) ns := by
  rw [Attempt.run_lift]
  exact (bind h (pure (some a))).mono fun i hi => List.mem_append_left _ hi

theorem andThen {x : Trial α} {k : α → Trial β} {a : α} {b : β} (hx : Reads x.run (some a) ns)
    (hk : Reads (k a).run (some b) ms) :
    Reads (x >>= k).run (some b) (ns ++ ms) := by
  rw [Attempt.run_bind]
  exact bind hx hk

theorem use (es : List Edge) : Reads (Context.use es) () (es.map Edge.number) := by
  refine ⟨fun f hf => ?_, rfl, fun i hi => ?_⟩
  · obtain ⟨e, -, rfl⟩ := List.mem_map.1 hf
    rfl
  · obtain ⟨e, he, rfl⟩ := List.mem_map.1 hi
    exact List.mem_map.2 ⟨e, he, rfl⟩

theorem take (h : c.graph.edges n ps = es) :
    Reads (c.take n ps) es (es.map Edge.number) := by
  subst h
  exact (bind (use _) (pure (c.graph.edges n ps))).mono fun i hi => List.mem_append_left _ hi

/-- Parts that all have values are all there. -/
theorem all_of_those {xs : List (Trial α)} {as : List α} (h : Reads (Logged.those xs) as ns)
    (hlen : as.length = xs.length) :
    Reads (Attempt.all xs).run (some as) ns := by
  obtain ⟨hclean, hvalue, hused⟩ := h
  rw [Logged.notes_those] at hclean hused
  rw [Logged.value_those] at hvalue
  refine ⟨by rw [Attempt.notes_all]; exact hclean, ?_, by rw [Attempt.notes_all]; exact hused⟩
  rw [Attempt.value_all]
  clear hclean hused
  induction xs generalizing as with
  | nil =>
    subst hvalue
    rfl
  | cons x rest ih =>
    cases hx : x.run.value with
    | none =>
      simp only [List.filterMap_cons, hx] at hvalue
      have hle := List.length_filterMap_le (fun x : Trial α => x.run.value) rest
      rw [hvalue, hlen, List.length_cons] at hle
      omega
    | some a =>
      simp only [List.filterMap_cons, hx] at hvalue
      subst hvalue
      rw [List.mapM_cons, hx, ih (Nat.succ.inj hlen) rfl]
      rfl

theorem takeNode (role : Role) (links : List String) (h : c.graph.Owned n) :
    Reads (takeNode c role links n path).run (some ()) [] := by
  unfold RuleGraph.takeNode
  rw [if_neg (by simp [h.1]), if_neg (h.not_shared links)]
  exact ofTrial ()

end Reads

/-! ## The pieces of a node -/

/-- The edges of a node come in pieces, each with one property. -/
def Pieces (g : Graph) (n : Term) (names : List String) (ess : List (List Edge)) : Prop :=
  g.star n = ess.flatten ∧ List.Forall₂ (fun p es => ∀ e ∈ es, e.property = p) names ess

/-- One piece has all edges with the properties asked for. -/
theorem filter_flatten_of_forall₂ {names : List String} {ess : List (List Edge)}
    (h : List.Forall₂ (fun p es => ∀ e ∈ es, e.property = p) names ess)
    (hi : names.map ps.contains = (List.range names.length).map (· == i)) :
    ess.flatten.filter (fun e => ps.contains e.property) = (ess[i]?).getD [] := by
  have hsame {p : String} {es : List Edge} (hp : ∀ e ∈ es, e.property = p) {b : Bool}
      (hb : ps.contains p = b) :
      es.filter (fun e => ps.contains e.property) = if b then es else [] := by
    cases b with
    | true => exact List.filter_eq_self.2 fun e he => by rw [hp e he, hb]
    | false =>
      refine List.filter_eq_nil_iff.2 fun e he => ?_
      rw [hp e he, hb]
      exact Bool.false_ne_true
  induction h generalizing i with
  | nil => rfl
  | @cons p es names ess hp h ih =>
    rw [List.map_cons, List.length_cons, List.range_succ_eq_map, List.map_cons,
      List.map_map] at hi
    obtain ⟨hhead, htail⟩ := List.cons.inj hi
    rw [List.flatten_cons, List.filter_append, hsame hp hhead]
    cases i with
    | zero =>
      have hrest : ess.flatten.filter (fun e => ps.contains e.property) = [] := by
        have hnone : names.map ps.contains =
            (List.range names.length).map (· == ess.length) := by
          rw [htail, h.length_eq]
          refine List.map_congr_left fun j hj => ?_
          have hlt := List.mem_range.1 hj
          simp
          omega
        rw [ih hnone, List.getElem?_eq_none (Nat.le_refl _)]
        rfl
      rw [hrest]
      simp
    | succ i =>
      have hshift : names.map ps.contains = (List.range names.length).map (· == i) := by
        rw [htail]
        exact List.map_congr_left fun j _ => by simp
      rw [ih hshift]
      simp

/-- The edges that are asked for are the piece at a place. -/
theorem edges_eq_piece {n : Term} {names : List String} {ess : List (List Edge)}
    (h : Pieces g n names ess) (ps : List String) (i : Nat)
    (hi : names.map ps.contains = (List.range names.length).map (· == i)) :
    g.edges n ps = (ess[i]?).getD [] := by
  rw [Graph.edges_eq_filter_star, h.1]
  exact filter_flatten_of_forall₂ h.2 hi

/-- All arrows of a sketch have one property. -/
def Sketch.Bears (p : String) : Sketch → Prop
  | done => True
  | arrow q _ rest => q = p ∧ rest.Bears p
  | link q _ rest => q = p ∧ rest.Bears p

theorem Drawn.property (h : Drawn g t es ns) (hp : t.Bears p) : ∀ e ∈ es, e.property = p := by
  induction h with
  | done => exact fun e he => absurd he List.not_mem_nil
  | arrow i q o _ ih => exact List.forall_mem_cons.2 ⟨hp.1, ih hp.2⟩
  | link i q _ _ _ _ ih => exact List.forall_mem_cons.2 ⟨hp.1, ih hp.2⟩

theorem bears_text (p value : String) : (Sketch.text p value).Bears p := by
  unfold Sketch.text
  split
  · trivial
  · exact ⟨rfl, trivial⟩

theorem bears_iri (p value : String) : (Sketch.iri p value).Bears p := by
  unfold Sketch.iri
  split
  · trivial
  · exact ⟨rfl, trivial⟩

theorem bears_links (p : String) (inners : List Sketch) : (Sketch.links p inners).Bears p := by
  induction inners with
  | nil => trivial
  | cons t rest ih => exact ⟨rfl, ih⟩

theorem bears_classes (cs : List String) : (Sketch.classes cs).Bears Property.classOf := by
  induction cs with
  | nil => trivial
  | cons c rest ih => exact ⟨rfl, ih⟩

theorem bears_kind (position : Position) (tm : TermMap) :
    (Sketch.kind position tm).Bears Property.termType := by
  unfold Sketch.kind
  split
  · exact ⟨rfl, trivial⟩
  · trivial

theorem Drawn.of_arrow {o : Term} {rest : Sketch} (h : Drawn g (.arrow p o rest) es ns) :
    ∃ i es' ns', es = ⟨i, p, o⟩ :: es' ∧ ns = i :: ns' ∧ Drawn g rest es' ns' := by
  cases h with
  | arrow i _ _ h => exact ⟨i, _, _, rfl, rfl, h⟩

theorem Drawn.of_link {inner rest : Sketch} (h : Drawn g (.link p inner rest) es ns) :
    ∃ i x es' ms ns', es = ⟨i, p, x⟩ :: es' ∧ ns = i :: ms ++ ns' ∧ g.Owned x ∧
      Drawn g inner (g.star x) ms ∧ Drawn g rest es' ns' := by
  cases h with
  | link i _ hx hinner h => exact ⟨i, _, _, _, _, rfl, rfl, hx, hinner, h⟩

theorem Drawn.of_done (h : Drawn g .done es ns) :
    es = [] ∧ ns = [] := by
  cases h
  exact ⟨rfl, rfl⟩

/-! ## Properties and types -/

section Parts

variable {c : Context} {n : Term} {path : String}

/-- A property that is drawn, unless it is empty, with a term that is read back. -/
theorem reads_property {read : Term → Option String} {term : String → Term} {value : String}
    (hread : read (term value) = some value) (hes : c.graph.edges n ps = es)
    (h : Drawn c.graph (if value = "" then .done else .arrow p (term value) .done) es ns) :
    Reads (c.property read n path ps) value ns := by
  unfold Context.property
  rw [hes]
  split at h
  · next hv =>
    obtain ⟨rfl, rfl⟩ := h.of_done
    exact hv ▸ .pure ""
  · obtain ⟨i, es, ns, rfl, rfl, hdone⟩ := h.of_arrow
    obtain ⟨rfl, rfl⟩ := hdone.of_done
    dsimp only
    rw [hread]
    exact .bind (.use _) (.pure value)

theorem reads_text {value : String} (hes : c.graph.edges n ps = es)
    (h : Drawn c.graph (Sketch.text p value) es ns) :
    Reads (c.property textOf? n path ps) value ns :=
  reads_property rfl hes h

theorem reads_iri {value : String} (hes : c.graph.edges n ps = es)
    (h : Drawn c.graph (Sketch.iri p value) es ns) :
    Reads (c.property Term.iri? n path ps) value ns :=
  reads_property rfl hes h

theorem reads_type {classes : List String}
    (hes : c.graph.edges n [rdfType] = [⟨i, rdfType, .iri class_⟩]) (hc : class_ ∈ classes) :
    Reads (c.takeTypes n classes) () [i] := by
  unfold Context.takeTypes
  rw [hes, List.filter_eq_self.2]
  · exact .use _
  · simpa [Term.iri?] using hc

/-! ## Sources and conditions -/

/-- The parts of a source are read back. -/
theorem reads_sourceParts {dialect : Dialect} {ls : LogicalSource}
    (h : Drawn c.graph (Sketch.ofSource dialect ls) (c.graph.star n) ns) :
    Reads (decodeSourceParts c n) ls ns := by
  unfold Sketch.ofSource at h
  generalize hstar : c.graph.star n = es at h
  obtain ⟨i, es, ns, rfl, rfl, hrest⟩ := h.of_arrow
  obtain ⟨e₁, es, n₁, ns, rfl, rfl, h₁, hrest₁⟩ := hrest.of_append
  obtain ⟨e₂, es, n₂, ns, rfl, rfl, h₂, hrest₂⟩ := hrest₁.of_append
  obtain ⟨e₃, es, n₃, ns, rfl, rfl, h₃, hrest₃⟩ := hrest₂.of_append
  obtain ⟨e₄, es, n₄, ns, rfl, rfl, h₄, hrest₄⟩ := hrest₃.of_append
  obtain ⟨e₅, e₆, n₅, n₆, rfl, rfl, h₅, h₆⟩ := hrest₄.of_append
  have hpieces : Pieces c.graph n [rdfType, Property.source, Property.referenceFormulation,
      Property.iterator, Property.tableName, queryProperty dialect, Property.sqlVersion]
      [[⟨i, rdfType, .iri (sourceClass dialect ls)⟩], e₁, e₂, e₃, e₄, e₅, e₆] := by
    refine ⟨by rw [hstar]; simp, ?_⟩
    exact .cons (by simp) (.cons (h₁.property (bears_text _ _)) (.cons (h₂.property (bears_iri _ _))
      (.cons (h₃.property (bears_text _ _)) (.cons (h₄.property (bears_text _ _))
        (.cons (h₅.property (bears_text _ _)) (.cons (h₆.property (bears_iri _ _)) .nil))))))
  have hedges (ps : List String) (k : Nat) := edges_eq_piece hpieces ps k
  have hclass : sourceClass dialect ls ∈ Class.ofSources := by
    cases dialect with
    | rml => exact List.mem_cons_self ..
    | r2rml =>
      unfold sourceClass
      dsimp only
      split <;> decide
  unfold decodeSourceParts
  refine (Reads.bind (reads_type (hedges _ 0 ?_) hclass)
    (.bind (reads_text (hedges _ 1 ?_) h₁) (.bind (reads_iri (hedges _ 2 ?_) h₂)
      (.bind (reads_text (hedges _ 3 ?_) h₃) (.bind (reads_text (hedges _ 4 ?_) h₄)
        (.bind (reads_text (hedges _ 5 ?_) h₅) (.bind (reads_iri (hedges _ 6 ?_) h₆)
          (.pure ls)))))))).mono (by simp)
  all_goals cases dialect <;> decide

/-- **The sketch of a source is read back.** -/
theorem reads_ofSource {dialect : Dialect} {ls : LogicalSource} (hn : n.isNode = true)
    (h : Drawn c.graph (Sketch.ofSource dialect ls) (c.graph.star n) ns) :
    Reads (decodeSource c n) ls ns := by
  obtain ⟨hclean, hvalue, hused⟩ := reads_sourceParts h
  have hflaws : (decodeSourceParts c n).notes.filterMap Finding.flaw? = [] := by
    rw [List.filterMap_eq_nil_iff]
    intro f hf
    have := hclean f hf
    cases f <;> simp_all [Finding.isClean, Finding.flaw?]
  unfold decodeSource
  rw [if_pos hn]
  refine ⟨fun f hf => ?_, hvalue, fun i hi => ?_⟩
  · rcases List.mem_cons.1 hf with rfl | hf
    · rw [Finding.isClean, hflaws]
      rfl
    · obtain ⟨i, -, rfl⟩ := List.mem_map.1 hf
      rfl
  · exact List.mem_cons_of_mem _ (List.mem_map.2
      ⟨i, List.mem_filterMap.2 ⟨_, hused i hi, rfl⟩, rfl⟩)

/-- A join condition with both fields is read back. -/
theorem reads_ofCondition {jc : JoinCondition} (hc : jc.child ≠ "") (hp : jc.parent ≠ "")
    (hn : c.graph.Owned n) (h : Drawn c.graph (Sketch.ofCondition jc) (c.graph.star n) ns) :
    Reads (decodeCondition c n path).run (some jc) ns := by
  unfold Sketch.ofCondition at h
  generalize hstar : c.graph.star n = es at h
  obtain ⟨i, es, ns, rfl, rfl, hrest⟩ := h.of_arrow
  obtain ⟨e₁, e₂, n₁, n₂, rfl, rfl, h₁, h₂⟩ := hrest.of_append
  have hpieces : Pieces c.graph n [rdfType, Property.child, Property.parent]
      [[⟨i, rdfType, .iri Class.join⟩], e₁, e₂] := by
    refine ⟨by rw [hstar]; simp, ?_⟩
    exact .cons (by simp) (.cons (h₁.property (bears_text _ _))
      (.cons (h₂.property (bears_text _ _)) .nil))
  have hdone : Reads (if jc.child = "" || jc.parent = "" then
      c.refuse (.incompleteCondition n) path else Pure.pure jc : Trial JoinCondition).run
        (some jc) [] := by
    rw [if_neg (by simp [hc, hp])]
    exact .ofTrial jc
  unfold decodeCondition
  exact (Reads.andThen (.takeNode _ _ hn)
    (.andThen (.lift (reads_type (edges_eq_piece hpieces _ 0 (by decide)) (by decide)))
      (.andThen (.lift (reads_text (edges_eq_piece hpieces _ 1 (by decide)) h₁))
        (.andThen (.lift (reads_text (edges_eq_piece hpieces _ 2 (by decide)) h₂))
          hdone)))).mono (by simp)

/-! ## Linked nodes -/

/-- The nodes that links lead to are read one by one. -/
theorem reads_those_links {α : Type} {R : Sketch → α → Prop} {as : List α}
    (hR : List.Forall₂ R ts as) :
    ∀ {F : Nat → Edge → Trial α} {es : List Edge} {ns : List Nat},
      (∀ i e t a ms, R t a → e.property = p → c.graph.Owned e.object →
        Drawn c.graph t (c.graph.star e.object) ms → Reads (F i e).run (some a) ms) →
      Drawn c.graph (Sketch.links p ts) es ns →
      ∃ ms, Reads (Logged.those (es.mapIdx F)) as ms ∧
        ∀ i ∈ ns, i ∈ es.map Edge.number ++ ms := by
  induction hR with
  | nil =>
    intro F es ns _ h
    obtain ⟨rfl, rfl⟩ := h.of_done
    exact ⟨[], .pure [], by simp⟩
  | @cons t a ts as hta _ ih =>
    intro F es ns hF h
    obtain ⟨i, x, es, ms, ns, rfl, rfl, hx, hinner, hrest⟩ := h.of_link
    obtain ⟨ks, hks, hnum⟩ := ih (fun i => hF (i + 1)) hrest
    refine ⟨ms ++ ks, ?_, ?_⟩
    · rw [List.mapIdx_cons]
      exact (Reads.bind (hF 0 ⟨i, p, x⟩ t a ms hta rfl hx hinner)
        (.bind hks (.pure (a :: as)))).mono (by simp)
    · intro j hj
      have := hnum j
      simp only [List.mem_append, List.mem_cons, List.map_cons] at *
      grind

/-- There is one edge for each link. -/
theorem Drawn.length_links :
    ∀ {es : List Edge} {ns : List Nat}, Drawn g (Sketch.links p ts) es ns →
      es.length = ts.length := by
  induction ts with
  | nil =>
    intro es ns h
    rw [h.of_done.1]
    rfl
  | cons t rest ih =>
    intro es ns h
    obtain ⟨i, x, es, ms, ns, rfl, rfl, -, -, hrest⟩ := h.of_link
    exact congrArg (· + 1) (ih hrest)

/-- A join is read back if its parent is known. -/
theorem reads_join {parent : Term} {id : String} {conditions : List JoinCondition}
    (hid : c.ids.lookup parent = some id) (hne : conditions ≠ [])
    (hall : ∀ jc ∈ conditions, jc.child ≠ "" ∧ jc.parent ≠ "")
    (hes : c.graph.edges n [Property.joinCondition] = es)
    (h : Drawn c.graph (Sketch.links Property.joinCondition
      (conditions.map Sketch.ofCondition)) es ns) :
    Reads (decodeJoin c n parent path).run (some (.join id conditions)) ns := by
  have hconditions : List.Forall₂
      (fun t jc => t = Sketch.ofCondition jc ∧ jc.child ≠ "" ∧ jc.parent ≠ "")
      (conditions.map Sketch.ofCondition) conditions := by
    rw [List.forall₂_map_left_iff, List.forall₂_same]
    exact fun jc hjc => ⟨rfl, hall jc hjc⟩
  obtain ⟨ms, hms, hnum⟩ := reads_those_links hconditions (F := fun i e =>
      decodeCondition c e.object (numbered (path ++ ".condition") i))
    (by
      rintro i e t jc ms ⟨rfl, hchild, hparent⟩ - howned hdrawn
      exact reads_ofCondition hchild hparent howned hdrawn) h
  have hlen : conditions.length = (es.mapIdx fun i e =>
      decodeCondition c e.object (numbered (path ++ ".condition") i)).length := by
    rw [List.length_mapIdx, h.length_links, List.length_map]
  have hdone : Reads (if conditions.isEmpty then c.refuse (.noJoinCondition parent) path
      else Pure.pure (.join id conditions) : Trial Value).run (some (.join id conditions)) [] := by
    rw [if_neg (by simpa using hne)]
    exact .ofTrial _
  unfold decodeJoin
  rw [hid]
  refine (Reads.andThen (.lift (.take hes)) (.andThen (.all_of_those hms hlen) hdone)).mono ?_
  simpa using hnum

/-- Wherever the sketch is drawn, decoding reads the term map. -/
def ReadsAs (c : Context) (functionAt : Term → String → Trial Value) (position : Position)
    (t : Sketch) (tm : TermMap) : Prop :=
  ∀ n path ms, c.graph.Owned n → Drawn c.graph t (c.graph.star n) ms →
    Reads (decodeTermMap c functionAt position n path).run (some tm) ms

variable {functionAt : Term → String → Trial Value}

/-- Linked term maps are read back one by one. -/
theorem reads_linked {link shortcut : String} {tms : List TermMap} (hne : link ≠ shortcut)
    (hread : List.Forall₂ (ReadsAs c functionAt position) ts tms)
    (hes : c.graph.edges n [link, shortcut] = es) (h : Drawn c.graph (Sketch.links link ts) es ns) :
    Reads (decodeLinked c functionAt position n path link shortcut) tms ns := by
  obtain ⟨ms, hms, hnum⟩ := reads_those_links hread (F := fun i e =>
      if e.property = shortcut then
        return .ofConstant (← decodeConstant c e.object (numbered path i))
      else decodeTermMap c functionAt position e.object (numbered path i))
    (by
      intro i e t tm ms hta hp howned hdrawn
      rw [if_neg (by rw [hp]; exact hne)]
      exact hta _ _ ms howned hdrawn) h
  unfold decodeLinked
  exact (Reads.bind (.take hes) hms).mono hnum

theorem reads_graphs {gs : List Sketch} {graphs : List TermMap}
    (hread : List.Forall₂ (ReadsAs c functionAt .graph) gs graphs)
    (hes : c.graph.edges n [Property.graphMap, Property.graph] = es)
    (h : Drawn c.graph (Sketch.links Property.graphMap gs) es ns) :
    Reads (decodeGraphs c functionAt n path) graphs ns :=
  reads_linked (by decide) hread hes h

/-- **A predicate-object map is read back** if its terms are. -/
theorem reads_pair {ps os gs : List Sketch} {predicates objects graphs : List TermMap}
    (hn : c.graph.Owned n) (hps : List.Forall₂ (ReadsAs c functionAt .predicate) ps predicates)
    (hos : List.Forall₂ (ReadsAs c functionAt .object) os objects)
    (hgs : List.Forall₂ (ReadsAs c functionAt .graph) gs graphs)
    (h : Drawn c.graph (Sketch.pair ps os gs) (c.graph.star n) ns) :
    Reads (decodePair c functionAt n path).run (some { predicates, objects, graphs }) ns := by
  unfold Sketch.pair at h
  generalize hstar : c.graph.star n = es at h
  obtain ⟨i, es, ns, rfl, rfl, hrest⟩ := h.of_arrow
  obtain ⟨e₁, es, n₁, ns, rfl, rfl, h₁, hrest₁⟩ := hrest.of_append
  obtain ⟨e₂, e₃, n₂, n₃, rfl, rfl, h₂, h₃⟩ := hrest₁.of_append
  have hpieces : Pieces c.graph n [rdfType, Property.predicateMap, Property.objectMap,
      Property.graphMap] [[⟨i, rdfType, .iri Class.predicateObjectMap⟩], e₁, e₂, e₃] := by
    refine ⟨by rw [hstar]; simp, ?_⟩
    exact .cons (by simp) (.cons (h₁.property (bears_links _ _))
      (.cons (h₂.property (bears_links _ _)) (.cons (h₃.property (bears_links _ _)) .nil)))
  unfold decodePair
  exact (Reads.andThen (.takeNode _ _ hn)
    (.andThen (.lift (reads_type (edges_eq_piece hpieces _ 0 (by decide)) (by decide)))
      (.andThen (.lift (reads_linked (by decide) hps (edges_eq_piece hpieces _ 1 (by decide)) h₁))
        (.andThen (.lift (reads_linked (by decide) hos
            (edges_eq_piece hpieces _ 2 (by decide)) h₂))
          (.andThen (.lift (reads_graphs hgs (edges_eq_piece hpieces _ 3 (by decide)) h₃))
            (.ofTrial (PredicateObjectMap.mk {} predicates objects graphs))))))).mono (by simp)

/-! ## Attributes of term maps -/

theorem kindOf?_kindIri (kind : TermType) : kindOf? (.iri (kindIri kind)) = some kind := by
  cases kind <;> decide

/-- The kind of terms that a term map states: none if it is implied. -/
def statedKind (position : Position) (tm : TermMap) : Option TermType :=
  if !tm.value.any Value.isConstant && tm.termType ≠ defaultTermType position tm then
    some tm.termType
  else none

/-- The kind is read back if it is stated. -/
theorem reads_kind {tm : TermMap} (hes : c.graph.edges n [Property.termType] = es)
    (h : Drawn c.graph (Sketch.kind position tm) es ns) :
    Reads (decodeStated c n path).run (some (statedKind position tm)) ns := by
  unfold Sketch.kind at h
  unfold decodeStated statedKind
  rw [hes]
  split at h
  · next hstated =>
    obtain ⟨i, es, ns, rfl, rfl, hdone⟩ := h.of_arrow
    obtain ⟨rfl, rfl⟩ := hdone.of_done
    rw [if_pos hstated]
    simp only [kindOf?_kindIri]
    exact .andThen (.lift (.use _)) (.ofTrial (some tm.termType))
  · next hstated =>
    obtain ⟨rfl, rfl⟩ := h.of_done
    rw [if_neg hstated]
    exact .ofTrial none

theorem defaultTermType_bare (hpos : position'.allowsLiteral = position.allowsLiteral) (v : Value)
    (t t' : TermType) (datatype language : String) (span span' : Span) :
    defaultTermType position' ⟨some v.bare, t, datatype, language, span⟩ =
      defaultTermType position ⟨some v, t', datatype, language, span'⟩ := by
  unfold defaultTermType
  rw [hpos]
  cases v <;> rfl

/-- What a term map states besides its value is read back. -/
theorem reads_attributes {e₁ e₂ e₃ : List Edge} {n₁ n₂ n₃ : List Nat}
    (hok : TermMap.Ok known position ⟨some v, termType, datatype, language, span⟩)
    (hnormal : TermMap.Normal ⟨some v, termType, datatype, language, span⟩)
    (hpos : position'.allowsLiteral = position.allowsLiteral)
    (hes₁ : c.graph.edges n [Property.termType] = e₁)
    (hes₂ : c.graph.edges n [Property.datatype] = e₂)
    (hes₃ : c.graph.edges n [Property.language] = e₃)
    (h₁ : Drawn c.graph (Sketch.kind position ⟨some v, termType, datatype, language, span⟩) e₁ n₁)
    (h₂ : Drawn c.graph (Sketch.iri Property.datatype datatype) e₂ n₂)
    (h₃ : Drawn c.graph (Sketch.text Property.language language) e₃ n₃) :
    Reads (decodeAttributes c position' n v.bare path).run
      (some ⟨some v.bare, termType, datatype, language, {}⟩) (n₁ ++ (n₂ ++ n₃)) := by
  rw [TermMap.Ok] at hok
  rw [TermMap.Normal] at hnormal
  -- the kind that is stated or meant is the one the term map has
  have hkind (hv : v.isConstant = false) :
      (statedKind position ⟨some v, termType, datatype, language, span⟩).getD
        (defaultTermType position' ⟨some v.bare, .iri, datatype, language, {}⟩) = termType := by
    rw [defaultTermType_bare hpos v .iri termType datatype language {} span]
    unfold statedKind
    by_cases heq :
        termType = defaultTermType position ⟨some v, termType, datatype, language, span⟩
    · rw [if_neg (by simp [← heq])]
      exact heq.symm
    · rw [if_pos (by simp [hv, heq])]
      rfl
  unfold decodeAttributes
  refine (Reads.andThen (reads_kind hes₁ h₁) (.andThen (.lift (reads_iri hes₂ h₂))
    (.andThen (.lift (reads_text hes₃ h₃)) (?_ : Reads _ _ [])))).mono (by simp)
  by_cases hv : v.isConstant = true
  · cases v with
    | constant term =>
      obtain ⟨rfl, rfl⟩ := hnormal.1 rfl
      rw [Value.Ok] at hok
      obtain ⟨⟨rfl, -⟩, -⟩ := hok
      have hnone : statedKind position ⟨some (.constant term), term.kind, "", "", span⟩ = none :=
        if_neg (by simp [Value.isConstant])
      simp only [Value.bare, hnone, Option.getD_none, if_true]
      exact .andThen (.ofTrial term) (.ofTrial _)
    | _ => cases hv
  · have hv' : v.isConstant = false := by simpa using hv
    split
    · next term hbare => cases v <;> simp_all [Value.bare, Value.isConstant]
    · simp only [hkind hv']
      exact .ofTrial _

/-! ## Term maps -/

/-- A value begins with the arrow that gives it; only join conditions follow. -/
theorem Drawn.of_value (h : Drawn g (Sketch.ofValue s v) es ns) :
    ∃ e js, es = e :: js ∧ e.property ∈ Property.values ∧
      ∀ j ∈ js, j.property = Property.joinCondition := by
  cases v with
  | constant term =>
    rw [Sketch.ofValue] at h
    obtain ⟨i, es, ns, rfl, rfl, hdone⟩ := h.of_arrow
    exact ⟨_, es, rfl, by dsimp only; decide, by simp [hdone.of_done.1]⟩
  | reference name =>
    rw [Sketch.ofValue] at h
    obtain ⟨i, es, ns, rfl, rfl, hdone⟩ := h.of_arrow
    refine ⟨_, es, rfl, ?_, by simp [hdone.of_done.1]⟩
    dsimp only
    cases s.dialect <;> decide
  | template pattern =>
    rw [Sketch.ofValue] at h
    obtain ⟨i, es, ns, rfl, rfl, hdone⟩ := h.of_arrow
    exact ⟨_, es, rfl, by dsimp only; decide, by simp [hdone.of_done.1]⟩
  | function name parameters =>
    rw [Sketch.ofValue] at h
    obtain ⟨i, x, es, ms, ns, rfl, rfl, -, -, hdone⟩ := h.of_link
    exact ⟨_, es, rfl, by dsimp only; decide, by simp [hdone.of_done.1]⟩
  | join parent conditions =>
    rw [Sketch.ofValue] at h
    obtain ⟨i, es, ns, rfl, rfl, hlinks⟩ := h.of_arrow
    exact ⟨_, es, rfl, by dsimp only; decide, hlinks.property (bears_links _ _)⟩

/-- The properties of the pieces of a node; the last two are those of subjects. -/
def pieceNames (p : String) : List String :=
  [rdfType, p, Property.joinCondition, Property.termType, Property.datatype, Property.language,
    Property.classOf, Property.graphMap]

/-- In normal form, a join has nothing to state besides its value. -/
theorem attributes_of_normal (h : TermMap.Normal ⟨some v, termType, datatype, language, span⟩) :
    Sketch.attributes position ⟨some v, termType, datatype, language, span⟩ =
      Sketch.kind position ⟨some v, termType, datatype, language, span⟩ ++
        (Sketch.iri Property.datatype datatype ++ Sketch.text Property.language language) := by
  rw [TermMap.Normal] at h
  unfold Sketch.attributes
  split
  · next hj =>
    obtain ⟨rfl, rfl, rfl⟩ := h.2.1 hj
    have hdefault : TermType.iri = defaultTermType position ⟨some v, .iri, "", "", span⟩ := by
      cases v with
      | join parent conditions =>
        unfold defaultTermType
        split <;> rfl
      | _ => cases hj
    rw [Sketch.kind, ← hdefault, if_neg (by simp)]
    rfl
  · rfl

/-- The pieces of the node of a term map, with the parts of the sketch they show. -/
theorem exists_pieces {m₁ m₂ : List Edge}
    (hnormal : TermMap.Normal ⟨some v, termType, datatype, language, span⟩)
    (hstar : c.graph.star n = es ++ (m₁ ++ m₂)) (hm₁ : ∀ e ∈ m₁, e.property = Property.classOf)
    (hm₂ : ∀ e ∈ m₂, e.property = Property.graphMap) (h : Drawn c.graph
      (Sketch.ofTermMap s class_ position ⟨some v, termType, datatype, language, span⟩) es ns) :
    ∃ i e js e₁ e₂ e₃ nv n₁ n₂ n₃,
      e.property ∈ Property.values ∧ ns = i :: (nv ++ (n₁ ++ (n₂ ++ n₃))) ∧
      Pieces c.graph n (pieceNames e.property)
        [[⟨i, rdfType, .iri class_⟩], [e], js, e₁, e₂, e₃, m₁, m₂] ∧
      Drawn c.graph (Sketch.ofValue s v) (e :: js) nv ∧
      Drawn c.graph (Sketch.kind position ⟨some v, termType, datatype, language, span⟩) e₁ n₁ ∧
      Drawn c.graph (Sketch.iri Property.datatype datatype) e₂ n₂ ∧
      Drawn c.graph (Sketch.text Property.language language) e₃ n₃ := by
  rw [Sketch.ofTermMap, attributes_of_normal hnormal] at h
  obtain ⟨i, es, ns, rfl, rfl, hrest⟩ := h.of_arrow
  obtain ⟨ev, es, nv, ns, rfl, rfl, hv, hrest₁⟩ := hrest.of_append
  obtain ⟨e₁, es, n₁, ns, rfl, rfl, h₁, hrest₂⟩ := hrest₁.of_append
  obtain ⟨e₂, e₃, n₂, n₃, rfl, rfl, h₂, h₃⟩ := hrest₂.of_append
  obtain ⟨e, js, rfl, he, hjs⟩ := hv.of_value
  refine ⟨i, e, js, e₁, e₂, e₃, nv, n₁, n₂, n₃, he, rfl, ⟨?_, ?_⟩, hv, h₁, h₂, h₃⟩
  · rw [hstar]
    simp
  · exact .cons (by simp) (.cons (by simp) (.cons hjs (.cons (h₁.property (bears_kind _ _))
      (.cons (h₂.property (bears_iri _ _)) (.cons (h₃.property (bears_text _ _))
        (.cons hm₁ (.cons hm₂ .nil)))))))

/-- Wherever the sketch of a value is drawn, decoding reads the value. -/
def ValueReads (c : Context) (functionAt : Term → String → Trial Value) (s : Setting)
    (v : Value) : Prop :=
  ∀ n path e js ns, Drawn c.graph (Sketch.ofValue s v) (e :: js) ns →
    c.graph.edges n [Property.joinCondition] = js →
    ∃ ms, Reads (decodeValue c functionAt n e path).run (some v.bare) ms ∧
      ∀ i ∈ ns, i ∈ e.number :: ms

/-- The sketch of a term map is read back if that of its value is. -/
theorem reads_termMap {m₁ m₂ : List Edge} (hclass : class_ ∈ Class.ofTermMaps)
    (hpos : position'.allowsLiteral = position.allowsLiteral)
    (hok : TermMap.Ok known position ⟨some v, termType, datatype, language, span⟩)
    (hnormal : TermMap.Normal ⟨some v, termType, datatype, language, span⟩)
    (hv : ValueReads c functionAt s v) (hn : c.graph.Owned n)
    (hstar : c.graph.star n = es ++ (m₁ ++ m₂)) (hm₁ : ∀ e ∈ m₁, e.property = Property.classOf)
    (hm₂ : ∀ e ∈ m₂, e.property = Property.graphMap) (h : Drawn c.graph
      (Sketch.ofTermMap s class_ position ⟨some v, termType, datatype, language, span⟩) es ns) :
    Reads (decodeTermMap c functionAt position' n path).run
      (some ⟨some v.bare, termType, datatype, language, {}⟩) ns := by
  obtain ⟨i, e, js, e₁, e₂, e₃, nv, n₁, n₂, n₃, he, rfl, hpieces, hdv, h₁, h₂, h₃⟩ :=
    exists_pieces hnormal hstar hm₁ hm₂ h
  have hmask : ∀ p ∈ Property.values,
      ∀ a ∈ [([rdfType], 0), (Property.values, 1), ([Property.joinCondition], 2),
        ([Property.termType], 3), ([Property.datatype], 4), ([Property.language], 5)],
      (pieceNames p).map a.1.contains = (List.range (pieceNames p).length).map (· == a.2) := by
    decide
  have hedges (a : List String × Nat) (ha : a ∈ [([rdfType], 0), (Property.values, 1),
      ([Property.joinCondition], 2), ([Property.termType], 3), ([Property.datatype], 4),
      ([Property.language], 5)]) := edges_eq_piece hpieces a.1 a.2 (hmask _ he a ha)
  obtain ⟨ms, hms, hnum⟩ := hv n path e js nv hdv (hedges ([Property.joinCondition], 2) (by decide))
  have hvalues : c.graph.edges n Property.values = [e] := hedges (Property.values, 1) (by decide)
  unfold decodeTermMap
  rw [hvalues]
  refine (Reads.andThen (.takeNode _ _ hn)
    (.andThen (.lift (reads_type (hedges ([rdfType], 0) (by decide)) hclass))
      (.andThen (.lift (.use [e])) (.andThen hms (reads_attributes hok hnormal hpos
        (hedges ([Property.termType], 3) (by decide)) (hedges ([Property.datatype], 4) (by decide))
        (hedges ([Property.language], 5) (by decide)) h₁ h₂ h₃))))).mono ?_
  intro j hj
  have := hnum j
  simp only [List.mem_cons, List.mem_append, List.map_cons, List.map_nil, List.not_mem_nil] at *
  grind

theorem objectClass_mem (tm : TermMap) : objectClass tm ∈ Class.ofTermMaps := by
  unfold objectClass
  split <;> decide

theorem readsAs_termMap (hclass : class_ ∈ Class.ofTermMaps)
    (hpos : position'.allowsLiteral = position.allowsLiteral)
    (hok : TermMap.Ok known position ⟨some v, termType, datatype, language, span⟩)
    (hnormal : TermMap.Normal ⟨some v, termType, datatype, language, span⟩)
    (hv : ValueReads c functionAt s v) :
    ReadsAs c functionAt position'
      (Sketch.ofTermMap s class_ position ⟨some v, termType, datatype, language, span⟩)
      ⟨some v.bare, termType, datatype, language, {}⟩ := by
  intro n path ms hn hd
  have hstar : c.graph.star n = c.graph.star n ++ ([] ++ []) := by simp
  exact reads_termMap hclass hpos hok hnormal hv hn hstar nofun nofun hd

/-! ## Values -/

/-- A normal constant is what its term stands for. -/
theorem constantOf_termOf {term : Constant} (h : term.Normal) :
    constantOf (termOf term) = .ok term := by
  obtain ⟨kind, value, datatype, language⟩ := term
  obtain ⟨hone, hnone⟩ := h
  dsimp only at hone hnone
  cases kind with
  | iri =>
    obtain ⟨rfl, rfl⟩ := hnone (by simp)
    rfl
  | blankNode =>
    obtain ⟨rfl, rfl⟩ := hnone (by simp)
    rfl
  | literal =>
    unfold termOf
    dsimp only
    by_cases hl : language = ""
    · by_cases hd : datatype = ""
      · rw [if_neg (by simp [hl]), if_neg (by simp [hd]), hl, hd]
        rfl
      · rw [if_neg (by simp [hl]), if_pos hd, hl]
        rfl
    · rw [if_pos hl, hone.resolve_right hl]
      rfl

/-- A value that is drawn as one arrow is read back if its edge is. -/
theorem valueReads_of_arrow {o : Term} (hv : Sketch.ofValue s v = .arrow p o .done)
    (hread : ∀ n path i, Reads (decodeValue c functionAt n ⟨i, p, o⟩ path).run (some v.bare) []) :
    ValueReads c functionAt s v := by
  intro n path e js ns hd _
  rw [hv] at hd
  obtain ⟨i, es, ns, heq, rfl, hdone⟩ := hd.of_arrow
  obtain ⟨rfl, -⟩ := List.cons.inj heq
  exact ⟨[], hread n path i, by simp [hdone.of_done.2]⟩

theorem valueReads_constant (s : Setting) {term : Constant} (h : term.Normal) :
    ValueReads c functionAt s (.constant term) := by
  refine valueReads_of_arrow (by rw [Sketch.ofValue]) fun n path i => ?_
  unfold decodeValue decodeConstant
  simp only [if_true, constantOf_termOf h, Value.bare]
  exact .andThen (.ofTrial term) (.ofTrial _)

theorem valueReads_reference (s : Setting) (name : String) :
    ValueReads c functionAt s (.reference name) := by
  refine valueReads_of_arrow (by rw [Sketch.ofValue]) fun n path i => ?_
  have hne : referenceProperty s.dialect ≠ Property.constant ∧
      referenceProperty s.dialect ≠ Property.template ∧
      referenceProperty s.dialect ≠ Property.functionValue ∧
      referenceProperty s.dialect ≠ Property.parentTriplesMap := by
    cases s.dialect <;> decide
  unfold decodeValue
  dsimp only
  rw [if_neg hne.1, if_neg hne.2.1, if_neg hne.2.2.1, if_neg hne.2.2.2, Value.bare]
  exact .ofTrial _

theorem valueReads_template (s : Setting) (pattern : String) :
    ValueReads c functionAt s (.template pattern) := by
  refine valueReads_of_arrow (by rw [Sketch.ofValue]) fun n path i => ?_
  unfold decodeValue
  dsimp only
  rw [if_neg (by decide), if_pos rfl, Value.bare]
  exact .ofTrial _

theorem valueReads_join {parent : String} {conditions : List JoinCondition}
    (hid : c.ids.lookup (.iri (mapIri s.base parent)) = some parent) (hne : conditions ≠ [])
    (hall : ∀ jc ∈ conditions, jc.child ≠ "" ∧ jc.parent ≠ "") :
    ValueReads c functionAt s (.join parent conditions) := by
  intro n path e js ns hd hjs
  rw [Sketch.ofValue] at hd
  obtain ⟨i, es, ns, heq, rfl, hlinks⟩ := hd.of_arrow
  obtain ⟨rfl, rfl⟩ := List.cons.inj heq
  refine ⟨ns, ?_, fun j hj => hj⟩
  unfold decodeValue
  dsimp only
  rw [if_neg (by decide), if_neg (by decide), if_neg (by decide), if_pos rfl, Value.bare]
  exact reads_join hid hne hall hjs hlinks

theorem ofIri_eq_ofTermMap (s : Setting) (class_ value : String) (position : Position) :
    Sketch.ofIri class_ value =
      Sketch.ofTermMap s class_ position (.ofConstant (.ofIri value)) := by
  rw [TermMap.ofConstant, Sketch.ofTermMap, Sketch.ofValue, Sketch.attributes, Sketch.kind,
    if_neg (by simp [Value.isJoin]), if_neg (by simp [Value.isConstant])]
  rfl

/-- An IRI is read back as a constant. -/
theorem readsAs_ofIri (hclass : class_ ∈ Class.ofTermMaps) (value : String) (position : Position) :
    ReadsAs c functionAt position (Sketch.ofIri class_ value) (.ofConstant (.ofIri value)) := by
  let s : Setting := ⟨"", .rml, []⟩
  rw [ofIri_eq_ofTermMap s class_ value position]
  have hok : TermMap.Ok (fun _ => True) position (.ofConstant (.ofIri value)) := by
    rw [TermMap.ofConstant, TermMap.Ok, Value.Ok]
    exact ⟨⟨rfl, nofun⟩, ⟨fun _ => rfl, fun _ => nofun, .inl rfl, by simp⟩⟩
  have hnormal : (TermMap.ofConstant (.ofIri value)).Normal := by
    rw [TermMap.ofConstant, TermMap.Normal, Value.Normal]
    exact ⟨fun _ => ⟨rfl, rfl⟩, nofun, .inl rfl, fun _ => ⟨rfl, rfl⟩⟩
  exact readsAs_termMap hclass rfl hok hnormal
    (valueReads_constant s ⟨.inl rfl, fun _ => ⟨rfl, rfl⟩⟩)

/-! ## Functions -/

/-- An entry for a parameter is read back. -/
theorem reads_parameterEntry {name parameter : String} {tm : TermMap}
    (hne : parameter ≠ Property.executes) (ht : ReadsAs c functionAt .object t tm)
    (hn : c.graph.Owned n)
    (h : Drawn c.graph (Sketch.pair [Sketch.ofIri Class.predicateMap parameter] [t] [])
      (c.graph.star n) ns) :
    Reads (decodeEntry c functionAt name n path).run (some (.parameter ⟨parameter, tm⟩)) ns := by
  have hpair : Reads (decodePair c functionAt n path).run _ ns :=
    reads_pair hn (.cons (readsAs_ofIri (by decide) _ _) .nil) (.cons ht .nil) .nil h
  unfold decodeEntry entryOf
  refine (Reads.andThen hpair (?_ : Reads _ _ [])).mono (by simp)
  simp only [TermMap.ofConstant, Constant.ofIri, constantIri?, if_true]
  rw [if_pos hne]
  exact .ofTrial _

theorem reads_executesEntry {function : String} (hn : c.graph.Owned n)
    (h : Drawn c.graph (Sketch.pair [Sketch.ofIri Class.predicateMap Property.executes]
      [Sketch.ofIri Class.objectMap function] []) (c.graph.star n) ns) :
    Reads (decodeEntry c functionAt "" n path).run (some (.executes function)) ns := by
  have hpair : Reads (decodePair c functionAt n path).run _ ns :=
    reads_pair hn (.cons (readsAs_ofIri (by decide) _ _) .nil)
      (.cons (readsAs_ofIri (by decide) _ _) .nil) .nil h
  unfold decodeEntry entryOf
  refine (Reads.andThen hpair (?_ : Reads _ _ [])).mono (by simp)
  simp only [TermMap.ofConstant, Constant.ofIri, constantIri?, if_true]
  exact .ofTrial _

theorem reads_entries_cons {e : Edge} {rest : List Edge} {name last : String}
    {entry : FunctionEntry} {ps : List Parameter}
    (hentry : Reads (decodeEntry c functionAt name e.object
      (numbered (path ++ ".function") i)).run (some entry) ms)
    (hrest : Reads (decodeEntries c functionAt path (i + 1) (entry.executes?.getD name) rest).run
      (some (last, ps)) ns) :
    Reads (decodeEntries c functionAt path i name (e :: rest)).run
      (some (last, entry.parameter?.toList ++ ps)) (ms ++ ns) := by
  rw [decodeEntries]
  exact (Reads.bind hentry (.bind hrest
    (.pure (some (last, entry.parameter?.toList ++ ps))))).mono (by simp)

/-- A function value is read back if its entries are. -/
theorem reads_function {function : String} {ps : List Parameter} (hne : function ≠ "")
    (hn : c.graph.Owned n)
    (h : Drawn c.graph (Sketch.links Property.predicateObjectMap ts) (c.graph.star n) ns)
    (hentries : ∃ ms, Reads (decodeEntries c functionAt path 0 "" (c.graph.star n)).run
      (some (function, ps)) ms ∧ ∀ i ∈ ns, i ∈ (c.graph.star n).map Edge.number ++ ms) :
    Reads (decodeFunction c functionAt n path).run (some (.function function ps)) ns := by
  obtain ⟨ms, hms, hnum⟩ := hentries
  have hpieces : Pieces c.graph n [Property.predicateObjectMap] [c.graph.star n] :=
    ⟨by simp, .cons (h.property (bears_links _ _)) .nil⟩
  have htypes : Reads (c.takeTypes n [Class.triplesMap]) () [] := by
    unfold Context.takeTypes
    rw [edges_eq_piece hpieces [rdfType] 1 (by decide)]
    exact .use []
  unfold decodeFunction
  refine (Reads.andThen (.takeNode _ _ hn) (.andThen (.lift htypes)
    (.andThen (.lift (.take (edges_eq_piece hpieces [Property.logicalSource] 1 (by decide))))
      (.andThen (.lift (.pure [])) (.andThen (.lift (.take (edges_eq_piece hpieces
        [Property.predicateObjectMap] 0 (by decide)))) (.andThen hms
          (?_ : Reads _ _ []))))))).mono ?_
  · dsimp only
    rw [if_neg hne]
    exact .ofTrial _
  · simpa using hnum

theorem count_append (p : String) (t u : Sketch) :
    (t ++ u).count p = t.count p + u.count p := by
  induction t with
  | done => simp [Sketch.count]
  | arrow q o rest ih => simp [Sketch.count, ih]
  | link q inner rest _ ih => simp [Sketch.count, ih]; omega

theorem count_le_count_pair (p : String) (t u : Sketch) :
    u.count p ≤ (Sketch.pair [t] [u] []).count p := by
  simp only [Sketch.pair, Sketch.links, Sketch.count, count_append]
  omega

theorem count_le_count_links {q : String} (h : t ∈ ts) :
    t.count p ≤ (Sketch.links q ts).count p := by
  induction ts with
  | nil => exact absurd h List.not_mem_nil
  | cons u rest ih =>
    rw [Sketch.links, Sketch.count]
    rcases List.mem_cons.1 h with rfl | h
    · omega
    · have := ih h
      omega

/-- Classes are read back in order. -/
theorem reads_classes {cs : List String} (hes : c.graph.edges n [Property.classOf] = es)
    (h : Drawn c.graph (Sketch.classes cs) es ns) : Reads (decodeClasses c n) cs ns := by
  have hshape : es.map Edge.number = ns ∧ es.filter (fun e => e.object.iri?.isSome) = es ∧
      es.filterMap (fun e => e.object.iri?) = cs := by
    clear hes
    induction cs generalizing es ns with
    | nil =>
      obtain ⟨rfl, rfl⟩ := h.of_done
      exact ⟨rfl, rfl, rfl⟩
    | cons class_ rest ih =>
      obtain ⟨i, es, ns, rfl, rfl, hrest⟩ := h.of_arrow
      obtain ⟨hnum, hfilter, hmap⟩ := ih hrest
      exact ⟨congrArg _ hnum, congrArg _ hfilter, congrArg _ hmap⟩
  unfold decodeClasses
  rw [hes, hshape.2.1, ← hshape.1]
  dsimp only
  rw [hshape.2.2]
  exact (Reads.bind (.use es) (.pure cs)).mono (by simp)

section Induction

variable {s : Setting} {known : String → Prop}

mutual

/-- **The sketch of a value is read back**, if it is not too deep. -/
theorem valueReads_ofValue
    (hknown : ∀ id, known id → c.ids.lookup (.iri (mapIri s.base id)) = some id) :
    ∀ {v : Value} {position : Position} {termType : TermType} {depth : Nat},
      v.Ok known position termType → v.Normal →
      (Sketch.ofValue s v).count Property.functionValue ≤ depth →
      ValueReads c (functionWithin c depth) s v
  | .constant term, _, _, _, _, hnormal, _ => by
    rw [Value.Normal] at hnormal
    exact valueReads_constant s hnormal
  | .reference name, _, _, _, _, _, _ => valueReads_reference s name
  | .template pattern, _, _, _, _, _, _ => valueReads_template s pattern
  | .join parent conditions, _, _, _, hok, _, _ => by
    rw [Value.Ok] at hok
    exact valueReads_join (hknown _ hok.2.1) hok.2.2.1 hok.2.2.2
  | .function name parameters, _, _, depth, hok, hnormal, hdepth => by
    rw [Value.Ok] at hok
    rw [Value.Normal] at hnormal
    simp only [Sketch.ofValue, Sketch.links, Sketch.count, if_true] at hdepth
    intro n path e js ns hd _
    rw [Sketch.ofValue] at hd
    obtain ⟨i, x, es, ms, ns, heq, rfl, hx, hinner, hdone⟩ := hd.of_link
    obtain ⟨rfl, -⟩ := List.cons.inj heq
    obtain ⟨-, rfl⟩ := hdone.of_done
    refine ⟨ms, ?_, by simp⟩
    -- one level of nesting is spent on this function
    obtain ⟨d, rfl⟩ : ∃ d, depth = d + 1 := ⟨depth - 1, by omega⟩
    have hless : (Sketch.links Property.predicateObjectMap
        (Sketch.ofParameters s parameters)).count Property.functionValue ≤ d := by omega
    unfold decodeValue
    dsimp only
    rw [if_neg (by decide), if_neg (by decide), if_pos rfl, Value.bare, functionWithin]
    refine reads_function hok.1 hx hinner ?_
    rw [Sketch.links] at hinner
    generalize hstar : c.graph.star x = star at hinner
    obtain ⟨j, y, rest, ks, ls, rfl, rfl, hy, hentry, hrest⟩ := hinner.of_link
    obtain ⟨ms, hms, hnum⟩ := reads_ofParameters hknown hok.2 hnormal hless 1 name path hrest
    refine ⟨_, reads_entries_cons (reads_executesEntry hy hentry) hms, ?_⟩
    intro k hk
    have := hnum k
    simp only [List.mem_append, List.mem_cons, List.map_cons] at *
    grind

/-- Parameters are read back in order. -/
theorem reads_ofParameters
    (hknown : ∀ id, known id → c.ids.lookup (.iri (mapIri s.base id)) = some id) :
    ∀ {ps : List Parameter} {depth : Nat}, Parameter.OkAll known ps → Parameter.NormalAll ps →
      (Sketch.links Property.predicateObjectMap (Sketch.ofParameters s ps)).count
        Property.functionValue ≤ depth →
      ∀ (i : Nat) (name path : String) {es : List Edge} {ns : List Nat},
        Drawn c.graph
          (Sketch.links Property.predicateObjectMap (Sketch.ofParameters s ps)) es ns →
        ∃ ms, Reads (decodeEntries c (functionWithin c depth) path i name es).run
            (some (name, Parameter.bareAll ps)) ms ∧
          ∀ j ∈ ns, j ∈ es.map Edge.number ++ ms
  | [], _, _, _, _, i, name, path, es, ns, hd => by
    rw [Sketch.ofParameters] at hd
    obtain ⟨rfl, rfl⟩ := hd.of_done
    rw [Parameter.bareAll, decodeEntries]
    exact ⟨[], .ofTrial _, by simp⟩
  | ⟨parameter, value⟩ :: rest, depth, hok, hnormal, hdepth, i, name, path, es, ns, hd => by
    rw [Parameter.OkAll] at hok
    rw [Parameter.NormalAll] at hnormal
    rw [Sketch.ofParameters, Sketch.links, Sketch.count] at hdepth
    rw [Sketch.ofParameters] at hd
    obtain ⟨j, y, es, ks, ls, rfl, rfl, hy, hentry, hrest⟩ := hd.of_link
    have hcount := count_le_count_pair Property.functionValue
      (Sketch.ofIri Class.predicateMap parameter)
      (Sketch.ofTermMap s (objectClass value) .parameter value)
    have hless : (Sketch.links Property.predicateObjectMap
        (Sketch.ofParameters s rest)).count Property.functionValue ≤ depth := by omega
    have hvalue : ReadsAs c (functionWithin c depth) .object
        (Sketch.ofTermMap s (objectClass value) .parameter value) value.bare :=
      readsAs_ofTermMap hknown (objectClass_mem value) rfl hok.2.1 hnormal.2.1 (by omega)
    obtain ⟨ms, hms, hnum⟩ :=
      reads_ofParameters hknown hok.2.2 hnormal.2.2 hless (i + 1) name path hrest
    rw [Parameter.bareAll]
    refine ⟨_, reads_entries_cons (reads_parameterEntry hnormal.1 hvalue hy hentry) hms, ?_⟩
    intro k hk
    have := hnum k
    simp only [List.mem_append, List.mem_cons, List.map_cons] at *
    grind

/-- **The sketch of a term map is read back.** -/
theorem readsAs_ofTermMap
    (hknown : ∀ id, known id → c.ids.lookup (.iri (mapIri s.base id)) = some id) :
    ∀ {tm : TermMap} {class_ : String} {position position' : Position} {depth : Nat},
      class_ ∈ Class.ofTermMaps → position'.allowsLiteral = position.allowsLiteral →
      tm.Ok known position → tm.Normal →
      (Sketch.ofTermMap s class_ position tm).count Property.functionValue ≤ depth →
      ReadsAs c (functionWithin c depth) position' (Sketch.ofTermMap s class_ position tm) tm.bare
  | ⟨none, _, _, _, _⟩, _, _, _, _, _, _, hok, _, _ => by
    rw [TermMap.Ok] at hok
    exact hok.elim
  | ⟨some v, _, _, _, _⟩, _, _, _, _, hclass, hpos, hok, hnormal, hdepth => by
    rw [Sketch.ofTermMap, Sketch.count, count_append] at hdepth
    have hok' := hok
    rw [TermMap.Ok] at hok'
    have hnormal' := hnormal
    rw [TermMap.Normal] at hnormal'
    rw [TermMap.bare]
    exact readsAs_termMap hclass hpos hok hnormal
      (valueReads_ofValue hknown hok'.1 hnormal'.2.2 (by omega))

end

/-! ## Triples maps -/

variable (hknown : ∀ id, known id → c.ids.lookup (.iri (mapIri s.base id)) = some id)

include hknown

/-- The sketches of linked term maps are read back one by one. -/
theorem forall₂_readsAs
    {class_ : TermMap → String} (link : String) {tms : List TermMap}
    (hclass : ∀ tm, class_ tm ∈ Class.ofTermMaps) (hok : ∀ tm ∈ tms, tm.Ok known position)
    (hnormal : ∀ tm ∈ tms, tm.Normal) (hdepth : (Sketch.links link (tms.map fun tm =>
      Sketch.ofTermMap s (class_ tm) position tm)).count Property.functionValue ≤ depth) :
    List.Forall₂ (ReadsAs c (functionWithin c depth) position)
      (tms.map fun tm => Sketch.ofTermMap s (class_ tm) position tm) (tms.map TermMap.bare) := by
  rw [List.forall₂_map_left_iff, List.forall₂_map_right_iff, List.forall₂_same]
  intro tm htm
  refine readsAs_ofTermMap hknown (hclass tm) rfl (hok tm htm) (hnormal tm htm) ?_
  have hmem : Sketch.ofTermMap s (class_ tm) position tm ∈
      tms.map fun tm => Sketch.ofTermMap s (class_ tm) position tm := List.mem_map.2 ⟨tm, htm, rfl⟩
  exact Nat.le_trans (count_le_count_links hmem) hdepth

/-- **The sketch of a predicate-object map is read back.** -/
theorem reads_ofPair
    {pom : PredicateObjectMap} (hok : pom.Ok known) (hnormal : pom.Normal)
    (hdepth : (Sketch.ofPair s pom).count Property.functionValue ≤ depth) (hn : c.graph.Owned n)
    (h : Drawn c.graph (Sketch.ofPair s pom) (c.graph.star n) ns) :
    Reads (decodePair c (functionWithin c depth) n path).run (some pom.bare) ns := by
  simp only [Sketch.ofPair, Sketch.pair, Sketch.count, count_append] at hdepth
  have hps := forall₂_readsAs hknown Property.predicateMap (fun _ => by decide) hok.predicates
    hnormal.predicates (Nat.le_trans (Nat.le_add_right _ _) hdepth)
  have hos := forall₂_readsAs hknown Property.objectMap objectClass_mem hok.objects hnormal.objects
    (Nat.le_trans (Nat.le_add_right _ _) (Nat.le_trans (Nat.le_add_left _ _) hdepth))
  have hgs := forall₂_readsAs hknown Property.graphMap (fun _ => by decide) hok.graphs
    hnormal.graphs (Nat.le_trans (Nat.le_add_left _ _) (Nat.le_trans (Nat.le_add_left _ _) hdepth))
  exact reads_pair hn hps hos hgs h

/-- **The sketch of the subjects of a map is read back.** -/
theorem reads_ofSubject
    {subject : SubjectMap} (hterm : subject.term.Ok known .subject)
    (hgraphs : ∀ g ∈ subject.graphs, g.Ok known .graph) (hnormal : subject.term.Normal)
    (hnormals : ∀ g ∈ subject.graphs, g.Normal)
    (hdepth : (Sketch.ofSubject s subject).count Property.functionValue ≤ depth)
    (hn : c.graph.Owned n) (h : Drawn c.graph (Sketch.ofSubject s subject) (c.graph.star n) ns) :
    Reads (decodeSubject c (functionWithin c depth) ⟨i, Property.subjectMap, n⟩).run
      (some subject.bare) ns := by
  obtain ⟨tm, cs, gs⟩ := subject
  rcases tm with ⟨_ | v, termType, datatype, language, span⟩
  · rw [TermMap.Ok] at hterm
    exact hterm.elim
  unfold Sketch.ofSubject at h hdepth
  simp only [count_append, Sketch.ofTermMap, Sketch.count] at hdepth
  have hgs := forall₂_readsAs hknown Property.graphMap (fun _ => by decide) hgraphs hnormals
    (Nat.le_trans (Nat.le_add_left _ _) (Nat.le_trans (Nat.le_add_left _ _) hdepth))
  generalize hstar : c.graph.star n = es at h
  obtain ⟨es, m, ns, ms, rfl, rfl, hd, hrest⟩ := h.of_append
  obtain ⟨m₁, m₂, k₁, k₂, rfl, rfl, h₁, h₂⟩ := hrest.of_append
  have hm₁ := h₁.property (bears_classes _)
  have hm₂ := h₂.property (bears_links _ _)
  have hvalue : ValueReads c (functionWithin c depth) s v := by
    have hok := hterm
    have hnorm := hnormal
    rw [TermMap.Ok] at hok
    rw [TermMap.Normal] at hnorm
    exact valueReads_ofValue hknown hok.1 hnorm.2.2 (by omega)
  have hread : Reads (decodeTermMap c (functionWithin c depth) .subject n "subject").run _ ns :=
    reads_termMap (by decide) rfl hterm hnormal hvalue hn hstar hm₁ hm₂ hd
  obtain ⟨_, e, _, _, _, _, _, _, _, _, he, -, hpieces, -⟩ :=
    exists_pieces hnormal hstar hm₁ hm₂ hd
  have hmask : ∀ p ∈ Property.values,
      (pieceNames p).map [Property.classOf].contains =
        (List.range (pieceNames p).length).map (· == 6) ∧
      (pieceNames p).map [Property.graphMap, Property.graph].contains =
        (List.range (pieceNames p).length).map (· == 7) := by
    decide
  have hcs := edges_eq_piece hpieces [Property.classOf] 6 (hmask _ he).1
  have hgraph := edges_eq_piece hpieces [Property.graphMap, Property.graph] 7 (hmask _ he).2
  unfold decodeSubject
  dsimp only
  rw [if_neg (by decide), if_neg (hn.not_shared _)]
  refine (Reads.andThen hread (.andThen (.lift (reads_classes hcs h₁))
    (.andThen (.lift (reads_graphs hgs hgraph h₂)) (.ofTrial (SubjectMap.mk _ _ _))))).mono ?_
  simp

/-- **The sketch of a triples map is read back.** -/
theorem reads_ofTriplesMap {tm : TriplesMap}
    (hid : c.mapping = tm.id) (hok : tm.Ok known) (hnormal : tm.Normal)
    (hdepth : (Sketch.ofTriplesMap s tm).count Property.functionValue ≤ depth)
    (h : Drawn c.graph (Sketch.ofTriplesMap s tm) (c.graph.star n) ns) :
    Reads (decodeTriplesMap c (functionWithin c depth) n) tm.bare ns := by
  unfold Sketch.ofTriplesMap at h hdepth
  simp only [Sketch.count] at hdepth
  generalize hstar : c.graph.star n = es at h
  obtain ⟨i, x, es, ms, ns, rfl, rfl, hx, hsource, hrest⟩ := h.of_link
  obtain ⟨j, es, ns, rfl, rfl, hrest₁⟩ := hrest.of_arrow
  obtain ⟨k, y, es, ks, ns, rfl, rfl, hy, hsubject, hpairs⟩ := hrest₁.of_link
  have hpieces : Pieces c.graph n [sourceProperty s.dialect, rdfType, Property.subjectMap,
      Property.predicateObjectMap] [[⟨i, sourceProperty s.dialect, x⟩],
        [⟨j, rdfType, .iri Class.triplesMap⟩], [⟨k, Property.subjectMap, y⟩], es] :=
    ⟨by rw [hstar]; simp, .cons (by simp) (.cons (by simp) (.cons (by simp)
      (.cons (hpairs.property (bears_links _ _)) .nil)))⟩
  have hown : Reads (decodeOwnSource c n) tm.source (i :: ms) := by
    unfold decodeOwnSource
    exact .bind (.take (edges_eq_piece hpieces _ 0 (by cases s.dialect <;> decide)))
      (reads_ofSource hx.1 hsource)
  have hterm : Reads (decodeOwnSubject c (functionWithin c depth) n) (some tm.subject.bare)
      (k :: ks) := by
    unfold decodeOwnSubject
    exact .bind (.take (edges_eq_piece hpieces _ 2 (by cases s.dialect <;> decide)))
      (reads_ofSubject hknown hok.subject hok.graphs hnormal.subject hnormal.graphs (by omega) hy
        hsubject)
  have hmaps : Reads (decodePairs c (functionWithin c depth) n)
      (tm.predicateObjects.map PredicateObjectMap.bare) ns := by
    have hpom : List.Forall₂ (fun t pom => ∃ p ∈ tm.predicateObjects, t = Sketch.ofPair s p ∧
        pom = p.bare) (tm.predicateObjects.map (Sketch.ofPair s))
        (tm.predicateObjects.map PredicateObjectMap.bare) := by
      rw [List.forall₂_map_left_iff, List.forall₂_map_right_iff, List.forall₂_same]
      exact fun p hp => ⟨p, hp, rfl, rfl⟩
    obtain ⟨ls, hls, hnum⟩ := reads_those_links hpom (F := fun i e =>
        decodePair c (functionWithin c depth) e.object (numbered "po" i))
      (by
        rintro i e t _ ms ⟨p, hp, rfl, rfl⟩ - howned hdrawn
        refine reads_ofPair hknown (hok.predicateObjects p hp) (hnormal.predicateObjects p hp) ?_
          howned hdrawn
        have hle : (Sketch.ofPair s p).count Property.functionValue ≤
            (Sketch.links Property.predicateObjectMap
              (tm.predicateObjects.map (Sketch.ofPair s))).count Property.functionValue :=
          count_le_count_links (List.mem_map.2 ⟨p, hp, rfl⟩)
        omega) hpairs
    unfold decodePairs
    exact (Reads.bind (.take (edges_eq_piece hpieces _ 3 (by cases s.dialect <;> decide)))
      hls).mono hnum
  unfold decodeTriplesMap
  rw [hid]
  refine (Reads.bind (reads_type (edges_eq_piece hpieces _ 1 (by cases s.dialect <;> decide))
    (by decide)) (.bind hown (.bind hterm (.bind hmaps (.pure tm.bare))))).mono ?_
  simp only [List.mem_append, List.mem_cons]
  grind

end Induction

end Parts

end RdfMapping.RuleGraph
