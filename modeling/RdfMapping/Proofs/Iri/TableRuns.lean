/-
# Runs of prefix tables

Tables are made, given labels, merged and copied, in any order.  What was declared for a table says
what the table is: a label stands where it was declared first, and has the namespace that was
declared last.
-/
import Mathlib.Data.List.Forall2
import Mathlib.Data.List.Induction
import RdfMapping.Proofs.Iri.Growth

namespace RdfMapping.Iri.PrefixTable

variable {t u : PrefixTable} {l label ns : String}

/-! ## Tables as labels and what they are bound to -/

/-- Tables with the same labels, bound to the same namespaces, are the same. -/
theorem eq_of_lookup? (hlabels : t.labels = u.labels) (hlookup : ∀ l, t.lookup? l = u.lookup? l) :
    t = u :=
  PrefixTable.ext hlabels (funext hlookup)

/-- **Tables agree just if they have the same bindings in the same order.** -/
theorem Raw.agree_iff (t u : Option Raw) :
    Raw.agree t u = true ↔ (t.getD {}).bindings = (u.getD {}).bindings := by
  rw [agree, Bool.and_eq_true, beq_iff_eq, List.all_eq_true, size, size, bindings, bindings,
    ← List.forall₂_eq_eq_eq, List.forall₂_map_left_iff, List.forall₂_map_right_iff,
    List.forall₂_iff_zip]
  simp only [Bool.and_eq_true, beq_iff_eq, Prod.forall, Prod.mk.injEq]
  -- Labels are compared before their namespaces, so both namespaces are those of one label.
  refine and_congr_right fun _ => forall₃_congr fun l m _ => and_congr_right fun hlm => ?_
  rw [hlm]

/-! ## Declarations -/

/-- Declaring one thing more binds its label. -/
theorem setAll_concat (t : PrefixTable) (ps : List (String × String)) (p : String × String) :
    t.setAll (ps ++ [p]) = (t.setAll ps).set p.1 p.2 := by
  have h : t.toRaw.setAll (ps ++ [p]) = (t.toRaw.setAll ps).set p.1 p.2 := List.foldl_append
  exact PrefixTable.ext (congrArg Raw.labels h) (congrArg Raw.namespaces h)

/-- No label of a table is listed twice. -/
theorem eraseDups_labels (t : PrefixTable) : t.labels.eraseDups = t.labels :=
  eraseDups_eq_self t.inStep.nodup

/-- A label stands where it came first. -/
theorem labels_setAll (t : PrefixTable) (ps : List (String × String)) :
    (t.setAll ps).labels = (t.labels ++ ps.map Prod.fst).eraseDups := by
  induction ps using List.reverseRecOn with
  | nil =>
    rw [List.map_nil, List.append_nil, eraseDups_labels]
    rfl
  | append_singleton ps p ih =>
    rw [setAll_concat, labels_set, ih, List.map_append, List.map_singleton, ← List.append_assoc,
      eraseDups_concat]
    simp only [List.mem_eraseDups]

/-- Declarations keep the labels there are in their places. -/
theorem labels_prefix_setAll (t : PrefixTable) (ps : List (String × String)) :
    t.labels <+: (t.setAll ps).labels := by
  rw [labels_setAll, List.eraseDups_append, eraseDups_labels]
  exact List.prefix_append _ _

/-- Of several declarations of a label the last one counts. -/
theorem lookup?_setAll (t : PrefixTable) (ps : List (String × String)) (l : String) :
    (t.setAll ps).lookup? l = (ps.reverse.lookup l).or (t.lookup? l) := by
  induction ps using List.reverseRecOn with
  | nil => rfl
  | append_singleton ps p ih =>
    rw [setAll_concat, lookup?_set, ih, List.reverse_append, List.reverse_singleton,
      List.singleton_append, List.lookup_cons]
    by_cases hl : l = p.1
    · rw [if_pos hl, beq_iff_eq.2 hl, Option.some_or]
    · rw [if_neg hl, beq_eq_false_iff_ne.2 hl]

/-- The last declaration of a label counts. -/
theorem lookup?_ofList (ps : List (String × String)) (l : String) :
    (ofList ps).lookup? l = ps.reverse.lookup l :=
  (lookup?_setAll empty ps l).trans Option.or_none

/-- In a list of distinct labels the last binding is the only one. -/
theorem lookup_reverse_eq_some_iff {ps : List (String × String)} (h : (ps.map Prod.fst).Nodup) :
    ps.reverse.lookup l = some ns ↔ (l, ns) ∈ ps := by
  have hreverse : (ps.reverse.map Prod.fst).Nodup := by
    rw [List.map_reverse]
    exact List.nodup_reverse.2 h
  rw [lookup_eq_some_iff_mem hreverse, List.mem_reverse]

/-- The merged table comes first in look-ups. -/
theorem lookup?_merge (t u : PrefixTable) (l : String) :
    (t.merge u).lookup? l = (u.lookup? l).or (t.lookup? l) := by
  have hreverse : u.bindings.reverse.lookup l = u.lookup? l := by
    refine Option.ext fun ns => ?_
    rw [lookup_reverse_eq_some_iff (u.map_fst_bindings ▸ u.inStep.nodup), mem_bindings_iff]
  rw [merge, lookup?_setAll, hreverse]

/-- A label that is declared before merging can as well be declared after it. -/
theorem merge_set (t u : PrefixTable) (label ns : String) :
    t.merge (u.set label ns) = (t.merge u).set label ns := by
  refine eq_of_lookup? ?_ fun l => ?_
  · have hlabels (v : PrefixTable) : (t.merge v).labels = (t.labels ++ v.labels).eraseDups := by
      rw [merge, labels_setAll, map_fst_bindings]
    rw [labels_set, hlabels, hlabels, labels_set]
    simp only [List.mem_eraseDups]
    -- A label that `u` has is merged in any case; a new one comes last on both sides.
    by_cases hmem : label ∈ u.labels
    · rw [if_pos hmem, if_pos (List.mem_append_right _ hmem)]
    · rw [if_neg hmem, ← List.append_assoc, eraseDups_concat]
  · rw [lookup?_merge, lookup?_set, lookup?_set, lookup?_merge]
    by_cases hl : l = label
    · rw [if_pos hl, if_pos hl, Option.some_or]
    · rw [if_neg hl, if_neg hl]

/-- **Merging declares again what was declared for the other table.** -/
theorem merge_ofList (t : PrefixTable) (ps : List (String × String)) :
    t.merge (ofList ps) = t.setAll ps := by
  induction ps using List.reverseRecOn with
  | nil => rfl
  | append_singleton ps p ih => rw [ofList, setAll_concat, merge_set, ← ofList, ih, setAll_concat]

/-! ## Changes of several tables -/

/-- What is done to one of the tables, which are known by numbers. -/
inductive Change where
  | create (pairs : List (String × String))
  | set (label ns : String)
  | merge (other : Option Nat)
  | clone (other : Option Nat)

/-- The table with a number, empty if there is none. -/
def given (tables : Nat → Raw) (other : Option Nat) : Raw :=
  (other.map tables).getD {}

/-- What a table becomes. -/
def Change.apply (tables : Nat → Raw) (own : Raw) : Change → Raw
  | create pairs => .setAll {} pairs
  | set label ns => own.set label ns
  | merge other => own.merge (given tables other)
  | clone other => given tables other

/-- What has been declared for a table then. -/
def Change.declare (lists : Nat → List (String × String)) (own : List (String × String)) :
    Change → List (String × String)
  | create pairs => pairs
  | set label ns => own ++ [(label, ns)]
  | merge other => own ++ (other.map lists).getD []
  | clone other => (other.map lists).getD []

/-- Whether the table goes on, rather than being a new one. -/
def Change.goesOn : Change → Bool
  | set .. | merge _ => true
  | create _ | clone _ => false

/-- One change, of what has the number that comes with it. -/
def step {α : Type} (effect : (Nat → α) → α → Change → α) (state : Nat → α) (p : Nat × Change) :
    Nat → α :=
  Function.update state p.1 (effect state (state p.1) p.2)

/-- The tables after changes one after the other, all of them empty to begin with. -/
def run (changes : List (Nat × Change)) : Nat → Raw :=
  changes.foldl (step Change.apply) fun _ => {}

/-- What was declared for each table in the course of changes. -/
def declared (changes : List (Nat × Change)) : Nat → List (String × String) :=
  changes.foldl (step Change.declare) fun _ => []

/-- A run with one more change. -/
theorem run_concat (changes : List (Nat × Change)) (p : Nat × Change) :
    run (changes ++ [p]) = step Change.apply (run changes) p :=
  List.foldl_append

/-- Of tables whose lists and maps are in step, so is the one that is named. -/
theorem inStep_given {tables : Nat → Raw} (h : ∀ k, (tables k).InStep) (other : Option Nat) :
    (given tables other).InStep := by
  cases other with
  | none => exact Raw.inStep_empty
  | some k => exact h k

/-- **Each change keeps the list and the map of the table in step.** -/
theorem Change.inStep_apply {tables : Nat → Raw} {own : Raw} (h : ∀ k, (tables k).InStep)
    (hown : own.InStep) (c : Change) : (c.apply tables own).InStep := by
  cases c with
  | create pairs => exact Raw.inStep_empty.setAll pairs
  | set label ns => exact hown.set label ns
  | merge other => exact hown.setAll _
  | clone other => exact inStep_given h other

/-- **The list and the map of every table are in step after every run.** -/
theorem inStep_run (changes : List (Nat × Change)) (k : Nat) : (run changes k).InStep := by
  induction changes using List.reverseRecOn generalizing k with
  | nil => exact Raw.inStep_empty
  | append_singleton changes p ih =>
    rw [run_concat, step]
    by_cases hk : k = p.1
    · rw [hk, Function.update_self]
      exact p.2.inStep_apply ih (ih p.1)
    · rw [Function.update_of_ne hk]
      exact ih k

/-- A table of a run, with its list and its map in step. -/
def tableOf (changes : List (Nat × Change)) (k : Nat) : PrefixTable :=
  ⟨run changes k, inStep_run changes k⟩

/-- A change makes of tables of declarations the table of what is declared then. -/
theorem Change.apply_ofList (lists : Nat → List (String × String)) (own : List (String × String))
    (c : Change) :
    c.apply ((toRaw ∘ ofList) ∘ lists) (ofList own).toRaw =
      (ofList (c.declare lists own)).toRaw := by
  have hgiven (other : Option Nat) :
      given ((toRaw ∘ ofList) ∘ lists) other = (ofList ((other.map lists).getD [])).toRaw := by
    cases other <;> rfl
  cases c with
  | create pairs => rfl
  | set label ns => exact congrArg toRaw (setAll_concat empty own (label, ns)).symm
  | merge other =>
    rw [apply, hgiven]
    refine (congrArg toRaw (merge_ofList (ofList own) _)).trans ?_
    exact List.foldl_append.symm
  | clone other => exact hgiven other

/-- **Each table is that of what was declared for it.** -/
theorem run_eq (changes : List (Nat × Change)) (k : Nat) :
    run changes k = (ofList (declared changes k)).toRaw := by
  have hstep (lists : Nat → List (String × String)) (p : Nat × Change) :
      step Change.apply ((toRaw ∘ ofList) ∘ lists) p =
        (toRaw ∘ ofList) ∘ step Change.declare lists p := by
    rw [step, step, Function.comp_update]
    exact congrArg (Function.update _ p.1) (p.2.apply_ofList lists (lists p.1))
  -- Both runs take the same steps, from tables of nothing declared.
  change changes.foldl (step Change.apply) ((toRaw ∘ ofList) ∘ fun _ => []) k = _
  rw [List.foldl_hom ((toRaw ∘ ofList) ∘ ·) hstep]
  rfl

/-- A table that goes on keeps its labels where they are. -/
theorem labels_prefix_run {k : Nat} (changes later : List (Nat × Change))
    (hlater : ∀ p ∈ later, p.1 = k → p.2.goesOn = true) :
    (run changes k).labels <+: (run (changes ++ later) k).labels := by
  induction later using List.reverseRecOn with
  | nil => simp
  | append_singleton later p ih =>
    obtain ⟨hlater, hp⟩ := List.forall_mem_append.1 hlater
    refine (ih hlater).trans ?_
    rw [← List.append_assoc, run_concat, step]
    by_cases hk : p.1 = k
    · have hgoes := hp p (List.mem_singleton_self p) hk
      rw [← hk, Function.update_self]
      cases hc : p.2 with
      | set label ns => exact labels_prefix_setAll (tableOf _ _) [(label, ns)]
      | merge other => exact labels_prefix_setAll (tableOf _ _) _
      | create _ | clone _ =>
        rw [hc] at hgoes
        cases hgoes
    · simp [Function.update_of_ne (Ne.symm hk)]

/-- What merging finds: in the other table, or else in this one. -/
theorem lookup?_run_merge (changes : List (Nat × Change)) (k : Nat) (other : Option Nat)
    (l : String) :
    (run (changes ++ [(k, .merge other)]) k).lookup? l =
      ((given (run changes) other).lookup? l).or ((run changes k).lookup? l) := by
  rw [run_concat, step, Function.update_self]
  exact lookup?_merge (tableOf changes k) ⟨_, inStep_given (inStep_run changes) other⟩ l

/-- **After any run a table is a map in the order of insertion.**  Its list has no label twice, and
look-up in its map succeeds just for the labels of the list.  They are those that were declared,
each where it was declared first, which it keeps as long as the table goes on; look-up gives the
namespace that was declared last.  Merging takes the namespaces of the other table, keeps the rest
and adds its labels after those there are.  Tables of a run agree, also where there is none, just if
they have the same labels in the same order, bound to the same namespaces. -/
theorem run_insertionOrdered (changes : List (Nat × Change)) (k : Nat) :
    (run changes k).labels.Nodup ∧
      (∀ l, ((run changes k).lookup? l).isSome = true ↔ l ∈ (run changes k).labels) ∧
      (run changes k).labels = ((declared changes k).map Prod.fst).eraseDups ∧
      (∀ later : List (Nat × Change), (∀ p ∈ later, p.1 = k → p.2.goesOn = true) →
        (run changes k).labels <+: (run (changes ++ later) k).labels) ∧
      (∀ l, (run changes k).lookup? l = (declared changes k).reverse.lookup l) ∧
      (∀ other,
        (∀ l ∈ (given (run changes) other).labels,
          (run (changes ++ [(k, .merge other)]) k).lookup? l =
            (given (run changes) other).lookup? l) ∧
        (∀ l ∉ (given (run changes) other).labels,
          (run (changes ++ [(k, .merge other)]) k).lookup? l = (run changes k).lookup? l) ∧
        (run changes k).labels <+: (run (changes ++ [(k, .merge other)]) k).labels) ∧
      ∀ i j : Option Nat,
        Raw.agree (i.map (run changes)) (j.map (run changes)) = true ↔
          (given (run changes) i).labels = (given (run changes) j).labels ∧
            ∀ l, (given (run changes) i).lookup? l = (given (run changes) j).lookup? l := by
  have hgiven := inStep_given (inStep_run changes)
  have hlast (l : String) : (run changes k).lookup? l = (declared changes k).reverse.lookup l := by
    rw [run_eq]
    exact lookup?_ofList _ l
  refine ⟨(inStep_run changes k).nodup, (inStep_run changes k).bound, ?_,
    labels_prefix_run changes, hlast, fun other => ⟨fun l hl => ?_, fun l hl => ?_, ?_⟩,
    fun i j => ?_⟩
  · rw [run_eq, ofList, labels_setAll]
    rfl
  · rw [lookup?_run_merge, Option.or_of_isSome (((hgiven other).bound l).2 hl)]
  · rw [← (hgiven other).bound, Bool.not_eq_true, Option.isSome_eq_false_iff,
      Option.isNone_iff_eq_none] at hl
    rw [lookup?_run_merge, hl, Option.none_or]
  · refine labels_prefix_run changes _ fun p hp _ => ?_
    rw [List.mem_singleton.1 hp]
    rfl
  · rw [Raw.agree_iff]
    constructor
    · intro h
      have heq : (⟨_, hgiven i⟩ : PrefixTable) = ⟨_, hgiven j⟩ := eq_of_bindings h
      exact ⟨congrArg (·.labels) heq, fun l => congrArg (·.lookup? l) heq⟩
    · intro ⟨hlabels, hlookup⟩
      have heq : (⟨_, hgiven i⟩ : PrefixTable) = ⟨_, hgiven j⟩ := eq_of_lookup? hlabels hlookup
      exact congrArg bindings heq

/-- A table, a copy that declares more, and a table of its own. -/
def threeTables : List (Nat × Change) :=
  [(0, .create [("ex", "a#"), ("rr", "r#"), ("ex", "b#")]), (1, .clone (some 0)),
    (1, .set "ex" "c#"), (2, .set "ql" "q#"), (2, .merge none)]

/-- Three tables, one of which is copied and merged. -/
theorem run_insertionOrdered_threeTables :
    "ex" ∈ (run threeTables 1).labels ∧ "ql" ∉ (run threeTables 1).labels ∧
      (run threeTables 0).lookup? "ex" = some "b#" ∧
      (run (threeTables ++ [(2, .merge (some 1))]) 2).lookup? "ex" = some "c#" ∧
      (run (threeTables ++ [(2, .merge (some 1))]) 2).lookup? "ql" = some "q#" ∧
      ["ql"] <+: (run (threeTables ++ [(2, .merge (some 1))]) 2).labels ∧
      Raw.agree none (some (run threeTables 3)) = true := by
  have hex : "ex" ∈ (run threeTables 1).labels := by decide +kernel
  have hql : "ql" ∉ (run threeTables 1).labels := by decide +kernel
  have hlookup (k : Nat) := (run_insertionOrdered threeTables k).2.2.2.2.1
  obtain ⟨htaken, hkept, hlabels⟩ := (run_insertionOrdered threeTables 2).2.2.2.2.2.1 (some 1)
  have hagree := (run_insertionOrdered threeTables 2).2.2.2.2.2.2 none (some 3)
  exact ⟨hex, hql, hlookup 0 "ex", (htaken "ex" hex).trans (hlookup 1 "ex"),
    (hkept "ql" hql).trans (hlookup 2 "ql"), hlabels, hagree.2 ⟨rfl, fun _ => rfl⟩⟩

end RdfMapping.Iri.PrefixTable
