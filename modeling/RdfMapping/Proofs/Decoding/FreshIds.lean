/-
# Fresh identifiers

The first node that suggests an identifier keeps it, and the others take the first number from
their place on that is free.  So no map is refused when a document is put together.
-/
import Mathlib.Order.Bounds.Defs
import RdfMapping.Proofs.Decoding.Outcome

namespace RdfMapping.RuleGraph

open Iri (PrefixTable)
open Mapping
open Rdf (Term Quad)

variable {base : String} {taken : List String}

/-! ## The search for a free number -/

/-- **The search ends at the first number whose identifier is free.** -/
theorem isLeast_freeNumber (taken : List String) (n : Nat) :
    IsLeast {i | n ≤ i ∧ numberedId i ∉ taken} (freeNumber taken n) := by
  have hinjective : ∀ i j, numberedId i = numberedId j → i = j :=
    fun _ _ => append_toString_injective "map_"
  obtain ⟨i, hfind, hle, hi⟩ := exists_free_number hinjective taken n
  have hfree : freeNumber taken n = i := congrArg (Option.getD · n) hfind
  rw [hfree]
  refine ⟨⟨hle, hi⟩, fun j hj => ?_⟩
  by_contra hlt
  have htaken := (List.find?_range'_eq_some.1 hfind).2.2 j hj.1 (Nat.not_le.1 hlt)
  exact hj.2 (by simpa using htaken)

/-! ## What is taken -/

/-- The identifier that a node suggests, unless it is taken. -/
def untaken? (base : String) (taken : List String) (n : Term) : Option String :=
  (readableId? base n).filter fun name => !taken.contains name

theorem untaken?_eq_some_iff {n : Term} {name : String} :
    untaken? base taken n = some name ↔ readableId? base n = some name ∧ name ∉ taken := by
  simp [untaken?, Option.filter_eq_some_iff]

theorem mem_toList_untaken? {n : Term} {name : String} :
    name ∈ (untaken? base taken n).toList ↔ readableId? base n = some name ∧ name ∉ taken := by
  rw [Option.mem_toList, untaken?_eq_some_iff]

theorem readableIds_cons (base : String) (taken : List String) (n : Term) (rest : List Term) :
    readableIds base taken (n :: rest) =
      untaken? base taken n ::
        readableIds base ((untaken? base taken n).toList ++ taken) rest := by
  rw [readableIds, untaken?]
  cases readableId? base n with
  | none => rfl
  | some name => by_cases h : name ∈ taken <;> simp [Option.filter, h]

/-- The nodes after some others are read with the suggestions of these taken. -/
theorem readableIds_append (base : String) (taken : List String) (before nodes : List Term) :
    ∃ taken', (∀ name, name ∈ taken' ↔
        name ∈ taken ∨ name ∈ before.filterMap (readableId? base)) ∧
      readableIds base taken (before ++ nodes) =
        readableIds base taken before ++ readableIds base taken' nodes := by
  induction before generalizing taken with
  | nil => exact ⟨taken, by simp, rfl⟩
  | cons n before ih =>
    obtain ⟨taken', hmem, happend⟩ := ih ((untaken? base taken n).toList ++ taken)
    refine ⟨taken', fun name => ?_, ?_⟩
    · rw [hmem, List.mem_append, mem_toList_untaken?, List.mem_filterMap, List.mem_filterMap]
      grind
    · rw [List.cons_append, readableIds_cons, happend, readableIds_cons, List.cons_append]

/-- The suggestions that nodes keep are those that were not taken. -/
theorem mem_readableIds_iff {nodes : List Term} {name : String} :
    name ∈ (readableIds base taken nodes).filterMap id ↔
      name ∉ taken ∧ name ∈ nodes.filterMap (readableId? base) := by
  induction nodes generalizing taken with
  | nil => simp [readableIds]
  | cons n rest ih =>
    have hcons : name ∈ (readableIds base taken (n :: rest)).filterMap id ↔
        name ∈ (untaken? base taken n).toList ∨
          name ∈ (readableIds base ((untaken? base taken n).toList ++ taken) rest).filterMap
            id := by
      rw [readableIds_cons]
      cases untaken? base taken n <;> simp
    rw [hcons, ih, List.mem_append, mem_toList_untaken?, List.mem_filterMap, List.mem_filterMap]
    grind

/-- The nodes after some others are numbered with the identifiers of these taken. -/
theorem numberRest_append {names : List (Option String)} (hnames : names.filterMap id ⊆ taken)
    (n : Nat) (rest : List (Option String)) :
    ∃ taken', (∀ name, name ∈ taken' ↔ name ∈ taken ∨ name ∈ numberRest taken n names) ∧
      numberRest taken n (names ++ rest) =
        numberRest taken n names ++ numberRest taken' (n + names.length) rest := by
  induction names generalizing taken n with
  | nil => exact ⟨taken, by simp [numberRest], rfl⟩
  | cons name names ih =>
    have hplace : n + (name :: names).length = n + 1 + names.length := by
      rw [List.length_cons]
      omega
    cases name with
    | some name =>
      rw [List.filterMap_cons_some (rfl : id (some name) = some name), List.cons_subset] at hnames
      obtain ⟨taken', hmem, happend⟩ := ih hnames.2 (n + 1)
      refine ⟨taken', fun m => ?_, ?_⟩
      · rw [hmem, numberRest, List.mem_cons]
        grind
      · rw [List.cons_append, numberRest, happend, numberRest, hplace, List.cons_append]
    | none =>
      have hnames' : names.filterMap id ⊆ numberedId (freeNumber taken n) :: taken :=
        fun m hm => List.mem_cons_of_mem _ (hnames hm)
      obtain ⟨taken', hmem, happend⟩ := ih hnames' (n + 1)
      refine ⟨taken', fun m => ?_, ?_⟩
      · rw [hmem, numberRest, List.mem_cons, List.mem_cons]
        grind
      · rw [List.cons_append, numberRest, happend, numberRest, hplace, List.cons_append]

/-! ## The identifier of a node -/

/-- **A node keeps what it is the first to suggest, and is numbered otherwise.** -/
theorem getElem?_assignIds (base : String) (before after : List Term) (n : Term) :
    ∃ taken, (∀ name, name ∈ taken ↔
        name ∈ (before ++ n :: after).filterMap (readableId? base) ∨
          name ∈ (assignIds base (before ++ n :: after)).take before.length) ∧
      (assignIds base (before ++ n :: after))[before.length]? =
        some ((untaken? base (before.filterMap (readableId? base)) n).getD
          (numberedId (freeNumber taken (before.length + 1)))) := by
  obtain ⟨suggested, hsuggested, hreadable⟩ := readableIds_append base [] before (n :: after)
  have hown :
      untaken? base suggested n = untaken? base (before.filterMap (readableId? base)) n := by
    refine Option.ext fun name => ?_
    rw [untaken?_eq_some_iff, untaken?_eq_some_iff, hsuggested]
    simp
  have hkept (name : String) : name ∈ (readableIds base [] (before ++ n :: after)).filterMap id ↔
      name ∈ (before ++ n :: after).filterMap (readableId? base) := by
    rw [mem_readableIds_iff]
    simp
  have hbefore : (readableIds base [] before).filterMap id ⊆
      (readableIds base [] (before ++ n :: after)).filterMap id := by
    rw [hreadable, List.filterMap_append]
    exact List.subset_append_left _ _
  obtain ⟨taken, htaken, hnumber⟩ := numberRest_append hbefore 1
    (readableIds base suggested (n :: after))
  rw [← hreadable] at hnumber
  have hlength := length_numberRest ((readableIds base [] (before ++ n :: after)).filterMap id) 1
    (readableIds base [] before)
  rw [length_readableIds] at hlength hnumber
  have hids : assignIds base (before ++ n :: after) = _ := hnumber
  refine ⟨taken, fun name => ?_, ?_⟩
  · rw [htaken, hkept, hids, List.take_left' hlength]
  · rw [hids, List.getElem?_append_right (Nat.le_of_eq hlength), hlength, Nat.sub_self,
      readableIds_cons, hown, Nat.add_comm 1]
    cases untaken? base (before.filterMap (readableId? base)) n <;> rfl

/-! ## Documents -/

/-- **Identifiers never collide.**  There are as many as nodes, distinct and valid.  The first node
that suggests an identifier has it; any other node has the first number, from its place on, whose
identifier no node suggests and no node before it has.  So a document takes all the maps that are
decoded. -/
theorem assignIds_distinct (base : String) (nodes : List Term) :
    (assignIds base nodes).length = nodes.length ∧ (assignIds base nodes).Nodup ∧
      (∀ id ∈ assignIds base nodes, isValidId id = true) ∧
      (∀ before n after, nodes = before ++ n :: after →
        (∀ name, readableId? base n = some name →
          (∀ m ∈ before, readableId? base m ≠ some name) →
            (assignIds base nodes)[before.length]? = some name) ∧
        ((∀ name, readableId? base n = some name → ∃ m ∈ before, readableId? base m = some name) →
          ∃ k, (assignIds base nodes)[before.length]? = some (numberedId k) ∧
            IsLeast {i | before.length + 1 ≤ i ∧
              numberedId i ∉ nodes.filterMap (readableId? base) ∧
              numberedId i ∉ (assignIds base nodes).take before.length} k)) ∧
      ∀ (depth : Nat) (prefixes : Option PrefixTable) (qs : List Quad),
        (decodeMaps depth (Graph.ofQuads qs) ((Graph.ofQuads qs).names base)).value.foldlM
            Document.add
            (emptyDocument (chooseBase base (Graph.ofQuads qs).anchors) prefixes
              (Graph.ofQuads qs)) =
          .ok (assemble (chooseBase base (Graph.ofQuads qs).anchors) prefixes (Graph.ofQuads qs)
            (decodeMaps depth (Graph.ofQuads qs) ((Graph.ofQuads qs).names base)).value) := by
  refine ⟨length_assignIds base nodes, nodup_assignIds base nodes,
    fun id hid => isValidId_of_mem_assignIds hid, ?_,
    fun depth prefixes qs => foldlM_add_decodeMaps depth base prefixes _⟩
  rintro before n after rfl
  obtain ⟨taken, htaken, hget⟩ := getElem?_assignIds base before after n
  constructor
  · intro name hname hfirst
    have hown : untaken? base (before.filterMap (readableId? base)) n = some name := by
      refine untaken?_eq_some_iff.2 ⟨hname, fun hmem => ?_⟩
      obtain ⟨m, hm, hsame⟩ := List.mem_filterMap.1 hmem
      exact hfirst m hm hsame
    rw [hget, hown, Option.getD_some]
  · intro hlate
    have hnone : untaken? base (before.filterMap (readableId? base)) n = none := by
      refine Option.eq_none_iff_forall_ne_some.2 fun name hown => ?_
      obtain ⟨hname, hnew⟩ := untaken?_eq_some_iff.1 hown
      obtain ⟨m, hm, hsame⟩ := hlate name hname
      exact hnew (List.mem_filterMap.2 ⟨m, hm, hsame⟩)
    refine ⟨freeNumber taken (before.length + 1), by rw [hget, hnone, Option.getD_none], ?_⟩
    have hfree := isLeast_freeNumber taken (before.length + 1)
    simpa only [htaken, not_or] using hfree

/-- The third node suggests what the first one has, and the second one what a number would be. -/
example : assignIds "http://ex.org/"
    [.iri "http://ex.org/a", .iri "http://ex.org/map_3", .iri "http://other.org/a", .blank "b0"] =
      ["a", "map_3", "map_4", "map_5"] := by decide +kernel

end RdfMapping.RuleGraph
