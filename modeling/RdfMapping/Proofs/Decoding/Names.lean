/-
# Names of decoded maps

The identifiers of decoded triples maps are valid and distinct whatever the nodes are called, and
the base the nodes share does not depend on their order.
-/
import Mathlib.Data.List.DropRight
import Mathlib.Data.List.Nodup
import Mathlib.Data.List.Perm.Subperm
import RdfMapping.Proofs.Keys
import RdfMapping.RuleGraph.Decoding

namespace RdfMapping.RuleGraph

open Mapping
open Rdf (Term Quad)

variable {base : String} {nodes : List Term} {taken : List String} {s : List Char}
  {l : List (List Char)}

/-! ## Numbered identifiers -/

/-- Numbers written after the same text are told apart. -/
theorem append_toString_injective (s : String) {i j : Nat}
    (h : s ++ toString i = s ++ toString j) : i = j := by
  have hchars := congrArg String.toList h
  simp only [String.toList_append, Nat.toString_eq_ofList_toDigits,
    String.toList_ofList] at hchars
  have hdigits := List.append_cancel_left hchars
  rw [← Nat.ofDigitChars_ten_toDigits (n := i), hdigits, Nat.ofDigitChars_ten_toDigits]

/-- Among more numbers than there are taken names, one is free. -/
theorem exists_free_number {name : Nat → String} (hname : ∀ i j, name i = name j → i = j)
    (taken : List String) (n : Nat) :
    ∃ i, (List.range' n (taken.length + 1)).find? (fun i => !taken.contains (name i)) = some i ∧
      n ≤ i ∧ name i ∉ taken := by
  cases hfind : (List.range' n (taken.length + 1)).find? fun i => !taken.contains (name i) with
  | some i =>
    have hi := List.find?_some hfind
    refine ⟨i, rfl, (List.mem_range'_1.1 (List.mem_of_find?_eq_some hfind)).1, ?_⟩
    simpa using hi
  | none =>
    -- all numbers are taken, but they are too many
    rw [List.find?_eq_none] at hfind
    have hsub : (List.range' n (taken.length + 1)).map name ⊆ taken := by
      intro id hid
      obtain ⟨i, hi, rfl⟩ := List.mem_map.1 hid
      simpa using hfind i hi
    have hnodup : ((List.range' n (taken.length + 1)).map name).Nodup :=
      List.Nodup.map (fun i j => hname i j) List.nodup_range'
    have hle := (List.subperm_of_subset hnodup hsub).length_le
    rw [List.length_map, List.length_range'] at hle
    omega

/-- A number makes a valid identifier. -/
theorem isValidId_numberedId (i : Nat) : isValidId (numberedId i) = true := by
  have hdigits : ∀ c ∈ (toString i).toList, isIdChar c = true := by
    intro c hc
    have hd : c.isDigit = true := by
      change c ∈ (Nat.repr i).toList at hc
      rw [Nat.repr, String.toList_ofList] at hc
      exact Nat.isDigit_of_mem_toDigits (by decide) (by decide) hc
    simp [isIdChar, Char.isAlphanum, hd]
  have hchars : (numberedId i).toList = 'm' :: ("ap_".toList ++ (toString i).toList) := by
    rw [numberedId, String.toList_append]
    rfl
  rw [isValidId, hchars, isValidIdChars, List.all_append]
  have hrest : (toString i).toList.all isIdChar = true := List.all_eq_true.2 hdigits
  rw [hrest]
  decide

theorem numberedId_freeNumber_not_mem (taken : List String) (n : Nat) :
    numberedId (freeNumber taken n) ∉ taken := by
  obtain ⟨i, hfind, -, hi⟩ :=
    exists_free_number (fun _ _ => append_toString_injective "map_") taken n
  have hfree : freeNumber taken n = i := congrArg (Option.getD · n) hfind
  rw [hfree]
  exact hi

/-! ## Suggested identifiers -/

/-- Suggested identifiers are valid, distinct and not taken. -/
theorem readableIds_spec (base : String) (taken : List String) (nodes : List Term) :
    ((readableIds base taken nodes).filterMap id).Nodup ∧
      ∀ name ∈ (readableIds base taken nodes).filterMap id,
        name ∉ taken ∧ isValidId name = true := by
  induction nodes generalizing taken with
  | nil => simp [readableIds]
  | cons n rest ih =>
    unfold readableIds
    split
    · next name hname =>
      split
      · simpa using ih taken
      · next hnew =>
        have hvalid : isValidId name = true := by
          unfold readableId? at hname
          simp only at hname
          split at hname
          · next h =>
            cases hname
            exact h
          · cases hname
        have hnot : name ∉ taken := by simpa using hnew
        obtain ⟨hnodup, hall⟩ := ih (name :: taken)
        simp only [List.filterMap_cons_some (rfl : id (some name) = some name)]
        refine ⟨List.nodup_cons.2 ⟨fun hmem => ?_, hnodup⟩, ?_⟩
        · exact (hall name hmem).1 (List.mem_cons_self ..)
        · rintro m (_ | ⟨_, hm⟩)
          · exact ⟨hnot, hvalid⟩
          · exact ⟨fun h => (hall m hm).1 (List.mem_cons_of_mem _ h), (hall m hm).2⟩
    · simpa using ih taken

theorem length_readableIds (base : String) (taken : List String) (nodes : List Term) :
    (readableIds base taken nodes).length = nodes.length := by
  induction nodes generalizing taken with
  | nil => rfl
  | cons n rest ih =>
    unfold readableIds
    split
    · split <;> simp [ih]
    · simp [ih]

theorem length_numberRest (taken : List String) (n : Nat) (names : List (Option String)) :
    (numberRest taken n names).length = names.length := by
  induction names generalizing taken n with
  | nil => rfl
  | cons name rest ih => cases name <;> simp [numberRest, ih]

/-- What is numbered is distinct from what is taken and from each other. -/
theorem numberRest_spec {names : List (Option String)} :
    ∀ {taken : List String} {n : Nat}, (names.filterMap id).Nodup → names.filterMap id ⊆ taken →
      (numberRest taken n names).Nodup ∧
        ∀ name ∈ numberRest taken n names, name ∈ names.filterMap id ∨
          name ∉ taken ∧ isValidId name = true := by
  induction names with
  | nil => simp [numberRest]
  | cons name rest ih =>
    intro taken n hnodup hsub
    cases name with
    | some name =>
      simp only [List.filterMap_cons_some (rfl : id (some name) = some name)] at hnodup hsub ⊢
      obtain ⟨hnot, hrest⟩ := List.nodup_cons.1 hnodup
      have htaken : name ∈ taken := hsub (List.mem_cons_self ..)
      obtain ⟨hno, hall⟩ := ih (n := n + 1) hrest fun m hm => hsub (List.mem_cons_of_mem _ hm)
      refine ⟨List.nodup_cons.2 ⟨fun hmem => ?_, hno⟩, ?_⟩
      · rcases hall name hmem with h | h
        · exact hnot h
        · exact h.1 htaken
      · rintro m (_ | ⟨_, hm⟩)
        · exact .inl (List.mem_cons_self ..)
        · exact (hall m hm).imp_left (List.mem_cons_of_mem _)
    | none =>
      simp only [List.filterMap_cons_none (rfl : id (none : Option String) = none)]
        at hnodup hsub ⊢
      have hfree := numberedId_freeNumber_not_mem taken n
      have hsub' : rest.filterMap id ⊆ numberedId (freeNumber taken n) :: taken :=
        fun m hm => List.mem_cons_of_mem _ (hsub hm)
      obtain ⟨hno, hall⟩ := ih (n := n + 1) hnodup hsub'
      refine ⟨List.nodup_cons.2 ⟨fun hmem => ?_, hno⟩, ?_⟩
      · rcases hall _ hmem with h | h
        · exact hfree (hsub h)
        · exact h.1 (List.mem_cons_self ..)
      · rintro m (_ | ⟨_, hm⟩)
        · exact .inr ⟨hfree, isValidId_numberedId _⟩
        · exact (hall m hm).imp_right fun h =>
            ⟨fun ht => h.1 (List.mem_cons_of_mem _ ht), h.2⟩

/-! ## Identifiers of all nodes -/

theorem length_assignIds (base : String) (nodes : List Term) :
    (assignIds base nodes).length = nodes.length := by
  rw [assignIds, length_numberRest, length_readableIds]

/-- **No two nodes get the same identifier.** -/
theorem nodup_assignIds (base : String) (nodes : List Term) : (assignIds base nodes).Nodup :=
  (numberRest_spec (readableIds_spec base [] nodes).1 (List.Subset.refl _)).1

/-- **Every node gets a valid identifier.** -/
theorem isValidId_of_mem_assignIds {name : String} (h : name ∈ assignIds base nodes) :
    isValidId name = true := by
  have hspec := readableIds_spec base [] nodes
  rcases (numberRest_spec hspec.1 (List.Subset.refl _)).2 name h with h | h
  · exact (hspec.2 name h).2
  · exact h.2

/-- Nodes that suggest distinct identifiers are offered them all. -/
theorem readableIds_eq_map (hnodup : (nodes.filterMap (readableId? base)).Nodup)
    (htaken : ∀ name ∈ nodes.filterMap (readableId? base), name ∉ taken) :
    readableIds base taken nodes = nodes.map (readableId? base) := by
  induction nodes generalizing taken with
  | nil => rfl
  | cons n rest ih =>
    rw [readableIds, List.map_cons]
    cases hn : readableId? base n with
    | none =>
      rw [List.filterMap_cons_none hn] at hnodup htaken
      exact congrArg _ (ih hnodup htaken)
    | some name =>
      rw [List.filterMap_cons_some hn] at hnodup htaken
      obtain ⟨hnew, hnodup⟩ := List.nodup_cons.1 hnodup
      obtain ⟨hname, hrest⟩ := List.forall_mem_cons.1 htaken
      have hnot : ¬ taken.contains name = true := by simpa using hname
      simp only
      rw [if_neg hnot, ih hnodup]
      intro m hm hmem
      rcases List.mem_cons.1 hmem with rfl | hmem
      · exact hnew hm
      · exact hrest m hm hmem

/-- Nodes that suggest distinct identifiers keep them. -/
theorem assignIds_eq_numberRest (hnodup : (nodes.filterMap (readableId? base)).Nodup) :
    assignIds base nodes =
      numberRest (nodes.filterMap (readableId? base)) 1 (nodes.map (readableId? base)) := by
  rw [assignIds, readableIds_eq_map hnodup fun _ _ => List.not_mem_nil]
  simp only [List.filterMap_map, Function.id_comp]

theorem numberRest_map_some (taken : List String) (n : Nat) (names : List String) :
    numberRest taken n (names.map some) = names := by
  induction names generalizing n with
  | nil => rfl
  | cons name rest ih => rw [List.map_cons, numberRest, ih]

/-- A node has the identifier it suggests, or a number. -/
theorem forall₂_numberRest (taken : List String) (n : Nat) (names : List (Option String)) :
    List.Forall₂ (fun name id => name = some id ∨ name = none ∧ ∃ k, id = numberedId k) names
      (numberRest taken n names) := by
  induction names generalizing taken n with
  | nil => exact .nil
  | cons name rest ih =>
    cases name with
    | some name => exact .cons (.inl rfl) (ih _ _)
    | none => exact .cons (.inr ⟨rfl, _, rfl⟩) (ih _ _)

/-- Nodes without a suggestion are numbered one after the other. -/
theorem numberRest_replicate_none {n : Nat} (h : ∀ i, n ≤ i → numberedId i ∉ taken) (k : Nat) :
    numberRest taken n (List.replicate k none) = (List.range' n k).map numberedId := by
  induction k generalizing taken n with
  | zero => rfl
  | succ k ih =>
    have hfree : freeNumber taken n = n := by
      have hnot : numberedId n ∉ taken := h n (Nat.le_refl n)
      simp [freeNumber, List.range'_succ, hnot]
    have hnext : ∀ i, n + 1 ≤ i → numberedId i ∉ numberedId n :: taken := by
      intro i hi hmem
      rcases List.mem_cons.1 hmem with heq | hmem
      · have hin : i = n := append_toString_injective "map_" heq
        omega
      · exact h i (Nat.le_of_succ_le hi) hmem
    rw [List.replicate_succ, numberRest, hfree, ih hnext, List.range'_succ, List.map_cons]

/-- **Nodes that suggest distinct identifiers keep them.** -/
theorem assignIds_eq_map {name : Term → String}
    (hname : ∀ n ∈ nodes, readableId? base n = some (name n)) (hnodup : (nodes.map name).Nodup) :
    assignIds base nodes = nodes.map name := by
  have hsome : nodes.map (readableId? base) = (nodes.map name).map some := by
    rw [List.map_map]
    exact List.map_congr_left hname
  have hall : nodes.filterMap (readableId? base) = nodes.map name := by
    rw [List.filterMap_congr hname, ← List.filterMap_eq_map]
    rfl
  rw [assignIds_eq_numberRest (hall ▸ hnodup), hsome, numberRest_map_some]

/-! ## The shared base -/

/-- A text that is empty or ends where a namespace ends. -/
def IsNamespace (s : List Char) : Prop :=
  namespaceChars s = s

theorem isNamespace_namespaceChars (s : List Char) : IsNamespace (namespaceChars s) := by
  rw [IsNamespace, namespaceChars, namespaceChars, List.reverse_reverse,
    List.dropWhile_idempotent]

theorem namespaceChars_prefix_self (s : List Char) : namespaceChars s <+: s :=
  ⟨localChars s, namespaceChars_append_localChars s⟩

/-- A namespace at the beginning of a text is at the beginning of its namespace. -/
theorem IsNamespace.prefix_namespaceChars_iff {x : List Char} (hs : IsNamespace s) :
    s <+: namespaceChars x ↔ s <+: x := by
  constructor
  · exact fun h => h.trans (namespaceChars_prefix_self x)
  · rintro ⟨t, rfl⟩
    have hrev : s.reverse.dropWhile (fun c => !endsNamespace c) = s.reverse := by
      rw [IsNamespace, namespaceChars] at hs
      rw [← List.reverse_reverse (s.reverse.dropWhile _), hs]
    rw [namespaceChars, List.reverse_append, List.dropWhile_append]
    split
    · simp only [hrev, List.reverse_reverse, List.prefix_refl]
    · rw [List.reverse_append, List.reverse_reverse]
      exact List.prefix_append _ _

/-- The common start of texts is their longest prefix. -/
theorem prefix_commonStart_iff {a b : List Char} : s <+: commonStart a b ↔ s <+: a ∧ s <+: b := by
  induction a generalizing s b with
  | nil =>
    rw [commonStart]
    · exact ⟨fun h => by simp [List.prefix_nil.1 h], fun h => h.1⟩
    · simp
  | cons x as ih =>
    cases b with
    | nil =>
      rw [commonStart]
      · exact ⟨fun h => by simp [List.prefix_nil.1 h], fun h => h.2⟩
      · simp
    | cons y bs =>
      rw [commonStart]
      cases s with
      | nil => simp
      | cons c s =>
        by_cases hxy : x = y
        · subst hxy
          rw [if_pos rfl, List.cons_prefix_cons, List.cons_prefix_cons, List.cons_prefix_cons, ih]
          exact ⟨fun h => ⟨⟨h.1, h.2.1⟩, h.1, h.2.2⟩, fun h => ⟨h.1.1, h.1.2, h.2.2⟩⟩
        · rw [if_neg hxy, List.cons_prefix_cons, List.cons_prefix_cons]
          refine iff_of_false (fun h => List.cons_ne_nil _ _ (List.prefix_nil.1 h)) ?_
          rintro ⟨⟨rfl, -⟩, rfl, -⟩
          exact hxy rfl

/-- The namespace shared by some IRIs is the longest one they all begin with. -/
theorem prefix_sharedNamespace_iff (hl : l ≠ []) :
    IsNamespace (sharedNamespace l) ∧
      ∀ s, IsNamespace s → (s <+: sharedNamespace l ↔ ∀ iri ∈ l, s <+: iri) := by
  cases l with
  | nil => exact absurd rfl hl
  | cons iri rest =>
    have hfold : ∀ (rest : List (List Char)) (base : List Char), IsNamespace base →
        IsNamespace (rest.foldl
          (fun base other => namespaceChars (commonStart base (namespaceChars other))) base) ∧
        ∀ s, IsNamespace s → (s <+: rest.foldl
          (fun base other => namespaceChars (commonStart base (namespaceChars other))) base ↔
            s <+: base ∧ ∀ iri ∈ rest, s <+: iri) := by
      intro rest
      induction rest with
      | nil => exact fun base hb => ⟨hb, fun s _ => by simp⟩
      | cons other rest ih =>
        intro base _
        have hns := isNamespace_namespaceChars (commonStart base (namespaceChars other))
        obtain ⟨h₁, h₂⟩ := ih _ hns
        refine ⟨h₁, fun s hs => ?_⟩
        rw [List.foldl_cons, h₂ s hs, hs.prefix_namespaceChars_iff, prefix_commonStart_iff,
          hs.prefix_namespaceChars_iff, List.forall_mem_cons, and_assoc]
    obtain ⟨h₁, h₂⟩ := hfold rest _ (isNamespace_namespaceChars iri)
    refine ⟨h₁, fun s hs => ?_⟩
    rw [sharedNamespace, h₂ s hs, hs.prefix_namespaceChars_iff, List.forall_mem_cons]

/-- **The shared namespace does not depend on the order.** -/
theorem sharedNamespace_eq_of_perm {l' : List (List Char)} (h : l.Perm l') :
    sharedNamespace l = sharedNamespace l' := by
  by_cases hl : l = []
  · subst hl
    rw [h.nil_eq]
  have hl' : l' ≠ [] := by
    rintro rfl
    exact hl h.eq_nil
  obtain ⟨hns, hall⟩ := prefix_sharedNamespace_iff hl
  obtain ⟨hns', hall'⟩ := prefix_sharedNamespace_iff hl'
  have hle : sharedNamespace l <+: sharedNamespace l' := by
    rw [hall' _ hns]
    intro iri hiri
    exact (hall _ hns).1 (List.prefix_refl _) iri (h.symm.subset hiri)
  have hge : sharedNamespace l' <+: sharedNamespace l := by
    rw [hall _ hns']
    intro iri hiri
    exact (hall' _ hns').1 (List.prefix_refl _) iri (h.subset hiri)
  exact hle.eq_of_length (Nat.le_antisymm hle.length_le hge.length_le)

theorem chooseBase_eq_of_perm (base : String) {nodes' : List Term} (h : nodes.Perm nodes') :
    chooseBase base nodes = chooseBase base nodes' := by
  have hshared := sharedNamespace_eq_of_perm ((h.filterMap Term.iri?).map String.toList)
  rw [chooseBase, chooseBase, inferBase?, inferBase?, hshared]

/-! ## Anchors -/

namespace Graph

variable {g g' : Graph}

theorem mem_sourced {n : Term} :
    n ∈ g.sourced ↔
      (∃ q ∈ g.triples, hasProperty Property.sources q = true ∧ q.subject = n) ∧
        g.isFunctionValue n = false := by
  rw [sourced, List.mem_filter, List.mem_eraseDups, List.mem_map]
  simp only [List.mem_filter, and_assoc, Bool.not_eq_true']

/-- **The anchors are those of the set of triples.** -/
theorem anchors_perm (h : g.triples.Perm g'.triples) : g.anchors.Perm g'.anchors := by
  have hsourced : g.sourced.Perm g'.sourced := by
    have hnodup (g : Graph) : g.sourced.Nodup := (nodup_eraseDups _).filter _
    rw [List.perm_ext_iff_of_nodup (hnodup g) (hnodup g')]
    intro n
    rw [mem_sourced, mem_sourced, isFunctionValue, isFunctionValue, h.any_eq]
    simp only [h.mem_iff]
  exact (List.mergeSort_perm _ _).trans (hsourced.trans (List.mergeSort_perm _ _).symm)

theorem nodup_anchors (g : Graph) : g.anchors.Nodup :=
  (List.mergeSort_perm _ _).nodup_iff.2 ((nodup_eraseDups _).filter _)

end Graph

end RdfMapping.RuleGraph
