/-
# Prefix tables

A prefix table binds labels to namespaces, in the order of declaration.  It is kept as a list of
labels and, apart from it, a map from labels to namespaces.  Every operation works on both, and
keeps them in step: the list has each label of the map once.
-/

namespace RdfMapping.Iri

/-- A table as it is kept: its labels, and a map to namespaces. -/
structure PrefixTable.Raw where
  labels : List String := []
  namespaces : String → Option String := fun _ => none

namespace PrefixTable.Raw

/-- The namespace bound to a label. -/
def lookup? (t : Raw) (label : String) : Option String :=
  t.namespaces label

/-- The number of labels. -/
def size (t : Raw) : Nat :=
  t.labels.length

/-- The labels with what they are bound to, in order. -/
def bindings (t : Raw) : List (String × String) :=
  t.labels.map fun l => (l, (t.lookup? l).getD "")

/-- Binds a label; one that the map does not have is put at the end of the list. -/
def set (t : Raw) (label ns : String) : Raw where
  labels := if (t.lookup? label).isSome then t.labels else t.labels ++ [label]
  namespaces l := if l = label then some ns else t.namespaces l

/-- Adds declarations in their order. -/
def setAll (t : Raw) (pairs : List (String × String)) : Raw :=
  pairs.foldl (fun table (label, ns) => table.set label ns) t

/-- Adds every binding of another table, in its order. -/
def merge (t u : Raw) : Raw :=
  t.setAll u.bindings

/-- Whether two tables have the same bindings; `none` counts as empty. -/
def agree (t u : Option Raw) : Bool :=
  let t := t.getD {}
  let u := u.getD {}
  t.size == u.size && (t.labels.zip u.labels).all fun (l, m) =>
    l == m && (t.lookup? l).getD "" == (u.lookup? l).getD ""

/-- No label is listed twice, and those listed are those bound. -/
structure InStep (t : Raw) : Prop where
  nodup : t.labels.Nodup
  bound : ∀ l, (t.lookup? l).isSome = true ↔ l ∈ t.labels

/-- A label has the namespace it was set to last; the others keep theirs. -/
theorem lookup?_set (t : Raw) (label ns l : String) :
    (t.set label ns).lookup? l = if l = label then some ns else t.lookup? l := rfl

/-- The zero value is a table. -/
theorem inStep_empty : InStep {} :=
  ⟨List.nodup_nil,
    fun _ => ⟨fun h => absurd h Bool.false_ne_true, fun h => absurd h List.not_mem_nil⟩⟩

/-- **Binding a label keeps the list and the map in step.** -/
theorem InStep.set {t : Raw} (h : t.InStep) (label ns : String) : (t.set label ns).InStep := by
  by_cases hbound : (t.lookup? label).isSome = true
  · have hlabels : (t.set label ns).labels = t.labels := if_pos hbound
    refine ⟨hlabels ▸ h.nodup, fun l => ?_⟩
    rw [hlabels, lookup?_set]
    by_cases hl : l = label
    · rw [if_pos hl, hl, ← h.bound]
      exact ⟨fun _ => hbound, fun _ => rfl⟩
    · rw [if_neg hl]
      exact h.bound l
  · have hlabels : (t.set label ns).labels = t.labels ++ [label] := if_neg hbound
    refine ⟨?_, fun l => ?_⟩
    · rw [hlabels]
      refine List.nodup_append.2 ⟨h.nodup, List.nodup_cons.2 ⟨List.not_mem_nil, List.nodup_nil⟩, ?_⟩
      rintro a ha b hb rfl
      exact hbound ((h.bound label).2 (List.mem_singleton.1 hb ▸ ha))
    · rw [hlabels, lookup?_set, List.mem_append, List.mem_singleton]
      by_cases hl : l = label
      · rw [if_pos hl]
        exact ⟨fun _ => .inr hl, fun _ => rfl⟩
      · rw [if_neg hl, h.bound]
        exact ⟨.inl, fun hmem => hmem.resolve_right hl⟩

/-- **Any number of declarations keep the list and the map in step.** -/
theorem InStep.setAll {t : Raw} (h : t.InStep) (pairs : List (String × String)) :
    (t.setAll pairs).InStep := by
  induction pairs generalizing t with
  | nil => exact h
  | cons p rest ih => exact ih (h.set p.1 p.2)

end PrefixTable.Raw

/-- An ordered table of labels and namespaces, whose list and map are in step. -/
@[ext] structure PrefixTable extends PrefixTable.Raw where
  inStep : toRaw.InStep

namespace PrefixTable

/-- The table without bindings. -/
def empty : PrefixTable := ⟨{}, Raw.inStep_empty⟩

/-- The namespace bound to a label. -/
def lookup? (t : PrefixTable) (label : String) : Option String :=
  t.toRaw.lookup? label

/-- The number of bindings. -/
def size (t : PrefixTable) : Nat :=
  t.toRaw.size

/-- The labels with their namespaces, in order. -/
def bindings (t : PrefixTable) : List (String × String) :=
  t.toRaw.bindings

/-- Binds a label to a namespace. -/
def set (t : PrefixTable) (label ns : String) : PrefixTable :=
  ⟨t.toRaw.set label ns, t.inStep.set label ns⟩

/-- Adds declarations in their order. -/
def setAll (t : PrefixTable) (pairs : List (String × String)) : PrefixTable :=
  ⟨t.toRaw.setAll pairs, t.inStep.setAll pairs⟩

/-- Adds every binding of another table, in its order. -/
def merge (t u : PrefixTable) : PrefixTable :=
  t.setAll u.bindings

/-- The table of a list of declarations. -/
def ofList (pairs : List (String × String)) : PrefixTable :=
  empty.setAll pairs

/-- The bindings that pass a test. -/
def filter (t : PrefixTable) (keep : String → String → Bool) : PrefixTable :=
  ofList (t.bindings.filter fun (label, ns) => keep label ns)

/-- Whether two tables have the same bindings in the same order. -/
def agree (t u : Option PrefixTable) : Bool :=
  Raw.agree (t.map toRaw) (u.map toRaw)

/-- The bindings sorted by label. -/
def sorted (t : PrefixTable) : List (String × String) :=
  t.bindings.mergeSort fun (l, _) (m, _) => l ≤ m

/-! ## Labels and namespaces -/

/-- A label has the namespace it was set to last; the others keep theirs. -/
@[simp] theorem lookup?_set (t : PrefixTable) (label ns l : String) :
    (t.set label ns).lookup? l = if l = label then some ns else t.lookup? l := rfl

/-- A new label comes last; the others keep their places. -/
theorem labels_set (t : PrefixTable) (label ns : String) :
    (t.set label ns).labels = if label ∈ t.labels then t.labels else t.labels ++ [label] := by
  change (if (t.toRaw.lookup? label).isSome = true then _ else _) = _
  simp only [t.inStep.bound]

/-- The labels of a table are those of its bindings. -/
theorem map_fst_bindings (t : PrefixTable) : t.bindings.map Prod.fst = t.labels := by
  rw [bindings, Raw.bindings, List.map_map]
  exact List.map_id _

/-- A binding is what look-up finds. -/
theorem mem_bindings_iff {t : PrefixTable} {label ns : String} :
    (label, ns) ∈ t.bindings ↔ t.lookup? label = some ns := by
  have hbound := t.inStep.bound label
  rw [bindings, Raw.bindings, List.mem_map]
  constructor
  · rintro ⟨l, hl, heq⟩
    obtain ⟨rfl, rfl⟩ := Prod.mk.inj heq
    obtain ⟨ns, h⟩ := Option.isSome_iff_exists.1 (hbound.2 hl)
    rw [lookup?, h]
    rfl
  · intro h
    change t.toRaw.lookup? label = some ns at h
    rw [h] at hbound
    exact ⟨label, hbound.1 rfl, by rw [h]; rfl⟩

/-- Tables with the same bindings in the same order are the same. -/
theorem eq_of_bindings {t u : PrefixTable} (h : t.bindings = u.bindings) : t = u := by
  have hlabels : t.labels = u.labels := by rw [← map_fst_bindings, h, map_fst_bindings]
  refine PrefixTable.ext hlabels (funext fun l => Option.ext fun ns => ?_)
  change t.lookup? l = some ns ↔ u.lookup? l = some ns
  rw [← mem_bindings_iff, h, mem_bindings_iff]

instance : DecidableEq PrefixTable := fun t u =>
  decidable_of_iff (t.bindings = u.bindings) ⟨eq_of_bindings, congrArg bindings⟩

instance : Repr PrefixTable := ⟨fun t => reprPrec t.bindings⟩

/-! ## The built-in table -/

/-- The namespace of the relational mapping vocabulary. -/
def rrNamespace : String := "http://www.w3.org/ns/r2rml#"

/-- The namespace of the RDF vocabulary. -/
def rdfNamespace : String := "http://www.w3.org/1999/02/22-rdf-syntax-ns#"

/-- The namespace of the RDF schema vocabulary. -/
def rdfsNamespace : String := "http://www.w3.org/2000/01/rdf-schema#"

/-- The namespace of the vocabulary for mappings of any source. -/
def rmlNamespace : String := "http://semweb.mmlab.be/ns/rml#"

/-- The namespace of the query languages. -/
def qlNamespace : String := "http://semweb.mmlab.be/ns/ql#"

/-- The namespace of the vocabulary for functions in mappings. -/
def fnmlNamespace : String := "http://semweb.mmlab.be/ns/fnml#"

/-- The namespace of the function ontology. -/
def fnoNamespace : String := "http://w3id.org/function/ontology#"

/-- The labels every document may use. -/
def builtin : PrefixTable :=
  .ofList [("rr", rrNamespace), ("rdf", rdfNamespace), ("rdfs", rdfsNamespace),
    ("rml", rmlNamespace), ("ql", qlNamespace), ("fnml", fnmlNamespace), ("fno", fnoNamespace)]

/-- Whether a label is bound to the same namespace in the built-in table. -/
def isBuiltin (label ns : String) : Bool :=
  builtin.lookup? label == some ns

end PrefixTable

end RdfMapping.Iri
