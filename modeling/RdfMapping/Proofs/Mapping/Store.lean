/-
# The store of triples maps

Triples maps are found through an index of their places.  The index of a document that was made
by `create` and `add` is the list of its identifiers with their places.
-/
import Mathlib.Data.List.Nodup
import RdfMapping.Mapping.Document
import RdfMapping.Proofs.Keys

namespace RdfMapping.Mapping

open Iri (PrefixTable)

namespace Document

variable {d d' : Document} {tm : TriplesMap} {id : String}

/-! ## Documents and their index -/

/-- The documents that can be made by adding maps, stating a dialect and freezing. -/
inductive Built : Document → Prop where
  | create (base : String) (prefixes : Option PrefixTable) : Built (Document.create base prefixes)
  | add {d d' : Document} {tm : TriplesMap} : Built d → d.add tm = .ok d' → Built d'
  | declare {d : Document} (dialect : Dialect) : Built d → Built { d with dialect }
  | freeze {d : Document} : Built d → Built d.freeze

/-- The index has the places of the identifiers, each once. -/
structure Indexed (d : Document) : Prop where
  nodup : d.ids.Nodup
  index : d.index = d.ids.zipIdx

theorem Indexed.isSome_lookup_index (h : d.Indexed) :
    (d.index.lookup id).isSome = true ↔ id ∈ d.ids := by
  rw [h.index, isSome_lookup_iff, List.zipIdx_map_fst]

/-- A place in the index is the place of the map. -/
theorem Indexed.lookup_index_eq_some_iff (h : d.Indexed) {i : Nat} :
    d.index.lookup id = some i ↔ d.ids[i]? = some id := by
  have hkeys : (d.ids.zipIdx.map Prod.fst).Nodup := by
    rw [List.zipIdx_map_fst]
    exact h.nodup
  rw [h.index, lookup_eq_some_iff_mem hkeys, List.mk_mem_zipIdx_iff_getElem?]

/-- **Look-up finds the map with an identifier.** -/
theorem Indexed.lookup?_eq_some_iff (h : d.Indexed) :
    d.lookup? id = some tm ↔ tm ∈ d.maps ∧ tm.id = id := by
  refine Option.bind_eq_some_iff.trans ?_
  simp only [h.lookup_index_eq_some_iff, ids, List.getElem?_map, Option.map_eq_some_iff]
  constructor
  · rintro ⟨i, ⟨u, hu, hid⟩, htm⟩
    cases hu.symm.trans htm
    exact ⟨List.mem_of_getElem? htm, hid⟩
  · rintro ⟨hmem, hid⟩
    obtain ⟨i, hi⟩ := List.mem_iff_getElem?.1 hmem
    exact ⟨i, ⟨tm, hi, hid⟩, hi⟩

theorem Indexed.lookup?_isSome_iff (h : d.Indexed) :
    (d.lookup? id).isSome = true ↔ id ∈ d.ids := by
  rw [Option.isSome_iff_exists, ids, List.mem_map]
  exact exists_congr fun tm => h.lookup?_eq_some_iff

/-! ## Adding maps -/

/-- The document with further maps at the end. -/
def extend (d : Document) (maps : List TriplesMap) : Document :=
  { d with
    maps := d.maps ++ maps
    index := d.index ++ (maps.map TriplesMap.id).zipIdx d.maps.length }

theorem extend_nil (d : Document) : d.extend [] = d := by
  simp [extend]

theorem extend_cons (d : Document) (tm : TriplesMap) (rest : List TriplesMap) :
    d.extend (tm :: rest) = (d.extend [tm]).extend rest := by
  simp [extend, List.zipIdx_cons]

/-- **What entering a map does**: a refusal comes before the first change. -/
theorem run_insert (d : Document) (tm : TriplesMap) :
    (insert tm).run d =
      if d.frozen = true then (some .frozen, d)
      else if (d.index.lookup tm.id).isSome = true then (some (.duplicateId tm.id), d)
      else (none, d.extend [tm]) := by
  simp only [insert, StateT.run_bind, StateT.run_get, pure_bind]
  split
  · rfl
  · simp only [StateT.run_bind, StateT.run_get, pure_bind]
    split <;> rfl

/-- A map is refused and nothing changes, or it is added. -/
theorem insert_cases (d : Document) (tm : TriplesMap) :
    (∃ e, (insert tm).run d = (some e, d) ∧ d.add tm = .error e) ∨
      (d.index.lookup tm.id).isSome = false ∧
        (insert tm).run d = (none, d.extend [tm]) ∧ d.add tm = .ok (d.extend [tm]) := by
  unfold add
  rw [run_insert]
  split
  · exact .inl ⟨_, rfl, rfl⟩
  · split
    · exact .inl ⟨_, rfl, rfl⟩
    · next hnew => exact .inr ⟨Bool.eq_false_iff.2 hnew, rfl, rfl⟩

/-- A map with a new identifier is added at the end. -/
theorem Indexed.run_insert_eq (h : d.Indexed) (hf : d.frozen = false) (hid : tm.id ∉ d.ids) :
    (insert tm).run d = (none, d.extend [tm]) := by
  have hlook : ¬ (d.index.lookup tm.id).isSome = true := fun hs =>
    hid (h.isSome_lookup_index.1 hs)
  rw [run_insert, if_neg (by simp [hf]), if_neg hlook]

theorem Indexed.add_eq_ok (h : d.Indexed) (hf : d.frozen = false) (hid : tm.id ∉ d.ids) :
    d.add tm = .ok (d.extend [tm]) := by
  rw [add, h.run_insert_eq hf hid]

/-- What an addition does if it is not refused. -/
theorem eq_of_add (ha : d.add tm = .ok d') :
    (d.index.lookup tm.id).isSome = false ∧ d' = d.extend [tm] := by
  obtain ⟨e, -, hadd⟩ | ⟨hnew, -, hadd⟩ := insert_cases d tm
  · cases hadd.symm.trans ha
  · cases hadd.symm.trans ha
    exact ⟨hnew, rfl⟩

theorem Indexed.extend (h : d.Indexed) {maps : List TriplesMap}
    (hids : (d.ids ++ maps.map TriplesMap.id).Nodup) : (d.extend maps).Indexed := by
  constructor
  · simpa [ids, Document.extend] using hids
  · simp [ids, Document.extend, h.index, List.zipIdx_append]

theorem Indexed.of_add (h : d.Indexed) (ha : d.add tm = .ok d') : d'.Indexed := by
  obtain ⟨hnew, rfl⟩ := eq_of_add ha
  refine h.extend (List.nodup_append.2 ⟨h.nodup, List.nodup_singleton _, ?_⟩)
  rintro a hmem b hb rfl
  rw [List.mem_singleton.1 hb, ← h.isSome_lookup_index, hnew] at hmem
  cases hmem

theorem Built.indexed (h : d.Built) : d.Indexed := by
  induction h with
  | create base prefixes => exact ⟨List.nodup_nil, rfl⟩
  | add _ ha ih => exact ih.of_add ha
  | declare dialect _ ih => exact ⟨ih.nodup, ih.index⟩
  | freeze _ ih => exact ⟨ih.nodup, ih.index⟩

/-- The first of some distinct maps is new, and so are the others. -/
theorem nodup_ids_cons {rest : List TriplesMap}
    (hids : (d.ids ++ (tm :: rest).map TriplesMap.id).Nodup) :
    tm.id ∉ d.ids ∧ ((d.extend [tm]).ids ++ rest.map TriplesMap.id).Nodup := by
  refine ⟨?_, by simpa [ids, extend] using hids⟩
  rw [List.map_cons, List.nodup_append] at hids
  exact fun hmem => hids.2.2 _ hmem _ (List.mem_cons_self ..) rfl

/-- **No map with an identifier of its own is refused.** -/
theorem Indexed.foldlM_add (h : d.Indexed) (hf : d.frozen = false) {maps : List TriplesMap}
    (hids : (d.ids ++ maps.map TriplesMap.id).Nodup) :
    maps.foldlM Document.add d = .ok (d.extend maps) := by
  induction maps generalizing d with
  | nil =>
    rw [extend_nil]
    rfl
  | cons tm rest ih =>
    obtain ⟨hnew, hids'⟩ := nodup_ids_cons hids
    have hadd := h.add_eq_ok hf hnew
    rw [List.foldlM_cons, hadd, d.extend_cons tm rest]
    exact ih (h.of_add hadd) hf hids'

theorem Built.extend (h : d.Built) (hf : d.frozen = false) {maps : List TriplesMap}
    (hids : (d.ids ++ maps.map TriplesMap.id).Nodup) : (d.extend maps).Built := by
  induction maps generalizing d with
  | nil => rwa [extend_nil]
  | cons tm rest ih =>
    obtain ⟨hnew, hids'⟩ := nodup_ids_cons hids
    rw [extend_cons]
    exact ih (.add h (h.indexed.add_eq_ok hf hnew)) hf hids'

end Document

end RdfMapping.Mapping
