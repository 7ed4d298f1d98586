/-
# Runs of the store

A document is asked to take maps and to be frozen, in any order and as often as one likes.  In every
state that such a run reaches, the index says where the maps are.
-/
import RdfMapping.Proofs.Mapping.Store

namespace RdfMapping.Mapping.Document

open Iri (PrefixTable)

variable {d : Document} {tm : TriplesMap}

/-! ## Requests -/

/-- What is asked of a document. -/
inductive Request where
  | add (tm : TriplesMap)
  | freeze

/-- The document after a request, and why the request was refused, if it was. -/
def serve (d : Document) : Request → Document × Option AddError
  | .add tm => ((insert tm).run d).swap
  | .freeze => (d.freeze, none)

/-- The document after requests one after the other. -/
def serveAll (d : Document) (rs : List Request) : Document :=
  rs.foldl (fun d r => (d.serve r).1) d

/-- The map that a request adds, unless it is refused. -/
def admitted? (d : Document) (r : Request) : Option TriplesMap :=
  match r, (d.serve r).2 with
  | .add tm, none => some tm
  | _, _ => none

/-- The maps that requests add, in the order of the requests. -/
def admitted (d : Document) : List Request → List TriplesMap
  | [] => []
  | r :: rest => (d.admitted? r).toList ++ admitted (d.serve r).1 rest

/-- A document to begin with: one without any part, or a new one. -/
inductive Fresh : Document → Prop where
  | zero : Fresh {}
  | create (base : String) (prefixes : Option PrefixTable) : Fresh (Document.create base prefixes)

theorem serve_add_ok {d' : Document} (h : d.add tm = .ok d') :
    d.serve (.add tm) = (d', none) := by
  obtain ⟨e, -, hadd⟩ | ⟨-, hrun, hadd⟩ := insert_cases d tm
  · cases hadd.symm.trans h
  · cases hadd.symm.trans h
    rw [serve, hrun, Prod.swap_prod_mk]

/-- **A map that is refused leaves the document as it was.** -/
theorem serve_add_error {e : AddError} (h : d.add tm = .error e) :
    d.serve (.add tm) = (d, some e) := by
  obtain ⟨e', hrun, hadd⟩ | ⟨-, -, hadd⟩ := insert_cases d tm
  · cases hadd.symm.trans h
    rw [serve, hrun, Prod.swap_prod_mk]
  · cases hadd.symm.trans h

/-! ## One request -/

theorem add_of_frozen (hf : d.frozen = true) : d.add tm = .error .frozen := by
  rw [add, run_insert, if_pos hf]

/-- A map is refused for one of two reasons. -/
theorem Indexed.add_eq_error_iff (h : d.Indexed) :
    (∃ e, d.add tm = .error e) ↔ d.frozen = true ∨ tm.id ∈ d.ids := by
  constructor
  · rintro ⟨e, he⟩
    by_contra hno
    rw [not_or, Bool.not_eq_true] at hno
    rw [h.add_eq_ok hno.1 hno.2] at he
    cases he
  · intro hwhy
    by_cases hf : d.frozen = true
    · exact ⟨.frozen, add_of_frozen hf⟩
    · have hid := hwhy.resolve_left hf
      refine ⟨.duplicateId tm.id, ?_⟩
      rw [add, run_insert, if_neg hf, if_pos (h.isSome_lookup_index.2 hid)]

theorem Indexed.serve (h : d.Indexed) (r : Request) : (d.serve r).1.Indexed := by
  cases r with
  | freeze => exact ⟨h.nodup, h.index⟩
  | add tm =>
    cases hadd : d.add tm with
    | ok d' =>
      rw [serve_add_ok hadd]
      exact h.of_add hadd
    | error e => rwa [serve_add_error hadd]

/-- A request adds the map that it admits. -/
theorem maps_serve (d : Document) (r : Request) :
    (d.serve r).1.maps = d.maps ++ (d.admitted? r).toList := by
  cases r with
  | freeze => exact (List.append_nil _).symm
  | add tm =>
    unfold admitted?
    cases hadd : d.add tm with
    | ok d' =>
      rw [serve_add_ok hadd, (eq_of_add hadd).2]
      rfl
    | error e =>
      rw [serve_add_error hadd]
      exact (List.append_nil _).symm

theorem serve_of_frozen (hf : d.frozen = true) (r : Request) : (d.serve r).1 = d := by
  cases r with
  | freeze =>
    change { d with frozen := true } = d
    rw [← hf]
  | add tm => rw [serve_add_error (add_of_frozen hf)]

/-! ## Runs -/

theorem Indexed.serveAll (h : d.Indexed) (rs : List Request) : (d.serveAll rs).Indexed := by
  induction rs generalizing d with
  | nil => exact h
  | cons r rest ih => exact ih (h.serve r)

/-- **A run adds the maps that are not refused, at the end and in order.** -/
theorem maps_serveAll (d : Document) (rs : List Request) :
    (d.serveAll rs).maps = d.maps ++ d.admitted rs := by
  induction rs generalizing d with
  | nil => exact (List.append_nil _).symm
  | cons r rest ih =>
    change (serveAll (d.serve r).1 rest).maps = _
    rw [ih, maps_serve, admitted, List.append_assoc]

/-- **A frozen document stays as it is.** -/
theorem serveAll_of_frozen (hf : d.frozen = true) (rs : List Request) : d.serveAll rs = d := by
  induction rs with
  | nil => rfl
  | cons r rest ih =>
    change serveAll (d.serve r).1 rest = d
    rw [serve_of_frozen hf, ih]

theorem serveAll_append (d : Document) (rs rs' : List Request) :
    d.serveAll (rs ++ rs') = (d.serveAll rs).serveAll rs' :=
  List.foldl_append

theorem Fresh.indexed (h : d.Fresh) : d.Indexed := by
  cases h <;> exact ⟨List.nodup_nil, rfl⟩

theorem Fresh.maps (h : d.Fresh) : d.maps = [] := by
  cases h <;> rfl

/-- **After any run the index and the maps agree.**  No identifier comes twice, the index gives
the place of each, look-up finds the map with an identifier, the identifiers are those of the maps
that were not refused, in order; a map is refused exactly if the document is frozen or has its
identifier, a refusal changes nothing, and nothing changes once the document is frozen. -/
theorem serveAll_consistent {start : Document} (hstart : start.Fresh) (rs : List Request) :
    (start.serveAll rs).ids.Nodup ∧
      (∀ id i, (start.serveAll rs).index.lookup id = some i ↔
        (start.serveAll rs).ids[i]? = some id) ∧
      (∀ id tm, (start.serveAll rs).lookup? id = some tm ↔
        tm ∈ (start.serveAll rs).maps ∧ tm.id = id) ∧
      (start.serveAll rs).ids = (start.admitted rs).map TriplesMap.id ∧
      (∀ tm, (∃ e, (start.serveAll rs).add tm = .error e) ↔
        (start.serveAll rs).frozen = true ∨ tm.id ∈ (start.serveAll rs).ids) ∧
      (∀ r e, ((start.serveAll rs).serve r).2 = some e →
        ((start.serveAll rs).serve r).1 = start.serveAll rs) ∧
      ∀ later, start.serveAll (rs ++ .freeze :: later) = (start.serveAll rs).freeze := by
  have hindexed : (start.serveAll rs).Indexed := hstart.indexed.serveAll rs
  refine ⟨hindexed.nodup, fun id i => hindexed.lookup_index_eq_some_iff,
    fun id tm => hindexed.lookup?_eq_some_iff, ?_, fun tm => hindexed.add_eq_error_iff, ?_, ?_⟩
  · rw [ids, maps_serveAll, hstart.maps, List.nil_append]
  · intro r e he
    cases r with
    | freeze => cases he
    | add tm =>
      cases hadd : (start.serveAll rs).add tm with
      | ok d' =>
        rw [serve_add_ok hadd] at he
        cases he
      | error e => rw [serve_add_error hadd]
  · intro later
    rw [serveAll_append]
    exact serveAll_of_frozen rfl later

/-- Two maps, one of them twice, and one that comes too late. -/
def lateMap : List Request :=
  [.add { id := "people" }, .add { id := "orders" }, .add { id := "people" }, .freeze,
    .add { id := "late" }]

theorem serveAll_consistent_lateMap :
    Fresh {} ∧ (serveAll {} lateMap).ids = ["people", "orders"] ∧
      (serveAll {} lateMap).frozen = true ∧
      ∃ e, (serveAll {} lateMap).add { id := "late" } = .error e := by
  have hids : (serveAll {} lateMap).ids = ["people", "orders"] := by decide +kernel
  have hfrozen : (serveAll {} lateMap).frozen = true := by decide +kernel
  refine ⟨.zero, hids, hfrozen, ?_⟩
  exact ((serveAll_consistent .zero lateMap).2.2.2.2.1 _).2 (.inl hfrozen)

end RdfMapping.Mapping.Document
