/-
# Reading back what was written

All prefixes of a document that was written are read before the first mapping, so each mapping is
read with more prefixes than were declared when it was written.  It means the same then.
-/
import RdfMapping.Proofs.Shorthand.Parsing
import RdfMapping.Proofs.Shorthand.WrittenMaps

namespace RdfMapping

variable {doc : Document} {gots maps : List TriplesMap}

/-! ## The declared prefixes -/

namespace Iri.PrefixTable

theorem lookup?_filter (t : PrefixTable) (keep : String → String → Bool) (l : String) :
    (t.filter keep).lookup? l = (t.lookup? l).filter (keep l) := by
  refine Option.ext fun ns => ?_
  have hnodup : (t.bindings.map Prod.fst).Nodup := t.map_fst_bindings ▸ t.inStep.nodup
  rw [Option.filter_eq_some_iff, filter, lookup?_ofList,
    lookup_reverse_eq_some_iff (hnodup.sublist (List.filter_sublist.map _)), ← mem_bindings_iff]
  exact List.mem_filter

end Iri.PrefixTable

namespace Shorthand

open Iri (PrefixTable)
open Mapping
open Yaml (Node Entry)

/-- A prefix of a document is declared or built in. -/
theorem Style.covers_declaredPrefixes {s : Style} (h : s.own = doc.table) :
    s.Covers (declaredPrefixes doc) := by
  intro l ns hl
  rw [h] at hl
  change (PrefixTable.builtin.merge (declaredPrefixes doc)).lookup? l = some ns
  rw [PrefixTable.lookup?_merge, declaredPrefixes, PrefixTable.lookup?_filter, hl,
    Option.filter_some]
  cases hb : PrefixTable.isBuiltin l ns with
  | false => rfl
  | true => exact eq_of_beq hb

theorem foldlM_readPrefix (pairs : List (String × String)) (table : PrefixTable) :
    (pairs.map fun p => entry p.1 (.ofText p.2)).foldlM readPrefix table =
      pure (table.setAll pairs) := by
  induction pairs generalizing table with
  | nil => rfl
  | cons p pairs ih =>
    have hstep : readPrefix table (entry p.1 (.ofText p.2)) = pure (table.set p.1 p.2) := rfl
    rw [List.map_cons, List.foldlM_cons, hstep, pure_bind]
    exact ih _

/-! ## The parts of a document -/

theorem ofName?_name (d : Dialect) : Dialect.ofName? d.name = some d := by
  cases d <;> decide +kernel

/-- The parts of a document that has been written. -/
structure Written where
  declared : PrefixTable
  base : String
  stated : Option Dialect
  maps : List Entry

namespace Written

/-- The node of the declared prefixes. -/
def prefixes (w : Written) : Node :=
  .ofEntries (w.declared.bindings.map fun p => entry p.1 (.ofText p.2))

/-- The parts of a document by key. -/
def keyed (w : Written) : List (DocumentKey × String × Option Node) :=
  [(.prefixes, "prefixes", if w.declared.bindings.isEmpty then none else some w.prefixes),
    (.base, "base", if w.base = defaultBase then none else some (.ofText w.base)),
    (.dialect, "dialect", w.stated.map fun d => .ofText d.name),
    (.mappings, "mappings", some (.mapping {} w.maps.isEmpty w.maps))]

/-- The top-level node of a document. -/
def node (w : Written) : Node :=
  .ofEntries (partEntries w.keyed)

theorem node_eq (w : Written) :
    w.node = .ofEntries ((if w.declared.bindings.isEmpty then []
        else [entry "prefixes" w.prefixes]) ++
      (if w.base = defaultBase then [] else [entry "base" (.ofText w.base)]) ++
      (w.stated.toList.map fun d => entry "dialect" (.ofText d.name)) ++
      [entry "mappings" (.mapping {} w.maps.isEmpty w.maps)]) := by
  unfold node keyed
  split <;> split <;> cases w.stated <;> rfl

theorem nodup_keyed (w : Written) : (w.keyed.map Prod.fst).Nodup := by
  show [DocumentKey.prefixes, .base, .dialect, .mappings].Nodup
  decide

theorem readKeys_node (w : Written) (place : Place) :
    readKeys documentKeys w.node place = pure (keyedParts w.keyed) := by
  refine readKeys_parts ?_ w.nodup_keyed place
  simp only [keyed, List.forall_mem_cons]
  decide +kernel

/-- A part of what is written is found by its key. -/
theorem value?_keyed (w : Written) (k : DocumentKey) :
    (keyedParts w.keyed).value? k = (w.keyed.lookup k).bind Prod.snd := by
  refine value?_keyedParts w.nodup_keyed ?_ k
  have hdialect : (w.stated.map fun d => Node.ofText d.name).map Node.target =
      w.stated.map fun d => Node.ofText d.name := by
    rw [Option.map_map]
    rfl
  have hprefixes : w.prefixes.target = w.prefixes := rfl
  have hbase : (Node.ofText w.base).target = .ofText w.base := rfl
  have hmaps : (Node.mapping {} w.maps.isEmpty w.maps).target =
    .mapping {} w.maps.isEmpty w.maps := rfl
  simp only [keyed, List.forall_mem_cons, apply_ite (Option.map Node.target), Option.map_none,
    Option.map_some, hdialect, hprefixes, hbase, hmaps, true_and]
  exact List.forall_mem_nil _

/-- The prefixes that were declared are read back. -/
theorem readPrefixes_eq (w : Written) :
    readPrefixes .builtin ((keyedParts w.keyed).value? .prefixes) =
      pure (PrefixTable.builtin.merge w.declared) := by
  have hvalue : (keyedParts w.keyed).value? .prefixes =
    if w.declared.bindings.isEmpty then none else some w.prefixes := w.value?_keyed .prefixes
  rw [hvalue]
  split
  · next hempty =>
    rw [PrefixTable.merge, List.isEmpty_iff.1 hempty]
    rfl
  · have hentries : w.prefixes.entries =
        w.declared.bindings.map fun p => entry p.1 (.ofText p.2) := by
      refine entries_ofEntries fun e he => ?_
      obtain ⟨p, -, rfl⟩ := List.mem_map.1 he
      exact ⟨rfl, rfl⟩
    change w.prefixes.entries.foldlM readPrefix .builtin = _
    rw [hentries]
    exact foldlM_readPrefix _ _

theorem readBase_eq (w : Written) (h : Iri.isAbsolute w.base = true) :
    readBase defaultBase ((keyedParts w.keyed).value? .base) = pure w.base := by
  have hvalue : (keyedParts w.keyed).value? .base =
    if w.base = defaultBase then none else some (.ofText w.base) := w.value?_keyed .base
  rw [hvalue]
  split
  · next hdefault => rw [hdefault]; rfl
  · change (if Iri.isAbsolute w.base = true then pure w.base else _) = _
    exact if_pos h

/-- The dialect is read back if it is stated. -/
theorem readDialect_eq (w : Written) :
    readDialect .rml ((keyedParts w.keyed).value? .dialect) = pure (w.stated.getD .rml) := by
  have hvalue : (keyedParts w.keyed).value? .dialect =
    w.stated.map fun d => .ofText d.name := w.value?_keyed .dialect
  rw [hvalue]
  cases w.stated with
  | none => rfl
  | some d =>
    have hnull : (Node.ofText d.name).isNull = false := rfl
    rw [Option.map_some, readDialect]
    dsimp only
    rw [hnull, if_neg Bool.false_ne_true, readScalar_ofText, OptionT.run_pure, pure_bind]
    dsimp only
    rw [ofName?_name]
    rfl

end Written

/-! ## Adding the mappings -/

/-- An entry that is read as a triples map. -/
def ReadsAsMap (scope : Scope) (e : Entry) (got : TriplesMap) : Prop :=
  ∃ n : Node, e = entry got.id n ∧ n.target = n ∧ isValidId got.id = true ∧
    readMapping scope [] (.ofText got.id) n { mapping := got.id } = pure got

/-- A mapping with a new identifier is added. -/
theorem addMapping_eq_pure {scope : Scope} {e : Entry} {got : TriplesMap} (hindexed : doc.Indexed)
    (hfrozen : doc.frozen = false) (hnew : got.id ∉ doc.ids) (h : ReadsAsMap scope e got) :
    addMapping scope [] doc e = pure (doc.extend [got]) := by
  obtain ⟨n, rfl, -, hid, hread⟩ := h
  have hfree : ¬ (doc.lookup? got.id).isSome = true := fun hs =>
    hnew (hindexed.lookup?_isSome_iff.1 hs)
  have htext : (entry got.id n).key.text = got.id := rfl
  unfold addMapping
  dsimp only
  rw [htext, if_neg (by simp [hid]), if_neg hfree]
  change ((readMapping scope [] (.ofText got.id) n { mapping := got.id }).run >>= _) = _
  rw [hread]
  exact enterMapping_eq_pure hindexed hfrozen hnew _ _

/-- **The mappings are added one after the other.** -/
theorem foldlM_addMapping {scope : Scope} {es : List Entry}
    (h : List.Forall₂ (ReadsAsMap scope) es gots) (hindexed : doc.Indexed)
    (hfrozen : doc.frozen = false) (hids : (doc.ids ++ gots.map TriplesMap.id).Nodup) :
    es.foldlM (addMapping scope []) doc = pure (doc.extend gots) := by
  induction h generalizing doc with
  | nil =>
    rw [Document.extend_nil]
    rfl
  | @cons e got es gots he _ ih =>
    obtain ⟨hnew, hids'⟩ := Document.nodup_ids_cons hids
    rw [List.foldlM_cons, addMapping_eq_pure hindexed hfrozen hnew he, pure_bind,
      doc.extend_cons got gots]
    exact ih (hindexed.of_add (hindexed.add_eq_ok hfrozen hnew)) hfrozen hids'

namespace Written

/-- The document with the declarations of a written one and no maps. -/
def start (w : Written) : Document :=
  { Document.create w.base (some (PrefixTable.builtin.merge w.declared)) with
    dialect := w.stated.getD .rml }

theorem indexed_start (w : Written) : w.start.Indexed :=
  ⟨List.nodup_nil, rfl⟩

/-- **A written document is read without a problem.** -/
theorem readDocument_node (w : Written) (hbase : Iri.isAbsolute w.base = true)
    (hmaps : List.Forall₂ (ReadsAsMap ⟨PrefixTable.builtin.merge w.declared, w.base⟩) w.maps gots)
    (hids : (gots.map TriplesMap.id).Nodup) :
    readDocument {} (some w.node) = pure ⟨w.start.extend gots, []⟩ := by
  have hentries : (Node.mapping {} w.maps.isEmpty w.maps).entries = w.maps := by
    refine entries_mapping (forall_mem_right hmaps.flip fun got e he => ?_)
    obtain ⟨n, rfl, htarget, -⟩ := he
    exact ⟨rfl, htarget⟩
  -- the declarations come first, whatever the order of the keys
  refine Logged.bind_eq_pure_iff.2 ⟨_, w.readKeys_node {}, ?_⟩
  refine Logged.bind_eq_pure_iff.2 ⟨_, w.readPrefixes_eq, ?_⟩
  refine Logged.bind_eq_pure_iff.2 ⟨_, w.readBase_eq hbase, ?_⟩
  refine Logged.bind_eq_pure_iff.2 ⟨_, w.readDialect_eq, ?_⟩
  refine Logged.bind_eq_pure_iff.2 ⟨[], ?_, ?_⟩
  · rw [w.value?_keyed .sources]
    rfl
  refine Logged.bind_eq_pure_iff.2 ⟨w.start.extend gots, ?_, rfl⟩
  rw [w.value?_keyed .mappings]
  change (Node.mapping {} w.maps.isEmpty w.maps).entries.foldlM (addMapping _ []) w.start = _
  rw [hentries]
  exact foldlM_addMapping hmaps w.indexed_start rfl hids

/-- A written document is read, if what it says breaks no rule. -/
theorem parse_node (w : Written) (hbase : Iri.isAbsolute w.base = true)
    (hmaps : List.Forall₂ (ReadsAsMap ⟨PrefixTable.builtin.merge w.declared, w.base⟩) w.maps gots)
    (hids : (gots.map TriplesMap.id).Nodup) (hvalid : (w.start.extend gots).isValid = true) :
    parse {} (some (.document {} [w.node])) = .ok ⟨(w.start.extend gots).freeze, []⟩ := by
  change parseBody {} (some w.node) = _
  rw [Document.isValid, List.isEmpty_iff] at hvalid
  rw [parseBody, w.readDocument_node hbase hmaps hids]
  dsimp only [Logged.value_pure, Logged.notes_pure]
  rw [hvalid]
  rfl

end Written

/-! ## Writing documents -/

namespace Style

variable {s : Style} {t : PrefixTable}

/-- **Each triples map has a mapping that means it.** -/
theorem ensures_writeMaps (hs : s.Sound) (hc : s.Covers t) (hnames : ∀ tm ∈ maps, FullNames tm)
    (hpoms : ∀ tm ∈ maps, ∀ pom ∈ tm.predicateObjects, pom.predicates ≠ [] ∧ pom.objects ≠ []) :
    Ensures s (writeMaps s maps) t fun es u =>
      List.Forall₂ (fun tm e => ∃ n, e = entry tm.id n ∧ s.MapMeans u n tm) maps es := by
  refine .mapM (R := fun tm e u => ∃ n, e = entry tm.id n ∧ s.MapMeans u n tm) ?_ ?_
  · rintro tm e u v hg ⟨n, rfl, hn⟩
    exact ⟨n, rfl, hn.grows hg⟩
  · intro tm hmem u hu
    refine (ensures_writeTriplesMap hs (hc.grows hu) (hnames tm hmem) (hpoms tm hmem)).bind
      fun n v _ hn => ?_
    exact .pure ⟨n, rfl, hn⟩

/-- Mappings that mean triples maps are read as the same maps. -/
theorem exists_readMaps {es : List Entry}
    (h : List.Forall₂ (fun tm e => ∃ n, e = entry tm.id n ∧ s.MapMeans t n tm) maps es)
    (hids : ∀ tm ∈ maps, isValidId tm.id = true) :
    ∃ gots, List.Forall₂ TriplesMap.Matches maps gots ∧
      List.Forall₂ (ReadsAsMap (s.scope t)) es gots := by
  refine exists_forall₂ (((List.forall₂_and_left _ _).2 ⟨hids, h⟩).imp fun tm e he => ?_)
  obtain ⟨hid, n, rfl, hn⟩ := he
  obtain ⟨got, hmatch, hread⟩ := hn.reads
  refine ⟨got, hmatch, n, ?_⟩
  rw [← hmatch.id]
  exact ⟨rfl, hn.target, hid, hread t (.refl s t)⟩

end Style

/-- The style that a document is written in. -/
def styleOf (doc : Document) (options : WriteOptions) : Style :=
  ⟨doc.base, doc.table, options.fallback⟩

/-- The dialect that is stated in what is written for a document. -/
def stated? (doc : Document) (options : WriteOptions) : Option Dialect :=
  if options.keepDialect && doc.dialect = .r2rml then some doc.dialect else none

theorem getD_stated? {options : WriteOptions}
    (h : options.keepDialect = true ∨ doc.dialect = .rml) :
    (stated? doc options).getD .rml = doc.dialect := by
  unfold stated?
  cases hd : doc.dialect with
  | rml => simp
  | r2rml =>
    have hkeep := h.resolve_right (by rw [hd]; exact Dialect.noConfusion)
    rw [hkeep]
    rfl

/-- What is written has the prefixes declared with its maps. -/
theorem exists_of_write {options : WriteOptions} {n : Node} (h : write doc options = .ok n) :
    ∃ es declared,
      (writeMaps (styleOf doc options) doc.maps).run.run (declaredPrefixes doc) =
        (.ok es, declared) ∧
      n = .document {} [Written.node ⟨declared, doc.base, stated? doc options, es⟩] := by
  have hstated : (stated? doc options).toList.map (fun d => entry "dialect" (.ofText d.name)) =
      if options.keepDialect && doc.dialect = .r2rml then
        [entry "dialect" (.ofText doc.dialect.name)] else [] := by
    unfold stated?
    split <;> rfl
  unfold write at h
  dsimp only at h
  cases hrun : (writeMaps ⟨doc.base, doc.table, options.fallback⟩ doc.maps).run.run
      (declaredPrefixes doc) with
  | mk r declared =>
    rw [hrun] at h
    cases r with
    | error e => cases h
    | ok es =>
      refine ⟨es, declared, hrun, ?_⟩
      rw [Written.node_eq, hstated]
      cases h
      rfl

/-! ## The same document -/

/-- Maps that are equal apart from positions have the same identifiers. -/
theorem ids_of_matches (h : List.Forall₂ TriplesMap.Matches maps gots) :
    gots.map TriplesMap.id = maps.map TriplesMap.id := by
  induction h with
  | nil => rfl
  | cons hmatch _ ih => rw [List.map_cons, List.map_cons, ih, hmatch.id]

/-- Documents with the same maps apart from positions obey the rules together. -/
theorem isValid_of_matches {doc' : Document} (hknown : ∀ id, doc.Knows id → id ∈ doc.ids)
    (hdoc' : doc'.Indexed) (hbase : doc'.base = doc.base)
    (h : List.Forall₂ TriplesMap.Matches doc.maps doc'.maps) (hvalid : doc.isValid = true) :
    doc'.isValid = true := by
  obtain ⟨hne, -, hok⟩ := Document.isValid_iff.1 hvalid
  have hids : doc'.ids = doc.ids := ids_of_matches h
  have hknown' (id : String) (hid : doc.Knows id) : doc'.Knows id :=
    hdoc'.lookup?_isSome_iff.2 (hids ▸ hknown id hid)
  refine Document.isValid_iff.2 ⟨hbase ▸ hne, hdoc'.nodup, ?_⟩
  exact forall_mem_right ((List.forall₂_and_left _ _).2 ⟨hok, h⟩)
    fun tm got hg => hg.1.of_matches hknown' hg.2

/-- **What is written for a valid document is read as the same document**: the base, the
identifiers in their order and the parts of every map are those of the document, its prefixes are
still there, and so is its dialect if it is stated.  A map that can be looked up has to be among
the maps, as it is in every document that is made by adding maps to a new one. -/
theorem parse_write {doc : Document} (hknown : ∀ id, doc.Knows id → id ∈ doc.ids)
    (hvalid : doc.isValid = true) (hbase : Iri.isAbsolute doc.base = true)
    (hlabels : ∀ l ∈ doc.table.labels, ':' ∉ l.toList) (hnames : ∀ tm ∈ doc.maps, FullNames tm)
    {options : WriteOptions} (hfallback : ∀ l ∈ options.fallback.labels, PrefixTable.Declarable l)
    {n : Node} (h : write doc options = .ok n) :
    ∃ parsed, parse {} (some n) = .ok parsed ∧ parsed.document.base = doc.base ∧
      parsed.document.ids = doc.ids ∧
      List.Forall₂ TriplesMap.Matches doc.maps parsed.document.maps ∧
      (∀ l ns, doc.table.lookup? l = some ns → parsed.document.table.lookup? l = some ns) ∧
      (options.keepDialect = true ∨ doc.dialect = .rml →
        parsed.document.dialect = doc.dialect) := by
  obtain ⟨hne, hids, hok⟩ := Document.isValid_iff.1 hvalid
  obtain ⟨es, declared, hrun, rfl⟩ := exists_of_write h
  -- what is written for the maps means them, with all the prefixes that are declared in the end
  have hsound : (styleOf doc options).Sound := ⟨hbase, hlabels, hfallback⟩
  have hcovers : (styleOf doc options).Covers (declaredPrefixes doc) :=
    Style.covers_declaredPrefixes rfl
  obtain ⟨hgrows, hmeans⟩ := (Style.ensures_writeMaps hsound hcovers hnames
    fun tm htm pom hpom => ⟨((hok tm htm).predicateObjects pom hpom).somePredicate,
      ((hok tm htm).predicateObjects pom hpom).someObject⟩).of_run hrun
  obtain ⟨gots, hmatches, hreads⟩ := Style.exists_readMaps hmeans fun tm htm => (hok tm htm).id
  have hsame := ids_of_matches hmatches
  have hnodup : (gots.map TriplesMap.id).Nodup := hsame ▸ hids
  -- so these maps are added to a document with the same declarations
  let w : Written := ⟨declared, doc.base, stated? doc options, es⟩
  have hbase' : (w.start.extend gots).base = doc.base := if_neg hne
  have hmatches' : List.Forall₂ TriplesMap.Matches doc.maps (w.start.extend gots).maps := hmatches
  have hvalid' := isValid_of_matches hknown (w.indexed_start.extend hnodup) hbase' hmatches' hvalid
  refine ⟨_, w.parse_node hbase hreads hnodup hvalid', hbase', ?_, hmatches', ?_, ?_⟩
  · exact ids_of_matches hmatches'
  · exact fun l ns hl => hcovers.grows hgrows l ns hl
  · exact getD_stated?

/-! ## A document of two maps -/

/-- Employees, from a file. -/
def employeeMap : TriplesMap where
  id := "employee"
  source := { access := "staff.json", formulation := "http://semweb.mmlab.be/ns/ql#JSONPath"
              iterator := "$.staff[*]" }
  subject := { term := { value := some (.template "http://ex.org/employee/\x7bid\x7d") }
               classes := ["http://schema.org/Person"] }
  predicateObjects :=
    [{ predicates := [{ value := some (.constant (.ofIri "http://schema.org/name")) }]
       objects := [{ value := some (.reference "name"), termType := .literal
                     language := "en" }] },
      { predicates := [{ value := some (.constant (.ofIri "http://ex.org/worksIn")) }]
        objects := [{ value := some (.join "department" [⟨"dept", "code"⟩]) }] }]

/-- Their departments, from a table. -/
def departmentMap : TriplesMap where
  id := "department"
  source := { table := "DEPT", sqlVersion := "http://www.w3.org/ns/r2rml#SQL2008" }
  subject := { term := { value := some (.reference "code"), termType := .blankNode } }

/-- The document of both maps. -/
def staff : Document :=
  let table : PrefixTable := .ofList [("ex", "http://ex.org/")]
  Document.extend { Document.create "http://ex.org/maps/" (some table) with dialect := .r2rml }
    [employeeMap, departmentMap]

/-- Class and predicates are written with a prefix that the document does not have. -/
def staffOptions : WriteOptions where
  fallback := .ofList [("schema", "http://schema.org/")]
  keepDialect := true

theorem fullNames_staff : ∀ tm ∈ staff.maps, FullNames tm := by
  have hmaps : staff.maps = [employeeMap, departmentMap] := rfl
  rw [hmaps, List.forall_mem_cons, List.forall_mem_singleton]
  constructor
  · refine ⟨.inr ⟨"http", "semweb.mmlab.be/ns/ql#JSONPath", rfl, by decide⟩, .inl rfl, ?_⟩
    exact List.forall_mem_singleton.2 ⟨"http", "schema.org/Person", rfl, by decide⟩
  · exact ⟨.inl rfl, .inr ⟨"http", "www.w3.org/ns/r2rml#SQL2008", rfl, by decide⟩, nofun⟩

/-- The document is read back, with its dialect. -/
theorem parse_write_staff :
    ∃ n parsed, write staff staffOptions = .ok n ∧ parse {} (some n) = .ok parsed ∧
      parsed.document.ids = ["employee", "department"] ∧
      List.Forall₂ TriplesMap.Matches staff.maps parsed.document.maps ∧
      parsed.document.table.lookup? "ex" = some "http://ex.org/" ∧
      parsed.document.dialect = .r2rml := by
  have hbuilt : staff.Built := (Document.Built.declare _ (.create _ _)).extend rfl (by decide)
  obtain ⟨n, hn⟩ : ∃ n, write staff staffOptions = .ok n := by
    have hsome : (write staff staffOptions).isOk = true := by decide +kernel
    cases h : write staff staffOptions with
    | ok n => exact ⟨n, rfl⟩
    | error e =>
      rw [h] at hsome
      cases hsome
  have hfallback : ∀ l ∈ staffOptions.fallback.labels, PrefixTable.Declarable l :=
    List.forall_mem_singleton.2 ⟨by decide +kernel, by decide +kernel⟩
  obtain ⟨parsed, hparse, -, hids, hmaps, htable, hdialect⟩ :=
    parse_write (fun _ => hbuilt.indexed.lookup?_isSome_iff.1) (by decide +kernel)
      (by decide +kernel) (by decide +kernel) fullNames_staff hfallback hn
  exact ⟨n, parsed, hn, hparse, hids, hmaps, htable "ex" _ (by decide +kernel),
    hdialect (.inl rfl)⟩

end Shorthand

end RdfMapping
