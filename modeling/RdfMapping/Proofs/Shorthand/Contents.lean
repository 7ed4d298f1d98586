/-
# What a document holds

Of a tree that is read as a document only the entries of its sections and the nodes of its base and
its dialect matter.  The order of these parts and the spelling of their keys do not.
-/
import RdfMapping.Proofs.Shorthand.ListedEntries

namespace RdfMapping.Shorthand

open Mapping
open Yaml (Node Entry)

variable {es : List Entry} {n body : Option Node} {settings : Settings} {scope : Scope}
  {declared : List NamedSource} {keys : Keyed DocumentKey} {draught : Draught} {parsed : Parsed}

/-! ## Entries by key -/

section Keys

variable {κ : Type} [BEq κ] [LawfulBEq κ] {ring : Keyring κ}

/-- **Entries are read by key just if each is known and comes once.** -/
theorem collectKeys_eq_pure_iff {place : Place} {found keys : Keyed κ} :
    collectKeys ring place found es = pure keys ↔
      ∃ more : Keyed κ, keys = found ++ more ∧ more.map Prod.snd = es ∧
        (∀ p ∈ more, ring.find? p.2 = some p.1) ∧ (more.map Prod.fst).Nodup ∧
        ∀ p ∈ more, found.get? p.1 = none := by
  induction es generalizing found with
  | nil =>
    constructor
    · intro h
      cases h
      exact ⟨[], (List.append_nil _).symm, rfl, by simp, List.nodup_nil, by simp⟩
    · rintro ⟨more, rfl, hes, -⟩
      rw [List.map_eq_nil_iff.1 hes, List.append_nil]
      rfl
  | cons e rest ih =>
    rw [collectKeys_cons_eq_pure_iff]
    constructor
    · rintro ⟨k, hk, hnew, h⟩
      obtain ⟨more, rfl, hes, hfind, hnodup, hfound⟩ := ih.1 h
      refine ⟨(k, e) :: more, ?_, ?_, ?_, ?_, ?_⟩
      · rw [List.append_assoc, List.singleton_append]
      · rw [List.map_cons, hes]
      · exact List.forall_mem_cons.2 ⟨hk, hfind⟩
      · refine List.nodup_cons.2 ⟨fun hmem => ?_, hnodup⟩
        obtain ⟨p, hp, hpk⟩ := List.mem_map.1 hmem
        have hnone := hfound p hp
        rw [hpk, get?_append, Option.or_eq_none_iff] at hnone
        exact absurd hnone.2 (by simp [Keyed.get?])
      · refine List.forall_mem_cons.2 ⟨hnew, fun p hp => ?_⟩
        have hnone := hfound p hp
        rw [get?_append, Option.or_eq_none_iff] at hnone
        exact hnone.1
    · rintro ⟨_ | ⟨⟨k, e⟩, more⟩, rfl, hes, hfind, hnodup, hfound⟩
      · cases hes
      · obtain ⟨rfl, hrest⟩ := List.cons.inj hes
        rw [List.forall_mem_cons] at hfind hfound
        rw [List.map_cons, List.nodup_cons] at hnodup
        refine ⟨k, hfind.1, hfound.1, ih.2 ⟨more, ?_, hrest, hfind.2, hnodup.2, fun p hp => ?_⟩⟩
        · rw [List.append_assoc, List.singleton_append]
        · have hne : p.1 ≠ k := fun heq => hnodup.1 (List.mem_map.2 ⟨p, hp, heq⟩)
          rw [get?_append, hfound.2 p hp, Option.none_or, Keyed.get?, List.lookup_cons,
            beq_eq_false_iff_ne.2 hne]
          rfl

/-- What is found with a key is the first entry that is written with it. -/
theorem get?_eq_find? {keys : Keyed κ} (h : ∀ p ∈ keys, ring.find? p.2 = some p.1) (k : κ) :
    keys.get? k = (keys.map Prod.snd).find? fun e => ring.find? e == some k := by
  induction keys with
  | nil => rfl
  | cons p rest ih =>
    obtain ⟨k', e⟩ := p
    rw [List.forall_mem_cons] at h
    have hk : ring.find? e = some k' := h.1
    rw [Keyed.get?, List.lookup_cons, List.map_cons, List.find?_cons, hk]
    by_cases heq : k = k'
    · rw [heq]
      simp
    · have hne : (some k' == some k) = false := by simpa using Ne.symm heq
      rw [beq_eq_false_iff_ne.2 heq, hne]
      exact ih h.2

end Keys

/-! ## Sections -/

/-- The entries of a node that may be absent. -/
def entriesOf (n : Option Node) : List Entry :=
  (n.map Node.entries).getD []

/-- Keys and values of entries have their aliases followed. -/
theorem plain_entries {n : Node} {e : Entry} (h : e ∈ n.entries) :
    e.key.target = e.key ∧ e.value.target = e.value := by
  unfold Node.entries at h
  split at h
  · obtain ⟨x, -, rfl⟩ := List.mem_map.1 h
    exact ⟨Node.target_target x.key, Node.target_target x.value⟩
  · cases h

/-- A section is a mapping, or null if it has no entries. -/
def IsSection (n : Node) : Prop :=
  n.isNull = true ∨ n.isMapping = true

/-- **Reading a section takes a step for each of its entries.** -/
theorem readSection_eq_pure_iff {α : Type} (read : Option Node → Noted α)
    {step : α → Entry → Noted α} {start a : α} (problem : Node → Problem) (place : Place)
    (hnone : read none = pure start) (hsome : ∀ n, read (some n) = if n.isNull then pure start
      else if n.isMapping then n.entries.foldlM step start
      else note (problem n) (some n) place >>= fun _ => pure start) :
    read n = pure a ↔ (∀ m ∈ n, IsSection m) ∧ (entriesOf n).foldlM step start = pure a := by
  cases n with
  | none =>
    rw [hnone]
    exact ⟨fun ha => ⟨fun m hm => absurd hm (Option.not_mem_none m), ha⟩, fun ha => ha.2⟩
  | some n =>
    have hmem : (∀ m ∈ some n, IsSection m) ↔ IsSection n :=
      ⟨fun h => h n rfl, fun h m hm => Option.some.inj hm ▸ h⟩
    rw [hmem, hsome, entriesOf, Option.map_some, Option.getD_some]
    by_cases hnull : n.isNull = true
    · rw [if_pos hnull, entries_eq_nil (isMapping_of_isNull hnull).1]
      exact ⟨fun ha => ⟨.inl hnull, ha⟩, fun ha => ha.2⟩
    · rw [if_neg hnull]
      by_cases hmapping : n.isMapping = true
      · rw [if_pos hmapping]
        exact ⟨fun ha => ⟨.inr hmapping, ha⟩, fun ha => ha.2⟩
      · rw [if_neg hmapping]
        refine ⟨fun ha => ?_, fun ha => absurd ha.1 (not_or.2 ⟨hnull, hmapping⟩)⟩
        obtain ⟨u, hu, -⟩ := Logged.bind_eq_pure_iff.1 ha
        exact absurd hu note_ne_pure

theorem readPrefixes_eq_pure_iff {table table' : Iri.PrefixTable} :
    readPrefixes table n = pure table' ↔
      (∀ m ∈ n, IsSection m) ∧ (entriesOf n).foldlM readPrefix table = pure table' :=
  readSection_eq_pure_iff (readPrefixes table) (fun m => .wrongForm .prefixes m.kindName)
    { path := "prefixes" } rfl fun _ => rfl

theorem readNamedSources_eq_pure_iff :
    readNamedSources scope n = pure declared ↔
      (∀ m ∈ n, IsSection m) ∧ (entriesOf n).foldlM (readNamedSource scope) [] = pure declared :=
  readSection_eq_pure_iff (readNamedSources scope) (fun m => .wrongForm .namedSources m.kindName)
    { path := "sources" } rfl fun _ => rfl

theorem addMappings_eq_pure_iff {doc doc' : Document} :
    addMappings scope declared doc n = pure doc' ↔
      (∀ m ∈ n, IsSection m) ∧
        (entriesOf n).foldlM (addMapping scope declared) doc = pure doc' :=
  readSection_eq_pure_iff (addMappings scope declared doc)
    (fun m => .wrongForm .mappings m.kindName) { path := "mappings" } rfl fun _ => rfl

/-! ## Contents -/

/-- The entries of the top-level node of a tree. -/
def topEntries (root : Option Node) : List Entry :=
  entriesOf (root.bind Node.body?)

/-- The value of the first entry with a key. -/
def partOf (es : List Entry) (k : DocumentKey) : Option Node :=
  (es.find? fun e => documentKeys.find? e == some k).map Entry.value

/-- What a document holds. -/
structure Contents where
  prefixes : List Entry
  base : Option Node
  dialect : Option Node
  sources : List Entry
  mappings : List Entry

/-- What the entries at the top of a tree hold. -/
def contentsOf (es : List Entry) : Contents where
  prefixes := entriesOf (partOf es .prefixes)
  base := partOf es .base
  dialect := partOf es .dialect
  sources := entriesOf (partOf es .sources)
  mappings := entriesOf (partOf es .mappings)

/-- The parts of a document that are sections. -/
def isSectionKey : DocumentKey → Bool
  | .prefixes | .sources | .mappings => true
  | .base | .dialect => false

/-- The top of a document has known keys, each once. -/
structure WellKeyed (es : List Entry) : Prop where
  known : ∀ e ∈ es, ∃ k, documentKeys.find? e = some k
  distinct : (es.map documentKeys.find?).Nodup
  sections : ∀ k, isSectionKey k = true → ∀ n ∈ partOf es k, IsSection n

/-- Trees that can be a document, as far as their top is concerned. -/
structure IsReadable (root : Option Node) : Prop where
  body : ∀ n ∈ root.bind Node.body?, IsSection n
  entries : WellKeyed (topEntries root)

/-- What contents mean: names, a dialect, the declared sources and the document. -/
structure Contents.ReadsAs (settings : Settings) (c : Contents) (scope : Scope)
    (stated : Dialect) (draught : Draught) : Prop where
  prefixes : c.prefixes.foldlM readPrefix (settings.prefixes.getD .builtin) = pure scope.table
  base : readBase (if settings.base = "" then defaultBase else settings.base) c.base =
    pure scope.base
  dialect : readDialect .rml c.dialect = pure stated
  sources : c.sources.foldlM (readNamedSource scope) [] = pure draught.declared
  mappings : c.mappings.foldlM (addMapping scope draught.declared)
    { Document.create scope.base (some scope.table) with dialect := stated } =
      pure draught.document

/-! ## Reading contents -/

theorem exists_keyed (h : ∀ e ∈ es, ∃ k, documentKeys.find? e = some k) :
    ∃ keys : Keyed DocumentKey, keys.map Prod.snd = es ∧
      ∀ p ∈ keys, documentKeys.find? p.2 = some p.1 := by
  induction es with
  | nil => exact ⟨[], rfl, by simp⟩
  | cons e rest ih =>
    rw [List.forall_mem_cons] at h
    obtain ⟨k, hk⟩ := h.1
    obtain ⟨keys, hkeys, hfind⟩ := ih h.2
    exact ⟨(k, e) :: keys, by rw [List.map_cons, hkeys], List.forall_mem_cons.2 ⟨hk, hfind⟩⟩

theorem map_find?_of_keyed (h : ∀ p ∈ keys, documentKeys.find? p.2 = some p.1) :
    (keys.map Prod.snd).map documentKeys.find? = (keys.map Prod.fst).map some := by
  rw [List.map_map, List.map_map]
  exact List.map_congr_left h

/-- The top is read by key just if each is known and comes once. -/
theorem exists_collectKeys_iff :
    (∃ keys, collectKeys documentKeys {} [] es = pure keys) ↔
      (∀ e ∈ es, ∃ k, documentKeys.find? e = some k) ∧ (es.map documentKeys.find?).Nodup := by
  constructor
  · rintro ⟨keys, hkeys⟩
    obtain ⟨keys, -, rfl, hfind, hnodup, -⟩ := collectKeys_eq_pure_iff.1 hkeys
    refine ⟨fun e he => ?_, ?_⟩
    · obtain ⟨p, hp, rfl⟩ := List.mem_map.1 he
      exact ⟨p.1, hfind p hp⟩
    · rw [map_find?_of_keyed hfind]
      exact hnodup.map fun _ _ => Option.some.inj
  · rintro ⟨hknown, hdistinct⟩
    obtain ⟨keys, rfl, hfind⟩ := exists_keyed hknown
    rw [map_find?_of_keyed hfind] at hdistinct
    exact ⟨keys, collectKeys_eq_pure_iff.2
      ⟨keys, rfl, rfl, hfind, hdistinct.of_map, fun p hp => rfl⟩⟩

theorem value?_of_collectKeys (h : collectKeys documentKeys {} [] es = pure keys) (k : DocumentKey)
    : keys.value? k = partOf es k := by
  obtain ⟨more, rfl, rfl, hfind, -, -⟩ := collectKeys_eq_pure_iff.1 h
  rw [Keyed.value?, get?_eq_find? hfind, partOf]

/-- The steps of reading a document, from the entries at its top. -/
theorem readDocument_steps :
    readDocument settings body = pure draught ↔
      ∃ keys, collectKeys documentKeys {} [] (entriesOf body) = pure keys ∧
        ∃ table, readPrefixes (settings.prefixes.getD .builtin) (keys.value? .prefixes) =
          pure table ∧
        ∃ base, readBase (if settings.base = "" then defaultBase else settings.base)
          (keys.value? .base) = pure base ∧
        ∃ stated, readDialect .rml (keys.value? .dialect) = pure stated ∧
        ∃ declared, readNamedSources ⟨table, base⟩ (keys.value? .sources) = pure declared ∧
        ∃ document, addMappings ⟨table, base⟩ declared
          { Document.create base (some table) with dialect := stated } (keys.value? .mappings) =
            pure document ∧
        (pure ⟨document, declared⟩ : Noted Draught) = pure draught := by
  cases body <;>
  · simp only [readDocument, Logged.bind_eq_pure_iff]
    exact Iff.rfl

/-- **A document is read just if its entries and contents are.** -/
theorem readDocument_eq_pure_iff :
    readDocument settings body = pure draught ↔
      WellKeyed (entriesOf body) ∧
        ∃ scope stated, (contentsOf (entriesOf body)).ReadsAs settings scope stated draught := by
  rw [readDocument_steps]
  constructor
  · rintro ⟨keys, hkeys, table, htable, base, hbase, stated, hstated, declared, hdeclared, document,
      hdocument, hpure⟩
    cases hpure
    obtain ⟨hknown, hdistinct⟩ := exists_collectKeys_iff.1 ⟨keys, hkeys⟩
    have hpart := value?_of_collectKeys hkeys
    rw [hpart, readPrefixes_eq_pure_iff] at htable
    rw [hpart, readNamedSources_eq_pure_iff] at hdeclared
    rw [hpart, addMappings_eq_pure_iff] at hdocument
    rw [hpart] at hbase hstated
    refine ⟨⟨hknown, hdistinct, fun k hk => ?_⟩, ⟨table, base⟩, stated, ?_⟩
    · cases k with
      | prefixes => exact htable.1
      | sources => exact hdeclared.1
      | mappings => exact hdocument.1
      | base => cases hk
      | dialect => cases hk
    · exact ⟨htable.2, hbase, hstated, hdeclared.2, hdocument.2⟩
  · rintro ⟨hes, scope, stated, hread⟩
    obtain ⟨keys, hkeys⟩ := exists_collectKeys_iff.2 ⟨hes.known, hes.distinct⟩
    have hpart := value?_of_collectKeys hkeys
    refine ⟨keys, hkeys, scope.table, ?_, scope.base, ?_, stated, ?_,
      draught.declared, ?_, draught.document, ?_, rfl⟩
    · rw [hpart, readPrefixes_eq_pure_iff]
      exact ⟨hes.sections .prefixes rfl, hread.prefixes⟩
    · rw [hpart]
      exact hread.base
    · rw [hpart]
      exact hread.dialect
    · rw [hpart, readNamedSources_eq_pure_iff]
      exact ⟨hes.sections .sources rfl, hread.sources⟩
    · rw [hpart, addMappings_eq_pure_iff]
      exact ⟨hes.sections .mappings rfl, hread.mappings⟩

/-! ## Documents and their contents -/

/-- The names of the declared sources that the entries of mappings use. -/
def usedIn (declared : List NamedSource) (mappings : List Entry) : List String :=
  mappings.filterMap fun e => do
    usedSource? declared (← valueOf? mappingKeys e.value .sources)

/-- The warnings for declared sources and the entries of mappings. -/
def warningsFor (declared : List NamedSource) (mappings : List Entry) : List Diagnostic :=
  (declared.filter fun s => !(usedIn declared mappings).contains s.name).map unusedSource

theorem usedSources_eq (declared : List NamedSource) (n : Node) :
    usedSources declared n = usedIn declared (entriesOf (valueOf? documentKeys n .mappings)) := by
  unfold usedSources
  cases valueOf? documentKeys n .mappings <;> rfl

theorem unusedSources_eq (h : WellKeyed (entriesOf body)) (declared : List NamedSource) :
    unusedSources declared body = warningsFor declared (contentsOf (entriesOf body)).mappings := by
  obtain ⟨keys, hkeys⟩ := exists_collectKeys_iff.2 ⟨h.known, h.distinct⟩
  cases body with
  | none => rfl
  | some n =>
    have hvalue : valueOf? documentKeys n .mappings = partOf (entriesOf (some n)) .mappings := by
      rw [valueOf?_of_readKeys hkeys, value?_of_collectKeys hkeys]
    rw [warningsFor, contentsOf, ← hvalue, ← usedSources_eq]
    rfl

/-- A tree is read just if its document is clean and valid. -/
theorem parseBody_eq_ok_iff :
    parseBody settings body = .ok parsed ↔
      ∃ draught, readDocument settings body = pure draught ∧
        draught.document.isValid = true ∧
        parsed = ⟨draught.document.freeze, unusedSources draught.declared body⟩ := by
  constructor
  · intro h
    obtain ⟨hnotes, hvalid, -⟩ := of_parseBody h
    refine ⟨_, Logged.eq_pure_iff.2 ⟨rfl, hnotes⟩, hvalid, ?_⟩
    rw [Document.isValid, List.isEmpty_iff] at hvalid
    rw [parseBody, hnotes, hvalid] at h
    cases h
    rfl
  · rintro ⟨draught, hread, hvalid, rfl⟩
    rw [Document.isValid, List.isEmpty_iff] at hvalid
    rw [parseBody, hread]
    dsimp only [Logged.value_pure, Logged.notes_pure]
    rw [hvalid]
    rfl

/-- **A tree is read as a document just if its top and its contents can be read.** -/
theorem parse_eq_ok_iff {root : Option Node} :
    parse settings root = .ok parsed ↔
      IsReadable root ∧ ∃ scope stated draught,
        (contentsOf (topEntries root)).ReadsAs settings scope stated draught ∧
          draught.document.isValid = true ∧
          parsed = ⟨draught.document.freeze,
            warningsFor draught.declared (contentsOf (topEntries root)).mappings⟩ := by
  constructor
  · intro h
    have hbody : ∀ n ∈ root.bind Node.body?, IsSection n := by
      intro n hn
      by_contra hsection
      obtain ⟨hnull, hmapping⟩ := not_or.1 hsection
      rw [parse, Option.mem_def.1 hn] at h
      dsimp only at h
      rw [if_neg (by simp [hnull, hmapping])] at h
      cases h
    obtain ⟨draught, hread, hvalid, rfl⟩ := parseBody_eq_ok_iff.1 (parseBody_of_parse h)
    obtain ⟨hes, scope, stated, hcontents⟩ := readDocument_eq_pure_iff.1 hread
    exact ⟨⟨hbody, hes⟩, scope, stated, draught, hcontents, hvalid,
      by rw [unusedSources_eq hes, topEntries]⟩
  · rintro ⟨hroot, scope, stated, draught, hcontents, hvalid, rfl⟩
    have hread : parseBody settings (root.bind Node.body?) = .ok ⟨draught.document.freeze,
        warningsFor draught.declared (contentsOf (topEntries root)).mappings⟩ := by
      rw [topEntries, ← unusedSources_eq hroot.entries]
      exact parseBody_eq_ok_iff.2 ⟨draught,
        readDocument_eq_pure_iff.2 ⟨hroot.entries, scope, stated, hcontents⟩, hvalid, rfl⟩
    rw [parse]
    cases hbody : root.bind Node.body? with
    | none =>
      rw [hbody] at hread
      exact hread
    | some body =>
      have hsection : (body.isNull || body.isMapping) = true := by
        rw [Bool.or_eq_true]
        exact hroot.body body hbody
      rw [hbody] at hread
      dsimp only
      rw [if_pos hsection]
      exact hread

end RdfMapping.Shorthand
