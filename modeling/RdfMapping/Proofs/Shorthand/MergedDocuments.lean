/-
# Documents that can be merged

Two documents that mean the same by their names and have maps with different identifiers give a
document with the maps of both.  Merging compares the keys at the top by their texts, while reading
ignores letter case; so the documents have to write shared keys in the same way.
-/
import Mathlib.Data.List.Find
import RdfMapping.Proofs.Mapping.Sameness
import RdfMapping.Proofs.Shorthand.Merging
import RdfMapping.Proofs.Shorthand.Places

namespace RdfMapping

namespace Mapping

/-! ## Rules when there are more maps -/

/-- A map keeps the rules when more identifiers are known. -/
theorem TriplesMap.Ok.mono {known known' : String → Prop} {tm : TriplesMap} (h : tm.Ok known)
    (hknown : ∀ id, known id → known' id) : tm.Ok known' :=
  h.of_matches hknown (TriplesMap.matches_iff.2 rfl)

/-- A document with the maps of two valid ones is valid. -/
theorem Document.isValid_of_append {doc doc₁ doc₂ : Document} (h₁ : doc₁.isValid = true)
    (h₂ : doc₂.isValid = true) (hdoc₁ : doc₁.Indexed) (hdoc₂ : doc₂.Indexed) (hdoc : doc.Indexed)
    (hbase : doc.base = doc₁.base) (hmaps : doc.maps = doc₁.maps ++ doc₂.maps) :
    doc.isValid = true := by
  obtain ⟨hne, -, hok₁⟩ := Document.isValid_iff.1 h₁
  obtain ⟨-, -, hok₂⟩ := Document.isValid_iff.1 h₂
  have hids : doc.ids = doc₁.ids ++ doc₂.ids := by
    rw [Document.ids, hmaps, List.map_append]
    rfl
  have hknown₁ (id : String) (hid : doc₁.Knows id) : doc.Knows id := by
    apply hdoc.lookup?_isSome_iff.2
    rw [hids]
    exact List.mem_append_left _ (hdoc₁.lookup?_isSome_iff.1 hid)
  have hknown₂ (id : String) (hid : doc₂.Knows id) : doc.Knows id := by
    apply hdoc.lookup?_isSome_iff.2
    rw [hids]
    exact List.mem_append_right _ (hdoc₂.lookup?_isSome_iff.1 hid)
  refine Document.isValid_iff.2 ⟨hbase ▸ hne, hdoc.nodup, fun tm htm => ?_⟩
  rw [hmaps, List.mem_append] at htm
  rcases htm with htm | htm
  · exact (hok₁ tm htm).mono hknown₁
  · exact (hok₂ tm htm).mono hknown₂

end Mapping

namespace Shorthand

open Iri (PrefixTable)
open Mapping
open Yaml (Node Entry)

variable {table table' : PrefixTable} {es fs merged : List Entry} {root₁ root₂ : Option Node}

/-! ## Declarations that are read again -/

/-- A prefix that is read is added to any table. -/
theorem readPrefix_eq_pure {e : Entry} (h : readPrefix table e = pure table') :
    ∃ iri, ∀ t, readPrefix t e = pure (t.set e.key.text iri) := by
  obtain ⟨read, hread, -⟩ := Logged.bind_eq_pure_iff.1 h
  obtain ⟨iri, hiri, -⟩ := finds_readScalar.exists_eq_pure (Logged.eq_pure_iff.1 hread).2
  refine ⟨iri, fun t => ?_⟩
  unfold readPrefix
  dsimp only
  rw [hiri]
  rfl

theorem foldlM_readPrefix_eq_pure (h : es.foldlM readPrefix table = pure table') :
    ∃ pairs, ∀ t : PrefixTable, es.foldlM readPrefix t = pure (t.setAll pairs) := by
  induction es generalizing table with
  | nil => exact ⟨[], fun t => rfl⟩
  | cons e rest ih =>
    rw [List.foldlM_cons] at h
    obtain ⟨next, hnext, hrest⟩ := Logged.bind_eq_pure_iff.1 h
    obtain ⟨iri, hread⟩ := readPrefix_eq_pure hnext
    obtain ⟨pairs, hpairs⟩ := ih hrest
    refine ⟨(e.key.text, iri) :: pairs, fun t => ?_⟩
    rw [List.foldlM_cons, hread, pure_bind, hpairs]
    rfl

/-- Declarations that agree can be read one after the other. -/
theorem foldlM_readPrefix_append {t₁ t₂ : PrefixTable} (h₁ : es.foldlM readPrefix table = pure t₁)
    (h₂ : fs.foldlM readPrefix table = pure t₂) (hsame : ∀ l, t₁.lookup? l = t₂.lookup? l) :
    ∃ t, (es ++ fs).foldlM readPrefix table = pure t ∧ ∀ l, t.lookup? l = t₁.lookup? l := by
  obtain ⟨pairs, hpairs⟩ := foldlM_readPrefix_eq_pure h₂
  refine ⟨t₁.setAll pairs, ?_, fun l => ?_⟩
  · rw [List.foldlM_append, h₁, pure_bind, hpairs]
  · have htwo : t₂ = table.setAll pairs := by
      rw [hpairs table] at h₂
      exact ((Logged.eq_pure_iff.1 h₂).1).symm
    have hl := hsame l
    rw [htwo, PrefixTable.lookup?_setAll] at hl
    rw [PrefixTable.lookup?_setAll, hl]
    cases pairs.reverse.lookup l <;> rfl

/-! ## Mappings that are added -/

/-- An entry is read as a mapping. -/
def ReadsMapping (scope : Scope) (declared : List NamedSource) (e : Entry) (tm : TriplesMap) :
    Prop :=
  isValidId e.key.text = true ∧
    readMapping scope declared e.key e.value { mapping := e.key.text } = pure tm

section Mappings

variable {scope scope' : Scope} {declared : List NamedSource} {doc doc' : Document} {e : Entry}
  {es : List Entry} {tms : List TriplesMap}

/-- A mapping is added just if it is read and new. -/
theorem addMapping_eq_pure_iff (hdoc : doc.Indexed) (hfrozen : doc.frozen = false) :
    addMapping scope declared doc e = pure doc' ↔
      ∃ tm, ReadsMapping scope declared e tm ∧ tm.id ∉ doc.ids ∧ doc.add tm = .ok doc' := by
  constructor
  · intro h
    obtain ⟨tm, hread, hadd, -, hmaps⟩ := exists_of_addMapping hdoc hfrozen h
    have hvalid : isValidId e.key.text = true := by
      by_contra hno
      unfold addMapping at h
      dsimp only at h
      rw [if_pos (by simp [hno])] at h
      obtain ⟨u, hu, -⟩ := Logged.bind_eq_pure_iff.1 h
      exact note_ne_pure hu
    refine ⟨tm, ⟨hvalid, hread⟩, ?_, hadd⟩
    have hnodup := (hdoc.of_add hadd).nodup
    rw [Document.ids, hmaps, List.map_append, List.nodup_append] at hnodup
    exact fun hmem => hnodup.2.2 _ hmem _ (List.mem_singleton_self _) rfl
  · rintro ⟨tm, ⟨hvalid, hread⟩, hnew, hadd⟩
    have hid : tm.id = e.key.text := id_of_readMapping hread
    have hfree : ¬ (doc.lookup? e.key.text).isSome = true := by
      rw [hdoc.lookup?_isSome_iff, ← hid]
      exact hnew
    unfold addMapping
    dsimp only
    rw [if_neg (by simp [hvalid]), if_neg hfree, hread]
    cases (hdoc.add_eq_ok hfrozen hnew).symm.trans hadd
    exact enterMapping_eq_pure hdoc hfrozen hnew _ _

/-- **Mappings are added just if each is read and their identifiers are new.** -/
theorem foldlM_addMapping_eq_pure_iff (hdoc : doc.Indexed) (hfrozen : doc.frozen = false) :
    es.foldlM (addMapping scope declared) doc = pure doc' ↔
      ∃ tms, List.Forall₂ (ReadsMapping scope declared) es tms ∧
        (doc.ids ++ tms.map TriplesMap.id).Nodup ∧ doc' = doc.extend tms := by
  induction es generalizing doc with
  | nil =>
    constructor
    · intro h
      cases h
      exact ⟨[], .nil, by simpa using hdoc.nodup, (Document.extend_nil _).symm⟩
    · rintro ⟨tms, htms, -, rfl⟩
      cases htms
      rw [Document.extend_nil]
      rfl
  | cons e rest ih =>
    rw [List.foldlM_cons, Logged.bind_eq_pure_iff]
    constructor
    · rintro ⟨next, hnext, hrest⟩
      obtain ⟨tm, htm, hnew, hadd⟩ := (addMapping_eq_pure_iff hdoc hfrozen).1 hnext
      have hform := hdoc.add_eq_ok hfrozen hnew
      cases hform.symm.trans hadd
      obtain ⟨tms, htms, hnodup, rfl⟩ := (ih (hdoc.of_add hadd) hfrozen).1 hrest
      exact ⟨tm :: tms, .cons htm htms, by simpa [Document.ids, Document.extend] using hnodup,
        (doc.extend_cons tm tms).symm⟩
    · rintro ⟨tms, htms, hnodup, rfl⟩
      cases htms with
      | @cons _ tm _ tms htm htms =>
        obtain ⟨hnew, hnodup⟩ := Document.nodup_ids_cons hnodup
        have hadd := hdoc.add_eq_ok hfrozen hnew
        refine ⟨_, (addMapping_eq_pure_iff hdoc hfrozen).2 ⟨tm, htm, hnew, hadd⟩, ?_⟩
        exact (ih (hdoc.of_add hadd) hfrozen).2 ⟨tms, htms, hnodup, doc.extend_cons tm tms⟩

/-- Where names mean the same, mappings do. -/
theorem ReadsMapping.of_sameNames (h : scope.SameNames scope') {tm : TriplesMap}
    (hread : ReadsMapping scope declared e tm) : ReadsMapping scope' declared e tm :=
  ⟨hread.1, (agree_readMapping h declared e.key e.value).eq_pure hread.2⟩

end Mappings

/-! ## Entries that are merged into others -/

section Entries

variable {merged merged' es : List Entry} {e : Entry}

theorem absorb_congr (h : valueAt merged e.key.text = valueAt merged' e.key.text) :
    absorb merged e = absorb merged' e := by
  unfold absorb
  rw [h]

theorem ne_of_not_mem_keyTexts {name : String} (h : name ∉ keyTexts es) (he : e ∈ es) :
    name ≠ e.key.text :=
  fun heq => h (List.mem_map.2 ⟨e, he, heq.symm⟩)

theorem valueAt_of_mem (hnodup : (keyTexts es).Nodup) (he : e ∈ es) :
    valueAt es e.key.text = some e.value := by
  induction es with
  | nil => cases he
  | cons p rest ih =>
    rw [keyTexts_cons, List.nodup_cons] at hnodup
    rcases List.mem_cons.1 he with rfl | he
    · exact valueAt_cons_of_eq rfl rest
    · rw [valueAt_cons_of_ne (ne_of_not_mem_keyTexts hnodup.1 he), ih hnodup.2 he]

/-- Entries with different keys are absorbed independently of each other. -/
theorem valueAt_mergeAll (hnodup : (keyTexts es).Nodup) (h : mergeAll merged es = pure merged') :
    (∀ e ∈ es, ∃ v, absorb merged e = .ok v ∧ valueAt merged' e.key.text = some v) ∧
      ∀ name ∉ keyTexts es, valueAt merged' name = valueAt merged name := by
  induction es generalizing merged with
  | nil =>
    cases h
    exact ⟨by simp, fun _ _ => rfl⟩
  | cons e rest ih =>
    rw [keyTexts_cons, List.nodup_cons] at hnodup
    obtain ⟨v, hv, hrest⟩ := mergeAll_cons_eq_pure_iff.1 h
    obtain ⟨habsorbed, hkept⟩ := ih hnodup.2 hrest
    have hother {name : String} (hne : e.key.text ≠ name) :
        valueAt (putEntry e.key v merged) name = valueAt merged name := by
      rw [valueAt_putEntry, if_neg hne]
    refine ⟨List.forall_mem_cons.2 ⟨⟨v, hv, ?_⟩, fun f hf => ?_⟩, fun name hname => ?_⟩
    · rw [hkept _ hnodup.1, valueAt_putEntry, if_pos rfl]
    · obtain ⟨w, hw, hvalue⟩ := habsorbed f hf
      have hne := ne_of_not_mem_keyTexts hnodup.1 hf
      exact ⟨w, (absorb_congr (hother hne)).symm.trans hw, hvalue⟩
    · rw [keyTexts_cons, List.mem_cons, not_or] at hname
      rw [hkept _ hname.2, hother (Ne.symm hname.1)]

/-- Entries are merged if each of them can be absorbed. -/
theorem exists_mergeAll (hnodup : (keyTexts es).Nodup)
    (h : ∀ e ∈ es, ∃ v, absorb merged e = .ok v) :
    ∃ merged', mergeAll merged es = pure merged' := by
  induction es generalizing merged with
  | nil => exact ⟨merged, rfl⟩
  | cons e rest ih =>
    rw [keyTexts_cons, List.nodup_cons] at hnodup
    rw [List.forall_mem_cons] at h
    obtain ⟨v, hv⟩ := h.1
    obtain ⟨merged', hmerge⟩ :
        ∃ merged', mergeAll (putEntry e.key v merged) rest = pure merged' := by
      refine ih hnodup.2 fun f hf => ?_
      obtain ⟨w, hw⟩ := h.2 f hf
      refine ⟨w, (absorb_congr ?_).trans hw⟩
      rw [valueAt_putEntry, if_neg (ne_of_not_mem_keyTexts hnodup.1 hf)]
    exact ⟨merged', mergeAll_cons_eq_pure_iff.2 ⟨v, hv, hmerge⟩⟩

/-- A merged key comes from one of the two. -/
theorem mem_keyTexts_mergeAll (h : mergeAll merged es = pure merged') {name : String} :
    name ∈ keyTexts merged' ↔ name ∈ keyTexts merged ∨ name ∈ keyTexts es := by
  induction es generalizing merged with
  | nil =>
    cases h
    simp [keyTexts]
  | cons e rest ih =>
    obtain ⟨v, -, hrest⟩ := mergeAll_cons_eq_pure_iff.1 h
    have hput : name ∈ keyTexts (putEntry e.key v merged) ↔
        name ∈ keyTexts merged ∨ name = e.key.text := by
      rw [keyTexts_putEntry]
      split
      · next hmem =>
        refine ⟨.inl, fun hname => ?_⟩
        rcases hname with hname | rfl
        · exact hname
        · exact hmem
      · rw [List.mem_append, List.mem_singleton]
    rw [ih hrest, hput, or_assoc, keyTexts_cons, List.mem_cons]

end Entries

/-! ## Documents that are compatible -/

/-- Shared keys are written alike, and other settings agree. -/
structure Compatible (es fs : List Entry) : Prop where
  spelling : ∀ e ∈ es, ∀ f ∈ fs, documentKeys.find? e = documentKeys.find? f →
    e.key.text = f.key.text
  settings : ∀ e ∈ es, ∀ f ∈ fs, e.key.text = f.key.text →
    isMergedSection e.key.text = true ∨ sameSetting e.value f.value = true

section Merged

variable {es fs merged : List Entry} {e f : Entry} {k : DocumentKey}

theorem find?_eq_of_text (h : e.key.text = f.key.text) :
    documentKeys.find? e = documentKeys.find? f := by
  rw [Keyring.find?, Keyring.find?, h]

/-- The part of a document with a key is the value of the entry with this key. -/
theorem WellKeyed.partOf_eq (h : WellKeyed es) (he : e ∈ es)
    (hk : documentKeys.find? e = some k) : partOf es k = some e.value := by
  have hfound : ∃ x, (es.find? fun x => documentKeys.find? x == some k) = some x := by
    rw [← Option.isSome_iff_exists, List.find?_isSome]
    exact ⟨e, he, by simp [hk]⟩
  obtain ⟨x, hx⟩ := hfound
  have hsame : x = e := by
    refine List.inj_on_of_nodup_map h.distinct (List.mem_of_find?_eq_some hx) he ?_
    rw [hk, mem_of_find?_documentKeys hx]
  rw [partOf, hx, hsame]
  rfl

theorem partOf_eq_none (h : ∀ x ∈ es, documentKeys.find? x ≠ some k) : partOf es k = none := by
  rw [partOf, Option.map_eq_none_iff, List.find?_eq_none]
  exact fun x hx => by simpa using h x hx

/-- The part with a key is found by the one text that means it. -/
theorem partOf_eq_valueAt (hk : documentKeys.find? e = some k)
    (h : ∀ x ∈ es, documentKeys.find? x = some k → x.key.text = e.key.text) :
    partOf es k = valueAt es e.key.text := by
  have hfind : (es.find? fun x => documentKeys.find? x == some k) =
      es.find? fun x => x.key.text == e.key.text := by
    refine List.find?_congr fun x hx => ?_
    rw [Bool.eq_iff_iff, beq_iff_eq, beq_iff_eq]
    exact ⟨h x hx, fun htext => (find?_eq_of_text htext).trans hk⟩
  rw [partOf, valueAt, hfind]

/-- In compatible documents a key is written in one way. -/
theorem Compatible.text_eq (h : Compatible es fs) (hes : WellKeyed es) (hfs : WellKeyed fs)
    (he : e ∈ es ++ fs) (hf : f ∈ es ++ fs) (hk : documentKeys.find? e = documentKeys.find? f) :
    e.key.text = f.key.text := by
  rcases List.mem_append.1 he with he | he <;> rcases List.mem_append.1 hf with hf | hf
  · rw [List.inj_on_of_nodup_map hes.distinct he hf hk]
  · exact h.spelling e he f hf hk
  · exact (h.spelling f hf e he hk.symm).symm
  · rw [List.inj_on_of_nodup_map hfs.distinct he hf hk]

theorem keyTexts_map_openEntry (es : List Entry) : keyTexts (es.map openEntry) = keyTexts es := by
  rw [keyTexts, List.map_map]
  rfl

/-- The keys of a merged document are those of the two. -/
theorem mem_keyTexts_merged (hmerge : mergeAll (es.map openEntry) fs = pure merged)
    {name : String} : name ∈ keyTexts merged ↔ ∃ x ∈ es ++ fs, x.key.text = name := by
  rw [mem_keyTexts_mergeAll hmerge, keyTexts_map_openEntry, ← List.mem_append, keyTexts, keyTexts,
    ← List.map_append, List.mem_map]

theorem exists_of_mem_merged (hmerge : mergeAll (es.map openEntry) fs = pure merged)
    (he : e ∈ merged) : ∃ x ∈ es ++ fs, x.key.text = e.key.text :=
  (mem_keyTexts_merged hmerge).1 (List.mem_map.2 ⟨e, he, rfl⟩)

/-- A section that absorbs a section is one. -/
theorem isSection_of_absorb {v : Node} (hpresent : ∀ n ∈ valueAt es e.key.text, IsSection n)
    (he : IsSection e.value) (hv : absorb es e = .ok v) : IsSection v := by
  unfold absorb at hv
  split at hv
  · cases hv
    exact isSection_openEntry he
  · next present hvalue =>
    have hsection : IsSection present := hpresent present hvalue
    cases hmerged : isMergedSection e.key.text with
    | true =>
      rw [mergeInto_of_section hmerged] at hv
      unfold extendSection at hv
      split at hv
      · cases hv
        exact .inr rfl
      · split at hv
        · cases hv
          exact hsection
        · cases hv
    | false =>
      obtain ⟨-, rfl⟩ := (mergeInto_eq_ok_iff_of_setting hmerged).1 hv
      exact hsection

/-! ## What a merged document holds -/

section Contents

variable (hcompatible : Compatible es fs) (hes : WellKeyed es) (hfs : WellKeyed fs)
  (hmerge : mergeAll (es.map openEntry) fs = pure merged)

include hcompatible hes hfs hmerge

theorem text_eq_of_mem_merged (he : e ∈ merged) (hf : f ∈ es ++ fs)
    (hk : documentKeys.find? e = documentKeys.find? f) : e.key.text = f.key.text := by
  obtain ⟨x, hx, htext⟩ := exists_of_mem_merged hmerge he
  rw [← htext]
  exact hcompatible.text_eq hes hfs hx hf ((find?_eq_of_text htext).trans hk)

/-- A part of the merged document is found by a text of either. -/
theorem partOf_merged_eq_valueAt (he : e ∈ es ++ fs) (hk : documentKeys.find? e = some k) :
    partOf merged k = valueAt merged e.key.text :=
  partOf_eq_valueAt hk fun _ hx hxk =>
    text_eq_of_mem_merged hcompatible hes hfs hmerge hx he (hxk.trans hk.symm)

omit hmerge in
theorem partOf_opened_eq_valueAt (he : e ∈ es ++ fs) (hk : documentKeys.find? e = some k) :
    partOf (es.map openEntry) k = valueAt (es.map openEntry) e.key.text := by
  refine partOf_eq_valueAt hk fun x hx hxk => ?_
  obtain ⟨y, hy, rfl⟩ := List.mem_map.1 hx
  show y.key.text = e.key.text
  exact hcompatible.text_eq hes hfs (List.mem_append_left _ hy) he (hxk.trans hk.symm)

/-- A part that only the first document has is as it is there. -/
theorem partOf_merged_of_not_mem (h : ∀ f ∈ fs, documentKeys.find? f ≠ some k) :
    partOf merged k = partOf (es.map openEntry) k := by
  by_cases hex : ∃ e ∈ es, documentKeys.find? e = some k
  · obtain ⟨e, he, hk⟩ := hex
    have hmem : e ∈ es ++ fs := List.mem_append_left _ he
    have hnot : e.key.text ∉ keyTexts fs := by
      intro hmem
      obtain ⟨f, hf, htext⟩ := List.mem_map.1 hmem
      exact h f hf ((find?_eq_of_text htext).trans hk)
    rw [partOf_merged_eq_valueAt hcompatible hes hfs hmerge hmem hk,
      partOf_opened_eq_valueAt hcompatible hes hfs hmem hk,
      (valueAt_mergeAll hfs.nodup_keyTexts hmerge).2 _ hnot]
  · -- neither document has the part
    rw [partOf_eq_none, partOf_eq_none]
    · intro x hx hxk
      obtain ⟨y, hy, rfl⟩ := List.mem_map.1 hx
      exact hex ⟨y, hy, hxk⟩
    · intro x hx hxk
      obtain ⟨y, hy, htext⟩ := exists_of_mem_merged hmerge hx
      have hyk := (find?_eq_of_text htext).trans hxk
      rcases List.mem_append.1 hy with hy | hy
      · exact hex ⟨y, hy, hyk⟩
      · exact h y hy hyk

/-- A part of the merged document is one, or both absorbed. -/
theorem partOf_merged_cases (k : DocumentKey) :
    (partOf fs k = none ∧ partOf merged k = partOf (es.map openEntry) k) ∨
      ∃ f ∈ fs, documentKeys.find? f = some k ∧ partOf fs k = some f.value ∧
        ∃ v, absorb (es.map openEntry) f = .ok v ∧ partOf merged k = some v ∧
          valueAt (es.map openEntry) f.key.text = partOf (es.map openEntry) k := by
  by_cases hex : ∃ f ∈ fs, documentKeys.find? f = some k
  · obtain ⟨f, hf, hk⟩ := hex
    have hmem : f ∈ es ++ fs := List.mem_append_right _ hf
    obtain ⟨v, hv, hvalue⟩ := (valueAt_mergeAll hfs.nodup_keyTexts hmerge).1 f hf
    refine .inr ⟨f, hf, hk, hfs.partOf_eq hf hk, v, hv, ?_, ?_⟩
    · rw [partOf_merged_eq_valueAt hcompatible hes hfs hmerge hmem hk, hvalue]
    · rw [partOf_opened_eq_valueAt hcompatible hes hfs hmem hk]
  · have hnot : ∀ f ∈ fs, documentKeys.find? f ≠ some k := fun f hf hk => hex ⟨f, hf, hk⟩
    exact .inl ⟨partOf_eq_none hnot,
      partOf_merged_of_not_mem hcompatible hes hfs hmerge hnot⟩

theorem entriesOf_partOf_merged (k : DocumentKey) :
    entriesOf (partOf merged k) = entriesOf (partOf es k) ++ entriesOf (partOf fs k) := by
  rcases partOf_merged_cases hcompatible hes hfs hmerge k with
    ⟨hnone, hpart⟩ | ⟨f, -, -, hsecond, v, hv, hpart, hpresent⟩
  · rw [hpart, hnone, entriesOf_partOf_map_openEntry]
    exact (List.append_nil _).symm
  · rw [hpart, hsecond, ← entriesOf_partOf_map_openEntry es, ← hpresent]
    exact entries_of_absorb hv

/-- Of a setting the first one counts. -/
theorem partOf_merged_of_setting (hsetting : isSectionKey k = false) :
    partOf merged k = (partOf es k).or (partOf fs k) := by
  rcases partOf_merged_cases hcompatible hes hfs hmerge k with
    ⟨hnone, hpart⟩ | ⟨f, -, hk, hsecond, v, hv, hpart, hpresent⟩
  · rw [hpart, hnone, partOf_map_openEntry_of_setting es hsetting, Option.or_none]
  · rw [partOf_map_openEntry_of_setting es hsetting] at hpresent
    rw [absorb, hpresent] at hv
    rw [hpart, hsecond]
    cases hfirst : partOf es k with
    | none =>
      rw [hfirst] at hv
      cases hv
      rw [openEntry_of_setting hk hsetting, Option.none_or]
    | some present =>
      rw [hfirst] at hv
      obtain ⟨-, rfl⟩ := (mergeInto_eq_ok_iff_of_setting
        (isMergedSection_of_setting hk hsetting)).1 hv
      rw [Option.some_or]

/-- The entries of a merged document can be the top of a document. -/
theorem wellKeyed_merged (hmerged : IsMerged merged) : WellKeyed merged := by
  refine ⟨fun x hx => ?_, ?_, fun k hsection n hn => ?_⟩
  · obtain ⟨y, hy, htext⟩ := exists_of_mem_merged hmerge hx
    rw [← find?_eq_of_text htext]
    rcases List.mem_append.1 hy with hy | hy
    · exact hes.known y hy
    · exact hfs.known y hy
  · refine List.Nodup.map_on (fun x hx y hy hk => ?_) hmerged.nodup.of_map
    obtain ⟨z, hz, htext⟩ := exists_of_mem_merged hmerge hy
    have hxz := text_eq_of_mem_merged hcompatible hes hfs hmerge hx hz
      (hk.trans (find?_eq_of_text htext.symm))
    exact List.inj_on_of_nodup_map hmerged.nodup hx hy (hxz.trans htext)
  · rcases partOf_merged_cases hcompatible hes hfs hmerge k with
      ⟨-, hpart⟩ | ⟨f, -, -, hsecond, v, hv, hpart, hpresent⟩
    · rw [hpart] at hn
      exact hes.map_openEntry.sections k hsection n hn
    · cases hpart.symm.trans hn
      refine isSection_of_absorb ?_ (hfs.sections k hsection _ hsecond) hv
      rw [hpresent]
      exact hes.map_openEntry.sections k hsection

end Contents

/-- Documents are compatible if their merger is well keyed. -/
theorem compatible_of_wellKeyed (hes : WellKeyed es) (hfs : WellKeyed fs)
    (hmerge : mergeAll (es.map openEntry) fs = pure merged) (hmerged : WellKeyed merged) :
    Compatible es fs := by
  have hexists {x : Entry} (hx : x ∈ es ++ fs) : ∃ y ∈ merged, y.key.text = x.key.text :=
    List.mem_map.1 ((mem_keyTexts_merged hmerge).2 ⟨x, hx, rfl⟩)
  refine ⟨fun e he f hf hk => ?_, fun e he f hf htext => ?_⟩
  · obtain ⟨x, hx, hxtext⟩ := hexists (List.mem_append_left _ he)
    obtain ⟨y, hy, hytext⟩ := hexists (List.mem_append_right _ hf)
    have hsame : x = y := by
      refine List.inj_on_of_nodup_map hmerged.distinct hx hy ?_
      rw [find?_eq_of_text hxtext, find?_eq_of_text hytext, hk]
    rw [← hxtext, hsame, hytext]
  · rw [or_iff_not_imp_left, Bool.not_eq_true]
    intro hsetting
    obtain ⟨v, hv, -⟩ := (valueAt_mergeAll hfs.nodup_keyTexts hmerge).1 f hf
    have hvalue : valueAt (es.map openEntry) f.key.text = some e.value := by
      have hopen := valueAt_of_mem (keyTexts_map_openEntry es ▸ hes.nodup_keyTexts)
        (List.mem_map.2 ⟨e, he, rfl⟩ : openEntry e ∈ es.map openEntry)
      rw [← htext]
      refine hopen.trans ?_
      rw [openEntry, if_neg (by simp [hsetting])]
    rw [absorb, hvalue] at hv
    exact ((mergeInto_eq_ok_iff_of_setting (htext ▸ hsetting)).1 hv).1

/-! ### Compatible documents are merged -/

theorem eq_mapping_of_isMapping {n : Node} (h : n.isMapping = true) (hplain : n.target = n) :
    ∃ info flow entries, n = .mapping info flow entries := by
  unfold Node.isMapping at h
  split at h
  · next info flow entries htarget => exact ⟨info, flow, entries, hplain.symm.trans htarget⟩
  · cases h

/-- The first section is a mapping to which entries can be added. -/
theorem eq_mapping_openSection {n : Node} (h : IsSection n) (hplain : n.target = n) :
    ∃ info flow entries, openSection n = .mapping info flow entries := by
  rcases h with hnull | hmapping
  · unfold openSection
    split
    · exact ⟨_, _, _, rfl⟩
    · exact ⟨_, _, _, if_pos hnull⟩
  · obtain ⟨info, flow, entries, rfl⟩ := eq_mapping_of_isMapping hmapping hplain
    exact ⟨_, _, _, rfl⟩

theorem exists_extendSection {name : String} {info : Yaml.Info} {flow : Bool} {entries : List Entry}
    (he : IsSection e.value) (hplain : e.value.target = e.value) :
    ∃ v, extendSection name (.mapping info flow entries) e = .ok v := by
  rcases he with hnull | hmapping
  · unfold extendSection
    split
    · exact ⟨_, rfl⟩
    · exact ⟨_, if_pos hnull⟩
  · obtain ⟨info', flow', more, hvalue⟩ := eq_mapping_of_isMapping hmapping hplain
    unfold extendSection
    rw [hvalue]
    exact ⟨_, rfl⟩

theorem WellKeyed.isSection (h : WellKeyed es) (he : e ∈ es)
    (hsection : isMergedSection e.key.text = true) : IsSection e.value := by
  obtain ⟨k, hk, hksection⟩ := isSectionKey_of_isMergedSection hsection
  exact h.sections k hksection _ (h.partOf_eq he hk)

/-- Every entry of a compatible document is absorbed. -/
theorem Compatible.exists_absorb (h : Compatible es fs) (hes : WellKeyed es) (hfs : WellKeyed fs)
    (hplain : ∀ e ∈ es ++ fs, e.value.target = e.value) (hf : f ∈ fs) :
    ∃ v, absorb (es.map openEntry) f = .ok v := by
  unfold absorb
  cases hvalue : valueAt (es.map openEntry) f.key.text with
  | none => exact ⟨_, rfl⟩
  | some present =>
    obtain ⟨x, hx, htext, rfl⟩ := mem_of_valueAt hvalue
    obtain ⟨e, he, rfl⟩ := List.mem_map.1 hx
    replace htext : e.key.text = f.key.text := htext
    show ∃ v, mergeInto f.key.text (openEntry e).value f = .ok v
    cases hsection : isMergedSection f.key.text with
    | true =>
      have hesection : isMergedSection e.key.text = true := htext ▸ hsection
      obtain ⟨info, flow, entries, hopen⟩ := eq_mapping_openSection (hes.isSection he hesection)
        (hplain e (List.mem_append_left _ he))
      rw [mergeInto_of_section hsection, openEntry, if_pos hesection, hopen]
      exact exists_extendSection (hfs.isSection hf hsection) (hplain f (List.mem_append_right _ hf))
    | false =>
      have hesetting : isMergedSection e.key.text = false := htext ▸ hsection
      have hsame : sameSetting e.value f.value = true := by
        rcases h.settings e he f hf htext with hmerged | hsame
        · rw [hesetting] at hmerged
          cases hmerged
        · exact hsame
      refine ⟨e.value, (mergeInto_eq_ok_iff_of_setting hsection).2 ?_⟩
      rw [openEntry, if_neg (by simp [hesetting])]
      exact ⟨hsame, rfl⟩

end Merged

/-! ## Contents of two documents -/

/-- What a document holds that is merged from two. -/
def Contents.append (c d : Contents) : Contents where
  prefixes := c.prefixes ++ d.prefixes
  base := c.base.or d.base
  dialect := c.dialect.or d.dialect
  sources := c.sources ++ d.sources
  mappings := c.mappings ++ d.mappings

/-- **A merged document holds what the two hold.** -/
theorem contentsOf_merged (hcompatible : Compatible es fs) (hes : WellKeyed es) (hfs : WellKeyed fs)
    (hmerge : mergeAll (es.map openEntry) fs = pure merged) :
    contentsOf merged = (contentsOf es).append (contentsOf fs) := by
  simp only [contentsOf, Contents.append,
    entriesOf_partOf_merged hcompatible hes hfs hmerge,
    partOf_merged_of_setting hcompatible hes hfs hmerge (k := .base) rfl,
    partOf_merged_of_setting hcompatible hes hfs hmerge (k := .dialect) rfl]

section Reading

variable {settings : Settings} {c c₁ c₂ : Contents} {scope scope₁ scope₂ : Scope} {stated : Dialect}
  {draught draught₁ draught₂ : Draught}

/-- A document that is read has a base. -/
theorem Contents.ReadsAs.base_ne_empty (h : c.ReadsAs settings scope stated draught) :
    scope.base ≠ "" := by
  have hvalue := (Logged.eq_pure_iff.1 h.base).1
  rcases of_readBase (if settings.base = "" then defaultBase else settings.base) c.base with
    hgiven | habsolute
  · rw [← hvalue, hgiven]
    split
    · decide
    · next hne => exact hne
  · rw [hvalue] at habsolute
    intro hempty
    rw [hempty] at habsolute
    exact absurd habsolute (by decide +kernel)

/-- The document that contents are read as. -/
theorem Contents.ReadsAs.document (h : c.ReadsAs settings scope stated draught) :
    List.Forall₂ (ReadsMapping scope draught.declared) c.mappings draught.document.maps ∧
      draught.document.Indexed ∧ draught.document.base = scope.base ∧
      draught.document.table = scope.table ∧ draught.document.dialect = stated := by
  have hnew : ({ Document.create scope.base (some scope.table) with dialect := stated } :
      Document).Indexed :=
    (Document.Built.declare stated (.create scope.base (some scope.table))).indexed
  obtain ⟨tms, htms, hnodup, hdocument⟩ := (foldlM_addMapping_eq_pure_iff hnew rfl).1 h.mappings
  rw [hdocument]
  exact ⟨htms, hnew.extend hnodup, if_neg h.base_ne_empty, rfl, rfl⟩

theorem Contents.ReadsAs.declared_eq_nil (h : c.ReadsAs settings scope stated draught)
    (hsources : c.sources = []) : draught.declared = [] := by
  have hread := h.sources
  rw [hsources] at hread
  exact (Logged.eq_pure_iff.1 hread).1.symm

/-- **What two documents hold is read together** if names mean the same in both. -/
theorem Contents.ReadsAs.append (h₁ : c₁.ReadsAs settings scope₁ stated draught₁)
    (h₂ : c₂.ReadsAs settings scope₂ stated draught₂) (hnames : scope₁.SameNames scope₂)
    (hsources₁ : c₁.sources = []) (hsources₂ : c₂.sources = [])
    (hdisjoint : ∀ id ∈ draught₁.document.ids, id ∉ draught₂.document.ids) :
    ∃ scope draught, (c₁.append c₂).ReadsAs settings scope stated draught ∧
      draught.document.base = draught₁.document.base ∧
      draught.document.maps = draught₁.document.maps ++ draught₂.document.maps := by
  obtain ⟨table, htable, hlookup⟩ :=
    foldlM_readPrefix_append h₁.prefixes h₂.prefixes hnames.lookup?
  have hnames₁ : scope₁.SameNames ⟨table, scope₁.base⟩ := ⟨fun l => (hlookup l).symm, rfl⟩
  have hnames₂ : scope₂.SameNames ⟨table, scope₁.base⟩ :=
    ⟨fun l => ((hnames.lookup? l).symm.trans (hlookup l).symm), hnames.base.symm⟩
  obtain ⟨hmaps₁, hindexed₁, hbase₁, -, -⟩ := h₁.document
  obtain ⟨hmaps₂, hindexed₂, -, -, -⟩ := h₂.document
  rw [h₁.declared_eq_nil hsources₁] at hmaps₁
  rw [h₂.declared_eq_nil hsources₂] at hmaps₂
  let start : Document := { Document.create scope₁.base (some table) with dialect := stated }
  let tms := draught₁.document.maps ++ draught₂.document.maps
  have hnew : start.Indexed :=
    (Document.Built.declare stated (.create scope₁.base (some table))).indexed
  have hread : List.Forall₂ (ReadsMapping ⟨table, scope₁.base⟩ []) (c₁.mappings ++ c₂.mappings)
      tms :=
    List.rel_append (hmaps₁.imp fun _ _ h => h.of_sameNames hnames₁)
      (hmaps₂.imp fun _ _ h => h.of_sameNames hnames₂)
  have hnodup : (start.ids ++ tms.map TriplesMap.id).Nodup := by
    show (List.map TriplesMap.id tms).Nodup
    rw [List.map_append, List.nodup_append]
    exact ⟨hindexed₁.nodup, hindexed₂.nodup, fun a ha b hb hab => hdisjoint a ha (hab ▸ hb)⟩
  refine ⟨⟨table, scope₁.base⟩, ⟨start.extend tms, []⟩, ⟨htable, ?_, ?_, ?_, ?_⟩, ?_, rfl⟩
  · show readBase _ (c₁.base.or c₂.base) = pure scope₁.base
    cases hc : c₁.base with
    | none => exact hnames.base ▸ h₂.base
    | some n =>
      rw [Option.some_or, ← hc]
      exact h₁.base
  · show readDialect _ (c₁.dialect.or c₂.dialect) = pure stated
    cases hc : c₁.dialect with
    | none => exact h₂.dialect
    | some n =>
      rw [Option.some_or, ← hc]
      exact h₁.dialect
  · show (c₁.sources ++ c₂.sources).foldlM _ [] = pure []
    rw [hsources₁, hsources₂]
    rfl
  · exact (foldlM_addMapping_eq_pure_iff hnew rfl).2 ⟨tms, hread, hnodup, rfl⟩
  · rw [hbase₁]
    exact if_neg h₁.base_ne_empty

end Reading

/-! ## Two documents -/

/-- Documents are merged just if their entries are. -/
theorem merge_pair_eq_ok_iff (h₁ : IsReadable root₁) (h₂ : IsReadable root₂) {m : Node} :
    merge [root₁, root₂] = .ok m ↔
      ∃ merged, mergeAll ((topEntries root₁).map openEntry) (topEntries root₂) = pure merged ∧
        m = documentOf merged := by
  have hfirst := mergeAll_nil_of_nodup h₁.entries.nodup_keyTexts
  have hfold (merged : List Entry) : [root₁, root₂].foldlM mergeDocument [] = pure merged ↔
      mergeAll ((topEntries root₁).map openEntry) (topEntries root₂) = pure merged := by
    have hentries : [root₁, root₂].flatMap topEntries = topEntries root₁ ++ topEntries root₂ := by
      simp
    have hboth : ∀ root ∈ [root₁, root₂], ∀ n ∈ root.bind Node.body?, IsSection n := by
      simpa using ⟨h₁.body, h₂.body⟩
    rw [foldlM_mergeDocument_eq_pure_iff, hentries, mergeAll, List.foldlM_append, ← mergeAll,
      hfirst, pure_bind, ← mergeAll]
    exact and_iff_right hboth
  rw [merge_eq_ok_iff]
  exact exists_congr fun merged => and_congr_left fun _ => hfold merged

theorem isMerged_of_pair (h₁ : IsReadable root₁)
    (hmerge : mergeAll ((topEntries root₁).map openEntry) (topEntries root₂) = pure merged) :
    IsMerged merged := by
  have hfirst : IsMerged ((topEntries root₁).map openEntry) :=
    isMerged_nil.mergeAll (fun e he => plain_topEntries he)
      (mergeAll_nil_of_nodup h₁.entries.nodup_keyTexts)
  exact hfirst.mergeAll (fun e he => plain_topEntries he) hmerge

/-- **Documents that agree on their names, declare no sources and have maps with different
identifiers give a document with the maps of both just if they are compatible.**  Then the merged
document can be read, and its maps are those of the first document followed by those of the second.
Otherwise the documents cannot be merged, or what is merged cannot be read. -/
theorem parse_merge_iff {settings : Settings} {root₁ root₂ : Option Node} {parsed₁ parsed₂ : Parsed}
    (h₁ : parse settings root₁ = .ok parsed₁) (h₂ : parse settings root₂ = .ok parsed₂)
    (hsources₁ : entriesOf (partOf (topEntries root₁) .sources) = [])
    (hsources₂ : entriesOf (partOf (topEntries root₂) .sources) = [])
    (hbase : parsed₁.document.base = parsed₂.document.base)
    (hdialect : parsed₁.document.dialect = parsed₂.document.dialect)
    (hprefixes : ∀ l, parsed₁.document.table.lookup? l = parsed₂.document.table.lookup? l)
    (hdisjoint : ∀ id ∈ parsed₁.document.ids, id ∉ parsed₂.document.ids) :
    (∃ m parsed, merge [root₁, root₂] = .ok m ∧ parse settings (some m) = .ok parsed ∧
      parsed.document.maps = parsed₁.document.maps ++ parsed₂.document.maps) ↔
    Compatible (topEntries root₁) (topEntries root₂) := by
  obtain ⟨hroot₁, scope₁, stated₁, draught₁, hread₁, hvalid₁, rfl⟩ := parse_eq_ok_iff.1 h₁
  obtain ⟨hroot₂, scope₂, stated₂, draught₂, hread₂, hvalid₂, rfl⟩ := parse_eq_ok_iff.1 h₂
  constructor
  · -- a merged document that can be read has no key twice, so the two wrote it in the same way
    rintro ⟨m, parsed, hm, hparsed, -⟩
    obtain ⟨merged, hmerge, rfl⟩ := (merge_pair_eq_ok_iff hroot₁ hroot₂).1 hm
    obtain ⟨hroot, -⟩ := parse_eq_ok_iff.1 hparsed
    have hmerged := hroot.entries
    rw [(isMerged_of_pair hroot₁ hmerge).topEntries_documentOf] at hmerged
    exact compatible_of_wellKeyed hroot₁.entries hroot₂.entries hmerge hmerged
  · intro hcompatible
    obtain ⟨-, hindexed₁, hbase₁, htable₁, hdialect₁⟩ := hread₁.document
    obtain ⟨-, hindexed₂, hbase₂, htable₂, hdialect₂⟩ := hread₂.document
    have hstated : stated₁ = stated₂ := hdialect₁.symm.trans (hdialect.trans hdialect₂)
    have hnames : scope₁.SameNames scope₂ :=
      ⟨fun l => by rw [← htable₁, ← htable₂]; exact hprefixes l,
        hbase₁.symm.trans (hbase.trans hbase₂)⟩
    subst hstated
    -- what the two hold can be read together; it is left to show that the merged document holds it
    obtain ⟨scope, draught, hread, hdocbase, hmaps⟩ :=
      hread₁.append hread₂ hnames hsources₁ hsources₂ hdisjoint
    have hplain : ∀ e ∈ topEntries root₁ ++ topEntries root₂, e.value.target = e.value := by
      intro e he
      rcases List.mem_append.1 he with he | he
      · exact (plain_topEntries he).2
      · exact (plain_topEntries he).2
    obtain ⟨merged, hmerge⟩ := exists_mergeAll hroot₂.entries.nodup_keyTexts fun f hf =>
      hcompatible.exists_absorb hroot₁.entries hroot₂.entries hplain hf
    have hmerged := isMerged_of_pair hroot₁ hmerge
    have hreadable := hmerged.isReadable_documentOf
      (wellKeyed_merged hcompatible hroot₁.entries hroot₂.entries hmerge hmerged)
    have hvalid : draught.document.isValid = true :=
      Document.isValid_of_append hvalid₁ hvalid₂ hindexed₁ hindexed₂ hread.document.2.1 hdocbase
        hmaps
    refine ⟨documentOf merged, _, (merge_pair_eq_ok_iff hroot₁ hroot₂).2 ⟨merged, hmerge, rfl⟩,
      parse_eq_ok_iff.2 ⟨hreadable, scope, stated₁, draught, ?_, hvalid, rfl⟩, hmaps⟩
    rw [hmerged.topEntries_documentOf,
      contentsOf_merged hcompatible hroot₁.entries hroot₂.entries hmerge]
    exact hread

/-- A document with one mapping, under a key that means mappings. -/
def oneMapping (key id : String) : Node :=
  .ofEntries [⟨.ofText key, .ofEntries [⟨.ofText id, .ofEntries
    [⟨.ofText "s", .ofText "http://ex.org/$(id)"⟩]⟩]⟩]

/-- The identifiers and the declarations of a document. -/
def Parsed.header (p : Parsed) : List String × String × Dialect × PrefixTable :=
  (p.document.ids, p.document.base, p.document.dialect, p.document.table)

/-- A document with one mapping is read, however its key is written. -/
theorem parse_oneMapping {key id : String} (hkey : key ∈ ["mappings", "Mappings"])
    (hid : id ∈ ["a", "b"]) :
    ∃ parsed, parse {} (some (oneMapping key id)) = .ok parsed ∧
      parsed.header = ([id], defaultBase, .rml, .builtin) := by
  have hall : ∀ key ∈ ["mappings", "Mappings"], ∀ id ∈ ["a", "b"],
      (parse {} (some (oneMapping key id))).toOption.map Parsed.header =
        some ([id], defaultBase, .rml, .builtin) := by
    decide +kernel
  obtain ⟨parsed, hparsed, hheader⟩ := Option.map_eq_some_iff.1 (hall key hkey id hid)
  refine ⟨parsed, ?_, hheader⟩
  cases hparse : parse {} (some (oneMapping key id)) with
  | ok other =>
    rw [hparse] at hparsed
    cases hparsed
    rfl
  | error problems =>
    rw [hparse] at hparsed
    cases hparsed

/-- Two such documents agree on everything but their maps. -/
theorem parse_oneMapping_pair (key key' : String) (hkey : key ∈ ["mappings", "Mappings"])
    (hkey' : key' ∈ ["mappings", "Mappings"]) :
    ∃ parsed₁ parsed₂, parse {} (some (oneMapping key "a")) = .ok parsed₁ ∧
      parse {} (some (oneMapping key' "b")) = .ok parsed₂ ∧
      parsed₁.document.base = parsed₂.document.base ∧
      parsed₁.document.dialect = parsed₂.document.dialect ∧
      parsed₁.document.table = parsed₂.document.table ∧
      ∀ id ∈ parsed₁.document.ids, id ∉ parsed₂.document.ids := by
  obtain ⟨parsed₁, hparsed₁, hheader₁⟩ := parse_oneMapping hkey (List.mem_cons_self ..)
  obtain ⟨parsed₂, hparsed₂, hheader₂⟩ := parse_oneMapping hkey'
    (List.mem_cons_of_mem "a" (List.mem_cons_self ..))
  simp only [Parsed.header, Prod.mk.injEq] at hheader₁ hheader₂
  obtain ⟨hids₁, hbase₁, hdialect₁, htable₁⟩ := hheader₁
  obtain ⟨hids₂, hbase₂, hdialect₂, htable₂⟩ := hheader₂
  refine ⟨parsed₁, parsed₂, hparsed₁, hparsed₂, hbase₁.trans hbase₂.symm,
    hdialect₁.trans hdialect₂.symm, htable₁.trans htable₂.symm, ?_⟩
  rw [hids₁, hids₂]
  decide

/-- Two documents with a mapping each. -/
theorem parse_merge_two_mappings :
    ∃ parsed₁ parsed₂, parse {} (some (oneMapping "mappings" "a")) = .ok parsed₁ ∧
      parse {} (some (oneMapping "mappings" "b")) = .ok parsed₂ ∧
      ∃ m parsed,
        merge [some (oneMapping "mappings" "a"), some (oneMapping "mappings" "b")] = .ok m ∧
        parse {} (some m) = .ok parsed ∧
        parsed.document.maps = parsed₁.document.maps ++ parsed₂.document.maps := by
  obtain ⟨parsed₁, parsed₂, hparsed₁, hparsed₂, hbase, hdialect, htable, hdisjoint⟩ :=
    parse_oneMapping_pair "mappings" "mappings" (by simp) (by simp)
  have hcompatible : Compatible (topEntries (some (oneMapping "mappings" "a")))
      (topEntries (some (oneMapping "mappings" "b"))) := by
    refine ⟨fun e he f hf _ => ?_, fun e he f hf _ => .inl ?_⟩
    · rw [List.mem_singleton.1 he, List.mem_singleton.1 hf]
    · rw [List.mem_singleton.1 he]
      rfl
  refine ⟨parsed₁, parsed₂, hparsed₁, hparsed₂, ?_⟩
  exact (parse_merge_iff hparsed₁ hparsed₂ (by decide +kernel) (by decide +kernel) hbase hdialect
    (fun l => by rw [htable]) hdisjoint).2 hcompatible

/-- **A key in capitals is read, but not merged.**  Two documents agree on everything but their
maps.  If both write the key of their mappings with a capital letter they cannot be merged.  If only
one of them does, what is merged cannot be read. -/
theorem merge_capital_keys :
    (∃ parsed₁ parsed₂, parse {} (some (oneMapping "Mappings" "a")) = .ok parsed₁ ∧
      parse {} (some (oneMapping "Mappings" "b")) = .ok parsed₂ ∧
      parsed₁.document.base = parsed₂.document.base ∧
      parsed₁.document.dialect = parsed₂.document.dialect ∧
      parsed₁.document.table = parsed₂.document.table ∧
      ∀ id ∈ parsed₁.document.ids, id ∉ parsed₂.document.ids) ∧
    (merge [some (oneMapping "Mappings" "a"), some (oneMapping "Mappings" "b")]).isOk = false ∧
    ∃ m, merge [some (oneMapping "Mappings" "a"), some (oneMapping "mappings" "b")] = .ok m ∧
      (parse {} (some m)).isOk = false := by
  refine ⟨parse_oneMapping_pair _ _ (by simp) (by simp), ?_, _, rfl, ?_⟩
  · decide +kernel
  · decide +kernel

end Shorthand

end RdfMapping
