/-
# Merging documents

What has been merged so far is a map from the texts of keys to nodes: an entry with a new key is put
at the end, and one whose key is there already is absorbed by the node at that key.  Nothing changes
when what is merged is merged again.
-/
import RdfMapping.Proofs.Shorthand.Contents
import RdfMapping.Proofs.Shorthand.WrittenTerms
import RdfMapping.Shorthand.Merge

namespace RdfMapping.Shorthand

open Mapping
open Yaml (Node Entry)

variable {name : String} {es merged merged' : List Entry} {e : Entry} {n present v m : Node}
  {root : Option Node} {roots : List (Option Node)} {k : DocumentKey}

/-! ## Merged entries as a map -/

/-- The texts of the keys of entries. -/
def keyTexts (es : List Entry) : List String :=
  es.map fun e => e.key.text

theorem keyTexts_cons (e : Entry) (es : List Entry) :
    keyTexts (e :: es) = e.key.text :: keyTexts es :=
  rfl

/-- The value of the first entry whose key has a text. -/
def valueAt (es : List Entry) (name : String) : Option Node :=
  (es.find? fun e => e.key.text == name).map Entry.value

/-- Entries with a new value at the text of a key, or with a new entry at the end. -/
def putEntry (key value : Node) : List Entry → List Entry
  | [] => [⟨key, value⟩]
  | present :: rest =>
    if present.key.text = key.text then ⟨present.key, value⟩ :: rest
    else present :: putEntry key value rest

/-- An entry as the first one with its key. -/
def openEntry (e : Entry) : Entry :=
  ⟨e.key, if isMergedSection e.key.text then openSection e.value else e.value⟩

/-- The value at the key of an entry once the entry has been merged. -/
def absorb (es : List Entry) (e : Entry) : Except Problem Node :=
  match valueAt es e.key.text with
  | none => .ok (openEntry e).value
  | some present => mergeInto e.key.text present e

theorem valueAt_cons_of_eq {p : Entry} (h : p.key.text = name) (rest : List Entry) :
    valueAt (p :: rest) name = some p.value := by
  rw [valueAt, List.find?_cons, beq_iff_eq.2 h]
  rfl

theorem valueAt_cons_of_ne {p : Entry} (h : p.key.text ≠ name) (rest : List Entry) :
    valueAt (p :: rest) name = valueAt rest name := by
  rw [valueAt, List.find?_cons, beq_eq_false_iff_ne.2 h, valueAt]

theorem valueAt_eq_none_iff :
    valueAt es name = none ↔ name ∉ keyTexts es := by
  rw [valueAt, Option.map_eq_none_iff, List.find?_eq_none, keyTexts, List.mem_map]
  simp only [beq_iff_eq, not_exists, not_and]

/-- Look-up finds what was put at a key. -/
theorem valueAt_putEntry (key value : Node) (es : List Entry) (name : String) :
    valueAt (putEntry key value es) name =
      if key.text = name then some value else valueAt es name := by
  induction es with
  | nil =>
    by_cases hname : key.text = name
    · rw [if_pos hname]
      exact valueAt_cons_of_eq hname []
    · rw [if_neg hname]
      exact valueAt_cons_of_ne hname []
  | cons p rest ih =>
    rw [putEntry]
    by_cases hp : p.key.text = key.text
    · rw [if_pos hp]
      by_cases hname : key.text = name
      · rw [if_pos hname]
        exact valueAt_cons_of_eq (p := ⟨p.key, value⟩) (hp.trans hname) rest
      · have hne : p.key.text ≠ name := fun h => hname (hp.symm.trans h)
        rw [if_neg hname, valueAt_cons_of_ne hne]
        exact valueAt_cons_of_ne (p := ⟨p.key, value⟩) hne rest
    · rw [if_neg hp]
      by_cases hname : p.key.text = name
      · have hne : key.text ≠ name := fun h => hp (hname.trans h.symm)
        rw [if_neg hne, valueAt_cons_of_eq hname, valueAt_cons_of_eq hname]
      · rw [valueAt_cons_of_ne hname, valueAt_cons_of_ne hname, ih]

theorem putEntry_of_not_mem {key : Node} (h : key.text ∉ keyTexts es) (value : Node) :
    putEntry key value es = es ++ [⟨key, value⟩] := by
  induction es with
  | nil => rfl
  | cons p rest ih =>
    rw [keyTexts_cons, List.mem_cons, not_or] at h
    rw [putEntry, if_neg (Ne.symm h.1), ih h.2, List.cons_append]

/-- A new key is put at the end. -/
theorem keyTexts_putEntry (key value : Node) (es : List Entry) :
    keyTexts (putEntry key value es) =
      if key.text ∈ keyTexts es then keyTexts es else keyTexts es ++ [key.text] := by
  by_cases hmem : key.text ∈ keyTexts es
  · rw [if_pos hmem]
    induction es with
    | nil => cases hmem
    | cons p rest ih =>
      rw [putEntry]
      by_cases hp : p.key.text = key.text
      · rw [if_pos hp]
        rfl
      · have hrest : key.text ∈ keyTexts rest := List.mem_of_ne_of_mem (Ne.symm hp) hmem
        rw [if_neg hp, keyTexts_cons, ih hrest, keyTexts_cons]
  · rw [if_neg hmem, putEntry_of_not_mem hmem, keyTexts, List.map_append, ← keyTexts]
    rfl

/-- An entry of the new list is an old one, or has the new value at its key. -/
theorem mem_putEntry {key value : Node} {x : Entry} (h : x ∈ putEntry key value es) :
    x ∈ es ∨ x.value = value ∧ x.key.text = key.text ∧ (x.key = key ∨ ∃ p ∈ es, p.key = x.key) := by
  induction es with
  | nil =>
    rw [List.mem_singleton.1 h]
    exact .inr ⟨rfl, rfl, .inl rfl⟩
  | cons p rest ih =>
    rw [putEntry] at h
    split at h
    · next hp =>
      rcases List.mem_cons.1 h with rfl | h
      · exact .inr ⟨rfl, hp, .inr ⟨p, List.mem_cons_self .., rfl⟩⟩
      · exact .inl (List.mem_cons_of_mem p h)
    · rcases List.mem_cons.1 h with rfl | h
      · exact .inl (List.mem_cons_self ..)
      · rcases ih h with h | ⟨hvalue, htext, hkey⟩
        · exact .inl (List.mem_cons_of_mem p h)
        · refine .inr ⟨hvalue, htext, hkey.imp_right ?_⟩
          rintro ⟨q, hq, hkey⟩
          exact ⟨q, List.mem_cons_of_mem p hq, hkey⟩

/-- **An entry is merged just if the node at its key can absorb it.** -/
theorem mergeEntry_eq_pure_iff {es' : List Entry} :
    mergeEntry e es = pure es' ↔ ∃ v, absorb es e = .ok v ∧ es' = putEntry e.key v es := by
  induction es generalizing es' with
  | nil =>
    constructor
    · intro h
      cases h
      exact ⟨_, rfl, rfl⟩
    · rintro ⟨v, hv, rfl⟩
      cases hv
      rfl
  | cons p rest ih =>
    rw [mergeEntry]
    by_cases hp : p.key.text = e.key.text
    · rw [if_pos hp, absorb, valueAt_cons_of_eq hp]
      dsimp only
      cases hmerge : mergeInto e.key.text p.value e with
      | ok v =>
        constructor
        · intro h
          cases h
          exact ⟨v, rfl, by rw [putEntry, if_pos hp]⟩
        · rintro ⟨v', hv, rfl⟩
          cases hv
          rw [putEntry, if_pos hp]
      | error problem =>
        constructor
        · intro h
          obtain ⟨u, hu, -⟩ := Logged.bind_eq_pure_iff.1 h
          exact absurd hu note_ne_pure
        · rintro ⟨v, hv, -⟩
          cases hv
    · rw [if_neg hp, absorb, valueAt_cons_of_ne hp, Logged.bind_eq_pure_iff, ← absorb]
      constructor
      · rintro ⟨rest', hrest, hpure⟩
        cases hpure
        obtain ⟨v, hv, rfl⟩ := ih.1 hrest
        exact ⟨v, hv, by rw [putEntry, if_neg hp]⟩
      · rintro ⟨v, hv, rfl⟩
        refine ⟨_, ih.2 ⟨v, hv, rfl⟩, ?_⟩
        rw [putEntry, if_neg hp]

/-! ## Sections -/

theorem entries_openSection (n : Node) : (openSection n).entries = n.entries := by
  unfold openSection
  split
  · rfl
  · split
    · next hnull => exact (entries_eq_nil (isMapping_of_isNull hnull).1).symm
    · rfl

theorem entries_openEntry (e : Entry) : (openEntry e).value.entries = e.value.entries := by
  unfold openEntry
  split
  · exact entries_openSection e.value
  · rfl

/-- Opening a section again changes nothing. -/
theorem openSection_openSection (n : Node) : openSection (openSection n) = openSection n := by
  cases n with
  | mapping info flow entries => rfl
  | scalar info text isNull => cases isNull <;> rfl
  | sequence info flow items => rfl
  | document info content => rfl
  | blank info => rfl
  | aliasTo info name anchored =>
    unfold openSection
    dsimp only
    by_cases hnull : (Node.aliasTo info name anchored).isNull = true
    · rw [if_pos hnull]
    · rw [if_neg hnull]
      dsimp only
      rw [if_neg hnull]

theorem target_openSection (h : n.target = n) :
    (openSection n).target = openSection n := by
  unfold openSection
  split
  · rfl
  · split
    · rfl
    · exact h

/-- A section absorbs the entries of another node. -/
theorem entries_extendSection (h : extendSection name present e = .ok v) :
    v.entries = present.entries ++ e.value.entries := by
  unfold extendSection at h
  split at h
  · next hvalue =>
    cases h
    rw [hvalue]
    exact List.map_append
  · split at h
    · next hnull =>
      cases h
      rw [entries_eq_nil (isMapping_of_isNull hnull).1, List.append_nil]
    · cases h

/-- What absorbs an entry is a section that is open already, if it is one. -/
theorem openSection_extendSection (h : extendSection name present e = .ok v)
    (hpresent : openSection present = present) (htarget : present.target = present) :
    openSection v = v ∧ v.target = v := by
  unfold extendSection at h
  split at h
  · cases h
    obtain ⟨hinfo, hflow, -⟩ := Node.mapping.inj hpresent
    exact ⟨by rw [openSection, hinfo, hflow], rfl⟩
  · split at h
    · cases h
      exact ⟨hpresent, htarget⟩
    · cases h

theorem mergeInto_of_section (h : isMergedSection name = true) (present : Node) (e : Entry) :
    mergeInto name present e = extendSection name present e :=
  if_pos h

theorem mergeInto_eq_ok_iff_of_setting (h : isMergedSection name = false) :
    mergeInto name present e = .ok v ↔ sameSetting present e.value = true ∧ v = present := by
  rw [mergeInto, if_neg (by rw [h]; exact Bool.false_ne_true)]
  by_cases hsame : sameSetting present e.value = true
  · rw [if_pos hsame]
    simp [hsame, eq_comm]
  · rw [if_neg hsame]
    simp [hsame]

theorem isMapping_of_isScalar (h : n.isScalar = true) : n.isMapping = false := by
  unfold Node.isScalar at h
  unfold Node.isMapping
  split at h
  · next htarget => rw [htarget]
  · cases h

/-- What absorbs an entry has its entries, of which a setting has none. -/
theorem entries_mergeInto (h : mergeInto name present e = .ok v) :
    v.entries = present.entries ++ e.value.entries := by
  cases hsection : isMergedSection name with
  | true =>
    rw [mergeInto_of_section hsection] at h
    exact entries_extendSection h
  | false =>
    obtain ⟨hsame, rfl⟩ := (mergeInto_eq_ok_iff_of_setting hsection).1 h
    rw [sameSetting, Bool.and_eq_true, Bool.and_eq_true] at hsame
    rw [entries_eq_nil (isMapping_of_isScalar hsame.1.2), List.append_nil]

/-! ## Merged documents -/

/-- Each key is there once, with an entry as if it were first. -/
structure IsMerged (es : List Entry) : Prop where
  nodup : (keyTexts es).Nodup
  plain : ∀ e ∈ es, e.key.target = e.key ∧ e.value.target = e.value
  opened : ∀ e ∈ es, openEntry e = e

theorem isMerged_nil : IsMerged [] :=
  ⟨List.nodup_nil, by simp, by simp⟩

/-- Adds entries to merged ones. -/
def mergeAll (merged es : List Entry) : Noted (List Entry) :=
  es.foldlM (fun merged e => mergeEntry e merged) merged

theorem mergeAll_cons_eq_pure_iff :
    mergeAll merged (e :: es) = pure merged' ↔
      ∃ v, absorb merged e = .ok v ∧ mergeAll (putEntry e.key v merged) es = pure merged' := by
  rw [mergeAll, List.foldlM_cons, Logged.bind_eq_pure_iff]
  constructor
  · rintro ⟨next, hnext, hrest⟩
    obtain ⟨v, hv, rfl⟩ := mergeEntry_eq_pure_iff.1 hnext
    exact ⟨v, hv, hrest⟩
  · rintro ⟨v, hv, hrest⟩
    exact ⟨_, mergeEntry_eq_pure_iff.2 ⟨v, hv, rfl⟩, hrest⟩

theorem mem_of_valueAt (h : valueAt es name = some n) :
    ∃ e ∈ es, e.key.text = name ∧ e.value = n := by
  obtain ⟨e, he, rfl⟩ := Option.map_eq_some_iff.1 h
  have htext := List.find?_some he
  exact ⟨e, List.mem_of_find?_eq_some he, beq_iff_eq.1 htext, rfl⟩

/-- What absorbs an entry is as it would be in the first entry with its key. -/
theorem IsMerged.absorb (h : IsMerged es) (hplain : e.value.target = e.value)
    (hv : absorb es e = .ok v) :
    v.target = v ∧ (isMergedSection e.key.text = true → openSection v = v) := by
  unfold Shorthand.absorb at hv
  split at hv
  · cases hv
    unfold openEntry
    by_cases hsection : isMergedSection e.key.text = true
    · rw [if_pos hsection]
      exact ⟨target_openSection hplain, fun _ => openSection_openSection e.value⟩
    · rw [if_neg hsection]
      exact ⟨hplain, fun h => absurd h hsection⟩
  · next present hpresent =>
    obtain ⟨p, hp, htext, rfl⟩ := mem_of_valueAt hpresent
    cases hsection : isMergedSection e.key.text with
    | true =>
      have hopen : openSection p.value = p.value := by
        have hopened := congrArg Entry.value (h.opened p hp)
        rwa [openEntry, htext, if_pos hsection] at hopened
      rw [mergeInto_of_section hsection] at hv
      obtain ⟨hopenv, htargetv⟩ := openSection_extendSection hv hopen (h.plain p hp).2
      exact ⟨htargetv, fun _ => hopenv⟩
    | false =>
      obtain ⟨-, rfl⟩ := (mergeInto_eq_ok_iff_of_setting hsection).1 hv
      exact ⟨(h.plain p hp).2, fun h => absurd h Bool.false_ne_true⟩

/-- One more entry keeps the shape of merged entries. -/
theorem IsMerged.putEntry (h : IsMerged es)
    (hplain : e.key.target = e.key ∧ e.value.target = e.value)
    (hv : Shorthand.absorb es e = .ok v) :
    IsMerged (putEntry e.key v es) := by
  obtain ⟨htarget, hopen⟩ := h.absorb hplain.2 hv
  refine ⟨?_, ?_, ?_⟩
  · rw [keyTexts_putEntry]
    split
    · exact h.nodup
    · next hnew =>
      refine List.nodup_append.2 ⟨h.nodup, List.nodup_singleton _, ?_⟩
      rintro a ha b hb rfl
      exact hnew (List.mem_singleton.1 hb ▸ ha)
  · intro x hx
    rcases mem_putEntry hx with hx | ⟨hvalue, -, hkey⟩
    · exact h.plain x hx
    · rw [hvalue]
      refine ⟨?_, htarget⟩
      rcases hkey with hkey | ⟨p, hp, hkey⟩
      · rw [hkey]
        exact hplain.1
      · rw [← hkey]
        exact (h.plain p hp).1
  · intro x hx
    rcases mem_putEntry hx with hx | ⟨hvalue, htext, -⟩
    · exact h.opened x hx
    · obtain ⟨key, value⟩ := x
      cases hvalue
      unfold openEntry
      dsimp only at htext ⊢
      split
      · next hsection => rw [hopen (htext ▸ hsection)]
      · rfl

/-- **Merging keeps the shape of merged entries.** -/
theorem IsMerged.mergeAll (h : IsMerged merged)
    (hplain : ∀ e ∈ es, e.key.target = e.key ∧ e.value.target = e.value)
    (hmerge : Shorthand.mergeAll merged es = pure merged') : IsMerged merged' := by
  induction es generalizing merged with
  | nil =>
    cases hmerge
    exact h
  | cons e rest ih =>
    rw [List.forall_mem_cons] at hplain
    obtain ⟨v, hv, hrest⟩ := mergeAll_cons_eq_pure_iff.1 hmerge
    exact ih (h.putEntry hplain.1 hv) hplain.2 hrest

/-- Entries with keys of their own are put one after the other. -/
theorem mergeAll_of_nodup (h : (keyTexts (merged ++ es)).Nodup) :
    mergeAll merged es = pure (merged ++ es.map openEntry) := by
  induction es generalizing merged with
  | nil =>
    rw [List.map_nil, List.append_nil]
    rfl
  | cons e rest ih =>
    have hnew : e.key.text ∉ keyTexts merged := by
      rw [keyTexts, List.map_append, List.nodup_append] at h
      exact fun hmem => h.2.2 _ hmem _ (List.mem_cons_self ..) rfl
    have hnone : valueAt merged e.key.text = none := valueAt_eq_none_iff.2 hnew
    have hput : putEntry e.key (openEntry e).value merged = merged ++ [openEntry e] :=
      putEntry_of_not_mem hnew _
    have hnext : (keyTexts ((merged ++ [openEntry e]) ++ rest)).Nodup := by
      simpa [keyTexts, openEntry] using h
    refine mergeAll_cons_eq_pure_iff.2 ⟨(openEntry e).value, by rw [absorb, hnone], ?_⟩
    rw [hput, ih hnext, List.append_assoc, List.singleton_append, List.map_cons]

theorem mergeAll_nil_of_nodup (h : (keyTexts es).Nodup) :
    mergeAll [] es = pure (es.map openEntry) := by
  have hmerge : mergeAll [] es = pure ([] ++ es.map openEntry) := mergeAll_of_nodup h
  rwa [List.nil_append] at hmerge

/-- **Merged entries are merged again as they are.** -/
theorem mergeAll_isMerged (h : IsMerged es) : mergeAll [] es = pure es := by
  have hopened : es.map openEntry = es := by
    conv_rhs => rw [← List.map_id es]
    exact List.map_congr_left h.opened
  rw [mergeAll_nil_of_nodup h.nodup, hopened]

/-! ## Entries of all documents -/

/-- The entries of the sections with a name, in order. -/
def sectionEntries (name : String) (es : List Entry) : List Entry :=
  es.flatMap fun e => if e.key.text = name then e.value.entries else []

/-- A node has its old entries and then those that it absorbs. -/
theorem entries_of_absorb (hv : absorb es e = .ok v) :
    v.entries = entriesOf (valueAt es e.key.text) ++ e.value.entries := by
  unfold absorb at hv
  split at hv
  · next hnone =>
    cases hv
    rw [hnone]
    exact entries_openEntry e
  · next present hpresent =>
    rw [hpresent]
    exact entries_mergeInto hv

/-- **A section holds the entries that are merged into it, in order.** -/
theorem entriesOf_mergeAll (h : mergeAll merged es = pure merged') (name : String) :
    entriesOf (valueAt merged' name) =
      entriesOf (valueAt merged name) ++ sectionEntries name es := by
  induction es generalizing merged with
  | nil =>
    cases h
    exact (List.append_nil _).symm
  | cons e rest ih =>
    obtain ⟨v, hv, hrest⟩ := mergeAll_cons_eq_pure_iff.1 h
    have hsplit : sectionEntries name (e :: rest) =
        (if e.key.text = name then e.value.entries else []) ++ sectionEntries name rest :=
      List.flatMap_cons
    rw [ih hrest, valueAt_putEntry, hsplit, ← List.append_assoc]
    -- the first entry is absorbed at its own name and changes nothing elsewhere
    by_cases hname : e.key.text = name
    · subst hname
      rw [if_pos rfl, if_pos rfl, ← entries_of_absorb hv]
      rfl
    · rw [if_neg hname, if_neg hname, List.append_nil]

/-! ## Documents one after the other -/

theorem plain_topEntries (h : e ∈ topEntries root) :
    e.key.target = e.key ∧ e.value.target = e.value := by
  unfold topEntries entriesOf at h
  cases hbody : root.bind Node.body? with
  | none =>
    rw [hbody] at h
    cases h
  | some n =>
    rw [hbody] at h
    exact plain_entries h

/-- A document is merged just if it is one and its entries merge. -/
theorem mergeDocument_eq_pure_iff :
    mergeDocument merged root = pure merged' ↔
      (∀ n ∈ root.bind Node.body?, IsSection n) ∧
        mergeAll merged (topEntries root) = pure merged' := by
  -- the document is read as a section is, by what its body is
  let read (body : Option Node) : Noted (List Entry) :=
    body.elim (pure merged) fun body =>
      if body.isNull then pure merged
      else if body.isMapping then mergeAll merged body.entries
      else note (.wrongForm .document body.kindName) (some body) {} >>= fun _ => pure merged
  have hread : mergeDocument merged root = read (root.bind Node.body?) := by
    unfold mergeDocument
    cases root.bind Node.body? <;> rfl
  rw [hread]
  exact readSection_eq_pure_iff read (fun body => .wrongForm .document body.kindName) {} rfl
    fun _ => rfl

/-- **Merging documents is merging all their entries.** -/
theorem foldlM_mergeDocument_eq_pure_iff :
    roots.foldlM mergeDocument merged = pure merged' ↔
      (∀ root ∈ roots, ∀ n ∈ root.bind Node.body?, IsSection n) ∧
        mergeAll merged (roots.flatMap topEntries) = pure merged' := by
  induction roots generalizing merged with
  | nil => exact ⟨fun h => ⟨by simp, h⟩, fun h => h.2⟩
  | cons root rest ih =>
    rw [List.foldlM_cons, Logged.bind_eq_pure_iff, List.forall_mem_cons, List.flatMap_cons,
      mergeAll, List.foldlM_append, Logged.bind_eq_pure_iff]
    constructor
    · rintro ⟨next, hnext, hrest⟩
      obtain ⟨hroot, hentries⟩ := mergeDocument_eq_pure_iff.1 hnext
      obtain ⟨hroots, hmore⟩ := ih.1 hrest
      exact ⟨⟨hroot, hroots⟩, next, hentries, hmore⟩
    · rintro ⟨⟨hroot, hroots⟩, next, hentries, hmore⟩
      exact ⟨next, mergeDocument_eq_pure_iff.2 ⟨hroot, hentries⟩, ih.2 ⟨hroots, hmore⟩⟩

/-- The document with given entries at its top. -/
def documentOf (es : List Entry) : Node :=
  .document {} [.ofEntries es]

/-- Documents are merged by folding over them. -/
theorem merge_eq_ok_iff :
    merge roots = .ok m ↔
      ∃ es, roots.foldlM mergeDocument [] = pure es ∧ m = documentOf es := by
  rw [merge]
  constructor
  · intro h
    split at h
    · next hnotes =>
      cases h
      exact ⟨_, Logged.eq_pure_iff.2 ⟨rfl, List.isEmpty_iff.1 hnotes⟩, rfl⟩
    · cases h
  · rintro ⟨es, hes, rfl⟩
    rw [hes]
    rfl

theorem IsMerged.topEntries_documentOf (h : IsMerged es) :
    topEntries (some (documentOf es)) = es :=
  entries_ofEntries h.plain

theorem IsMerged.isReadable_documentOf (h : IsMerged es) (hkeyed : WellKeyed es) :
    IsReadable (some (documentOf es)) := by
  refine ⟨fun n hn => ?_, ?_⟩
  · cases hn
    exact .inr rfl
  · rw [h.topEntries_documentOf]
    exact hkeyed

/-- The entries of merged documents. -/
theorem isMerged_of_foldlM (h : roots.foldlM mergeDocument [] = pure es) : IsMerged es := by
  refine isMerged_nil.mergeAll (fun e he => ?_) (foldlM_mergeDocument_eq_pure_iff.1 h).2
  obtain ⟨root, -, hroot⟩ := List.mem_flatMap.1 he
  exact plain_topEntries hroot

/-- A merged document is merged as it is. -/
theorem IsMerged.mergeDocument (h : IsMerged es) :
    Shorthand.mergeDocument [] (some (documentOf es)) = pure es := by
  refine mergeDocument_eq_pure_iff.2 ⟨fun n hn => ?_, ?_⟩
  · cases hn
    exact .inr rfl
  · rw [h.topEntries_documentOf]
    exact mergeAll_isMerged h

/-- Merging more documents is merging them with what is merged already. -/
theorem merge_append (h : merge roots = .ok m) (more : List (Option Node)) :
    merge (roots ++ more) = merge (some m :: more) := by
  obtain ⟨es, hes, rfl⟩ := merge_eq_ok_iff.1 h
  have hfold : (roots ++ more).foldlM mergeDocument [] =
      (some (documentOf es) :: more).foldlM mergeDocument [] := by
    rw [List.foldlM_append, List.foldlM_cons, hes, (isMerged_of_foldlM hes).mergeDocument]
  rw [merge, hfold, merge]

/-- The problems of documents are among those of more documents. -/
theorem merge_append_of_error {problems : List Diagnostic} (h : merge roots = .error problems)
    (more : List (Option Node)) :
    ∃ others, merge (roots ++ more) = .error (problems ++ others) := by
  rw [merge] at h ⊢
  split at h
  · cases h
  · next hnotes =>
    cases h
    rw [List.foldlM_append, Logged.notes_bind]
    refine ⟨_, if_neg fun hempty => hnotes ?_⟩
    rw [List.isEmpty_iff] at hempty ⊢
    exact (List.append_eq_nil_iff.1 hempty).1

/-- The sections of merged documents. -/
theorem entriesOf_merge (h : merge roots = .ok m) (name : String) :
    entriesOf (valueAt (topEntries (some m)) name) =
      sectionEntries name (roots.flatMap topEntries) := by
  obtain ⟨es, hes, rfl⟩ := merge_eq_ok_iff.1 h
  rw [(isMerged_of_foldlM hes).topEntries_documentOf,
    entriesOf_mergeAll (foldlM_mergeDocument_eq_pure_iff.1 hes).2]
  rfl

/-! ## A single document -/

/-- The sections that are merged are sections of a document. -/
theorem isSectionKey_of_isMergedSection (h : isMergedSection e.key.text = true) :
    ∃ k, documentKeys.find? e = some k ∧ isSectionKey k = true := by
  unfold isMergedSection at h
  rw [Bool.or_eq_true, Bool.or_eq_true, decide_eq_true_iff, decide_eq_true_iff,
    decide_eq_true_iff] at h
  rw [Keyring.find?]
  rcases h with (hname | hname) | hname
  · exact ⟨.prefixes, by rw [hname]; decide +kernel, rfl⟩
  · exact ⟨.sources, by rw [hname]; decide +kernel, rfl⟩
  · exact ⟨.mappings, by rw [hname]; decide +kernel, rfl⟩

theorem isMergedSection_of_setting (hk : documentKeys.find? e = some k)
    (hsetting : isSectionKey k = false) :
    isMergedSection e.key.text = false := by
  by_contra hsection
  rw [Bool.not_eq_false] at hsection
  obtain ⟨k', hk', hk'section⟩ := isSectionKey_of_isMergedSection hsection
  cases hk.symm.trans hk'
  rw [hsetting] at hk'section
  cases hk'section

/-- An entry that is no section stays as it is. -/
theorem openEntry_of_setting (hk : documentKeys.find? e = some k)
    (hsetting : isSectionKey k = false) : openEntry e = e := by
  rw [openEntry, isMergedSection_of_setting hk hsetting]
  cases e
  rfl

/-- An opened section is a section. -/
theorem isSection_openEntry (h : IsSection e.value) :
    IsSection (openEntry e).value := by
  unfold openEntry
  dsimp only
  split
  · unfold openSection
    split
    · exact .inr rfl
    · split
      · exact .inr rfl
      · exact h
  · exact h

/-- A part of entries that are opened. -/
theorem partOf_map_openEntry (es : List Entry) (k : DocumentKey) :
    partOf (es.map openEntry) k =
      (es.find? fun e => documentKeys.find? e == some k).map fun e => (openEntry e).value := by
  rw [partOf, List.find?_map, Option.map_map]
  rfl

theorem mem_of_find?_documentKeys
    (h : (es.find? fun e => documentKeys.find? e == some k) = some e) :
    documentKeys.find? e = some k := by
  have hk := List.find?_some h
  exact beq_iff_eq.1 hk

theorem entriesOf_partOf_map_openEntry (es : List Entry) (k : DocumentKey) :
    entriesOf (partOf (es.map openEntry) k) = entriesOf (partOf es k) := by
  rw [partOf_map_openEntry, partOf, entriesOf, entriesOf, Option.map_map, Option.map_map]
  congr 2
  funext e
  exact entries_openEntry e

theorem partOf_map_openEntry_of_setting (es : List Entry) (hsetting : isSectionKey k = false) :
    partOf (es.map openEntry) k = partOf es k := by
  rw [partOf_map_openEntry, partOf]
  cases hfind : es.find? fun e => documentKeys.find? e == some k with
  | none => rfl
  | some e =>
    rw [Option.map_some, Option.map_some,
      openEntry_of_setting (mem_of_find?_documentKeys hfind) hsetting]

/-- Opened entries hold the same. -/
theorem contentsOf_map_openEntry (es : List Entry) :
    contentsOf (es.map openEntry) = contentsOf es := by
  simp only [contentsOf, entriesOf_partOf_map_openEntry,
    partOf_map_openEntry_of_setting es (k := .base) rfl,
    partOf_map_openEntry_of_setting es (k := .dialect) rfl]

/-- Entries of a document have keys of different texts. -/
theorem WellKeyed.nodup_keyTexts (h : WellKeyed es) : (keyTexts es).Nodup := by
  have hdistinct := h.distinct
  have hmap : es.map documentKeys.find? =
      (keyTexts es).map fun text => documentKeys.spellings.lookup (Text.lower text) := by
    rw [keyTexts, List.map_map]
    rfl
  rw [hmap] at hdistinct
  exact hdistinct.of_map

theorem WellKeyed.map_openEntry (h : WellKeyed es) :
    WellKeyed (es.map openEntry) := by
  refine ⟨fun e he => ?_, ?_, fun k hk n hn => ?_⟩
  · obtain ⟨x, hx, rfl⟩ := List.mem_map.1 he
    exact h.known x hx
  · rw [List.map_map]
    exact h.distinct
  · rw [partOf_map_openEntry] at hn
    obtain ⟨e, he, rfl⟩ := Option.map_eq_some_iff.1 hn
    exact isSection_openEntry (h.sections k hk e.value (by rw [partOf, he]; rfl))

/-- **A document that can be read is merged into one that reads the same.** -/
theorem parse_merge_single {settings : Settings} {parsed : Parsed}
    (h : parse settings root = .ok parsed) :
    ∃ m, merge [root] = .ok m ∧ parse settings (some m) = .ok parsed := by
  obtain ⟨⟨hbody, hentries⟩, hread⟩ := parse_eq_ok_iff.1 h
  have hmerge : mergeAll [] (topEntries root) = pure ((topEntries root).map openEntry) :=
    mergeAll_nil_of_nodup hentries.nodup_keyTexts
  have hfold : [root].foldlM mergeDocument [] = pure ((topEntries root).map openEntry) := by
    rw [foldlM_mergeDocument_eq_pure_iff, List.flatMap_singleton]
    exact ⟨by simpa using hbody, hmerge⟩
  have hmerged := isMerged_of_foldlM hfold
  refine ⟨_, merge_eq_ok_iff.2 ⟨_, hfold, rfl⟩,
    parse_eq_ok_iff.2 ⟨hmerged.isReadable_documentOf hentries.map_openEntry, ?_⟩⟩
  rw [hmerged.topEntries_documentOf, contentsOf_map_openEntry]
  exact hread

/-- **Merging is incremental, and does not show in a single document.**  Documents that cannot be
merged cannot be merged with more, and merging one more is merging it with what is merged already.
A merged document has each key once, and its sections hold the entries of all documents in order.
A single document reads the same after it is merged. -/
theorem merge_concat (roots : List (Option Node)) (root : Option Node) :
    (∀ problems, merge roots = .error problems →
      ∃ others, merge (roots ++ [root]) = .error (problems ++ others)) ∧
    (∀ m, merge roots = .ok m →
      merge (roots ++ [root]) = merge [some m, root] ∧
      (keyTexts (topEntries (some m))).Nodup ∧
      ∀ name ∈ ["prefixes", "sources", "mappings"],
        entriesOf (valueAt (topEntries (some m)) name) =
          sectionEntries name (roots.flatMap topEntries)) ∧
    ∀ settings parsed, parse settings root = .ok parsed →
      ∃ m, merge [root] = .ok m ∧ parse settings (some m) = .ok parsed := by
  refine ⟨fun problems h => merge_append_of_error h [root], fun m h => ⟨merge_append h [root], ?_⟩,
    fun settings parsed h => parse_merge_single h⟩
  refine ⟨?_, fun name _ => entriesOf_merge h name⟩
  obtain ⟨es, hes, rfl⟩ := merge_eq_ok_iff.1 h
  have hmerged := isMerged_of_foldlM hes
  rw [hmerged.topEntries_documentOf]
  exact hmerged.nodup

/-- A document with a prefix and a base. -/
def withBase (base : String) : Node :=
  .ofEntries [⟨.ofText "prefixes", .ofEntries [⟨.ofText "ex", .ofText "http://ex.org/"⟩]⟩,
    ⟨.ofText "base", .ofText base⟩]

/-- A document with another prefix and a mapping. -/
def withMapping (name : String) : Node :=
  .ofEntries [⟨.ofText "mappings", .ofEntries [⟨.ofText name, .ofEntries
      [⟨.ofText "subjects", .ofText "http://ex.net/$(id)"⟩,
        ⟨.ofText "po", .ofEntries [⟨.ofText "org:name", .ofText "$(name)"⟩]⟩]⟩]⟩,
    ⟨.ofText "prefixes", .ofEntries [⟨.ofText "org", .ofText "http://ex.net/"⟩]⟩]

/-- Documents with prefixes, mappings and two bases. -/
theorem merge_concat_prefixes :
    (∃ m, merge [some (withBase "http://a.org/"), some (withMapping "staff")] = .ok m ∧
      merge ([some (withBase "http://a.org/"), some (withMapping "staff")] ++
        [some (withMapping "units")]) = merge [some m, some (withMapping "units")] ∧
      entriesOf (valueAt (topEntries (some m)) "prefixes") =
        [⟨.ofText "ex", .ofText "http://ex.org/"⟩, ⟨.ofText "org", .ofText "http://ex.net/"⟩]) ∧
    (∃ problems others,
      merge [some (withBase "http://a.org/"), some (withBase "http://b.org/")] =
        .error problems ∧
      merge ([some (withBase "http://a.org/"), some (withBase "http://b.org/")] ++
        [some (withMapping "staff")]) = .error (problems ++ others)) ∧
    ∃ parsed m, parse {} (some (withMapping "staff")) = .ok parsed ∧
      parsed.document.maps.map (·.id) = ["staff"] ∧
      merge [some (withMapping "staff")] = .ok m ∧ parse {} (some m) = .ok parsed := by
  refine ⟨?_, ?_, ?_⟩
  · obtain ⟨-, happend, -⟩ := merge_concat
      [some (withBase "http://a.org/"), some (withMapping "staff")] (some (withMapping "units"))
    obtain ⟨hmore, -, hentries⟩ := happend _ rfl
    exact ⟨_, rfl, hmore, hentries "prefixes" (by simp)⟩
  · obtain ⟨herror, -, -⟩ :=
      merge_concat [some (withBase "http://a.org/"), some (withBase "http://b.org/")]
        (some (withMapping "staff"))
    obtain ⟨others, hothers⟩ := herror _ rfl
    exact ⟨_, others, rfl, hothers⟩
  · have hids : ((parse {} (some (withMapping "staff"))).toOption.any fun parsed =>
        parsed.document.maps.map (·.id) = ["staff"]) = true := by decide +kernel
    cases hparse : parse {} (some (withMapping "staff")) with
    | error problems =>
      rw [hparse] at hids
      cases hids
    | ok parsed =>
      rw [hparse] at hids
      obtain ⟨-, -, hsingle⟩ := merge_concat [] (some (withMapping "staff"))
      obtain ⟨m, hm, hread⟩ := hsingle {} parsed hparse
      exact ⟨parsed, m, rfl, of_decide_eq_true hids, hm, hread⟩

end RdfMapping.Shorthand
