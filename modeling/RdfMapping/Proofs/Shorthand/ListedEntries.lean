/-
# Entries that were read

Reading goes on after a problem, so a part that is missing from the result has to be explained by a
note.  Terms always are.  Lists of predicates or objects are not if they are empty: their entry is
passed over without a note.
-/
import RdfMapping.Proofs.Shorthand.Clean
import RdfMapping.Proofs.Shorthand.Provenance

namespace RdfMapping

/-- What is found is the value if nothing is noted. -/
theorem Attempt.Finds.exists_eq_pure {ν α : Type} {x : Attempt ν α} {P : α → Prop} (h : x.Finds P)
    (hnotes : x.run.notes = []) : ∃ a, x = Pure.pure a ∧ P a := by
  cases hvalue : x.run.value with
  | none => exact absurd hnotes (h.explains hvalue)
  | some a => exact ⟨a, Logged.eq_pure_iff.2 ⟨hvalue, hnotes⟩, h.gives a hvalue⟩

namespace Shorthand

open Mapping
open Yaml (Node Entry)

/-! ## What entries list -/

/-- The positions of an entry, of its predicates and of its objects. -/
structure EntryOutline where
  span : Span
  predicates : List Span
  objects : List Span
deriving DecidableEq, Repr

/-- Whether an entry lists a predicate and an object. -/
def EntryOutline.isFull (o : EntryOutline) : Bool :=
  !o.predicates.isEmpty && !o.objects.isEmpty

/-- The positions in a predicate-object map. -/
def outlineOf (pom : PredicateObjectMap) : EntryOutline :=
  ⟨pom.span, pom.predicates.map TermMap.span, pom.objects.map TermMap.span⟩

/-- What the pairs `predicate: objects` of a mapping list. -/
def listedPairs (n : Node) : List EntryOutline :=
  n.entries.map fun e => ⟨e.key.span, [e.key.span], e.value.items.map Node.span⟩

/-- What an entry lists in two nodes. -/
def listedIn (n : Node) (p o : Option Node) : EntryOutline :=
  let spans (part : Option Node) := (part.map fun m => m.items.map Node.span).getD []
  ⟨n.span, spans p, spans o⟩

/-- What an entry of a list lists: a list has the predicates first and the objects second, a mapping
has them under their keys, and one without these keys is a mapping of pairs. -/
def listedEntry (n : Node) : List EntryOutline :=
  if n.isSequence then [listedIn n n.items[0]? n.items[1]?]
  else if namesParts n then
    [listedIn n (valueOf? entryKeys n .predicates) (valueOf? entryKeys n .objects)]
  else listedPairs n

/-- What the entries under a node list, in order. -/
def listed (n : Node) : List EntryOutline :=
  if n.isSequence then n.items.flatMap listedEntry else listedPairs n

section Entries

variable {scope : Scope} {n : Node} {place : Place} {ns : List Node} {read : Node → Reading TermMap}
  {o : EntryOutline} {problem : Problem} {os : List EntryOutline}

/-- Terms that are read or explained are all read if clean. -/
theorem exists_all_eq_pure (hread : ∀ n, (read n).Finds fun tm => tm.span = n.span)
    (h : (Attempt.all (ns.map read)).run.notes = []) :
    ∃ tms : List TermMap, Attempt.all (ns.map read) = pure tms ∧
      tms.map TermMap.span = ns.map Node.span := by
  rw [Attempt.notes_all, List.flatMap_eq_nil_iff, List.forall_mem_map] at h
  have hforall : ∃ tms : List TermMap, List.Forall₂ (fun n tm => read n = pure tm) ns tms ∧
      tms.map TermMap.span = ns.map Node.span := by
    induction ns with
    | nil => exact ⟨[], .nil, rfl⟩
    | cons n rest ih =>
      rw [List.forall_mem_cons] at h
      obtain ⟨tm, htm, hspan⟩ := (hread n).exists_eq_pure h.1
      obtain ⟨tms, htms, hspans⟩ := ih h.2
      exact ⟨tm :: tms, .cons htm htms, congrArg₂ List.cons hspan hspans⟩
  obtain ⟨tms, htms, hspans⟩ := hforall
  exact ⟨tms, Attempt.all_eq_pure (List.forall₂_map_left_iff.2 htms), hspans⟩

/-- Lists of terms are read if nothing is noted, unless they are empty. -/
theorem exists_nonempty (hread : ∀ n, (read n).Finds fun tm => tm.span = n.span)
    (h : (Attempt.all (ns.map read) >>= Attempt.nonempty).run.notes = []) :
    ∃ tms : List TermMap, tms.map TermMap.span = ns.map Node.span ∧
      (Attempt.all (ns.map read) >>= Attempt.nonempty).run.value =
        if ns.isEmpty then none else some tms := by
  rw [Attempt.notes_bind, List.append_eq_nil_iff] at h
  obtain ⟨tms, htms, hspans⟩ := exists_all_eq_pure hread h.1
  refine ⟨tms, hspans, ?_⟩
  have hempty : tms.isEmpty = ns.isEmpty := by
    rw [← List.isEmpty_map (f := TermMap.span), hspans, List.isEmpty_map]
  rw [htms, pure_bind, ← hempty]
  rfl

/-- An entry is read to a map with an outline, or passed over if it is not full. -/
def ReadsAs (x : Reading PredicateObjectMap) (o : EntryOutline) : Prop :=
  x.run.notes = [] → x.run.value.map outlineOf = if o.isFull then some o else none

/-- Entries are read, if clean, to the maps with full outlines. -/
def ReadsAll (x : Noted (List PredicateObjectMap)) (os : List EntryOutline) : Prop :=
  x.notes = [] → x.value.map outlineOf = os.filter EntryOutline.isFull

theorem ReadsAs.bind {α : Type} {P : α → Prop} {x : Reading α} {k : α → Reading PredicateObjectMap}
    (hx : x.Finds P) (hk : ∀ a, P a → ReadsAs (k a) o) : ReadsAs (x >>= k) o := by
  intro hnotes
  rw [Attempt.notes_bind, List.append_eq_nil_iff] at hnotes
  obtain ⟨a, rfl, ha⟩ := hx.exists_eq_pure hnotes.1
  rw [pure_bind]
  exact hk a ha hnotes.2

theorem ReadsAs.refuse {n : Option Node} : ReadsAs (refuse problem n place) o :=
  fun h => absurd h (List.cons_ne_nil _ _)

/-- **The predicates and objects of an entry are read, unless there are none.** -/
theorem readsAs_parts {ps os : List Node} {tag : Tagging} {span : Span} {place place' : Place}
    {k : List TermMap → List TermMap → Reading PredicateObjectMap}
    (htag : tag.datatype = "" ∨ tag.language = "")
    (hk : ∀ predicates objects, (k predicates objects).Finds fun pom =>
      outlineOf pom = ⟨span, predicates.map TermMap.span, objects.map TermMap.span⟩) :
    ReadsAs
      (readPredicates scope ps place >>= fun predicates =>
        readObjects scope predicates tag os place' >>= k predicates)
      ⟨span, ps.map Node.span, os.map Node.span⟩ := by
  intro hnotes
  rw [Attempt.notes_bind, List.append_eq_nil_iff] at hnotes
  obtain ⟨predicates, hps, hpredicates⟩ := exists_nonempty
    (fun n => ((traces_trivial scope).readTerm { position := .predicate } trivial place).mono
      fun tm htm => htm.1) hnotes.1
  change (readPredicates scope ps place).run.value = _ at hpredicates
  rw [Attempt.value_bind, hpredicates]
  rw [hpredicates] at hnotes
  cases ps with
  | nil => rfl
  | cons p ps =>
    have hobjectNotes := hnotes.2
    change (readObjects scope predicates tag os place' >>= k predicates).run.notes = []
      at hobjectNotes
    change (readObjects scope predicates tag os place' >>= k predicates).run.value.map outlineOf = _
    rw [Attempt.notes_bind, List.append_eq_nil_iff] at hobjectNotes
    obtain ⟨objects, hos, hobjects⟩ := exists_nonempty
      (fun n => ((traces_trivial scope).readObject _ htag trivial place').mono fun tm htm => htm.1)
      hobjectNotes.1
    change (readObjects scope predicates tag os place').run.value = _ at hobjects
    rw [Attempt.value_bind, hobjects]
    rw [hobjects] at hobjectNotes
    cases os with
    | nil => rfl
    | cons o os =>
      obtain ⟨pom, hpom, houtline⟩ := (hk predicates objects).exists_eq_pure hobjectNotes.2
      have hvalue : (k predicates objects).run.value = some pom := by rw [hpom]; rfl
      change (k predicates objects).run.value.map outlineOf = _
      rw [hvalue, Option.map_some, houtline, hps, hos]
      rfl

theorem readsAs_readPair {e : Entry} :
    ReadsAs (readPair scope e place)
      ⟨e.key.span, [e.key.span], e.value.items.map Node.span⟩ := by
  change ReadsAs _ ⟨e.key.span, [e.key].map Node.span, _⟩
  exact readsAs_parts (.inl rfl) fun _ _ => .pure rfl

theorem readsAs_readList :
    ReadsAs (readList scope n place) (listedIn n n.items[0]? n.items[1]?) := by
  unfold readList
  rcases n.items with _ | ⟨p, _ | ⟨o, _ | ⟨tag, _ | ⟨more, rest⟩⟩⟩⟩
  · exact .refuse
  · exact .refuse
  · exact .bind finds_readTagging fun tag htag => readsAs_parts htag fun _ _ => .pure rfl
  · exact .bind finds_readTagging fun tag htag => readsAs_parts htag fun _ _ => .pure rfl
  · exact .refuse

/-- Keys that are read without a problem are those found at any place. -/
theorem valueOf?_of_readKeys {κ : Type} [BEq κ] {ring : Keyring κ} {keys : Keyed κ}
    (h : readKeys ring n place = pure keys) (k : κ) : valueOf? ring n k = keys.value? k := by
  have hkeys : readKeys ring n {} = pure keys := readKeys_eq_pure h
  rw [valueOf?, hkeys, Logged.value_pure]

/-- An entry with named parts is read as what it lists. -/
theorem readsAs_readParts :
    ReadsAs (readParts scope n place)
      (listedIn n (valueOf? entryKeys n .predicates) (valueOf? entryKeys n .objects)) := by
  have hkeys : (liftM (readKeys entryKeys n place) : Reading _).Finds fun keys =>
      keys = (readKeys entryKeys n {}).value :=
    .lift (value_readKeys entryKeys n place {})
  refine .bind hkeys fun keys hkeys => ?_
  unfold valueOf?
  rw [← hkeys]
  split
  · next p o hp ho =>
    rw [hp, ho]
    refine readsAs_parts (.inl rfl) fun predicates objects => ?_
    dsimp only
    split
    · exact .lift_bind (.pure rfl)
    · exact .pure rfl
  · exact ReadsAs.refuse

/-- Entries that are read as listed are read together. -/
theorem readsAll_those {xs : List (Reading PredicateObjectMap)} (h : List.Forall₂ ReadsAs xs os) :
    ReadsAll (Logged.those xs) os := by
  intro hnotes
  rw [Logged.notes_those, List.flatMap_eq_nil_iff] at hnotes
  rw [Logged.value_those]
  induction h with
  | nil => rfl
  | @cons x o xs os hx _ ih =>
    rw [List.forall_mem_cons] at hnotes
    have hvalue := hx hnotes.1
    have hrest := ih hnotes.2
    rw [List.filterMap_cons, List.filter_cons]
    cases hx' : x.run.value with
    | none =>
      rw [hx'] at hvalue
      cases hfull : o.isFull with
      | true => simp [hfull] at hvalue
      | false => simpa using hrest
    | some pom =>
      rw [hx'] at hvalue
      cases hfull : o.isFull with
      | true => simp_all
      | false => simp [hfull] at hvalue

theorem ReadsAll.of_note {n : Option Node} {k : Unit → Noted (List PredicateObjectMap)} :
    ReadsAll (note problem n place >>= k) os :=
  fun h => absurd h (List.cons_ne_nil _ _)

theorem readsAll_readPairs : ReadsAll (readPairs scope n place) (listedPairs n) := by
  refine readsAll_those ?_
  rw [listedPairs, List.forall₂_map_left_iff, List.forall₂_map_right_iff, List.forall₂_same]
  exact fun e _ => readsAs_readPair

theorem readsAll_readEntry : ReadsAll (readEntry scope n place) (listedEntry n) := by
  unfold readEntry listedEntry
  split
  · exact readsAll_those (.cons readsAs_readList .nil)
  · split
    · split
      · exact readsAll_those (.cons readsAs_readParts .nil)
      · exact readsAll_readPairs
    · exact .of_note

theorem entries_eq_nil (h : n.isMapping = false) : n.entries = [] := by
  unfold Node.isMapping at h
  unfold Node.entries
  split
  · next hn =>
    rw [hn] at h
    cases h
  · rfl

/-- No node is of two sorts. -/
theorem isMapping_of_isNull (h : n.isNull = true) : n.isMapping = false ∧ n.isSequence = false := by
  unfold Node.isNull at h
  unfold Node.isMapping Node.isSequence
  cases hn : n.target with
  | scalar _ _ _ => exact ⟨rfl, rfl⟩
  | blank _ => exact ⟨rfl, rfl⟩
  | sequence _ _ _ | mapping _ _ _ | document _ _ | aliasTo _ _ _ =>
    rw [hn] at h
    cases h

theorem isSequence_of_isMapping (h : n.isMapping = true) : n.isSequence = false := by
  unfold Node.isMapping at h
  unfold Node.isSequence
  split
  · next hn =>
    rw [hn] at h
    cases h
  · rfl

/-- Lists of entries are read one after the other. -/
theorem readsAll_each {xs : List (Noted (List PredicateObjectMap))}
    {os : List (List EntryOutline)} (h : List.Forall₂ ReadsAll xs os) :
    ReadsAll (Logged.each xs >>= fun entries => pure entries.flatten) os.flatten := by
  intro hnotes
  rw [Logged.notes_bind, List.append_eq_nil_iff, Logged.notes_each, List.flatMap_eq_nil_iff]
    at hnotes
  rw [Logged.value_bind, Logged.value_each]
  change (xs.map Logged.value).flatten.map outlineOf = _
  replace hnotes := hnotes.1
  induction h with
  | nil => rfl
  | @cons x o xs os hx _ ih =>
    rw [List.forall_mem_cons] at hnotes
    rw [List.map_cons, List.flatten_cons, List.map_append, hx hnotes.1, ih hnotes.2,
      List.flatten_cons, List.filter_append]

/-- **The entries are read in order**, apart from empty ones. -/
theorem readsAll_readPredicateObjects :
    ReadsAll (readPredicateObjects scope n place) (listed n) := by
  unfold readPredicateObjects listed
  split
  · next hnull =>
    obtain ⟨hmapping, hsequence⟩ := isMapping_of_isNull hnull
    rw [if_neg (by simp [hsequence]), listedPairs, entries_eq_nil hmapping]
    exact fun _ => rfl
  · split
    · next hmapping =>
      rw [if_neg (by simp [isSequence_of_isMapping hmapping])]
      exact readsAll_readPairs
    · split
      · rw [List.flatMap_def]
        refine readsAll_each (forall₂_mapIdx_left ?_)
        rw [List.forall₂_map_right_iff, List.forall₂_same]
        exact fun e _ i => readsAll_readEntry
      · exact .of_note

end Entries

/-! ## Mappings that were read -/

section Mappings

variable {scope : Scope} {declared : List NamedSource} {key body n : Node} {place : Place}
  {tm : TriplesMap}

theorem readMappingParts_eq_pure (h : readMapping scope declared key body place = pure tm) :
    readMappingParts scope declared key body place = pure tm := by
  unfold readMapping at h
  split at h
  · exact absurd h refuse_ne_pure
  · split at h
    · obtain ⟨hvalue, hnotes⟩ := Logged.eq_pure_iff.1 (Attempt.eq_pure_iff.1 h)
      change (readMappingParts scope declared key body place).notes = [] at hnotes
      change (if (readMappingParts scope declared key body place).notes.isEmpty then _ else _) = _
        at hvalue
      rw [hnotes] at hvalue
      exact Logged.eq_pure_iff.2 ⟨Option.some.inj hvalue, hnotes⟩
    · exact absurd h refuse_ne_pure

theorem id_of_readMapping (h : readMapping scope declared key body place = pure tm) :
    tm.id = place.mapping :=
  (congrArg (fun x => x.value.id) (readMappingParts_eq_pure h)).symm

/-- **A mapping that is read has the entries it lists.** -/
theorem outlines_of_readMapping (h : readMapping scope declared key body place = pure tm)
    (hn : valueOf? mappingKeys body .predicateObjects = some n) :
    tm.predicateObjects.map outlineOf = (listed n).filter EntryOutline.isFull := by
  have hparts := readMappingParts_eq_pure h
  unfold readMappingParts at hparts
  obtain ⟨keys, hkeys, hparts⟩ := Logged.bind_eq_pure_iff.1 hparts
  obtain ⟨source, -, hparts⟩ := Logged.bind_eq_pure_iff.1 hparts
  obtain ⟨term, -, hparts⟩ := Logged.bind_eq_pure_iff.1 hparts
  obtain ⟨classes, -, hparts⟩ := Logged.bind_eq_pure_iff.1 hparts
  obtain ⟨graphs, -, hparts⟩ := Logged.bind_eq_pure_iff.1 hparts
  obtain ⟨poms, hpoms, hparts⟩ := Logged.bind_eq_pure_iff.1 hparts
  cases hparts
  rw [valueOf?_of_readKeys hkeys] at hn
  rw [readMappingPart, hn] at hpoms
  obtain ⟨hvalue, hnotes⟩ := Logged.eq_pure_iff.1 hpoms
  exact hvalue ▸ readsAll_readPredicateObjects hnotes

variable {doc doc' : Document} {e : Entry}

theorem finds_readMapping : (readMapping scope declared key body place).Finds fun _ => True := by
  unfold readMapping
  split
  · exact finds_refuse
  · split
    · refine ⟨.trivial _, fun hnone hnotes => ?_⟩
      have hparts : readMappingParts scope declared key body place = pure _ :=
        Logged.eq_pure_iff.2 ⟨rfl, hnotes⟩
      rw [flawless_eq_pure hparts] at hnone
      cases hnone
    · exact finds_refuse

/-- A mapping that is added with nothing noted was read, and has a new identifier. -/
theorem exists_of_addMapping (hdoc : doc.Indexed) (hfrozen : doc.frozen = false)
    (h : addMapping scope declared doc e = pure doc') :
    ∃ tm, readMapping scope declared e.key e.value { mapping := e.key.text } = pure tm ∧
      doc.add tm = .ok doc' ∧ doc'.frozen = false ∧ doc'.maps = doc.maps ++ [tm] := by
  unfold addMapping at h
  dsimp only at h
  split at h
  · obtain ⟨u, hu, -⟩ := Logged.bind_eq_pure_iff.1 h
    exact absurd hu note_ne_pure
  · split at h
    · obtain ⟨u, hu, -⟩ := Logged.bind_eq_pure_iff.1 h
      exact absurd hu note_ne_pure
    · next hnew =>
      obtain ⟨read, hread, hadded⟩ := Logged.bind_eq_pure_iff.1 h
      obtain ⟨tm, htm, -⟩ := finds_readMapping.exists_eq_pure (Logged.eq_pure_iff.1 hread).2
      rw [htm] at hread
      cases hread
      have hid : tm.id ∉ doc.ids := by
        rw [id_of_readMapping htm]
        exact fun hmem => hnew (hdoc.lookup?_isSome_iff.2 hmem)
      have hadd := hdoc.add_eq_ok hfrozen hid
      change enterMapping doc tm _ _ = pure doc' at hadded
      rw [enterMapping_eq_pure hdoc hfrozen hid] at hadded
      cases hadded
      exact ⟨tm, htm, hadd, hfrozen, rfl⟩

/-- Mappings that are added with nothing noted are all in the document. -/
theorem exists_mem_of_foldlM {es : List Entry} (hdoc : doc.Indexed) (hfrozen : doc.frozen = false)
    (h : es.foldlM (addMapping scope declared) doc = pure doc') :
    doc.maps ⊆ doc'.maps ∧ ∀ e ∈ es, ∃ tm ∈ doc'.maps,
      readMapping scope declared e.key e.value { mapping := e.key.text } = pure tm := by
  induction es generalizing doc with
  | nil =>
    cases h
    exact ⟨List.Subset.refl _, fun _ he => absurd he List.not_mem_nil⟩
  | cons e rest ih =>
    rw [List.foldlM_cons] at h
    obtain ⟨next, hnext, hrest⟩ := Logged.bind_eq_pure_iff.1 h
    obtain ⟨tm, htm, hadd, hopen, hmaps⟩ := exists_of_addMapping hdoc hfrozen hnext
    obtain ⟨hkept, hread⟩ := ih (hdoc.of_add hadd) hopen hrest
    rw [hmaps] at hkept
    refine ⟨fun t ht => hkept (List.mem_append_left _ ht), List.forall_mem_cons.2 ⟨?_, hread⟩⟩
    exact ⟨tm, hkept (List.mem_append_right _ (List.mem_singleton_self tm)), htm⟩

/-- Each entry of the mappings is one of the maps. -/
theorem exists_mem_of_addMappings {mappings : Node} (hdoc : doc.Indexed)
    (hfrozen : doc.frozen = false) (h : addMappings scope declared doc (some mappings) = pure doc')
    (he : e ∈ mappings.entries) :
    ∃ tm ∈ doc'.maps,
      readMapping scope declared e.key e.value { mapping := e.key.text } = pure tm := by
  unfold addMappings at h
  dsimp only at h
  split at h
  · next hnull =>
    rw [entries_eq_nil (isMapping_of_isNull hnull).1] at he
    exact absurd he List.not_mem_nil
  · split at h
    · exact (exists_mem_of_foldlM hdoc hfrozen h).2 e he
    · obtain ⟨u, hu, -⟩ := Logged.bind_eq_pure_iff.1 h
      exact absurd hu note_ne_pure

/-- **The mappings of a document that is returned were all read.** -/
theorem exists_mem_of_parse {settings : Settings} {root : Option Node} {parsed : Parsed}
    {mappings : Node} (h : parse settings root = .ok parsed)
    (hbody : root.bind Node.body? = some body)
    (hm : valueOf? documentKeys body .mappings = some mappings) (he : e ∈ mappings.entries) :
    ∃ scope declared, ∃ tm ∈ parsed.document.maps,
      readMapping scope declared e.key e.value { mapping := e.key.text } = pure tm := by
  obtain ⟨hnotes, -, hdocument⟩ := of_parseBody (hbody ▸ parseBody_of_parse h)
  have hread : readDocument settings (some body) =
      pure (readDocument settings (some body)).value := Logged.eq_pure_iff.2 ⟨rfl, hnotes⟩
  rw [hdocument]
  generalize (readDocument settings (some body)).value = draught at hread
  unfold readDocument at hread
  obtain ⟨keys, hkeys, hread⟩ := Logged.bind_eq_pure_iff.1 hread
  obtain ⟨table, -, hread⟩ := Logged.bind_eq_pure_iff.1 hread
  obtain ⟨base, -, hread⟩ := Logged.bind_eq_pure_iff.1 hread
  obtain ⟨dialect, -, hread⟩ := Logged.bind_eq_pure_iff.1 hread
  obtain ⟨declared, -, hread⟩ := Logged.bind_eq_pure_iff.1 hread
  obtain ⟨document, hadded, hread⟩ := Logged.bind_eq_pure_iff.1 hread
  cases hread
  rw [← valueOf?_of_readKeys hkeys, hm] at hadded
  have hnew : ({ Document.create base (some table) with dialect } : Document).Indexed :=
    (Document.Built.declare dialect (.create base (some table))).indexed
  obtain ⟨tm, hmem, htm⟩ := exists_mem_of_addMappings hnew rfl hadded he
  exact ⟨_, declared, tm, hmem, htm⟩

end Mappings

/-! ## Documents that were read -/

/-- **A document that is returned has the entries its mappings list.**  Each mapping is there under
its name, with one predicate-object map for each entry that lists a predicate and an object, in
order, and with one term for each that is listed.  No entry is missing just if all of them list
both. -/
theorem predicateObjects_of_parse {settings : Settings} {root : Option Node} {parsed : Parsed}
    {body mappings n : Node} {e : Entry} (h : parse settings root = .ok parsed)
    (hbody : root.bind Node.body? = some body)
    (hm : valueOf? documentKeys body .mappings = some mappings) (he : e ∈ mappings.entries)
    (hn : valueOf? mappingKeys e.value .predicateObjects = some n) :
    ∃ tm, parsed.document.lookup? e.key.text = some tm ∧
      tm.predicateObjects.map outlineOf = (listed n).filter EntryOutline.isFull ∧
      (tm.predicateObjects.length = (listed n).length ↔ ∀ o ∈ listed n, o.isFull = true) := by
  obtain ⟨scope, declared, tm, hmem, htm⟩ := exists_mem_of_parse h hbody hm he
  have hlookup := (built_of_parse h).indexed.lookup?_eq_some_iff.2 ⟨hmem, id_of_readMapping htm⟩
  have houtlines := outlines_of_readMapping htm hn
  have hlength : tm.predicateObjects.length = ((listed n).filter EntryOutline.isFull).length := by
    rw [← houtlines, List.length_map]
  refine ⟨tm, hlookup, houtlines, ?_⟩
  rw [hlength, List.length_filter_eq_length_iff]

/-- Two entries, the first of which lists no object. -/
def unfilledEntries : Node :=
  .flowList
    [.flowList [.ofText "http://ex.org/p", .flowList []],
      .flowList [.ofText "http://ex.org/q", .ofText "$(v)"]]

/-- A mapping with some entries. -/
def entriesTree (entries : Node) : Node :=
  .ofEntries [⟨.ofText "mappings", .ofEntries [⟨.ofText "m", .ofEntries
    [⟨.ofText "s", .ofText "http://ex.org/$(id)"⟩, ⟨.ofText "po", entries⟩]⟩]⟩]

/-- The tree is read to a map without the empty entries. -/
theorem exists_parse_unfilledEntries :
    ∃ parsed tm, parse {} (some (entriesTree unfilledEntries)) = .ok parsed ∧
      parsed.document.lookup? "m" = some tm ∧ tm.predicateObjects.length = 1 := by
  have hread : (parse {} (some (entriesTree unfilledEntries))).toOption.any (fun parsed =>
      (parsed.document.lookup? "m").any fun tm => tm.predicateObjects.length == 1) = true := by
    decide +kernel
  cases hparsed : parse {} (some (entriesTree unfilledEntries)) with
  | error ds =>
    rw [hparsed] at hread
    cases hread
  | ok parsed =>
    rw [hparsed, Except.toOption, Option.any_some] at hread
    cases htm : parsed.document.lookup? "m" with
    | none =>
      rw [htm] at hread
      cases hread
    | some tm =>
      rw [htm, Option.any_some, beq_iff_eq] at hread
      exact ⟨parsed, tm, rfl, htm, hread⟩

theorem predicateObjects_of_parse_unfilled :
    ∃ parsed tm, parse {} (some (entriesTree unfilledEntries)) = .ok parsed ∧
      parsed.document.lookup? "m" = some tm ∧
      tm.predicateObjects.map outlineOf = [⟨{}, [{}], [{}]⟩] := by
  obtain ⟨parsed, _, hparsed, _⟩ := exists_parse_unfilledEntries
  obtain ⟨tm, htm, houtlines, -⟩ := predicateObjects_of_parse (n := unfilledEntries) hparsed rfl
    (by rfl) (List.mem_singleton_self _) (by rfl)
  exact ⟨parsed, tm, hparsed, htm, houtlines⟩

/-- An entry without objects is passed over. -/
theorem entries_passed_over :
    ∃ parsed tm, parse {} (some (entriesTree unfilledEntries)) = .ok parsed ∧
      parsed.document.lookup? "m" = some tm ∧
      tm.predicateObjects.length < (listed unfilledEntries).length := by
  obtain ⟨parsed, tm, hparsed, htm, hlength⟩ := exists_parse_unfilledEntries
  exact ⟨parsed, tm, hparsed, htm, by rw [hlength]; decide⟩

end Shorthand

end RdfMapping
