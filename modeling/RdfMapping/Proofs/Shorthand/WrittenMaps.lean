/-
# What is written for triples maps

The parts of a triples map are written under keys of their own.  Sources and classes are not checked
when they are written; they are read back because their names are IRIs with an authority.
-/
import RdfMapping.Proofs.Shorthand.WrittenPairs

namespace RdfMapping.Shorthand

open Iri (PrefixTable)
open Mapping
open Yaml (Node Entry)

variable {text name iri : String} {scope : Scope} {ls : LogicalSource} {place : Place} {n : Node}
  {tm : TriplesMap} {m : MapParts}

/-! ## Reference formulations -/

theorem hasChar_iff {c : Char} : Text.hasChar c text = true ↔ c ∈ text.toList :=
  List.contains_iff_mem

theorem ne_empty_of_mem {c : Char} (h : c ∈ text.toList) : text ≠ "" := by
  rintro rfl
  exact absurd h List.not_mem_nil

theorem mem_of_formulationName? (h : formulationName? iri = some name) :
    (name, iri) ∈ formulations := by
  obtain ⟨⟨name', iri'⟩, hfind, rfl⟩ := Option.map_eq_some_iff.1 h
  have heq := List.find?_some hfind
  rw [beq_iff_eq] at heq
  cases heq
  exact List.mem_of_find?_eq_some hfind

/-- The short name of a formulation is found, and it is no piece of a path. -/
theorem short_of_mem_formulations (h : (name, iri) ∈ formulations) :
    formulations.lookup (Text.lower name) = some iri ∧ '~' ∉ name.toList ∧
      (name = "" || Text.hasChar '/' name || Text.hasChar '.' name) = false := by
  simp only [formulations, List.mem_cons, List.not_mem_nil, or_false, Prod.mk.injEq] at h
  rcases h with ⟨rfl, rfl⟩ | ⟨rfl, rfl⟩ | ⟨rfl, rfl⟩
  all_goals decide +kernel

theorem ne_empty_of_mem_formulations (h : (name, iri) ∈ formulations) :
    name ≠ "" := by
  rintro rfl
  exact absurd (short_of_mem_formulations h).2.2 (by decide)

theorem formulation?_of_mem (h : (name, iri) ∈ formulations) (scope : Scope) :
    scope.formulation? name = some iri := by
  rw [Scope.formulation?, (short_of_mem_formulations h).1]

/-- A name with a colon in it is no short name. -/
theorem formulation?_of_resolve (hcolon : ':' ∈ text.toList) (h : scope.resolve text = .ok iri) :
    scope.formulation? text = some iri := by
  have hlower : ':' ∈ (Text.lower text).toList := by
    rw [Text.lower, String.toList_ofList, List.mem_map]
    exact ⟨':', hcolon, by decide +kernel⟩
  have hnone : formulations.lookup (Text.lower text) = none := by
    rw [List.lookup_eq_none_iff]
    intro p hp
    have hp' : ':' ∉ p.1.toList := by
      simp only [formulations, List.mem_cons, List.not_mem_nil, or_false] at hp
      rcases hp with rfl | rfl | rfl
      all_goals decide
    have hne : Text.lower text ≠ p.1 := fun heq => hp' (heq ▸ hlower)
    simpa using hne
  rw [Scope.formulation?, hnone]
  dsimp only
  rw [if_pos (hasChar_iff.2 hcolon), h]
  rfl

/-! ## Sources -/

theorem readAccess_named (h : (name, iri) ∈ formulations) (scope : Scope) (access : String)
    (place : Place) :
    readAccess scope (.ofText (access ++ "~" ++ name)) place =
      pure { access, formulation := iri } := by
  obtain ⟨-, htilde, hpath⟩ := short_of_mem_formulations h
  have hcut : Text.cutLast? "~" (access ++ "~" ++ name) = some (access, name) := by
    have hchars : (access ++ "~" ++ name).toList = access.toList ++ '~' :: name.toList := by simp
    have hsep : "~".toList = ['~'] := rfl
    rw [Text.cutLast?, hchars, hsep, Chars.cutLast?_append htilde]
    simp
  rw [readAccess, readScalar_ofText, pure_bind, hcut]
  dsimp only
  rw [hpath, if_neg Bool.false_ne_true, formulation?_of_mem h]

theorem readAccess_plain {access : String} (h : '~' ∉ access.toList) (scope : Scope)
    (place : Place) : readAccess scope (.ofText access) place = pure { access } := by
  have hsep : "~".toList = ['~'] := rfl
  have hcut : Text.cutLast? "~" access = none := by
    rw [Text.cutLast?, hsep, Chars.cutLast?_eq_none h]
    rfl
  rw [readAccess, readScalar_ofText, pure_bind, hcut]

/-- The source of a mapping that is one text. -/
theorem readMappingSource_ofText (h : readAccess scope (.ofText text) place = pure ls) :
    readMappingSource scope [] (.ofText text) place = pure ls := by
  have hlisted : listedSources [] (.ofText text) = [.ofText text] := rfl
  have hscalar : (Node.ofText text).isScalar = true := rfl
  have hnone : namedSource? [] (Node.ofText text).text = none := rfl
  unfold readMappingSource
  rw [hlisted]
  dsimp only
  rw [if_pos hscalar, hnone]
  dsimp only
  rw [List.isEmpty_nil, Bool.not_true, Bool.and_false, if_neg Bool.false_ne_true, h]
  rfl

/-- The source of a mapping that is no text. -/
theorem readMappingSource_eq_pure (hlisted : listedSources [] n = [n])
    (hscalar : n.isScalar = false) (h : readSource scope n place = pure ls) :
    readMappingSource scope [] n place = pure ls := by
  unfold readMappingSource
  rw [hlisted]
  dsimp only
  rw [hscalar, if_neg Bool.false_ne_true, h]
  rfl

/-- The source of a mapping that is a text and an iterator. -/
theorem readMappingSource_flowList {iterator : String} (htilde : '~' ∈ text.toList)
    (h : readAccess scope (.ofText text) place = pure ls) :
    readMappingSource scope [] (.flowList [.ofText text, .ofText iterator]) place =
      pure { ls with iterator } := by
  have hitems : (Node.flowList [.ofText text, .ofText iterator]).items =
    [.ofText text, .ofText iterator] := rfl
  have hsequence : (Node.flowList [.ofText text, .ofText iterator]).isSequence = true := rfl
  refine readMappingSource_eq_pure ?_ rfl ?_
  · -- a formulation is named, so the two texts are one source
    change (if _ then _ else _) = _
    exact if_pos (hasChar_iff.2 htilde)
  · rw [readSource, if_pos hsequence, hitems]
    dsimp only
    rw [h, pure_bind, readScalar_ofText, pure_bind]

/-! ### Parts of a source -/

/-- The node of a text, unless it is empty. -/
def textPart (text : String) : Option Node :=
  if text = "" then none else some (.ofText text)

theorem partEntries_textPart {κ : Type} (k : κ) (key text : String)
    (rest : List (κ × String × Option Node)) :
    partEntries ((k, key, textPart text) :: rest) = textEntry key text ++ partEntries rest := by
  unfold textPart textEntry
  split <;> rfl

theorem target_textPart (text : String) : (textPart text).map Node.target = textPart text := by
  unfold textPart
  split <;> rfl

/-- The parts of a source, with the spellings of the IRIs among them. -/
def sourceParts (ls : LogicalSource) (formulation sqlVersion : String) :
    List (SourceKey × String × Option Node) :=
  [(.access, "access", textPart ls.access),
    (.formulation, "referenceFormulation", textPart formulation),
    (.iterator, "iterator", textPart ls.iterator), (.table, "table", textPart ls.table),
    (.query, "query", textPart ls.query), (.sqlVersion, "sqlVersion", textPart sqlVersion)]

theorem partEntries_sourceParts (ls : LogicalSource) (formulation sqlVersion : String) :
    partEntries (sourceParts ls formulation sqlVersion) =
      textEntry "access" ls.access ++ textEntry "referenceFormulation" formulation ++
        textEntry "iterator" ls.iterator ++ textEntry "table" ls.table ++
          textEntry "query" ls.query ++ textEntry "sqlVersion" sqlVersion := by
  have hnil : partEntries ([] : List (SourceKey × String × Option Node)) = [] := rfl
  simp only [sourceParts, partEntries_textPart, List.append_assoc, hnil, List.append_nil]

theorem nodup_sourceParts (ls : LogicalSource) (formulation sqlVersion : String) :
    ((sourceParts ls formulation sqlVersion).map Prod.fst).Nodup := by
  show [SourceKey.access, .formulation, .iterator, .table, .query, .sqlVersion].Nodup
  decide

theorem readKeys_sourceParts (ls : LogicalSource) (formulation sqlVersion : String)
    (place : Place) :
    readKeys sourceKeys (.ofEntries (partEntries (sourceParts ls formulation sqlVersion))) place =
      pure (keyedParts (sourceParts ls formulation sqlVersion)) := by
  refine readKeys_parts ?_ (nodup_sourceParts ..) place
  simp only [sourceParts, List.forall_mem_cons]
  decide +kernel

/-- The text of a part of a source. -/
def sourceText (ls : LogicalSource) (formulation sqlVersion : String) : SourceKey → String
  | .access => ls.access
  | .formulation => formulation
  | .iterator => ls.iterator
  | .table => ls.table
  | .query => ls.query
  | .sqlVersion => sqlVersion

/-- The parts of a source are read back by key. -/
theorem readSourcePart_sourceParts (ls : LogicalSource) (formulation sqlVersion : String)
    (k : SourceKey) (place : Place) :
    readSourcePart (keyedParts (sourceParts ls formulation sqlVersion)) k place =
      pure (sourceText ls formulation sqlVersion k) := by
  have hvalue : (keyedParts (sourceParts ls formulation sqlVersion)).value? k =
      textPart (sourceText ls formulation sqlVersion k) := by
    have hplain : ∀ p ∈ sourceParts ls formulation sqlVersion, p.2.2.map Node.target = p.2.2 := by
      simp [sourceParts, target_textPart]
    rw [value?_keyedParts (nodup_sourceParts ..) hplain]
    cases k <;> rfl
  unfold readSourcePart
  rw [hvalue, textPart]
  by_cases htext : sourceText ls formulation sqlVersion k = ""
  · rw [if_pos htext, htext]
  · rw [if_neg htext]
    rfl

/-- The spelling of the formulation of a source. -/
def SpellsFormulation (scope : Scope) (text iri : String) : Prop :=
  (iri = "" ∧ text = "") ∨ (text ≠ "" ∧ scope.formulation? text = some iri)

/-- The spelling of the version of SQL of a source. -/
def SpellsVersion (scope : Scope) (text iri : String) : Prop :=
  (iri = "" ∧ text = "") ∨ (':' ∈ text.toList ∧ scope.resolve text = .ok iri)

/-- **A source is read from its parts.** -/
theorem readSourceParts_eq_pure {formulation sqlVersion : String}
    (hformulation : SpellsFormulation scope formulation ls.formulation)
    (hversion : SpellsVersion scope sqlVersion ls.sqlVersion) (place : Place) :
    readSourceParts scope (.ofEntries (partEntries (sourceParts ls formulation sqlVersion)))
      place = pure ls := by
  refine flawless_eq_pure ?_
  simp only [readKeys_sourceParts, pure_bind, readSourcePart_sourceParts, sourceText]
  obtain ⟨access, iri, iterator, table, query, version⟩ := ls
  dsimp only at hformulation hversion ⊢
  rcases hformulation with ⟨rfl, rfl⟩ | ⟨hne, hname⟩
  · rw [if_pos rfl]
    rcases hversion with ⟨rfl, rfl⟩ | ⟨hcolon, hresolve⟩
    · rw [if_pos rfl]
    · rw [if_neg (ne_empty_of_mem hcolon), if_pos (hasChar_iff.2 hcolon), hresolve]
  · rw [if_neg hne, hname]
    rcases hversion with ⟨rfl, rfl⟩ | ⟨hcolon, hresolve⟩
    · exact if_pos rfl
    · dsimp only
      rw [if_neg (ne_empty_of_mem hcolon), if_pos (hasChar_iff.2 hcolon), hresolve]

/-- The source of a mapping that is written by its parts. -/
theorem readMappingSource_parts {es : List Entry}
    (h : readSourceParts scope (.ofEntries es) place = pure ls) :
    readMappingSource scope [] (.ofEntries es) place = pure ls := by
  have hsequence : (Node.ofEntries es).isSequence = false := rfl
  have hmapping : (Node.ofEntries es).isMapping = true := rfl
  refine readMappingSource_eq_pure rfl rfl ?_
  rw [readSource, hsequence, if_neg Bool.false_ne_true, if_pos hmapping, h]

/-! ## Writing sources -/

/-- A map whose names are IRIs with an authority. -/
structure FullNames (tm : TriplesMap) : Prop where
  formulation : tm.source.formulation = "" ∨ PrefixTable.IsHierarchical tm.source.formulation
  sqlVersion : tm.source.sqlVersion = "" ∨ PrefixTable.IsHierarchical tm.source.sqlVersion
  classes : ∀ c ∈ tm.subject.classes, PrefixTable.IsHierarchical c

namespace Style

variable {s : Style} {t u : PrefixTable}

/-- A node that is read as a source from now on. -/
structure SourceMeans (s : Style) (t : PrefixTable) (n : Node) (ls : LogicalSource) : Prop where
  target : n.target = n
  reads : ∀ u, s.Grows t u → ∀ place, readMappingSource (s.scope u) [] n place = pure ls

theorem SourceMeans.grows (h : s.SourceMeans t n ls) (hg : s.Grows t u) : s.SourceMeans u n ls :=
  ⟨h.target, fun v hv => h.reads v (hg.trans hv)⟩

/-- A source is written so that it is read back. -/
theorem ensures_writeSourceParts (hs : s.Sound) (hc : s.Covers t)
    (hformulation : ls.formulation = "" ∨ PrefixTable.IsHierarchical ls.formulation)
    (hversion : ls.sqlVersion = "" ∨ PrefixTable.IsHierarchical ls.sqlVersion) :
    Ensures s (writeSourceParts s ls) t fun n u => s.SourceMeans u n ls := by
  -- the version is spelled after the formulation, and then the parts are put together
  have hrest (text : String) (u : PrefixTable) (hu : s.Grows t u)
      (htext : ∀ v, s.Grows u v → SpellsFormulation (s.scope v) text ls.formulation) :
      Ensures s (do
        let sqlVersion ← if ls.sqlVersion = "" then pure "" else s.iriText ls.sqlVersion
        return .ofEntries (textEntry "access" ls.access ++
          textEntry "referenceFormulation" text ++ textEntry "iterator" ls.iterator ++
          textEntry "table" ls.table ++ textEntry "query" ls.query ++
          textEntry "sqlVersion" sqlVersion)) u fun n u => s.SourceMeans u n ls := by
    refine ensures_optionalIri hs (hc.grows hu) fun version v hv hspells => .pure ⟨rfl, ?_⟩
    intro w hw place
    rw [← partEntries_sourceParts]
    refine readMappingSource_parts (readSourceParts_eq_pure (htext w (hv.trans hw)) ?_ place)
    exact (hspells.settled hversion).imp_right fun h => ⟨h.1, h.2 w hw⟩
  unfold writeSourceParts
  dsimp only
  split
  · next name hname =>
    have hmem := mem_of_formulationName? hname
    refine (Ensures.pure (Q := fun text u => text = name) rfl).bind fun text u hu htext => ?_
    refine hrest text u hu fun v _ => .inr ?_
    rw [htext]
    exact ⟨ne_empty_of_mem_formulations hmem, formulation?_of_mem hmem _⟩
  · refine ensures_optionalIri hs hc fun text u hu hspells => ?_
    refine hrest text u hu fun v hv => ?_
    refine (hspells.settled hformulation).imp_right fun h => ?_
    exact ⟨ne_empty_of_mem h.1, formulation?_of_resolve h.1 (h.2 v hv)⟩

/-- **What is written for a source is read as it.** -/
theorem ensures_writeSource (hs : s.Sound) (hc : s.Covers t)
    (hformulation : ls.formulation = "" ∨ PrefixTable.IsHierarchical ls.formulation)
    (hversion : ls.sqlVersion = "" ∨ PrefixTable.IsHierarchical ls.sqlVersion) :
    Ensures s (writeSource s ls) t fun n u => s.SourceMeans u n ls := by
  have hparts := ensures_writeSourceParts hs hc hformulation hversion
  unfold writeSource
  dsimp only
  split
  · next name hname =>
    have hmem := mem_of_formulationName? hname
    split
    · -- nothing but access, formulation and iterator is left
      next hshort =>
      obtain ⟨access, iri, iterator, table, query, version⟩ := ls
      simp only [Bool.and_eq_true, decide_eq_true_eq] at hshort
      obtain ⟨⟨⟨-, rfl⟩, rfl⟩, rfl⟩ := hshort
      have htilde : '~' ∈ (access ++ "~" ++ name).toList := by simp
      refine .pure ?_
      dsimp only
      split
      · next hiterator =>
        cases hiterator
        exact ⟨rfl, fun u _ place => readMappingSource_ofText (readAccess_named hmem _ _ _)⟩
      · exact ⟨rfl, fun u _ place =>
          readMappingSource_flowList htilde (readAccess_named hmem _ _ _)⟩
    · exact hparts
  · split
    · next hplain =>
      simp only [Bool.and_eq_true, Bool.not_eq_true', decide_eq_true_eq] at hplain
      have htilde : '~' ∉ ls.access.toList := fun hmem => by
        rw [hasChar_iff.2 hmem] at hplain
        cases hplain.1
      refine .pure ⟨rfl, fun u _ place => ?_⟩
      rw [hplain.2]
      exact readMappingSource_ofText (readAccess_plain htilde _ _)
    · exact hparts

end Style

/-! ## Reading mappings -/

/-- The parts of a mapping. -/
structure MapParts where
  source : Option Node
  subject : Node
  classes : List String
  graphs : List Node
  pairs : Option Node

namespace MapParts

/-- The parts of a mapping by key. -/
def keyed (m : MapParts) : List (MappingKey × String × Option Node) :=
  [(.sources, "sources", m.source), (.subject, "subject", some m.subject),
    (.classes, "class", if m.classes.isEmpty then none
      else some (single .flowList (m.classes.map .ofText))),
    (.graphs, "graph", if m.graphs.isEmpty then none else some (single .blockList m.graphs)),
    (.predicateObjects, "predicate", m.pairs)]

/-- The mapping with some parts. -/
def node (m : MapParts) : Node :=
  .ofEntries (partEntries m.keyed)

theorem nodup_keyed (m : MapParts) : (m.keyed.map Prod.fst).Nodup := by
  show [MappingKey.sources, .subject, .classes, .graphs, .predicateObjects].Nodup
  decide

theorem readKeys_node (m : MapParts) (place : Place) :
    readKeys mappingKeys m.node place = pure (keyedParts m.keyed) := by
  refine readKeys_parts ?_ m.nodup_keyed place
  simp only [keyed, List.forall_mem_cons]
  decide +kernel

theorem node_eq (m : MapParts) :
    m.node = .ofEntries (m.source.toList.map (entry "sources") ++ [entry "subject" m.subject] ++
      (if m.classes.isEmpty then []
        else [entry "class" (single .flowList (m.classes.map Node.ofText))]) ++
      (if m.graphs.isEmpty then [] else [entry "graph" (single .blockList m.graphs)]) ++
      m.pairs.toList.map (entry "predicate")) := by
  obtain ⟨source, subject, classes, graphs, pairs⟩ := m
  cases source <;> cases classes <;> cases graphs <;> cases pairs <;> rfl

end MapParts

theorem readMappingPart_eq_pure {α : Type} {keys : Keyed MappingKey} {k : MappingKey}
    {absent value : α} {read : Node → Noted α} {n : Option Node} (h : keys.value? k = n)
    (hnone : n = none → value = absent) (hsome : ∀ m, n = some m → read m = pure value) :
    readMappingPart keys k absent read = pure value := by
  rw [readMappingPart, h]
  cases n with
  | none => exact congrArg pure (hnone rfl).symm
  | some m => exact hsome m rfl

/-- A list that is written unless it is empty is read. -/
theorem readMappingPart_list {α β : Type} {keys : Keyed MappingKey} {k : MappingKey}
    {R : α → β → Prop} {as : List α} {bs : List β} {n : Node} {read : Node → Noted (List α)}
    (h : keys.value? k = if bs.isEmpty then none else some n) (hR : List.Forall₂ R as bs)
    (hread : read n = pure as) : readMappingPart keys k [] read = pure as := by
  rw [readMappingPart, h]
  cases hR with
  | nil => rfl
  | cons _ _ => exact hread

namespace Style

variable {s : Style} {t u : PrefixTable}

/-- A mapping that is read as a triples map from now on. -/
structure MapMeans (s : Style) (t : PrefixTable) (n : Node) (tm : TriplesMap) : Prop where
  target : n.target = n
  reads : ∃ got : TriplesMap, tm.Matches got ∧ ∀ u, s.Grows t u →
    readMapping (s.scope u) [] (.ofText tm.id) n { mapping := tm.id } = pure got

theorem MapMeans.grows (h : s.MapMeans t n tm) (hg : s.Grows t u) :
    s.MapMeans u n tm :=
  ⟨h.target, h.reads.imp fun _ hr => ⟨hr.1, fun v hv => hr.2 v (hg.trans hv)⟩⟩

/-- Parts that mean those of a triples map. -/
structure PartsMean (s : Style) (t : PrefixTable) (m : MapParts) (tm : TriplesMap) : Prop where
  noSource : m.source = none → tm.source = {}
  source : ∀ n, m.source = some n → s.SourceMeans t n tm.source
  subject : s.Means t { position := .subject } m.subject tm.subject.term
  classes : List.Forall₂ (fun c text => s.Settled t text c) tm.subject.classes m.classes
  graphs : List.Forall₂ (fun tm n => s.Means t { position := .graph } n tm) tm.subject.graphs
    m.graphs
  noPairs : m.pairs = none → tm.predicateObjects = []
  pairs : ∀ n, m.pairs = some n → s.PairsMean t n tm.predicateObjects

theorem isNull_of_readTerm {site : Site} {got : TermMap}
    (h : readTerm scope site n place = pure got) : n.isNull = false := by
  rw [readTerm_eq] at h
  obtain ⟨d, hd, -⟩ := Attempt.bind_eq_pure_iff.1 h
  unfold readDraft draftNode at hd
  split at hd
  · exact absurd hd refuse_ne_pure
  · next hnull => exact Bool.not_eq_true _ ▸ hnull

theorem readSubject_eq_pure {got : TermMap} (hn : IsSingle n)
    (h : readTerm scope { position := .subject } n place = pure got) :
    readSubject scope n place = pure got := by
  rw [readSubject, isNull_of_readTerm h, if_neg Bool.false_ne_true, hn.items]
  exact h

theorem readClasses_eq_pure {classes texts : List String}
    (h : List.Forall₂ (fun c text => s.Settled t text c) classes texts) (hg : s.Grows t u)
    (place : Place) :
    readClasses (s.scope u) (single .flowList (texts.map .ofText)) place = pure classes := by
  have hitems : (single .flowList (texts.map Node.ofText)).items = texts.map .ofText := by
    refine items_single (fun _ => rfl) fun n hn => ?_
    obtain ⟨text, -, rfl⟩ := List.mem_map.1 hn
    exact isSingle_ofText text
  rw [readClasses, hitems]
  refine Logged.those_eq_pure (forall₂_mapIdx_left ?_)
  rw [List.forall₂_map_left_iff]
  exact h.flip.imp fun text c hc i => (readIri_ofText _).2 (hc u hg)

theorem PartsMean.exists_pairs (h : s.PartsMean t m tm) :
    ∃ poms, PredicateObjectMap.sameAll poms tm.predicateObjects = true ∧
      (m.pairs = none → poms = []) ∧ ∀ n, m.pairs = some n → n.target = n ∧
        ∀ u, s.Grows t u → ∀ place, readPredicateObjects (s.scope u) n place = pure poms := by
  cases hpairs : m.pairs with
  | none =>
    rw [h.noPairs hpairs]
    exact ⟨[], rfl, fun _ => rfl, nofun⟩
  | some n =>
    obtain ⟨htarget, poms, hsame, hread⟩ := h.pairs n hpairs
    refine ⟨poms, hsame, nofun, fun m hm => ?_⟩
    cases hm
    exact ⟨htarget, hread⟩

/-- Each part is read as it stands. -/
theorem PartsMean.value?_keyed (h : s.PartsMean t m tm) (k : MappingKey) :
    (keyedParts m.keyed).value? k = (m.keyed.lookup k).bind Prod.snd := by
  have hsource : m.source.map Node.target = m.source := by
    cases hn : m.source with
    | none => rfl
    | some n => exact congrArg some (h.source n hn).target
  have hpairs : m.pairs.map Node.target = m.pairs := by
    cases hn : m.pairs with
    | none => rfl
    | some n => exact congrArg some (h.pairs n hn).target
  have hclasses : (single Node.flowList (m.classes.map Node.ofText)).target =
      single .flowList (m.classes.map .ofText) := by
    refine target_single (fun _ => rfl) fun n hn => ?_
    obtain ⟨text, -, rfl⟩ := List.mem_map.1 hn
    exact isSingle_ofText text
  have hgraphs : (single Node.blockList m.graphs).target = single .blockList m.graphs :=
    target_single (fun _ => rfl) (forall_mem_right h.graphs fun _ _ hg => hg.single)
  refine value?_keyedParts m.nodup_keyed ?_ k
  simp only [MapParts.keyed, List.forall_mem_cons, apply_ite (Option.map Node.target),
    Option.map_none, Option.map_some, hsource, hclasses, hgraphs, hpairs,
    h.subject.single.target, true_and]
  exact List.forall_mem_nil _

/-- **A mapping of parts that mean those of a triples map means it.** -/
theorem mapMeans_node (h : s.PartsMean t m tm) :
    s.MapMeans t m.node tm := by
  obtain ⟨term, hterm, hsubject⟩ := h.subject.reads
  obtain ⟨graphs, hgraphs, hreadGraphs⟩ := exists_reads h.graphs
  obtain ⟨poms, hpoms, hnoPairs, hpairs⟩ := h.exists_pairs
  have hkClasses : (keyedParts m.keyed).value? .classes = if m.classes.isEmpty then none
      else some (single .flowList (m.classes.map .ofText)) := h.value?_keyed .classes
  have hkGraphs : (keyedParts m.keyed).value? .graphs = if m.graphs.isEmpty then none
      else some (single .blockList m.graphs) := h.value?_keyed .graphs
  refine ⟨rfl, { id := tm.id, source := tm.source, predicateObjects := poms
                 subject := { term, classes := tm.subject.classes, graphs } }, ?_, ?_⟩
  · exact TriplesMap.Matches.symm ⟨rfl, rfl, hterm, rfl, hgraphs, hpoms⟩
  intro u hu
  -- one step for each part; an absent part is read as the empty one
  refine flawless_eq_pure (Logged.bind_eq_pure_iff.2 ⟨_, m.readKeys_node _, ?_⟩)
  refine Logged.bind_eq_pure_iff.2 ⟨tm.source, readMappingPart_eq_pure
    (h.value?_keyed .sources) h.noSource
    fun n hn => (h.source n hn).reads u hu _, ?_⟩
  refine Logged.bind_eq_pure_iff.2 ⟨some term, ?_, ?_⟩
  · rw [h.value?_keyed .subject]
    exact readSubject_eq_pure h.subject.single (hsubject u hu _)
  refine Logged.bind_eq_pure_iff.2 ⟨tm.subject.classes,
    readMappingPart_list hkClasses h.classes (readClasses_eq_pure h.classes hu _), ?_⟩
  refine Logged.bind_eq_pure_iff.2 ⟨graphs, readMappingPart_list hkGraphs hreadGraphs.flip ?_, ?_⟩
  · exact readGraphs_eq_pure (items_single (fun _ => rfl)
      (forall_mem_right h.graphs fun _ _ hg => hg.single)) (hreadGraphs.imp fun _ _ hg => hg u hu) _
  refine Logged.bind_eq_pure_iff.2 ⟨poms,
    readMappingPart_eq_pure (h.value?_keyed .predicateObjects) hnoPairs
    fun n hn => (hpairs n hn).2 u hu _, ?_⟩
  rfl

/-! ## Writing mappings -/

theorem ensures_classes (hs : s.Sound) (hc : s.Covers t) {classes : List String}
    (hclasses : ∀ c ∈ classes, PrefixTable.IsHierarchical c) :
    Ensures s (classes.mapM s.iriText) t fun texts u =>
      List.Forall₂ (fun c text => s.Settled u text c) classes texts :=
  .mapM (R := fun c text u => s.Settled u text c) (fun _ _ _ _ hg h => h.grows hg)
    fun c hmem _ hu => (ensures_iriText hs (hc.grows hu) c).mono fun _ _ _ h =>
      (h.hierarchical (hclasses c hmem)).1

/-- An entry that is there unless there is nothing to write. -/
theorem ensures_optionalEntry {ε β : Type} {c : Bool} {key : String}
    {x : ExceptT ε (StateM PrefixTable) Node} {f : List Entry → ExceptT ε (StateM PrefixTable) β}
    {Q : Node → PrefixTable → Prop} {S : β → PrefixTable → Prop}
    (hx : Ensures s x t Q)
    (hf : ∀ (o : Option Node) u, s.Grows t u → (o = none → c = true) →
      (∀ n, o = some n → Q n u) → Ensures s (f (o.toList.map (entry key))) u S) :
    Ensures s (if c = true then pure [] >>= f else ((fun n => [entry key n]) <$> x) >>= f) t S := by
  split
  · next hcond => exact hf none t (.refl s t) (fun _ => hcond) nofun
  · rw [map_eq_pure_bind, bind_assoc]
    refine hx.bind fun n u hu hn => ?_
    rw [pure_bind]
    refine hf (some n) u hu nofun fun m hm => ?_
    cases hm
    exact hn

/-- **What is written for a triples map is read as the same map.** -/
theorem ensures_writeTriplesMap (hs : s.Sound) (hc : s.Covers t) (hnames : FullNames tm)
    (hpoms : ∀ pom ∈ tm.predicateObjects, pom.predicates ≠ [] ∧ pom.objects ≠ []) :
    Ensures s (writeTriplesMap s tm) t fun n u => s.MapMeans u n tm := by
  unfold writeTriplesMap
  refine ensures_optionalEntry (ensures_writeSource hs hc hnames.formulation
    hnames.sqlVersion).adapt fun source u₁ hu₁ hnoSource hsource => ?_
  have hc₁ := hc.grows hu₁
  refine (ensures_writeTerm hs tm.subject.term _ hc₁).adapt.bind fun subject u₂ hu₂ hsubject => ?_
  have hc₂ := hc₁.grows hu₂
  refine (ensures_classes hs hc₂ hnames.classes).adapt.bind fun classes u₃ hu₃ hclasses => ?_
  have hc₃ := hc₂.grows hu₃
  refine (ensures_writeTerms hs hc₃ _ tm.subject.graphs).adapt.bind fun graphs u₄ hu₄ hgraphs => ?_
  refine ensures_optionalEntry (ensures_writePairs hs (hc₃.grows hu₄) hpoms).adapt
    fun pairs u₅ hu₅ hnoPairs hpairs => .pure ?_
  -- each part means what it did when it was written
  have hparts : s.PartsMean u₅ ⟨source, subject, classes, graphs, pairs⟩ tm :=
    { noSource := fun h => beq_iff_eq.1 (hnoSource h)
      source := fun n hn => (hsource n hn).grows (hu₂.trans (hu₃.trans (hu₄.trans hu₅)))
      subject := hsubject.grows (hu₃.trans (hu₄.trans hu₅))
      classes := hclasses.imp fun _ _ h => h.grows (hu₄.trans hu₅)
      graphs := hgraphs.imp fun _ _ h => h.grows hu₅
      noPairs := fun h => List.isEmpty_iff.1 (hnoPairs h)
      pairs := hpairs }
  have hmeans := mapMeans_node hparts
  rw [MapParts.node_eq] at hmeans
  exact hmeans

end Style

end RdfMapping.Shorthand
