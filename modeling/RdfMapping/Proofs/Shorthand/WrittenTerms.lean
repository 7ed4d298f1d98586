/-
# What is written for terms

A term map is written as a scalar or as a mapping of its parts.  Either is read as the same term
map from now on, and so are the terms inside it.
-/
import RdfMapping.Proofs.Shorthand.Terms

namespace RdfMapping

variable {ns : List Node} {es : List Entry} {k : TermKey} {ps : List Parameter}

namespace Mapping

/-- Term maps that are equal apart from positions have the same name in them. -/
theorem TermMap.meaning?_of_same {a b : TermMap} (h : a.same b = true) :
    a.meaning? = b.meaning? := by
  unfold TermMap.meaning?
  rcases TermMap.value_of_same h with ⟨ha, hb⟩ | ⟨v, w, ha, hb, hsame⟩
  · rw [ha, hb]
  · rw [ha, hb]
    cases v <;> cases w <;> simp_all [Value.same]

end Mapping

namespace Shorthand

open Iri (PrefixTable)
open Mapping
open Yaml (Node Entry)

/-! ## Nodes that are written -/

/-- A node that is its only element. -/
structure IsSingle (n : Node) : Prop where
  target : n.target = n
  items : n.items = [n]

theorem isSingle_ofText (text : String) : IsSingle (.ofText text) := ⟨rfl, rfl⟩

theorem isSingle_ofEntries (es : List Entry) : IsSingle (.ofEntries es) := ⟨rfl, rfl⟩

theorem map_target (h : ∀ n ∈ ns, n.target = n) : ns.map Node.target = ns := by
  conv_rhs => rw [← List.map_id ns]
  exact List.map_congr_left h

@[simp]
theorem items_compactList (ns : List Node) : (compactList ns).items = ns.map Node.target := by
  unfold compactList
  split <;> rfl

@[simp]
theorem target_compactList (ns : List Node) : (compactList ns).target = compactList ns := by
  unfold compactList
  split <;> rfl

@[simp]
theorem isSequence_compactList (ns : List Node) : (compactList ns).isSequence = true := by
  unfold compactList
  split <;> rfl

/-- The elements of what is written for a list of nodes. -/
theorem items_single {list : List Node → Node}
    (hlist : ∀ ns, (list ns).items = ns.map Node.target) (h : ∀ n ∈ ns, IsSingle n) :
    (single list ns).items = ns := by
  unfold single
  split
  · next n => exact (h n (List.mem_singleton_self n)).items
  · rw [hlist, map_target fun n hn => (h n hn).target]

theorem target_single {list : List Node → Node} (hlist : ∀ ns, (list ns).target = list ns)
    (h : ∀ n ∈ ns, IsSingle n) : (single list ns).target = single list ns := by
  unfold single
  split
  · next n => exact (h n (List.mem_singleton_self n)).target
  · exact hlist _

theorem entries_mapping {info : Yaml.Info} {flow : Bool}
    (h : ∀ e ∈ es, e.key.target = e.key ∧ e.value.target = e.value) :
    (Node.mapping info flow es).entries = es := by
  change es.map _ = es
  conv_rhs => rw [← List.map_id es]
  refine List.map_congr_left fun e he => ?_
  obtain ⟨key, value⟩ := e
  obtain ⟨hkey, hvalue⟩ := h _ he
  dsimp only at hkey hvalue ⊢
  rw [hkey, hvalue]
  rfl

theorem entries_ofEntries (h : ∀ e ∈ es, e.key.target = e.key ∧ e.value.target = e.value) :
    (Node.ofEntries es).entries = es :=
  entries_mapping h

/-! ## Terms that are checked -/

/-- A term is read back if it is read as the same. -/
theorem readsAsTerm_iff {scope : Scope} {site : Site} {n : Node} {tm : TermMap} :
    readsAsTerm scope site n tm = true ↔
      ∃ got, readTerm scope site n {} = pure got ∧ got.same tm = true := by
  unfold readsAsTerm
  dsimp only
  rw [Bool.and_eq_true, List.isEmpty_iff]
  constructor
  · rintro ⟨hnotes, hsame⟩
    split at hsame
    · next got hgot => exact ⟨got, Logged.eq_pure_iff.2 ⟨hgot, hnotes⟩, hsame⟩
    · cases hsame
  · rintro ⟨got, hread, hsame⟩
    rw [hread]
    exact ⟨rfl, hsame⟩

namespace Style

variable {s : Style} {t u : PrefixTable} {site : Site} {n : Node} {tm got : TermMap}
  {text : String}

/-- A node that is read as a term map from now on, apart from positions. -/
structure Means (s : Style) (t : PrefixTable) (site : Site) (n : Node) (tm : TermMap) : Prop where
  single : IsSingle n
  reads : ∃ got, got.same tm = true ∧ s.Reads t site n got

theorem Means.grows (h : s.Means t site n tm) (hg : s.Grows t u) : s.Means u site n tm :=
  ⟨h.single, h.reads.imp fun _ hr => ⟨hr.1, hr.2.grows hg⟩⟩

theorem FirmText.of_same (h : s.FirmText t text tm) (hsame : got.same tm = true) :
    s.FirmText t text got := by
  intro meant hm
  rw [TermMap.meaning?_of_same hsame] at hm
  exact h meant hm

theorem FirmPart.of_same (h : s.FirmPart t tm k n) (hsame : got.same tm = true) :
    s.FirmPart t got k n := by
  cases k with
  | constant | template => exact FirmText.of_same h hsame
  | value | function | datatype | parameters | condition | reference | mapping | type | language =>
    exact h

/-- Entries that mean the same from now on. -/
def FirmEntries (s : Style) (t : PrefixTable) (tm : TermMap) (es : List Entry) : Prop :=
  ∀ e ∈ es, (e.key.target = e.key ∧ e.value.target = e.value) ∧
    ∀ k, termKeys.find? e = some k → s.FirmPart t tm k e.value

theorem FirmEntries.grows (h : s.FirmEntries t tm es) (hg : s.Grows t u) :
    s.FirmEntries u tm es :=
  fun e he => ⟨(h e he).1, fun k hk => ((h e he).2 k hk).grows hg⟩

theorem FirmEntries.append {fs : List Entry} (h : s.FirmEntries t tm es)
    (h' : s.FirmEntries t tm fs) : s.FirmEntries t tm (es ++ fs) := by
  intro e he
  rcases List.mem_append.1 he with he | he
  · exact h e he
  · exact h' e he

/-- A part of a term is found with its proper name. -/
theorem lookup_name_termKeys (k : TermKey) :
    termKeys.spellings.lookup (Text.lower (termKeys.name k)) = some k := by
  cases k <;> decide +kernel

theorem firmEntries_entry {key : String} {n : Node}
    (hkey : termKeys.spellings.lookup (Text.lower key) = some k) (hn : n.target = n)
    (h : s.FirmPart t tm k n) : s.FirmEntries t tm [entry key n] := by
  intro e he
  rw [List.mem_singleton.1 he]
  refine ⟨⟨rfl, hn⟩, fun k' hk' => ?_⟩
  cases hkey.symm.trans hk'
  exact h

theorem firmEntries_textEntry {key : String}
    (hkey : termKeys.spellings.lookup (Text.lower key) = some k)
    (h : text ≠ "" → s.FirmPart t tm k (.ofText text)) :
    s.FirmEntries t tm (textEntry key text) := by
  unfold textEntry
  split
  · exact fun e he => absurd he List.not_mem_nil
  · next htext => exact firmEntries_entry hkey rfl (h htext)

/-- A mapping of firm entries that reads as a term map means it. -/
theorem means_of_firmEntries (hs : s.Sound) (hes : s.FirmEntries t tm es)
    (h : readsAsTerm (s.scope t) site (.ofEntries es) tm = true) :
    s.Means t site (.ofEntries es) tm := by
  obtain ⟨got, hread, hsame⟩ := readsAsTerm_iff.1 h
  refine ⟨isSingle_ofEntries es, got, hsame, reads_of_firmParts hs (fun e he k hk => ?_) hread⟩
  rw [entries_ofEntries fun e he => (hes e he).1] at he
  exact ((hes e he).2 k hk).of_same hsame

/-- A firm scalar that reads as a term map means it. -/
theorem means_of_firmText (hs : s.Sound) (hfirm : s.FirmText t text tm)
    (h : readsAsTerm (s.scope t) site (.ofText text) tm = true) :
    s.Means t site (.ofText text) tm := by
  obtain ⟨got, hread, hsame⟩ := readsAsTerm_iff.1 h
  exact ⟨isSingle_ofText text, got, hsame, reads_of_firmText hs (hfirm.of_same hsame) hread⟩

/-! ## Parameters and conditions -/

/-- The name and the value that are written for a parameter. -/
def MeansParameter (s : Style) (t : PrefixTable) (p : Parameter) (e : String × Node) : Prop :=
  (∃ iri, s.Settled t e.1 iri) ∧ s.Means t { position := .parameter } e.2 p.value

/-- The node of a name and a value. -/
def parameterEntry (e : String × Node) : Entry :=
  entry e.1 e.2

theorem exists_firmParameters {es : List (String × Node)}
    (h : List.Forall₂ (s.MeansParameter t) ps es) :
    ∃ qs, List.Forall₂ (s.FirmParameter t) (es.map parameterEntry) qs := by
  induction h with
  | nil => exact ⟨[], .nil⟩
  | @cons p e _ _ hp _ ih =>
    obtain ⟨qs, hqs⟩ := ih
    obtain ⟨⟨iri, hiri⟩, hmeans⟩ := hp
    obtain ⟨got, -, hreads⟩ := hmeans.reads
    exact ⟨⟨iri, got⟩ :: qs,
      .cons ⟨fun u hu place => (readIri_ofText place).2 (hiri u hu), hreads⟩ hqs⟩

/-- Parameters are read back in either form. -/
theorem readParameters_writeParameterList {es : List (String × Node)}
    (h : ∀ e ∈ es, IsSingle e.2) (place : Place) :
    readParameters (some (writeParameterList es)) place = pure (es.map parameterEntry) := by
  unfold writeParameterList
  split
  · have hplain : ∀ e ∈ es.map parameterEntry, e.key.target = e.key ∧ e.value.target = e.value := by
      intro e he
      obtain ⟨e', he', rfl⟩ := List.mem_map.1 he
      exact ⟨rfl, (h e' he').target⟩
    exact congrArg pure (entries_ofEntries hplain)
  · -- each pair is a list of the name and the value
    have hpair (e : String × Node) (he : IsSingle e.2) (place : Place) :
        readParameter (compactList [.ofText e.1, e.2]) place = pure (parameterEntry e) := by
      rw [readParameter, if_pos (isSequence_compactList _), items_compactList, List.map_cons,
        List.map_singleton, he.target]
      rfl
    have hitems : (Node.blockList (es.map fun e => compactList [.ofText e.1, e.2])).items =
        es.map fun e => compactList [.ofText e.1, e.2] := by
      change (es.map _).map _ = _
      rw [List.map_map]
      exact List.map_congr_left fun e _ => target_compactList _
    change Logged.those ((Node.blockList _).items.mapIdx _) = _
    rw [hitems]
    refine Logged.those_eq_pure (forall₂_mapIdx_left ?_)
    rw [List.forall₂_map_left_iff, List.forall₂_map_right_iff, List.forall₂_same]
    exact fun e he i => hpair e (h e he) _

theorem firmParameters_writeParameterList {es : List (String × Node)}
    (h : List.Forall₂ (s.MeansParameter t) ps es) :
    s.FirmParameters t (some (writeParameterList es)) := by
  obtain ⟨qs, hqs⟩ := exists_firmParameters h
  exact ⟨es.map parameterEntry, qs, readParameters_writeParameterList
    (forall_mem_right h fun _ _ hp => hp.2.single), hqs⟩

theorem target_writeParameterList (es : List (String × Node)) :
    (writeParameterList es).target = writeParameterList es := by
  unfold writeParameterList
  split <;> rfl

/-- A condition is read back from its two fields. -/
theorem readCondition_fields (c : JoinCondition) (place : Place) :
    readCondition (.mapping {} true [entry "child" (.ofText c.child),
      entry "parent" (.ofText c.parent)]) place =
        pure ⟨referenceName c.child, referenceName c.parent⟩ := by
  let parts : List (ConditionKey × String × Option Node) :=
    [(.child, "child", some (.ofText c.child)), (.parent, "parent", some (.ofText c.parent))]
  have hparts : readKeys conditionKeys (.ofEntries (partEntries parts)) place =
      pure (keyedParts parts) := by
    refine readKeys_parts ?_ ?_ place
    · simp only [parts, List.forall_mem_cons]
      decide +kernel
    · show [ConditionKey.child, .parent].Nodup
      decide
  -- a mapping on one line has the same entries
  have hkeys : readKeys conditionKeys (.mapping {} true [entry "child" (.ofText c.child),
      entry "parent" (.ofText c.parent)]) place = pure (keyedParts parts) := hparts
  rw [readCondition, hkeys]
  rfl

/-- What is written for join conditions is read without regard to prefixes. -/
theorem readConditions_writeConditions (cs : List JoinCondition) (place : Place) :
    readConditions (some (writeConditions cs)) place =
      pure (cs.map fun c => ⟨referenceName c.child, referenceName c.parent⟩) := by
  have hitems : (writeConditions cs).items = cs.map fun c => .mapping {} true
      [entry "child" (.ofText c.child), entry "parent" (.ofText c.parent)] := by
    refine items_single (fun _ => rfl) fun n hn => ?_
    obtain ⟨c, -, rfl⟩ := List.mem_map.1 hn
    exact ⟨rfl, rfl⟩
  change Logged.those (((writeConditions cs).items.mapIdx _).filter _ |>.map _) = _
  rw [hitems, List.filter_eq_self.2]
  · refine Logged.those_eq_pure ?_
    rw [List.forall₂_map_left_iff]
    refine forall₂_mapIdx_left ?_
    rw [List.forall₂_map_left_iff, List.forall₂_map_right_iff, List.forall₂_same]
    exact fun c _ i => readCondition_fields c _
  · intro p hp
    obtain ⟨i, hi, rfl⟩ := List.mem_mapIdx.1 hp
    rw [List.getElem_map]
    rfl

/-! ## Writing -/

theorem firmPart_datatype {iri : String} (h : s.SpellsOptional iri text t) (hne : text ≠ "") :
    s.FirmPart t tm .datatype (.ofText text) :=
  h.elim (fun h => absurd h.2 hne) fun h => h.2.settled

theorem ensures_writeAttributes (hs : s.Sound) (hc : s.Covers t) (site : Site) (tm : TermMap) :
    Ensures s (writeAttributes s site tm) t fun es u => s.FirmEntries u tm es := by
  unfold writeAttributes
  refine ensures_optionalIri hs hc fun datatype u _ hdatatype => .pure ?_
  refine FirmEntries.append (FirmEntries.append ?_ ?_) ?_
  · split
    · exact fun e he => absurd he List.not_mem_nil
    · exact firmEntries_entry (lookup_name_termKeys .type) rfl trivial
  · exact firmEntries_textEntry (lookup_name_termKeys .datatype) (firmPart_datatype hdatatype)
  · exact firmEntries_textEntry (lookup_name_termKeys .language) fun _ => trivial

/-- A constant is written with firm names. -/
theorem ensures_writeConstant (hs : s.Sound) (hc : s.Covers t) (term : Constant) :
    Ensures s (writeConstant s term) t fun es u =>
      ∀ tm, tm.value = some (.constant term) → s.FirmEntries u tm es := by
  unfold writeConstant
  refine Ensures.ite_bind (Q := fun text u => term.kind = .iri → s.Firm u text term.value)
    (fun _ => (ensures_iriText hs hc term.value).mono fun text u _ h _ => h.firm)
    (fun hkind => .pure fun h => absurd h hkind) fun value u hu hvalue => ?_
  refine ensures_optionalIri hs (hc.grows hu) fun datatype v hv hdatatype =>
    .pure fun tm htm => ?_
  have hconstant : s.FirmText v value tm := by
    intro meant hm
    rw [TermMap.meaning?, htm] at hm
    dsimp only at hm
    split at hm
    · next hkind =>
      cases hm
      exact (hvalue hkind).grows hv
    · cases hm
  have hfirst : s.FirmEntries v tm [entry "constant" (.ofText value)] :=
    firmEntries_entry (lookup_name_termKeys .constant) rfl hconstant
  refine FirmEntries.append (FirmEntries.append hfirst ?_) ?_
  · exact firmEntries_textEntry (lookup_name_termKeys .datatype) (firmPart_datatype hdatatype)
  · exact firmEntries_textEntry (lookup_name_termKeys .language) fun _ => trivial

/-- A function is written with firm names. -/
theorem ensures_writeFunction (hs : s.Sound) (hc : s.Covers t) (iri : String)
    {es : List (String × Node)} (hes : List.Forall₂ (s.MeansParameter t) ps es) :
    Ensures s (writeFunction s iri es) t fun fs u => ∀ tm, s.FirmEntries u tm fs := by
  unfold writeFunction
  refine (ensures_iriText hs hc iri).bind fun function u hu hfunction => .pure fun tm => ?_
  have hfirst : s.FirmEntries u tm [entry "function" (.ofText function)] :=
    firmEntries_entry (lookup_name_termKeys .function) rfl hfunction.settled
  have hrest : s.FirmEntries u tm
      (if es.isEmpty then [] else [entry "parameters" (writeParameterList es)]) := by
    split
    · exact fun e he => absurd he List.not_mem_nil
    · exact firmEntries_entry (lookup_name_termKeys .parameters) (target_writeParameterList es)
        ((firmParameters_writeParameterList hes).grows hu)
  exact hfirst.append hrest

/-- A term map is written as a scalar, or else with the entries of its value. -/
theorem ensures_writeTermWith (hs : s.Sound) (hc : s.Covers t) (site : Site) (tm : TermMap)
    {value : Writing (List Entry)}
    (hvalue : ∀ u, s.Grows t u → Ensures s value u fun es v => s.FirmEntries v tm es) :
    Ensures s (writeTermWith s site tm value) t fun n u => s.Means u site n tm := by
  unfold writeTermWith
  refine (ensures_candidates hs hc site tm).bind fun texts u hu htexts => ?_
  refine Ensures.get.bind fun v w _ hvw => ?_
  obtain ⟨rfl, rfl⟩ := hvw
  split
  · next n hn =>
    unfold firstScalar? at hn
    obtain ⟨text, htext, rfl⟩ := List.mem_map.1 (List.mem_of_find?_eq_some hn)
    have hread := List.find?_some hn
    exact .pure (means_of_firmText hs (htexts text htext) hread)
  · -- the mapping was checked with the prefixes declared by then, and its entries are firm
    refine (hvalue _ hu).bind fun es v hv hes => ?_
    refine (ensures_writeAttributes hs ((hc.grows hu).grows hv) site tm).bind
      fun fs w hw hfs => ?_
    refine Ensures.get.bind fun x y _ hxy => ?_
    obtain ⟨rfl, rfl⟩ := hxy
    split
    · next hread => exact .pure (means_of_firmEntries hs ((hes.grows hw).append hfs) hread)
    · exact .throw _

mutual

/-- **What is written for a term map means it.** -/
theorem ensures_writeTerm (hs : s.Sound) : ∀ (tm : TermMap) {t : PrefixTable} (site : Site),
    s.Covers t → Ensures s (writeTerm s site tm) t fun n u => s.Means u site n tm
  | ⟨none, type, datatype, language, span⟩, t, site, hc => by
    rw [writeTerm]
    exact ensures_writeTermWith hs hc site _ fun u _ => .throw _
  | ⟨some value, type, datatype, language, span⟩, t, site, hc => by
    rw [writeTerm]
    refine ensures_writeTermWith hs hc site _ fun u hu => ?_
    exact (ensures_writeValue hs value (hc.grows hu)).mono fun es v _ hes => hes _ rfl

/-- The entries that are written for a value are firm. -/
theorem ensures_writeValue (hs : s.Sound) : ∀ (value : Value) {t : PrefixTable}, s.Covers t →
    Ensures s (writeValue s value) t fun es u =>
      ∀ tm, tm.value = some value → s.FirmEntries u tm es
  | .constant term, t, hc => by
    rw [writeValue]
    exact ensures_writeConstant hs hc term
  | .reference name, t, hc => by
    rw [writeValue]
    exact .pure fun tm _ => firmEntries_entry (lookup_name_termKeys .reference) rfl trivial
  | .template pattern, t, hc => by
    rw [writeValue]
    refine .pure fun tm htm =>
      firmEntries_entry (lookup_name_termKeys .template) rfl fun meant hm => ?_
    rw [TermMap.meaning?, htm] at hm
    cases hm
    exact firm_self s t pattern
  | .function iri parameters, t, hc => by
    rw [writeValue]
    refine (ensures_writeParameters hs parameters hc).bind fun es u hu hes => ?_
    exact (ensures_writeFunction hs (hc.grows hu) iri hes).mono fun fs v _ hfs tm _ => hfs tm
  | .join parent conditions, t, hc => by
    rw [writeValue]
    refine .pure fun tm _ => ?_
    have hparent : s.FirmEntries t tm [entry "mapping" (.ofText parent)] :=
      firmEntries_entry (lookup_name_termKeys .mapping) rfl trivial
    refine hparent.append (firmEntries_entry (lookup_name_termKeys .condition) ?_ ?_)
    · refine target_single (fun _ => rfl) fun n hn => ?_
      obtain ⟨c, -, rfl⟩ := List.mem_map.1 hn
      exact ⟨rfl, rfl⟩
    · exact ⟨_, readConditions_writeConditions conditions⟩

/-- The names and values that are written for parameters mean them. -/
theorem ensures_writeParameters (hs : s.Sound) : ∀ (ps : List Parameter) {t : PrefixTable},
    s.Covers t → Ensures s (writeParameters s ps) t fun es u =>
      List.Forall₂ (s.MeansParameter u) ps es
  | [], t, hc => by
    rw [writeParameters]
    exact .pure .nil
  | ⟨name, value⟩ :: rest, t, hc => by
    rw [writeParameters]
    refine (ensures_iriText hs hc name).bind fun key u hu hkey => ?_
    refine (ensures_writeTerm hs value _ (hc.grows hu)).bind fun n v hv hn => ?_
    refine (ensures_writeParameters hs rest ((hc.grows hu).grows hv)).bind fun es w hw hes => ?_
    exact .pure (.cons ⟨(hkey.grows (hv.trans hw)).settled, hn.grows hw⟩ hes)

end

theorem ensures_writeTerms (hs : s.Sound) (hc : s.Covers t) (site : Site) (tms : List TermMap) :
    Ensures s (writeTerms s site tms) t fun ns u =>
      List.Forall₂ (fun tm n => s.Means u site n tm) tms ns :=
  .mapM (fun _ _ _ _ hg h => h.grows hg) fun tm _ _ hu => ensures_writeTerm hs tm site (hc.grows hu)

end Style

end Shorthand

end RdfMapping
