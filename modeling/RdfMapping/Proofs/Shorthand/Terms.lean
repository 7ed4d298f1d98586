/-
# Terms that are read back

What is written for a term map is checked against the prefixes declared so far.  The names in it are
firm, so it is read as the same term map with all prefixes declared later.
-/
import RdfMapping.Proofs.Shorthand.Stability

namespace RdfMapping.Shorthand

open Iri (PrefixTable)
open Mapping
open Yaml (Node Entry)

variable {es : List Entry} {d : Draft} {place : Place} {scope : Scope}

/-! ## Drafts of mappings -/

section Drafts

variable {scope : Scope} {site : Site} {n : Node} {place place' : Place} {keys : Keyed TermKey}
  {k : TermKey} {text : String}

/-- What the draft of a mapping is read from; `k` names the value class. -/
structure DraftedBy (scope : Scope) (site : Site) (n : Node) (place : Place) (d : Draft)
    (keys : Keyed TermKey) (k : TermKey) (suffix : Option TermType) : Prop where
  parts : readKeys termKeys n place = pure keys
  key : readValueKey n keys place = pure k
  stray : noteStrayParts keys k place = pure ()
  value : readValue scope site n place keys
    (fun m _ => readTerm scope { position := .parameter } m) k = pure (d.value, suffix)
  stated : readStatedType keys suffix place = pure d.stated
  datatype : readOptionalPart keys .datatype place = pure d.datatype
  language : readOptionalPart keys .language place = pure d.language
  span : d.span = n.span

theorem readDraft_ofEntries (scope : Scope) (site : Site) (es : List Entry) (place : Place) :
    readDraft scope site (.ofEntries es) place =
      draftParts scope site (.ofEntries es) place fun m _ =>
        readTerm scope { position := .parameter } m := rfl

/-- What it means for a draft to be read from a mapping. -/
theorem readDraft_eq_pure_iff :
    readDraft scope site (.ofEntries es) place = pure d ↔
      ∃ keys k suffix, DraftedBy scope site (.ofEntries es) place d keys k suffix := by
  rw [readDraft_ofEntries]
  unfold draftParts
  dsimp only
  simp only [Attempt.bind_eq_pure_iff, Attempt.lift_eq_pure_iff, Logged.tell_eq_pure_iff]
  constructor
  · rintro ⟨-, hnotes, k, hk, ⟨⟩, hstray, ⟨value, suffix⟩, hvalue, stated, hstated, datatype,
      hdatatype, language, hlanguage, hd⟩
    cases Attempt.pure_inj.1 hd
    exact ⟨_, k, suffix, Logged.eq_pure_iff.2 ⟨rfl, hnotes⟩, hk, hstray, hvalue, hstated, hdatatype,
      hlanguage, rfl⟩
  · rintro ⟨keys, k, suffix, h⟩
    obtain ⟨hkeys, hnotes⟩ := Logged.eq_pure_iff.1 h.parts
    rw [hkeys]
    refine ⟨(), hnotes, k, h.key, (), h.stray, (d.value, suffix), h.value, d.stated, h.stated,
      d.datatype, h.datatype, d.language, h.language, ?_⟩
    rw [← h.span]

/-! ### Parts without names in them -/

theorem mem_of_readValueKey (h : readValueKey n keys place = pure k) :
    k ∈ valueKeys ∧ ∃ e, keys.get? k = some e := by
  unfold readValueKey at h
  split at h
  · exact absurd h refuse_ne_pure
  · next k' hfilter =>
    cases Attempt.pure_inj.1 h
    have hmem : k ∈ valueKeys.filter fun k => (keys.get? k).isSome := by
      rw [hfilter]
      exact List.mem_singleton_self k
    obtain ⟨hk, hsome⟩ := List.mem_filter.1 hmem
    exact ⟨hk, Option.isSome_iff_exists.1 hsome⟩
  · exact absurd h refuse_ne_pure

theorem readValueKey_eq_pure (h : readValueKey n keys place = pure k) :
    readValueKey n keys place' = pure k := by
  unfold readValueKey at h ⊢
  split at h
  · exact absurd h refuse_ne_pure
  · exact h
  · exact absurd h refuse_ne_pure

theorem noteStrayParts_eq_pure_iff : noteStrayParts keys k place = pure () ↔
    ((keys.get? .parameters).isSome = true → k = .function) ∧
      ((keys.get? .condition).isSome = true → k = .mapping) := by
  unfold noteStrayParts
  dsimp only
  cases keys.get? .parameters with
  | none => cases keys.get? .condition <;> simp [note_ne_pure]
  | some p =>
    by_cases hk : k = .function
    · cases keys.get? .condition <;> simp [hk, note_ne_pure]
    · simp [hk, Logged.bind_eq_pure_iff, note_ne_pure]

theorem readTermPart_eq_pure (h : readTermPart keys k place = pure text) :
    readTermPart keys k place' = pure text :=
  readScalar_eq_pure_iff.2 (readScalar_eq_pure_iff.1 h)

theorem readOptionalPart_eq_pure (h : readOptionalPart keys k place = pure text) :
    readOptionalPart keys k place' = pure text := by
  unfold readOptionalPart at h ⊢
  split at h
  · next hsome =>
    rw [if_pos hsome]
    exact readTermPart_eq_pure h
  · next hnone =>
    rw [if_neg hnone]
    exact h

/-- A stated kind is read alike at every place. -/
theorem readStatedType_eq_pure {suffix stated : Option TermType}
    (h : readStatedType keys suffix place = pure stated) :
    readStatedType keys suffix place' = pure stated := by
  unfold readStatedType at h ⊢
  split at h
  · next hsome =>
    rw [if_pos hsome]
    obtain ⟨name, hname, hrest⟩ := Attempt.bind_eq_pure_iff.1 h
    rw [readTermPart_eq_pure hname, pure_bind]
    split at hrest
    · exact absurd hrest refuse_ne_pure
    · split at hrest
      · split at hrest
        · exact absurd hrest refuse_ne_pure
        · next hother =>
          rw [if_neg hother]
          exact hrest
      · exact hrest
  · next hnone =>
    rw [if_neg hnone]
    exact h

/-! ### Functions and joins -/

/-- A function is read from its name and its parameters. -/
theorem readFunction_eq_pure {function parameters : Option Node} {iri : String}
    {ps : List Parameter} (hiri : scope.readIri function (place.sub "function") = pure iri)
    (hes : readParameters parameters place = pure es)
    (hps : List.Forall₂ (fun e p => ∀ place, scope.readIri (some e.key) place = pure p.predicate ∧
      readTerm scope { position := .parameter } e.value place = pure p.value) es ps) :
    readFunction scope function parameters place
      (fun m _ => readTerm scope { position := .parameter } m) = pure (.function iri ps) := by
  obtain ⟨rfl, hnotes⟩ := Logged.eq_pure_iff.1 hes
  refine Attempt.bind_eq_pure_iff.2 ⟨iri, hiri, Attempt.bind_eq_pure_iff.2 ⟨(), ?_, ?_⟩⟩
  · exact Attempt.lift_eq_pure_iff.2 (Logged.tell_eq_pure_iff.2 hnotes)
  refine Attempt.bind_eq_pure_iff.2 ⟨ps, Attempt.all_eq_pure (forall₂_mapIdx_left ?_), rfl⟩
  rw [← List.attach_map_subtype_val (readParameters parameters place).value,
    List.forall₂_map_left_iff] at hps
  refine hps.imp fun e p h i => ?_
  obtain ⟨predicate, value⟩ := p
  dsimp only
  rw [Attempt.both_eq_pure_iff.2 (h _), pure_bind]

/-- A join is read from its parent and its conditions. -/
theorem readJoin_eq_pure {cs : List JoinCondition} {value : Value}
    (hcs : ∀ place, readConditions (keys.value? .condition) place = pure cs)
    (h : readJoin n keys site place = pure value) : readJoin n keys site place' = pure value := by
  unfold readJoin at h ⊢
  split at h
  · exact absurd h refuse_ne_pure
  · next hobject =>
    rw [if_neg hobject]
    obtain ⟨parent, hparent, hrest⟩ := Attempt.bind_eq_pure_iff.1 h
    obtain ⟨conditions, hlift, hvalue⟩ := Attempt.bind_eq_pure_iff.1 hrest
    cases (hcs place).symm.trans (Attempt.lift_eq_pure_iff.1 hlift)
    split at hvalue
    · exact absurd hvalue refuse_ne_pure
    · next hsome =>
      refine Attempt.bind_eq_pure_iff.2 ⟨parent, readTermPart_eq_pure hparent, ?_⟩
      refine Attempt.bind_eq_pure_iff.2 ⟨cs, Attempt.lift_eq_pure_iff.2 (hcs place'), ?_⟩
      rw [if_neg hsome]
      exact hvalue

end Drafts

/-! ## Parts with firm names -/

namespace Style

variable {s : Style} {t u : PrefixTable} {site : Site} {n : Node} {tm got : TermMap}
  {text : String}

/-- A node that is read as a term map from now on. -/
def Reads (s : Style) (t : PrefixTable) (site : Site) (n : Node) (got : TermMap) : Prop :=
  ∀ u, s.Grows t u → ∀ place, readTerm (s.scope u) site n place = pure got

theorem Reads.grows (h : s.Reads t site n got) (hg : s.Grows t u) : s.Reads u site n got :=
  fun v hv => h v (hg.trans hv)

/-- A parameter that is read whatever prefixes are declared. -/
structure FirmParameter (s : Style) (t : PrefixTable) (e : Entry) (p : Parameter) : Prop where
  predicate : ∀ u, s.Grows t u → ∀ place, (s.scope u).readIri (some e.key) place = pure p.predicate
  value : s.Reads t { position := .parameter } e.value p.value

/-- Parameters that are read whatever prefixes are still declared. -/
def FirmParameters (s : Style) (t : PrefixTable) (n : Option Node) : Prop :=
  ∃ es ps, (∀ place, readParameters n place = pure es) ∧ List.Forall₂ (s.FirmParameter t) es ps

/-- A part of a mapping that means the same whatever prefixes are still declared. -/
def FirmPart (s : Style) (t : PrefixTable) (tm : TermMap) : TermKey → Node → Prop
  | .value, _ => False
  | .constant, n | .template, n => s.FirmText t n.target.text tm
  | .function, n | .datatype, n => ∃ iri, s.Settled t n.target.text iri
  | .parameters, n => s.FirmParameters t (some n)
  | .condition, n => ∃ cs, ∀ place, readConditions (some n) place = pure cs
  | .reference, _ | .mapping, _ | .type, _ | .language, _ => True

theorem FirmParameters.grows {n : Option Node} (h : s.FirmParameters t n) (hg : s.Grows t u) :
    s.FirmParameters u n := by
  obtain ⟨es, ps, hes, hps⟩ := h
  exact ⟨es, ps, hes, hps.imp fun e p hp =>
    ⟨fun v hv => hp.predicate v (hg.trans hv), hp.value.grows hg⟩⟩

theorem FirmPart.grows {k : TermKey} (h : s.FirmPart t tm k n) (hg : s.Grows t u) :
    s.FirmPart u tm k n := by
  cases k with
  | value => exact h
  | constant | template => exact FirmText.grows h hg
  | function | datatype => exact h.imp fun _ hi => hi.grows hg
  | parameters => exact FirmParameters.grows h hg
  | condition => exact h
  | reference | mapping | type | language => trivial

section Parts

variable {keys : Keyed TermKey} {k : TermKey} {value : Value} {suffix : Option TermType}

theorem text_of_readTermPart (h : readTermPart keys k place = pure text) :
    ∃ n, keys.value? k = some n ∧ n.target.text = text := by
  obtain ⟨n, hn, -, -, htext⟩ := readScalar_eq_pure_iff.1 h
  exact ⟨n, hn, htext⟩

/-- A name that is read is read at every place from now on. -/
theorem readIri_grows {iri iri' : String} (hn : s.Settled t n.target.text iri)
    (h : (s.scope t).readIri (some n) place = pure iri') (hg : s.Grows t u) (place' : Place) :
    (s.scope u).readIri (some n) place' = pure iri := by
  obtain ⟨text, htext, -⟩ := Attempt.bind_eq_pure_iff.1 h
  obtain ⟨m, hm, hnull, hscalar, hm'⟩ := readScalar_eq_pure_iff.1 htext
  cases hm
  refine Attempt.bind_eq_pure_iff.2
    ⟨text, readScalar_eq_pure_iff.2 ⟨n, rfl, hnull, hscalar, hm'⟩, ?_⟩
  rw [← hm', hn u hg]

theorem firmParameters_value? (hfirm : ∀ k n, keys.value? k = some n → s.FirmPart t tm k n) :
    s.FirmParameters t (keys.value? .parameters) := by
  cases hn : keys.value? .parameters with
  | none => exact ⟨[], [], fun _ => rfl, .nil⟩
  | some n => exact hfirm _ n hn

/-- A function with firm parts is read from now on. -/
theorem readFunction_grows (hfirm : ∀ k n, keys.value? k = some n → s.FirmPart t tm k n)
    (h : readFunction (s.scope t) (keys.value? .function) (keys.value? .parameters)
      place (fun m _ => readTerm (s.scope t) { position := .parameter } m) = pure value) :
    value.text? = none ∧ ∀ u, s.Grows t u → ∀ place', readFunction (s.scope u)
      (keys.value? .function) (keys.value? .parameters) place'
        (fun m _ => readTerm (s.scope u) { position := .parameter } m) = pure value := by
  obtain ⟨es, ps, hes, hps⟩ := firmParameters_value? hfirm
  obtain ⟨iri', hiri', -⟩ := Attempt.bind_eq_pure_iff.1 h
  obtain ⟨name, hname, -⟩ := Attempt.bind_eq_pure_iff.1 hiri'
  obtain ⟨n, hn, -⟩ := readScalar_eq_pure_iff.1 hname
  obtain ⟨iri, hiri⟩ : ∃ iri, s.Settled t n.target.text iri := hfirm .function n hn
  have hread (u : PrefixTable) (hu : s.Grows t u) (place' : Place) : readFunction (s.scope u)
      (keys.value? .function) (keys.value? .parameters) place'
        (fun m _ => readTerm (s.scope u) { position := .parameter } m) =
          pure (.function iri ps) := by
    refine readFunction_eq_pure ?_ (hes place') (hps.imp fun e p hp place =>
      ⟨hp.predicate u hu place, hp.value u hu place⟩)
    rw [hn] at hiri' ⊢
    exact readIri_grows hiri hiri' hu _
  -- the function was read once already
  cases Attempt.pure_inj.1 ((hread t (.refl s t) place).symm.trans h)
  exact ⟨rfl, hread⟩

/-- A join is read from now on, and has no text. -/
theorem readJoin_grows (hfirm : ∀ k n, keys.value? k = some n → s.FirmPart t tm k n)
    (h : readJoin n keys site place = pure value) :
    value.text? = none ∧ ∀ place', readJoin n keys site place' = pure value := by
  obtain ⟨cs, hcs⟩ : ∃ cs, ∀ place, readConditions (keys.value? .condition) place = pure cs := by
    cases hn : keys.value? .condition with
    | none => exact ⟨[], fun _ => rfl⟩
    | some n => exact hfirm _ n hn
  refine ⟨?_, fun place' => readJoin_eq_pure hcs h⟩
  unfold readJoin at h
  split at h
  · exact absurd h refuse_ne_pure
  · obtain ⟨parent, -, hrest⟩ := Attempt.bind_eq_pure_iff.1 h
    obtain ⟨conditions, -, hvalue⟩ := Attempt.bind_eq_pure_iff.1 hrest
    split at hvalue
    · exact absurd hvalue refuse_ne_pure
    · cases Attempt.pure_inj.1 hvalue
      rfl

/-- The value of a mapping whose parts are firm is read at every place and time. -/
theorem readValue_grows (hfirm : ∀ k n, keys.value? k = some n → s.FirmPart t tm k n)
    (hk : k ∈ valueKeys) {e : Entry} (he : keys.get? k = some e)
    (h : readValue (s.scope t) site n place keys
      (fun m _ => readTerm (s.scope t) { position := .parameter } m) k = pure (value, suffix)) :
    (∀ u, s.Grows t u → ∀ place', readValue (s.scope u) site n place' keys
      (fun m _ => readTerm (s.scope u) { position := .parameter } m) k = pure (value, suffix)) ∧
      ∀ text, value.text? = some text → s.FirmText t text tm := by
  have hvalue : keys.value? k = some e.value := congrArg (Option.map Entry.value) he
  simp only [valueKeys, List.mem_cons, List.not_mem_nil, or_false] at hk
  rcases hk with rfl | rfl | rfl | rfl | rfl | rfl
  · exact (hfirm _ _ hvalue).elim
  · obtain ⟨text, htext, hpure⟩ := Attempt.bind_eq_pure_iff.1 h
    obtain ⟨n', hn', rfl⟩ := text_of_readTermPart htext
    cases Attempt.pure_inj.1 hpure
    refine ⟨fun u _ place' => ?_, fun name hname => ?_⟩
    · exact Attempt.bind_eq_pure_iff.2 ⟨_, readTermPart_eq_pure htext, rfl⟩
    · cases hname
      exact hfirm .constant n' hn'
  · obtain ⟨text, htext, hpure⟩ := Attempt.bind_eq_pure_iff.1 h
    cases Attempt.pure_inj.1 hpure
    refine ⟨fun u _ place' => ?_, fun name hname => ?_⟩
    · exact Attempt.bind_eq_pure_iff.2 ⟨_, readTermPart_eq_pure htext, rfl⟩
    · cases hname
  · obtain ⟨text, htext, hpure⟩ := Attempt.bind_eq_pure_iff.1 h
    obtain ⟨n', hn', rfl⟩ := text_of_readTermPart htext
    cases hparse : Template.parse n'.target.text with
    | error e =>
      rw [hparse] at hpure
      exact absurd hpure refuse_ne_pure
    | ok segments =>
      rw [hparse] at hpure
      cases Attempt.pure_inj.1 hpure
      refine ⟨fun u _ place' => ?_, fun name hname => ?_⟩
      · refine Attempt.bind_eq_pure_iff.2 ⟨_, readTermPart_eq_pure htext, ?_⟩
        rw [hparse]
      · cases hname
        exact hfirm .template n' hn'
  · obtain ⟨v, hv, hpure⟩ := Attempt.bind_eq_pure_iff.1 h
    cases Attempt.pure_inj.1 hpure
    obtain ⟨htext, hread⟩ := readFunction_grows hfirm hv
    refine ⟨fun u hu place' => ?_, fun name hname => ?_⟩
    · exact Attempt.bind_eq_pure_iff.2 ⟨_, hread u hu place', rfl⟩
    · rw [htext] at hname
      cases hname
  · obtain ⟨v, hv, hpure⟩ := Attempt.bind_eq_pure_iff.1 h
    cases Attempt.pure_inj.1 hpure
    obtain ⟨htext, hread⟩ := readJoin_grows hfirm hv
    refine ⟨fun u hu place' => ?_, fun name hname => ?_⟩
    · exact Attempt.bind_eq_pure_iff.2 ⟨_, hread place', rfl⟩
    · rw [htext] at hname
      cases hname

/-- **A mapping whose parts are firm has the same draft from now on.** -/
theorem readDraft_grows
    (hfirm : ∀ e ∈ (Node.ofEntries es).entries, ∀ k, termKeys.find? e = some k →
      s.FirmPart t tm k e.value) (h : readDraft (s.scope t) site (.ofEntries es) place = pure d) :
    (∀ u, s.Grows t u → ∀ place', readDraft (s.scope u) site (.ofEntries es) place' = pure d) ∧
      s.FirmDraft t d tm := by
  obtain ⟨keys, k, suffix, hd⟩ := readDraft_eq_pure_iff.1 h
  have hkeys (k : TermKey) (n : Node) (hn : keys.value? k = some n) : s.FirmPart t tm k n := by
    obtain ⟨e, he, rfl⟩ := Option.map_eq_some_iff.1 hn
    obtain ⟨hmem, hfind⟩ := find?_of_get? hd.parts he
    exact hfirm e hmem k hfind
  -- of the parts, only the value depends on the prefixes
  obtain ⟨hk, e, he⟩ := mem_of_readValueKey hd.key
  obtain ⟨hvalue, htexts⟩ := readValue_grows hkeys hk he hd.value
  refine ⟨fun u hu place' => readDraft_eq_pure_iff.2 ⟨keys, k, suffix, ?_⟩, ?_, htexts⟩
  · exact ⟨readKeys_eq_pure hd.parts, readValueKey_eq_pure hd.key,
      noteStrayParts_eq_pure_iff.2 (noteStrayParts_eq_pure_iff.1 hd.stray), hvalue u hu place',
      readStatedType_eq_pure hd.stated, readOptionalPart_eq_pure hd.datatype,
      readOptionalPart_eq_pure hd.language, hd.span⟩
  · have hdatatype := hd.datatype
    unfold readOptionalPart at hdatatype
    split at hdatatype
    · obtain ⟨n, hn, htext⟩ := text_of_readTermPart hdatatype
      rw [← htext]
      exact .inr (hkeys .datatype n hn)
    · exact .inl (Attempt.pure_inj.1 hdatatype).symm

end Parts

/-! ## Completion -/

theorem complete_of_readCompletion (h : readCompletion scope site d n place = pure got) :
    scope.complete site d = .ok got := by
  unfold readCompletion at h
  split at h
  · next tm' htm =>
    cases Attempt.pure_inj.1 h
    exact htm
  · exact absurd h refuse_ne_pure

theorem readCompletion_eq_pure (h : scope.complete site d = .ok got) (n : Node) (place : Place) :
    readCompletion scope site d n place = pure got := by
  rw [readCompletion, h]

/-- A node with the same firm draft from now on is read as the same term map. -/
theorem reads_of_firmDraft (hs : s.Sound)
    (hdraft : ∀ u, s.Grows t u → ∀ place, readDraft (s.scope u) site n place = pure d)
    (hfirm : s.FirmDraft t d got) (h : (s.scope t).complete site d = .ok got) :
    s.Reads t site n got := by
  intro u hu place
  rw [readTerm_eq, hdraft u hu place, pure_bind]
  exact readCompletion_eq_pure (complete_grows hs hu hfirm h) n place

/-- **A mapping whose parts are firm is read as the same term map from now on.** -/
theorem reads_of_firmParts (hs : s.Sound)
    (hfirm : ∀ e ∈ (Node.ofEntries es).entries, ∀ k, termKeys.find? e = some k →
      s.FirmPart t got k e.value) (h : readTerm (s.scope t) site (.ofEntries es) place = pure got) :
    s.Reads t site (.ofEntries es) got := by
  rw [readTerm_eq] at h
  obtain ⟨d, hd, hcompletion⟩ := Attempt.bind_eq_pure_iff.1 h
  obtain ⟨hdraft, hfirm'⟩ := readDraft_grows hfirm hd
  exact reads_of_firmDraft hs hdraft hfirm' (complete_of_readCompletion hcompletion)

/-! ### Scalars -/

/-- The draft of a scalar does not depend on the prefixes. -/
theorem readDraft_ofText_eq_pure_iff :
    readDraft scope site (.ofText text) place = pure d ↔
      ∃ d', draftScalar text = .ok d' ∧ d = { d' with span := {} } := by
  have hnull : (Node.ofText text).isNull = false := rfl
  have hscalar : (Node.ofText text).isScalar = true := rfl
  have htext : (Node.ofText text).text = text := rfl
  rw [readDraft, draftNode, hnull, if_neg Bool.false_ne_true, if_pos hscalar, htext]
  cases draftScalar text with
  | ok d' =>
    constructor
    · exact fun h => ⟨d', rfl, (Attempt.pure_inj.1 h).symm⟩
    · rintro ⟨d'', hd'', rfl⟩
      cases hd''
      rfl
  | error e =>
    constructor
    · exact fun h => absurd h refuse_ne_pure
    · rintro ⟨d'', hd'', -⟩
      cases hd''

/-- **A firm scalar is read as the same term map from now on.** -/
theorem reads_of_firmText (hs : s.Sound) (hfirm : s.FirmText t text got)
    (h : readTerm (s.scope t) site (.ofText text) place = pure got) :
    s.Reads t site (.ofText text) got := by
  rw [readTerm_eq] at h
  obtain ⟨d, hd, hcompletion⟩ := Attempt.bind_eq_pure_iff.1 h
  obtain ⟨d', hscalar, rfl⟩ := readDraft_ofText_eq_pure_iff.1 hd
  refine reads_of_firmDraft hs (fun u _ place' => ?_) (firmDraft_of_scalar hfirm hscalar {})
    (complete_of_readCompletion hcompletion)
  exact readDraft_ofText_eq_pure_iff.2 ⟨d', hscalar, rfl⟩

end Style

end RdfMapping.Shorthand
