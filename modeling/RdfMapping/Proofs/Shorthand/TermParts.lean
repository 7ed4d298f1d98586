/-
# Terms that are written

A term map that no scalar stands for is written as a mapping that names its value class.  The parts
of such a mapping are read back one by one.
-/
import RdfMapping.Proofs.Shorthand.Spellable

namespace RdfMapping.Shorthand

open Iri (PrefixTable)
open Mapping
open Yaml (Node Entry)

variable {k : TermKey} {value : Value} {term : Constant} {pattern : String}
  {known : String → Prop}

variable {site : Site} {tm : TermMap} {text : String}

/-! ## Mappings -/

/-- The entries of the parts of a term that are there. -/
def termEntries (ps : List (TermKey × Option Node)) : List Entry :=
  partEntries (ps.map fun p => (p.1, termKeys.name p.1, p.2))

theorem termEntries_nil : termEntries [] = [] := rfl

theorem termEntries_some (k : TermKey) (n : Node) (ps : List (TermKey × Option Node)) :
    termEntries ((k, some n) :: ps) = entry (termKeys.name k) n :: termEntries ps := rfl

theorem termEntries_append (ps qs : List (TermKey × Option Node)) :
    termEntries (ps ++ qs) = termEntries ps ++ termEntries qs := by
  rw [termEntries, List.map_append, partEntries, List.flatMap_append]
  rfl

theorem termEntries_textPart (k : TermKey) (text : String) (ps : List (TermKey × Option Node)) :
    termEntries ((k, textPart text) :: ps) = textEntry (termKeys.name k) text ++ termEntries ps :=
  partEntries_textPart ..

/-- The parts of a term by key. -/
theorem value?_termEntries {ps : List (TermKey × Option Node)} (hnodup : (ps.map Prod.fst).Nodup)
    (hplain : ∀ p ∈ ps, p.2.map Node.target = p.2) (place : Place) :
    ∃ keys, readKeys termKeys (.ofEntries (termEntries ps)) place = pure keys ∧
      ∀ k, keys.value? k = (ps.lookup k).join := by
  let parts := ps.map fun p => (p.1, termKeys.name p.1, p.2)
  have hnodup' : (parts.map Prod.fst).Nodup := by
    rw [List.map_map]
    exact hnodup
  refine ⟨keyedParts parts, readKeys_parts ?_ hnodup' place, fun k => ?_⟩
  · intro p hp
    obtain ⟨q, -, rfl⟩ := List.mem_map.1 hp
    exact Style.lookup_name_termKeys q.1
  · have hplain' : ∀ p ∈ parts, p.2.2.map Node.target = p.2.2 := by
      intro p hp
      obtain ⟨q, hq, rfl⟩ := List.mem_map.1 hp
      exact hplain q hq
    rw [value?_keyedParts hnodup' hplain']
    have hlookup (ps : List (TermKey × Option Node)) :
        ((ps.map fun p => (p.1, termKeys.name p.1, p.2)).lookup k).bind Prod.snd =
          (ps.lookup k).join := by
      induction ps with
      | nil => rfl
      | cons p rest ih =>
        rw [List.map_cons, List.lookup_cons, List.lookup_cons]
        split
        · rfl
        · exact ih
    exact hlookup ps

/-- The kind of term that is stated for a term map. -/
def statedType (site : Site) (tm : TermMap) : Option TermType :=
  if tm.termType = mappingTermType site tm then none else some tm.termType

theorem getD_statedType (site : Site) (tm : TermMap) :
    (statedType site tm).getD (mappingTermType site tm) = tm.termType := by
  unfold statedType
  split
  · next h => exact h.symm
  · rfl

/-- The part of the kind of term. -/
def typePart (site : Site) (tm : TermMap) : Option Node :=
  (statedType site tm).map fun termType => .ofText termType.name

theorem target_typePart (site : Site) (tm : TermMap) :
    (typePart site tm).map Node.target = typePart site tm := by
  unfold typePart
  rw [Option.map_map]
  rfl

/-- The parts of a term that go with a value class. -/
structure PartsOf (site : Site) (tm : TermMap) (ps : List (TermKey × Option Node)) (k : TermKey)
    (datatype language : String) : Prop where
  nodup : (ps.map Prod.fst).Nodup
  plain : ∀ p ∈ ps, p.2.map Node.target = p.2
  key : valueKeys.filter (fun k => (ps.lookup k).join.isSome) = [k]
  parameters : (ps.lookup .parameters).join.isSome = true → k = .function
  condition : (ps.lookup .condition).join.isSome = true → k = .mapping
  type : (ps.lookup .type).join = typePart site tm
  datatype : (ps.lookup .datatype).join = textPart datatype
  language : (ps.lookup .language).join = textPart language

theorem termType_ofName?_name (termType : TermType) :
    TermType.ofName? termType.name = some termType := by
  cases termType <;> decide +kernel

theorem readOptionalPart_textPart {keys : Keyed TermKey} (h : keys.value? k = textPart text)
    (place : Place) :
    readOptionalPart keys k place = pure text := by
  have hsome : (keys.get? k).isSome = (textPart text).isSome := by
    rw [← h]
    exact (Option.isSome_map ..).symm
  unfold readOptionalPart readTermPart
  rw [hsome, h]
  unfold textPart
  split
  · next hempty => rw [hempty]; rfl
  · rfl

/-- **The draft of a mapping** has the value read for its class. -/
theorem readDraft_termEntries (scope : Scope) {ps : List (TermKey × Option Node)}
    {datatype language : String} {x : Reading Value} (h : PartsOf site tm ps k datatype language)
    (hvalue : ∀ keys : Keyed TermKey, (∀ k, keys.value? k = (ps.lookup k).join) →
      readValue scope site (.ofEntries (termEntries ps)) {} keys
        (fun m _ => readTerm scope { position := .parameter } m) k =
          x >>= fun v => pure (v, none)) :
    readDraft scope site (.ofEntries (termEntries ps)) {} = x >>= fun value =>
      pure { value, stated := statedType site tm, datatype, language } := by
  obtain ⟨keys, hkeys, hpart⟩ := value?_termEntries h.nodup h.plain {}
  have hsome (k : TermKey) : (keys.get? k).isSome = (ps.lookup k).join.isSome := by
    rw [← hpart k]
    exact (Option.isSome_map ..).symm
  have hkey : readValueKey (.ofEntries (termEntries ps)) keys {} = pure k := by
    -- exactly one of the parts names a value class
    unfold readValueKey
    simp only [hsome, h.key]
  have hstray : noteStrayParts keys k {} = pure () := by
    -- and no part goes with another class
    rw [noteStrayParts_eq_pure_iff, hsome, hsome]
    exact ⟨h.parameters, h.condition⟩
  have hstated : readStatedType keys none {} = pure (statedType site tm) := by
    unfold readStatedType readTermPart
    rw [hsome, hpart, h.type, typePart, Option.isSome_map]
    cases statedType site tm with
    | none => rfl
    | some termType =>
      dsimp only [Option.isSome_some, Option.map_some]
      rw [if_pos rfl, readScalar_ofText, pure_bind, termType_ofName?_name]
  have hdatatype := readOptionalPart_textPart ((hpart .datatype).trans h.datatype) {}
  have hlanguage := readOptionalPart_textPart ((hpart .language).trans h.language) {}
  rw [readDraft_ofEntries, draftParts, hkeys]
  have htell : (liftM (Logged.tell (pure keys : Noted (Keyed TermKey)).notes : Noted Unit) :
    Reading Unit) = pure () := rfl
  have hnote : (liftM (pure () : Noted Unit) : Reading Unit) = pure () := rfl
  dsimp only [Logged.value_pure]
  rw [htell, pure_bind, hkey, pure_bind, hstray, hnote, pure_bind, hvalue keys hpart, bind_assoc]
  refine bind_congr fun value => ?_
  rw [pure_bind]
  dsimp only
  rw [hstated, pure_bind, hdatatype, pure_bind, hlanguage, pure_bind]
  rfl

/-! ## Reading mappings back -/

section Back

variable {scope : Scope} {n : Node} {datatype language : String}

/-- A draft that is completed to a term map, apart from positions. -/
def CompletesTo (scope : Scope) (site : Site) (d : Draft) (tm : TermMap) : Prop :=
  ∃ got, scope.complete site d = .ok got ∧ got.same tm = true

theorem readsAsTerm_of_draft {x : Reading Value} {draft : Value → Draft}
    (h : readDraft scope site n {} = x >>= fun value => pure (draft value)) :
    readsAsTerm scope site n tm = true ↔
      ∃ value, x = pure value ∧ CompletesTo scope site (draft value) tm := by
  rw [readsAsTerm_iff, readTerm_eq, h, bind_assoc]
  constructor
  · rintro ⟨got, hread, hsame⟩
    obtain ⟨value, hx, hrest⟩ := Attempt.bind_eq_pure_iff.1 hread
    exact ⟨value, hx, got, Style.complete_of_readCompletion hrest, hsame⟩
  · rintro ⟨value, hx, got, hcomplete, hsame⟩
    refine ⟨got, Attempt.bind_eq_pure_iff.2 ⟨value, hx, ?_⟩, hsame⟩
    exact Style.readCompletion_eq_pure hcomplete n {}

theorem complete_eq_ok_iff {d : Draft} {got : TermMap} :
    scope.complete site d = .ok got ↔
      ∃ iri, scope.resolveOptional d.datatype = .ok iri ∧
        scope.completeValue site d iri = .ok got := by
  unfold Scope.complete
  cases scope.resolveOptional d.datatype with
  | error e =>
    refine ⟨fun h => (by cases h), ?_⟩
    rintro ⟨_, hiri, -⟩
    cases hiri
  | ok iri =>
    refine ⟨fun h => ⟨iri, rfl, h⟩, ?_⟩
    rintro ⟨_, hiri, h⟩
    cases hiri
    exact h

/-- The kind of a constant is the one that was stated for it or is implied. -/
theorem constantKind_statedType (hvalue : tm.value = some (.constant term)) (site : Site) :
    constantKind site (statedType site tm) (term.datatype ≠ "" || term.language ≠ "") =
      tm.termType := by
  rw [← getD_statedType site tm]
  unfold mappingTermType
  rw [hvalue]
  cases statedType site tm with
  | some termType => rfl
  | none =>
    dsimp only [constantKind, Option.getD_none]
    rw [Bool.or_comm _ site.prefersLiteral, ← Bool.or_assoc]

/-- **A constant is read back** from its name or text. -/
theorem completesTo_constant (hvalue : tm.value = some (.constant term)) (hplaced : tm.TagsPlaced)
    (hkind : term.kind = tm.termType) :
    CompletesTo scope site
        { value := .constant (.ofText text), stated := statedType site tm, datatype,
          language := term.language } tm ↔
      scope.resolveOptional datatype = .ok term.datatype ∧
        scope.constantValue site term.kind text = .ok term.value := by
  have hstated := constantKind_statedType hvalue site
  obtain ⟨hnoDatatype, hnoLanguage, huntagged⟩ := hplaced term hvalue
  obtain ⟨value, termType, tmDatatype, tmLanguage, span⟩ := tm
  dsimp only at hvalue hkind hstated hnoDatatype hnoLanguage ⊢
  subst hvalue hnoDatatype hnoLanguage hkind
  constructor
  · rintro ⟨got, hcomplete, hsame⟩
    obtain ⟨iri, hiri, hconstant⟩ := complete_eq_ok_iff.1 hcomplete
    obtain ⟨kind, v, -, hv, -, rfl⟩ := completeConstant_eq_ok_iff.1 hconstant
    simp only [TermMap.same, Value.same, Bool.and_eq_true, beq_iff_eq] at hsame
    rw [← hsame.2]
    exact ⟨hiri, hv⟩
  · rintro ⟨hiri, hv⟩
    refine ⟨⟨some (.constant term), term.kind, "", "", {}⟩, complete_eq_ok_iff.2 ⟨_, hiri, ?_⟩, ?_⟩
    · exact completeConstant_eq_ok_iff.2 ⟨term.kind, term.value, hstated, hv, huntagged, rfl⟩
    · simp [TermMap.same, Value.same]

/-- What is stated settles the kind of term, or it is implied. -/
theorem getD_impliedTermType (hvalue : tm.value = some value)
    (hconstant : ∀ term, value ≠ .constant term) (site : Site) :
    (statedType site tm).getD (impliedTermType site tm) = tm.termType := by
  have himplied : mappingTermType site tm = impliedTermType site tm := by
    unfold mappingTermType
    rw [hvalue]
    cases value with
    | constant term => exact absurd rfl (hconstant term)
    | reference | template | function | join => rfl
  rw [← himplied]
  exact getD_statedType site tm

/-- **A field, a function or a join is read back** if its value is. -/
theorem completesTo_other {v w : Value} (hvalue : tm.value = some w) (hv : v.text? = none)
    (hw : w.text? = none) :
    CompletesTo scope site
        { value := v, stated := statedType site tm, datatype, language := tm.language } tm ↔
      scope.resolveOptional datatype = .ok tm.datatype ∧ v.same w = true := by
  have hconstant (term : Constant) : w ≠ .constant term := by
    rintro rfl
    cases hw
  have hstated := getD_impliedTermType hvalue hconstant site
  have hcomplete (d : Draft) (hd : d.value = v) (iri : String) : scope.completeValue site d iri =
      .ok { value := some v, datatype := iri, language := d.language, span := d.span,
            termType := d.stated.getD (impliedTermType site
              { value := some v, datatype := iri, language := d.language, span := d.span }) } := by
    obtain ⟨value, stated, _, language, span⟩ := d
    dsimp only at hd
    subst hd
    cases value <;> first | rfl | cases hv
  generalize statedType site tm = stated at hstated
  obtain ⟨value, termType, iri, language, span⟩ := tm
  dsimp only at hvalue hstated
  subst hvalue
  constructor
  · rintro ⟨got, hgot, hsame⟩
    obtain ⟨iri', hiri, hrest⟩ := complete_eq_ok_iff.1 hgot
    cases (hcomplete _ rfl iri').symm.trans hrest
    simp only [TermMap.same, Bool.and_eq_true, beq_iff_eq] at hsame
    obtain ⟨⟨⟨-, rfl⟩, -⟩, hsame⟩ := hsame
    exact ⟨hiri, hsame⟩
  · rintro ⟨hiri, hsame⟩
    refine ⟨_, complete_eq_ok_iff.2 ⟨iri, hiri, hcomplete _ rfl iri⟩, ?_⟩
    -- the values are of one class, and that is all the implied kind depends on
    have himplied : impliedTermType site { value := some v, datatype := iri, language } =
        impliedTermType site ⟨some w, termType, iri, language, span⟩ := by
      cases v <;> cases w <;> first | rfl | cases hsame | cases hv
    simp [TermMap.same, hsame, himplied, hstated]

/-- **A template is read back** if it is resolved to itself, or is not for IRIs. -/
theorem completesTo_template (hvalue : tm.value = some (.template pattern)) :
    CompletesTo scope site
        { value := .template pattern, stated := statedType site tm, datatype,
          language := tm.language } tm ↔
      scope.resolveOptional datatype = .ok tm.datatype ∧
        Value.ReadAsWritten scope tm.termType (.template pattern) := by
  have hstated := getD_impliedTermType hvalue (fun _ h => by cases h) site
  generalize statedType site tm = stated at hstated
  obtain ⟨value, termType, iri, language, span⟩ := tm
  dsimp only at hvalue hstated
  subst hvalue
  constructor
  · rintro ⟨got, hgot, hsame⟩
    obtain ⟨iri', hiri, hrest⟩ := complete_eq_ok_iff.1 hgot
    change scope.completeTemplate site stated _ pattern = _ at hrest
    unfold Scope.completeTemplate at hrest
    dsimp only at hrest
    split at hrest
    · split at hrest
      · next resolved hresolved =>
        cases hrest
        simp only [TermMap.same, Value.same, Bool.and_eq_true, beq_iff_eq] at hsame
        obtain ⟨⟨⟨-, rfl⟩, -⟩, rfl⟩ := hsame
        exact ⟨hiri, fun _ => hresolved⟩
      · cases hrest
    · next hne =>
      cases hrest
      simp only [TermMap.same, Value.same, Bool.and_eq_true, beq_iff_eq] at hsame
      obtain ⟨⟨⟨rfl, rfl⟩, -⟩, -⟩ := hsame
      exact ⟨hiri, fun heq => absurd heq hne⟩
  · rintro ⟨hiri, hself⟩
    have htype : stated.getD (impliedTermType site
        { value := some (.template pattern), datatype := iri, language }) = termType := hstated
    refine ⟨⟨some (.template pattern), termType, iri, language, {}⟩,
      complete_eq_ok_iff.2 ⟨iri, hiri, ?_⟩, by simp [TermMap.same, Value.same]⟩
    change scope.completeTemplate site stated _ pattern = _
    unfold Scope.completeTemplate
    dsimp only
    rw [htype]
    by_cases h : termType = .iri
    · rw [if_pos h, hself h]
    · rw [if_neg h]

end Back

theorem readsAsTerm_of_pure {scope : Scope} {n : Node} {d : Draft}
    (h : readDraft scope site n {} = pure d) :
    readsAsTerm scope site n tm = true ↔ CompletesTo scope site d tm := by
  have hbind : readDraft scope site n {} = pure d.value >>= fun _ => pure d := by rw [h, pure_bind]
  rw [readsAsTerm_of_draft hbind]
  exact ⟨fun h => h.elim fun _ hd => hd.2, fun hd => ⟨d.value, rfl, hd⟩⟩

/-! ## Writing terms -/

namespace Style

variable {s : Style} {t : PrefixTable}

/-- What is written for a term map besides its value. -/
def attributes (s : Style) (t : PrefixTable) (site : Site) (tm : TermMap) : List Entry :=
  termEntries [(.type, typePart site tm), (.datatype, textPart (s.optionalSpelling t tm.datatype)),
    (.language, textPart tm.language)]

/-- Attributes are always written, in one way. -/
theorem decides_writeAttributes (h : s.Ready) (site : Site) (tm : TermMap) :
    Decides (writeAttributes s site tm) t True fun fs => fs = s.attributes t site tm := by
  unfold writeAttributes
  refine decides_optionalIri h (.pure ?_)
  have htype : (if tm.termType = mappingTermType site tm then []
      else [entry "type" (.ofText tm.termType.name)]) =
        termEntries [(.type, typePart site tm)] := by
    unfold typePart statedType
    split <;> rfl
  have htags : textEntry "datatype" (s.optionalSpelling t tm.datatype) ++
      textEntry "language" tm.language = termEntries
        [(.datatype, textPart (s.optionalSpelling t tm.datatype)),
          (.language, textPart tm.language)] := by
    rw [termEntries_textPart, termEntries_textPart, termEntries_nil, List.append_nil]
    rfl
  rw [htype, List.append_assoc, htags, ← termEntries_append]
  rfl

/-- Entries for a value that are read as the term map just if it has a full form. -/
def ReadBack (s : Style) (t : PrefixTable) (site : Site) (tm : TermMap) (es : List Entry) : Prop :=
  readsAsTerm (s.scope t) site (.ofEntries (es ++ s.attributes t site tm)) tm = true ↔
    s.HasMapping t tm

/-- What it takes to have a full form, value by value. -/
theorem hasMapping_iff (h : s.Ready) (hvalue : tm.value = some value) :
    s.HasMapping t tm ↔ (∀ iri ∈ value.iris, s.Spellable t iri) ∧
      (s.scope t).resolveOptional (s.optionalSpelling t tm.datatype) = .ok tm.datatype ∧
      value.ReadAsWritten (s.scope t) tm.termType := by
  rw [resolveOptional_spelling h, ← and_assoc, ← List.forall_mem_append]
  have hiris : value.iris ++ (if tm.datatype = "" then [] else [tm.datatype]) = tm.iris := by
    rw [TermMap.iris, hvalue]
    rfl
  rw [hiris]
  constructor
  · exact fun hm => ⟨hm.iris, hm.value value hvalue⟩
  · rintro ⟨hnames, hread⟩
    refine ⟨hnames, fun v hv => ?_⟩
    cases hvalue.symm.trans hv
    exact hread

/-- A constant is read from its name if that is read as it. -/
theorem constantValue_spelling (h : s.Ready) (site : Site) (term : Constant) :
    (s.scope t).constantValue site term.kind
        (if term.kind = .iri then s.spelling t term.value else term.value) = .ok term.value ↔
      ∀ i ∈ (if term.kind = .iri then [term.value] else []), s.Spellable t i := by
  unfold Scope.constantValue
  cases hkind : term.kind with
  | iri =>
    dsimp only
    rw [if_pos rfl, if_pos rfl, if_neg (by simp [(spelling_ne h.base t term.value).2]),
      List.forall_mem_singleton, spellable_iff]
  | literal | blankNode => exact iff_of_true rfl (List.forall_mem_nil _)

/-- A constant in full is read back just if it is spellable. -/
theorem readBack_constant (h : s.Ready) (hvalue : tm.value = some (.constant term))
    (hplaced : tm.TagsPlaced) (hkind : term.kind = tm.termType)
    (htext : text = if term.kind = .iri then s.spelling t term.value else term.value) :
    s.ReadBack t site tm (termEntries [(.constant, some (.ofText text)),
      (.datatype, textPart (s.optionalSpelling t term.datatype)),
      (.language, textPart term.language)]) := by
  -- the tags stand with the constant, so there are none beside it
  obtain ⟨hd, hl, -⟩ := hplaced term hvalue
  have hnone : s.optionalSpelling t tm.datatype = "" := if_pos hd
  have hparts : PartsOf site tm [(.constant, some (.ofText text)),
      (.datatype, textPart (s.optionalSpelling t term.datatype)),
      (.language, textPart term.language), (.type, typePart site tm)] .constant
        (s.optionalSpelling t term.datatype) term.language := by
    refine ⟨?_, ?_, rfl, fun h => ?_, fun h => ?_, rfl, rfl, rfl⟩
    · show [TermKey.constant, .datatype, .language, .type].Nodup
      decide
    · simp only [List.forall_mem_cons, target_textPart, target_typePart, true_and]
      exact ⟨rfl, List.forall_mem_nil _⟩
    · cases h
    · cases h
  have hentries : termEntries [(.constant, some (.ofText text)),
      (.datatype, textPart (s.optionalSpelling t term.datatype)),
      (.language, textPart term.language)] ++ s.attributes t site tm =
      termEntries [(.constant, some (.ofText text)),
        (.datatype, textPart (s.optionalSpelling t term.datatype)),
        (.language, textPart term.language), (.type, typePart site tm)] := by
    rw [attributes, hl, hnone, ← termEntries_append]
    rfl
  have hdraft := readDraft_termEntries (s.scope t) (x := pure (.constant (.ofText text)))
    hparts fun keys hkeys => by
      rw [readValue, readTermPart, hkeys]
      rfl
  rw [ReadBack, hentries, readsAsTerm_of_pure hdraft, completesTo_constant hvalue hplaced hkind,
    htext, constantValue_spelling h, hasMapping_iff h hvalue, hd, Value.iris,
    List.forall_mem_append, resolveOptional_spelling h, and_comm]
  exact (and_iff_left ⟨rfl, trivial⟩).symm

/-- A constant is always written in full. -/
theorem decides_writeConstant (h : s.Ready) (hvalue : tm.value = some (.constant term))
    (hplaced : tm.TagsPlaced) (hkind : term.kind = tm.termType) (site : Site) :
    Decides (writeConstant s term) t True (s.ReadBack t site tm) := by
  unfold writeConstant
  refine Decides.ite_bind_sure
    (Q := fun text => text = if term.kind = .iri then s.spelling t term.value else term.value)
    (fun hiri => ?_) (fun hne => .pure (if_neg hne).symm) fun text htext => ?_
  · rw [if_pos hiri]
    exact decides_iriText h term.value
  · refine decides_optionalIri h (.pure ?_)
    have hentries : entry "constant" (.ofText text) ::
        textEntry "datatype" (s.optionalSpelling t term.datatype) ++
          textEntry "language" term.language = termEntries [(.constant, some (.ofText text)),
            (.datatype, textPart (s.optionalSpelling t term.datatype)),
            (.language, textPart term.language)] := by
      rw [termEntries_some, termEntries_textPart, termEntries_textPart, termEntries_nil,
        List.append_nil]
      rfl
    rw [hentries]
    exact readBack_constant h hvalue hplaced hkind htext

/-- A part with a value and perhaps one that goes with it, before the others. -/
theorem partsOf_value {k' : TermKey} {n : Node} {m : Option Node}
    (hk : k ∈ [TermKey.reference, .template, .function, .mapping])
    (hk' : k' = .parameters ∧ (m.isSome = true → k = .function) ∨ k' = .condition ∧ k = .mapping)
    (hn : n.target = n) (hm : m.map Node.target = m) (site : Site) (tm : TermMap)
    (datatype : String) :
    PartsOf site tm [(k, some n), (k', m), (.type, typePart site tm),
      (.datatype, textPart datatype), (.language, textPart tm.language)] k datatype
        tm.language := by
  have hnodup : [k, k', .type, .datatype, .language].Nodup := by
    simp only [List.mem_cons, List.not_mem_nil, or_false] at hk
    rcases hk' with ⟨rfl, -⟩ | ⟨rfl, rfl⟩
    · rcases hk with rfl | rfl | rfl | rfl <;> decide
    · decide
  have hplain : ∀ p ∈ [(k, some n), (k', m), (.type, typePart site tm),
      (.datatype, textPart datatype), (.language, textPart tm.language)],
        p.2.map Node.target = p.2 := by
    simp only [List.forall_mem_cons, target_textPart, target_typePart, hm, Option.map_some, hn,
      true_and]
    exact List.forall_mem_nil _
  simp only [List.mem_cons, List.not_mem_nil, or_false] at hk
  rcases hk' with ⟨rfl, hfunction⟩ | ⟨rfl, rfl⟩
  · -- once the keys are known, every lookup can be computed
    have hcondition : ¬ (none : Option Node).isSome = true := Bool.false_ne_true
    rcases hk with rfl | rfl | rfl | rfl
    all_goals
      exact ⟨hnodup, hplain, rfl, hfunction, fun h => absurd h hcondition, rfl, rfl, rfl⟩
  · refine ⟨hnodup, hplain, rfl, fun h => ?_, fun _ => rfl, rfl, rfl, rfl⟩
    cases h

/-- The draft of what is written for a value that is no constant. -/
theorem readDraft_value (s : Style) (t : PrefixTable) (site : Site) (tm : TermMap)
    {x : Reading Value} (k k' : TermKey) (n : Node) (m : Option Node)
    (hk : k ∈ [TermKey.reference, .template, .function, .mapping])
    (hk' : k' = .parameters ∧ (m.isSome = true → k = .function) ∨ k' = .condition ∧ k = .mapping)
    (hn : n.target = n) (hm : m.map Node.target = m)
    (hread : ∀ (keys : Keyed TermKey) (node : Node), keys.value? k = some n → keys.value? k' = m →
      readValue (s.scope t) site node {} keys
        (fun m _ => readTerm (s.scope t) { position := .parameter } m) k =
          x >>= fun v => pure (v, none)) :
    readDraft (s.scope t) site
        (.ofEntries (termEntries [(k, some n), (k', m)] ++ s.attributes t site tm)) {} =
      x >>= fun value => pure
        { value, stated := statedType site tm, datatype := s.optionalSpelling t tm.datatype,
          language := tm.language } := by
  have hparts := partsOf_value hk hk' hn hm site tm (s.optionalSpelling t tm.datatype)
  have hne : (k' == k) = false := by
    rw [beq_eq_false_iff_ne]
    rintro rfl
    exact (List.nodup_cons.1 hparts.nodup).1 (List.mem_cons_self ..)
  rw [attributes, ← termEntries_append]
  refine readDraft_termEntries _ hparts fun keys hkeys => hread keys _ ?_ ?_
  · rw [hkeys, List.cons_append, List.lookup_cons_self]
    rfl
  · rw [hkeys, List.cons_append, List.lookup_cons, hne]
    dsimp only
    rw [List.cons_append, List.lookup_cons_self]
    rfl

theorem readBack_reference (h : s.Ready) {name : String}
    (hvalue : tm.value = some (.reference name)) :
    s.ReadBack t site tm [entry "reference" (.ofText name)] := by
  have hdraft := readDraft_value s t site tm
    (x := pure (.reference name)) .reference .parameters (.ofText name) none (by decide)
    (.inl ⟨rfl, fun h => by cases h⟩) rfl rfl fun keys node hname _ => by
      rw [readValue, readTermPart, hname]
      rfl
  refine (readsAsTerm_of_pure hdraft).trans ?_
  rw [completesTo_other hvalue rfl rfl, hasMapping_iff h hvalue]
  simp [Value.iris, Value.ReadAsWritten, Value.same]

theorem readBack_template (h : s.Ready) (hvalue : tm.value = some (.template pattern))
    (hvalid : Template.isValid pattern = true) :
    s.ReadBack t site tm [entry "template" (.ofText pattern)] := by
  have hdraft := readDraft_value s t site tm
    (x := pure (.template pattern)) .template .parameters (.ofText pattern) none (by decide)
    (.inl ⟨rfl, fun h => by cases h⟩) rfl rfl fun keys node hpattern _ => by
      rw [readValue, readTermPart, hpattern, readScalar_ofText, pure_bind]
      unfold Template.isValid at hvalid
      cases hparse : Template.parse pattern with
      | ok segments => rfl
      | error e =>
        rw [hparse] at hvalid
        cases hvalid
  refine (readsAsTerm_of_pure hdraft).trans ?_
  rw [completesTo_template hvalue, hasMapping_iff h hvalue]
  simp [Value.iris]

/-- A join is read back if its operands are left as they are. -/
theorem readBack_join (h : s.Ready) {parent : String} {conditions : List JoinCondition}
    (hvalue : tm.value = some (.join parent conditions)) (hsite : site.position = .object)
    (hne : conditions ≠ []) :
    s.ReadBack t site tm
      [entry "mapping" (.ofText parent), entry "condition" (writeConditions conditions)] := by
  let read (c : JoinCondition) : JoinCondition := ⟨referenceName c.child, referenceName c.parent⟩
  have htarget : (writeConditions conditions).target = writeConditions conditions := by
    refine target_single (fun _ => rfl) fun n hn => ?_
    obtain ⟨c, -, rfl⟩ := List.mem_map.1 hn
    exact ⟨rfl, rfl⟩
  have hdraft := readDraft_value s t site tm
    (x := pure (.join parent (conditions.map read))) .mapping .condition (.ofText parent)
    (some (writeConditions conditions)) (by decide) (.inr ⟨rfl, rfl⟩) rfl (congrArg some htarget)
    fun keys node hparent hcondition => by
      refine congrArg (· >>= fun v => pure (v, none)) ?_
      rw [readJoin, if_neg (by simp [hsite]), readTermPart, hparent, readScalar_ofText, pure_bind,
        hcondition, readConditions_writeConditions]
      change (if (conditions.map read).isEmpty then _ else _) = _
      rw [if_neg (by simpa using hne)]
      rfl
  refine (readsAsTerm_of_pure hdraft).trans ?_
  rw [completesTo_other hvalue rfl rfl, hasMapping_iff h hvalue]
  have hkept : conditions.map read = conditions ↔ ∀ c ∈ conditions,
      referenceName c.child = c.child ∧ referenceName c.parent = c.parent := by
    conv_lhs => rhs; rw [← List.map_id conditions]
    rw [List.map_inj_left]
    exact forall₂_congr fun c _ => by cases c; simp [read]
  simp [Value.iris, Value.ReadAsWritten, Value.same, hkept]

/-- Arguments are read one by one. -/
theorem readArguments_eq_pure_iff {scope : Scope} {es : List Entry} {qs : List Parameter} :
    readArguments scope (readTerm scope { position := .parameter }) place es = pure qs ↔
      List.Forall₂ (fun e q => ∀ place, scope.readIri (some e.key) place = pure q.predicate ∧
        readTerm scope { position := .parameter } e.value place = pure q.value) es qs := by
  constructor
  · intro h
    refine (forall₂_of_mapIdx_left (Attempt.forall₂_of_all_eq_pure h)).imp fun e q hq here => ?_
    obtain ⟨i, hi⟩ := hq
    obtain ⟨⟨predicate, value⟩, hboth, hpair⟩ := Attempt.bind_eq_pure_iff.1 hi
    cases Attempt.pure_inj.1 hpair
    obtain ⟨hiri, hterm⟩ := Attempt.both_eq_pure_iff.1 hboth
    exact ⟨(agree_readIri (.refl scope) _).eq_pure hiri,
      (agree_readTerm (.refl scope) _ _ _ here).eq_pure hterm⟩
  · intro h
    refine Attempt.all_eq_pure (forall₂_mapIdx_left (h.imp fun e q hq i => ?_))
    obtain ⟨predicate, value⟩ := q
    exact Attempt.bind_eq_pure_iff.2 ⟨_, Attempt.both_eq_pure_iff.2 (hq _), rfl⟩

/-- A function is read from its name and its arguments. -/
theorem readFunction_eq_pure_iff {scope : Scope} {function parameters : Option Node}
    {es : List Entry} (hes : readParameters parameters place = pure es) :
    readFunction scope function parameters place
        (fun m _ => readTerm scope { position := .parameter } m) = pure value ↔
      ∃ iri qs, scope.readIri function (place.sub "function") = pure iri ∧
        readArguments scope (readTerm scope { position := .parameter }) place es = pure qs ∧
          value = .function iri qs := by
  rw [readFunction_eq, hes]
  constructor
  · intro h
    obtain ⟨iri, hiri, h⟩ := Attempt.bind_eq_pure_iff.1 h
    obtain ⟨-, -, h⟩ := Attempt.bind_eq_pure_iff.1 h
    obtain ⟨qs, hqs, h⟩ := Attempt.bind_eq_pure_iff.1 h
    exact ⟨iri, qs, hiri, hqs, (Attempt.pure_inj.1 h).symm⟩
  · rintro ⟨iri, qs, hiri, hqs, rfl⟩
    refine Attempt.bind_eq_pure_iff.2 ⟨iri, hiri, Attempt.bind_eq_pure_iff.2 ⟨(), rfl, ?_⟩⟩
    exact Attempt.bind_eq_pure_iff.2 ⟨qs, hqs, rfl⟩

/-- A node that stands for a term map, in a list too. -/
structure Stands (s : Style) (t : PrefixTable) (site : Site) (n : Node) (tm : TermMap) : Prop where
  single : IsSingle n
  reads : readsAsTerm (s.scope t) site n tm = true

/-- The term map is read at every place. -/
theorem Stands.exists_read (h : s.Stands t site n tm) :
    ∃ got, got.same tm = true ∧ ∀ place, readTerm (s.scope t) site n place = pure got := by
  obtain ⟨got, hread, hsame⟩ := readsAsTerm_iff.1 h.reads
  exact ⟨got, hsame, fun place => (agree_readTerm (.refl _) site n {} place).eq_pure hread⟩

/-- The name of a parameter and a node for its value. -/
def SpellsParameter (s : Style) (t : PrefixTable) (p : Parameter) (e : String × Node) : Prop :=
  e.1 = s.spelling t p.predicate ∧ s.Stands t { position := .parameter } e.2 p.value

/-- Parameters are read back if their names are. -/
theorem exists_readArguments_iff (h : List.Forall₂ (s.SpellsParameter t) ps es) (place : Place) :
    (∃ qs, readArguments (s.scope t) (readTerm (s.scope t) { position := .parameter }) place
        (es.map parameterEntry) = pure qs ∧ Parameter.sameAll qs ps = true) ↔
      ∀ p ∈ ps, s.Spellable t p.predicate := by
  simp only [readArguments_eq_pure_iff]
  induction h with
  | nil => exact iff_of_true ⟨[], .nil, rfl⟩ (List.forall_mem_nil _)
  | @cons p e ps es hp _ ih =>
    obtain ⟨hname, hstands⟩ := hp
    obtain ⟨name, value⟩ := p
    rw [List.forall_mem_cons, ← ih, spellable_iff]
    constructor
    · rintro ⟨_, hreads, hsame⟩
      cases hreads with
      | @cons _ q _ qs hread hrest =>
        obtain ⟨predicate, got⟩ := q
        simp only [Parameter.sameAll, Bool.and_eq_true, beq_iff_eq] at hsame
        obtain ⟨⟨rfl, -⟩, hsame⟩ := hsame
        exact ⟨hname ▸ (readIri_ofText {}).1 (hread {}).1, qs, hrest, hsame⟩
    · rintro ⟨hspell, qs, hrest, hsame⟩
      obtain ⟨got, hgot, hread⟩ := hstands.exists_read
      refine ⟨⟨name, got⟩ :: qs, .cons (fun place => ⟨?_, hread place⟩) hrest, ?_⟩
      · exact (readIri_ofText place).2 (hname ▸ hspell)
      · simp [Parameter.sameAll, hgot, hsame]

/-- A function is read back if its name and those of its parameters are. -/
theorem readBack_function (h : s.Ready) {f : String} {ps : List Parameter}
    {es : List (String × Node)} (hvalue : tm.value = some (.function f ps))
    (hes : List.Forall₂ (s.SpellsParameter t) ps es) :
    s.ReadBack t site tm (entry "function" (.ofText (s.spelling t f)) ::
      (if es.isEmpty then [] else [entry "parameters" (writeParameterList es)])) := by
  let m : Option Node := if es.isEmpty then none else some (writeParameterList es)
  have hentries : entry "function" (.ofText (s.spelling t f)) ::
      (if es.isEmpty then [] else [entry "parameters" (writeParameterList es)]) =
        termEntries [(.function, some (.ofText (s.spelling t f))), (.parameters, m)] := by
    simp only [m]
    split <;> rfl
  have htarget : m.map Node.target = m := by
    simp only [m]
    split
    · rfl
    · exact congrArg some (target_writeParameterList es)
  have hlist (place : Place) : readParameters m place = pure (es.map parameterEntry) := by
    simp only [m]
    split
    · next hempty =>
      rw [List.isEmpty_iff.1 hempty]
      rfl
    · exact readParameters_writeParameterList
        (forall_mem_right hes fun _ _ hp => hp.2.single) place
  have hdraft := readDraft_value s t site tm
    .function .parameters (.ofText (s.spelling t f)) m (by decide) (.inl ⟨rfl, fun _ => rfl⟩) rfl
    htarget fun keys node hfunction hm => by rw [readValue, hfunction, hm]
  rw [ReadBack, hentries, readsAsTerm_of_draft hdraft, hasMapping_iff h hvalue]
  have hparameters := exists_readArguments_iff hes {}
  rw [Value.iris, List.forall_mem_cons, List.forall_mem_map, ← hparameters, spellable_iff,
    ← readIri_ofText (Place.sub {} "function")]
  constructor
  · rintro ⟨value, hread, hcompletes⟩
    obtain ⟨iri, qs, hiri, hqs, rfl⟩ := (readFunction_eq_pure_iff (hlist {})).1 hread
    obtain ⟨hdatatype, hsame⟩ := (completesTo_other hvalue rfl rfl).1 hcompletes
    simp only [Value.same, Bool.and_eq_true, beq_iff_eq] at hsame
    obtain ⟨rfl, hsame⟩ := hsame
    exact ⟨⟨hiri, qs, hqs, hsame⟩, hdatatype, trivial⟩
  · rintro ⟨⟨hiri, qs, hqs, hsame⟩, hdatatype, -⟩
    refine ⟨.function f qs, (readFunction_eq_pure_iff (hlist {})).2 ⟨f, qs, hiri, hqs, rfl⟩, ?_⟩
    exact (completesTo_other hvalue rfl rfl).2 ⟨hdatatype, by simp [Value.same, hsame]⟩

/-! ## Terms are written -/

/-- A term map is written just if one of its forms is. -/
theorem decides_writeTermWith (h : s.Ready) {value : Writing (List Entry)} {P : Prop}
    (hvalue : Decides value t P (s.ReadBack t site tm)) (hscalar : s.HasScalar t site tm → P) :
    Decides (writeTermWith s site tm value) t (s.HasForm t site tm ∧ P)
      fun n => s.Stands t site n tm := by
  unfold writeTermWith
  refine (decides_candidates h site tm).bind_sure fun texts htexts => ?_
  refine Decides.get.bind_sure fun u hu => ?_
  rw [hu, htexts]
  split
  · next n hfirst =>
    obtain ⟨text, htext, rfl⟩ := List.mem_map.1 (List.mem_of_find?_eq_some hfirst)
    have hread := List.find?_some hfirst
    have hhas : s.HasScalar t site tm := ⟨text, htext, hread⟩
    exact (Decides.pure ⟨isSingle_ofText text, hread⟩).congr
      (iff_of_true trivial ⟨.inl hhas, hscalar hhas⟩)
  · next hnone =>
    have hno : ¬ s.HasScalar t site tm := by
      rintro ⟨text, htext, hread⟩
      exact List.find?_eq_none.1 hnone _ (List.mem_map_of_mem htext) hread
    refine Decides.congr (P := P ∧ s.HasMapping t tm) ?_
      (by rw [HasForm, or_iff_right hno, and_comm])
    refine hvalue.bind fun es _ hes => ?_
    refine (decides_writeAttributes h site tm).bind_sure fun fs hfs => ?_
    refine Decides.get.bind_sure fun v hv => ?_
    rw [hv, hfs]
    split
    · next hread =>
      exact (Decides.pure ⟨isSingle_ofEntries _, hread⟩).congr
        (iff_of_true trivial (hes.1 hread))
    · next hread =>
      exact (Decides.throw _).congr (iff_of_false not_false fun hm => hread (hes.2 hm))

mutual

/-- **A term map is written just if it is writable.** -/
theorem decides_writeTerm {known : String → Prop} (h : s.Ready) : ∀ (tm : TermMap) (site : Site),
    tm.Ok known site.position → tm.Every TermMap.TagsPlaced →
      Decides (writeTerm s site tm) t (s.Writable t site tm) fun n => s.Stands t site n tm
  | ⟨none, type, datatype, language, span⟩, site, hok, _ => by
    rw [TermMap.Ok] at hok
    exact hok.elim
  | ⟨some value, type, datatype, language, span⟩, site, hok, hplaced => by
    rw [TermMap.Ok] at hok
    obtain ⟨hself, hnested⟩ := TermMap.forall_nested.1 hplaced
    rw [writeTerm]
    refine (decides_writeTermWith h (decides_writeValue h value rfl hok.1 hself
      (hnested value rfl)) fun hhas => ?_).congr (by simp [Writable])
    exact Value.every_of_nested_eq_nil (hhas.nested value rfl)

/-- A value is written just if the term maps in it are. -/
theorem decides_writeValue {known : String → Prop} (h : s.Ready) : ∀ (value : Value)
    {tm : TermMap} {site : Site}, tm.value = some value →
      value.Ok known site.position tm.termType → tm.TagsPlaced → value.Every TermMap.TagsPlaced →
        Decides (writeValue s value) t (value.Every (s.HasForm t { position := .parameter }))
          (s.ReadBack t site tm)
  | .constant term, tm, site, hvalue, hok, hself, _ => by
    rw [Value.Ok] at hok
    rw [writeValue]
    exact (decides_writeConstant h hvalue hself hok.1 site).congr
      (iff_of_true trivial (Value.every_of_nested_eq_nil rfl))
  | .reference name, tm, site, hvalue, _, _, _ => by
    rw [writeValue]
    exact (Decides.pure (readBack_reference h hvalue)).congr
      (iff_of_true trivial (Value.every_of_nested_eq_nil rfl))
  | .template pattern, tm, site, hvalue, hok, _, _ => by
    rw [Value.Ok] at hok
    rw [writeValue]
    exact (Decides.pure (readBack_template h hvalue hok)).congr
      (iff_of_true trivial (Value.every_of_nested_eq_nil rfl))
  | .function iri parameters, tm, site, hvalue, hok, _, hnested => by
    rw [Value.Ok] at hok
    rw [Value.Every, Value.nested] at hnested
    rw [writeValue, Value.Every, Value.nested]
    refine (decides_writeParameters h parameters hok.2 hnested).bind_total fun es _ hes => ?_
    unfold writeFunction
    refine (decides_iriText h iri).bind_sure fun text htext => ?_
    rw [htext]
    exact .pure (readBack_function h hvalue hes)
  | .join parent conditions, tm, site, hvalue, hok, _, _ => by
    rw [Value.Ok] at hok
    rw [writeValue]
    exact (Decides.pure (readBack_join h hvalue hok.1 hok.2.2.1)).congr
      (iff_of_true trivial (Value.every_of_nested_eq_nil rfl))

/-- Parameters are written just if the term maps in them are writable. -/
theorem decides_writeParameters {known : String → Prop} (h : s.Ready) : ∀ (ps : List Parameter),
    Parameter.OkAll known ps → (∀ u ∈ Parameter.nestedAll ps, u.TagsPlaced) →
      Decides (writeParameters s ps) t
        (∀ u ∈ Parameter.nestedAll ps, s.HasForm t { position := .parameter } u)
        (List.Forall₂ (s.SpellsParameter t) ps)
  | [], _, _ => by
    rw [writeParameters, Parameter.nestedAll]
    exact (Decides.pure .nil).congr (iff_of_true trivial (List.forall_mem_nil _))
  | ⟨name, value⟩ :: rest, hok, hplaced => by
    rw [Parameter.OkAll] at hok
    rw [Parameter.nestedAll, List.forall_mem_append] at hplaced
    rw [writeParameters, Parameter.nestedAll, List.forall_mem_append]
    refine (decides_iriText h name).bind_sure fun key hkey => ?_
    refine Decides.congr ?_ (and_congr_left' TermMap.forall_nested.symm)
    refine (decides_writeTerm h value { position := .parameter } hok.2.1 hplaced.1).bind
      fun n _ hn => ?_
    exact (decides_writeParameters h rest hok.2.2 hplaced.2).bind_total
      fun es _ hes => .pure (.cons ⟨hkey, hn⟩ hes)

end

end Style

end RdfMapping.Shorthand
