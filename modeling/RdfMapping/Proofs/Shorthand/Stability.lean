/-
# Terms that keep their meaning

A term is written with the prefixes declared so far and read with all of them.  It means the same
to both as long as the names in it are firm.
-/
import RdfMapping.Proofs.Mapping.Sameness
import RdfMapping.Proofs.Mapping.Templates
import RdfMapping.Proofs.Shorthand.Clean
import RdfMapping.Proofs.Shorthand.Naming

namespace RdfMapping

namespace Mapping

/-! ## Names of term maps -/

/-- The text of a value that may be a name. -/
def Value.text? : Value → Option String
  | .constant term => some term.value
  | .template pattern => some pattern
  | _ => none

/-- The IRI or the template that a name in a term map stands for. -/
def TermMap.meaning? (tm : TermMap) : Option String :=
  match tm.value with
  | some (.constant term) => if term.kind = .iri then some term.value else none
  | some (.template pattern) => some pattern
  | _ => none

end Mapping

namespace Shorthand

open Iri (PrefixTable beginsWithLetter isNameChar)
open Mapping
open Yaml (Node Entry)

/-! ## Texts with references in them -/

/-- The characters of the template that stands for pieces of a text. -/
def templateChars (ps : List Piece) : List Char :=
  (Template.build (ps.map Piece.segment)).toList

theorem templateChars_cons (p : Piece) (ps : List Piece) :
    templateChars (p :: ps) = (Template.buildSegment p.segment).toList ++ templateChars ps := by
  simp [templateChars, Template.build]

theorem templateChars_prependChar (c : Char) (ps : List Piece) :
    templateChars (prependChar c ps) =
      (if Template.isEscapable c then ['\\', c] else [c]) ++ templateChars ps := by
  unfold prependChar
  split
  · simp [templateChars_cons, Piece.segment, Template.buildSegment, Template.escape,
      Template.escapeChars]
  · simp [templateChars_cons, Piece.segment, Template.buildSegment, Template.escape,
      Template.escapeChars]

/-- **A plain beginning of the template for a text begins the text.** -/
theorem prefix_of_prefix_templateChars {start chars : List Char}
    (hstart : ∀ c ∈ start, Template.isEscapable c = false)
    (h : start <+: templateChars (pieces chars)) : start <+: chars := by
  induction start generalizing chars with
  | nil => exact List.nil_prefix
  | cons d start ih =>
    rw [List.forall_mem_cons] at hstart
    obtain ⟨tail, htail⟩ := h
    rw [List.cons_append, pieces] at htail
    split at htail
    · -- a reference begins with a brace
      rw [templateChars_cons, Piece.segment, Template.buildSegment] at htail
      simp only [String.toList_append] at htail
      rw [(List.cons.inj htail).1] at hstart
      exact absurd hstart.1 (by decide)
    · split at htail
      · cases htail
      · next c rest _ =>
        rw [templateChars_prependChar] at htail
        split at htail
        · rw [(List.cons.inj htail).1] at hstart
          exact absurd hstart.1 (by decide)
        · obtain ⟨rfl, hrest⟩ := List.cons.inj htail
          exact List.cons_prefix_cons.2 ⟨rfl, ih hstart.2 ⟨tail, hrest⟩⟩

theorem isEscapable_of_isNameChar {c : Char} (h : isNameChar c = true) :
    Template.isEscapable c = false :=
  Template.not_isEscapable_of_test (by decide) h

namespace Style

variable {s : Style} {t u : PrefixTable} {site : Site} {tm : TermMap} {text meant : String}

/-- The template for a firm text is firm. -/
theorem Firm.build (h : s.Firm t text meant) :
    s.Firm t (Template.build (inlineSegments text.toList)) meant := by
  intro hmeant hletter label rest hcut hchars
  obtain ⟨hbuild, hcolon⟩ := Text.cutFirst?_eq_some hcut
  have hstart : label.toList ++ [':'] <+: text.toList := by
    refine prefix_of_prefix_templateChars (fun c hc => ?_) ⟨rest.toList, ?_⟩
    · rcases List.mem_append.1 hc with hc | hc
      · exact isEscapable_of_isNameChar (List.all_eq_true.1 hchars c hc)
      · rw [List.mem_singleton.1 hc]
        decide
    · rw [List.append_assoc]
      exact hbuild.symm
  obtain ⟨tail, htail⟩ := hstart
  rw [List.append_assoc, List.singleton_append] at htail
  refine h hmeant ?_ label (.ofList tail) (Text.cutFirst?_eq_of_toList ?_ hcolon) hchars
  · rw [← htail]
    rw [hbuild] at hletter
    cases hl : label.toList with
    | nil => rfl
    | cons c cs =>
      rw [hl] at hletter
      exact hletter
  · rw [String.toList_ofList, htail]

/-- A firm template keeps its meaning. -/
theorem Firm.resolveTemplate_grows (hs : s.Sound) (h : s.Firm t text meant)
    (hr : (s.scope t).table.resolveTemplate s.base text = .ok meant) (hg : s.Grows t u) :
    (s.scope u).table.resolveTemplate s.base text = .ok meant := by
  rcases PrefixTable.resolveTemplate_of_grown hs.base hg hr with hr | hshaky
  · exact hr
  · obtain ⟨label, rest, hcut, hnone, hchars⟩ := hshaky.unbound
    obtain ⟨hhead, hcolon⟩ := Text.cutFirst?_eq_some hcut
    have hwhole : Text.cutFirst? ':' text =
        some (label, rest ++ (PrefixTable.cutHead text).2) := by
      refine Text.cutFirst?_eq_of_toList ?_ hcolon
      rw [PrefixTable.cutHead_append, hhead, String.toList_append, List.append_assoc,
        List.cons_append]
    exact absurd hnone (h hshaky.iri hshaky.text label _ hwhole hchars)

/-! ## Drafts -/

/-- A draft whose names keep their meaning when it is completed to a term map. -/
structure FirmDraft (s : Style) (t : PrefixTable) (d : Draft) (tm : TermMap) : Prop where
  datatype : d.datatype = "" ∨ ∃ iri, s.Settled t d.datatype iri
  value : ∀ text, d.value.text? = some text → ∀ meant, tm.meaning? = some meant →
    s.Firm t text meant

/-- A firm constant keeps its value. -/
theorem constantValue_grows (hs : s.Sound) (hg : s.Grows t u) {kind : TermType}
    (hfirm : kind = .iri → s.Firm t text meant)
    (h : (s.scope t).constantValue site kind text = .ok meant) :
    (s.scope u).constantValue site kind text = .ok meant := by
  cases kind with
  | iri =>
    rw [Scope.constantValue] at h ⊢
    split at h
    · next ha =>
      rw [if_pos ha]
      exact h
    · next ha =>
      rw [if_neg ha]
      exact (hfirm rfl).settled hs h u hg
  | literal => exact h
  | blankNode => exact h

/-- A firm constant is completed alike with more prefixes. -/
theorem completeConstant_grows (hs : s.Sound) (hg : s.Grows t u) {stated : Option TermType}
    {d : TermMap} (hfirm : ∀ meant, tm.meaning? = some meant → s.Firm t text meant)
    (h : (s.scope t).completeConstant site stated d text = .ok tm) :
    (s.scope u).completeConstant site stated d text = .ok tm := by
  unfold Scope.completeConstant at h ⊢
  dsimp only at h ⊢
  cases hvalue : (s.scope t).constantValue site (constantKind site stated d.isTagged) text with
  | error e =>
    rw [hvalue] at h
    cases h
  | ok value =>
    rw [hvalue] at h
    have hmeaning : constantKind site stated d.isTagged = .iri → tm.meaning? = some value := by
      intro hkind
      change (if _ then _ else _) = _ at h
      rw [hkind, if_neg (by decide)] at h
      split at h
      · cases h
      · cases h
        rfl
    rw [constantValue_grows hs hg (fun hkind => hfirm value (hmeaning hkind)) hvalue]
    exact h

/-- A firm template is completed alike with more prefixes. -/
theorem completeTemplate_grows (hs : s.Sound) (hg : s.Grows t u) {stated : Option TermType}
    {d : TermMap} (hfirm : ∀ meant, tm.meaning? = some meant → s.Firm t text meant)
    (h : (s.scope t).completeTemplate site stated d text = .ok tm) :
    (s.scope u).completeTemplate site stated d text = .ok tm := by
  unfold Scope.completeTemplate at h ⊢
  dsimp only at h ⊢
  split at h
  · next hiri =>
    rw [if_pos hiri]
    split at h
    · next resolved hresolved =>
      cases h
      have hu : (s.scope u).table.resolveTemplate (s.scope u).base text = .ok resolved :=
        (hfirm resolved rfl).resolveTemplate_grows hs hresolved hg
      rw [hu]
    · cases h
  · next hiri =>
    rw [if_neg hiri]
    exact h

/-- **A firm draft is completed alike with more prefixes.** -/
theorem complete_grows (hs : s.Sound) (hg : s.Grows t u) {d : Draft} (hd : s.FirmDraft t d tm)
    (h : (s.scope t).complete site d = .ok tm) : (s.scope u).complete site d = .ok tm := by
  unfold Scope.complete at h ⊢
  have hdatatype : (s.scope u).resolveOptional d.datatype =
      (s.scope t).resolveOptional d.datatype := by
    unfold Scope.resolveOptional
    rcases hd.datatype with hempty | ⟨iri, hiri⟩
    · rw [if_pos hempty, if_pos hempty]
    · rw [hiri u hg, hiri t (.refl s t)]
  rw [hdatatype]
  -- only constants and templates have names in them that are resolved
  cases hdata : (s.scope t).resolveOptional d.datatype with
  | error e =>
    rw [hdata] at h
    cases h
  | ok datatype =>
    rw [hdata] at h
    change (s.scope t).completeValue site d datatype = _ at h
    change (s.scope u).completeValue site d datatype = _
    have hvalue := hd.value
    unfold Scope.completeValue at h ⊢
    cases hv : d.value with
    | constant term =>
      rw [hv] at h hvalue
      exact completeConstant_grows hs hg (hvalue term.value rfl) h
    | template pattern =>
      rw [hv] at h hvalue
      exact completeTemplate_grows hs hg (hvalue pattern rfl) h
    | reference _ | function _ _ | join _ _ =>
      rw [hv] at h
      exact h

/-! ## Scalars -/

/-- A text that keeps its meaning when it is read as a term map. -/
def FirmText (s : Style) (t : PrefixTable) (text : String) (tm : TermMap) : Prop :=
  ∀ meant, tm.meaning? = some meant → s.Firm t text meant

theorem FirmText.grows (h : s.FirmText t text tm) (hg : s.Grows t u) : s.FirmText u text tm :=
  fun meant hm => (h meant hm).grows hg

theorem splitTermType_append (text : String) : ∃ tail, text = (splitTermType text).1 ++ tail := by
  have hsuffix {body suffix : String} (hcut : Text.cutLast? "~" text = some (body, suffix)) :
      ∃ tail, text = body ++ tail :=
    ⟨"~" ++ suffix, (Text.cutLast?_eq_some hcut).trans (String.append_assoc)⟩
  unfold splitTermType
  split
  · next hcut => exact hsuffix hcut
  · next hcut => exact hsuffix hcut
  · next hcut => exact hsuffix hcut
  · exact ⟨"", String.append_empty.symm⟩

/-- The names in what is inferred from a firm text are firm. -/
theorem Firm.inferValue (h : s.Firm t text meant) {value : Value} {name : String}
    (hv : inferValue text = .ok value) (hname : value.text? = some name) :
    s.Firm t name meant := by
  unfold Shorthand.inferValue at hv
  dsimp only at hv
  -- the name is the text itself, or what the text builds as a template
  split at hv
  · next rest _ =>
    cases hv
    cases hname
    exact firm_of_toList (String.toList_ofList) rfl (by decide) meant
  · split at hv
    · cases hv
    · split at hv
      · cases hv
      · split at hv
        · cases hv
          cases hname
        · split at hv
          · cases hv
            cases hname
            exact h.build
          · split at hv
            · cases hv
              cases hname
            · split at hv
              · split at hv
                · cases hv
                  cases hname
                  exact h
                · cases hv
              · cases hv
                cases hname
                exact h

/-- A firm scalar has a firm draft. -/
theorem firmDraft_of_scalar (h : s.FirmText t text tm) {d : Draft}
    (hd : draftScalar text = .ok d) (span : Span) : s.FirmDraft t { d with span } tm := by
  unfold draftScalar at hd
  dsimp only at hd
  split at hd
  · next value hvalue =>
    cases hd
    obtain ⟨tail, htail⟩ := splitTermType_append text
    refine ⟨.inl rfl, fun name hname meant hm => ?_⟩
    have hwhole := h meant hm
    rw [htail] at hwhole
    exact hwhole.of_append.inferValue hvalue hname
  · cases hd

/-! ### Candidates -/

theorem colon_not_mem_typeSuffix (site : Site) (tm : TermMap) :
    ':' ∉ (typeSuffix site tm).toList := by
  unfold typeSuffix
  split
  · decide
  · cases tm.termType <;> decide

/-- The spellings of an IRI are firm. -/
theorem ensures_constantCandidates (hs : s.Sound) (hc : s.Covers t) (site : Site)
    (term : Constant) :
    Ensures s (s.constantCandidates site term) t fun texts u => term.kind = .iri →
      ∀ text ∈ texts, s.Firm u text term.value := by
  unfold constantCandidates
  split
  · split
    · next ha =>
      refine .pure fun _ text htext => ?_
      rw [List.mem_singleton.1 htext]
      intro _ hletter
      cases hletter
    · refine (ensures_iriText hs hc term.value).bind fun text u _ h => .pure fun _ text' htext => ?_
      rw [List.mem_singleton.1 htext]
      split
      · exact h.firm.append (by decide)
      · exact h.firm
  · next hkind => exact .pure fun h => by rw [hkind] at h; cases h
  · next hkind =>
    split
    · exact .pure fun h => by rw [hkind] at h; cases h
    · exact .pure fun h => by rw [hkind] at h; cases h

/-- **The scalars that may stand for a term map are firm.** -/
theorem ensures_candidates (hs : s.Sound) (hc : s.Covers t) (site : Site) (tm : TermMap) :
    Ensures s (s.candidates site tm) t fun texts u => ∀ text ∈ texts, s.FirmText u text tm := by
  unfold candidates
  split
  · exact .pure fun _ h => absurd h List.not_mem_nil
  · dsimp only
    split
    · next term hvalue =>
      refine (ensures_constantCandidates hs hc site term).mono fun texts u _ h text htext m hm => ?_
      rw [TermMap.meaning?, hvalue] at hm
      dsimp only at hm
      split at hm
      · next hkind =>
        cases hm
        exact h hkind text htext
      · cases hm
    · next name hvalue =>
      refine .pure fun text _ m hm => ?_
      rw [TermMap.meaning?, hvalue] at hm
      cases hm
    · next pattern hvalue =>
      refine Ensures.ite_bind (fun _ => ensures_templateText? hs hc pattern)
        (fun _ => .pure nofun) fun short u _ hfirm => .pure fun text htext meant hm => ?_
      rw [TermMap.meaning?, hvalue] at hm
      cases hm
      obtain ⟨body, hbody, rfl⟩ := List.mem_map.1 htext
      -- the suffix for the kind of term has no colon, so it makes no label
      refine Firm.append ?_ (colon_not_mem_typeSuffix site tm)
      rcases List.mem_append.1 hbody with hbody | hbody
      · exact hfirm body (Option.mem_toList.1 hbody) pattern
      · rw [List.mem_singleton.1 hbody]
        exact firm_self s u pattern
    · exact .pure fun _ h => absurd h List.not_mem_nil

end Style

end Shorthand

end RdfMapping
