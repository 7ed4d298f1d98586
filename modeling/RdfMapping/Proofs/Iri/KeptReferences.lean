/-
# References of resolved templates

Resolving a template changes the text before its first brace.  A backslash at the end of that text
makes the brace plain, so the fields of the template stay the same exactly if the resolved text ends
in such a backslash when the text itself does.
-/
import RdfMapping.Proofs.Iri.Rewriting

namespace RdfMapping.Iri.PrefixTable

open Mapping
open Mapping.Template (Unmarked IsPlain isPlain_append isPlain_cons separate_cons endsInEscape
  endsInEscape_append endsInEscape_append_cons eq_concat_of_endsInEscape HasNames
  hasNames_toList_iff hasNames_of_isPlain hasNames_congr not_hasNames_of_end_ne
  isPlain_of_hasNames exists_error_of_not_hasNames)

variable {t : PrefixTable} {base name iri text pattern : String}

/-! ## Ends of resolved heads -/

/-- What is resolved against the base for a name. -/
def relativeText? (t : PrefixTable) (name : String) : Option String :=
  match unbracket? name with
  | some inner => some inner
  | none =>
    match Text.cutFirst? ':' name with
    | none => some name
    | some (label, _) => if label = "" || (t.lookup? label).isSome then none else some name

/-- A text that ends in an escape exactly if the resolved name does. -/
def shownEnd (t : PrefixTable) (name : String) : List Char :=
  match t.relativeText? name with
  | some text => keptEnd text.toList
  | none => name.toList

/-- Whether resolving moves the first brace in or out of an escape. -/
def movesEscape (t : PrefixTable) (pattern : String) : Bool :=
  (cutHead pattern).2 ≠ "" && !isAbsoluteHead (cutHead pattern).1 &&
    endsInEscape (cutHead pattern).1.toList != endsInEscape (t.shownEnd (cutHead pattern).1)

/-- A name that does not look absolute is read against the base or by its label. -/
theorem resolve_eq_ok_cases (habs : isAbsoluteHead name = false)
    (h : t.resolve base name = .ok iri) :
    (∃ text, t.relativeText? name = some text ∧ iri = resolveIri base text) ∨
      t.relativeText? name = none ∧ ∃ label start rest,
        Text.cutFirst? ':' name = some (label, rest) ∧
          (t.lookup? label = some start ∨ start = base) ∧ iri = start ++ rest := by
  unfold resolve at h
  unfold relativeText?
  cases hbracket : unbracket? name with
  | some inner =>
    rw [hbracket] at h
    cases h
    exact .inl ⟨inner, rfl, rfl⟩
  | none =>
    rw [hbracket] at h
    cases hcut : Text.cutFirst? ':' name with
    | none =>
      rw [hcut] at h
      cases h
      exact .inl ⟨name, rfl, rfl⟩
    | some parts =>
      obtain ⟨label, rest⟩ := parts
      rw [hcut] at h
      simp only [isAbsoluteHead, hcut, Bool.or_eq_false_iff] at habs
      dsimp only at h ⊢
      rw [habs.1, if_neg Bool.false_ne_true] at h
      cases hlookup : t.lookup? label with
      | some ns =>
        rw [hlookup] at h
        cases h
        exact .inr ⟨if_pos (by simp), label, ns, rest, rfl, .inl hlookup, rfl⟩
      | none =>
        rw [hlookup] at h
        dsimp only at h
        by_cases hlabel : label = ""
        · rw [if_pos hlabel] at h
          cases h
          exact .inr ⟨if_pos (by simp [hlabel]), label, base, rest, rfl, .inr rfl, rfl⟩
        · -- the label is no scheme either: an error, or the whole name is relative
          rw [if_neg hlabel, habs.2, if_neg Bool.false_ne_true] at h
          split at h
          · cases h
          · cases h
            exact .inl ⟨name, if_neg (by simp [hlabel]), rfl⟩

/-- What is resolved for a plain name is plain. -/
theorem isPlain_relativeText? (h : t.relativeText? name = some text) (hname : IsPlain name.toList) :
    IsPlain text.toList := by
  unfold relativeText? at h
  split at h
  · next inner hbracket =>
    cases h
    rw [unbracket?_eq_some hbracket, List.cons_append, isPlain_cons rfl,
      isPlain_append (separate_cons rfl _ _)] at hname
    exact hname.1
  · split at h
    · cases h
      exact hname
    · split at h
      · cases h
      · cases h
        exact hname

/-- **A plain name is resolved to a plain text**, with its end. -/
theorem resolve_end (ht : ∀ l ns, t.lookup? l = some ns → Unmarked ns.toList)
    (hbase : isAbsolute base = true) (hunmarked : Unmarked base.toList)
    (hname : IsPlain name.toList) (habs : isAbsoluteHead name = false)
    (h : t.resolve base name = .ok iri) :
    IsPlain iri.toList ∧ endsInEscape iri.toList = endsInEscape (t.shownEnd name) := by
  unfold shownEnd
  rcases resolve_eq_ok_cases habs h with ⟨text, htext, rfl⟩ |
    ⟨hnone, label, start, rest, hcut, hstart, rfl⟩
  · rw [htext]
    exact resolveIri_end hbase hunmarked (isPlain_relativeText? htext hname)
  · -- only what follows the colon can be seen from the end
    have hchars := (Text.cutFirst?_eq_some hcut).1
    have hclean : Unmarked start.toList := by
      rcases hstart with hbound | rfl
      · exact ht label start hbound
      · exact hunmarked
    rw [hchars, isPlain_append (separate_cons rfl _ _), isPlain_cons rfl] at hname
    rw [hnone, String.toList_append, hclean.isPlain_append,
      endsInEscape_append hclean.endsInEscape]
    dsimp only
    rw [hchars, endsInEscape_append_cons (by decide)]
    exact ⟨hname.2, rfl⟩

/-- What is resolved for a name is a part of it. -/
theorem relativeText?_subset (h : t.relativeText? name = some text) :
    text.toList ⊆ name.toList := by
  unfold relativeText? at h
  split at h
  · next inner hbracket =>
    cases h
    rw [unbracket?_eq_some hbracket, List.cons_append]
    exact fun c hc => List.mem_cons_of_mem _ (List.mem_append_left _ hc)
  · split at h
    · cases h
      exact List.Subset.refl _
    · split at h
      · cases h
      · cases h
        exact List.Subset.refl _

theorem shownEnd_subset (t : PrefixTable) (name : String) : t.shownEnd name ⊆ name.toList := by
  unfold shownEnd
  split
  · next text htext => exact List.Subset.trans (keptEnd_subset _) (relativeText?_subset htext)
  · exact List.Subset.refl _

/-- Without a backslash before the first brace no escape moves. -/
theorem movesEscape_of_not_mem (h : '\\' ∉ (cutHead pattern).1.toList) :
    t.movesEscape pattern = false := by
  have hnone {s : List Char} (hs : s ⊆ (cutHead pattern).1.toList) : endsInEscape s = false := by
    cases hescape : endsInEscape s with
    | false => rfl
    | true =>
      obtain ⟨start, rfl, -⟩ := eq_concat_of_endsInEscape hescape
      exact absurd (hs (List.mem_append_right _ (List.mem_singleton_self _))) h
  rw [movesEscape, hnone (List.Subset.refl _), hnone (t.shownEnd_subset _), bne_self_eq_false,
    Bool.and_false]

theorem movesEscape_of_isAbsoluteHead (h : isAbsoluteHead (cutHead pattern).1 = true) :
    t.movesEscape pattern = false := by
  rw [movesEscape, h, Bool.not_true, Bool.and_false, Bool.false_and]

/-! ## Templates -/

/-- The rest of a template follows its resolved head as it followed the head. -/
theorem hasNames_resolved {head iri : List Char} {rest : String} {names : List String}
    (hhead : IsPlain head) (hiri : IsPlain iri) (hrest : rest = "" ∨ rest.toList.head? = some '{')
    (h : HasNames (head ++ rest.toList) names) :
    ((rest ≠ "" && endsInEscape head != endsInEscape iri) = false →
      HasNames (iri ++ rest.toList) names) ∧
      ((rest ≠ "" && endsInEscape head != endsInEscape iri) = true →
        ∀ names', ¬ HasNames (iri ++ rest.toList) names') := by
  rcases hrest with rfl | hbrace
  · -- nothing follows, and there are no fields
    have hnames : names = [] := by
      have hchars : HasNames (head ++ []) [] := by
        rw [List.append_nil]
        exact hasNames_of_isPlain hhead
      exact h.unique hchars
    have hiri' : HasNames (iri ++ []) [] := by
      rw [List.append_nil]
      exact hasNames_of_isPlain hiri
    rw [hnames]
    exact ⟨fun _ => hiri', fun hmoves => absurd hmoves (by simp)⟩
  · obtain ⟨tail, htail⟩ := List.head?_eq_some_iff.1 hbrace
    have hne : rest ≠ "" := by
      rintro rfl
      cases hbrace
    rw [htail] at h ⊢
    rw [decide_eq_true hne, Bool.true_and]
    refine ⟨fun hsame => ?_, fun hmoves names' => ?_⟩
    · exact hasNames_congr hhead hiri (by simpa using hsame) h
    · exact not_hasNames_of_end_ne hhead hiri (by simpa using hmoves) h

/-- **A resolved template has the fields of the template if no escape moves, and is no template
otherwise**, whatever the labels of the table are. -/
theorem parse_resolveTemplate {t : PrefixTable} {base pattern resolved : String}
    {segs : List Segment} (ht : ∀ b ∈ t.bindings, Unmarked b.2.toList)
    (hbase : isAbsolute base = true) (hunmarked : Unmarked base.toList)
    (hparse : Template.parse pattern = .ok segs)
    (hresolve : t.resolveTemplate base pattern = .ok resolved) :
    (t.movesEscape pattern = false → ∃ segs', Template.parse resolved = .ok segs' ∧
      Template.namesOf segs' = Template.namesOf segs) ∧
      (t.movesEscape pattern = true →
        ∃ fault, Template.parse resolved = .error ⟨fault, resolved⟩) := by
  have hnames : HasNames pattern.toList (Template.namesOf segs) :=
    hasNames_toList_iff.2 ⟨segs, hparse, rfl⟩
  rw [← hasNames_toList_iff]
  unfold resolveTemplate at hresolve
  dsimp only at hresolve
  split at hresolve
  · next hkept =>
    cases hresolve
    have hstays : t.movesEscape pattern = false := by
      rcases Bool.or_eq_true_iff.1 hkept with hempty | habs
      · refine movesEscape_of_not_mem ?_
        rw [of_decide_eq_true hempty]
        exact List.not_mem_nil
      · exact movesEscape_of_isAbsoluteHead habs
    rw [hstays]
    exact ⟨fun _ => hnames, fun hmoves => absurd hmoves Bool.false_ne_true⟩
  · next hread =>
    simp only [Bool.or_eq_true, decide_eq_true_eq, not_or, Bool.not_eq_true] at hread
    cases hiri : t.resolve base (cutHead pattern).1 with
    | error e =>
      rw [hiri] at hresolve
      cases hresolve
    | ok iri =>
      rw [hiri] at hresolve
      cases hresolve
      rw [cutHead_append] at hnames
      have hhead : IsPlain (cutHead pattern).1.toList :=
        isPlain_of_hasNames (brace_not_mem_head pattern) hnames
      obtain ⟨hplain, hend⟩ := resolve_end (fun l ns hl => ht _ (mem_of_lookup? hl)) hbase
        hunmarked hhead hread.2 hiri
      obtain ⟨hsame, hmoved⟩ := hasNames_resolved hhead hplain (cutHead_rest pattern) hnames
      rw [movesEscape, hread.2, Bool.not_false, Bool.and_true, ← hend]
      refine ⟨fun hstays => ?_, fun hmoves => exists_error_of_not_hasNames fun names' => ?_⟩
      · rw [String.toList_append]
        exact hsame hstays
      · rw [String.toList_append]
        exact hmoved hmoves names'

/-- A relative head without backslashes. -/
theorem parse_resolveTemplate_person :
    (∀ b ∈ tagTable.bindings, Unmarked b.2.toList) ∧ isAbsolute "http://ex.org/" = true ∧
      Unmarked "http://ex.org/".toList ∧
      Template.parse "person/{id}/{name}" =
        .ok [.text "person/", .reference "id", .text "/", .reference "name"] ∧
      tagTable.resolveTemplate "http://ex.org/" "person/{id}/{name}" =
        .ok "http://ex.org/person/{id}/{name}" ∧
      ∃ segs, Template.parse "http://ex.org/person/{id}/{name}" = .ok segs ∧
        Template.namesOf segs = ["id", "name"] := by
  have ht : ∀ b ∈ tagTable.bindings, Unmarked b.2.toList := by decide
  have hbase : isAbsolute "http://ex.org/" = true := by decide +kernel
  have hunmarked : Unmarked "http://ex.org/".toList := by decide
  have hparse : Template.parse "person/{id}/{name}" =
      .ok [.text "person/", .reference "id", .text "/", .reference "name"] := by decide +kernel
  have hresolve : tagTable.resolveTemplate "http://ex.org/" "person/{id}/{name}" =
      .ok "http://ex.org/person/{id}/{name}" := by decide +kernel
  have hstays : tagTable.movesEscape "person/{id}/{name}" = false :=
    movesEscape_of_not_mem (by decide)
  exact ⟨ht, hbase, hunmarked, hparse, hresolve,
    (parse_resolveTemplate ht hbase hunmarked hparse hresolve).1 hstays⟩

/-- Three templates with one field that are none once they are resolved: an escape before the first
brace is encoded, and a backslash comes before it when brackets or an empty fragment go. -/
theorem resolveTemplate_moves_escapes :
    (Template.parse "\\\x7b{id}" = .ok [.text "\x7b", .reference "id"] ∧
      empty.resolveTemplate "http://ex.org/" "\\\x7b{id}" = .ok "http://ex.org/%5C\x7b{id}" ∧
      Template.parse "http://ex.org/%5C\x7b{id}" =
        .error ⟨.nested 18, "http://ex.org/%5C\x7b{id}"⟩) ∧
    (Template.parse "<?q=\\>{id}" = .ok [.text "<?q=\\>", .reference "id"] ∧
      empty.resolveTemplate "http://ex.org/" "<?q=\\>{id}" = .ok "http://ex.org/?q=\\{id}" ∧
      Template.parse "http://ex.org/?q=\\{id}" =
        .error ⟨.unmatched 21, "http://ex.org/?q=\\{id}"⟩) ∧
    Template.parse "?q=\\#{id}" = .ok [.text "?q=\\#", .reference "id"] ∧
      empty.resolveTemplate "http://ex.org/" "?q=\\#{id}" = .ok "http://ex.org/?q=\\{id}" := by
  decide +kernel

end RdfMapping.Iri.PrefixTable
