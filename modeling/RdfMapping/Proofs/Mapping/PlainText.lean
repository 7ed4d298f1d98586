/-
# Text before the first reference

The text before the first reference does not matter to the names of the fields, except for its end:
a backslash there decides whether the next brace begins a reference.
-/
import RdfMapping.Proofs.Mapping.Templates

namespace RdfMapping.Mapping.Template

variable {s t buffer s' : List Char} {c : Char} {names names' : List String} {pattern : String}
  {ms : List Mark} {segs : List Segment}

/-! ## Plain texts -/

/-- Whether a mark is a character. -/
def Mark.isChar : Mark → Bool
  | .char _ => true
  | _ => false

/-- A text all of whose braces are escaped. -/
def IsPlain (s : List Char) : Prop :=
  ∀ m ∈ shapes s, m.isChar = true

theorem isPlain_append (h : Separate s t) :
    IsPlain (s ++ t) ↔ IsPlain s ∧ IsPlain t := by
  rw [IsPlain, shapes_append h]
  exact List.forall_mem_append

theorem isPlain_cons (h : isEscapable c = false) (s : List Char) :
    IsPlain (c :: s) ↔ IsPlain s := by
  rw [IsPlain, shapes_cons (ne_backslash h), markOf_of_not_isEscapable h, List.forall_mem_cons]
  exact and_iff_right rfl

/-- A text that ends in an escape is another one with a backslash. -/
theorem eq_concat_of_endsInEscape (h : endsInEscape s = true) :
    ∃ start, s = start ++ ['\\'] ∧ endsInEscape start = false := by
  induction s using List.reverseRecOn with
  | nil => cases h
  | append_singleton start c _ =>
    simp only [endsInEscape_concat, Bool.and_eq_true, decide_eq_true_eq, Bool.not_eq_true'] at h
    exact ⟨start, by rw [h.1], h.2⟩

/-- A text without braces and backslashes. -/
def Unmarked (s : List Char) : Prop :=
  ∀ c ∈ s, isEscapable c = false

instance (s : List Char) : Decidable (Unmarked s) :=
  decidable_of_iff ((s.all fun c => !isEscapable c) = true) (by simp [Unmarked])

theorem unmarked_nil : Unmarked [] :=
  fun _ hc => absurd hc List.not_mem_nil

theorem unmarked_cons :
    Unmarked (c :: s) ↔ isEscapable c = false ∧ Unmarked s :=
  List.forall_mem_cons

theorem unmarked_append : Unmarked (s ++ t) ↔ Unmarked s ∧ Unmarked t :=
  List.forall_mem_append

theorem Unmarked.endsInEscape (h : Unmarked s) : endsInEscape s = false := by
  cases hescape : Template.endsInEscape s with
  | false => rfl
  | true =>
    obtain ⟨start, rfl, -⟩ := eq_concat_of_endsInEscape hescape
    exact absurd (unmarked_append.1 h).2 (by decide)

theorem Unmarked.isPlain_append (h : Unmarked s) (t : List Char) :
    IsPlain (s ++ t) ↔ IsPlain t := by
  induction s with
  | nil => rfl
  | cons c s ih =>
    obtain ⟨hc, hs⟩ := unmarked_cons.1 h
    rw [List.cons_append, isPlain_cons hc, ih hs]

theorem isPlain_nil : IsPlain [] :=
  fun _ hm => absurd hm List.not_mem_nil

theorem Unmarked.isPlain (h : Unmarked s) : IsPlain s := by
  rw [← List.append_nil s, h.isPlain_append]
  exact isPlain_nil

theorem isPlain_backslash : IsPlain ['\\'] := by
  unfold IsPlain
  decide

/-- The characters that plain text is read as. -/
theorem IsPlain.exists_chars (h : IsPlain s) :
    ∃ cs : List Char, shapes s = cs.map .char := by
  unfold IsPlain at h
  generalize shapes s = ms at h
  induction ms with
  | nil => exact ⟨[], rfl⟩
  | cons m ms ih =>
    obtain ⟨hm, hms⟩ := List.forall_mem_cons.1 h
    obtain ⟨cs, rfl⟩ := ih hms
    cases m with
    | char c => exact ⟨c :: cs, rfl⟩
    | opening offset => cases hm
    | closing offset => cases hm

/-! ## Names of fields -/

/-- The names of the fields in a text that is a template. -/
def HasNames (s : List Char) (names : List String) : Prop :=
  ∃ segs, segments false [] (shapes s) = .ok segs ∧ namesOf segs = names

theorem hasNames_toList_iff :
    HasNames pattern.toList names ↔ ∃ segs, parse pattern = .ok segs ∧ namesOf segs = names := by
  simp only [HasNames, parse_eq_ok_iff]

theorem HasNames.unique (h : HasNames s names) (h' : HasNames s names') : names = names' := by
  obtain ⟨segs, hsegs, rfl⟩ := h
  obtain ⟨segs', hsegs', rfl⟩ := h'
  rw [Except.ok.inj (hsegs.symm.trans hsegs')]

/-- A pattern without names is no template. -/
theorem exists_error_of_not_hasNames (h : ∀ names, ¬ HasNames pattern.toList names) :
    ∃ fault, parse pattern = .error ⟨fault, pattern⟩ := by
  cases hsegs : segments false [] (marks 0 pattern.toList) with
  | error fault => exact ⟨fault, by rw [parse, hsegs]; rfl⟩
  | ok segs =>
    have hparse : parse pattern = .ok segs := by rw [parse, hsegs]; rfl
    exact absurd (hasNames_toList_iff.2 ⟨segs, hparse, rfl⟩) (h _)

theorem namesOf_textSegment_append (buffer : List Char) (segs : List Segment) :
    namesOf (textSegment buffer ++ segs) = namesOf segs := by
  by_cases hbuffer : buffer = []
  · rw [hbuffer]
    rfl
  · rw [textSegment_of_ne hbuffer]
    rfl

theorem namesOf_textSegment (buffer : List Char) : namesOf (textSegment buffer) = [] := by
  rw [← List.append_nil (textSegment buffer), namesOf_textSegment_append]
  rfl

/-- Text that is still open does not matter to the names. -/
theorem exists_segments_buffer (buffer buffer' : List Char) (ms : List Mark)
    (names : List String) :
    (∃ segs, segments false buffer ms = .ok segs ∧ namesOf segs = names) →
      ∃ segs, segments false buffer' ms = .ok segs ∧ namesOf segs = names := by
  -- up to the first reference both buffers grow alike, and there they are dropped
  induction ms generalizing buffer buffer' with
  | nil =>
    rintro ⟨segs, hsegs, rfl⟩
    obtain ⟨-, rfl⟩ := segments_nil_eq_ok_iff.1 hsegs
    refine ⟨_, segments_nil_eq_ok_iff.2 ⟨rfl, rfl⟩, ?_⟩
    rw [namesOf_textSegment, namesOf_textSegment]
  | cons m ms ih =>
    rintro ⟨segs, hsegs, rfl⟩
    cases m with
    | char c => exact ih _ _ ⟨segs, hsegs, rfl⟩
    | opening offset =>
      obtain ⟨-, tail, htail, rfl⟩ := segments_opening_eq_ok_iff.1 hsegs
      refine ⟨_, segments_opening_eq_ok_iff.2 ⟨rfl, tail, htail, rfl⟩, ?_⟩
      rw [namesOf_textSegment_append, namesOf_textSegment_append]
    | closing offset => exact absurd (segments_closing_eq_ok_iff.1 hsegs).1 Bool.false_ne_true

/-- Plain text before a template does not matter to its names. -/
theorem hasNames_append (hs : IsPlain s) (hend : endsInEscape s = false) :
    HasNames (s ++ t) names ↔ HasNames t names := by
  obtain ⟨cs, hcs⟩ := hs.exists_chars
  have hshapes : shapes (s ++ t) = cs.map .char ++ shapes t := by
    rw [shapes_append (separate_of_end hend t), hcs]
  rw [HasNames, hshapes, segments_chars]
  exact ⟨exists_segments_buffer _ _ _ _, exists_segments_buffer _ _ _ _⟩

/-- Neither does an escaped character after it. -/
theorem hasNames_append_escape (hs : IsPlain s) (hend : endsInEscape s = true)
    (hc : isEscapable c = true) :
    HasNames (s ++ c :: t) names ↔ HasNames t names := by
  obtain ⟨start, rfl, hstart⟩ := eq_concat_of_endsInEscape hend
  have hplain : IsPlain start := ((isPlain_append (separate_of_end hstart _)).1 hs).1
  rw [List.append_assoc, List.singleton_append, hasNames_append hplain hstart, HasNames,
    shapes_escape hc, segments, List.nil_append]
  exact ⟨exists_segments_buffer _ _ _ _, exists_segments_buffer _ _ _ _⟩

/-- Marks are not accepted both inside and outside of a reference. -/
theorem segments_outside_ne_ok {buffer' : List Char} {segs' : List Segment}
    (h : segments true buffer ms = .ok segs) : segments false buffer' ms ≠ .ok segs' := by
  induction ms generalizing buffer buffer' with
  | nil => exact absurd (segments_nil_eq_ok_iff.1 h).1 (by decide)
  | cons m ms ih =>
    cases m with
    | char c => exact ih h
    | opening offset => exact absurd (segments_opening_eq_ok_iff.1 h).1 (by decide)
    | closing offset =>
      exact fun h' => absurd (segments_closing_eq_ok_iff.1 h').1 Bool.false_ne_true

/-- **The names are the same after another text with the same end.** -/
theorem hasNames_congr {s s' t : List Char} (hs : IsPlain s) (hs' : IsPlain s')
    (hend : endsInEscape s = endsInEscape s') {names : List String}
    (h : HasNames (s ++ '{' :: t) names) : HasNames (s' ++ '{' :: t) names := by
  cases hescape : endsInEscape s with
  | true =>
    rw [hasNames_append_escape hs hescape rfl] at h
    rwa [hasNames_append_escape hs' (hend ▸ hescape) rfl]
  | false =>
    rw [hasNames_append hs hescape] at h
    rwa [hasNames_append hs' (hend ▸ hescape)]

/-- A text is not a template both with a brace before it and without. -/
theorem not_hasNames_of_opening {t : List Char} {names names' : List String}
    (h : HasNames ('{' :: t) names) : ¬ HasNames t names' := by
  obtain ⟨segs, hsegs, -⟩ := h
  rw [shapes_cons (by decide)] at hsegs
  obtain ⟨-, tail, htail, -⟩ := segments_opening_eq_ok_iff.1 hsegs
  rintro ⟨segs', hsegs', -⟩
  exact segments_outside_ne_ok htail hsegs'

/-- **After a text with another end nothing is read.** -/
theorem not_hasNames_of_end_ne {s s' t : List Char} (hs : IsPlain s) (hs' : IsPlain s')
    (hend : endsInEscape s ≠ endsInEscape s') {names names' : List String}
    (h : HasNames (s ++ '{' :: t) names) : ¬ HasNames (s' ++ '{' :: t) names' := by
  cases hescape : endsInEscape s with
  | true =>
    have hescape' : endsInEscape s' = false := by
      rw [hescape] at hend
      exact Bool.eq_false_iff.2 hend.symm
    rw [hasNames_append_escape hs hescape rfl] at h
    rw [hasNames_append hs' hescape']
    -- the brace was plain and now begins a reference
    exact fun h' => not_hasNames_of_opening h' h
  | false =>
    have hescape' : endsInEscape s' = true := by
      rw [hescape] at hend
      rwa [Ne, eq_comm, Bool.not_eq_false] at hend
    rw [hasNames_append hs hescape] at h
    rw [hasNames_append_escape hs' hescape' rfl]
    -- the brace began a reference and is now plain
    exact not_hasNames_of_opening h

theorem hasNames_of_isPlain (h : IsPlain s) : HasNames s [] := by
  obtain ⟨cs, hcs⟩ := h.exists_chars
  refine ⟨textSegment cs, ?_, namesOf_textSegment cs⟩
  rw [hcs, ← List.append_nil (cs.map _), segments_chars]
  exact segments_nil_eq_ok_iff.2 ⟨rfl, rfl⟩

/-! ## The text before the first brace -/

/-- A field begins at a brace of the text. -/
theorem brace_mem_of_opening_mem {offset : Nat} (h : .opening offset ∈ shapes s) : '{' ∈ s := by
  induction s using scanInduction with
  | nil => cases h
  | escape c rest hc ih =>
    rw [shapes_escape hc] at h
    rcases List.mem_cons.1 h with hfirst | hrest
    · cases hfirst
    · exact List.mem_cons_of_mem _ (List.mem_cons_of_mem _ (ih hrest))
  | backslash rest hrest ih =>
    rw [shapes_backslash rest hrest] at h
    rcases List.mem_cons.1 h with hfirst | hmem
    · cases hfirst
    · exact List.mem_cons_of_mem _ (ih hmem)
  | other c rest hc ih =>
    rw [shapes_cons hc] at h
    rcases List.mem_cons.1 h with hfirst | hmem
    · by_cases hbrace : c = '{'
      · rw [hbrace]
        exact List.mem_cons_self ..
      · rw [markOf, if_neg hbrace] at hfirst
        split at hfirst <;> cases hfirst
    · exact List.mem_cons_of_mem _ (ih hmem)

/-- Accepted marks before the first opening brace are characters. -/
theorem isChar_of_segments {rest : List Mark} (hms : ∀ offset, .opening offset ∉ ms)
    (h : segments false buffer (ms ++ rest) = .ok segs) : ∀ m ∈ ms, m.isChar = true := by
  induction ms generalizing buffer with
  | nil => exact fun m hm => absurd hm List.not_mem_nil
  | cons m ms ih =>
    refine List.forall_mem_cons.2 ?_
    cases m with
    | char c =>
      exact ⟨rfl, ih (fun offset hmem => hms offset (List.mem_cons_of_mem _ hmem)) h⟩
    | opening offset => exact absurd (List.mem_cons_self ..) (hms offset)
    | closing offset => exact absurd (segments_closing_eq_ok_iff.1 h).1 Bool.false_ne_true

/-- **The text of a template before its first brace is plain.** -/
theorem isPlain_of_hasNames {s t : List Char} (hs : '{' ∉ s) {names : List String}
    (h : HasNames (s ++ t) names) : IsPlain s := by
  obtain ⟨segs, hsegs, -⟩ := h
  have hopening {start : List Char} (hstart : start ⊆ s) (offset : Nat) :
      .opening offset ∉ shapes start :=
    fun hmem => hs (hstart (brace_mem_of_opening_mem hmem))
  by_cases hseparate : Separate s t
  · rw [shapes_append hseparate] at hsegs
    exact isChar_of_segments (hopening (List.Subset.refl s)) hsegs
  · -- the last backslash escapes the brace, and the text before it is plain
    rw [Separate, Classical.not_imp] at hseparate
    obtain ⟨start, rfl, hstart⟩ := eq_concat_of_endsInEscape hseparate.1
    rw [List.append_assoc, shapes_append (separate_of_end hstart _)] at hsegs
    rw [isPlain_append (separate_of_end hstart _)]
    refine ⟨isChar_of_segments (hopening ?_) hsegs, isPlain_backslash⟩
    exact List.subset_append_left ..

end RdfMapping.Mapping.Template
