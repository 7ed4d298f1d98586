/-
# Reading and writing templates

A pattern is read by a scanner that looks one character ahead for escapes; segments are written
one by one, each with its own escapes.  The two agree on the segments that the scanner can give.
-/
import Mathlib.Data.List.Chain
import RdfMapping.Mapping.Template

namespace RdfMapping.Mapping.Template

variable {c : Char} {s buffer : List Char} {segs : List Segment}

/-! ## Shapes of marks -/

/-- A mark without its offset. -/
def Mark.shape : Mark → Mark
  | .char c => .char c
  | .opening _ => .opening 0
  | .closing _ => .closing 0

/-- The marks of a text without their offsets. -/
def shapes (s : List Char) : List Mark :=
  (marks 0 s).map Mark.shape

theorem shape_markOf (offset : Nat) (c : Char) : (markOf offset c).shape = markOf 0 c := by
  unfold markOf
  split
  · rfl
  · split <;> rfl

theorem map_shape_marks (offset offset' : Nat) (s : List Char) :
    (marks offset s).map Mark.shape = (marks offset' s).map Mark.shape := by
  fun_induction marks offset s generalizing offset' with
  | case1 => rfl
  | case2 offset c rest hc ih =>
    rw [marks, if_pos hc, List.map_cons, List.map_cons, ih (offset' + 2)]
  | case3 offset c rest hc ih =>
    rw [marks, if_neg hc, List.map_cons, List.map_cons, ih (offset' + 1)]
  | case4 offset c rest hc ih =>
    rw [marks.eq_3 _ _ _ hc, List.map_cons, List.map_cons, shape_markOf, shape_markOf,
      ih (offset' + c.utf8Size)]

theorem shapes_escape (h : isEscapable c = true) (rest : List Char) :
    shapes ('\\' :: c :: rest) = .char c :: shapes rest := by
  rw [shapes, marks, if_pos h, List.map_cons, map_shape_marks _ 0]
  rfl

theorem shapes_cons (h : c ≠ '\\') (rest : List Char) :
    shapes (c :: rest) = markOf 0 c :: shapes rest := by
  rw [shapes, marks.eq_3 _ _ _ (fun _ _ hc => absurd hc h), List.map_cons, shape_markOf,
    map_shape_marks _ 0]
  rfl

/-- A backslash that escapes nothing is a character. -/
theorem shapes_backslash (rest : List Char) (h : ∀ c ∈ rest.head?, isEscapable c = false) :
    shapes ('\\' :: rest) = .char '\\' :: shapes rest := by
  cases rest with
  | nil => rfl
  | cons c rest =>
    have hc : isEscapable c = false := h c rfl
    rw [shapes, marks, if_neg (by simp [hc]), List.map_cons, map_shape_marks _ 0]
    rfl

/-- Whether an odd number of backslashes ends the text. -/
def endsInEscape (s : List Char) : Bool :=
  s.foldl (fun escaped c => c = '\\' && !escaped) false

theorem endsInEscape_concat (s : List Char) (c : Char) :
    endsInEscape (s ++ [c]) = (c = '\\' && !endsInEscape s) := by
  rw [endsInEscape, List.foldl_append]
  rfl

theorem endsInEscape_append (h : endsInEscape s = false) (t : List Char) :
    endsInEscape (s ++ t) = endsInEscape t := by
  rw [endsInEscape, List.foldl_append]
  exact congrArg (t.foldl _) h

/-- What stands before a character other than a backslash does not matter. -/
theorem endsInEscape_append_cons (h : c ≠ '\\') (s t : List Char) :
    endsInEscape (s ++ c :: t) = endsInEscape t := by
  have hreset : endsInEscape (s ++ [c]) = false := by
    rw [endsInEscape_concat, decide_eq_false h, Bool.false_and]
  rw [List.append_cons, endsInEscape_append hreset]

theorem endsInEscape_cons (h : c ≠ '\\') (s : List Char) :
    endsInEscape (c :: s) = endsInEscape s :=
  endsInEscape_append_cons h [] s

theorem endsInEscape_escape (s : List Char) :
    endsInEscape ('\\' :: c :: s) = endsInEscape s :=
  endsInEscape_append (s := ['\\', c]) (by simp [endsInEscape]) s

/-- A test that braces and the backslash fail. -/
theorem not_isEscapable_of_test {p : Char → Bool}
    (hp : p '{' = false ∧ p '}' = false ∧ p '\\' = false) (h : p c = true) :
    isEscapable c = false := by
  rw [Bool.eq_false_iff]
  intro hc
  simp only [isEscapable, Bool.or_eq_true, decide_eq_true_eq] at hc
  rcases hc with (rfl | rfl) | rfl
  · exact absurd (hp.1.symm.trans h) Bool.false_ne_true
  · exact absurd (hp.2.1.symm.trans h) Bool.false_ne_true
  · exact absurd (hp.2.2.symm.trans h) Bool.false_ne_true

theorem ne_backslash (h : isEscapable c = false) : c ≠ '\\' := by
  rintro rfl
  cases h

theorem markOf_of_not_isEscapable (h : isEscapable c = false) :
    markOf 0 c = .char c := by
  simp only [isEscapable, Bool.or_eq_false_iff, decide_eq_false_iff_not] at h
  rw [markOf, if_neg h.1.1, if_neg h.1.2]

/-- Induction along the scanner. -/
@[elab_as_elim]
theorem scanInduction {motive : List Char → Prop} (s : List Char) (nil : motive [])
    (escape : ∀ c rest, isEscapable c = true → motive rest → motive ('\\' :: c :: rest))
    (backslash : ∀ rest, (∀ c ∈ rest.head?, isEscapable c = false) → motive rest →
      motive ('\\' :: rest))
    (other : ∀ c rest, c ≠ '\\' → motive rest → motive (c :: rest)) : motive s := by
  -- `unescapeChars` looks ahead as the scanner does
  induction s using unescapeChars.induct with
  | case1 => exact nil
  | case2 c rest hc ih => exact escape c rest hc ih
  | case3 c rest hc ih =>
    refine backslash (c :: rest) (fun d hd => ?_) ih
    cases hd
    exact Bool.eq_false_iff.2 hc
  | case4 c rest hc ih =>
    by_cases hne : c = '\\'
    · subst hne
      cases rest with
      | nil => exact backslash [] (fun d hd => absurd hd (Option.not_mem_none d)) ih
      | cons d rest => exact absurd rfl (hc d rest rfl)
    · exact other c rest hne ih

/-- No backslash at the end of the first text escapes the beginning of the second. -/
def Separate (s t : List Char) : Prop :=
  endsInEscape s = true → ∀ c ∈ t.head?, isEscapable c = false

theorem separate_of_end (h : endsInEscape s = false) (t : List Char) :
    Separate s t :=
  fun hescape => absurd (h.symm.trans hescape) Bool.false_ne_true

theorem separate_cons (h : isEscapable c = false) (s t : List Char) :
    Separate s (c :: t) := by
  intro _ d hd
  cases hd
  exact h

/-- **Separate texts are scanned one after the other.** -/
theorem shapes_append {t : List Char} (h : Separate s t) :
    shapes (s ++ t) = shapes s ++ shapes t := by
  unfold Separate at h
  induction s using scanInduction with
  | nil => rfl
  | escape c rest hc ih =>
    rw [endsInEscape_escape] at h
    rw [List.cons_append, List.cons_append, shapes_escape hc, shapes_escape hc, ih h,
      List.cons_append]
  | backslash rest hrest ih =>
    cases rest with
    | nil => exact shapes_backslash t (h rfl)
    | cons c rest =>
      -- the backslash escapes nothing, so the end is that of what follows it
      have hc : c ≠ '\\' := ne_backslash (hrest c rfl)
      rw [endsInEscape_escape, ← endsInEscape_cons hc] at h
      rw [List.cons_append, shapes_backslash (c :: rest ++ t) hrest, ih h,
        shapes_backslash (c :: rest) hrest, List.cons_append]
  | other c rest hc ih =>
    rw [endsInEscape_cons hc] at h
    rw [List.cons_append, shapes_cons hc, shapes_cons hc, ih h, List.cons_append]

/-- Escaped text is read as its characters. -/
theorem shapes_escapeChars_append (s rest : List Char) :
    shapes (escapeChars s ++ rest) = s.map .char ++ shapes rest := by
  induction s with
  | nil => rfl
  | cons c s ih =>
    rw [escapeChars, List.flatMap_cons, ← escapeChars, List.append_assoc, List.map_cons,
      List.cons_append, ← ih]
    by_cases hc : isEscapable c = true
    · rw [if_pos hc]
      exact shapes_escape hc _
    · have hplain : isEscapable c = false := Bool.eq_false_iff.2 hc
      rw [if_neg hc, ← markOf_of_not_isEscapable hplain]
      exact shapes_cons (ne_backslash hplain) _

/-! ## What the scanner accepts -/

section Accepted

variable {inside : Bool} {buffer : List Char} {ms rest : List Mark} {segs : List Segment}

theorem segments_nil_eq_ok_iff :
    segments inside buffer [] = .ok segs ↔ inside = false ∧ segs = textSegment buffer := by
  cases inside <;> simp [segments, eq_comm]

theorem segments_opening_eq_ok_iff {offset : Nat} :
    segments inside buffer (.opening offset :: rest) = .ok segs ↔
      inside = false ∧ ∃ tail, segments true [] rest = .ok tail ∧
        segs = textSegment buffer ++ tail := by
  cases inside with
  | true => simp [segments]
  | false =>
    rw [segments, if_neg Bool.false_ne_true]
    cases segments true [] rest <;> simp [bind, Except.bind, pure, Except.pure, eq_comm]

theorem segments_closing_eq_ok_iff {offset : Nat} :
    segments inside buffer (.closing offset :: rest) = .ok segs ↔
      inside = true ∧ buffer ≠ [] ∧ ∃ tail, segments false [] rest = .ok tail ∧
        segs = .reference (.ofList buffer) :: tail := by
  cases inside with
  | false => simp [segments]
  | true =>
    rw [segments, if_neg (by decide)]
    by_cases hbuffer : buffer = []
    · simp [hbuffer]
    · rw [if_neg hbuffer]
      cases segments false [] rest <;>
        simp [bind, Except.bind, pure, Except.pure, eq_comm, hbuffer]

theorem segments_chars (inside : Bool) (buffer s : List Char) (ms : List Mark) :
    segments inside buffer (s.map .char ++ ms) = segments inside (buffer ++ s) ms := by
  induction s generalizing buffer with
  | nil => rw [List.map_nil, List.nil_append, List.append_nil]
  | cons c s ih =>
    rw [List.map_cons, List.cons_append, segments, ih, List.append_assoc, List.singleton_append]

/-- Offsets do not matter to what is accepted. -/
theorem segments_map_shape_eq_ok_iff :
    segments inside buffer (ms.map Mark.shape) = .ok segs ↔
      segments inside buffer ms = .ok segs := by
  induction ms generalizing inside buffer segs with
  | nil => rfl
  | cons m ms ih =>
    rw [List.map_cons]
    cases m with
    | char c =>
      rw [Mark.shape, segments, segments]
      exact ih
    | opening offset =>
      rw [Mark.shape, segments_opening_eq_ok_iff, segments_opening_eq_ok_iff]
      simp only [ih]
    | closing offset =>
      rw [Mark.shape, segments_closing_eq_ok_iff, segments_closing_eq_ok_iff]
      simp only [ih]

theorem parse_eq_ok_iff {pattern : String} :
    parse pattern = .ok segs ↔ segments false [] (shapes pattern.toList) = .ok segs := by
  rw [shapes, segments_map_shape_eq_ok_iff, parse]
  cases segments false [] (marks 0 pattern.toList) <;> simp [Except.mapError]

end Accepted

/-! ## Normal segments -/

/-- Segments as they are read: none is empty, and no two texts stand side by side. -/
structure IsNormal (segs : List Segment) : Prop where
  filled : ∀ s ∈ segs, s.content ≠ ""
  apart : segs.IsChain fun s s' => s.isReference = true ∨ s'.isReference = true

instance (segs : List Segment) : Decidable (IsNormal segs) :=
  haveI : DecidableRel fun s s' : Segment => s.isReference = true ∨ s'.isReference = true :=
    fun _ _ => instDecidableOr
  decidable_of_iff
    ((∀ s ∈ segs, s.content ≠ "") ∧
      segs.IsChain fun s s' => s.isReference = true ∨ s'.isReference = true)
    ⟨fun h => ⟨h.1, h.2⟩, fun h => ⟨h.filled, h.apart⟩⟩

theorem isNormal_nil : IsNormal [] := by
  decide

theorem IsNormal.reference_cons {name : String} (hname : name ≠ "") (h : IsNormal segs) :
    IsNormal (.reference name :: segs) := by
  refine ⟨List.forall_mem_cons.2 ⟨hname, h.filled⟩, ?_⟩
  exact List.IsChain.cons h.apart fun _ _ => .inl rfl

theorem IsNormal.text_cons {content : String} (hcontent : content ≠ "")
    (hnext : ∀ s ∈ segs.head?, s.isReference = true) (h : IsNormal segs) :
    IsNormal (.text content :: segs) := by
  refine ⟨List.forall_mem_cons.2 ⟨hcontent, h.filled⟩, ?_⟩
  exact List.IsChain.cons h.apart fun s hs => .inr (hnext s hs)

theorem IsNormal.tail {s : Segment} (h : IsNormal (s :: segs)) :
    IsNormal segs :=
  ⟨(List.forall_mem_cons.1 h.filled).2, h.apart.tail⟩

theorem textSegment_of_ne (h : buffer ≠ []) :
    textSegment buffer = [.text (.ofList buffer)] :=
  if_neg h

/-- Text before segments that begin with a reference leaves them normal. -/
theorem IsNormal.textSegment_append (buffer : List Char)
    (hnext : ∀ s ∈ segs.head?, s.isReference = true) (h : IsNormal segs) :
    IsNormal (textSegment buffer ++ segs) := by
  by_cases hbuffer : buffer = []
  · rw [hbuffer]
    exact h
  · rw [textSegment_of_ne hbuffer]
    refine h.text_cons ?_ hnext
    rwa [Ne, String.ofList_eq_empty_iff]

/-- **What is read is normal.**  Inside a reference, a reference comes first. -/
theorem isNormal_of_segments {inside : Bool} {ms : List Mark}
    (h : segments inside buffer ms = .ok segs) :
    IsNormal segs ∧ (inside = true → ∀ s ∈ segs.head?, s.isReference = true) := by
  -- the second part carries the induction: text is closed only where a reference opens
  induction ms generalizing inside buffer segs with
  | nil =>
    obtain ⟨rfl, rfl⟩ := segments_nil_eq_ok_iff.1 h
    have hlast : IsNormal (textSegment buffer ++ []) :=
      isNormal_nil.textSegment_append buffer fun s hs => absurd hs (Option.not_mem_none s)
    rw [List.append_nil] at hlast
    exact ⟨hlast, fun hinside => absurd hinside Bool.false_ne_true⟩
  | cons m ms ih =>
    cases m with
    | char c => exact ih h
    | opening offset =>
      obtain ⟨rfl, tail, htail, rfl⟩ := segments_opening_eq_ok_iff.1 h
      obtain ⟨hnormal, hnext⟩ := ih htail
      exact ⟨hnormal.textSegment_append buffer (hnext rfl),
        fun hinside => absurd hinside Bool.false_ne_true⟩
    | closing offset =>
      obtain ⟨rfl, hbuffer, tail, htail, rfl⟩ := segments_closing_eq_ok_iff.1 h
      refine ⟨(ih htail).1.reference_cons ?_, fun _ s hs => ?_⟩
      · rwa [Ne, String.ofList_eq_empty_iff]
      · cases hs
        rfl

/-! ## Reading what is written -/

theorem toList_build_cons (s : Segment) (segs : List Segment) :
    (build (s :: segs)).toList = (buildSegment s).toList ++ (build segs).toList := by
  simp [build]

theorem segments_build_text (buffer : List Char) (content : String) (segs : List Segment) :
    segments false buffer (shapes (build (.text content :: segs)).toList) =
      segments false (buffer ++ content.toList) (shapes (build segs).toList) := by
  rw [toList_build_cons, buildSegment, escape, String.toList_ofList, shapes_escapeChars_append,
    segments_chars]

/-- A reference is read as it is written. -/
theorem segments_build_reference (buffer : List Char) {name : String} (h : name ≠ "")
    {tail : List Segment} (htail : segments false [] (shapes (build segs).toList) = .ok tail) :
    segments false buffer (shapes (build (.reference name :: segs)).toList) =
      .ok (textSegment buffer ++ .reference name :: tail) := by
  have hchars : (build (.reference name :: segs)).toList =
      '{' :: (escapeChars name.toList ++ '}' :: (build segs).toList) := by
    rw [toList_build_cons, buildSegment, escape]
    simp
  rw [hchars, shapes_cons (by decide), shapes_escapeChars_append, shapes_cons (by decide)]
  refine segments_opening_eq_ok_iff.2 ⟨rfl, .reference name :: tail, ?_, rfl⟩
  rw [segments_chars, List.nil_append]
  refine segments_closing_eq_ok_iff.2 ⟨rfl, ?_, tail, htail, ?_⟩
  · rwa [Ne, String.toList_eq_nil_iff]
  · rw [String.ofList_toList]

/-- **Normal segments are read as they are written.** -/
theorem segments_build (h : IsNormal segs)
    (hnext : buffer ≠ [] → ∀ s ∈ segs.head?, s.isReference = true) :
    segments false buffer (shapes (build segs).toList) = .ok (textSegment buffer ++ segs) := by
  induction segs generalizing buffer with
  | nil => exact segments_nil_eq_ok_iff.2 ⟨rfl, List.append_nil _⟩
  | cons s segs ih =>
    have hfilled : s.content ≠ "" := h.filled s (List.mem_cons_self ..)
    cases s with
    | reference name =>
      exact segments_build_reference buffer hfilled (ih h.tail (fun hne => absurd rfl hne))
    | text content =>
      -- the text is the first of its kind, and a reference or nothing comes next
      have hbuffer : buffer = [] := by
        by_contra hne
        exact absurd (hnext hne _ rfl) Bool.false_ne_true
      have hafter : ∀ s ∈ segs.head?, s.isReference = true := by
        intro s hs
        exact ((List.isChain_cons.1 h.apart).1 s hs).resolve_left Bool.false_ne_true
      have hopen : content.toList ≠ [] := by
        rwa [Ne, String.toList_eq_nil_iff]
      rw [segments_build_text, hbuffer, List.nil_append, ih h.tail (fun _ => hafter),
        textSegment_of_ne hopen, String.ofList_toList]
      rfl

theorem unescapeChars_escapeChars (s : List Char) : unescapeChars (escapeChars s) = s := by
  induction s with
  | nil => rfl
  | cons c s ih =>
    rw [escapeChars, List.flatMap_cons, ← escapeChars]
    by_cases hc : isEscapable c = true
    · rw [if_pos hc]
      change unescapeChars ('\\' :: c :: escapeChars s) = c :: s
      rw [unescapeChars, if_pos hc, ih]
    · have hne : c ≠ '\\' := ne_backslash (Bool.eq_false_iff.2 hc)
      rw [if_neg hc, List.singleton_append, unescapeChars.eq_3 _ _ (fun _ _ h => absurd h hne), ih]

/-- **Templates are read as they are written.**  The segments that read back from what is written
are exactly the normal ones; whatever a pattern is read as is normal, so it reads back; and escaped
text stands for the text. -/
theorem parse_build_iff :
    (∀ segs, parse (build segs) = .ok segs ↔ IsNormal segs) ∧
      (∀ pattern segs, parse pattern = .ok segs →
        IsNormal segs ∧ parse (build segs) = .ok segs) ∧
      ∀ s, unescape (escape s) = s := by
  have hread {segs : List Segment} (h : IsNormal segs) : parse (build segs) = .ok segs :=
    parse_eq_ok_iff.2 (segments_build h (fun hne => absurd rfl hne))
  have hnormal {pattern : String} {segs : List Segment} (h : parse pattern = .ok segs) :
      IsNormal segs :=
    (isNormal_of_segments (parse_eq_ok_iff.1 h)).1
  refine ⟨fun segs => ⟨hnormal, hread⟩, fun pattern segs h => ⟨hnormal h, hread (hnormal h)⟩, ?_⟩
  intro s
  rw [escape, unescape, String.toList_ofList, unescapeChars_escapeChars, String.ofList_toList]

/-- Braces and runs of backslashes in both kinds of segments. -/
theorem parse_build_backslashes :
    IsNormal [.text "\\", .reference "\x7d\\", .reference "a", .text "\x7b\\\\"] ∧
      parse (build [.text "\\", .reference "\x7d\\", .reference "a", .text "\x7b\\\\"]) =
        .ok [.text "\\", .reference "\x7d\\", .reference "a", .text "\x7b\\\\"] := by
  have h : IsNormal [.text "\\", .reference "\x7d\\", .reference "a", .text "\x7b\\\\"] := by decide
  exact ⟨h, (parse_build_iff.1 _).2 h⟩

end RdfMapping.Mapping.Template
