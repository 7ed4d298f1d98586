/-
# The value classes of scalars

Three scanners look at the text of a scalar: for references `$(name)`, for braces that no backslash
precedes, and for the segments of a template.  They agree on what a text is.
-/
import RdfMapping.Proofs.Mapping.Templates
import RdfMapping.Shorthand.Inference

namespace RdfMapping.Shorthand

open Mapping

variable {s name after rest chars : List Char} {c : Char} {ps : List Piece}
  {ms : List Template.Mark} {raw : String}

/-! ## References in texts -/

/-- A reference as it is written in a text. -/
def spellReference (name : List Char) : List Char :=
  '$' :: '(' :: (name ++ [')'])

/-- The names that can be written in a reference have no parentheses. -/
def IsReferable (name : List Char) : Prop :=
  '(' ∉ name ∧ ')' ∉ name

/-- A text has a reference in it. -/
def Refers (s : List Char) : Prop :=
  ∃ name, IsReferable name ∧ spellReference name <:+: s

/-- Whether a piece is a reference. -/
def Piece.isReference : Piece → Bool
  | text _ => false
  | reference _ => true

/-- A text split into its references and the texts between. -/
inductive SplitsInto : List Char → List Piece → Prop where
  | nil : SplitsInto [] []
  | reference {name after : List Char} {ps : List Piece} : IsReferable name →
      SplitsInto after ps → SplitsInto (spellReference name ++ after) (.reference name :: ps)
  | text {chars after : List Char} {ps : List Piece} : chars ≠ [] → ¬ Refers chars →
      (∀ p ∈ ps.head?, p.isReference = true) → SplitsInto after ps →
      SplitsInto (chars ++ after) (.text chars :: ps)

/-! ## The scanner for references -/

/-- **A reference is found just if one is written there.** -/
theorem inlineReference?_eq_some_iff :
    inlineReference? s = some (name, after) ↔
      s = spellReference name ++ after ∧ IsReferable name := by
  have htest (c : Char) : (decide (c ≠ '(') && decide (c ≠ ')')) = true ↔ c ≠ '(' ∧ c ≠ ')' := by
    rw [Bool.and_eq_true, decide_eq_true_eq, decide_eq_true_eq]
  constructor
  · intro h
    unfold inlineReference? at h
    split at h
    · next rest =>
      dsimp only at h
      split at h
      · next tail hdrop =>
        obtain ⟨rfl, rfl⟩ := Prod.mk.inj (Option.some.inj h)
        generalize hname : rest.takeWhile _ = name at hdrop
        have hmem : ∀ c ∈ name, c ≠ '(' ∧ c ≠ ')' := by
          intro c hc
          rw [← hname] at hc
          exact (htest c).1 (List.all_eq_true.1 List.all_takeWhile c hc)
        have hrest : rest = name ++ ')' :: tail := by
          have htake : rest.take name.length = name :=
            (List.prefix_iff_eq_take.1 (hname ▸ List.takeWhile_prefix _)).symm
          have hsplit := List.take_append_drop name.length rest
          rw [htake, hdrop] at hsplit
          exact hsplit.symm
        refine ⟨by rw [hrest]; simp [spellReference], ?_, ?_⟩
        · exact fun hc => (hmem _ hc).1 rfl
        · exact fun hc => (hmem _ hc).2 rfl
      · cases h
    · cases h
  · rintro ⟨rfl, hopen, hclose⟩
    have hall : ∀ c ∈ name, (decide (c ≠ '(') && decide (c ≠ ')')) = true := by
      intro c hc
      exact (htest c).2 ⟨fun h => hopen (h ▸ hc), fun h => hclose (h ▸ hc)⟩
    have htake : (name ++ ')' :: after).takeWhile
        (fun c => decide (c ≠ '(') && decide (c ≠ ')')) = name := by
      rw [List.takeWhile_append_of_pos hall]
      simp
    have hspelled : spellReference name ++ after = '$' :: '(' :: (name ++ ')' :: after) := by
      simp [spellReference]
    rw [hspelled, inlineReference?, htake, List.drop_left]
    rfl

theorem inlineReference?_eq_none_iff :
    inlineReference? s = none ↔ ∀ name, IsReferable name → ¬ spellReference name <+: s := by
  constructor
  · rintro h name hname ⟨after, rfl⟩
    exact absurd (h.symm.trans (inlineReference?_eq_some_iff.2 ⟨rfl, hname⟩))
      (Option.some_ne_none _).symm
  · intro h
    cases hs : inlineReference? s with
    | none => rfl
    | some p =>
      obtain ⟨rfl, hname⟩ := inlineReference?_eq_some_iff.1 hs
      exact absurd (List.prefix_append _ _) (h p.1 hname)

theorem pieces_nil : pieces [] = [] := by
  rw [pieces]
  rfl

theorem pieces_reference (h : IsReferable name) (after : List Char) :
    pieces (spellReference name ++ after) = .reference name :: pieces after := by
  have hfound : inlineReference? (spellReference name ++ after) = some (name, after) :=
    inlineReference?_eq_some_iff.2 ⟨rfl, h⟩
  rw [pieces]
  split
  · next name' after' heq =>
    cases hfound.symm.trans heq
    rfl
  · next heq => exact absurd (hfound.symm.trans heq) (Option.some_ne_none _)

theorem pieces_cons (h : inlineReference? (c :: rest) = none) :
    pieces (c :: rest) = prependChar c (pieces rest) := by
  rw [pieces]
  split
  · next heq => exact absurd (h.symm.trans heq) (Option.some_ne_none _).symm
  · rfl

/-- Induction along the scanner of references. -/
@[elab_as_elim]
theorem piecesInduction {motive : List Char → Prop} (s : List Char) (nil : motive [])
    (reference : ∀ name after, IsReferable name → motive after →
      motive (spellReference name ++ after))
    (char : ∀ c rest, inlineReference? (c :: rest) = none → motive rest → motive (c :: rest)) :
    motive s := by
  induction s using pieces.induct with
  | case1 s name after h ih =>
    obtain ⟨rfl, hname⟩ := inlineReference?_eq_some_iff.1 h
    exact reference name after hname ih
  | case2 => exact nil
  | case3 c rest h ih => exact char c rest h ih

/-! ## Splitting a text -/

theorem not_refers_singleton (c : Char) : ¬ Refers [c] := by
  rintro ⟨name, -, hinfix⟩
  have hlength := hinfix.length_le
  simp [spellReference] at hlength

/-- A character goes to the first text, or begins a reference. -/
theorem SplitsInto.prependChar (hnone : inlineReference? (c :: rest) = none)
    (h : SplitsInto rest ps) : SplitsInto (c :: rest) (prependChar c ps) := by
  have hfirst : (∀ p ∈ ps.head?, p.isReference = true) →
      SplitsInto (c :: rest) (.text [c] :: ps) := fun hnext =>
    .text (List.cons_ne_nil c []) (not_refers_singleton c) hnext h
  cases h with
  | nil => exact hfirst fun p hp => absurd hp (Option.not_mem_none p)
  | reference _ _ =>
    refine hfirst fun p hp => ?_
    cases hp
    rfl
  | @text chars after ps _ hno hnext hafter =>
    refine .text (List.cons_ne_nil c chars) ?_ hnext hafter
    rintro ⟨name, hname, hinfix⟩
    rcases List.infix_cons_iff.1 hinfix with hstart | hlater
    · refine inlineReference?_eq_none_iff.1 hnone name hname (hstart.trans ?_)
      exact List.prefix_append (c :: chars) after
    · exact hno ⟨name, hname, hlater⟩

/-- The scanner splits a text. -/
theorem splitsInto_pieces (s : List Char) : SplitsInto s (pieces s) := by
  induction s using piecesInduction with
  | nil =>
    rw [pieces_nil]
    exact .nil
  | reference name after hname ih =>
    rw [pieces_reference hname]
    exact .reference hname ih
  | char c rest hnone ih =>
    rw [pieces_cons hnone]
    exact ih.prependChar hnone

/-- No reference is written across the end of a text. -/
theorem inlineReference?_append_eq_none {start : List Char} (hno : ¬ Refers chars)
    (hnext : ∀ p ∈ ps.head?, p.isReference = true) (h : SplitsInto after ps)
    (hsuffix : start <:+ chars) (hne : start ≠ []) : inlineReference? (start ++ after) = none := by
  refine inlineReference?_eq_none_iff.2 fun name hname hprefix => ?_
  have hlong : ¬ spellReference name <+: start := fun hstart =>
    hno ⟨name, hname, hstart.isInfix.trans hsuffix.isInfix⟩
  rcases List.prefix_or_prefix_of_prefix hprefix (List.prefix_append start after) with
    hstart | ⟨tail, htail⟩
  · exact hlong hstart
  · rw [← htail, List.prefix_append_right_inj] at hprefix
    cases h with
    | nil =>
      rw [List.prefix_nil.1 hprefix, List.append_nil] at htail
      exact hlong (htail ▸ List.prefix_refl _)
    | text _ _ _ _ => exact absurd (hnext _ rfl) Bool.false_ne_true
    | reference _ _ =>
      -- what is left of the reference begins with a dollar sign and an opening parenthesis
      obtain ⟨c, start, rfl⟩ := List.exists_cons_of_ne_nil hne
      have hrest : start ++ tail = '(' :: (name ++ [')']) := (List.cons.inj htail).2
      cases tail with
      | nil =>
        rw [List.append_nil] at htail
        exact hlong (htail ▸ List.prefix_refl _)
      | cons d tail =>
        obtain ⟨rfl, hopen⟩ := List.cons_prefix_cons.1 hprefix
        cases tail with
        | nil =>
          rw [← List.cons_append] at hrest
          exact absurd (List.append_inj_right' hrest rfl) (by decide)
        | cons d tail =>
          obtain ⟨rfl, -⟩ := List.cons_prefix_cons.1 hopen
          cases start with
          | nil => exact absurd (List.cons.inj hrest).1 (by decide)
          | cons d start =>
            have hmem : '(' ∈ name ++ [')'] := by
              rw [← (List.cons.inj hrest).2]
              simp
            rcases List.mem_append.1 hmem with hmem | hmem
            · exact hname.1 hmem
            · exact absurd hmem (by decide)

/-- A text in which no reference begins is one piece. -/
theorem pieces_text (hne : chars ≠ [])
    (hstart : ∀ start, start <:+ chars → start ≠ [] → inlineReference? (start ++ after) = none)
    (hnext : ∀ p ∈ (pieces after).head?, p.isReference = true) :
    pieces (chars ++ after) = .text chars :: pieces after := by
  induction chars with
  | nil => exact absurd rfl hne
  | cons c rest ih =>
    have hnone : inlineReference? (c :: (rest ++ after)) = none :=
      hstart (c :: rest) (List.suffix_refl _) hne
    rw [List.cons_append, pieces_cons hnone]
    by_cases hrest : rest = []
    · subst hrest
      rw [List.nil_append]
      unfold prependChar
      split
      · next chars _ heq =>
        exact absurd (hnext (.text chars) (by rw [heq]; rfl)) Bool.false_ne_true
      · rfl
    · rw [ih hrest fun start hsuffix => hstart start (hsuffix.trans (List.suffix_cons c rest))]
      rfl

/-- **Each text splits in one way, which is the one that the scanner finds.** -/
theorem splitsInto_iff : SplitsInto s ps ↔ pieces s = ps := by
  refine ⟨fun h => ?_, fun h => h ▸ splitsInto_pieces s⟩
  induction h with
  | nil => exact pieces_nil
  | reference hname _ ih => rw [pieces_reference hname, ih]
  | text hne hno hnext hafter ih =>
    rw [pieces_text hne (fun _ => inlineReference?_append_eq_none hno hnext hafter) (ih ▸ hnext),
      ih]

/-- A text has a reference in it just if one of its pieces is a reference. -/
theorem SplitsInto.refers_iff (h : SplitsInto s ps) :
    Refers s ↔ ∃ name, .reference name ∈ ps := by
  constructor
  · intro hrefers
    cases h with
    | nil =>
      obtain ⟨name, -, hinfix⟩ := hrefers
      exact absurd (List.infix_nil.1 hinfix) (List.cons_ne_nil _ _)
    | @reference name _ _ _ _ => exact ⟨name, List.mem_cons_self ..⟩
    | @text chars after ps _ hno hnext hafter =>
      cases hafter with
      | nil =>
        rw [List.append_nil] at hrefers
        exact absurd hrefers hno
      | @reference name _ _ _ _ => exact ⟨name, List.mem_cons_of_mem _ (List.mem_cons_self ..)⟩
      | text _ _ _ _ => exact absurd (hnext _ rfl) Bool.false_ne_true
  · rintro ⟨name, hmem⟩
    induction h with
    | nil => cases hmem
    | @reference name' after _ hname _ _ =>
      exact ⟨name', hname, (List.prefix_append _ after).isInfix⟩
    | @text chars after _ _ _ _ _ ih =>
      obtain ⟨name', hname, hinfix⟩ := ih (List.mem_of_ne_of_mem Piece.noConfusion hmem)
      exact ⟨name', hname, hinfix.trans (List.suffix_append chars after).isInfix⟩

/-! ## Free braces -/

/-- Whether a mark is a brace. -/
def isBrace : Template.Mark → Bool
  | .char _ => false
  | .opening _ | .closing _ => true

theorem isBrace_markOf (c : Char) :
    isBrace (Template.markOf 0 c) = (decide (c = '{') || decide (c = '}')) := by
  unfold Template.markOf
  split
  · next hc => rw [decide_eq_true hc, Bool.true_or, isBrace]
  · next hc =>
    rw [decide_eq_false hc, Bool.false_or]
    split
    · next hc => rw [decide_eq_true hc, isBrace]
    · next hc => rw [decide_eq_false hc, isBrace]

theorem hasUnescapedBrace_cons (h : c ≠ '\\') (rest : List Char) :
    hasUnescapedBrace (c :: rest) =
      (isBrace (Template.markOf 0 c) || hasUnescapedBrace rest) := by
  rw [isBrace_markOf, hasUnescapedBrace.eq_4]
  · exact fun hc => absurd hc h
  · exact fun _ _ hc => absurd hc h

/-- The two scanners skip differently after a backslash, but never over a brace. -/
theorem hasUnescapedBrace_eq_any (s : List Char) :
    hasUnescapedBrace s = (Template.shapes s).any isBrace := by
  induction s using Template.scanInduction with
  | nil => rfl
  | escape c rest hc ih =>
    rw [hasUnescapedBrace, ih, Template.shapes_escape hc, List.any_cons, isBrace, Bool.false_or]
  | backslash rest hrest ih =>
    rw [Template.shapes_backslash rest hrest, List.any_cons, isBrace, Bool.false_or, ← ih]
    cases rest with
    | nil => rfl
    | cons c rest =>
      have hc : Template.isEscapable c = false := hrest c rfl
      rw [hasUnescapedBrace, hasUnescapedBrace_cons (Template.ne_backslash hc),
        Template.markOf_of_not_isEscapable hc, isBrace, Bool.false_or]
  | other c rest hc ih =>
    rw [hasUnescapedBrace_cons hc, ih, Template.shapes_cons hc, List.any_cons]

theorem namesOf_textSegment (buffer : List Char) :
    Template.namesOf (Template.textSegment buffer) = [] := by
  unfold Template.textSegment
  split <;> rfl

/-- Marks without braces are text. -/
theorem exists_segments_of_any_eq_false (h : ms.any isBrace = false) (buffer : List Char) :
    ∃ segs, Template.segments false buffer ms = .ok segs ∧ Template.namesOf segs = [] := by
  induction ms generalizing buffer with
  | nil => exact ⟨_, rfl, namesOf_textSegment buffer⟩
  | cons m ms ih =>
    rw [List.any_cons, Bool.or_eq_false_iff] at h
    cases m with
    | char c => exact ih h.2 (buffer ++ [c])
    | opening _ => exact absurd h.1.symm Bool.false_ne_true
    | closing _ => exact absurd h.1.symm Bool.false_ne_true

/-- Segments without a reference are read outside of braces only. -/
theorem any_eq_false_of_segments {inside : Bool} {buffer : List Char} {segs : List Segment}
    (h : Template.segments inside buffer ms = .ok segs) (hnames : Template.namesOf segs = []) :
    inside = false ∧ ms.any isBrace = false := by
  induction ms generalizing inside buffer segs with
  | nil => exact ⟨(Template.segments_nil_eq_ok_iff.1 h).1, rfl⟩
  | cons m ms ih =>
    cases m with
    | char c => exact ih h hnames
    | opening offset =>
      obtain ⟨-, tail, htail, rfl⟩ := Template.segments_opening_eq_ok_iff.1 h
      rw [Template.namesOf, List.filterMap_append, List.append_eq_nil_iff] at hnames
      exact absurd (ih htail hnames.2).1.symm Bool.false_ne_true
    | closing offset =>
      obtain ⟨-, -, tail, -, rfl⟩ := Template.segments_closing_eq_ok_iff.1 h
      exact absurd hnames (List.cons_ne_nil _ _)

/-- **A text has no free brace just if it is a template without references.** -/
theorem hasUnescapedBrace_eq_false_iff :
    hasUnescapedBrace raw.toList = false ↔
      ∃ segs, Template.parse raw = .ok segs ∧ Template.namesOf segs = [] := by
  simp only [Template.parse_eq_ok_iff]
  rw [hasUnescapedBrace_eq_any]
  constructor
  · exact fun h => exists_segments_of_any_eq_false h []
  · rintro ⟨segs, hsegs, hnames⟩
    exact (any_eq_false_of_segments hsegs hnames).2

/-! ## What scalars stand for -/

theorem mem_namesOf_segments :
    .ofList name ∈ Template.namesOf (ps.map Piece.segment) ↔ .reference name ∈ ps := by
  rw [Template.namesOf, List.mem_filterMap]
  constructor
  · rintro ⟨_, hmem, hname⟩
    obtain ⟨p, hp, rfl⟩ := List.mem_map.1 hmem
    cases p with
    | text chars => cases hname
    | reference other =>
      rw [String.ofList_injective (Option.some.inj hname)] at hp
      exact hp
  · exact fun h => ⟨_, List.mem_map.2 ⟨_, h, rfl⟩, rfl⟩

theorem isReference_segment (p : Piece) : p.segment.isReference = p.isReference := by
  cases p <;> rfl

/-- The pieces of a text are the segments of a template, unless a name is empty. -/
theorem SplitsInto.isNormal (h : SplitsInto s ps)
    (hnames : "" ∉ Template.namesOf (ps.map Piece.segment)) :
    Template.IsNormal (ps.map Piece.segment) := by
  induction h with
  | nil => exact Template.isNormal_nil
  | reference _ _ ih =>
    rw [List.map_cons, Template.namesOf, List.filterMap_cons] at hnames
    obtain ⟨hname, hnames⟩ := not_or.1 (fun h => hnames (List.mem_cons.2 h))
    exact (ih hnames).reference_cons (Ne.symm hname)
  | text hne _ hnext _ ih =>
    refine (ih hnames).text_cons (fun h => hne (String.ofList_eq_empty_iff.1 h)) ?_
    intro seg hseg
    rw [List.head?_map] at hseg
    obtain ⟨p, hp, rfl⟩ := Option.map_eq_some_iff.1 hseg
    rw [isReference_segment]
    exact hnext p hp

/-- The classes that a scalar may have. -/
theorem cases_of_inferValue {v : Value} (h : inferValue raw = .ok v) :
    (∃ term, v = .constant term) ∨ (∃ name, v = .reference name ∧ name ≠ "") ∨
      (v = .template (Template.build (inlineSegments raw.toList)) ∧
        Template.namesOf (inlineSegments raw.toList) ≠ [] ∧
        "" ∉ Template.namesOf (inlineSegments raw.toList)) ∨
      v = .template raw ∧ Template.namesOf (inlineSegments raw.toList) = [] ∧
        hasUnescapedBrace raw.toList = true ∧ ∃ segs, Template.parse raw = .ok segs := by
  unfold inferValue at h
  dsimp only at h
  split at h
  · cases h
    exact .inl ⟨_, rfl⟩
  · split at h
    · cases h
    · split at h
      · cases h
      · next hempty =>
        rw [List.contains_iff_mem] at hempty
        split at h
        · next name heq =>
          cases h
          rw [heq] at hempty
          exact .inr (.inl ⟨name, rfl, fun hname => hempty (hname ▸ List.mem_cons_self ..)⟩)
        · split at h
          · next hsome =>
            cases h
            exact .inr (.inr (.inl ⟨rfl, by simpa using hsome, hempty⟩))
          · next hnone =>
            split at h
            · cases h
              exact .inr (.inl ⟨_, rfl, fun hname =>
                absurd (String.ofList_eq_empty_iff.1 hname) (List.cons_ne_nil _ _)⟩)
            · split at h
              · next hbraces =>
                split at h
                · next segs hsegs =>
                  cases h
                  exact .inr (.inr (.inr ⟨rfl, by simpa using hnone, hbraces, segs, hsegs⟩))
                · cases h
              · cases h
                exact .inl ⟨_, rfl⟩

/-- A scalar with a reference in it has names. -/
theorem namesOf_inlineSegments_ne_nil_iff :
    Template.namesOf (inlineSegments s) ≠ [] ↔ Refers s := by
  rw [(splitsInto_pieces s).refers_iff]
  constructor
  · intro h
    obtain ⟨name, hname⟩ := List.exists_mem_of_ne_nil _ h
    rw [← String.ofList_toList (s := name)] at hname
    exact ⟨name.toList, mem_namesOf_segments.1 hname⟩
  · rintro ⟨name, hname⟩
    exact List.ne_nil_of_mem (mem_namesOf_segments.2 hname)

/-- **The scanners agree on every scalar.**  A text has no free brace just if it is a template
without references.  The pattern that a scalar stands for is a template with a reference; if the
scalar has references `$(name)` in it, the segments of the template are its pieces, in order.  The
reference that a scalar stands for has a name. -/
theorem inferValue_agrees (raw : String) :
    (hasUnescapedBrace raw.toList = false ↔
      ∃ segs, Template.parse raw = .ok segs ∧ Template.namesOf segs = []) ∧
    (∀ pattern, inferValue raw = .ok (.template pattern) →
      (∃ segs, Template.parse pattern = .ok segs ∧ Template.namesOf segs ≠ []) ∧
      (Refers raw.toList → (∃! ps, SplitsInto raw.toList ps) ∧ ∀ ps, SplitsInto raw.toList ps →
        Template.parse pattern = .ok (ps.map Piece.segment))) ∧
    ∀ name, inferValue raw = .ok (.reference name) → name ≠ "" := by
  refine ⟨hasUnescapedBrace_eq_false_iff, fun pattern h => ?_, fun name h => ?_⟩
  · obtain ⟨_, hv⟩ | ⟨_, hv, _⟩ | ⟨hv, hsome, hempty⟩ | ⟨hv, hnone, hbraces, segs, hsegs⟩ :=
      cases_of_inferValue h
    · cases hv
    · cases hv
    · cases hv
      have hread : Template.parse (Template.build (inlineSegments raw.toList)) =
          .ok (inlineSegments raw.toList) :=
        Template.parse_eq_ok_iff.2 (Template.segments_build
          ((splitsInto_pieces raw.toList).isNormal hempty) (fun hne => absurd rfl hne))
      refine ⟨⟨_, hread, hsome⟩, fun _ => ⟨⟨_, splitsInto_pieces raw.toList, ?_⟩, ?_⟩⟩
      · exact fun ps hps => (splitsInto_iff.1 hps).symm
      · intro ps hps
        rw [← splitsInto_iff.1 hps]
        exact hread
    · cases hv
      refine ⟨⟨segs, hsegs, fun hnames => ?_⟩, fun hrefers => ?_⟩
      · -- without references there would be no free brace
        have hfree := hasUnescapedBrace_eq_false_iff.2 ⟨segs, hsegs, hnames⟩
        exact absurd (hfree.symm.trans hbraces) Bool.false_ne_true
      · exact absurd hnone (namesOf_inlineSegments_ne_nil_iff.2 hrefers)
  · obtain ⟨_, hv⟩ | ⟨_, hv, hname⟩ | ⟨hv, _⟩ | ⟨hv, _⟩ := cases_of_inferValue h
    · cases hv
    · cases hv
      exact hname
    · cases hv
    · cases hv

/-- A dollar sign, an escaped brace in a name and a backslash. -/
theorem inferValue_agrees_escapes :
    inferValue "$$(a\\\x7b)\\" = .ok (.template "$\x7ba\\\\\\\x7b\x7d\\\\") ∧
      Refers "$$(a\\\x7b)\\".toList ∧
      SplitsInto "$$(a\\\x7b)\\".toList
        [.text ['$'], .reference ['a', '\\', '{'], .text ['\\']] ∧
      Template.parse "$\x7ba\\\\\\\x7b\x7d\\\\" =
        .ok [.text "$", .reference "a\\\x7b", .text "\\"] := by
  have hpieces : pieces "$$(a\\\x7b)\\".toList =
      [.text ['$'], .reference ['a', '\\', '{'], .text ['\\']] := by
    decide +kernel
  have hvalue : inferValue "$$(a\\\x7b)\\" = .ok (.template "$\x7ba\\\\\\\x7b\x7d\\\\") := by
    rw [inferValue, inlineSegments, hpieces]
    rfl
  have hsplit := splitsInto_iff.2 hpieces
  have hrefers := hsplit.refers_iff.2 ⟨['a', '\\', '{'], by decide⟩
  exact ⟨hvalue, hrefers, hsplit,
    (((inferValue_agrees "$$(a\\\x7b)\\").2.1 _ hvalue).2 hrefers).2 _ hsplit⟩

end RdfMapping.Shorthand
