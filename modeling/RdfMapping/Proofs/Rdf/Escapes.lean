/-
# Escapes

What a text with escapes stands for is said here without the writer and without the reader.  The
writer's texts stand for what was written, and the reader gives back what a text stands for.
-/
import Mathlib.Data.List.Basic
import RdfMapping.Rdf.NQuads
import RdfMapping.Rdf.Turtle.Writing

namespace RdfMapping.Rdf

open NQuads (hexValue charOf readEscape)

/-! ## What a text stands for -/

/-- A text with escapes, and the characters it stands for. -/
inductive Spells (allowed : Char → Bool) (letters : List (Char × Char)) :
    List Char → List Char → Prop where
  | nil : Spells allowed letters [] []
  | plain {c : Char} {s t : List Char} :
    allowed c = true → Spells allowed letters s t → Spells allowed letters (c :: s) (c :: t)
  | letter {l c : Char} {s t : List Char} :
    letters.lookup l = some c → Spells allowed letters s t →
      Spells allowed letters ('\\' :: l :: s) (c :: t)
  | code {digits s t : List Char} {c : Char} :
    hexValue 4 0 digits = .ok (c.toNat, []) → Spells allowed letters s t →
      Spells allowed letters ('\\' :: 'u' :: (digits ++ s)) (c :: t)

/-! ## Reading -/

section Reading

variable {allowed isChar : Char → Bool} {letters : List (Char × Char)} {mark : Char}

/-- What follows the digits of a code is left. -/
theorem hexValue_append {n value v : Nat} {digits : List Char}
    (h : hexValue n value digits = .ok (v, [])) (s : List Char) :
    hexValue n value (digits ++ s) = .ok (v, s) := by
  induction n generalizing value digits with
  | zero =>
    cases h
    rfl
  | succ n ih =>
    cases digits with
    | nil => cases h
    | cons c digits =>
      rw [hexValue] at h
      rw [List.cons_append, hexValue]
      split at h
      · next hc => rw [if_pos hc, ih h]
      · next hc =>
        rw [if_neg hc]
        split at h
        · next hc => rw [if_pos hc, ih h]
        · next hc =>
          rw [if_neg hc]
          split at h
          · next hc => rw [if_pos hc, ih h]
          · cases h

theorem readEscape_code {digits : List Char} {c : Char}
    (h : hexValue 4 0 digits = .ok (c.toNat, [])) (s : List Char) :
    readEscape letters ('u' :: (digits ++ s)) = .ok (c, s) := by
  have hvalid : Nat.isValidChar c.toNat := c.valid
  have hchar : charOf c.toNat = c := by rw [charOf, if_pos hvalid, Char.ofNat_toNat]
  rw [readEscape, if_pos rfl, hexValue_append h]
  change Except.ok (charOf c.toNat, s) = _
  rw [hchar]

/-- The letters begin no code, and neither the mark nor a backslash is allowed. -/
structure Undoes (mark : Char) (isChar allowed : Char → Bool) (letters : List (Char × Char)) :
    Prop where
  short : letters.lookup 'u' = none
  long : letters.lookup 'U' = none
  mark_ne : mark ≠ '\\'
  backslash : allowed '\\' = false
  mark : allowed mark = false
  char : ∀ c, allowed c = true → isChar c = true

theorem Undoes.readEscape_letter (hread : Undoes mark isChar allowed letters) {l c : Char}
    (h : letters.lookup l = some c) (s : List Char) :
    readEscape letters (l :: s) = .ok (c, s) := by
  have hu : l ≠ 'u' := by
    rintro rfl
    exact absurd (h.symm.trans hread.short) (Option.some_ne_none _)
  have hU : l ≠ 'U' := by
    rintro rfl
    exact absurd (h.symm.trans hread.long) (Option.some_ne_none _)
  rw [readEscape, if_neg hu, if_neg hU, h]

/-- **The reader gives what a text stands for**, and what follows the mark. -/
theorem Spells.readUntil {s t : List Char} (h : Spells allowed letters s t)
    (hread : Undoes mark isChar allowed letters) (read rest : List Char) {bound : Nat}
    (hbound : s.length < bound) :
    NQuads.readUntil mark isChar letters read (s ++ mark :: rest) bound =
      .ok (read.reverse ++ t, rest) := by
  induction h generalizing read bound with
  | nil =>
    obtain ⟨bound, rfl⟩ := Nat.exists_eq_add_of_lt hbound
    rw [List.nil_append, NQuads.readUntil, if_pos rfl, List.append_nil]
  | @plain c s t hc _ ih =>
    obtain ⟨bound, rfl⟩ := Nat.exists_eq_add_of_lt hbound
    have hne {d : Char} (hd : allowed d = false) : c ≠ d := by
      rintro rfl
      exact absurd hc (by simp [hd])
    rw [List.cons_append, NQuads.readUntil, if_neg (hne hread.mark), if_neg (hne hread.backslash),
      if_pos (hread.char c hc), ih _ (by simp only [List.length_cons]; omega),
      List.reverse_cons, List.append_assoc, List.singleton_append]
  | @letter l c s t hl _ ih =>
    obtain ⟨bound, rfl⟩ := Nat.exists_eq_add_of_lt hbound
    rw [List.cons_append, List.cons_append, NQuads.readUntil, if_neg hread.mark_ne.symm,
      if_pos rfl, hread.readEscape_letter hl]
    change NQuads.readUntil mark isChar letters (c :: read) (s ++ mark :: rest) _ = _
    rw [ih _ (by simp only [List.length_cons]; omega), List.reverse_cons, List.append_assoc,
      List.singleton_append]
  | @code digits s t c hdigits _ ih =>
    obtain ⟨bound, rfl⟩ := Nat.exists_eq_add_of_lt hbound
    rw [List.cons_append, List.cons_append, List.append_assoc, NQuads.readUntil,
      if_neg hread.mark_ne.symm, if_pos rfl, readEscape_code hdigits]
    change NQuads.readUntil mark isChar letters (c :: read) (s ++ mark :: rest) _ = _
    rw [ih _ (by simp only [List.length_cons, List.length_append]; omega), List.reverse_cons,
      List.append_assoc, List.singleton_append]

/-- Texts with the same escapes, a mark and something after it stand for the same. -/
theorem Spells.append_inj {s s' t t' rest rest' : List Char} (h : Spells allowed letters s t)
    (h' : Spells allowed letters s' t') (hread : Undoes mark isChar allowed letters)
    (heq : s ++ mark :: rest = s' ++ mark :: rest') : t = t' ∧ rest = rest' := by
  have hleft := h.readUntil hread [] rest (Nat.lt_succ_of_le (Nat.le_add_right _ s'.length))
  have hright := h'.readUntil hread [] rest' (Nat.lt_succ_of_le (Nat.le_add_left _ s.length))
  rw [heq, hright] at hleft
  cases hleft
  exact ⟨rfl, rfl⟩

/-- A text between delimiters stands for a text and for no other. -/
def StandsFor (allowed : Char → Bool) (letters : List (Char × Char)) (inner text : String) : Prop :=
  ∀ t, Spells allowed letters inner.toList t ↔ t = text.toList

theorem Spells.standsFor {inner text : String}
    (h : Spells allowed letters inner.toList text.toList)
    (hread : Undoes mark isChar allowed letters) : StandsFor allowed letters inner text := by
  intro t
  constructor
  · intro ht
    exact (ht.append_inj h hread (rfl : inner.toList ++ [mark] = inner.toList ++ [mark])).1
  · rintro rfl
    exact h

end Reading

/-! ## IRIs -/

namespace Turtle

/-- The characters that stand for themselves between angle brackets. -/
def isIriRefChar (c : Char) : Bool :=
  0x20 < c.toNat && !"<>\"\x7b\x7d|^`\\".toList.contains c

theorem isForbidden_eq (c : Char) : isForbidden c = !isIriRefChar c := by
  have hle : decide (c ≤ ' ') = !decide (0x20 < c.toNat) := by
    rw [← decide_not, decide_eq_decide, Nat.not_lt]
    rfl
  rw [isForbidden, isIriRefChar, hle, Bool.not_and, Bool.not_not]
  rfl

theorem toNat_lt_of_isForbidden {c : Char} (h : isForbidden c = true) : c.toNat < 128 := by
  rw [isForbidden, Bool.or_eq_true, decide_eq_true_eq, List.contains_iff_mem] at h
  rcases h with hle | hmem
  · have : c.toNat ≤ ' '.toNat := hle
    exact Nat.lt_of_le_of_lt this (by decide)
  · have hall : (['<', '>', '"', '{', '}', '|', '^', '\x60', '\\'].all fun d => d.toNat < 128) =
        true := by decide
    simpa using List.all_eq_true.1 hall c hmem

theorem hexValue_hexUpper {n : Nat} (hn : n < 128) :
    hexValue 4 0 (Text.hexUpper 4 n) = .ok (n, []) := by
  have hall : ∀ n < 128, hexValue 4 0 (Text.hexUpper 4 n) = .ok (n, []) := by decide +kernel
  exact hall n hn

/-- An escaped IRI stands for the IRI. -/
theorem spells_escapeIri (chars : List Char) :
    Spells isIriRefChar [] (chars.flatMap escapeIriChar) chars := by
  induction chars with
  | nil => exact .nil
  | cons c chars ih =>
    rw [List.flatMap_cons, escapeIriChar]
    by_cases hc : isForbidden c = true
    · rw [if_pos hc]
      exact .code (hexValue_hexUpper (toNat_lt_of_isForbidden hc)) ih
    · rw [if_neg hc]
      refine .plain ?_ ih
      rw [isForbidden_eq] at hc
      simpa using hc

/-- **The escapes of an IRI are undone to the IRI.** -/
theorem standsFor_escapeIri (iri : String) : StandsFor isIriRefChar [] (escapeIri iri) iri := by
  have hread : Undoes '>' isIriRefChar isIriRefChar [] :=
    ⟨rfl, rfl, by decide, by decide, by decide, fun _ h => h⟩
  refine Spells.standsFor ?_ hread
  rw [escapeIri, String.toList_ofList]
  exact spells_escapeIri iri.toList

end Turtle

/-! ## Literals -/

namespace Term

/-- The characters that stand for themselves between quotes. -/
def isStringChar (c : Char) : Bool :=
  !"\"\\\n\r".toList.contains c

/-- A literal without its quotes. -/
def escapeText (text : String) : String :=
  .ofList (text.toList.flatMap escapeChar)

theorem quoteLiteral_eq (text : String) : quoteLiteral text = "\"" ++ escapeText text ++ "\"" := by
  rw [← String.toList_inj]
  simp [quoteLiteral, escapeText]

theorem undoes_quote : Undoes '"' isStringChar isStringChar NQuads.escapes :=
  ⟨by decide, by decide, by decide, by decide, by decide, fun _ h => h⟩

/-- An escaped text stands for the text. -/
theorem spells_escapeText (chars : List Char) :
    Spells isStringChar NQuads.escapes (chars.flatMap escapeChar) chars := by
  induction chars with
  | nil => exact .nil
  | cons c chars ih =>
    rw [List.flatMap_cons, escapeChar]
    by_cases hback : c = '\\'
    · subst hback
      exact .letter (by decide) ih
    by_cases hquote : c = '"'
    · subst hquote
      exact .letter (by decide) ih
    by_cases hline : c = '\n'
    · subst hline
      exact .letter (by decide) ih
    by_cases hreturn : c = '\r'
    · subst hreturn
      exact .letter (by decide) ih
    by_cases htab : c = '\t'
    · subst htab
      exact .letter (by decide) ih
    have hplain : isStringChar c = true := by
      simp [isStringChar, hback, hquote, hline, hreturn]
    simp only [hback, hquote, hline, hreturn, htab, decide_false, Bool.or_self, Bool.false_eq_true,
      if_false]
    exact .plain hplain ih

/-- **The escapes of a literal are undone to its text.** -/
theorem standsFor_escapeText (text : String) :
    StandsFor isStringChar NQuads.escapes (escapeText text) text := by
  refine Spells.standsFor ?_ undoes_quote
  rw [escapeText, String.toList_ofList]
  exact spells_escapeText text.toList

/-! ## Texts of terms -/

/-- Whether a term is an IRI, a blank node or a literal. -/
def isProper : Term → Bool
  | iri _ | blank _ | literal _ _ => true
  | other _ | missing => false

/-- What follows the quotes of a literal. -/
def tagChars : Tag → List Char
  | .plain => []
  | .language code => '@' :: code.toList
  | .datatype type => '^' :: '^' :: '<' :: (type.toList ++ ['>'])

theorem tagChars_injective {tag tag' : Tag} (h : tagChars tag = tagChars tag') : tag = tag' := by
  cases tag <;> cases tag' <;> simp_all [tagChars, String.toList_inj]

theorem toList_render_literal (text : String) (tag : Tag) :
    (literal text tag).render.toList =
      '"' :: ((escapeText text).toList ++ '"' :: tagChars tag) := by
  cases tag <;> simp [render, quoteLiteral_eq, tagChars]

/-- **Proper terms are told apart by their texts.** -/
theorem render_injOn {a b : Term} (ha : a.isProper = true) (hb : b.isProper = true)
    (h : a.render = b.render) : a = b := by
  have hchars := congrArg String.toList h
  cases a with
  | iri value =>
    cases b with
    | iri value' => simpa [render, String.toList_inj] using hchars
    | blank label => simp [render] at hchars
    | literal text tag =>
      rw [toList_render_literal] at hchars
      simp [render] at hchars
    | other | missing => cases hb
  | blank label =>
    cases b with
    | iri value => simp [render] at hchars
    | blank label' => simpa [render, String.toList_inj] using hchars
    | literal text tag =>
      rw [toList_render_literal] at hchars
      simp [render] at hchars
    | other | missing => cases hb
  | literal text tag =>
    cases b with
    | iri value =>
      rw [toList_render_literal] at hchars
      simp [render] at hchars
    | blank label =>
      rw [toList_render_literal] at hchars
      simp [render] at hchars
    | literal text' tag' =>
      rw [toList_render_literal, toList_render_literal, List.cons.injEq] at hchars
      obtain ⟨htext, htag⟩ := ((standsFor_escapeText text _).2 rfl).append_inj
        ((standsFor_escapeText text' _).2 rfl) undoes_quote hchars.2
      rw [String.toList_inj.1 htext, tagChars_injective htag]
    | other | missing => cases hb
  | other | missing => cases ha

end Term

end RdfMapping.Rdf
