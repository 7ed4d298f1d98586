/-
# Value classes of scalars

A scalar shows by its marks what it stands for: `$(name)` or `$name` is the value of a
field, a text with such a reference or with braces is a template, and any other text is a
constant.  A suffix such as `~iri` states the kind of term.
-/
import RdfMapping.Mapping.TermMap
import RdfMapping.Shorthand.Problem

namespace RdfMapping.Shorthand

open Mapping

/-! ## References in texts -/

/-- The name in a reference `$(name)` that begins a text, and what follows it. -/
def inlineReference? : List Char → Option (List Char × List Char)
  | '$' :: '(' :: rest =>
    let name := rest.takeWhile fun c => c ≠ '(' && c ≠ ')'
    match rest.drop name.length with
    | ')' :: after => some (name, after)
    | _ => none
  | _ => none

theorem inlineReference?_length {s name after : List Char}
    (h : inlineReference? s = some (name, after)) : after.length < s.length := by
  unfold inlineReference? at h
  split at h
  · next rest =>
    dsimp only at h
    split at h
    · next tail heq =>
      obtain ⟨rfl, rfl⟩ := Prod.mk.inj (Option.some.inj h)
      have := congrArg List.length heq
      simp only [List.length_drop, List.length_cons] at this ⊢
      omega
    · simp at h
  · simp at h

/-- A piece of a text: the name in a reference, or characters between references. -/
inductive Piece where
  | text (chars : List Char)
  | reference (name : List Char)
deriving DecidableEq, Repr

/-- The segment of a template that a piece is. -/
def Piece.segment : Piece → Segment
  | text chars => .text (.ofList chars)
  | reference name => .reference (.ofList name)

/-- A character in front of pieces, in the text they begin with or in a new one. -/
def prependChar (c : Char) : List Piece → List Piece
  | .text chars :: rest => .text (c :: chars) :: rest
  | pieces => .text [c] :: pieces

/-- The references of a text and the pieces between them. -/
def pieces (s : List Char) : List Piece :=
  match _h : inlineReference? s with
  | some (name, after) => .reference name :: pieces after
  | none =>
    match s with
    | [] => []
    | c :: rest => prependChar c (pieces rest)
termination_by s.length
decreasing_by
  · exact inlineReference?_length _h
  · simp

/-- The references of a text and the texts between them as segments of a template. -/
def inlineSegments (s : List Char) : List Segment :=
  (pieces s).map Piece.segment

/-- Whether a brace occurs that no backslash precedes. -/
def hasUnescapedBrace : List Char → Bool
  | [] => false
  | '\\' :: [] => false
  | '\\' :: _ :: rest => hasUnescapedBrace rest
  | c :: rest => c = '{' || c = '}' || hasUnescapedBrace rest

/-! ## Classes -/

/-- What a scalar stands for.  Names in constants and templates are not resolved yet. -/
def inferValue (raw : String) : Except InferenceError Value :=
  let chars := raw.toList
  let segs := inlineSegments chars
  let names := Template.namesOf segs
  let braces := hasUnescapedBrace chars
  match chars with
  | '\\' :: '$' :: rest => .ok (.constant (.ofText (.ofList ('$' :: rest))))
  | _ =>
    if braces && (chars.head? = some '$' || !names.isEmpty) then .error .ambiguous
    else if names.contains "" then .error .emptyReference
    else match segs with
      | [.reference name] => .ok (.reference name)
      | _ =>
        if !names.isEmpty then .ok (.template (Template.build segs))
        else match chars with
          | '$' :: c :: rest => .ok (.reference (.ofList (c :: rest)))
          | _ =>
            if braces then
              match Template.parse raw with
              | .ok _ => .ok (.template raw)
              | .error e => .error (.invalidTemplate e)
            else .ok (.constant (.ofText raw))

/-- The scalar without a suffix that states a kind of term, and that kind. -/
def splitTermType (raw : String) : String × Option TermType :=
  match Text.cutLast? "~" raw with
  | some (body, "iri") => (body, some .iri)
  | some (body, "literal") => (body, some .literal)
  | some (body, "blanknode") => (body, some .blankNode)
  | _ => (raw, none)

/-- The name of the field an operand of a join condition refers to. -/
def referenceName (raw : String) : String :=
  match inlineSegments raw.toList with
  | [.reference name] => name
  | _ => (Text.stripStart? "$" raw).getD raw

end RdfMapping.Shorthand
