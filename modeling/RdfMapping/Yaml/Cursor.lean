/-
# Cursors

A place in a text while it is read: what is still to come, and the line and column where it
begins, both counted from zero.
-/
import RdfMapping.Diagnostic
import RdfMapping.Yaml.ScalarStyle

namespace RdfMapping.Yaml

/-! ## Marks and faults -/

/-- A place in a text, counted from zero. -/
structure Mark where
  line : Nat := 0
  column : Nat := 0
  index : Nat := 0
deriving DecidableEq, Repr

/-- The position of a mark, counted from one. -/
def Mark.span (m : Mark) : Span := ⟨m.line + 1, m.column + 1⟩

/-- Why a text is not YAML, and the line where this shows, if it is known. -/
structure Fault where
  line : Option Nat
  problem : String
deriving DecidableEq, Repr

namespace Fault

/-- The line of the first of two marks that is not at the start of the text. -/
def lineOf (context place : Mark) : Option Nat :=
  if context.line ≠ 0 then some context.line
  else if place.line ≠ 0 then some place.line
  else none

/-- A fault met while the characters of a text are read. -/
def ofChars (context place : Mark) (problem : String) : Fault :=
  ⟨(lineOf context place).map (· + 1), problem⟩

/-- A fault in the order of the parts of a text; their lines are counted from zero. -/
def ofParts (context place : Mark) (problem : String) : Fault :=
  ⟨lineOf context place, problem⟩

/-- The fault in words. -/
def message (f : Fault) : String :=
  match f.line with
  | some line => "line " ++ toString line ++ ": " ++ f.problem
  | none => f.problem

end Fault

/-! ## Cursors -/

/-- What is still to be read of a text, and where it begins. -/
structure Cursor where
  mark : Mark := {}
  rest : List Char

namespace Cursor

/-- The next character. -/
def peek? (c : Cursor) : Option Char := c.rest.head?

/-- Whether the next character is the given one. -/
def sees (c : Cursor) (x : Char) : Bool := c.peek? = some x

/-- Whether the next character is a blank. -/
def atBlank (c : Cursor) : Bool :=
  match c.rest with
  | x :: _ => isBlank x
  | [] => false

/-- Whether the next character is a line break. -/
def atBreak (c : Cursor) : Bool :=
  match c.rest with
  | x :: _ => isBreak x
  | [] => false

/-- Whether the text ends here, or a blank or a line break comes next. -/
def atGap (c : Cursor) : Bool := Yaml.atBlank c.rest

/-- Whether the text or the line ends here. -/
def atLineEnd (c : Cursor) : Bool :=
  c.rest.isEmpty || c.atBreak

/-- Skips `n` characters of a line. -/
def skip (c : Cursor) (n : Nat) : Cursor :=
  { mark := { c.mark with column := c.mark.column + n, index := c.mark.index + n }
    rest := c.rest.drop n }

/-- Skips the characters of a line that pass a test. -/
def skipWhile (c : Cursor) (p : Char → Bool) : Cursor :=
  c.skip (c.rest.takeWhile p).length

/-- Skips a line break, and gives it as it counts in a text. -/
def skipBreak (c : Cursor) : List Char × Cursor :=
  let next (n : Nat) : Cursor :=
    { mark := { line := c.mark.line + 1, column := 0, index := c.mark.index + n }
      rest := c.rest.drop n }
  match c.rest with
  | '\r' :: '\n' :: _ => (['\n'], next 2)
  | x :: _ =>
    if x = '\n' || x = '\r' || x = '\u0085' then (['\n'], next 1)
    else if isBreak x then ([x], next 1)
    else ([], c)
  | [] => ([], c)

/-- Whether a line begins with the mark of the start or the end of a document. -/
def atDocumentMark (c : Cursor) : Bool :=
  c.mark.column = 0 &&
    (c.rest.take 3 = ['-', '-', '-'] || c.rest.take 3 = ['.', '.', '.']) &&
    Yaml.atBlank (c.rest.drop 3)

end Cursor

end RdfMapping.Yaml
