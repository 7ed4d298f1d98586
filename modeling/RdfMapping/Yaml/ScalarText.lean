/-
# Texts of scalars

How the text of a scalar is read: without quotes, between quotes, or as a block of lines.  Line
breaks inside a scalar are folded.

A reader that goes on and on takes a bound, which is the number of characters left.
-/
import RdfMapping.Yaml.Cursor
import RdfMapping.Yaml.PlainScalar

namespace RdfMapping.Yaml

/-- A scalar's text and where it ends. -/
structure Passage where
  text : List Char
  after : Cursor
  /-- Whether line breaks were skipped after the text. -/
  newLine : Bool := false

/-! ## Gaps -/

/-- The blanks and line breaks between two parts of a scalar. -/
structure Gap where
  /-- The blanks before the first line break. -/
  blanks : List Char := []
  /-- Whether there is a line break. -/
  broken : Bool := false
  /-- The first line break. -/
  first : List Char := []
  /-- The further line breaks. -/
  further : List Char := []

/-- What a gap counts as: a single line break is a space. -/
def Gap.fold (g : Gap) : List Char :=
  if !g.broken then g.blanks
  else if g.first = ['\n'] then if g.further.isEmpty then [' '] else g.further
  else g.first ++ g.further

/-- Reads a gap.  It ends before a tab that stands where indentation is expected. -/
def readGap (indent : Nat) (g : Gap) (c : Cursor) : Nat → Gap × Cursor
  | 0 => (g, c)
  | bound + 1 =>
    if c.atBlank then
      if !g.broken then
        readGap indent { g with blanks := g.blanks ++ c.rest.take 1 } (c.skip 1) bound
      else if c.mark.column < indent && c.sees '\t' then (g, c)
      else readGap indent g (c.skip 1) bound
    else if c.atBreak then
      let (text, after) := c.skipBreak
      if g.broken then readGap indent { g with further := g.further ++ text } after bound
      else readGap indent { broken := true, first := text } after bound
    else (g, c)

/-! ## Plain scalars -/

/-- Whether a scalar without quotes ends here, where no blank is. -/
def endsPlain (inFlow : Bool) : List Char → Bool
  | [] => true
  | c :: rest => c = ':' && atBlank rest || inFlow && innerMarks.contains c

/-- The word of a plain scalar that begins a text. -/
def plainWord (inFlow : Bool) : List Char → List Char
  | [] => []
  | c :: rest =>
    if atBlank (c :: rest) || endsPlain inFlow (c :: rest) then []
    else c :: plainWord inFlow rest

/-- Reads a plain scalar from a cursor, after the text and the gap before it. -/
def plainFrom (inFlow : Bool) (indent : Nat) (start : Mark) (text : List Char) (gap : Gap)
    (c : Cursor) : Nat → Except Fault Passage
  | 0 => .ok ⟨text, c, gap.broken⟩
  | bound + 1 =>
    if c.atDocumentMark || c.sees '#' then .ok ⟨text, c, gap.broken⟩
    else
      let word := plainWord inFlow c.rest
      let text := if word.isEmpty then text else text ++ gap.fold ++ word
      let gap := if word.isEmpty then gap else {}
      let c := c.skip word.length
      if !(c.atBlank || c.atBreak) then .ok ⟨text, c, gap.broken⟩
      else
        let (gap, c) := readGap indent gap c c.rest.length
        if c.sees '\t' then
          .error (.ofChars start c.mark "found a tab character that violates indentation")
        else if !inFlow && c.mark.column < indent then .ok ⟨text, c, gap.broken⟩
        else plainFrom inFlow indent start text gap c bound

/-- Reads a scalar without quotes; its further lines are indented outside brackets. -/
def readPlain (inFlow : Bool) (indent : Nat) (c : Cursor) : Except Fault Passage :=
  plainFrom inFlow indent c.mark [] {} c (c.rest.length + 1)

/-! ## Quoted scalars -/

/-- The letters that stand for characters between double quotes. -/
def letterMeanings : List (Char × Char) :=
  escapeLetters.map (fun (c, letter) => (letter, c)) ++
    [('\t', '\t'), (' ', ' '), ('\x27', '\x27'), ('/', '/')]

/-- The letters before the code of a character, and the number of its digits. -/
def codeLengths : List (Char × Nat) := [('x', 2), ('u', 4), ('U', 8)]

/-- The character that an escape stands for, and its length after the backslash. -/
def readEscape : List Char → Except String (Char × Nat)
  | [] => .error "found unknown escape character"
  | letter :: rest =>
    match letterMeanings.lookup letter, codeLengths.lookup letter with
    | some meant, _ => .ok (meant, 1)
    | none, none => .error "found unknown escape character"
    | none, some n =>
      let digits := rest.take n
      match numberOf? 16 digits with
      | none => .error "did not find expected hexdecimal number"
      | some code =>
        if digits.length < n then .error "did not find expected hexdecimal number"
        else if Nat.isValidChar code then .ok (Char.ofNat code, n + 1)
        else .error "found invalid Unicode character escape code"

/-- Whether a character between quotes stands for itself. -/
def isOrdinary (quote c : Char) : Bool :=
  c ≠ quote && !(quote = '"' && c = '\\') && !isBlank c && !isBreak c

/-- Reads the rest of a quoted scalar, after the text before it. -/
def quotedFrom (quote : Char) (start : Mark) (text : List Char) (c : Cursor) :
    Nat → Except Fault Passage
  | 0 => .error (.ofChars start c.mark "found unexpected end of stream")
  | bound + 1 =>
    if c.atDocumentMark then
      .error (.ofChars start c.mark "found unexpected document indicator")
    else
      let run := c.rest.takeWhile (isOrdinary quote)
      let text := text ++ run
      let c := c.skip run.length
      let afterGap (gap : Gap) (c : Cursor) : Except Fault Passage :=
        let (gap, c) := readGap 0 gap c c.rest.length
        quotedFrom quote start (text ++ gap.fold) c bound
      match c.rest with
      | [] => .error (.ofChars start c.mark "found unexpected end of stream")
      | x :: rest =>
        if x = quote then
          if quote = '\x27' && rest.head? = some quote then
            quotedFrom quote start (text ++ [quote]) (c.skip 2) bound
          else .ok ⟨text, c.skip 1, false⟩
        else if x ≠ '\\' then afterGap {} c
        else if (c.skip 1).atBreak then afterGap { broken := true } (c.skip 1).skipBreak.2
        else match readEscape rest with
          | .error problem => .error (.ofChars start c.mark problem)
          | .ok (meant, n) => quotedFrom quote start (text ++ [meant]) (c.skip (n + 1)) bound

/-- Reads a scalar whose first quote comes next. -/
def readQuoted (quote : Char) (c : Cursor) : Except Fault Passage :=
  quotedFrom quote c.mark [] (c.skip 1) (c.rest.length + 1)

/-! ## Blocks of lines -/

/-- What happens to the line breaks at the end of a block. -/
inductive Chomping where
  /-- They are dropped. -/
  | strip
  /-- The first one is kept. -/
  | clip
  /-- They are all kept. -/
  | keep
deriving DecidableEq, Repr

/-- The sign of a way to end a block. -/
def Chomping.ofSign? : Option Char → Option Chomping
  | some '+' => some keep
  | some '-' => some strip
  | _ => none

/-- The marks after the sign of a block, in either order, and what follows them. -/
def blockMarks? (c : Cursor) : Option (Chomping × Option Nat × Cursor) :=
  let increment? (c : Cursor) : Option (Option Nat × Cursor) :=
    match c.rest with
    | d :: _ =>
      if d = '0' then none
      else if d.isDigit then some (digitValue? 10 d, c.skip 1)
      else some (none, c)
    | [] => some (none, c)
  match Chomping.ofSign? c.peek? with
  | some chomping => (increment? (c.skip 1)).map fun (n, c) => (chomping, n, c)
  | none =>
    (increment? c).map fun (n, c) =>
      match n, Chomping.ofSign? c.peek? with
      | some n, some chomping => (chomping, some n, c.skip 1)
      | n, _ => (.clip, n, c)

/-- Skips empty lines and the indentation of the line after them.  An indentation of zero is
not known yet.  The line breaks, the furthest column and the place after them are given. -/
def blockIndent (indent : Nat) (furthest : Nat) (breaks : List Char) (c : Cursor) :
    Nat → List Char × Nat × Cursor
  | 0 => (breaks, furthest, c)
  | bound + 1 =>
    let spaces := (c.rest.takeWhile (· = ' ')).length
    let c := c.skip (if indent = 0 then spaces else min spaces (indent - c.mark.column))
    let furthest := max furthest c.mark.column
    if c.atBreak then
      let (text, after) := c.skipBreak
      blockIndent indent furthest (breaks ++ text) after bound
    else (breaks, furthest, c)

/-- Whether a tab stands where a block's indentation is expected. -/
def tabInIndent (indent : Nat) (c : Cursor) : Bool :=
  (indent = 0 || c.mark.column < indent) && c.sees '\t'

/-- A block of lines while it is read. -/
structure BlockText where
  text : List Char := []
  /-- The line break after the last line. -/
  lineBreak : List Char := []
  /-- The line breaks of the empty lines after it. -/
  further : List Char := []
  /-- Whether the last line begins with a blank. -/
  blankFirst : Bool := false

/-- The text of a block before a next line, which begins with a blank or not. -/
def BlockText.joined (b : BlockText) (literal blankFirst : Bool) : List Char :=
  if !literal && !b.blankFirst && !blankFirst && b.lineBreak = ['\n'] then
    b.text ++ (if b.further.isEmpty then [' '] else b.further)
  else b.text ++ b.lineBreak ++ b.further

/-- The text of a block that ends here. -/
def BlockText.chomped (b : BlockText) : Chomping → List Char
  | .strip => b.text
  | .clip => b.text ++ b.lineBreak
  | .keep => b.text ++ b.lineBreak ++ b.further

/-- Reads the lines of a block. -/
def blockLines (literal : Bool) (indent : Nat) (start : Mark) (b : BlockText) (c : Cursor) :
    Nat → Except Fault (BlockText × Cursor)
  | 0 => .ok (b, c)
  | bound + 1 =>
    if tabInIndent indent c then
      .error (.ofChars start c.mark
        "found a tab character where an indentation space is expected")
    else if c.mark.column ≠ indent || c.rest.isEmpty then .ok (b, c)
    else
      let blankFirst := c.atBlank
      let line := c.rest.takeWhile (!isBreak ·)
      let (lineBreak, after) := (c.skip line.length).skipBreak
      let (further, _, after) := blockIndent indent 0 [] after after.rest.length
      blockLines literal indent start
        ⟨b.joined literal blankFirst ++ line, lineBreak, further, blankFirst⟩ after bound

/-- Reads a block of lines, indented more than its parent. -/
def readBlock (literal : Bool) (parent : Option Nat) (c : Cursor) : Except Fault Passage :=
  let start := c.mark
  match blockMarks? (c.skip 1) with
  | none => .error (.ofChars start c.mark "found an indentation indicator equal to 0")
  | some (chomping, increment, c) =>
    let c := c.skipWhile isBlank
    let c := if c.sees '#' then c.skipWhile (!isBreak ·) else c
    if !c.atLineEnd then
      .error (.ofChars start c.mark "did not find expected comment or line break")
    else
      let least := match parent with
        | some column => column + 1
        | none => 1
      let given := match increment with
        | some n => parent.getD 0 + n
        | none => 0
      let c := c.skipBreak.2
      let (breaks, furthest, c) := blockIndent given 0 [] c c.rest.length
      if tabInIndent given c then
        .error (.ofChars start c.mark
          "found a tab character where an indentation space is expected")
      else
        let indent := if given = 0 then max furthest least else given
        match blockLines literal indent start { further := breaks } c (c.rest.length + 1) with
        | .error fault => .error fault
        | .ok (b, c) => .ok ⟨b.chomped chomping, c, false⟩

end RdfMapping.Yaml
