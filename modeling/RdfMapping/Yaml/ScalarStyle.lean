/-
# Styles of scalars

A scalar is written plain, between single or double quotes, or as a block of lines.  Which of
these are possible depends on its characters and on where it stands.
-/
import RdfMapping.Text.Quoted

namespace RdfMapping.Yaml

/-! ## Characters -/

/-- Characters that end a line. -/
def isBreak (c : Char) : Bool :=
  c = '\n' || c = '\r' || c = '\u0085' || c = '\u2028' || c = '\u2029'

/-- Spaces and tabs. -/
def isBlank (c : Char) : Bool :=
  c = ' ' || c = '\t'

/-- Whether what follows is the end, a blank or a line break. -/
def atBlank : List Char → Bool
  | [] => true
  | c :: _ => isBlank c || isBreak c

/-- Characters that are written as they are. -/
def isWritable (c : Char) : Bool :=
  c = '\n' || (' ' ≤ c && c ≤ '~') || ('\u00a0' ≤ c && c ≤ '\ufffd' && c ≠ '\ufeff')

/-! ## Traits -/

/-- What matters about the characters of a scalar. -/
structure Traits where
  /-- It holds marks that mean something between brackets. -/
  flowMarks : Bool := false
  /-- It holds marks that mean something outside brackets. -/
  blockMarks : Bool := false
  /-- It holds line breaks. -/
  breaks : Bool := false
  /-- It holds characters that have to be escaped. -/
  special : Bool := false
  /-- It holds tabs. -/
  tabs : Bool := false
  /-- It begins or ends with a space or a line break. -/
  padded : Bool := false
  /-- It ends with a space. -/
  spaceAtEnd : Bool := false
  /-- A space follows a line break. -/
  breakSpace : Bool := false
  /-- A line break follows a space. -/
  spaceBreak : Bool := false
deriving DecidableEq, Repr

/-- Marks that mean something at the start of a scalar. -/
def startMarks : List Char :=
  ['#', ',', '[', ']', '{', '}', '&', '*', '!', '|', '>', '\x27', '"', '%', '@', '\x60']

/-- Marks that mean something between brackets. -/
def innerMarks : List Char :=
  [',', '?', '[', ']', '{', '}']

/-- Whether a character at the start of a scalar is a mark, between brackets and outside. -/
def marksAtStart (c : Char) (rest : List Char) : Bool × Bool :=
  if startMarks.contains c then (true, true)
  else if c = '?' || c = ':' then (true, atBlankOnly rest)
  else if c = '-' then (atBlankOnly rest, atBlankOnly rest)
  else (false, false)
where
  /-- Whether what follows is the end or a blank. -/
  atBlankOnly : List Char → Bool
    | [] => true
    | d :: _ => isBlank d

/-- Whether a character inside a scalar is a mark, between brackets and outside. -/
def marksInside (previous c : Char) (rest : List Char) : Bool × Bool :=
  if innerMarks.contains c then (true, false)
  else if c = ':' then (true, marksAtStart.atBlankOnly rest)
  else if c = '#' && (isBlank previous || isBreak previous) then (true, true)
  else (false, false)

/-- The traits that follow after a character `previous`. -/
def Traits.from (t : Traits) (previous : Char) : List Char → Traits
  | [] => { t with padded := t.padded || previous = ' ' || isBreak previous
                   spaceAtEnd := previous = ' ' }
  | c :: rest =>
    let (flow, block) := marksInside previous c rest
    Traits.from { t with
      flowMarks := t.flowMarks || flow
      blockMarks := t.blockMarks || block
      breaks := t.breaks || isBreak c
      tabs := t.tabs || c = '\t'
      special := t.special || (c ≠ '\t' && !isWritable c)
      breakSpace := t.breakSpace || (isBreak previous && c = ' ')
      spaceBreak := t.spaceBreak || (previous = ' ' && isBreak c) } c rest

/-- The traits of a scalar that is not empty. -/
def Traits.ofChars : List Char → Traits
  | [] => {}
  | c :: rest =>
    let (flow, block) := marksAtStart c rest
    let ruled := ["---".toList, "...".toList].contains ((c :: rest).take 3)
    Traits.from
      { flowMarks := flow || ruled, blockMarks := block || ruled, breaks := isBreak c
        tabs := c = '\t', special := c ≠ '\t' && !isWritable c
        padded := c = ' ' || isBreak c } c rest

/-- The traits of a scalar. -/
def Traits.of (text : String) : Traits :=
  .ofChars text.toList

namespace Traits

/-- Whether a scalar that is not empty can be written without quotes. -/
def allowsPlain (t : Traits) (inFlow : Bool) : Bool :=
  !(t.padded || t.breakSpace || t.spaceBreak || t.tabs || t.special || t.breaks ||
    if inFlow then t.flowMarks else t.blockMarks)

/-- Whether a scalar can be written between single quotes. -/
def allowsSingle (t : Traits) : Bool :=
  !(t.breakSpace || t.spaceBreak || t.tabs || t.special)

/-- Whether a scalar that is not empty can be written as a block of lines. -/
def allowsBlock (t : Traits) : Bool :=
  !(t.spaceAtEnd || t.spaceBreak || t.special)

end Traits

/-! ## Styles -/

/-- The style of a scalar. -/
inductive Style where
  | plain
  | single
  | double
  | literal
deriving DecidableEq, Repr

/-- Where a scalar is written. -/
structure Site where
  /-- Between brackets. -/
  inFlow : Bool := false
  /-- As a key on the line of its value. -/
  asKey : Bool := false

/-- The style in which a scalar is written, if another is wished for. -/
def chooseStyle (site : Site) (wish : Style) (text : String) : Style :=
  let t := Traits.of text
  let quoted := if t.allowsSingle then Style.single else .double
  match if site.asKey && t.breaks then Style.double else wish with
  | .plain =>
    if text = "" then if site.inFlow || site.asKey then .single else .plain
    else if t.allowsPlain site.inFlow then .plain else quoted
  | .single => quoted
  | .double => .double
  | .literal =>
    if text = "" || !t.allowsBlock || site.inFlow || site.asKey then .double else .literal

/-! ## Texts -/

/-- Spaces. -/
def spaces (n : Nat) : List Char := List.replicate n ' '

/-- A character between single quotes. -/
def singleChar (c : Char) : List Char :=
  if c = '\x27' then ['\x27', '\x27'] else [c]

/-- A text between single quotes; after a line break the text is indented. -/
def singleChars (indent : Nat) (afterBreak : Bool) : List Char → List Char
  | [] => []
  | c :: rest =>
    (if afterBreak && !isBreak c then spaces indent else []) ++ singleChar c ++
      singleChars indent (isBreak c) rest

/-- The letters that stand for characters after a backslash. -/
def escapeLetters : List (Char × Char) :=
  [('\x00', '0'), ('\x07', 'a'), ('\x08', 'b'), ('\t', 't'), ('\n', 'n'), ('\x0b', 'v'),
    ('\x0c', 'f'), ('\r', 'r'), ('\x1b', 'e'), ('"', '"'), ('\\', '\\'), ('\u0085', 'N'),
    ('\u00a0', '_'), ('\u2028', 'L'), ('\u2029', 'P')]

/-- A character between double quotes. -/
def doubleChar (c : Char) : List Char :=
  if isWritable c && !isBreak c && c ≠ '"' && c ≠ '\\' then [c]
  else match escapeLetters.lookup c with
    | some letter => ['\\', letter]
    | none =>
      if c.toNat ≤ 0xff then '\\' :: 'x' :: Text.hexUpper 2 c.toNat
      else if c.toNat ≤ 0xffff then '\\' :: 'u' :: Text.hexUpper 4 c.toNat
      else '\\' :: 'U' :: Text.hexUpper 8 c.toNat

/-- The lines of a block; lines that are not empty are indented. -/
def blockChars (indent : Nat) (afterBreak : Bool) : List Char → List Char
  | [] => []
  | c :: rest =>
    (if afterBreak && !isBreak c then spaces indent else []) ++ c ::
      blockChars indent (isBreak c) rest

/-- What is said about the line breaks at the end of a block. -/
def chompingMark (text : List Char) : List Char :=
  match text.reverse with
  | [] => ['-']
  | [c] => if isBreak c then ['+'] else ['-']
  | c :: d :: _ => if !isBreak c then ['-'] else if isBreak d then ['+'] else []

/-- What is said about the indentation of a block. -/
def indentationMark (unit : Nat) : List Char → List Char
  | c :: _ => if c = ' ' || isBreak c then (toString unit).toList else []
  | [] => []

/-- The end of the line that opens a block; a line break may follow it. -/
def openingBreak : List Char → List Char
  | c :: _ => if isBreak c then [] else ['\n']
  | [] => ['\n']

/-- The text of a scalar in a style, its further lines indented by `indent`. -/
def writeScalar (unit indent : Nat) (style : Style) (text : String) : List Char :=
  let chars := text.toList
  match style with
  | .plain => chars
  | .single => '\x27' :: singleChars indent false chars ++ ['\x27']
  | .double => '"' :: chars.flatMap doubleChar ++ ['"']
  | .literal =>
    '|' :: indentationMark unit chars ++ chompingMark chars ++ openingBreak chars ++
      blockChars indent true chars

end RdfMapping.Yaml
