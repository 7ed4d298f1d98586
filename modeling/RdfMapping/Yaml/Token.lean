/-
# Tokens

A text as a list of tokens.  A scalar may turn out to be the key of a mapping only when the colon
after it is read; the token that says so is put before it afterwards.
-/
import RdfMapping.Yaml.ScalarText

namespace RdfMapping.Yaml

/-! ## Tokens -/

/-- What a token is. -/
inductive TokenKind where
  | streamEnd
  | versionDirective (major minor : Nat)
  | tagDirective (handle start : String)
  | documentStart
  | documentEnd
  | sequenceStart
  | mappingStart
  | blockEnd
  | flowSequenceStart
  | flowSequenceEnd
  | flowMappingStart
  | flowMappingEnd
  | blockEntry
  | flowEntry
  | key
  | value
  | aliasTo (name : String)
  | anchor (name : String)
  | tag (handle suffix : String)
  | scalar (text : String) (plain : Bool)
deriving DecidableEq, Repr

/-- A token, with the places where it begins and ends. -/
structure Token where
  kind : TokenKind
  start : Mark
  stop : Mark
deriving DecidableEq, Repr

/-- The tokens of a text; if they end with a fault, then no more of them can be seen. -/
structure Tokens where
  tokens : List Token
  fault : Option Fault := none

/-! ## State -/

/-- Something that is a key if a colon follows. -/
structure PendingKey where
  /-- Whether nothing else can stand here. -/
  required : Bool
  /-- The number of tokens before it. -/
  number : Nat
  mark : Mark

/-- How far a text has been read. -/
structure TokenState where
  cursor : Cursor
  /-- The columns of the open blocks, from the innermost. -/
  indents : List Nat := []
  /-- The pending key between the innermost brackets, or outside them all. -/
  pending : Option PendingKey := none
  /-- The pending keys around the open brackets, from the innermost. -/
  outer : List (Option PendingKey) := []
  /-- Whether a key may come next. -/
  keyAllowed : Bool := true
  /-- The tokens read so far, from the last. -/
  read : List Token := []
  finished : Bool := false

namespace TokenState

/-- Whether brackets are open. -/
def inFlow (s : TokenState) : Bool := !s.outer.isEmpty

/-- The column of the innermost block. -/
def indent (s : TokenState) : Option Nat := s.indents.head?

/-- The place that is reached. -/
def mark (s : TokenState) : Mark := s.cursor.mark

/-- A fault at the place that is reached. -/
def fault {α : Type} (s : TokenState) (problem : String) : Except Fault α :=
  .error (.ofChars s.mark s.mark problem)

/-- Adds a token at the end. -/
def push (s : TokenState) (kind : TokenKind) (start stop : Mark) : TokenState :=
  { s with read := ⟨kind, start, stop⟩ :: s.read }

/-- Adds a token that has no extent before the last tokens, after the first `number`. -/
def insert (s : TokenState) (number : Nat) (kind : TokenKind) (mark : Mark) : TokenState :=
  { s with read := s.read.insertIdx (s.read.length - number) ⟨kind, mark, mark⟩ }

/-- Adds a sign of `n` characters, which comes next. -/
def pushSign (s : TokenState) (kind : TokenKind) (n : Nat) : TokenState :=
  let after := s.cursor.skip n
  { s with cursor := after, read := ⟨kind, s.mark, after.mark⟩ :: s.read }

/-! ### Pending keys -/

/-- The fault of a key without a colon. -/
def keyFault {α : Type} (s : TokenState) (k : PendingKey) : Except Fault α :=
  .error (.ofChars k.mark s.mark "could not find expected ':'")

/-- Gives up the pending key. -/
def dropKey (s : TokenState) : Except Fault TokenState :=
  match s.pending with
  | some k => if k.required then s.keyFault k else .ok { s with pending := none }
  | none => .ok s

/-- Whether a key has to end on an earlier line, or is too long. -/
def isStale (s : TokenState) (k : PendingKey) : Bool :=
  k.mark.line < s.mark.line || k.mark.index + 1024 < s.mark.index

/-- Marks what comes next as a pending key, if a key may come. -/
def saveKey (s : TokenState) : Except Fault TokenState :=
  if !s.keyAllowed then .ok s
  else
    let required := !s.inFlow && s.indent = some s.mark.column
    s.dropKey.map fun s => { s with pending := some ⟨required, s.read.length, s.mark⟩ }

/-! ### Indentation -/

/-- Ends the blocks that stand further right than a column. -/
def closeBlocks (s : TokenState) (column : Nat) (mark : Mark) : TokenState :=
  if s.inFlow then s
  else
    let ended := s.indents.takeWhile (column < ·)
    { s with
        indents := s.indents.drop ended.length
        read := ended.map (fun _ => ⟨.blockEnd, mark, mark⟩) ++ s.read }

/-- Ends all blocks. -/
def closeAllBlocks (s : TokenState) (mark : Mark) : TokenState :=
  if s.inFlow then s
  else
    { s with
        indents := []
        read := s.indents.map (fun _ => ⟨.blockEnd, mark, mark⟩) ++ s.read }

/-- Begins a block at a column, unless one has begun there. -/
def openBlock (s : TokenState) (kind : TokenKind) (number : Nat) (mark : Mark) : TokenState :=
  let begins := match s.indent with
    | some column => column < mark.column
    | none => true
  if s.inFlow || !begins then s
  else { s.insert number kind mark with indents := mark.column :: s.indents }

/-! ## Between tokens -/

/-- Skips a comment, and those on lines of their own after it. -/
def skipComments (c : Cursor) : Nat → Cursor
  | 0 => c
  | bound + 1 =>
    let c := c.skipWhile (!isBreak ·)
    let next := (readGap 0 {} c c.rest.length).2
    if next.sees '#' then skipComments next bound else c

/-- Skips blanks, comments and line breaks. -/
def skipToToken (s : TokenState) : Nat → TokenState
  | 0 => s
  | bound + 1 =>
    let c := s.cursor
    let c := if c.mark.column = 0 && c.sees '\ufeff' then c.skip 1 else c
    let c := c.skipWhile fun x => x = ' ' || (s.inFlow || !s.keyAllowed) && x = '\t'
    let c := if c.sees '#' then skipComments c c.rest.length else c
    if c.atBreak then
      skipToToken { s with cursor := c.skipBreak.2, keyAllowed := s.keyAllowed || !s.inFlow } bound
    else { s with cursor := c }

/-! ## Signs -/

/-- Begins a list or a mapping between brackets. -/
def openFlow (s : TokenState) (kind : TokenKind) : Except Fault TokenState := do
  let s ← s.saveKey
  let s := { s with outer := s.pending :: s.outer, pending := none, keyAllowed := true }
  return s.pushSign kind 1

/-- Ends a list or a mapping between brackets. -/
def closeFlow (s : TokenState) (kind : TokenKind) : Except Fault TokenState := do
  let s ← s.dropKey
  let s := match s.outer with
    | k :: outer => { s with pending := k, outer }
    | [] => s
  return { s with keyAllowed := false }.pushSign kind 1

/-- A comma between brackets. -/
def flowEntry (s : TokenState) : Except Fault TokenState := do
  let s ← s.dropKey
  return { s with keyAllowed := true }.pushSign .flowEntry 1

/-- The sign of an element of a list. -/
def blockEntry (s : TokenState) : Except Fault TokenState := do
  if !s.inFlow && !s.keyAllowed then
    s.fault "block sequence entries are not allowed in this context"
  else
    let s := s.openBlock .sequenceStart s.read.length s.mark
    let s ← s.dropKey
    return { s with keyAllowed := true }.pushSign .blockEntry 1

/-- The sign of a key. -/
def keySign (s : TokenState) : Except Fault TokenState := do
  if !s.inFlow && !s.keyAllowed then
    s.fault "mapping keys are not allowed in this context"
  else
    let s := s.openBlock .mappingStart s.read.length s.mark
    let s ← s.dropKey
    return { s with keyAllowed := !s.inFlow }.pushSign .key 1

/-- The colon before a value. -/
def valueSign (s : TokenState) : Except Fault TokenState :=
  match s.pending.filter (!s.isStale ·), s.pending with
  | some k, _ =>
    let s := (s.insert k.number .key k.mark).openBlock .mappingStart k.number k.mark
    .ok ({ s with pending := none, keyAllowed := false }.pushSign .value 1)
  | none, stale =>
    match stale.filter (·.required) with
    | some k => s.keyFault k
    | none =>
      let s := { s with pending := none }
      if !s.inFlow && !s.keyAllowed then
        s.fault "mapping values are not allowed in this context"
      else
        let s := s.openBlock .mappingStart s.read.length s.mark
        .ok ({ s with keyAllowed := !s.inFlow }.pushSign .value 1)

/-! ## Names -/

/-- The characters of the names of anchors and directives. -/
def isNameChar (c : Char) : Bool :=
  c.isAlphanum || c = '_' || c = '-'

/-- The characters of the names of tags. -/
def isTagChar (c : Char) : Bool :=
  isNameChar c || ";/?:@&=+$.!~*'()%".toList.contains c

/-- Whether a name of an anchor may end before what follows. -/
def endsName (c : Cursor) : Bool :=
  c.atGap || c.peek?.any "?:,]\x7d%@`".toList.contains

/-- A name after a sign. -/
def name (s : TokenState) (kind : String → TokenKind) : Except Fault TokenState := do
  let s ← s.saveKey
  let word := (s.cursor.skip 1).rest.takeWhile isNameChar
  let after := s.cursor.skip (word.length + 1)
  if word.isEmpty || !endsName after then
    .error (.ofChars s.mark after.mark "did not find expected alphabetic or numeric character")
  else
    return { s with keyAllowed := false, cursor := after }.push (kind (String.ofList word))
      s.mark after.mark

/-- The handle and the suffix of a tag, and what follows it. -/
def readTag (start : Mark) (c : Cursor) : Except Fault (String × String × Cursor) :=
  match c.rest with
  | '!' :: '<' :: rest =>
    let uri := rest.takeWhile fun x => isTagChar x || x = ',' || x = '[' || x = ']'
    let after := c.skip (uri.length + 2)
    if uri.isEmpty then .error (.ofChars start after.mark "did not find expected tag URI")
    else if after.sees '>' then .ok ("", String.ofList uri, after.skip 1)
    else .error (.ofChars start after.mark "did not find the expected '>'")
  | _ =>
    let word := (c.skip 1).rest.takeWhile isNameChar
    let afterWord := c.skip (word.length + 1)
    if afterWord.sees '!' then
      let suffix := (afterWord.skip 1).rest.takeWhile isTagChar
      let after := afterWord.skip (suffix.length + 1)
      if suffix.isEmpty then .error (.ofChars start after.mark "did not find expected tag URI")
      else .ok (String.ofList ('!' :: word ++ ['!']), String.ofList suffix, after)
    else
      let suffix := (c.skip 1).rest.takeWhile isTagChar
      let after := c.skip (suffix.length + 1)
      if suffix.isEmpty then .ok ("", "!", after) else .ok ("!", String.ofList suffix, after)

/-- A tag. -/
def tag (s : TokenState) : Except Fault TokenState := do
  let s ← s.saveKey
  let (handle, suffix, after) ← readTag s.mark s.cursor
  if !after.atGap then
    .error (.ofChars s.mark after.mark "did not find expected whitespace or line break")
  else
    return { s with keyAllowed := false, cursor := after }.push (.tag handle suffix) s.mark
      after.mark

/-! ## Directives -/

/-- A number in the version of a directive. -/
def readVersionNumber (start : Mark) (c : Cursor) : Except Fault (Nat × Cursor) :=
  let digits := c.rest.takeWhile Char.isDigit
  let after := c.skip digits.length
  match numberOf? 10 digits with
  | none => .error (.ofChars start after.mark "did not find expected version number")
  | some n =>
    if digits.length > 9 then
      .error (.ofChars start after.mark "found extremely long version number")
    else .ok (n, after)

/-- What a directive says, and what follows it. -/
def readDirective (start : Mark) (c : Cursor) : Except Fault (TokenKind × Cursor) := do
  let word := c.rest.takeWhile isNameChar
  let c := c.skip word.length
  if word.isEmpty then .error (.ofChars start c.mark "could not find expected directive name")
  else if !c.atGap then
    .error (.ofChars start c.mark "found unexpected non-alphabetical character")
  else if word = "YAML".toList then
    let (major, c) ← readVersionNumber start (c.skipWhile isBlank)
    if !c.sees '.' then
      .error (.ofChars start c.mark "did not find expected digit or '.' character")
    else
      let (minor, c) ← readVersionNumber start (c.skip 1)
      return (.versionDirective major minor, c)
  else if word = "TAG".toList then
    let c := c.skipWhile isBlank
    if !c.sees '!' then .error (.ofChars start c.mark "did not find expected '!'")
    else
      let middle := (c.skip 1).rest.takeWhile isNameChar
      let after := c.skip (middle.length + 1)
      let handle := '!' :: middle ++ (if after.sees '!' then ['!'] else [])
      let c := c.skip handle.length
      if handle.length > 1 && !after.sees '!' then
        .error (.ofChars start c.mark "did not find expected '!'")
      else if !c.atBlank then .error (.ofChars start c.mark "did not find expected whitespace")
      else
        let c := c.skipWhile isBlank
        let uri := c.rest.takeWhile fun x => isTagChar x || x = ',' || x = '[' || x = ']'
        let c := c.skip uri.length
        if uri.isEmpty then .error (.ofChars start c.mark "did not find expected tag URI")
        else if !c.atGap then
          .error (.ofChars start c.mark "did not find expected whitespace or line break")
        else return (.tagDirective (String.ofList handle) (String.ofList uri), c)
  else .error (.ofChars start c.mark "found unknown directive name")

/-- A directive. -/
def directive (s : TokenState) : Except Fault TokenState := do
  let s ← (s.closeAllBlocks s.mark).dropKey
  let (kind, after) ← readDirective s.mark (s.cursor.skip 1)
  let stop := after.mark
  let after := after.skipWhile isBlank
  let after := if after.sees '#' then after.skipWhile (!isBreak ·) else after
  if !after.atLineEnd then
    .error (.ofChars s.mark after.mark "did not find expected comment or line break")
  else
    return { s with keyAllowed := false, cursor := after.skipBreak.2 }.push kind s.mark stop

/-! ## Scalars -/

/-- A scalar that may be a key. -/
def inlineScalar (s : TokenState) (plain : Bool) (reader : Cursor → Except Fault Passage) :
    Except Fault TokenState := do
  let s ← s.saveKey
  let passage ← reader s.cursor
  return { s with keyAllowed := passage.newLine, cursor := passage.after }.push
    (.scalar (String.ofList passage.text) plain) s.mark passage.after.mark

/-- A scalar that is a block of lines. -/
def blockScalar (s : TokenState) (literal : Bool) : Except Fault TokenState := do
  let s ← s.dropKey
  let passage ← readBlock literal s.indent s.cursor
  return { s with keyAllowed := true, cursor := passage.after }.push
    (.scalar (String.ofList passage.text) false) s.mark passage.after.mark

/-- Whether a scalar without quotes may begin here. -/
def beginsPlain (s : TokenState) (c : Char) (rest : List Char) : Bool :=
  if c = '-' then true
  else if c = '?' || c = ':' then !s.inFlow && !atBlank rest
  else !isBlank c && !isBreak c && !startMarks.contains c

/-! ## Steps -/

/-- The end of the text. -/
def finish (s : TokenState) : Except Fault TokenState := do
  let mark :=
    if s.mark.column = 0 then s.mark else { s.mark with line := s.mark.line + 1, column := 0 }
  let s := { s with cursor := { s.cursor with mark } }
  let s ← (s.closeAllBlocks mark).dropKey
  return { s with keyAllowed := false, finished := true }.push .streamEnd mark mark

/-- The mark of the start or the end of a document. -/
def documentMark (s : TokenState) (kind : TokenKind) : Except Fault TokenState := do
  let s ← (s.closeAllBlocks s.mark).dropKey
  return { s with keyAllowed := false }.pushSign kind 3

/-- Reads the next token. -/
def step (s : TokenState) : Except Fault TokenState :=
  let before := s.mark
  let s := s.skipToToken (s.cursor.rest.length + 1)
  let s := s.closeBlocks s.mark.column before
  match s.cursor.rest with
  | [] => s.finish
  | c :: rest =>
    if c = '%' && s.mark.column = 0 then s.directive
    else if s.cursor.atDocumentMark then
      s.documentMark (if c = '-' then .documentStart else .documentEnd)
    else if c = '[' then s.openFlow .flowSequenceStart
    else if c = '{' then s.openFlow .flowMappingStart
    else if c = ']' then s.closeFlow .flowSequenceEnd
    else if c = '}' then s.closeFlow .flowMappingEnd
    else if c = ',' then s.flowEntry
    else if c = '-' && atBlank rest then s.blockEntry
    else if c = '?' && (s.inFlow || atBlank rest) then s.keySign
    else if c = ':' && (s.inFlow || atBlank rest) then s.valueSign
    else if c = '*' then s.name .aliasTo
    else if c = '&' then s.name .anchor
    else if c = '!' then s.tag
    else if c = '|' && !s.inFlow then s.blockScalar true
    else if c = '>' && !s.inFlow then s.blockScalar false
    else if c = '\x27' || c = '"' then s.inlineScalar false (readQuoted c)
    else if s.beginsPlain c rest then
      s.inlineScalar true (readPlain s.inFlow (s.indent.elim 0 (· + 1)))
    else s.fault "found character that cannot start any token"

/-- The tokens that are certain when a fault is met: all but the last two. -/
def certain (s : TokenState) : List Token :=
  let keys := (s.pending :: s.outer).filterMap fun k =>
    (k.filter (!s.isStale ·)).map (·.number)
  s.read.reverse.take (keys.foldl min (s.read.length - 2))

/-- Reads all tokens. -/
def steps (s : TokenState) : Nat → Tokens
  | 0 => ⟨s.read.reverse, none⟩
  | bound + 1 =>
    if s.finished then ⟨s.read.reverse, none⟩
    else match s.step with
      | .ok next => next.steps bound
      | .error fault => ⟨s.certain, some fault⟩

end TokenState

/-! ## Texts -/

/-- Characters that may stand in a text. -/
def isAllowed (c : Char) : Bool :=
  c = '\t' || c = '\n' || c = '\r' || c = '\u0085' || (' ' ≤ c && c ≤ '~') ||
    ('\u00a0' ≤ c && c ≤ '\ufffd') || '\uffff' < c

/-- The tokens of a text.  A mark of the byte order at its start is skipped. -/
def Tokens.ofText (text : String) : Tokens :=
  let chars := match text.toList with
    | '\ufeff' :: rest => rest
    | chars => chars
  if chars.all isAllowed then
    TokenState.steps { cursor := { rest := chars } } (chars.length + 2)
  else ⟨[], some ⟨none, "control characters are not allowed"⟩⟩

end RdfMapping.Yaml
