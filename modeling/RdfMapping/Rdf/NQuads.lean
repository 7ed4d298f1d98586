/-
# Quads on lines

The format in which each quad stands on a line of its own.
-/
import RdfMapping.Rdf.NameChar
import RdfMapping.Rdf.Term
import RdfMapping.Text.Blank
import RdfMapping.Text.Quoted

namespace RdfMapping.Rdf.NQuads

/-! ## Writing -/

/-- Whether a term may be written: no name is empty. -/
def isComplete : Term → Bool
  | .iri value => value ≠ ""
  | .blank label => label ≠ ""
  | .missing => false
  | .literal _ _ | .other _ => true

/-- Whether a quad may be written. -/
def isValid (q : Quad) : Bool :=
  isComplete q.subject && isComplete q.predicate && isComplete q.object

/-- The text of quads, if all of them may be written. -/
def render? (qs : List Quad) : Option String :=
  if qs.all isValid then some (String.join (qs.map fun q => q.render ++ "\n")) else none

/-! ## Parts of a line

A reader of a part gives what it read and what is left, or else what is left where it failed. -/

/-- What a reader of a part of a line gives. -/
abbrev Part (α : Type) := Except (List Char) (α × List Char)

/-- Skips blanks. -/
def skipBlanks (s : List Char) : List Char :=
  s.dropWhile fun c => c = ' ' || c = '\t'

/-- The value of `n` hexadecimal digits. -/
def hexValue : Nat → Nat → List Char → Part Nat
  | 0, value, s => .ok (value, s)
  | _ + 1, _, [] => .error []
  | n + 1, value, c :: rest =>
    if c.isDigit then hexValue n (value * 16 + (c.toNat - '0'.toNat)) rest
    else if 'a' ≤ c && c ≤ 'f' then hexValue n (value * 16 + (c.toNat - 'a'.toNat + 10)) rest
    else if 'A' ≤ c && c ≤ 'F' then hexValue n (value * 16 + (c.toNat - 'A'.toNat + 10)) rest
    else .error (c :: rest)

/-- The character of a code. -/
def charOf (code : Nat) : Char :=
  if Nat.isValidChar code then Char.ofNat code else '\ufffd'

/-- What a letter after a backslash stands for in a literal. -/
def escapes : List (Char × Char) :=
  [('t', '\t'), ('b', '\x08'), ('n', '\n'), ('r', '\r'), ('f', '\x0c'), ('"', '"'),
    ('\x27', '\x27'), ('\\', '\\')]

/-- Reads what follows a backslash. -/
def readEscape (letters : List (Char × Char)) : List Char → Part Char
  | [] => .error []
  | c :: rest =>
    if c = 'u' then (hexValue 4 0 rest).map fun (n, s) => (charOf n, s)
    else if c = 'U' then (hexValue 8 0 rest).map fun (n, s) => (charOf n, s)
    else match letters.lookup c with
      | some meant => .ok (meant, rest)
      | none => .error (c :: rest)

/-- Reads at most `bound` characters up to a mark, which is skipped. -/
def readUntil (mark : Char) (isChar : Char → Bool) (letters : List (Char × Char))
    (text : List Char) (s : List Char) : Nat → Part (List Char)
  | 0 => .error s
  | bound + 1 =>
    match s with
    | [] => .error []
    | c :: rest =>
      if c = mark then .ok (text.reverse, rest)
      else if c = '\\' then
        match readEscape letters rest with
        | .ok (meant, rest) => readUntil mark isChar letters (meant :: text) rest bound
        | .error rest => .error rest
      else if isChar c then readUntil mark isChar letters (c :: text) rest bound
      else .error (c :: rest)

/-- The characters of IRIs. -/
def isIriChar (c : Char) : Bool :=
  ('!' ≤ c && c ≤ ';') || c = '=' || ('?' ≤ c && c ≤ '[') || c = ']' || c = '_' ||
    ('a' ≤ c && c ≤ 'z') || c = '~' || '\x7f' < c

/-- Reads an IRI after its bracket. -/
def readIri (s : List Char) : Part String :=
  (readUntil '>' isIriChar [] [] s (s.length + 1)).map fun (text, rest) => (.ofList text, rest)

/-- Whether a character may begin the label of a blank node. -/
def isLabelStart (c : Char) : Bool :=
  isWordStart c || c = ':' || c.isDigit

/-- Reads the label of a blank node after the underscore. -/
def readLabel : List Char → Part String
  | ':' :: rest =>
    match rest with
    | c :: _ =>
      if isLabelStart c then
        let label := dottedName (fun c => isWordChar c || c = ':') rest
        .ok (.ofList label, rest.drop label.length)
      else .error rest
    | [] => .error []
  | s => .error s

/-- Reads an IRI or a blank node. -/
def readNode : List Char → Part Term
  | '<' :: rest => (readIri rest).map fun (iri, rest) => (.iri iri, rest)
  | '_' :: rest => (readLabel rest).map fun (label, rest) => (.blank label, rest)
  | s => .error s

/-- Reads the code of a language after its sign. -/
def readLanguage (s : List Char) : Part String :=
  let first := s.takeWhile Char.isAlpha
  if first.isEmpty then .error s
  else
    let code := first ++ parts (s.drop first.length) s.length
    .ok (.ofList code, s.drop code.length)
where
  /-- The further parts of a code. -/
  parts (s : List Char) : Nat → List Char
    | 0 => []
    | bound + 1 =>
      match s with
      | '-' :: rest =>
        let part := rest.takeWhile Char.isAlphanum
        if part.isEmpty then [] else '-' :: part ++ parts (rest.drop part.length) bound
      | _ => []

/-- Reads a literal after its quote. -/
def readLiteral (s : List Char) : Except (List Char) (Term × List Char) := do
  let (text, s) ← readUntil '"' (fun c => c ≠ '\n' && c ≠ '\r') escapes [] s (s.length + 1)
  let text := String.ofList text
  match s with
  | '@' :: rest =>
    let (code, rest) ← readLanguage rest
    return (.literal text (.language code), rest)
  | '^' :: '^' :: '<' :: rest =>
    let (type, rest) ← readIri rest
    return (.literal text (.datatype type), rest)
  | '^' :: '^' :: rest => .error rest
  | '^' :: rest => .error rest
  | _ => return (.literal text .plain, s)

/-- Reads an IRI, a blank node or a literal. -/
def readObject : List Char → Part Term
  | '"' :: rest => readLiteral rest
  | s => readNode s

/-- Reads an IRI. -/
def readPredicate : List Char → Part Term
  | '<' :: rest => readNode ('<' :: rest)
  | s => .error s

/-- Reads the graph of a quad, if there is one. -/
def readGraph (s : List Char) : Part (Option Term) :=
  match s with
  | '<' :: _ | '_' :: _ => (readNode s).map fun (g, rest) => (some g, rest)
  | _ => .ok (none, s)

/-- Reads the end of a line. -/
def readEnd : List Char → Except (List Char) Unit
  | '.' :: rest =>
    match skipBlanks rest with
    | [] | '#' :: _ => .ok ()
    | s => .error s
  | s => .error s

/-- Reads a quad from a line. -/
def readQuad (line : List Char) : Except (List Char) Quad := do
  let (subject, s) ← readNode (skipBlanks line)
  let (predicate, s) ← readPredicate (skipBlanks s)
  let (object, s) ← readObject (skipBlanks s)
  let (graph, s) ← readGraph (skipBlanks s)
  readEnd (skipBlanks s)
  return ⟨subject, predicate, object, graph⟩

/-! ## Texts -/

/-- A line that is no quad, and what is left of it where this shows. -/
structure BadLine where
  line : String
  rest : List Char
deriving DecidableEq, Repr

/-- What is wrong with a line. -/
def BadLine.message (b : BadLine) : String :=
  "failed to parse " ++ Text.quote b.line ++ ": " ++
    match b.rest with
    | [] => "incomplete N-Quad"
    | c :: _ =>
      "invalid N-Quad: unexpected rune '" ++ .ofList (Text.quoteChar c) ++ "'" ++
        (if c < '\x7f' then "" else " (\\u" ++ .ofList (Text.hex 4 c.toNat) ++ ")") ++ " at " ++
        toString (b.line.length - b.rest.length)

/-- The quads of some lines, without those that have empty names. -/
def readLines : List (List Char) → Except BadLine (List Quad)
  | [] => .ok []
  | line :: lines =>
    let line := Text.trim line
    if line.isEmpty || line.head? = some '#' then readLines lines
    else match readQuad line with
      | .error rest => .error ⟨.ofList line, rest⟩
      | .ok q => (readLines lines).map fun qs => if isValid q then q :: qs else qs

/-- The quads of a text. -/
def read (text : String) : Except BadLine (List Quad) :=
  readLines (Chars.splitAll '\n' text.toList)

end RdfMapping.Rdf.NQuads
