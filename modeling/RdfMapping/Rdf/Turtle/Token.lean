/-
# Turtle tokens

A Turtle text as a list of tokens.
-/
import RdfMapping.Rdf.NQuads

namespace RdfMapping.Rdf.Turtle

open NQuads (readLanguage readUntil skipBlanks)

/-- A token of a Turtle text. -/
inductive Token where
  /-- The declaration of a prefix; one that begins with a sign ends with a dot. -/
  | prefixWord (dotted : Bool)
  /-- The declaration of a base. -/
  | baseWord (dotted : Bool)
  | iri (text : String)
  /-- A name with the label of a prefix. -/
  | name (label rest : String)
  /-- The word for the property of belonging to a class. -/
  | typeWord
  | blank (label : String)
  /-- A quoted text. -/
  | quoted (text : String)
  | language (code : String)
  /-- The sign before a datatype. -/
  | carets
  /-- A literal without quotes and its datatype. -/
  | bare (text : String) (datatype : String)
  | openBracket
  | closeBracket
  | openParen
  | closeParen
  | dot
  | comma
  | semicolon
  /-- Where reading stops. -/
  | bad (problem : String)
deriving DecidableEq, Repr

/-! ## Names -/

/-- A local name at the start of a text, with its escapes undone, and what follows it. -/
def localName (text : List Char) (s : List Char) : Nat → List Char × List Char
  | 0 => (text.reverse, s)
  | bound + 1 =>
    match s with
    | '\\' :: c :: rest =>
      if "_~.-!$&'()*+,;=/?#@%".toList.contains c then localName (c :: text) rest bound
      else (text.reverse, s)
    | '.' :: rest =>
      match rest.dropWhile (· = '.') with
      | c :: _ =>
        if isWordChar c || c = ':' || c = '%' || c = '\\' then localName ('.' :: text) rest bound
        else (text.reverse, s)
      | [] => (text.reverse, s)
    | c :: rest =>
      if isWordChar c || c = ':' || c = '%' then localName (c :: text) rest bound
      else (text.reverse, s)
    | [] => (text.reverse, s)

/-- Reads a name after its label, which is followed by a colon. -/
def readName (label s : List Char) : Token × List Char :=
  match s.drop label.length with
  | ':' :: rest =>
    let (text, rest) := localName [] rest rest.length
    (.name (.ofList label) (.ofList text), rest)
  | _ => (.bad ("illegal token: " ++ Text.quote (.ofList label)), [])

/-- Reads a word: a name, a truth value, a directive or the word for a class. -/
def readWord (s : List Char) : Token × List Char :=
  let label := dottedName isWordChar s
  let rest := s.drop label.length
  if rest.head? = some ':' then readName label s
  else if label = ['a'] then (.typeWord, rest)
  else if label = "true".toList || label = "false".toList then
    (.bare (.ofList label) "http://www.w3.org/2001/XMLSchema#boolean", rest)
  else if (label.map Char.toLower) = "prefix".toList then (.prefixWord false, rest)
  else if (label.map Char.toLower) = "base".toList then (.baseWord false, rest)
  else (.bad ("illegal token: " ++ Text.quote (.ofList label)), [])

/-! ## Literals -/

/-- The number at the start of a text and its datatype. -/
def readNumber? (s : List Char) : Option (Token × List Char) :=
  let sign := match s with
    | '+' :: _ => ['+']
    | '-' :: _ => ['-']
    | _ => []
  let s := s.drop sign.length
  let whole := s.takeWhile Char.isDigit
  let s := s.drop whole.length
  let (fraction, s) := match s with
    | '.' :: d :: rest =>
      if d.isDigit then ('.' :: d :: rest.takeWhile Char.isDigit, rest.dropWhile Char.isDigit)
      else ([], s)
    | _ => ([], s)
  let (exponent, s) := match s with
    | e :: rest =>
      if e ≠ 'e' && e ≠ 'E' then ([], s)
      else
        let sign := match rest with
          | '+' :: _ => ['+']
          | '-' :: _ => ['-']
          | _ => []
        let digits := (rest.drop sign.length).takeWhile Char.isDigit
        if digits.isEmpty then ([], s)
        else (e :: sign ++ digits, rest.drop (sign.length + digits.length))
    | [] => ([], s)
  let type :=
    if !exponent.isEmpty then "double" else if !fraction.isEmpty then "decimal" else "integer"
  if whole.isEmpty && fraction.isEmpty then none
  else some (.bare (.ofList (sign ++ whole ++ fraction ++ exponent))
    ("http://www.w3.org/2001/XMLSchema#" ++ type), s)

/-- Reads a text between three quotes, up to the next three. -/
def readLong (quote : Char) (text : List Char) (s : List Char) :
    Nat → Except (List Char) (List Char × List Char)
  | 0 => .error s
  | bound + 1 =>
    match s with
    | [] => .error []
    | '\\' :: rest =>
      match NQuads.readEscape NQuads.escapes rest with
      | .ok (meant, rest) => readLong quote (meant :: text) rest bound
      | .error rest => .error rest
    | c :: rest =>
      if c = quote && rest.take 2 = [quote, quote] then .ok (text.reverse, rest.drop 2)
      else readLong quote (c :: text) rest bound

/-- Reads a quoted text after its first quote. -/
def readQuoted (quote : Char) (s : List Char) : Token × List Char :=
  let result :=
    if s.take 2 = [quote, quote] then readLong quote [] (s.drop 2) s.length
    else readUntil quote (fun c => c ≠ '\n' && c ≠ '\r') NQuads.escapes [] s (s.length + 1)
  match result with
  | .ok (text, rest) => (.quoted (.ofList text), rest)
  | .error _ => (.bad "bad literal: no closing quote", [])

/-! ## Tokens -/

/-- Reads an IRI after its bracket. -/
def readIriToken (s : List Char) : Token × List Char :=
  let isChar (c : Char) : Bool :=
    ' ' < c && !(['<', '"', '{', '}', '|', '^', '\x60'].contains c)
  match readUntil '>' isChar [] [] s (s.length + 1) with
  | .ok (text, rest) => (.iri (.ofList text), rest)
  | .error [] => (.bad "bad IRI: no closing '>'", [])
  | .error (c :: _) =>
    (.bad ("bad IRI: disallowed character '" ++ .ofList (Text.quoteChar c) ++ "'"), [])

/-- Reads what follows an at sign: a directive or the code of a language. -/
def readAt (s : List Char) : Token × List Char :=
  match Chars.stripStart? "prefix".toList s, Chars.stripStart? "base".toList s with
  | some rest, _ => (.prefixWord true, rest)
  | _, some rest => (.baseWord true, rest)
  | none, none =>
    match readLanguage s with
    | .ok (code, rest) => (.language code, rest)
    | .error _ => (.bad "unrecognized directive", [])

/-- Reads the token that a character begins. -/
def readToken (c : Char) (rest : List Char) : Token × List Char :=
  match c with
  | '<' => readIriToken rest
  | '@' => readAt rest
  | '"' => readQuoted '"' rest
  | '\x27' => readQuoted '\x27' rest
  | '[' => (.openBracket, rest)
  | ']' => (.closeBracket, rest)
  | '(' => (.openParen, rest)
  | ')' => (.closeParen, rest)
  | ',' => (.comma, rest)
  | ';' => (.semicolon, rest)
  | '^' =>
    match rest with
    | '^' :: rest => (.carets, rest)
    | _ => (.bad "unexpected character: '^'", [])
  | '_' =>
    match NQuads.readLabel rest with
    | .ok (label, rest) => (.blank label, rest)
    | .error _ => (.bad "bad blank node", [])
  | ':' => readName [] (c :: rest)
  | _ =>
    match readNumber? (c :: rest) with
    | some result => result
    | none =>
      if c = '.' then (.dot, rest)
      else if isLetter c then readWord (c :: rest)
      else (.bad ("unexpected character: '" ++ .ofList (Text.quoteChar c) ++ "'"), [])

/-- The tokens of a text.  Each takes at least one character, so `bound` is their number. -/
def tokensFrom (s : List Char) : Nat → List Token
  | 0 => []
  | bound + 1 =>
    match s.dropWhile fun c => c = ' ' || c = '\t' || c = '\n' || c = '\r' with
    | [] => []
    | '#' :: rest => tokensFrom (rest.dropWhile fun c => c ≠ '\n' && c ≠ '\r') bound
    | c :: rest =>
      match readToken c rest with
      | (.bad problem, _) => [.bad problem]
      | (token, rest) => token :: tokensFrom rest bound

/-- The tokens of a text. -/
def tokenize (text : String) : List Token :=
  tokensFrom text.toList text.length

end RdfMapping.Rdf.Turtle
