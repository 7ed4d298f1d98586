/-
# Reading JSON

A value holds fewer characters than the text, so their number bounds the depth of the reading.
-/
import RdfMapping.Json.Basic

namespace RdfMapping.Json

/-- Skips white space. -/
def skipSpace (s : List Char) : List Char :=
  s.dropWhile fun c => c = ' ' || c = '\t' || c = '\n' || c = '\r'

/-! ## Texts -/

/-- The value of four hexadecimal digits, and what follows. -/
def hex4? : List Char → Option (Nat × List Char)
  | a :: b :: c :: d :: rest => do
    let digit (c : Char) : Option Nat :=
      if c.isDigit then some (c.toNat - '0'.toNat)
      else if 'a' ≤ c && c ≤ 'f' then some (c.toNat - 'a'.toNat + 10)
      else if 'A' ≤ c && c ≤ 'F' then some (c.toNat - 'A'.toNat + 10)
      else none
    return (((← digit a) * 16 + (← digit b)) * 16 + (← digit c)) * 16 + (← digit d) |> (·, rest)
  | _ => none

/-- The character of a code, if it is one. -/
def charOf (code : Nat) : Char :=
  if Nat.isValidChar code then Char.ofNat code else '\ufffd'

/-- Reads a code after its sign; two halves of a pair make one character. -/
def readCode? (s : List Char) : Option (Char × List Char) := do
  let (first, rest) ← hex4? s
  let pair := match rest with
    | '\\' :: 'u' :: after =>
      match hex4? after with
      | some (second, after) =>
        if 0xd800 ≤ first && first < 0xdc00 && 0xdc00 ≤ second && second < 0xe000 then
          some (charOf (0x10000 + (first - 0xd800) * 0x400 + (second - 0xdc00)), after)
        else none
      | none => none
    | _ => none
  return pair.getD (charOf first, rest)

/-- What a letter after a backslash stands for. -/
def escapes : List (Char × Char) :=
  [('"', '"'), ('\\', '\\'), ('/', '/'), ('b', '\x08'), ('f', '\x0c'), ('n', '\n'), ('r', '\r'),
    ('t', '\t')]

/-- Reads a text after its quote. -/
def readText? (text : List Char) (s : List Char) : Nat → Option (String × List Char)
  | 0 => none
  | bound + 1 =>
    match s with
    | [] => none
    | '"' :: rest => some (.ofList text.reverse, rest)
    | '\\' :: 'u' :: rest => do
      let (c, rest) ← readCode? rest
      readText? (c :: text) rest bound
    | '\\' :: letter :: rest => do
      readText? ((← escapes.lookup letter) :: text) rest bound
    | c :: rest => if c < ' ' then none else readText? (c :: text) rest bound

/-! ## Numbers -/

/-- The number that digits stand for. -/
def numberOf (digits : List Char) : Nat :=
  digits.foldl (fun n c => n * 10 + (c.toNat - '0'.toNat)) 0

/-- Reads a number. -/
def readNumber? (s : List Char) : Option (Decimal × List Char) :=
  let (negative, s) := match s with
    | '-' :: rest => (true, rest)
    | _ => (false, s)
  let whole := match s with
    | '0' :: _ => ['0']
    | _ => s.takeWhile Char.isDigit
  let s := s.drop whole.length
  let (fraction, pointed, s) := match s with
    | '.' :: rest => (rest.takeWhile Char.isDigit, true, rest.dropWhile Char.isDigit)
    | _ => ([], false, s)
  let (exponent, marked, s) : List Char × Bool × List Char := match s with
    | e :: rest =>
      if e = 'e' || e = 'E' then
        let rest := match rest with
          | '+' :: rest => rest
          | _ => rest
        let sign := match rest with
          | '-' :: _ => ['-']
          | _ => []
        let digits := (rest.drop sign.length).takeWhile Char.isDigit
        (if digits.isEmpty then [] else sign ++ digits, true,
          rest.drop (sign.length + digits.length))
      else ([], false, s)
    | [] => ([], false, s)
  if whole.isEmpty || pointed && fraction.isEmpty || marked && exponent.isEmpty then none
  else
    let shift : Int := match exponent with
      | '-' :: digits => -(numberOf digits : Int)
      | digits => numberOf digits
    some (⟨negative, numberOf (whole ++ fraction), shift - fraction.length⟩, s)

/-! ## Values -/

/-- Reads a word. -/
def readWord? (word : String) (value : Json) (s : List Char) : Option (Json × List Char) :=
  if word.toList.isPrefixOf s then some (value, s.drop word.length) else none

mutual

/-- Reads a value. -/
def readValue? (s : List Char) : Nat → Option (Json × List Char)
  | 0 => none
  | bound + 1 =>
    match skipSpace s with
    | [] => none
    | '"' :: rest => (readText? [] rest rest.length).map fun (s, rest) => (text s, rest)
    | '[' :: rest =>
      match skipSpace rest with
      | ']' :: rest => some (list [], rest)
      | _ => (readItems? rest bound).map fun (items, rest) => (list items, rest)
    | '{' :: rest =>
      match skipSpace rest with
      | '}' :: rest => some (object [], rest)
      | _ => (readFields? rest bound).map fun (fields, rest) => (object fields, rest)
    | 't' :: rest => readWord? "true" (boolean true) ('t' :: rest)
    | 'f' :: rest => readWord? "false" (boolean false) ('f' :: rest)
    | 'n' :: rest => readWord? "null" null ('n' :: rest)
    | s => (readNumber? s).map fun (d, rest) => (number d, rest)

/-- Reads the elements of a list and its end. -/
def readItems? (s : List Char) : Nat → Option (List Json × List Char)
  | 0 => none
  | bound + 1 => do
    let (item, s) ← readValue? s bound
    match skipSpace s with
    | ',' :: rest => do
      let (items, rest) ← readItems? rest bound
      return (item :: items, rest)
    | ']' :: rest => return ([item], rest)
    | _ => none

/-- Reads the fields of an object and its end. -/
def readFields? (s : List Char) : Nat → Option (List (String × Json) × List Char)
  | 0 => none
  | bound + 1 => do
    match skipSpace s with
    | '"' :: rest => do
      let (name, s) ← readText? [] rest rest.length
      match skipSpace s with
      | ':' :: rest => do
        let (value, s) ← readValue? rest bound
        match skipSpace s with
        | ',' :: rest => do
          let (fields, rest) ← readFields? rest bound
          return ((name, value) :: fields, rest)
        | '}' :: rest => return ([(name, value)], rest)
        | _ => none
      | _ => none
    | _ => none

end

/-- The value that begins a text. -/
def read? (text : String) : Option Json :=
  (readValue? text.toList (text.length + 1)).map (·.1)

end RdfMapping.Json
