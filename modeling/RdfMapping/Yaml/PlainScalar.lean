/-
# Plain scalars

What a scalar without quotes stands for: the null value, a truth value, a number, a point in
time or a text.
-/
import RdfMapping.Text.Cut

namespace RdfMapping.Yaml

/-- What a plain scalar stands for. -/
inductive PlainSort where
  | null
  | boolean (value : Bool)
  | integer
  | decimal
  | timestamp
  | text
deriving DecidableEq, Repr

/-- The name of the sort in messages. -/
def PlainSort.tag : PlainSort → String
  | null => "!!null"
  | boolean _ => "!!bool"
  | integer => "!!int"
  | decimal => "!!float"
  | timestamp => "!!timestamp"
  | text => "!!str"

/-! ## Digits -/

/-- The value of a digit in a base of up to sixteen. -/
def digitValue? (base : Nat) (c : Char) : Option Nat :=
  let value :=
    if c.isDigit then c.toNat - '0'.toNat
    else if 'a' ≤ c && c ≤ 'f' then c.toNat - 'a'.toNat + 10
    else if 'A' ≤ c && c ≤ 'F' then c.toNat - 'A'.toNat + 10
    else 16
  if value < base then some value else none

/-- The number some digits stand for. -/
def numberOf? (base : Nat) (digits : List Char) : Option Nat :=
  if digits.isEmpty then none
  else digits.foldlM (fun n c => (digitValue? base c).map (n * base + ·)) 0

/-- One or two digits at the start of a text, and what follows. -/
def shortNumber? : List Char → Option (Nat × List Char)
  | c :: d :: rest =>
    if !c.isDigit then none
    else if d.isDigit then (numberOf? 10 [c, d]).map (·, rest)
    else (numberOf? 10 [c]).map (·, d :: rest)
  | [c] => if c.isDigit then (numberOf? 10 [c]).map (·, []) else none
  | [] => none

/-- What follows a character at the start of a text. -/
def expect? (c : Char) : List Char → Option (List Char)
  | d :: rest => if c = d then some rest else none
  | [] => none

/-! ## Points in time -/

/-- The number of days in a month. -/
def daysInMonth (year month : Nat) : Nat :=
  if month = 2 then
    if year % 4 = 0 && (year % 100 ≠ 0 || year % 400 = 0) then 29 else 28
  else if month = 4 || month = 6 || month = 9 || month = 11 then 30
  else 31

/-- What follows a date at the start of a text. -/
def afterDate? (s : List Char) : Option (List Char) := do
  let digits := s.takeWhile Char.isDigit
  if digits.length ≠ 4 then none
  else
    let year ← numberOf? 10 digits
    let (month, s) ← shortNumber? (← expect? '-' (s.drop 4))
    let (day, s) ← shortNumber? (← expect? '-' s)
    if 1 ≤ month && month ≤ 12 && 1 ≤ day && day ≤ daysInMonth year month then some s else none

/-- What follows a fraction of a second at the start of a text. -/
def afterFraction (s : List Char) : List Char :=
  match s with
  | c :: d :: rest =>
    if (c = '.' || c = ',') && d.isDigit then rest.dropWhile Char.isDigit else s
  | _ => s

/-- What follows a time of day at the start of a text. -/
def afterTime? (s : List Char) : Option (List Char) := do
  let (hour, s) ← shortNumber? s
  let (minute, s) ← shortNumber? (← expect? ':' s)
  let (second, s) ← shortNumber? (← expect? ':' s)
  if hour < 24 && minute < 60 && second < 60 then some (afterFraction s) else none

/-- Whether a text is a time zone. -/
def isZone : List Char → Bool
  | ['Z'] => true
  | [sign, a, b, ':', c, d] =>
    (sign = '+' || sign = '-') &&
      match numberOf? 10 [a, b], numberOf? 10 [c, d] with
      | some hours, some minutes => hours ≤ 24 && minutes ≤ 60
      | _, _ => false
  | _ => false

/-- Whether a text is a date, perhaps with a time of day. -/
def isTimestamp (s : List Char) : Bool :=
  match afterDate? s with
  | none => false
  | some [] => true
  | some (c :: rest) =>
    match afterTime? rest with
    | none => false
    | some after =>
      if c = 'T' || c = 't' then isZone after else c = ' ' && after.isEmpty

/-! ## Numbers -/

/-- The base of a number by its first digits, and the digits that follow. -/
def baseOf : List Char → Nat × List Char
  | '0' :: c :: rest =>
    if c = 'x' || c = 'X' then (16, rest)
    else if c = 'b' || c = 'B' then (2, rest)
    else if c = 'o' || c = 'O' then (8, rest)
    else (8, c :: rest)
  | s => (10, s)

/-- Whether digits with the mark of their base make a number below a limit. -/
def isBelow (limit : Nat) (s : List Char) : Bool :=
  let (base, digits) := baseOf s
  match numberOf? base digits with
  | some n => n < limit
  | none => false

/-- Whether a text is an integer of at most 64 bits. -/
def isInteger (s : List Char) : Bool :=
  match s with
  | '-' :: rest => isBelow (Nat.pow 2 63 + 1) rest
  | '+' :: rest => isBelow (Nat.pow 2 63) rest
  | _ => isBelow (Nat.pow 2 64) s

/-- The digits and the exponent of a decimal number without its sign. -/
def decimalParts? (s : List Char) : Option (List Char × Int) := do
  let whole := s.takeWhile Char.isDigit
  let s := s.drop whole.length
  let (part, s) := match s with
    | '.' :: rest => (rest.takeWhile Char.isDigit, rest.dropWhile Char.isDigit)
    | _ => ([], s)
  let digits := whole ++ part
  if digits.isEmpty then none
  else
    let shift : Int := -(part.length : Int)
    match s with
    | [] => some (digits, shift)
    | e :: rest =>
      if e ≠ 'e' && e ≠ 'E' then none
      else match rest with
        | '-' :: ds => (numberOf? 10 ds).map fun n => (digits, shift - n)
        | '+' :: ds => (numberOf? 10 ds).map fun n => (digits, shift + n)
        | ds => (numberOf? 10 ds).map fun n => (digits, shift + n)

/-- Whether a decimal number is in the range of double precision. -/
def isInRange (digits : List Char) (exponent : Int) : Bool :=
  let digits := digits.dropWhile (· = '0')
  let magnitude := digits.length + exponent
  let limit := Nat.pow 2 1024 - Nat.pow 2 970
  if magnitude ≠ 309 then magnitude < 309
  else match numberOf? 10 digits with
    | some n => n * Nat.pow 10 exponent.toNat < limit * Nat.pow 10 (-exponent).toNat
    | none => true

/-- Whether a text is a decimal number. -/
def isDecimal (s : List Char) : Bool :=
  let unsigned := match s with
    | '-' :: rest | '+' :: rest => rest
    | _ => s
  match decimalParts? unsigned with
  | some (digits, exponent) => isInRange digits exponent
  | none => false

/-! ## Sorts -/

/-- The words that stand for the null value, truth values and special numbers. -/
def plainWords : List (String × PlainSort) :=
  ["", "~", "null", "Null", "NULL"].map (·, .null) ++
    ["true", "True", "TRUE"].map (·, .boolean true) ++
    ["false", "False", "FALSE"].map (·, .boolean false) ++
    [".nan", ".NaN", ".NAN", ".inf", ".Inf", ".INF", "+.inf", "+.Inf", "+.INF", "-.inf", "-.Inf",
      "-.INF"].map (·, .decimal)

/-- The sort of a plain scalar. -/
def PlainSort.of (s : String) : PlainSort :=
  match plainWords.lookup s with
  | some sort => sort
  | none =>
    match s.toList with
    | [] => .text
    | c :: rest =>
      if c = '.' then if isDecimal (c :: rest) then .decimal else .text
      else if c.isDigit || c = '-' || c = '+' then
        let plain := (c :: rest).filter (· ≠ '_')
        if isTimestamp (c :: rest) then .timestamp
        else if isInteger plain then .integer
        else if isDecimal plain then .decimal
        else .text
      else .text

end RdfMapping.Yaml
