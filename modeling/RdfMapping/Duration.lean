/-
# Durations

A span of time in nanoseconds, and how it is written with units.
-/
import RdfMapping.Text.Cut

namespace RdfMapping

/-- A span of time in nanoseconds. -/
structure Duration where
  nanoseconds : Int
deriving DecidableEq, Repr

namespace Duration

/-- A span of milliseconds. -/
def ofMilliseconds (n : Nat) : Duration := ⟨n * 1000000⟩

/-! ## Writing -/

/-- A number divided by a power of ten, without zeros at the end of its fraction. -/
def decimalChars (n places : Nat) : List Char :=
  let digits := (Nat.toDigits 10 (n % Nat.pow 10 places))
  let padded := List.replicate (places - digits.length) '0' ++ digits
  let fraction := (padded.reverse.dropWhile (· = '0')).reverse
  let whole := Nat.toDigits 10 (n / Nat.pow 10 places)
  if places = 0 || fraction.isEmpty then whole else whole ++ '.' :: fraction

/-- A span below a second, in the largest unit that leaves a whole part. -/
def smallChars (n : Nat) : List Char :=
  if n < 1000 then decimalChars n 0 ++ ['n', 's']
  else if n < 1000000 then decimalChars n 3 ++ ['\u00b5', 's']
  else decimalChars n 6 ++ ['m', 's']

/-- A span of a second or more, in hours, minutes and seconds. -/
def largeChars (n : Nat) : List Char :=
  let minutes := n / 60000000000
  (if minutes < 60 then [] else Nat.toDigits 10 (minutes / 60) ++ ['h']) ++
    (if minutes = 0 then [] else Nat.toDigits 10 (minutes % 60) ++ ['m']) ++
    decimalChars (n % 60000000000) 9 ++ ['s']

/-- The text of a span. -/
def render (d : Duration) : String :=
  let n := d.nanoseconds.natAbs
  let chars :=
    if n = 0 then ['0', 's'] else if n < 1000000000 then smallChars n else largeChars n
  .ofList (if d.nanoseconds < 0 then '-' :: chars else chars)

/-! ## Reading -/

/-- The units and their lengths in nanoseconds. -/
def units : List (String × Nat) :=
  [("ns", 1), ("us", 1000), ("\u00b5s", 1000), ("\u03bcs", 1000), ("ms", 1000000),
    ("s", 1000000000), ("m", 60000000000), ("h", 3600000000000)]

/-- The longest span, in nanoseconds. -/
def limit : Nat := Nat.pow 2 63

/-- The number that digits stand for. -/
def numberOf (digits : List Char) : Nat :=
  digits.foldl (fun n c => n * 10 + (c.toNat - '0'.toNat)) 0

/-- The nanoseconds of amounts with units; `bound` is the number of characters. -/
def amounts? (total : Nat) (s : List Char) : Nat → Option Nat
  | 0 => none
  | bound + 1 =>
    let whole := s.takeWhile Char.isDigit
    let (fraction, pointed, s) := match s.drop whole.length with
      | '.' :: rest => (rest.takeWhile Char.isDigit, true, rest.dropWhile Char.isDigit)
      | rest => ([], false, rest)
    let name := s.takeWhile fun c => c ≠ '.' && !c.isDigit
    let rest := s.drop name.length
    if whole.isEmpty && fraction.isEmpty then none
    else match units.lookup (String.ofList name) with
      | none => none
      | some unit =>
        let total := total + numberOf whole * unit +
          (if pointed then numberOf fraction * unit / Nat.pow 10 fraction.length else 0)
        if total > limit then none
        else if rest.isEmpty then some total
        else amounts? total rest bound

/-- The span that a text stands for. -/
def parse? (text : String) : Option Duration :=
  let (negative, s) := match text.toList with
    | '-' :: rest => (true, rest)
    | '+' :: rest => (false, rest)
    | s => (false, s)
  if s = ['0'] then some ⟨0⟩
  else do
    let n ← amounts? 0 s s.length
    if negative then some ⟨-n⟩
    else if n < limit then some ⟨n⟩
    else none

end Duration

end RdfMapping
