/-
# Numbers as literals

Numbers are kept in double precision.  A whole number is written with all its digits, any other
in scientific form with up to sixteen digits.
-/
import RdfMapping.Json.Basic

namespace RdfMapping.Rdf.JsonLd

/-- A fraction rounded to a whole number; a half goes to the even neighbour. -/
def roundDiv (num den : Nat) : Nat :=
  let q := num / den
  let r := num % den
  if 2 * r < den then q else if den < 2 * r then q + 1 else if q % 2 = 0 then q else q + 1

/-- A fraction times a power of a base, as a fraction. -/
def scale (base : Nat) (num den : Nat) (exponent : Int) : Nat × Nat :=
  if exponent < 0 then (num, den * Nat.pow base (-exponent).toNat)
  else (num * Nat.pow base exponent.toNat, den)

/-- The double that is nearest to a fraction, as a number of 53 bits and an exponent of two. -/
def nearestDouble (num den : Nat) : Nat × Int :=
  if num = 0 then (0, 0)
  else
    let guess : Int := (Nat.log2 num : Int) - Nat.log2 den - 52
    let (n, d) := scale 2 num den (-guess)
    let e := max (if n / d < Nat.pow 2 52 then guess - 1 else guess) (-1074)
    let (n, d) := scale 2 num den (-e)
    (roundDiv n d, e)

/-- The exponent of the first digit of a fraction. -/
def leadingExponent (num den : Nat) : Int :=
  let digits (n : Nat) : Int := (Nat.toDigits 10 n).length
  let guess := digits num - digits den
  let (n, d) := scale 10 num den (-guess)
  if n < d then guess - 1 else guess

/-- Sixteen digits of a fraction and the exponent of the first of them. -/
def sixteenDigits (num den : Nat) : List Char × Int :=
  let k := leadingExponent num den
  let (n, d) := scale 10 num den (15 - k)
  let rounded := roundDiv n d
  if rounded < Nat.pow 10 16 then (Nat.toDigits 10 rounded, k)
  else (Nat.toDigits 10 (rounded / 10), k + 1)

/-- A fraction in scientific form. -/
def scientific (num den : Nat) : List Char :=
  if num = 0 then "0.0E0".toList
  else
    let (digits, k) := sixteenDigits num den
    let fraction := (digits.drop 1).reverse.dropWhile (· = '0') |>.reverse
    digits.take 1 ++ '.' :: (if fraction.isEmpty then ['0'] else fraction) ++
      'E' :: (toString k).toList

/-- The text of a number and its datatype; whole numbers may be asked for in scientific form. -/
def numberLiteral (d : Decimal) (asDouble : Bool) : String × String :=
  let (num, den) := scale 10 d.digits 1 d.exponent
  let (m, e) := nearestDouble num den
  let (num, den) := scale 2 m 1 e
  let sign := if d.negative then ['-'] else []
  if asDouble || num % den ≠ 0 || Nat.pow 10 21 ≤ num / den then
    (.ofList (sign ++ scientific num den), "http://www.w3.org/2001/XMLSchema#double")
  else
    (.ofList ((if num = 0 then [] else sign) ++ Nat.toDigits 10 (num / den)),
      "http://www.w3.org/2001/XMLSchema#integer")

end RdfMapping.Rdf.JsonLd
