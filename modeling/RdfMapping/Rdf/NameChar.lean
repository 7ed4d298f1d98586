/-
# Characters of names

The characters that names in RDF texts are made of.
-/

namespace RdfMapping.Rdf

/-- The ranges of letters, besides the plain ones. -/
def letterRanges : List (Char × Char) :=
  [('\u00c0', '\u00d6'), ('\u00d8', '\u00f6'), ('\u00f8', '\u02ff'), ('\u0370', '\u037d'),
    ('\u037f', '\u1fff'), ('\u200c', '\u200d'), ('\u2070', '\u218f'), ('\u2c00', '\u2fef'),
    ('\u3001', '\ud7ff'), ('\uf900', '\ufdcf'), ('\ufdf0', '\ufffd'),
    (Char.ofNat 0x10000, Char.ofNat 0xeffff)]

/-- Whether a character is in one of some ranges. -/
def inRanges (ranges : List (Char × Char)) (c : Char) : Bool :=
  ranges.any fun (low, high) => low ≤ c && c ≤ high

/-- Letters. -/
def isLetter (c : Char) : Bool :=
  c.isAlpha || inRanges letterRanges c

/-- Letters and the underscore. -/
def isWordStart (c : Char) : Bool :=
  isLetter c || c = '_'

/-- The characters inside a name. -/
def isWordChar (c : Char) : Bool :=
  isWordStart c || c = '-' || c.isDigit || c = '\u00b7' ||
    inRanges [('\u0300', '\u036f'), ('\u203f', '\u2040')] c

/-- The characters of a name at the start of a text.  It may hold dots, but not at its end. -/
def dottedName (isChar : Char → Bool) (s : List Char) : List Char :=
  ((s.takeWhile fun c => isChar c || c = '.').reverse.dropWhile (· = '.')).reverse

end RdfMapping.Rdf
