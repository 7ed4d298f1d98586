/-
# JSON values

Values as they are read from and written to JSON texts.  The fields of an object are a list;
of several fields with one name the last counts.
-/
import RdfMapping.Text.Quoted

namespace RdfMapping

/-- A number as a decimal: its digits times a power of ten. -/
structure Decimal where
  negative : Bool
  digits : Nat
  exponent : Int
deriving DecidableEq, Repr

/-- A JSON value. -/
inductive Json where
  | null
  | boolean (value : Bool)
  | number (value : Decimal)
  | text (value : String)
  | list (items : List Json)
  | object (fields : List (String × Json))

namespace Json

instance : Inhabited Json := ⟨null⟩

/-! ## Fields -/

/-- The fields of an object; other values have none. -/
def fields : Json → List (String × Json)
  | object fields => fields
  | _ => []

/-- The value of a field. -/
def get? (j : Json) (name : String) : Option Json :=
  j.fields.reverse.lookup name

/-- The elements of a list; any other value is its only element. -/
def items : Json → List Json
  | list items => items
  | j => [j]

/-- The text of a text. -/
def text? : Json → Option String
  | text value => some value
  | _ => none

/-- Whether a value is null. -/
def isNull : Json → Bool
  | null => true
  | _ => false

/-! ## Order -/

/-- The order of names by code points. -/
def nameLe (a b : String) : Bool := !decide (b < a)

/-- Fields in the order of their names. -/
def sortedFields {α : Type} (fields : List (String × α)) : List (String × α) :=
  fields.mergeSort fun a b => nameLe a.1 b.1

/-! ## Writing -/

/-- A character of a text.  Signs of markup are escaped, too. -/
def quoteChar (c : Char) : List Char :=
  if c = '"' || c = '\\' then ['\\', c]
  else match [('\x08', 'b'), ('\x0c', 'f'), ('\n', 'n'), ('\r', 'r'), ('\t', 't')].lookup c with
    | some letter => ['\\', letter]
    | none =>
      if c < ' ' || c = '<' || c = '>' || c = '&' || c = '\u2028' || c = '\u2029' then
        '\\' :: 'u' :: Text.hex 4 c.toNat
      else [c]

/-- A text between quotes. -/
def quoteText (s : String) : List Char :=
  '"' :: s.toList.flatMap quoteChar ++ ['"']

/-- A new line with an indentation. -/
def lineStart (indent : Nat) : List Char :=
  '\n' :: List.replicate indent ' '

/-- A number. -/
def numberChars (d : Decimal) : List Char :=
  (if d.negative then ['-'] else []) ++ Nat.toDigits 10 d.digits ++
    (if d.exponent = 0 then [] else 'e' :: (toString d.exponent).toList)

mutual

/-- A value whose lines are indented. -/
def renderChars (indent : Nat) : Json → List Char
  | null => "null".toList
  | boolean value => (if value then "true" else "false").toList
  | number value => numberChars value
  | text value => quoteText value
  | list [] => ['[', ']']
  | list (item :: rest) =>
    '[' :: lineStart (indent + 2) ++ renderChars (indent + 2) item ++ renderItems indent rest
  | object [] => ['{', '}']
  | object ((name, value) :: rest) =>
    '{' :: lineStart (indent + 2) ++ quoteText name ++ ':' :: ' ' ::
      renderChars (indent + 2) value ++ renderFields indent rest

/-- The further elements of a list and its end. -/
def renderItems (indent : Nat) : List Json → List Char
  | [] => lineStart indent ++ [']']
  | item :: rest =>
    ',' :: lineStart (indent + 2) ++ renderChars (indent + 2) item ++ renderItems indent rest

/-- The further fields of an object and its end. -/
def renderFields (indent : Nat) : List (String × Json) → List Char
  | [] => lineStart indent ++ ['}']
  | (name, value) :: rest =>
    ',' :: lineStart (indent + 2) ++ quoteText name ++ ':' :: ' ' ::
      renderChars (indent + 2) value ++ renderFields indent rest

end

/-- The text of a value on lines, the last of which is ended. -/
def render (j : Json) : String :=
  .ofList (renderChars 0 j ++ ['\n'])

end Json

end RdfMapping
