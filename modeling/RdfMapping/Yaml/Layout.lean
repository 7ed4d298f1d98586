/-
# Layouts

How a document is laid out as text: collections are written on one line between brackets or
with a line for each element, indented by a unit.
-/
import RdfMapping.Yaml.Node
import RdfMapping.Yaml.PlainScalar
import RdfMapping.Yaml.ScalarStyle

namespace RdfMapping.Yaml

mutual

/-- A document with the styles of its parts. -/
inductive Layout where
  /-- A scalar and the style wished for. -/
  | scalar (wish : Style) (text : String)
  /-- A list, on one line if it flows. -/
  | list (flow : Bool) (items : List Layout)
  /-- A list of keys and values, on one line if it flows. -/
  | table (flow : Bool) (rows : List Row)

/-- A key and its value. -/
structure Row where
  key : Layout
  value : Layout

end

/-! ## One line -/

/-- A key between brackets is written before its value on the same line if it is short. -/
def isSimpleKey : Layout → Bool
  | .scalar _ text => !(Traits.of text).breaks && text.utf8ByteSize ≤ 128
  | .list _ items => items.isEmpty
  | .table _ rows => rows.isEmpty

/-- The text of a scalar in its site. -/
def scalarChars (unit indent : Nat) (site : Site) (wish : Style) (text : String) : List Char :=
  writeScalar unit indent (chooseStyle site wish text) text

mutual

/-- A layout on one line. -/
def flowChars (asKey : Bool) : Layout → List Char
  | .scalar wish text => scalarChars 0 0 { inFlow := true, asKey } wish text
  | .list _ items => '[' :: flowItems items ++ [']']
  | .table _ rows => '{' :: flowRows rows ++ ['}']

/-- The elements of a list on one line. -/
def flowItems : List Layout → List Char
  | [] => []
  | [item] => flowChars false item
  | item :: rest => flowChars false item ++ ',' :: ' ' :: flowItems rest

/-- The keys and values of a table on one line. -/
def flowRows : List Row → List Char
  | [] => []
  | [row] => flowRow row
  | row :: rest => flowRow row ++ ',' :: ' ' :: flowRows rest

/-- A key and its value on one line. -/
def flowRow : Row → List Char
  | ⟨key, value⟩ =>
    (if isSimpleKey key then flowChars true key ++ [':']
      else '?' :: ' ' :: flowChars false key ++ [' ', ':']) ++ ' ' :: flowChars false value

end

/-! ## Lines -/

/-- Begins a new line with an indentation, unless the text ends with a line break already. -/
def newLine (indent : Nat) (text : List Char) : List Char :=
  match text.getLast? with
  | some c => (if isBreak c then text else text ++ ['\n']) ++ spaces indent
  | none => spaces indent

/-- The next indentation that is a multiple of the unit. -/
def deeper (unit indent : Nat) : Nat :=
  unit * ((indent + unit) / unit)

/-- What a text is put after. -/
inductive Lead where
  /-- A key with a colon: lines that follow are on their own. -/
  | colon
  /-- A mark that also indents: the first line follows it. -/
  | mark

/-- Puts the lines of a block after a text that ends at a column. -/
def leadIn (lead : Lead) (column indent : Nat) (block : List Char) : List Char :=
  match lead with
  | .colon => '\n' :: spaces indent ++ block
  | .mark => spaces (indent - column) ++ block

/-- A simple key. -/
def keyChars (unit indent : Nat) : Layout → List Char
  | .scalar wish text => scalarChars unit indent { asKey := true } wish text
  | .list _ _ => ['[', ']']
  | .table _ _ => ['{', '}']

mutual

/-- A layout after a lead that ends at a column.  Lines inside it are indented by `indent`. -/
def blockCharsAfter (unit : Nat) (lead : Lead) (column indent : Nat) : Layout → List Char
  | .scalar wish text =>
    let chars := scalarChars unit indent {} wish text
    if chars.isEmpty then [] else ' ' :: chars
  | .list flow items =>
    if flow || items.isEmpty then ' ' :: '[' :: flowItems items ++ [']']
    else leadIn lead column indent (blockItems unit indent items)
  | .table flow rows =>
    if flow || rows.isEmpty then ' ' :: '{' :: flowRows rows ++ ['}']
    else leadIn lead column indent (blockRows unit indent rows)

/-- The elements of a list, each on lines of its own. -/
def blockItems (unit indent : Nat) : List Layout → List Char
  | [] => []
  | [item] => '-' :: blockCharsAfter unit .mark (indent + 1) (indent + 2) item
  | item :: rest =>
    newLine indent ('-' :: blockCharsAfter unit .mark (indent + 1) (indent + 2) item) ++
      blockItems unit indent rest

/-- The keys and values of a table, each on lines of its own. -/
def blockRows (unit indent : Nat) : List Row → List Char
  | [] => []
  | [row] => blockRow unit indent row
  | row :: rest => newLine indent (blockRow unit indent row) ++ blockRows unit indent rest

/-- A key and its value.  A key that is not simple is written after a mark of its own. -/
def blockRow (unit indent : Nat) : Row → List Char
  | ⟨key, value⟩ =>
    let below := deeper unit indent
    if isSimpleKey key then
      keyChars unit below key ++ ':' :: blockCharsAfter unit .colon 0 below value
    else
      newLine indent ('?' :: blockCharsAfter unit .mark (indent + 1) below key) ++
        ':' :: blockCharsAfter unit .mark (indent + 1) below value

end

namespace Layout

/-- The text of a document whose lines are indented by multiples of a unit. -/
def render (unit : Nat) (doc : Layout) : String :=
  let chars := match doc with
    | .scalar wish text => scalarChars unit unit {} wish text
    | .list flow items =>
      if flow || items.isEmpty then flowChars false (.list flow items)
      else blockItems unit 0 items
    | .table flow rows =>
      if flow || rows.isEmpty then flowChars false (.table flow rows)
      else blockRows unit 0 rows
  .ofList (newLine 0 chars)

/-- The style for a text: a block if it has lines, and quotes if it needs them. -/
def textStyle (text : String) : Style :=
  if Text.hasChar '\n' text then .literal
  else if PlainSort.of text = .text then .plain
  else .double

end Layout

mutual

/-- The layout of a tree whose scalars are texts. -/
def Node.layout : Node → Layout
  | .scalar _ text _ => .scalar (Layout.textStyle text) text
  | .sequence _ flow items => .list flow (layoutsOf items)
  | .mapping _ flow entries => .table flow (rowsOf entries)
  | .document _ (content :: _) => content.layout
  | .document _ [] => .scalar .plain ""
  | .aliasTo _ _ anchored => anchored.layout
  | .blank _ => .scalar .plain ""

/-- The layouts of the elements of a sequence. -/
def layoutsOf : List Node → List Layout
  | [] => []
  | n :: rest => n.layout :: layoutsOf rest

/-- The rows of the entries of a mapping. -/
def rowsOf : List Entry → List Row
  | [] => []
  | ⟨key, value⟩ :: rest => ⟨key.layout, value.layout⟩ :: rowsOf rest

end

end RdfMapping.Yaml
