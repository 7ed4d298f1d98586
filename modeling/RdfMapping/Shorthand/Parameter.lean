/-
# Parameters and join conditions in shorthand

Parameters are written as a mapping, as a list of pairs or as a list of mappings with the
keys `parameter` and `value`.  A join condition names the two fields directly or as the
parameters of the function `equal`.
-/
import RdfMapping.Shorthand.Inference
import RdfMapping.Shorthand.Key
import RdfMapping.Shorthand.Scalar

namespace RdfMapping.Shorthand

open Mapping (JoinCondition)
open Yaml (Node Entry)

/-! ## Parameters -/

/-- The parts of a parameter. -/
inductive ParameterKey where
  | name
  | value
deriving DecidableEq, Repr

/-- The spellings of the parts of a parameter. -/
def parameterKeys : Keyring ParameterKey where
  spellings := [("o", .value), ("p", .name), ("parameter", .name), ("value", .value)]
  name
    | .name => "parameter"
    | .value => "value"

/-- The name and the value of a parameter. -/
def readParameter (item : Node) (place : Place) : Reading Entry :=
  if item.isSequence then
    match item.items with
    | [name, value] => pure ⟨name, value⟩
    | _ => refuse .badParameter (some item) place
  else if item.isMapping then do
    let keys ← readKeys parameterKeys item place
    match keys.value? .name, keys.value? .value with
    | some name, some value => return ⟨name, value⟩
    | _, _ => refuse .incompleteParameter (some item) place
  else refuse .badParameter (some item) place

/-- The place of a parameter with a number. -/
def Place.parameter (place : Place) (i : Nat) : Place :=
  place.sub ("parameters[" ++ toString i ++ "]")

/-- The names and values of parameters. -/
def readParameters (n : Option Node) (place : Place) : Noted (List Entry) :=
  match n with
  | none => pure []
  | some n =>
    if n.isNull then pure []
    else if n.isMapping then pure n.entries
    else if n.isSequence then
      Logged.those (n.items.mapIdx fun i item => readParameter item (place.parameter i))
    else do
      note (.wrongForm .parameters n.kindName) (some n) (place.sub "parameters")
      return []

theorem size_readParameter_lt {item : Node} {place : Place} {e : Entry}
    (h : (readParameter item place).run.value = some e) : e.value.size < item.size := by
  unfold readParameter at h
  split at h
  · next hs =>
    split at h
    · next name value heq =>
      cases h
      exact Node.size_item_lt hs (by simp [heq])
    · cases h
  · split at h
    · change (Logged.value (OptionT.run (match Keyed.value? _ _, Keyed.value? _ _ with
        | some name, some value => _
        | _, _ => _))) = some e at h
      split at h
      · next hv =>
        cases h
        exact size_value?_lt hv
      · cases h
    · cases h

/-- The value of a parameter is smaller than the node it is read from. -/
theorem size_readParameters_lt {n : Option Node} {place : Place} {e : Entry}
    (h : e ∈ (readParameters n place).value) : ∃ m, n = some m ∧ e.value.size < m.size := by
  unfold readParameters at h
  split at h
  · cases h
  · next m =>
    refine ⟨m, rfl, ?_⟩
    split at h
    · cases h
    · split at h
      · exact Node.size_value_lt h
      · split at h
        · next hs =>
          obtain ⟨x, hx, he⟩ := Logged.mem_those h
          obtain ⟨i, hi, rfl⟩ := List.mem_mapIdx.1 hx
          have h1 := size_readParameter_lt he
          have h2 := Node.size_item_lt hs (List.getElem_mem hi)
          omega
        · cases h

/-! ## Join conditions -/

/-- The parts of a join condition. -/
inductive ConditionKey where
  | child
  | parent
  | function
  | parameters
deriving DecidableEq, Repr

/-- The spellings of the parts of a join condition. -/
def conditionKeys : Keyring ConditionKey where
  spellings :=
    [("child", .child), ("fn", .function), ("function", .function), ("parameters", .parameters),
      ("params", .parameters), ("parent", .parent), ("pms", .parameters)]
  name
    | .child => "child"
    | .parent => "parent"
    | .function => "function"
    | .parameters => "parameters"

/-- The operands of `equal`: `str1` is the field of the child and `str2` that of the parent. -/
def readOperands (place : Place) (condition : JoinCondition) : List Entry → Reading JoinCondition
  | [] => pure condition
  | e :: rest => do
    let here := place.sub "parameters"
    let (name, value) ←
      Attempt.both (readScalar (some e.key) here) (readScalar (some e.value) here)
    if name = "str1" then
      readOperands place { condition with child := referenceName value } rest
    else if name = "str2" then
      readOperands place { condition with parent := referenceName value } rest
    else refuse (.unknownOperand name) (some e.key) place

/-- Reads a join condition written with a function. -/
def readEqual (n : Node) (keys : Keyed ConditionKey) (place : Place) : Reading JoinCondition := do
  let function := keys.value? .function
  let name ← readScalar function (place.sub "function")
  if !Text.endsWith "equal" (Text.lower name) then
    refuse (.notEqualFunction name) function place
  else
    let operands ← readParameters (keys.value? .parameters) place
    let condition ← readOperands place {} operands
    if condition.child = "" || condition.parent = "" then
      refuse .incompleteEqual (some n) place
    else return condition

/-- Reads a join condition. -/
def readCondition (n : Node) (place : Place) : Reading JoinCondition :=
  if !n.isMapping then refuse (.wrongForm .joinCondition n.kindName) (some n) place
  else do
    let keys ← readKeys conditionKeys n place
    if (keys.get? .function).isSome then readEqual n keys place
    else
      let (child, parent) ← Attempt.both
        (readScalar (keys.value? .child) (place.sub "child"))
        (readScalar (keys.value? .parent) (place.sub "parent"))
      return ⟨referenceName child, referenceName parent⟩

end RdfMapping.Shorthand
