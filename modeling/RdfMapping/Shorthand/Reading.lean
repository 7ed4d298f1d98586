/-
# Reading with problems

What is read from a document comes with the problems met on the way to it.
-/
import RdfMapping.Logged
import RdfMapping.Shorthand.Problem
import RdfMapping.Yaml.Node

namespace RdfMapping.Shorthand

open Yaml (Node)

/-! ## Readings -/

/-- A value and the problems met on the way to it. -/
abbrev Noted (α : Type) := Logged Diagnostic α

/-- A value that may be missing, and the problems met on the way to it. -/
abbrev Reading (α : Type) := Attempt Diagnostic α

/-- A value only if no problem was met on the way to it. -/
def flawless {α : Type} (x : Noted α) : Reading α :=
  OptionT.mk ⟨if x.notes.isEmpty then some x.value else none, x.notes⟩

/-! ## Places -/

/-- Where in a document the reading is: in which mapping, and on which path. -/
structure Place where
  mapping : String := ""
  path : String := ""
deriving DecidableEq, Repr

namespace Place

/-- The place of a part: an index follows a path directly, a name after a dot. -/
def sub (p : Place) (part : String) : Place :=
  { p with
    path := if p.path = "" then part
      else if Text.startsWith "[" part then p.path ++ part
      else p.path ++ "." ++ part }

/-- The place of an element with a number. -/
def item (p : Place) (i : Nat) : Place :=
  p.sub ("[" ++ toString i ++ "]")

/-- The location of a node at a place; a node that is absent has no position. -/
def location (p : Place) (n : Option Node) : Location :=
  { span := (n.map Node.span).getD {}, mapping := p.mapping, path := p.path }

end Place

/-! ## Noting problems -/

/-- Notes a problem with a node. -/
def note (p : Problem) (n : Option Node) (place : Place) : Noted Unit :=
  .tell [p.diagnostic (place.location n)]

/-- Notes a problem with a node and gives no value. -/
def refuse {α : Type} (p : Problem) (n : Option Node) (place : Place) : Reading α :=
  .fail [p.diagnostic (place.location n)]

end RdfMapping.Shorthand
