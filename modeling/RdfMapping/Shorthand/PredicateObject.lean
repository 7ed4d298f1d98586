/-
# Predicates and objects in shorthand

The predicates and objects of a mapping are written as a mapping of predicate to objects, or
as a list whose entries are lists, mappings with the keys `p` and `o`, or again mappings of
predicate to objects.
-/
import RdfMapping.Shorthand.Term

namespace RdfMapping.Shorthand

open Mapping
open RuleGraph (rdfType)
open Yaml (Node Entry)

/-! ## Lists of terms -/

/-- Reads graphs; those that cannot be read are left out. -/
def readGraphs (scope : Scope) (n : Node) (place : Place) : Noted (List TermMap) :=
  Logged.those (n.items.mapIdx fun i g => readTerm scope { position := .graph } g (place.item i))

/-- Reads predicates, of which there is at least one. -/
def readPredicates (scope : Scope) (ns : List Node) (place : Place) : Reading (List TermMap) := do
  Attempt.nonempty (← Attempt.all (ns.map fun n =>
    readTerm scope { position := .predicate } n place))

/-- Whether one of the predicates is the class property. -/
def statesType (predicates : List TermMap) : Bool :=
  predicates.any fun tm =>
    match tm.value with
    | some (.constant term) => term.value == rdfType
    | _ => false

/-- A datatype or a language beside an object. -/
structure Tagging where
  datatype : String := ""
  language : String := ""
deriving DecidableEq, Repr

/-- Reads a tag: a language has the suffix `~lang`, and all else is a datatype. -/
def Tagging.ofText (text : String) : Tagging :=
  match Text.stripEnd? "~lang" text with
  | some language => { language }
  | none => { datatype := text }

/-- Puts a tag on a draft that has none. -/
def readTag (tag : Tagging) (d : Draft) (n : Node) (place : Place) : Reading Draft :=
  if tag = {} then pure d
  else if d.isTagged then refuse .taggedTwice (some n) place
  else pure { d with datatype := tag.datatype, language := tag.language }

/-- Reads an object with a tag beside it. -/
def readObject (scope : Scope) (site : Site) (tag : Tagging) (n : Node) (place : Place) :
    Reading TermMap := do
  let d ← readDraft scope site n place
  let d ← readTag tag d n place
  readCompletion scope site d n place

/-- Reads the objects of some predicates; there is at least one. -/
def readObjects (scope : Scope) (predicates : List TermMap) (tag : Tagging) (ns : List Node)
    (place : Place) : Reading (List TermMap) := do
  let site : Site := { position := .object, ofType := statesType predicates }
  Attempt.nonempty (← Attempt.all (ns.map fun n => readObject scope site tag n place))

/-! ## Entries -/

/-- Reads an entry `predicate: objects`. -/
def readPair (scope : Scope) (e : Entry) (place : Place) : Reading PredicateObjectMap := do
  let predicates ← readPredicates scope [e.key] place
  let objects ← readObjects scope predicates {} e.value.items place
  return { span := e.key.span, predicates, objects }

/-- Reads a mapping of predicate to objects. -/
def readPairs (scope : Scope) (n : Node) (place : Place) : Noted (List PredicateObjectMap) :=
  Logged.those (n.entries.map fun e => readPair scope e (place.sub e.key.text))

/-- Reads the tag of a list entry, if it has one. -/
def readTagging (n : Option Node) (place : Place) : Reading Tagging :=
  match n with
  | none => pure {}
  | some n => return .ofText (← readScalar (some n) place)

/-- Reads an entry `[predicates, objects]` or `[predicates, objects, tag]`. -/
def readList (scope : Scope) (n : Node) (place : Place) : Reading PredicateObjectMap :=
  let read (p o : Node) (tag : Option Node) : Reading PredicateObjectMap := do
    let tag ← readTagging tag (place.item 2)
    let predicates ← readPredicates scope p.items (place.item 0)
    let objects ← readObjects scope predicates tag o.items (place.item 1)
    return { span := n.span, predicates, objects }
  match n.items with
  | [p, o] => read p o none
  | [p, o, tag] => read p o (some tag)
  | elems => refuse (.listEntryLength elems.length) (some n) place

/-- The parts of an entry. -/
inductive EntryKey where
  | predicates
  | objects
  | graphs
deriving DecidableEq, Repr

/-- The spellings of the parts of an entry. -/
def entryKeys : Keyring EntryKey where
  spellings :=
    [("g", .graphs), ("graph", .graphs), ("graphs", .graphs), ("o", .objects),
      ("objects", .objects), ("p", .predicates), ("predicates", .predicates)]
  name
    | .predicates => "p"
    | .objects => "o"
    | .graphs => "graph"

/-- Reads an entry that names its parts. -/
def readParts (scope : Scope) (n : Node) (place : Place) : Reading PredicateObjectMap := do
  let keys ← readKeys entryKeys n place
  match keys.value? .predicates, keys.value? .objects with
  | some p, some o =>
    let predicates ← readPredicates scope p.items (place.sub "p")
    let objects ← readObjects scope predicates {} o.items (place.sub "o")
    let graphs ← match keys.value? .graphs with
      | some g => (readGraphs scope g (place.sub "graph") : Noted (List TermMap))
      | none => pure []
    return { span := n.span, predicates, objects, graphs }
  | _, _ => refuse .incompleteEntry (some n) place

/-- Whether a mapping names a part of an entry. -/
def namesParts (n : Node) : Bool :=
  n.entries.any fun e => (entryKeys.find? e).isSome

/-- Reads an entry of a list. -/
def readEntry (scope : Scope) (n : Node) (place : Place) : Noted (List PredicateObjectMap) :=
  if n.isSequence then Logged.those [readList scope n place]
  else if n.isMapping then
    if namesParts n then Logged.those [readParts scope n place] else readPairs scope n place
  else do
    note (.wrongForm .predicateObjectEntry n.kindName) (some n) place
    return []

/-- Reads the predicates and objects of a mapping. -/
def readPredicateObjects (scope : Scope) (n : Node) (place : Place) :
    Noted (List PredicateObjectMap) :=
  if n.isNull then pure []
  else if n.isMapping then readPairs scope n place
  else if n.isSequence then do
    let entries ← Logged.each (n.items.mapIdx fun i e => readEntry scope e (place.item i))
    return entries.flatten
  else do
    note (.wrongForm .predicateObjects n.kindName) (some n) place
    return []

end RdfMapping.Shorthand
