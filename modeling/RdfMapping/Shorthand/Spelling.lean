/-
# Spellings

How IRIs, templates and terms may be spelled in shorthand.  IRIs are abbreviated with the
prefixes of the document and then with those of a fallback table, whose labels are declared
when they are used.
-/
import RdfMapping.Iri.Contraction
import RdfMapping.Shorthand.Term

namespace RdfMapping.Shorthand

open Iri (PrefixTable Compact)
open Mapping
open RuleGraph (rdfType)

/-! ## Writing -/

/-- Why something has no spelling. -/
inductive Obstacle where
  /-- A term map has no value. -/
  | noValue
  /-- No spelling of a term map reads back as it. -/
  | unwritableTerm (position : Position) (description : String)
  /-- No spelling of a predicate-object map reads back as it. -/
  | unwritablePair
  /-- The predicate-object map with a number has no spelling. -/
  | atPair (number : Nat) (cause : Obstacle)
deriving DecidableEq, Repr

/-- The wording of an obstacle. -/
def Obstacle.message : Obstacle → String
  | noValue => "term map has no value"
  | unwritableTerm position description =>
    position.name ++ " term map " ++ description ++ " cannot be written as shorthand"
  | unwritablePair => "predicate-object map cannot be written as shorthand"
  | atPair number cause => "po[" ++ toString number ++ "]: " ++ cause.message

/-- Writing with the prefixes declared so far; what was declared stays so. -/
abbrev Writing (α : Type) := ExceptT Obstacle (StateM PrefixTable) α

/-- What spellings depend on: a base, prefixes, and prefixes to fall back on. -/
structure Style where
  base : String
  own : PrefixTable
  fallback : PrefixTable

namespace Style

/-- The meaning of names once some prefixes are declared. -/
def scope (s : Style) (declared : PrefixTable) : Scope :=
  ⟨PrefixTable.builtin.merge declared, s.base⟩

/-- Takes a spelling with a label of the fallback table, unless the label is taken. -/
def declare? (s : Style) (c : Compact) : Writing (Option String) := do
  let declared ← get
  match s.fallback.lookup? c.label with
  | none => return none
  | some ns =>
    match (s.scope declared).table.lookup? c.label with
    | none => do
      set (declared.set c.label ns)
      return some c.text
    | some bound => return if bound = ns then some c.text else none

/-- Takes a spelling with the fallback table, if there is one. -/
def borrow? (s : Style) : Option Compact → Writing (Option String)
  | some c => s.declare? c
  | none => return none

/-- The spelling of an IRI.  One that would be read as another is put in brackets. -/
def iriText (s : Style) (iri : String) : Writing String := do
  match s.own.contract? iri with
  | some c => return c.text
  | none =>
    match ← s.borrow? (s.fallback.contract? iri) with
    | some text => return text
    | none =>
      match (s.scope (← get)).resolve iri with
      | .ok read => return if read = iri then iri else "<" ++ iri ++ ">"
      | .error _ => return "<" ++ iri ++ ">"

/-- The abbreviated spelling of an IRI template. -/
def templateText? (s : Style) (pattern : String) : Writing (Option String) :=
  match s.own.contractTemplate? pattern with
  | some c => return some c.text
  | none => s.borrow? (s.fallback.contractTemplate? pattern)

/-! ## Candidates -/

/-- The scalars that may stand for a constant. -/
def constantCandidates (s : Style) (site : Site) (term : Constant) : Writing (List String) :=
  match term.kind with
  | .iri =>
    if site.position = .predicate && term.value = rdfType then return ["a"]
    else do
      let text ← s.iriText term.value
      return [if site.prefersLiteral then text ++ "~iri" else text]
  | .blankNode => return [term.value ++ "~blanknode"]
  | .literal =>
    if term.datatype ≠ "" || term.language ≠ "" || !site.prefersLiteral then return []
    else return [if Text.startsWith "$" term.value then "\\" ++ term.value else term.value]

/-- The suffix that states the kind of the terms of a term map, if it is not implied. -/
def typeSuffix (site : Site) (tm : TermMap) : String :=
  if tm.termType = impliedTermType site tm then "" else "~" ++ tm.termType.name

/-- The scalars that may stand for a term map, the most usual first. -/
def candidates (s : Style) (site : Site) (tm : TermMap) : Writing (List String) :=
  if tm.isTagged then return []
  else
    let suffix := typeSuffix site tm
    match tm.value with
    | some (.constant term) => s.constantCandidates site term
    | some (.reference name) => return ["$" ++ name ++ suffix, "$(" ++ name ++ ")" ++ suffix]
    | some (.template pattern) => do
      let short ← if tm.termType = .iri then s.templateText? pattern else pure none
      return (short.toList ++ [pattern]).map (· ++ suffix)
    | _ => return []

end Style

end RdfMapping.Shorthand
