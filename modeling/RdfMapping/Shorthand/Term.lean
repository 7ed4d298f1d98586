/-
# Terms in shorthand

A term is written as a scalar, whose marks show its value class, or as a mapping that names
the class.  Reading goes by a draft: what is written, before names are resolved and the kind
of term is settled.
-/
import RdfMapping.RuleGraph.Vocabulary
import RdfMapping.Shorthand.Parameter

namespace RdfMapping.Shorthand

open Mapping
open RuleGraph (rdfType)
open Yaml (Node Entry)

/-! ## Drafts -/

/-- Where a term stands.  The objects of the class property are IRIs unless marked. -/
structure Site where
  position : Position
  ofType : Bool := false
deriving DecidableEq, Repr

/-- Whether an unmarked constant or template at a site is a literal. -/
def Site.prefersLiteral (site : Site) : Bool :=
  site.position.allowsLiteral && !site.ofType

/-- A term map as written. -/
structure Draft where
  value : Value
  stated : Option TermType := none
  datatype : String := ""
  language : String := ""
  span : Span := {}

/-- Whether a draft has a datatype or a language. -/
def Draft.isTagged (d : Draft) : Bool :=
  d.datatype ≠ "" || d.language ≠ ""

/-- The draft of a scalar. -/
def draftScalar (text : String) : Except Problem Draft :=
  let (body, stated) := splitTermType text
  match inferValue body with
  | .ok value => .ok { value, stated }
  | .error e => .error (.badScalar text e)

/-! ## Completion -/

/-- The kind of term that is meant when none is stated. -/
def impliedTermType (site : Site) (tm : TermMap) : TermType :=
  match tm.value with
  | some (.template _) =>
    if site.prefersLiteral then .literal else defaultTermType site.position tm
  | _ => defaultTermType site.position tm

/-- The kind of a constant: as stated, a literal if tagged, or else what the site prefers. -/
def constantKind (site : Site) (stated : Option TermType) (tagged : Bool) : TermType :=
  match stated with
  | some kind => kind
  | none => if tagged || site.prefersLiteral then .literal else .iri

/-- The value of a constant of a kind.  The predicate `a` is the class property. -/
def Scope.constantValue (scope : Scope) (site : Site) (kind : TermType) (text : String) :
    Except Problem String :=
  match kind with
  | .iri =>
    if site.position = .predicate && text = "a" then .ok rdfType else scope.resolve text
  | .literal | .blankNode => .ok text

/-- The constant term map of a text. -/
def Scope.completeConstant (scope : Scope) (site : Site) (stated : Option TermType)
    (tm : TermMap) (text : String) : Except Problem TermMap := do
  let kind := constantKind site stated tm.isTagged
  let value ← scope.constantValue site kind text
  if kind = .literal then
    return { tm with
      value := some (.constant ⟨.literal, value, tm.datatype, tm.language⟩)
      termType := .literal, datatype := "", language := "" }
  else if tm.isTagged then throw (.taggedConstant kind)
  else return { tm with value := some (.constant ⟨kind, value, "", ""⟩), termType := kind }

/-- The term map of a template, of which only one for IRIs has a name in it. -/
def Scope.completeTemplate (scope : Scope) (site : Site) (stated : Option TermType)
    (tm : TermMap) (pattern : String) : Except Problem TermMap :=
  let termType := stated.getD (impliedTermType site tm)
  if termType = .iri then
    match scope.table.resolveTemplate scope.base pattern with
    | .ok resolved => .ok { tm with value := some (.template resolved), termType }
    | .error e => .error (.undeclaredPrefix e)
  else .ok { tm with termType }

/-- Completes the value of a draft once its datatype is resolved. -/
def Scope.completeValue (scope : Scope) (site : Site) (d : Draft) (datatype : String) :
    Except Problem TermMap :=
  let tm : TermMap := { value := some d.value, datatype, language := d.language, span := d.span }
  match d.value with
  | .constant term => scope.completeConstant site d.stated tm term.value
  | .template pattern => scope.completeTemplate site d.stated tm pattern
  | _ => .ok { tm with termType := d.stated.getD (impliedTermType site tm) }

/-- The term map a draft stands for: names are resolved and the kind of term is settled. -/
def Scope.complete (scope : Scope) (site : Site) (d : Draft) : Except Problem TermMap := do
  scope.completeValue site d (← scope.resolveOptional d.datatype)

/-- Completes a draft read from a node. -/
def readCompletion (scope : Scope) (site : Site) (d : Draft) (n : Node) (place : Place) :
    Reading TermMap :=
  match scope.complete site d with
  | .ok tm => pure tm
  | .error problem => refuse problem (some n) place

/-! ## Mappings that name the value class -/

/-- The parts of a term. -/
inductive TermKey where
  | value
  | constant
  | reference
  | template
  | function
  | mapping
  | parameters
  | condition
  | type
  | datatype
  | language
deriving DecidableEq, Repr

/-- The spellings of the parts of a term. -/
def termKeys : Keyring TermKey where
  spellings :=
    [("condition", .condition), ("conditions", .condition), ("constant", .constant),
      ("datatype", .datatype), ("fn", .function), ("function", .function), ("lang", .language),
      ("language", .language), ("mapping", .mapping), ("parameters", .parameters),
      ("params", .parameters), ("pms", .parameters), ("reference", .reference),
      ("template", .template), ("termtype", .type), ("type", .type), ("value", .value)]
  name
    | .value => "value"
    | .constant => "constant"
    | .reference => "reference"
    | .template => "template"
    | .function => "function"
    | .mapping => "mapping"
    | .parameters => "parameters"
    | .condition => "condition"
    | .type => "type"
    | .datatype => "datatype"
    | .language => "language"

/-- The keys that name a value class. -/
def valueKeys : List TermKey :=
  [.value, .constant, .reference, .template, .function, .mapping]

/-- The text of a part of a term. -/
def readTermPart (keys : Keyed TermKey) (k : TermKey) (place : Place) : Reading String :=
  readScalar (keys.value? k) (place.sub (termKeys.name k))

/-- The text of a part of a term that may be absent. -/
def readOptionalPart (keys : Keyed TermKey) (k : TermKey) (place : Place) : Reading String :=
  if (keys.get? k).isSome then readTermPart keys k place else pure ""

/-- Reads the one value class among the keys. -/
def readValueKey (n : Node) (keys : Keyed TermKey) (place : Place) : Reading TermKey :=
  match valueKeys.filter fun k => (keys.get? k).isSome with
  | [] => refuse (.noValueClass (valueKeys.map termKeys.name)) (some n) place
  | [k] => pure k
  | several => refuse (.severalValueClasses (several.map termKeys.name)) (some n) place

/-- Notes parts that do not go with the value class. -/
def noteStrayParts (keys : Keyed TermKey) (k : TermKey) (place : Place) : Noted Unit := do
  match keys.get? .parameters with
  | some e => if k ≠ .function then note .strayParameters (some e.key) place
  | none => pure ()
  match keys.get? .condition with
  | some e => if k ≠ .mapping then note .strayConditions (some e.key) place
  | none => pure ()

/-- Reads the join conditions of a node; null ones are passed over. -/
def readConditions (n : Option Node) (place : Place) : Noted (List JoinCondition) :=
  match n with
  | none => pure []
  | some n =>
    let numbered := n.items.mapIdx fun i item => (i, item)
    Logged.those ((numbered.filter fun p => !p.2.isNull).map fun p =>
      readCondition p.2 (place.sub ("condition[" ++ toString p.1 ++ "]")))

/-- Reads a reference to another mapping. -/
def readJoin (n : Node) (keys : Keyed TermKey) (site : Site) (place : Place) : Reading Value :=
  if site.position ≠ .object then refuse (.misplacedJoin site.position) (some n) place
  else do
    let parent ← readTermPart keys .mapping place
    let conditions ← readConditions (keys.value? .condition) place
    if conditions.isEmpty then refuse (.noJoinCondition parent) (some n) place
    else return .join parent conditions

/-- Reads a function with its parameters.  `sub` reads the values of the parameters. -/
def readFunction (scope : Scope) (function parameters : Option Node) (place : Place)
    (sub : (m : Node) → (∃ n, parameters = some n ∧ m.size < n.size) → Place → Reading TermMap) :
    Reading Value := do
  let iri ← scope.readIri function (place.sub "function")
  let entries := readParameters parameters place
  (Logged.tell entries.notes : Noted Unit)
  let parameters ← Attempt.all (entries.value.attach.mapIdx fun i ⟨e, he⟩ => do
    let here := place.parameter i
    let (predicate, value) ← Attempt.both (scope.readIri (some e.key) here)
      (sub e.value (size_readParameters_lt he) here)
    return ⟨predicate, value⟩)
  return .function iri parameters

/-- The kind of term stated in a mapping, which must agree with that of a suffix. -/
def readStatedType (keys : Keyed TermKey) (suffix : Option TermType) (place : Place) :
    Reading (Option TermType) :=
  if (keys.get? .type).isSome then do
    let name ← readTermPart keys .type place
    match TermType.ofName? name with
    | none => refuse (.unknownTermType name) (keys.value? .type) place
    | some stated =>
      match suffix with
      | some other =>
        if other ≠ stated then
          refuse (.contradictingType stated other) (keys.value? .type) place
        else return some stated
      | none => return some stated
  else pure suffix

/-- Reads the value of the class with a key, and the kind of term its suffix states. -/
def readValue (scope : Scope) (site : Site) (n : Node) (place : Place) (keys : Keyed TermKey)
    (sub : (m : Node) → (∃ n, keys.value? .parameters = some n ∧ m.size < n.size) → Place →
      Reading TermMap) (k : TermKey) : Reading (Value × Option TermType) :=
  match k with
  | .value => do
    match draftScalar (← readTermPart keys .value place) with
    | .ok d => return (d.value, d.stated)
    | .error problem => refuse problem (keys.value? .value) place
  | .constant => return (.constant (.ofText (← readTermPart keys .constant place)), none)
  | .reference => return (.reference (← readTermPart keys .reference place), none)
  | .template => do
    let pattern ← readTermPart keys .template place
    match Template.parse pattern with
    | .ok _ => return (.template pattern, none)
    | .error e => refuse (.badTemplate e) (keys.value? .template) place
  | .function =>
    return (← readFunction scope (keys.value? .function) (keys.value? .parameters) place sub, none)
  | _ => return (← readJoin n keys site place, none)

/-- The draft of a mapping.  `sub` reads the terms inside it. -/
def draftParts (scope : Scope) (site : Site) (n : Node) (place : Place)
    (sub : (m : Node) → m.size < n.size → Place → Reading TermMap) : Reading Draft := do
  let read := readKeys termKeys n place
  (Logged.tell read.notes : Noted Unit)
  let keys := read.value
  let k ← readValueKey n keys place
  noteStrayParts keys k place
  let (value, suffix) ← readValue scope site n place keys
    (fun m h => sub m (h.elim fun _ hp => Nat.lt_trans hp.2 (size_value?_lt hp.1))) k
  let stated ← readStatedType keys suffix place
  let datatype ← readOptionalPart keys .datatype place
  let language ← readOptionalPart keys .language place
  return { value, stated, datatype, language, span := n.span }

/-! ## Terms -/

/-- The draft of a node.  `sub` reads the terms inside it. -/
def draftNode (scope : Scope) (site : Site) (n : Node) (place : Place)
    (sub : (m : Node) → m.size < n.size → Place → Reading TermMap) : Reading Draft :=
  if n.isNull then refuse (.missingTerm site.position) (some n) place
  else if n.isScalar then
    match draftScalar n.text with
    | .ok d => pure { d with span := n.span }
    | .error problem => refuse problem (some n) place
  else if n.isMapping then draftParts scope site n place sub
  else refuse (.wrongForm (.term site.position) n.kindName) (some n) place

/-- Reads the term map of a node. -/
def readTerm (scope : Scope) (site : Site) (n : Node) (place : Place) : Reading TermMap := do
  let d ← draftNode scope site n place fun m _ => readTerm scope { position := .parameter } m
  readCompletion scope site d n place
termination_by n.size

/-- The draft of a node. -/
def readDraft (scope : Scope) (site : Site) (n : Node) (place : Place) : Reading Draft :=
  draftNode scope site n place fun m _ => readTerm scope { position := .parameter } m

theorem readTerm_eq (scope : Scope) (site : Site) (n : Node) (place : Place) :
    readTerm scope site n place =
      (readDraft scope site n place >>= fun d => readCompletion scope site d n place) := by
  rw [readTerm, readDraft]

end RdfMapping.Shorthand
