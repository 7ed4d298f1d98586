/-
# Reading Turtle

The triples of a Turtle text, in the order in which they are written.  A part of a text holds fewer
tokens than the text, so their number bounds the depth of the reading.
-/
import RdfMapping.Rdf.Turtle.Token
import RdfMapping.Rdf.Turtle.Writing

namespace RdfMapping.Rdf.Turtle

/-! ## State -/

/-- What is known while a text is read. -/
structure ReadState where
  tokens : List Token
  prefixes : List (String × String) := []
  base : String := ""
  /-- The number of nodes without a name. -/
  unnamed : Nat := 0
  /-- The triples read so far, from the last. -/
  read : List Quad := []

/-- Reads tokens one by one. -/
abbrev Reading := StateT ReadState (Except String)

/-- The next token, which is skipped. -/
def nextToken? : Reading (Option Token) := do
  match (← get).tokens with
  | [] => return none
  | .bad problem :: _ => throw problem
  | t :: rest =>
    modify fun s => { s with tokens := rest }
    return some t

/-- The next token, which is kept. -/
def peekToken? : Reading (Option Token) :=
  return (← get).tokens.head?

/-- Skips a token if it comes next. -/
def accept (t : Token) : Reading Bool := do
  if (← peekToken?) = some t then
    let _ ← nextToken?
    return true
  else return false

/-- Fails at a token that was not expected. -/
def unexpected {α : Type} (context : String) : Reading α :=
  throw ("unexpected token as " ++ context)

/-- Skips a token that has to come next. -/
def require (t : Token) (context : String) : Reading Unit := do
  if ← accept t then return () else
    let _ ← nextToken?
    unexpected context

/-- Adds a triple. -/
def emit (s p o : Term) : Reading Unit :=
  modify fun state => { state with read := ⟨s, p, o, none⟩ :: state.read }

/-- A new node without a name. -/
def freshNode : Reading Term := do
  modify fun s => { s with unnamed := s.unnamed + 1 }
  return .blank ("b" ++ toString (← get).unnamed)

/-! ## Names -/

/-- Whether an IRI begins with a scheme. -/
def hasScheme (iri : String) : Bool :=
  let isSchemeChar (c : Char) : Bool := c.isAlphanum || c = '+' || c = '-' || c = '.'
  (iri.toList.dropWhile isSchemeChar).head? = some ':'

/-- An IRI, which follows the base if it is relative. -/
def resolveIri (iri : String) : Reading String := do
  let base := (← get).base
  return if hasScheme iri then iri else base ++ iri

/-- The IRI of a name with the label of a prefix. -/
def resolveName (label rest : String) : Reading String := do
  match (← get).prefixes.lookup label with
  | some ns => return ns ++ rest
  | none => throw ("missing namespace for prefix: '" ++ label ++ "'")

/-- Reads an IRI or a name for one. -/
def readIri (context : String) : Reading String := do
  match ← nextToken? with
  | some (.iri text) => resolveIri text
  | some (.name label rest) => resolveName label rest
  | _ => unexpected context

/-! ## Triples -/

/-- The properties and the end of lists. -/
def listTerm (name : String) : Term := .iri (Iri.PrefixTable.rdfNamespace ++ name)

/-- A literal with a datatype, which is not shown for plain texts. -/
def typedLiteral (text type : String) : Term :=
  .literal text
    (if type = "" || type = "http://www.w3.org/2001/XMLSchema#string" then .plain
      else .datatype type)

/-- Reads what follows a quoted text. -/
def readLiteral (text : String) : Reading Term := do
  match ← peekToken? with
  | some (.language code) =>
    let _ ← nextToken?
    return .literal text (.language code)
  | some .carets =>
    let _ ← nextToken?
    return typedLiteral text (← readIri "literal datatype")
  | _ => return .ofText text

/-- Reads a predicate. -/
def readPredicate : Reading Term := do
  if ← accept .typeWord then return .iri typeIri else return .iri (← readIri "predicate")

mutual

/-- Reads an object of a subject and a predicate, and adds the triple. -/
def readObject (s p : Term) : Nat → Reading Unit
  | 0 => unexpected "object"
  | bound + 1 => do
    match ← nextToken? with
    | some (.iri text) => emit s p (.iri (← resolveIri text))
    | some (.name label rest) => emit s p (.iri (← resolveName label rest))
    | some (.blank label) => emit s p (.blank label)
    | some (.quoted text) => emit s p (← readLiteral text)
    | some (.bare text type) => emit s p (typedLiteral text type)
    | some .openBracket =>
      let node ← freshNode
      emit s p node
      if ← accept .closeBracket then return ()
      else
        readBranches node bound
        require .closeBracket "property list"
    | some .openParen =>
      if ← accept .closeParen then emit s p (listTerm "nil")
      else
        let node ← freshNode
        emit s p node
        readItems node bound
    | _ => unexpected "object"

/-- Reads the objects of a subject and a predicate. -/
def readObjects (s p : Term) : Nat → Reading Unit
  | 0 => unexpected "object"
  | bound + 1 => do
    readObject s p bound
    if ← accept .comma then readObjects s p bound

/-- Reads the predicates and objects of a subject. -/
def readBranches (s : Term) : Nat → Reading Unit
  | 0 => unexpected "predicate"
  | bound + 1 => do
    let p ← readPredicate
    readObjects s p bound
    if ← accept .semicolon then
      skipSemicolons bound
      match ← peekToken? with
      | some .dot | some .closeBracket => return ()
      | _ => readBranches s bound

/-- Skips semicolons. -/
def skipSemicolons : Nat → Reading Unit
  | 0 => return ()
  | bound + 1 => do
    if ← accept .semicolon then skipSemicolons bound

/-- Reads the rest of a list, which begins with a node of its own. -/
def readItems (node : Term) : Nat → Reading Unit
  | 0 => unexpected "collection"
  | bound + 1 => do
    readObject node (listTerm "first") bound
    if ← accept .closeParen then emit node (listTerm "rest") (listTerm "nil")
    else
      let next ← freshNode
      emit node (listTerm "rest") next
      readItems next bound

end

/-- Reads a subject, and whether it may stand alone. -/
def readSubject (bound : Nat) : Reading (Term × Bool) := do
  match ← nextToken? with
  | some (.iri text) => return (.iri (← resolveIri text), false)
  | some (.name label rest) => return (.iri (← resolveName label rest), false)
  | some (.blank label) => return (.blank label, false)
  | some .openBracket =>
    let node ← freshNode
    if ← accept .closeBracket then return (node, false)
    else
      readBranches node bound
      require .closeBracket "property list"
      return (node, true)
  | some .openParen =>
    if ← accept .closeParen then return (listTerm "nil", false)
    else
      let node ← freshNode
      readItems node bound
      return (node, false)
  | _ => unexpected "subject"

/-- Reads a declaration or the triples of a subject. -/
def readStatement (bound : Nat) : Reading Unit := do
  match ← peekToken? with
  | some (.prefixWord dotted) =>
    let _ ← nextToken?
    match ← nextToken? with
    | some (.name label "") =>
      match ← nextToken? with
      | some (.iri text) =>
        let ns ← resolveIri text
        if dotted then require .dot "directive trailing dot"
        modify fun s => { s with prefixes := (label, ns) :: s.prefixes }
      | _ => unexpected "prefix IRI"
    | _ => unexpected "prefix label"
  | some (.baseWord dotted) =>
    let _ ← nextToken?
    match ← nextToken? with
    | some (.iri text) =>
      let base ← resolveIri text
      if dotted then require .dot "directive trailing dot"
      modify fun s => { s with base }
    | _ => unexpected "base IRI"
  | _ =>
    let (subject, alone) ← readSubject bound
    if alone && (← accept .dot) then return ()
    else
      readBranches subject bound
      require .dot "triple termination"

/-- Reads all statements. -/
def readStatements (bound : Nat) : Nat → Reading Unit
  | 0 => return ()
  | n + 1 => do
    match ← peekToken? with
    | none => return ()
    | some _ =>
      readStatement bound
      readStatements bound n

/-- The triples of a text. -/
def readText (text : String) : Except String (List Quad) := do
  let tokens := tokenize text
  let bound := 2 * tokens.length + 2
  let (_, state) ← (readStatements bound bound).run { tokens }
  return state.read.reverse

end RdfMapping.Rdf.Turtle
