/-
# Reading JSON-LD

The quads of a JSON-LD text: names are expanded by the context, the nodes of each graph are
gathered, and blank nodes get new labels in the order in which they are met.
-/
import RdfMapping.Json.Reading
import RdfMapping.Rdf.JsonLd.Context
import RdfMapping.Rdf.JsonLd.Number

namespace RdfMapping.Rdf.JsonLd

/-! ## Gathering -/

/-- A value of a property. -/
inductive Object where
  | item (item : Item)
  | list (items : List Object)

/-- What is said of a node in a graph. -/
structure Fact where
  graph : Option String
  subject : String
  property : String
  object : Object

/-- What is known while a text is read. -/
structure Gathering where
  /-- The facts read so far, from the last. -/
  facts : List Fact := []
  /-- The new labels of blank nodes. -/
  labels : List (String × String) := []
  /-- The number of labels that were given. -/
  issued : Nat := 0

/-- Reads a text. -/
abbrev Reading := StateT Gathering (Except String)

/-- A label that was not given before. -/
def freshLabel : Reading String := do
  let n := (← get).issued
  modify fun s => { s with issued := n + 1 }
  return "_:b" ++ toString n

/-- The new label of a blank node; other names stay. -/
def relabel (id : String) : Reading String := do
  if !Text.startsWith "_:" id then return id
  else match (← get).labels.lookup id with
    | some label => return label
    | none =>
      let label ← freshLabel
      modify fun s => { s with labels := (id, label) :: s.labels }
      return label

/-- Whether two values are the same; lists never are. -/
def sameObject : Object → Object → Bool
  | .item a, .item b => a == b
  | _, _ => false

/-- Adds a fact, unless it is known. -/
def addFact (f : Fact) : Reading Unit :=
  modify fun s =>
    if s.facts.any fun g => g.graph == f.graph && g.subject == f.subject &&
        g.property == f.property && sameObject g.object f.object then s
    else { s with facts := f :: s.facts }

/-! ## Values -/

/-- A number, a truth value or a text with its datatype and language. -/
def literalOf? (value : Json) (type language : Option String) : Option Item :=
  match value with
  | .text text =>
    match type, language with
    | some type, _ => some (.value text (if type = stringType then .plain else .datatype type))
    | none, some code => some (.value text (.language code))
    | none, none => some (.value text .plain)
  | .boolean b =>
    some (.value (if b then "true" else "false")
      (.datatype (type.getD "http://www.w3.org/2001/XMLSchema#boolean")))
  | .number d =>
    let (text, natural) :=
      numberLiteral d (type = some "http://www.w3.org/2001/XMLSchema#double")
    some (.value text (.datatype (type.getD natural)))
  | _ => none

/-- A value that is no object, as the definition of its property says. -/
def scalarObject? (c : Context) (d : Definition) (value : Json) : Reading (Option Object) := do
  match d.type, value with
  | some "@id", .text name => reference (c.expand? false true name)
  | some "@vocab", .text name => reference (c.expand? true true name)
  | type, value =>
    let type := type.filter fun t => !keywords.contains t
    let language := match d.language with
      | some language => language
      | none => c.language
    return (literalOf? value type language).map .item
where
  /-- A reference to a node. -/
  reference (id : Option String) : Reading (Option Object) := do
    match id with
    | some id => return some (.item (.ref (← relabel id)))
    | none => return none

/-- The fields of an object with a meaning, in the order of their expanded names. -/
def expandedFields (c : Context) (j : Json) : List (String × Definition × Json) :=
  let names := (Json.sortedFields j.fields).filterMap fun (name, value) => do
    if name = "@context" then none
    else
      let id ← c.expand? true false name
      if keywords.contains id || isAbsolute id then
        some (id, (c.definition? name).getD { id := some id }, value)
      else none
  names.mergeSort fun a b => Json.nameLe a.1 b.1

/-- A literal that is spelled out. -/
def valueObject (c : Context) (fields : List (String × Definition × Json)) (value : Json) :
    Except String (Option Object) := do
  let type ← match fields.lookup "@type" with
    | some (_, .text name) => pure (c.expand? true true name)
    | some (_, .null) | none => pure none
    | some _ => throw "invalid typed value"
  let language ← match fields.lookup "@language" with
    | some (_, .text code) => pure (some code)
    | some (_, .null) | none => pure none
    | some _ => throw "invalid language-tagged string"
  match value with
  | .null => return none
  | .list _ | .object _ => throw "invalid value object value"
  | _ => return (literalOf? value type language).map .item

/-! ## Nodes -/

mutual

/-- Reads the values of a property. -/
def readObjects (graph : Option String) (c : Context) (d : Definition) (j : Json) :
    Nat → Reading (List Object)
  | 0 => throw "too deep"
  | bound + 1 => do
    match j with
    | .null => return []
    | .list items =>
      let objects ← items.mapM fun item =>
        readObjects graph c { d with containers := [] } item bound
      return if d.containers.contains "@list" then [.list objects.flatten] else objects.flatten
    | .object _ =>
      if d.containers.contains "@language" then readLanguages j
      else if d.containers.contains "@index" then
        let objects ← (Json.sortedFields j.fields).mapM fun (_, value) =>
          readObjects graph c { d with containers := [] } value bound
        return objects.flatten
      else
        let objects ← readObject graph c d j bound
        return match d.containers.contains "@list", objects with
          | true, [.list items] => [.list items]
          | true, objects => [.list objects]
          | false, objects => objects
    | value =>
      let object ← scalarObject? c d value
      let objects := object.toList
      return if d.containers.contains "@list" then [.list objects] else objects
where
  /-- The texts of a field for each language. -/
  readLanguages (j : Json) : Reading (List Object) := do
    let texts := (Json.sortedFields j.fields).flatMap fun (code, value) =>
      value.items.filterMap fun text => (text.text?).map fun text => (code, text)
    return texts.map fun (code, text) =>
      .item (.value text (if code = "@none" then .plain else .language code))

/-- Reads a value that is an object: a literal, a list, a set or a node. -/
def readObject (graph : Option String) (c : Context) (d : Definition) (j : Json) :
    Nat → Reading (List Object)
  | 0 => throw "too deep"
  | bound + 1 => do
    let c ← match j.get? "@context" with
      | some definitions => StateT.lift (c.extend definitions (bound + 1))
      | none => pure c
    let fields := expandedFields c j
    match fields.lookup "@value", fields.lookup "@list", fields.lookup "@set" with
    | some (_, value), _, _ =>
      return (← StateT.lift (valueObject c fields value)).toList
    | none, some (_, items), _ =>
      let objects ← items.items.mapM fun item =>
        readObjects graph c { d with containers := [] } item bound
      return [.list objects.flatten]
    | none, none, some (_, items) =>
      let objects ← items.items.mapM fun item =>
        readObjects graph c { d with containers := [] } item bound
      return objects.flatten
    | none, none, none => return [.item (.ref (← readNode graph c fields bound))]

/-- Gathers what the fields of an object say of a node, and gives its name. -/
def readNode (graph : Option String) (c : Context) (fields : List (String × Definition × Json)) :
    Nat → Reading String
  | 0 => throw "too deep"
  | bound + 1 => do
    let types := (fields.filter (·.1 = "@type")).flatMap fun (_, _, value) => value.items
    let types ← types.mapM fun type => do
      match type.text? with
      | some name => relabel ((c.expand? true true name).getD "")
      | none => throw "invalid type value"
    let id ← match fields.lookup "@id" with
      | some (_, .text name) => relabel ((c.expand? false true name).getD "")
      | some _ => throw "invalid @id value"
      | none => freshLabel
    types.forM fun type => addFact ⟨graph, id, "@type", .item (.ref type)⟩
    fields.forM fun (property, d, value) => do
      if property = "@graph" then
        value.items.forM fun item => do
          let _ ← readObjects (some id) c { id := none } item bound
      else if property = "@included" then
        value.items.forM fun item => do
          let _ ← readObjects graph c { id := none } item bound
      else if property = "@reverse" then
        (expandedFields c value).forM fun (property, d, value) => do
          relateBack id property (← readObjects graph c d value bound)
      else if keywords.contains property then return ()
      else
        let objects ← readObjects graph c d value bound
        if d.reverse then relateBack id property objects
        else objects.forM fun object => addFact ⟨graph, id, property, object⟩
    return id
where
  /-- Adds facts that relate values to a node. -/
  relateBack (id property : String) (objects : List Object) : Reading Unit :=
    objects.forM fun object =>
      match object with
      | .item (.ref other) => addFact ⟨graph, other, property, .item (.ref id)⟩
      | _ => throw "invalid reverse property value"

end

/-- Reads a whole text.  An object that holds nothing but a graph is that graph. -/
def readTop (c : Context) (j : Json) (bound : Nat) : Reading Unit :=
  j.items.forM fun item => do
    match item with
    | .object _ =>
      let c ← match item.get? "@context" with
        | some definitions => StateT.lift (c.extend definitions bound)
        | none => pure c
      match expandedFields c item with
      | [("@graph", _, content)] =>
        content.items.forM fun item => do
          let _ ← readObjects none c { id := none } item bound
      | [] => return ()
      | _ =>
        let _ ← readObject none c { id := none } item bound
    | _ => return ()

/-! ## Quads -/

/-- A name as a term. -/
def termOfId (id : String) : Term :=
  match Text.stripStart? "_:" id with
  | some label => .blank label
  | none => .iri id

/-- The triples of a list and the term that stands for a value. -/
def objectTerm (graph : Option Term) : Object → Nat → Reading (Option Term × List Quad)
  | _, 0 => return (none, [])
  | .item (.ref id), _ => return (if isAbsolute id then some (termOfId id) else none, [])
  | .item (.value text tag), _ => return (some (.literal text tag), [])
  | .list items, bound + 1 => cells items bound
where
  /-- The cells of a list.  The label of a cell is given before those of the next ones. -/
  cells (items : List Object) (bound : Nat) : Reading (Option Term × List Quad) := do
    let cells ← items.mapM fun item => do return (← freshLabel, item)
    let next := (cells.drop 1).map (termOfId ·.1) ++ [.iri nilIri]
    let quads ← (cells.zip next).mapM fun ((label, item), next) => do
      let (term, inner) ← objectTerm graph item bound
      let first := match term with
        | some term => [(⟨termOfId label, .iri firstIri, term, graph⟩ : Quad)]
        | none => []
      return inner ++ first ++ [⟨termOfId label, .iri restIri, next, graph⟩]
    return (some ((cells.head?.map (termOfId ·.1)).getD (.iri nilIri)), quads.flatten)

/-- The quads of a fact. -/
def factQuads (f : Fact) (bound : Nat) : Reading (List Quad) := do
  let graph := f.graph.map termOfId
  let property :=
    if f.property = "@type" then Iri.PrefixTable.rdfNamespace ++ "type" else f.property
  if !isAbsolute f.subject || !isAbsolute property || Text.startsWith "_:" property then return []
  else
    let (term, quads) ← objectTerm graph f.object bound
    match term with
    | some term => return quads ++ [⟨termOfId f.subject, .iri property, term, graph⟩]
    | none => return quads

/-- The order of facts: by graph, those of no graph first, then by subject and property. -/
def factLe (a b : Fact) : Bool :=
  let names (f : Fact) : List String := [f.graph.getD "", f.subject, f.property]
  !decide (names b < names a)

/-- Reads the quads of a JSON value. -/
def readQuads (j : Json) (bound : Nat) : Reading (List Quad) := do
  readTop {} j bound
  let facts := (← get).facts.reverse.filter fun f => f.graph.all isAbsolute
  let quads ← (facts.mergeSort factLe).mapM (factQuads · bound)
  return quads.flatten

/-- The quads of a text. -/
def readText (text : String) : Except String (List Quad) :=
  match Json.read? text with
  | none => .error "loading document failed"
  | some j => (readQuads j (2 * text.length + 2)).run' {}

end RdfMapping.Rdf.JsonLd
