/-
# Node objects

Quads as node objects: what is said of a node stands in one object, and the nodes of a named
graph stand inside the node that names it.
-/
import RdfMapping.Iri.PrefixTable
import RdfMapping.Rdf.Term

namespace RdfMapping.Rdf.JsonLd

open Iri.PrefixTable (rdfNamespace)

/-! ## Items -/

/-- A value of a property. -/
inductive Item where
  /-- Another node. -/
  | ref (id : String)
  /-- A text, perhaps with a language or a datatype. -/
  | value (text : String) (tag : Tag)
deriving DecidableEq, Repr

/-- The datatype of plain texts, which is not shown. -/
def stringType : String := "http://www.w3.org/2001/XMLSchema#string"

/-- The datatype of texts with a language. -/
def languageType : String := rdfNamespace ++ "langString"

/-- The name of a term as a node. -/
def idOf : Term → String
  | .iri value => value
  | .blank label => "_:" ++ label
  | .literal text _ => text
  | .other text => text
  | .missing => ""

/-- A term as a value. -/
def Item.ofTerm : Term → Item
  | .iri name => .ref name
  | .blank label => .ref ("_:" ++ label)
  | .literal text (.language "") => .value text (.datatype languageType)
  | .literal text (.datatype type) =>
    .value text (if type = "" || type = stringType then .plain else .datatype type)
  | .literal text tag => .value text tag
  | .other text => .value text .plain
  | .missing => .value "" .plain

/-- The node that a value refers to. -/
def Item.ref? : Item → Option String
  | ref id => some id
  | value _ _ => none

/-! ## Nodes -/

/-- What is said of a node. -/
structure NodeObject where
  id : String
  types : List String := []
  properties : List (String × List Item) := []
deriving DecidableEq, Repr

/-- Whether nothing is said of a node. -/
def NodeObject.isBare (n : NodeObject) : Bool :=
  n.types.isEmpty && n.properties.isEmpty

/-- The values of a property. -/
def NodeObject.values (n : NodeObject) (property : String) : List Item :=
  (n.properties.lookup property).getD []

/-- Adds a value to a property, unless it has it. -/
def addItem (property : String) (item : Item) :
    List (String × List Item) → List (String × List Item)
  | [] => [(property, [item])]
  | (p, items) :: rest =>
    if p = property then (p, if items.contains item then items else items ++ [item]) :: rest
    else (p, items) :: addItem property item rest

/-- The node objects of a graph, one for each name. -/
abbrev Graph := List NodeObject

/-- Changes the node with a name, which is added if it is not there. -/
def Graph.update (id : String) (change : NodeObject → NodeObject) : Graph → Graph
  | [] => [change { id }]
  | n :: rest => if n.id = id then change n :: rest else n :: Graph.update id change rest

/-- Whether a triple says to which class a node belongs. -/
def isTyping (q : Quad) : Bool :=
  q.predicate = .iri (rdfNamespace ++ "type") && q.object.isNode

/-- Adds a triple to a graph. -/
def Graph.add (g : Graph) (q : Quad) : Graph :=
  let g := g.update (idOf q.subject) id
  let g := if q.object.isNode then g.update (idOf q.object) id else g
  g.update (idOf q.subject) fun n =>
    if isTyping q then
      { n with types := if n.types.contains (idOf q.object) then n.types
                        else n.types ++ [idOf q.object] }
    else { n with properties := addItem (idOf q.predicate) (.ofTerm q.object) n.properties }

/-! ## Graphs -/

/-- The name of the graph of a quad; only nodes name graphs. -/
def graphName? (q : Quad) : Option String :=
  (q.graph.filter (·.isNode)).map idOf

/-- The node objects of quads: those of no graph, and those of each named graph. -/
structure Gathered where
  unnamed : Graph
  named : List (String × Graph)

/-- Adds a quad to the named graphs. -/
def addNamed (name : String) (q : Quad) : List (String × Graph) → List (String × Graph)
  | [] => [(name, Graph.add [] q)]
  | (n, g) :: rest =>
    if n = name then (n, Graph.add g q) :: rest else (n, g) :: addNamed name q rest

/-- The node objects of quads.  The name of a graph is a node of no graph. -/
def Gathered.ofQuads (qs : List Quad) : Gathered :=
  qs.foldl
    (fun g q =>
      match graphName? q with
      | none => { g with unnamed := Graph.add g.unnamed q }
      | some name => ⟨Graph.update name id g.unnamed, addNamed name q g.named⟩)
    ⟨[], []⟩

/-! ## Lists -/

/-- Where a node is referred to. -/
structure Usage where
  subject : String
  property : String
  object : String
deriving DecidableEq, Repr

/-- The references to nodes in quads, those to classes apart. -/
def usages (qs : List Quad) : List Usage :=
  (qs.filter fun q => q.object.isNode && !isTyping q).map fun q =>
    ⟨idOf q.subject, idOf q.predicate, idOf q.object⟩

/-- The property of the first element of a list. -/
def firstIri : String := rdfNamespace ++ "first"

/-- The property of what follows the first element of a list. -/
def restIri : String := rdfNamespace ++ "rest"

/-- The empty list. -/
def nilIri : String := rdfNamespace ++ "nil"

/-- The element of a node that is nothing but a part of a list. -/
def listElement? (g : Graph) (id : String) : Option Item := do
  let n ← g.find? (·.id = id)
  if n.properties.length ≠ 2 || !(n.types = [] || n.types = [rdfNamespace ++ "List"]) then none
  else match n.values firstIri, n.values restIri with
    | [element], [_] => some element
    | _, _ => none

/-- Walks back from the end of a list of at most `bound` nodes to where it begins. -/
def walkBack (g : Graph) (uses : List Usage) (u : Usage) (head : String) (elements : List Item)
    (nodes : List String) : Nat → String × List Item × List String
  | 0 => (head, elements, nodes)
  | bound + 1 =>
    let next : Option (Item × Usage) := do
      if u.property ≠ restIri || !Text.startsWith "_:" u.subject then none
      else match uses.filter (·.object = u.subject) with
        | [once] => return (← listElement? g u.subject, once)
        | _ => none
    match next with
    | none => (head, elements, nodes)
    | some (element, once) =>
      walkBack g uses once u.subject (element :: elements) (u.subject :: nodes) bound

/-- The lists of a graph, by the names that stand for them, and the nodes they are made of. -/
def Graph.lists (g : Graph) (own uses : List Usage) : List (String × List Item) × List String :=
  let found := (own.filter (·.object = nilIri)).map fun u =>
    walkBack g uses u nilIri [] [] g.length
  (found.map fun (head, elements, _) => (head, elements), found.flatMap (·.2.2))

end RdfMapping.Rdf.JsonLd
