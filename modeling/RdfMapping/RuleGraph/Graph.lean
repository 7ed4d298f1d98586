/-
# Rule graphs

The triples a document is read from: each once, in the order of their first occurrence, with
those in a named graph set apart.
-/
import RdfMapping.Rdf.Term
import RdfMapping.RuleGraph.Vocabulary

namespace RdfMapping.RuleGraph

open Rdf (Term Quad)

/-! ## Graphs and edges -/

/-- Distinct triples, and the quads in named graphs. -/
structure Graph where
  triples : List Quad := []
  named : List Quad := []
deriving DecidableEq, Repr

/-- A triple that leaves a node, with its number in the graph. -/
structure Edge where
  number : Nat
  property : String
  object : Term
deriving DecidableEq, Repr

namespace Graph

/-- Adds a quad to a graph. -/
def insert (g : Graph) (q : Quad) : Graph :=
  if q.graph.isSome then { g with named := g.named ++ [q] }
  else if g.triples.contains q then g
  else { g with triples := g.triples ++ [q] }

/-- The graph of a list of quads. -/
def ofQuads (qs : List Quad) : Graph :=
  qs.foldl insert {}

/-- The edge a numbered triple is for a subject, if its property is among those given. -/
def edge? (s : Term) (properties : List String) (t : Quad × Nat) : Option Edge := do
  let p ← t.1.predicate.iri?
  if t.1.subject = s && properties.contains p then some ⟨t.2, p, t.1.object⟩ else none

/-- The edges from a node with one of the properties, in order. -/
def edges (g : Graph) (s : Term) (properties : List String) : List Edge :=
  g.triples.zipIdx.filterMap (edge? s properties)

/-- Whether a triple has one of the properties. -/
def hasProperty (properties : List String) (q : Quad) : Bool :=
  match q.predicate.iri? with
  | some p => properties.contains p
  | none => false

/-- How many triples lead to a node with one of the properties. -/
def referrers (g : Graph) (o : Term) (properties : List String) : Nat :=
  g.triples.countP fun q => q.object == o && hasProperty properties q

/-- Whether a triple of the graph has one of the properties. -/
def uses (g : Graph) (properties : List String) : Bool :=
  g.triples.any (hasProperty properties)

/-- How many triples lead to a function value. -/
def functionCount (g : Graph) : Nat :=
  g.triples.countP (hasProperty [Property.functionValue])

/-! ## Anchors -/

/-- Whether a node is the value of a function term map. -/
def isFunctionValue (g : Graph) (n : Term) : Bool :=
  g.triples.any fun q => q.predicate == .iri Property.functionValue && q.object == n

/-- The number of the first triple that mentions a node. -/
def firstMention (g : Graph) (n : Term) : Nat :=
  g.triples.findIdx fun q => q.subject == n || q.object == n

/-- The nodes that have a source, apart from the values of functions, each once. -/
def sourced (g : Graph) : List Term :=
  ((g.triples.filter (hasProperty Property.sources)).map Quad.subject).eraseDups.filter
    fun n => !g.isFunctionValue n

/-- The nodes that stand for triples maps, in the order in which they are first mentioned. -/
def anchors (g : Graph) : List Term :=
  g.sourced.mergeSort fun a b => g.firstMention a ≤ g.firstMention b

end Graph

end RdfMapping.RuleGraph
