/-
# Statements

Turtle writes the triples of a subject together, and among them the objects of a predicate.
-/
import RdfMapping.Rdf.Term

namespace RdfMapping.Rdf.Turtle

/-- A predicate with its objects. -/
structure Branch where
  predicate : Term
  objects : List Term
deriving DecidableEq, Repr

/-- A subject with its predicates. -/
structure Statement where
  subject : Term
  branches : List Branch
deriving DecidableEq, Repr

/-- The triples of a statement in the order in which they are written. -/
def Statement.quads (st : Statement) : List Quad :=
  st.branches.flatMap fun b => b.objects.map fun o => ⟨st.subject, b.predicate, o, none⟩

/-- What a library of terms gives: IRIs in full, and a text that tells terms apart. -/
structure TermLibrary where
  full : String → String
  key : Term → String

variable (lib : TermLibrary)

/-- Adds an object to the branch of a predicate. -/
def addObject (p o : Term) : List Branch → List Branch
  | [] => [⟨p, [o]⟩]
  | b :: rest =>
    if lib.key b.predicate = lib.key p then { b with objects := b.objects ++ [o] } :: rest
    else b :: addObject p o rest

/-- Adds a triple to the statement of its subject. -/
def addTriple (sts : List Statement) (q : Quad) : List Statement :=
  match sts with
  | [] => [⟨q.subject, [⟨q.predicate, [q.object]⟩]⟩]
  | st :: rest =>
    if lib.key st.subject = lib.key q.subject then
      { st with branches := addObject lib q.predicate q.object st.branches } :: rest
    else st :: addTriple rest q

/-- The statements of some triples. -/
def group (qs : List Quad) : List Statement :=
  qs.foldl (addTriple lib) []

end RdfMapping.Rdf.Turtle
