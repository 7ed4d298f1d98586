/-
# Turtle texts

Triples as a Turtle text.  IRIs are abbreviated by a table of prefixes, and the prefixes that
are used are declared first.  What a library knows of terms is an argument.
-/
import RdfMapping.Iri.Contraction
import RdfMapping.Rdf.Turtle.Statement
import RdfMapping.Text.Quoted

namespace RdfMapping.Rdf.Turtle

open Iri (PrefixTable)

/-! ## IRIs -/

/-- The namespaces that have a short name everywhere. -/
def knownNamespaces : List (String × String) :=
  [("rdf:", Iri.PrefixTable.rdfNamespace), ("xsd:", "http://www.w3.org/2001/XMLSchema#"),
    ("schema:", "http://schema.org/")]

/-- An IRI in full, if it begins with a short name. -/
def fullIri (iri : String) : String :=
  (knownNamespaces.findSome? fun (short, ns) =>
    (Text.stripStart? short iri).map (ns ++ ·)).getD iri

/-- The library that is used. -/
def TermLibrary.standard : TermLibrary where
  full := fullIri
  key := Term.render

/-- The property of belonging to a class. -/
def typeIri : String := Iri.PrefixTable.rdfNamespace ++ "type"

/-- Whether a character may not stand between angle brackets. -/
def isForbidden (c : Char) : Bool :=
  c ≤ ' ' || ['<', '>', '"', '{', '}', '|', '^', '\x60', '\\'].contains c

/-- A character between angle brackets. -/
def escapeIriChar (c : Char) : List Char :=
  if isForbidden c then '\\' :: 'u' :: Text.hexUpper 4 c.toNat else [c]

/-- An IRI with the characters that Turtle forbids escaped. -/
def escapeIri (iri : String) : String :=
  .ofList (iri.toList.flatMap escapeIriChar)

/-- An IRI as it is written: abbreviated if a prefix allows it. -/
def iriText (table : PrefixTable) (iri : String) : String :=
  match table.contract? iri with
  | some compact => compact.text
  | none => "<" ++ escapeIri iri ++ ">"

/-- The label with which an IRI is abbreviated. -/
def labelOf? (table : PrefixTable) (iri : String) : Option String :=
  (table.contract? iri).map (·.label)

/-! ## Terms -/

variable (lib : TermLibrary)

/-- The text of a term. -/
def termText (table : PrefixTable) : Term → String
  | .iri value => iriText table (lib.full value)
  | .blank label => "_:" ++ label
  | .literal text .plain => Term.quoteLiteral text
  | .literal text (.language code) => Term.quoteLiteral text ++ "@" ++ code
  | .literal text (.datatype type) =>
    Term.quoteLiteral text ++ "^^" ++ iriText table (lib.full type)
  | .other text => Term.quoteLiteral text
  | .missing => Term.quoteLiteral ""

/-- The IRIs that the text of a term shows. -/
def shownIris : Term → List String
  | .iri value => [lib.full value]
  | .literal _ (.datatype type) => [lib.full type]
  | _ => []

/-- Whether a predicate has a word of its own. -/
def isType (p : Term) : Bool :=
  p.iri?.any (lib.full · = typeIri)

/-- The text of a predicate. -/
def predicateText (table : PrefixTable) (p : Term) : String :=
  if isType lib p then "a" else termText lib table p

/-! ## Statements -/

/-- The text of a predicate and its objects. -/
def branchText (table : PrefixTable) (b : Branch) : String :=
  predicateText lib table b.predicate ++ " " ++ Text.join ", " (b.objects.map (termText lib table))

/-- The text of a statement. -/
def statementText (table : PrefixTable) (st : Statement) : String :=
  termText lib table st.subject ++ " " ++
    Text.join " ;\n    " (st.branches.map (branchText lib table)) ++ " .\n"

/-- The IRIs that the text of a statement shows. -/
def Statement.iris (st : Statement) : List String :=
  shownIris lib st.subject ++ st.branches.flatMap fun b =>
    (if isType lib b.predicate then [] else shownIris lib b.predicate) ++
      b.objects.flatMap (shownIris lib)

/-- The labels with which the IRIs of statements are abbreviated. -/
def usedLabels (table : PrefixTable) (sts : List Statement) : List String :=
  (sts.flatMap (Statement.iris lib)).filterMap (labelOf? table)

/-- The declarations of the labels that are used. -/
def header (table : PrefixTable) (used : List String) : String :=
  String.join ((table.bindings.filter fun (label, _) => used.contains label).map fun (label, ns) =>
    "@prefix " ++ label ++ ": <" ++ escapeIri ns ++ "> .\n")

/-- A table with a base as the namespace of the empty label, unless it has one. -/
def withBase (table : PrefixTable) (base : String) : PrefixTable :=
  if base = "" || (table.lookup? "").isSome then table else table.set "" base

/-- The text of triples. -/
def render (table : PrefixTable) (base : String) (qs : List Quad) : String :=
  let table := withBase table base
  let sts := group lib qs
  let used := usedLabels lib table sts
  header table used ++ (if used.isEmpty then "" else "\n") ++
    Text.join "\n" (sts.map (statementText lib table))

end RdfMapping.Rdf.Turtle
