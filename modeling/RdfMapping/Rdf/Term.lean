/-
# RDF terms and quads

Terms of triples, with the text they have in messages and in line-based formats.  Two terms
are told apart by that text.
-/
import RdfMapping.Text.Cut

namespace RdfMapping.Rdf

/-- What a literal carries besides its text. -/
inductive Tag where
  | plain
  | language (code : String)
  | datatype (iri : String)
deriving DecidableEq, Repr

/-- An RDF term; a position may also be empty or hold some other text. -/
inductive Term where
  | iri (value : String)
  | blank (label : String)
  | literal (text : String) (tag : Tag)
  | other (text : String)
  | missing
deriving DecidableEq, Repr

namespace Term

/-- A plain literal. -/
def ofText (text : String) : Term := .literal text .plain

/-- One character of a literal as it is written. -/
def escapeChar (c : Char) : List Char :=
  if c = '\\' || c = '"' then ['\\', c]
  else if c = '\n' then ['\\', 'n']
  else if c = '\r' then ['\\', 'r']
  else if c = '\t' then ['\\', 't']
  else [c]

/-- The text of a literal between quotes. -/
def quoteLiteral (text : String) : String :=
  .ofList ('"' :: text.toList.flatMap escapeChar ++ ['"'])

/-- The text of a term. -/
def render : Term → String
  | iri value => "<" ++ value ++ ">"
  | blank label => "_:" ++ label
  | literal text .plain => quoteLiteral text
  | literal text (.language code) => quoteLiteral text ++ "@" ++ code
  | literal text (.datatype type) => quoteLiteral text ++ "^^<" ++ type ++ ">"
  | other text => text
  | missing => ""

/-- Whether a term can be the subject of the triples of a map. -/
def isNode : Term → Bool
  | iri _ | blank _ => true
  | _ => false

/-- The IRI a term is. -/
def iri? : Term → Option String
  | iri value => some value
  | _ => none

end Term

/-- A triple, possibly in a named graph. -/
structure Quad where
  subject : Term
  predicate : Term
  object : Term
  graph : Option Term := none
deriving DecidableEq, Repr

namespace Quad

/-- The quad as a statement, the way messages show it. -/
def render (q : Quad) : String :=
  Text.join " " ([q.subject.render, q.predicate.render, q.object.render] ++
    (match q.graph with
      | none => []
      | some g => [g.render])) ++ " ."

/-- The triple of a quad as an arrow, the way messages show it. -/
def renderArrow (q : Quad) : String :=
  q.subject.render ++ " -- " ++ q.predicate.render ++ " -> " ++ q.object.render

end Quad

end RdfMapping.Rdf
