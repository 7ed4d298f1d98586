/-
# Texts of quads

Quads are read from and written to texts in one of the formats.
-/
import RdfMapping.Rdf.Format
import RdfMapping.Rdf.JsonLd.Reading
import RdfMapping.Rdf.Turtle.Reading

namespace RdfMapping.Rdf

open Iri (PrefixTable)

/-- Why a text is no list of quads. -/
inductive ReadFault where
  | turtle (problem : String)
  | nQuads (line : NQuads.BadLine)
  | jsonLd (problem : String)

/-- The wording of the fault. -/
def ReadFault.message : ReadFault → String
  | turtle problem => "reading Turtle: " ++ problem
  | nQuads line => "reading N-Quads: " ++ line.message
  | jsonLd problem => "reading JSON-LD: " ++ problem

/-- Why quads have no text. -/
inductive WriteFault where
  /-- A quad is in a graph, which the format cannot say. -/
  | namedGraph (quad : Quad)
  /-- A quad has an empty name. -/
  | emptyName
  | jsonLd (fault : JsonLd.WriteFault)

/-- The wording of the fault. -/
def WriteFault.message : WriteFault → String
  | namedGraph quad =>
    "writing Turtle: turtle cannot hold quads with a graph label: " ++ quad.renderArrow
  | emptyName => "writing N-Quads: invalid N-Quad"
  | jsonLd fault => "writing JSON-LD: " ++ fault.message

namespace Format

/-- The quads of a text. -/
def read (f : Format) (text : String) : Except ReadFault (List Quad) :=
  match f with
  | turtle => (Turtle.readText text).mapError .turtle
  | nTriples | nQuads => (NQuads.read text).mapError .nQuads
  | jsonLd => (JsonLd.readText text).mapError .jsonLd

/-- The text of quads, with a library of terms and a table of prefixes. -/
def writeWith (lib : Turtle.TermLibrary) (f : Format) (table : PrefixTable) (base : String)
    (qs : List Quad) : Except WriteFault String :=
  match f with
  | turtle =>
    match qs.find? (·.graph.isSome) with
    | some quad => .error (.namedGraph quad)
    | none => .ok (Turtle.render lib table base qs)
  | nTriples | nQuads =>
    match NQuads.render? qs with
    | some text => .ok text
    | none => .error .emptyName
  | jsonLd => (JsonLd.render table qs).mapError .jsonLd

/-- The text of quads. -/
def write (f : Format) (table : PrefixTable) (base : String) (qs : List Quad) :
    Except WriteFault String :=
  f.writeWith .standard table base qs

end Format

end RdfMapping.Rdf
