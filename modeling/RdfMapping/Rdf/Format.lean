/-
# Formats of RDF texts

The formats triples are read from and written to, by name and by the extension of a file.
-/
import RdfMapping.Files.Path
import RdfMapping.Text.Lowercase
import RdfMapping.Text.Quoted

namespace RdfMapping.Rdf

/-- A format of RDF texts. -/
inductive Format where
  | turtle
  | nTriples
  | nQuads
  | jsonLd
deriving DecidableEq, Repr

/-- Why a text is neither read nor written. -/
inductive FormatError where
  /-- No format has the name. -/
  | unknownName (name : String)
  /-- A number stands for no format to read. -/
  | unreadable
  /-- A number stands for no format to write. -/
  | unwritable
deriving DecidableEq, Repr

/-- The wording of the error. -/
def FormatError.message : FormatError → String
  | unknownName name => "unsupported RDF format: " ++ Text.quote name
  | unreadable => "unsupported RDF format: cannot read unknown"
  | unwritable => "unsupported RDF format: cannot write unknown"

namespace Format

/-- All formats. -/
def all : List Format := [.turtle, .nTriples, .nQuads, .jsonLd]

/-- The name of a format. -/
def name : Format → String
  | turtle => "turtle"
  | nTriples => "ntriples"
  | nQuads => "nquads"
  | jsonLd => "jsonld"

/-- The names formats go by. -/
def names : List (String × Format) :=
  [("turtle", .turtle), ("ttl", .turtle), ("ntriples", .nTriples), ("n-triples", .nTriples),
    ("nt", .nTriples), ("nquads", .nQuads), ("n-quads", .nQuads), ("nq", .nQuads),
    ("jsonld", .jsonLd), ("json-ld", .jsonLd)]

/-- The format with a name, in any letter case. -/
def ofName (s : String) : Except FormatError Format :=
  match names.lookup (Text.lower s) with
  | some f => .ok f
  | none => .error (.unknownName s)

/-- The extensions of files in a format. -/
def extensions : List (String × Format) :=
  [(".ttl", .turtle), (".nt", .nTriples), (".nq", .nQuads), (".jsonld", .jsonLd),
    (".json", .jsonLd)]

/-- The format of the file with a path, by its extension in any letter case. -/
def ofPath? (path : String) : Option Format :=
  extensions.lookup (Text.lower (Files.extension path))

end Format

end RdfMapping.Rdf
