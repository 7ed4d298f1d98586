/-
# Texts in shorthand

Documents in shorthand as texts.
-/
import RdfMapping.Shorthand.Document
import RdfMapping.Shorthand.Export
import RdfMapping.Yaml.Document
import RdfMapping.Yaml.Layout

namespace RdfMapping.Shorthand

open Mapping (Document)
open Yaml (Fault Node)

/-- The diagnostic of a text that cannot be read. -/
def syntaxDiagnostic (fault : Fault) : Diagnostic :=
  { kind := .parse, code := "syntax", message := fault.problem
    location := { span := { line := fault.line.getD 0 } } }

/-- Reads the tree of a document. -/
def readText (text : String) : Except Diagnostic Node :=
  (Node.read text).mapError syntaxDiagnostic

/-- Reads a document. -/
def parseText (settings : Settings) (text : String) : Except (List Diagnostic) Parsed := do
  let root ← (readText text).mapError ([·])
  parse settings (some root)

/-- Writes a document, with two columns for each level. -/
def writeText (doc : Document) (options : WriteOptions) : Except Diagnostic String :=
  (write doc options).map (·.layout.render 2)

end RdfMapping.Shorthand
