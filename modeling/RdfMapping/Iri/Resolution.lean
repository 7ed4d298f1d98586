/-
# Resolving names

Names in a document are IRIs in angle brackets, absolute IRIs, prefixed names or relative
references.  Resolution turns each into an absolute IRI, or reports a label that is not
declared.  A template is resolved by its head, the text before its first brace.
-/
import RdfMapping.Iri.PrefixTable
import RdfMapping.Iri.Reference
import RdfMapping.Text.Lowercase

namespace RdfMapping.Iri

/-- A prefixed name whose label is not declared. -/
structure UndeclaredPrefix where
  label : String
  term : String
deriving DecidableEq, Repr

namespace UndeclaredPrefix

/-- The text of the error. -/
def message (e : UndeclaredPrefix) : String :=
  "prefix " ++ Text.quote e.label ++ " is not declared (in " ++ Text.quote e.term ++ ")"

end UndeclaredPrefix

/-! ## Characters of names -/

/-- Letters of ASCII and the underscore. -/
def isNameStart (c : Char) : Bool :=
  c.isAlpha || c = '_'

/-- Characters of a name after the first. -/
def isNameChar (c : Char) : Bool :=
  isNameStart c || c.isDigit || c = '-' || c = '.'

/-- A text that can be a label: empty, or name characters after a name start. -/
def isLabel : List Char → Bool
  | [] => true
  | c :: rest => isNameStart c && rest.all isNameChar

/-- Schemes whose IRIs are absolute although no two slashes follow the colon. -/
def slashlessSchemes : List String :=
  ["urn", "mailto", "tag", "data", "tel", "file"]

/-- Whether a label is such a scheme, in any letter case. -/
def isSlashlessScheme (label : String) : Bool :=
  slashlessSchemes.contains (Text.lower label)

namespace PrefixTable

/-! ## Resolution -/

/-- The text between angle brackets that enclose a whole term. -/
def unbracket? (term : String) : Option String :=
  match term.toList with
  | '<' :: rest => (Chars.stripEnd? ['>'] rest).map .ofList
  | _ => none

/-- The absolute IRI a term stands for.  A term in angle brackets or without a colon is
resolved against the base.  Of the others, one with two slashes after the colon stays as it
is; a declared label gives its namespace, the empty label otherwise the base; a slashless
scheme stays, and a text before the colon that cannot be a label makes a relative reference.
Any other label is an error. -/
def resolve (t : PrefixTable) (base term : String) : Except UndeclaredPrefix String :=
  match unbracket? term with
  | some inner => .ok (resolveIri base inner)
  | none =>
    match Text.cutFirst? ':' term with
    | none => .ok (resolveIri base term)
    | some (label, rest) =>
      if Text.startsWith "//" rest then .ok term
      else match t.lookup? label with
        | some ns => .ok (ns ++ rest)
        | none =>
          if label = "" then .ok (base ++ rest)
          else if isSlashlessScheme label then .ok term
          else if isLabel label.toList then .error ⟨label, term⟩
          else .ok (resolveIri base term)

/-- The head of a template, before its first brace, and the rest. -/
def cutHead (pattern : String) : String × String :=
  let head := pattern.toList.takeWhile (· ≠ '{')
  (.ofList head, .ofList (pattern.toList.drop head.length))

/-- Whether the head of a template is an absolute IRI as far as it goes. -/
def isAbsoluteHead (head : String) : Bool :=
  match Text.cutFirst? ':' head with
  | none => false
  | some (label, rest) => Text.startsWith "//" rest || isSlashlessScheme label

/-- The template with its head resolved, unless it is absolute. -/
def resolveTemplate (t : PrefixTable) (base pattern : String) : Except UndeclaredPrefix String :=
  let (head, rest) := cutHead pattern
  if head = "" || isAbsoluteHead head then .ok pattern
  else return (← t.resolve base head) ++ rest

end PrefixTable

end RdfMapping.Iri
