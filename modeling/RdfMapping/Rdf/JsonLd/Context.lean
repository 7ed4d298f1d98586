/-
# Contexts

What the names in a JSON-LD text stand for.
-/
import RdfMapping.Iri.Reference
import RdfMapping.Json.Basic
import RdfMapping.Rdf.JsonLd.Writing

namespace RdfMapping.Rdf.JsonLd

/-- What a name stands for. -/
structure Definition where
  /-- The IRI or the keyword; a name may also be declared to stand for nothing. -/
  id : Option String
  /-- The datatype of its values, or the sort of names they are. -/
  type : Option String := none
  /-- How its values are gathered. -/
  containers : List String := []
  /-- The language of its values, which may also be none. -/
  language : Option (Option String) := none
  /-- Whether it relates its values to the node, and not the node to them. -/
  reverse : Bool := false
deriving DecidableEq, Repr

/-- What the names in a text stand for. -/
structure Context where
  base : String := ""
  vocabulary : Option String := none
  language : Option String := none
  terms : List (String × Definition) := []

/-- The words with a meaning of their own. -/
def keywords : List String :=
  ["@base", "@container", "@context", "@default", "@direction", "@embed", "@explicit", "@graph",
    "@id", "@import", "@included", "@index", "@json", "@language", "@list", "@nest", "@none",
    "@null", "@omitDefault", "@prefix", "@preserve", "@propagate", "@protected", "@requireAll",
    "@reverse", "@set", "@type", "@value", "@version", "@vocab"]

namespace Context

/-- The definition of a name. -/
def definition? (c : Context) (name : String) : Option Definition :=
  c.terms.lookup name

/-- The parts of a name around its first colon, if the first part can be a label. -/
def cutLabel? (name : String) : Option (String × String) :=
  (Text.cutFirst? ':' name).filter fun (label, rest) =>
    label ≠ "" && label ≠ "_" && !Text.startsWith "//" rest

/-- The IRI of a name; at most `bound` definitions that are being `added` count first. -/
def expandWith? (c : Context) (added : List (String × Json)) (asTerm asPath : Bool)
    (name : String) : Nat → Option String
  | 0 => some name
  | bound + 1 =>
    let known? (name : String) : Option (Option String) :=
      match added.lookup name with
      | some value => some (definedIri? c added name value bound)
      | none => (c.definition? name).map (·.id)
    if keywords.contains name then some name
    else match if asTerm then known? name else none with
      | some iri => iri
      | none =>
        match cutLabel? name with
        | some (label, rest) =>
          match known? label with
          | some (some iri) => some (iri ++ rest)
          | _ => some name
        | none =>
          if isAbsolute name then some name
          else if asTerm then
            match c.vocabulary with
            | some ns => some (ns ++ name)
            | none => some (if asPath then fromBase name else name)
          else some (if asPath then fromBase name else name)
where
  /-- The IRI that a definition gives to its name. -/
  definedIri? (c : Context) (added : List (String × Json)) (name : String) (value : Json)
      (bound : Nat) : Option String :=
    let others := added.filter (·.1 ≠ name)
    match value with
    | .text iri => expandWith? c others true false iri bound
    | .object _ =>
      match (value.get? "@id").or (value.get? "@reverse") with
      | some (.text iri) => expandWith? c others true false iri bound
      | some _ => none
      | none => expandWith? c others true false name bound
    | _ => none
  /-- A relative IRI against the base. -/
  fromBase (name : String) : String :=
    if c.base = "" then name else Iri.resolveIri c.base name

/-- The IRI of a name in a context that is complete. -/
def expand? (c : Context) (asTerm asPath : Bool) (name : String) : Option String :=
  c.expandWith? [] asTerm asPath name 1

/-- The definition that a JSON value gives to a name. -/
def define (c : Context) (added : List (String × Json)) (name : String) (value : Json) :
    Except String Definition := do
  let iri := expandWith?.definedIri? c added name value (added.length + 1)
  match value with
  | .null => return { id := none }
  | .text _ | .object _ =>
    if iri.any fun iri => !isAbsolute iri && !keywords.contains iri then
      throw WriteFault.relativeNamespace.message
    else
      let type := ((value.get? "@type").bind Json.text?).bind fun name =>
        c.expandWith? added true false name (added.length + 1)
      let containers := ((value.get? "@container").map Json.items).getD [] |>.filterMap Json.text?
      let language := (value.get? "@language").map Json.text?
      return { id := iri, type, containers, language, reverse := (value.get? "@reverse").isSome }
  | _ => throw "invalid term definition"

/-- A context with the definitions of an object. -/
def extendWith (c : Context) (j : Json) : Except String Context := do
  let setting (name : String) (old : Option String) : Option String :=
    match j.get? name with
    | some value => value.text?
    | none => old
  let base := match j.get? "@base" with
    | some (.text iri) => if c.base = "" then iri else Iri.resolveIri c.base iri
    | some _ => ""
    | none => c.base
  let c := { c with base, language := setting "@language" c.language,
                    vocabulary := setting "@vocab" c.vocabulary }
  let added := (Json.sortedFields j.fields).filter fun (name, _) => !keywords.contains name
  let terms ← added.mapM fun (name, value) => do return (name, ← c.define added name value)
  return { c with terms := terms.reverse ++ c.terms }

/-- A context with the definitions of a JSON value: those of an object, those of several values
one after another, or none at all.  `bound` is the depth of the value. -/
def extend (c : Context) (j : Json) : Nat → Except String Context
  | 0 => .ok c
  | bound + 1 =>
    match j with
    | .null => .ok {}
    | .list items => items.foldlM (fun c item => c.extend item bound) c
    | .object _ => c.extendWith j
    | .text _ => .error "loading remote context failed"
    | _ => .error "invalid local context"

end Context

end RdfMapping.Rdf.JsonLd
