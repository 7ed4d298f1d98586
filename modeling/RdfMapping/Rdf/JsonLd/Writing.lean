/-
# JSON-LD texts

Node objects as JSON.  With a table of prefixes, names are abbreviated and the table is the
context; without one, everything is spelled out.
-/
import RdfMapping.Json.Basic
import RdfMapping.Rdf.JsonLd.NodeObject

namespace RdfMapping.Rdf.JsonLd

open Iri (PrefixTable)

/-! ## Names -/

/-- Whether a text is an IRI with a scheme, or the name of a blank node. -/
def isAbsolute (iri : String) : Bool :=
  Text.startsWith "_:" iri ||
    match iri.toList with
    | c :: rest =>
      c.isAlpha &&
        (rest.dropWhile fun c => c.isAlphanum || c = '+' || c = '-' || c = '.').head? = some ':'
    | [] => false

/-- Why quads cannot be written. -/
inductive WriteFault where
  /-- A namespace is not an IRI. -/
  | relativeNamespace
  /-- An IRI could be taken for an abbreviated one. -/
  | confusable (iri label : String)
deriving DecidableEq, Repr

/-- The wording of a fault. -/
def WriteFault.message : WriteFault → String
  | relativeNamespace =>
    "invalid IRI mapping: resulting IRI mapping should be a keyword, absolute IRI or blank node"
  | confusable iri label =>
    "IRI confused with prefix: Absolute IRI " ++ iri ++ " confused with prefix " ++ label

/-- Whether a namespace can be continued by a name. -/
def isOpenEnded (ns : String) : Bool :=
  (ns.toList.getLast?).any [':', '/', '?', '#', '[', ']', '@'].contains

/-- The shorter of two texts, and of two equally short ones the smaller. -/
def shorter (a b : String) : Bool :=
  a.utf8ByteSize < b.utf8ByteSize || a.utf8ByteSize = b.utf8ByteSize && a < b

/-- The shortest of some texts. -/
def shortest? (texts : List String) : Option String :=
  texts.foldl
    (fun best t =>
      match best with
      | some b => if shorter t b then some t else some b
      | none => some t)
    none

/-- How names and values are written. -/
inductive Spelling where
  /-- Everything is spelled out. -/
  | full
  /-- Names are abbreviated by namespaces. -/
  | compact (namespaces : List (String × String))

namespace Spelling

/-- An abbreviation of an IRI by a namespace that it continues. -/
def abbreviate? (namespaces : List (String × String)) (iri : String) : Option String :=
  shortest? (namespaces.filterMap fun (label, ns) =>
    if iri ≠ ns && isOpenEnded ns then
      (Text.stripStart? ns iri).bind fun rest =>
        let short := label ++ ":" ++ rest
        if (namespaces.lookup short).isSome then none else some short
    else none)

/-- The name of a node. -/
def nodeName : Spelling → String → Except WriteFault String
  | full, iri => .ok iri
  | compact namespaces, iri =>
    match abbreviate? namespaces iri with
    | some short => .ok short
    | none =>
      match namespaces.find? fun (label, ns) =>
          isOpenEnded ns && Text.startsWith (label ++ ":") iri with
      | some (label, _) => .error (.confusable iri label)
      | none => .ok iri

/-- The name of a class, a property or a datatype; it may be the label of a namespace. -/
def word : Spelling → String → Except WriteFault String
  | full, iri => .ok iri
  | compact namespaces, iri =>
    match shortest? ((namespaces.filter (·.2 = iri)).map (·.1)) with
    | some label => .ok label
    | none => nodeName (compact namespaces) iri

/-- Several values; a single one needs no list if names are abbreviated. -/
def several : Spelling → List Json → Json
  | compact _, [item] => item
  | _, items => .list items

end Spelling

/-! ## Values -/

/-- A value that is no list. -/
def itemJson (sp : Spelling) : Item → Except WriteFault Json
  | .ref id => return .object [("@id", .text (← sp.nodeName id))]
  | .value text .plain =>
    match sp with
    | .full => return .object [("@value", .text text)]
    | .compact _ => return .text text
  | .value text (.language code) =>
    return .object [("@language", .text code), ("@value", .text text)]
  | .value text (.datatype type) =>
    return .object [("@type", .text (← sp.word type)), ("@value", .text text)]

/-- A value with its lists in place of their names; `bound` is the number of lists. -/
def listedJson (sp : Spelling) (lists : List (String × List Item)) :
    Nat → Item → Except WriteFault Json
  | 0, item => itemJson sp item
  | bound + 1, item =>
    match item.ref?.bind (lists.lookup ·) with
    | some elements => do
      return .object [("@list", .list (← elements.mapM (listedJson sp lists bound)))]
    | none => itemJson sp item

/-! ## Nodes -/

/-- The fields of a node. -/
def nodeFields (sp : Spelling) (lists : List (String × List Item)) (n : NodeObject) :
    Except WriteFault (List (String × Json)) := do
  let id ← sp.nodeName n.id
  let types ← n.types.mapM sp.word
  let properties ← n.properties.mapM fun (property, items) => do
    return (← sp.word property,
      sp.several (← items.mapM (listedJson sp lists (lists.length + 1))))
  return ("@id", .text id) ::
    (if types.isEmpty then [] else [("@type", sp.several (types.map .text))]) ++ properties

/-- The nodes of a graph that are shown: not those of lists, nor those without statements. -/
def shownNodes (g : Graph) (listNodes : List String) : List NodeObject :=
  ((g.filter fun n => !listNodes.contains n.id).mergeSort fun a b => Json.nameLe a.id b.id)

/-- The objects of a named graph. -/
def graphJson (sp : Spelling) (uses : List Usage) (own : List Usage) (g : Graph) :
    Except WriteFault Json := do
  let (lists, listNodes) := g.lists own uses
  let nodes := (shownNodes g listNodes).filter (!·.isBare)
  return .list (← nodes.mapM fun n => do
    return .object (Json.sortedFields (← nodeFields sp lists n)))

/-- The objects of quads. -/
def nodesJson (sp : Spelling) (qs : List Quad) : Except WriteFault (List Json) := do
  let gathered := Gathered.ofQuads qs
  let uses := usages qs
  let (lists, listNodes) :=
    gathered.unnamed.lists (usages (qs.filter (graphName? · = none))) uses
  let nodes := (shownNodes gathered.unnamed listNodes).filter fun n =>
    !n.isBare || (gathered.named.lookup n.id).isSome
  nodes.mapM fun n => do
    let fields ← nodeFields sp lists n
    match gathered.named.lookup n.id with
    | none => return .object (Json.sortedFields fields)
    | some g =>
      let own := usages (qs.filter (graphName? · = some n.id))
      return .object (Json.sortedFields (fields ++ [("@graph", ← graphJson sp uses own g)]))

/-! ## Texts -/

/-- The IRI of a namespace, which may itself be abbreviated. -/
def namespaceIri (namespaces : List (String × String)) (ns : String) : Nat → String
  | 0 => ns
  | bound + 1 =>
    match Text.cutFirst? ':' ns with
    | some (label, rest) =>
      if Text.startsWith "//" rest then ns
      else match namespaces.lookup label with
        | some outer => namespaceIri namespaces outer bound ++ rest
        | none => ns
    | none => ns

/-- The object of quads with a context of namespaces. -/
def compactJson (namespaces : List (String × String)) (qs : List Quad) :
    Except WriteFault Json := do
  let resolved := namespaces.map fun (label, ns) =>
    (label, namespaceIri namespaces ns namespaces.length)
  if resolved.any fun (_, ns) => !isAbsolute ns then throw .relativeNamespace
  let context := Json.object
    (Json.sortedFields (namespaces.map fun (label, ns) => (label, .text ns)))
  match ← nodesJson (.compact resolved) qs with
  | [] => return .object [("@context", context)]
  | [.object fields] => return .object (Json.sortedFields (("@context", context) :: fields))
  | nodes => return .object [("@context", context), ("@graph", .list nodes)]

/-- The text of quads.  The empty label is no name in a context. -/
def render (table : PrefixTable) (qs : List Quad) : Except WriteFault String := do
  match table.bindings.filter (·.1 ≠ "") with
  | [] => return (Json.list (← nodesJson .full qs)).render
  | namespaces => return (← compactJson namespaces qs).render

end RdfMapping.Rdf.JsonLd
