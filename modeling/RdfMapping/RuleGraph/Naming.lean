/-
# Names of triples maps

The identifiers of triples maps that are read from triples.  An IRI under the base gives its
rest and a label its own text, if that is a valid identifier; the other maps are numbered.
-/
import RdfMapping.Mapping.Document
import RdfMapping.Rdf.Term

namespace RdfMapping.RuleGraph

open Mapping (isValidId)
open Rdf (Term)

/-! ## The base -/

/-- Characters that end a namespace. -/
def endsNamespace (c : Char) : Bool :=
  c = '#' || c = '/'

/-- The part of an IRI after its last number sign or slash, in characters. -/
def localChars (iri : List Char) : List Char :=
  (iri.reverse.takeWhile fun c => !endsNamespace c).reverse

/-- The part of an IRI up to its last number sign or slash, in characters. -/
def namespaceChars (iri : List Char) : List Char :=
  (iri.reverse.dropWhile fun c => !endsNamespace c).reverse

/-- Both parts make up the IRI. -/
theorem namespaceChars_append_localChars (iri : List Char) :
    namespaceChars iri ++ localChars iri = iri := by
  rw [namespaceChars, localChars, ← List.reverse_append, List.takeWhile_append_dropWhile,
    List.reverse_reverse]

/-- The common beginning of two texts. -/
def commonStart : List Char → List Char → List Char
  | a :: as, b :: bs => if a = b then a :: commonStart as bs else []
  | _, _ => []

/-- The namespace shared by some IRIs. -/
def sharedNamespace : List (List Char) → List Char
  | [] => []
  | iri :: rest =>
    rest.foldl (fun base other => namespaceChars (commonStart base (namespaceChars other)))
      (namespaceChars iri)

/-- What follows the first `://` in a text. -/
def afterScheme? : List Char → Option (List Char)
  | [] => none
  | c :: rest =>
    match Chars.stripStart? "://".toList (c :: rest) with
    | some after => some after
    | none => afterScheme? rest

/-- Whether a text goes beyond the scheme of an IRI. -/
def hasAuthority (base : List Char) : Bool :=
  match afterScheme? base with
  | some (c :: _) => c ≠ '/'
  | _ => false

/-- The longest namespace shared by all nodes that are IRIs, if it has an authority. -/
def inferBase? (nodes : List Term) : Option String :=
  let base := sharedNamespace ((nodes.filterMap Term.iri?).map String.toList)
  if hasAuthority base then some (.ofList base) else none

/-! ## Identifiers -/

/-- The beginnings of labels that tools make up. -/
def syntheticStarts : List String := ["b", "n", "g", "genid", "node", "blank"]

/-- Whether a text is a number, perhaps after a hyphen or an underscore. -/
def isNumbering (s : List Char) : Bool :=
  let digits := match s with
    | c :: rest => if c = '-' || c = '_' then rest else s
    | [] => []
  !digits.isEmpty && digits.all Char.isDigit

/-- Digits of hexadecimal numbers in small letters. -/
def isSmallHex (c : Char) : Bool :=
  c.isDigit || ('a' ≤ c && c ≤ 'f')

/-- Whether a label of a blank node looks made up by a tool. -/
def isSynthetic (label : String) : Bool :=
  (syntheticStarts.any fun start =>
    match Chars.stripStart? start.toList label.toList with
    | some rest => isNumbering rest
    | none => false) ||
  (8 ≤ label.toList.length && label.toList.all isSmallHex)

/-- The part of a node that could be an identifier. -/
def localName (base : String) : Term → String
  | .iri value =>
    match if base = "" then none else Text.stripStart? base value with
    | some rest => rest
    | none => .ofList (localChars value.toList)
  | .blank label => if isSynthetic label then "" else label
  | _ => ""

/-- The identifier a node suggests. -/
def readableId? (base : String) (n : Term) : Option String :=
  let id := localName base n
  if isValidId id then some id else none

/-- The suggested identifiers of nodes, each given to the first node that suggests it. -/
def readableIds (base : String) (taken : List String) : List Term → List (Option String)
  | [] => []
  | n :: rest =>
    match readableId? base n with
    | some id =>
      if taken.contains id then none :: readableIds base taken rest
      else some id :: readableIds base (id :: taken) rest
    | none => none :: readableIds base taken rest

/-- The identifier with a number. -/
def numberedId (n : Nat) : String := "map_" ++ toString n

/-- The first number from `n` on whose identifier is not taken. -/
def freeNumber (taken : List String) (n : Nat) : Nat :=
  ((List.range' n (taken.length + 1)).find? fun i => !taken.contains (numberedId i)).getD n

/-- Numbers the nodes without an identifier; `n` is the number of the first node. -/
def numberRest (taken : List String) (n : Nat) : List (Option String) → List String
  | [] => []
  | some id :: rest => id :: numberRest taken (n + 1) rest
  | none :: rest =>
    let id := numberedId (freeNumber taken n)
    id :: numberRest (id :: taken) (n + 1) rest

/-- An identifier for each node. -/
def assignIds (base : String) (nodes : List Term) : List String :=
  let readable := readableIds base [] nodes
  numberRest (readable.filterMap id) 1 readable

end RdfMapping.RuleGraph
