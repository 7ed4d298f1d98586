/-
# Configuration texts

A configuration as a text: a mapping with the sections `output` and `watch`, a base and the
prefixes.

Keys that are not known are passed over, and so are null values.
-/
import RdfMapping.Configuration.Basic
import RdfMapping.Yaml.Document
import RdfMapping.Yaml.Layout

namespace RdfMapping

open Yaml (Fault Layout Node PlainSort Row Style)

/-! ## Errors -/

/-- A value of the wrong type, or a key that stands twice. -/
inductive Mismatch where
  | wrongType (line : Nat) (tag : String) (text : Option String) (wanted : String)
  | repeatedKey (line : Nat) (key : String) (first : Nat)
deriving DecidableEq, Repr

/-- The first characters of a text of more than ten bytes, if cut. -/
def shortened (text : String) : String :=
  if text.utf8ByteSize ≤ 10 then text else .ofList (cut 7 text.toList) ++ "..."
where
  /-- The characters in the first `n` bytes. -/
  cut (n : Nat) : List Char → List Char
    | [] => []
    | c :: rest =>
      if c.utf8Size ≤ n then c :: cut (n - c.utf8Size) rest else List.replicate n '\ufffd'

/-- The wording of a mismatch. -/
def Mismatch.message : Mismatch → String
  | wrongType line tag text wanted =>
    "line " ++ toString line ++ ": cannot unmarshal " ++ tag ++
      (match text with
        | some text => " `" ++ shortened text ++ "`"
        | none => "") ++ " into " ++ wanted
  | repeatedKey line key first =>
    "line " ++ toString line ++ ": mapping key " ++ Text.quote key ++ " already defined at line " ++
      toString first

/-- Why a text is no configuration. -/
inductive ConfigurationFault where
  /-- It cannot be read at all. -/
  | unreadable (fault : Fault)
  /-- Values have the wrong type. -/
  | mismatches (all : List Mismatch)
  /-- The prefixes are no mapping. -/
  | prefixes (line : Nat)
  /-- A prefix has something else than a namespace. -/
  | namespaceOf (line : Nat) (label : String)
deriving DecidableEq, Repr

/-- The wording of a fault. -/
def ConfigurationFault.message : ConfigurationFault → String
  | unreadable fault => "yaml: " ++ fault.message
  | mismatches all => "yaml: unmarshal errors:\n  " ++ Text.join "\n  " (all.map (·.message))
  | prefixes line => "line " ++ toString line ++ ": prefixes must be a mapping"
  | namespaceOf line label =>
    "line " ++ toString line ++ ": prefix " ++ Text.quote label ++ " must map to a namespace"

/-! ## Reading -/

namespace Configuration

/-- Reads values, gathering mismatches; some faults end the reading. -/
abbrev Filling := StateT (List Mismatch) (Except ConfigurationFault)

/-- Notes a value of the wrong type. -/
def mismatch (n : Node) (wanted : String) : Filling Unit :=
  let (tag, text) := match n with
    | .scalar info text _ => (info.tag, some text)
    | .sequence _ _ _ => ("!!seq", none)
    | _ => ("!!map", none)
  modify (· ++ [.wrongType n.span.line tag text wanted])

/-- Sets a value that is a text. -/
def fillText (n : Node) (old : String) : Filling String := do
  match n.target with
  | .scalar _ text isNull => return if isNull then old else text
  | n =>
    mismatch n "string"
    return old

/-- Words for truth values, besides those that stand for them without quotes. -/
def truthWords : List (String × Bool) :=
  ["y", "Y", "yes", "on"].map (·, true) ++ ["n", "N", "no", "off"].map (·, false)

/-- Sets a truth value. -/
def fillTruth (n : Node) (old : Bool) : Filling Bool := do
  match n.target with
  | .scalar info text isNull =>
    let value :=
      if isNull then some old
      else if info.tag = "!!str" then truthWords.lookup text
      else match PlainSort.of text with
        | .boolean value => some value
        | _ => none
    match value with
    | some value => return value
    | none =>
      mismatch n.target "bool"
      return old
  | n =>
    mismatch n "bool"
    return old

/-- Sets a span of time. -/
def fillDuration (n : Node) (old : Duration) : Filling Duration := do
  match n.target with
  | .scalar info text isNull =>
    let value :=
      if isNull then some old
      else if info.tag = "!!str" then Duration.parse? text
      else none
    match value with
    | some value => return value
    | none =>
      mismatch n.target "time.Duration"
      return old
  | n =>
    mismatch n "time.Duration"
    return old

/-- The labels and namespaces of a mapping. -/
def prefixPairs : List Yaml.Entry → Except ConfigurationFault (List (String × String))
  | [] => .ok []
  | ⟨key, value⟩ :: rest =>
    let label := match key with
      | .scalar _ text _ => text
      | .aliasTo _ name _ => name
      | _ => ""
    match value with
    | .scalar _ text _ => (prefixPairs rest).map ((label, text) :: ·)
    | value => .error (.namespaceOf value.span.line label)

/-- Sets the prefixes. -/
def fillPrefixes (n : Node) (old : List (String × String)) :
    Filling (List (String × String)) :=
  match n.target with
  | .mapping _ _ entries => StateT.lift (prefixPairs entries)
  | n => if n.isNull then return old else throw (.prefixes n.span.line)

/-- The keys that stand twice. -/
def repeatedKeys : List Yaml.Entry → List Mismatch
  | [] => []
  | ⟨key, _⟩ :: rest =>
    (rest.filter fun e => sameKey key e.key).map
        (fun e => .repeatedKey e.key.span.line (keyText e.key) key.span.line) ++
      repeatedKeys rest
where
  /-- The text of a key as it is written. -/
  keyText : Node → String
    | .scalar _ text _ => text
    | .aliasTo _ name _ => name
    | _ => ""
  /-- Whether two keys are of the same sort and have the same text. -/
  sameKey : Node → Node → Bool
    | .scalar _ a _, .scalar _ b _ => a == b
    | .aliasTo _ a _, .aliasTo _ b _ => a == b
    | .sequence _ _ _, .sequence _ _ _ => true
    | .mapping _ _ _, .mapping _ _ _ => true
    | _, _ => false

/-- Sets the values of a section, whose keys are given with what they set. -/
def fillSection {σ : Type} (wanted : String) (keys : List (String × (Node → σ → Filling σ)))
    (n : Node) (old : σ) : Filling σ := do
  match n.target with
  | .mapping _ _ entries =>
    match repeatedKeys entries with
    | [] => entries.foldlM fillEntry old
    | repeated =>
      modify (· ++ repeated)
      return old
  | n =>
    if n.isNull then return old
    else
      mismatch n wanted
      return old
where
  /-- Sets the value of one key. -/
  fillEntry (old : σ) (e : Yaml.Entry) : Filling σ := do
    match e.key.target with
    | .scalar _ text isNull =>
      match if isNull then none else keys.lookup text with
      | some fill => fill e.value old
      | none => return old
    | key =>
      mismatch key "string"
      return old

/-- The keys of the section `output`. -/
def outputKeys : List (String × (Node → Configuration → Filling Configuration)) :=
  [("format", fun n c => (fun target => { c with target }) <$> fillText n c.target),
    ("syntax", fun n c => (fun rdfFormat => { c with rdfFormat }) <$> fillText n c.rdfFormat),
    ("preserve_dialect", fun n c =>
      (fun keepDialect => { c with keepDialect }) <$> fillTruth n c.keepDialect)]

/-- The keys of the section `watch`. -/
def watchKeys : List (String × (Node → Configuration → Filling Configuration)) :=
  [("debounce", fun n c => (fun debounce => { c with debounce }) <$> fillDuration n c.debounce)]

/-- The keys of a configuration. -/
def topKeys : List (String × (Node → Configuration → Filling Configuration)) :=
  [("output", fillSection "config.OutputConfig" outputKeys),
    ("base", fun n c => (fun base => { c with base }) <$> fillText n c.base),
    ("prefixes", fun n c => (fun prefixes => { c with prefixes }) <$> fillPrefixes n c.prefixes),
    ("watch", fillSection "config.WatchConfig" watchKeys)]

/-- The values of a text over the default ones. -/
def ofText (text : String) : Except ConfigurationFault Configuration := do
  let root ← (Node.read text).mapError .unreadable
  match root.body? with
  | none => return default
  | some body =>
    let (c, mismatches) ← (fillSection "config.Config" topKeys body default).run []
    if mismatches.isEmpty then return c else throw (.mismatches mismatches)

/-! ## Writing -/

/-- Whether a text looks like a number of minutes and seconds. -/
def isSexagesimal (s : List Char) : Bool :=
  let unsigned := match s with
    | '-' :: rest | '+' :: rest => rest
    | _ => s
  match Chars.splitAll ':' unsigned with
  | first :: part :: parts =>
    let parts := part :: parts
    let lastPart := (parts.getLastD []).takeWhile (· ≠ '.')
    let fraction := (parts.getLastD []).drop (lastPart.length + 1)
    first.head?.any Char.isDigit && first.all (fun c => c.isDigit || c = '_') &&
      (parts.dropLast ++ [lastPart]).all isSixty &&
      fraction.all fun c => c.isDigit || c = '_'
  | _ => false
where
  /-- Whether digits make a number below sixty. -/
  isSixty : List Char → Bool
    | [d] => d.isDigit
    | [d, e] => '0' ≤ d && d ≤ '5' && e.isDigit
    | _ => false

/-- Words that could be taken for truth values. -/
def truthLike : List String :=
  ["y", "Y", "yes", "Yes", "YES", "on", "On", "ON", "n", "N", "no", "No", "NO", "off", "Off", "OFF"]

/-- The layout of a text: between quotes if it could be read as something else. -/
def textLayout (text : String) : Layout :=
  let mistakable := truthLike.contains text || isSexagesimal text.toList
  .scalar (if Layout.textStyle text = .plain && mistakable then .double else Layout.textStyle text)
    text

/-- The layout of a scalar of any sort. -/
def bareLayout (text : String) : Layout :=
  .scalar (if Text.hasChar '\n' text then .literal else .plain) text

/-- A key and its value. -/
def row (key : String) (value : Layout) : Row := ⟨.scalar .plain key, value⟩

/-- The layout of a configuration. -/
def layout (c : Configuration) : Layout :=
  .table false
    [row "output" (.table false
        [row "format" (textLayout c.target), row "syntax" (textLayout c.rdfFormat),
          row "preserve_dialect" (.scalar .plain (if c.keepDialect then "true" else "false"))]),
      row "base" (textLayout c.base),
      row "prefixes" (.table false
        (c.prefixes.map fun (label, ns) => ⟨bareLayout label, bareLayout ns⟩)),
      row "watch" (.table false [row "debounce" (textLayout c.debounce.render)])]

/-- The text of a configuration, with four columns for each level. -/
def render (c : Configuration) : String :=
  c.layout.render 4

end Configuration

end RdfMapping
