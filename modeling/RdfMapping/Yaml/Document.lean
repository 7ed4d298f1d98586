/-
# Documents from texts

The tree of the first document of a text, built from its tokens.

A node holds fewer tokens than there are in the text, so their number bounds the depth of the
reading.
-/
import RdfMapping.Yaml.Node
import RdfMapping.Yaml.Token

namespace RdfMapping.Yaml

/-! ## Reading tokens -/

/-- What is known while the tokens of a document are read. -/
structure Composition where
  tokens : Tokens
  /-- The anchored nodes, from the last; one that is still open is not there yet. -/
  anchors : List (String × Option Node) := []
  /-- The handles of tags. -/
  handles : List (String × String) := []

/-- Reads tokens one by one. -/
abbrev Composing := StateT Composition (Except Fault)

/-- The next token. -/
def peekToken : Composing Token := do
  let tokens := (← get).tokens
  match tokens.tokens, tokens.fault with
  | t :: _, _ => return t
  | [], some fault => throw fault
  | [], none => throw ⟨none, "unknown problem parsing YAML content"⟩

/-- Goes past the next token. -/
def skipToken : Composing Unit :=
  modify fun s => { s with tokens := { s.tokens with tokens := s.tokens.tokens.tail } }

/-! ## Tags and anchors -/

/-- The start of the names of the common tags. -/
def commonTags : String := "tag:yaml.org,2002:"

/-- A tag in short. -/
def shortTag (tag : String) : String :=
  match Text.stripStart? commonTags tag with
  | some name => "!!" ++ name
  | none => tag

/-- The tag of a scalar by its own tag, its style and its text. -/
def scalarTag (tag : String) (plain : Bool) (text : String) : String :=
  if tag ≠ "" && tag ≠ "!" then shortTag tag
  else if !plain then "!!str"
  else if text = "<<" then "!!merge"
  else (PlainSort.of text).tag

/-- What stands before the content of a node. -/
structure Properties where
  start : Mark
  anchor : Option String := none
  tag : String := ""

/-- The node of a scalar. -/
def Properties.scalar (p : Properties) (text : String) (plain : Bool) : Node :=
  let tag := scalarTag p.tag plain text
  .scalar ⟨p.start.span, p.anchor, tag⟩ text (tag = "!!null")

/-- The position and the anchor of a node that holds others. -/
def Properties.info (p : Properties) : Info := { span := p.start.span, anchor := p.anchor }

/-- The scalar that stands where nothing is written. -/
def emptyScalar (mark : Mark) : Node :=
  Properties.scalar { start := mark } "" true

/-- The meaning of a tag by its handle. -/
def resolveTag (start mark : Mark) (handle suffix : String) : Composing String := do
  if handle = "" then return suffix
  else match (← get).handles.lookup handle with
    | some namespc => return namespc ++ suffix
    | none => throw (.ofParts start mark "found undefined tag handle")

/-- Reads an anchor and a tag, in either order. -/
def readProperties : Composing Properties := do
  let first ← peekToken
  match first.kind with
  | .anchor name =>
    skipToken
    let second ← peekToken
    match second.kind with
    | .tag handle suffix =>
      skipToken
      let _ ← peekToken
      return ⟨first.start, some name, ← resolveTag first.start second.start handle suffix⟩
    | _ => return ⟨first.start, some name, ""⟩
  | .tag handle suffix =>
    skipToken
    let second ← peekToken
    match second.kind with
    | .anchor name =>
      skipToken
      let _ ← peekToken
      return ⟨first.start, some name, ← resolveTag first.start first.start handle suffix⟩
    | _ => return ⟨first.start, none, ← resolveTag first.start first.start handle suffix⟩
  | _ => return { start := first.start }

/-- Remembers an anchored node. -/
def remember (anchor : Option String) (node : Option Node) : Composing Unit :=
  match anchor with
  | some name => modify fun s => { s with anchors := (name, node) :: s.anchors }
  | none => return ()

/-- Reads a node that holds others.  Its anchor is known inside it, too. -/
def anchored (anchor : Option String) (reading : Composing Node) : Composing Node := do
  remember anchor none
  let node ← reading
  let anchors := (← get).anchors
  match anchor.bind (anchors.lookup ·) with
  | some none =>
    remember anchor (some node)
    return node
  | _ => return node

/-- The node of an alias. -/
def composeAlias (start : Mark) (name : String) : Composing Node := do
  match (← get).anchors.lookup name with
  | some node => return .aliasTo { span := start.span } name (node.getD (.blank {}))
  | none => throw ⟨none, "unknown anchor '" ++ name ++ "' referenced"⟩

/-! ## Nodes -/

/-- The bound on the depth is not reached. -/
def tooDeep {α : Type} : Composing α :=
  throw ⟨none, "exceeded max depth"⟩

mutual

/-- Reads a node; blocks only outside brackets, and after a key a list need not be indented. -/
def composeNode (block indentless : Bool) : Nat → Composing Node
  | 0 => tooDeep
  | bound + 1 => do
    let first ← peekToken
    match first.kind with
    | .aliasTo name =>
      skipToken
      composeAlias first.start name
    | _ =>
      let p ← readProperties
      let t ← peekToken
      match t.kind with
      | .scalar text plain =>
        skipToken
        let node := p.scalar text plain
        remember p.anchor (some node)
        return node
      | .flowSequenceStart =>
        skipToken
        anchored p.anchor ((Node.sequence p.info true ·) <$> composeFlowItems t.start true bound)
      | .flowMappingStart =>
        skipToken
        anchored p.anchor ((Node.mapping p.info true ·) <$> composeFlowEntries t.start true bound)
      | kind =>
        if indentless && kind = .blockEntry then
          anchored p.anchor ((Node.sequence p.info false ·) <$> composeIndentlessItems bound)
        else if block && kind = .sequenceStart then
          skipToken
          anchored p.anchor ((Node.sequence p.info false ·) <$> composeBlockItems t.start bound)
        else if block && kind = .mappingStart then
          skipToken
          anchored p.anchor ((Node.mapping p.info false ·) <$> composeBlockEntries t.start bound)
        else if p.anchor.isSome || p.tag ≠ "" then
          let node := p.scalar "" true
          remember p.anchor (some node)
          return node
        else throw (.ofParts p.start t.start "did not find expected node content")

/-- Reads the elements of an indented list. -/
def composeBlockItems (start : Mark) : Nat → Composing (List Node)
  | 0 => tooDeep
  | bound + 1 => do
    let t ← peekToken
    match t.kind with
    | .blockEntry =>
      skipToken
      let next := (← peekToken).kind
      let item ←
        if next = .blockEntry || next = .blockEnd then pure (emptyScalar t.stop)
        else composeNode true false bound
      return item :: (← composeBlockItems start bound)
    | .blockEnd =>
      skipToken
      return []
    | _ => throw (.ofParts start t.start "did not find expected '-' indicator")

/-- Reads the elements of a list that is not indented. -/
def composeIndentlessItems : Nat → Composing (List Node)
  | 0 => tooDeep
  | bound + 1 => do
    let t ← peekToken
    match t.kind with
    | .blockEntry =>
      skipToken
      let next := (← peekToken).kind
      let item ←
        if next = .blockEntry || next = .key || next = .value || next = .blockEnd then
          pure (emptyScalar t.stop)
        else composeNode true false bound
      return item :: (← composeIndentlessItems bound)
    | _ => return []

/-- Reads the entries of an indented mapping. -/
def composeBlockEntries (start : Mark) : Nat → Composing (List Entry)
  | 0 => tooDeep
  | bound + 1 => do
    let t ← peekToken
    match t.kind with
    | .key =>
      skipToken
      let key ← composeBlockPart t.stop bound
      let value ← composeBlockValue bound
      return ⟨key, value⟩ :: (← composeBlockEntries start bound)
    | .blockEnd =>
      skipToken
      return []
    | _ => throw (.ofParts start t.start "did not find expected key")

/-- Reads the value of a key in an indented mapping. -/
def composeBlockValue : Nat → Composing Node
  | 0 => tooDeep
  | bound + 1 => do
    let t ← peekToken
    if t.kind = .value then
      skipToken
      composeBlockPart t.stop bound
    else return emptyScalar t.start

/-- Reads a key or a value of an indented mapping after its sign. -/
def composeBlockPart (after : Mark) : Nat → Composing Node
  | 0 => tooDeep
  | bound + 1 => do
    let next := (← peekToken).kind
    if next = .key || next = .value || next = .blockEnd then return emptyScalar after
    else composeNode true true bound

/-- Reads the elements of a list between brackets. -/
def composeFlowItems (start : Mark) (first : Bool) : Nat → Composing (List Node)
  | 0 => tooDeep
  | bound + 1 => do
    let t ← peekToken
    if t.kind = .flowSequenceEnd then
      skipToken
      return []
    else if !first && t.kind ≠ .flowEntry then
      throw (.ofParts start t.start "did not find expected ',' or ']'")
    else
      if !first then skipToken
      let t ← peekToken
      match t.kind with
      | .flowSequenceEnd =>
        skipToken
        return []
      | .key =>
        skipToken
        let pair ← composeFlowPair t.start bound
        return pair :: (← composeFlowItems start false bound)
      | _ =>
        let item ← composeNode false false bound
        return item :: (← composeFlowItems start false bound)

/-- Reads a mapping of one entry, without brackets, in a list between brackets. -/
def composeFlowPair (start : Mark) : Nat → Composing Node
  | 0 => tooDeep
  | bound + 1 => do
    let t ← peekToken
    let ends (kind : TokenKind) : Bool := kind = .flowEntry || kind = .flowSequenceEnd
    let key ←
      if t.kind = .value || ends t.kind then
        skipToken
        pure (emptyScalar t.stop)
      else composeNode false false bound
    let t ← peekToken
    if t.kind = .value then skipToken
    let next ← peekToken
    let value ←
      if t.kind ≠ .value || ends next.kind then pure (emptyScalar next.start)
      else composeNode false false bound
    return .mapping { span := start.span } true [⟨key, value⟩]

/-- Reads the entries of a mapping between brackets. -/
def composeFlowEntries (start : Mark) (first : Bool) : Nat → Composing (List Entry)
  | 0 => tooDeep
  | bound + 1 => do
    let t ← peekToken
    if t.kind = .flowMappingEnd then
      skipToken
      return []
    else if !first && t.kind ≠ .flowEntry then
      throw (.ofParts start t.start "did not find expected ',' or '\x7d'")
    else
      if !first then skipToken
      let t ← peekToken
      match t.kind with
      | .flowMappingEnd =>
        skipToken
        return []
      | .key =>
        skipToken
        let t ← peekToken
        let key ←
          if t.kind = .value || t.kind = .flowEntry || t.kind = .flowMappingEnd then
            pure (emptyScalar t.start)
          else composeNode false false bound
        let value ← composeFlowValue bound
        return ⟨key, value⟩ :: (← composeFlowEntries start false bound)
      | _ =>
        let key ← composeNode false false bound
        let value := emptyScalar (← peekToken).start
        return ⟨key, value⟩ :: (← composeFlowEntries start false bound)

/-- Reads the value of a key in a mapping between brackets. -/
def composeFlowValue : Nat → Composing Node
  | 0 => tooDeep
  | bound + 1 => do
    let t ← peekToken
    if t.kind ≠ .value then return emptyScalar t.start
    else
      skipToken
      let next ← peekToken
      if next.kind = .flowEntry || next.kind = .flowMappingEnd then return emptyScalar next.start
      else composeNode false false bound

end

/-! ## Documents -/

/-- The handles that need not be declared. -/
def commonHandles : List (String × String) := [("!", "!"), ("!!", commonTags)]

/-- Reads the directives before a document: whether a version was given, and the handles. -/
def readDirectives (version : Bool) (handles : List (String × String)) : Nat → Composing Unit
  | 0 => tooDeep
  | bound + 1 => do
    let t ← peekToken
    match t.kind with
    | .versionDirective major minor =>
      if version then throw (.ofParts {} t.start "found duplicate %YAML directive")
      else if major ≠ 1 || minor ≠ 1 then
        throw (.ofParts {} t.start "found incompatible YAML document")
      else
        skipToken
        readDirectives true handles bound
    | .tagDirective handle namespc =>
      if (handles.lookup handle).isSome then
        throw (.ofParts {} t.start "found duplicate %TAG directive")
      else
        skipToken
        readDirectives version ((handle, namespc) :: handles) bound
    | _ => modify fun s => { s with handles := handles ++ commonHandles }

/-- Reads the first document; a text without one gives an empty node. -/
def composeDocument (bound : Nat) : Composing Node := do
  let first ← peekToken
  match first.kind with
  | .streamEnd => return .blank {}
  | .versionDirective _ _ | .tagDirective _ _ | .documentStart =>
    readDirectives false [] bound
    let t ← peekToken
    if t.kind ≠ .documentStart then
      throw (.ofParts {} t.start "did not find expected <document start>")
    else
      skipToken
      let next ← peekToken
      match next.kind with
      | .versionDirective _ _ | .tagDirective _ _ | .documentStart | .documentEnd | .streamEnd =>
        finish first.start (emptyScalar next.start)
      | _ => finish first.start (← composeNode true false bound)
  | _ =>
    modify fun s => { s with handles := commonHandles }
    finish first.start (← composeNode true false bound)
where
  /-- The document of a node, once it is clear that nothing else belongs to it. -/
  finish (start : Mark) (content : Node) : Composing Node := do
    let _ ← peekToken
    return .document { span := start.span } [content]

/-- The document of a text. -/
def Node.read (text : String) : Except Fault Node :=
  let tokens := Tokens.ofText text
  (composeDocument (3 * tokens.tokens.length + 3)).run' { tokens }

end RdfMapping.Yaml
