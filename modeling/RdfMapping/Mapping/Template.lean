/-
# Templates

A template is a text with references to fields in braces.  A backslash before a brace or
another backslash makes that character plain text.

A pattern is read in two steps.  `marks` finds the braces that are not escaped, and
`segments` splits the text between them; `parse` is both.  `build` writes segments back.
-/
import RdfMapping.Text.Quoted

namespace RdfMapping.Mapping

/-! ## Segments -/

/-- A piece of a template: plain text, or the name of a field. -/
inductive Segment where
  | text (content : String)
  | reference (name : String)
deriving DecidableEq, Repr

namespace Segment

/-- The name of the field a segment refers to. -/
def reference? : Segment → Option String
  | text _ => none
  | reference name => some name

/-- Whether a segment is a reference. -/
def isReference (s : Segment) : Bool :=
  s.reference?.isSome

/-- What a segment holds. -/
def content : Segment → String
  | text content => content
  | reference name => name

end Segment

/-! ## Errors -/

/-- What can be wrong with a pattern; an offset counts bytes. -/
inductive TemplateFault where
  | nested (offset : Nat)
  | unmatched (offset : Nat)
  | emptyReference (offset : Nat)
  | unclosed
deriving DecidableEq, Repr

/-- A pattern that is no template. -/
structure TemplateError where
  fault : TemplateFault
  pattern : String
deriving DecidableEq, Repr

/-- The text of the error. -/
def TemplateError.message (e : TemplateError) : String :=
  "invalid template: " ++
    (match e.fault with
      | .nested offset => "nested '\x7b' at offset " ++ toString offset
      | .unmatched offset => "unmatched '\x7d' at offset " ++ toString offset
      | .emptyReference offset => "empty reference at offset " ++ toString offset
      | .unclosed => "unclosed '\x7b'") ++
    " in " ++ Text.quote e.pattern

namespace Template

/-! ## Reading -/

/-- A character of a pattern once escapes are undone, or a brace with its offset. -/
inductive Mark where
  | char (c : Char)
  | opening (offset : Nat)
  | closing (offset : Nat)
deriving DecidableEq, Repr

/-- The characters a backslash makes plain. -/
def isEscapable (c : Char) : Bool :=
  c = '{' || c = '}' || c = '\\'

/-- What a character stands for when no backslash makes it plain. -/
def markOf (offset : Nat) (c : Char) : Mark :=
  if c = '{' then .opening offset else if c = '}' then .closing offset else .char c

/-- The marks of a text that begins at an offset. -/
def marks (offset : Nat) : List Char → List Mark
  | [] => []
  | '\\' :: c :: rest =>
    if isEscapable c then .char c :: marks (offset + 2) rest
    else .char '\\' :: marks (offset + 1) (c :: rest)
  | c :: rest => markOf offset c :: marks (offset + c.utf8Size) rest

/-- Plain text as a segment, unless it is empty. -/
def textSegment (buffer : List Char) : List Segment :=
  if buffer = [] then [] else [.text (.ofList buffer)]

/-- The segments of marks, after `buffer` was read outside or inside a reference. -/
def segments (inside : Bool) (buffer : List Char) : List Mark → Except TemplateFault (List Segment)
  | [] => if inside then .error .unclosed else .ok (textSegment buffer)
  | .char c :: rest => segments inside (buffer ++ [c]) rest
  | .opening offset :: rest =>
    if inside then .error (.nested offset)
    else return textSegment buffer ++ (← segments true [] rest)
  | .closing offset :: rest =>
    if !inside then .error (.unmatched offset)
    else if buffer = [] then .error (.emptyReference offset)
    else return .reference (.ofList buffer) :: (← segments false [] rest)

/-- The segments of a pattern. -/
def parse (pattern : String) : Except TemplateError (List Segment) :=
  (segments false [] (marks 0 pattern.toList)).mapError (⟨·, pattern⟩)

/-- Whether a pattern is a template. -/
def isValid (pattern : String) : Bool :=
  (parse pattern).isOk

/-- The names of the fields in segments, in order. -/
def namesOf (segs : List Segment) : List String :=
  segs.filterMap Segment.reference?

/-- The names of the fields a template uses, in order; none if it is no template. -/
def references (pattern : String) : List String :=
  match parse pattern with
  | .ok segs => namesOf segs
  | .error _ => []

/-! ## Writing -/

/-- Plain text with its braces and backslashes escaped. -/
def escapeChars (s : List Char) : List Char :=
  s.flatMap fun c => if isEscapable c then ['\\', c] else [c]

/-- The text that escapes stand for; a backslash before any other character stays. -/
def unescapeChars : List Char → List Char
  | [] => []
  | '\\' :: c :: rest =>
    if isEscapable c then c :: unescapeChars rest else '\\' :: unescapeChars (c :: rest)
  | c :: rest => c :: unescapeChars rest

/-- Plain text written for a template. -/
def escape (s : String) : String :=
  .ofList (escapeChars s.toList)

/-- The plain text of a piece written for a template. -/
def unescape (s : String) : String :=
  .ofList (unescapeChars s.toList)

/-- One segment as it stands in a pattern. -/
def buildSegment : Segment → String
  | .text content => escape content
  | .reference name => "\x7b" ++ escape name ++ "\x7d"

/-- The pattern of segments. -/
def build (segs : List Segment) : String :=
  String.join (segs.map buildSegment)

end Template

end RdfMapping.Mapping
