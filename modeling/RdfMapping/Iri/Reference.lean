/-
# IRI references

An IRI reference is taken apart into scheme, authority, path, query and fragment, each
component in its percent-encoded form, and resolved against a base as RFC 3986 lays down.
-/
import RdfMapping.Iri.Percent
import RdfMapping.Text.Cut

namespace RdfMapping.Iri

/-- The components of an IRI reference.  An absent component is empty; `emptyQuery` tells
a query that is present and empty, and `rootless` is the rest of a reference whose scheme is
not followed by a slash. -/
structure Reference where
  scheme : List Char := []
  rootless : List Char := []
  user : Option (List Char) := none
  host : List Char := []
  path : List Char := []
  emptyQuery : Bool := false
  query : List Char := []
  fragment : List Char := []
deriving DecidableEq, Repr

namespace Reference

/-! ## Taking a reference apart -/

/-- Characters that no reference holds before its fragment. -/
def isControl (c : Char) : Bool :=
  c.toNat < 0x20 || c.toNat = 0x7F

/-- The scheme before a colon and what follows it; `none` if a colon comes first. -/
def cutScheme? (text : List Char) : Option (List Char × List Char) :=
  let letters := text.takeWhile fun c => Percent.isAlphanumeric c || "+-.".toList.contains c
  match text.drop letters.length, letters with
  | ':' :: _, [] => none
  | ':' :: rest, c :: _ => if c.isAlpha then some (letters, rest) else some ([], text)
  | _, _ => some ([], text)

/-- After a host stands nothing, or a colon and digits. -/
def endsHost : List Char → Bool
  | [] => true
  | c :: digits => c = ':' && digits.all Char.isDigit

/-- A host in brackets may name a zone after an encoded percent sign. -/
def cutZone? : List Char → Option (List Char × List Char)
  | '%' :: '2' :: '5' :: rest => some ([], '%' :: '2' :: '5' :: rest)
  | [] => none
  | c :: rest => (cutZone? rest).map fun (before, zone) => (c :: before, zone)

/-- The bytes of a host and of the number after it. -/
def decodeHost? (text : List Char) : Option (List UInt8) :=
  match text with
  | '[' :: _ => do
    let (inside, after) ← Chars.cutLast? [']'] text
    if !endsHost after then none
    else match cutZone? inside with
      | some (address, zone) =>
        return (← Percent.decode? .host address) ++ (← Percent.decode? .zone zone) ++
          (← Percent.decode? .host (']' :: after))
      | none => Percent.decode? .host text
  | _ =>
    match Chars.cutLast? [':'] text with
    | some (_, digits) => if endsHost (':' :: digits) then Percent.decode? .host text else none
    | none => Percent.decode? .host text

/-- Characters allowed in the user part of an authority. -/
def isUserChar (c : Char) : Bool :=
  Percent.isAlphanumeric c || "-._:~!$&'()*+,;=%@".toList.contains c

/-- The user part written anew: a name, or a name and a password. -/
def normalizeUser? (text : List Char) : Option (List Char) := do
  if !text.all isUserChar then none
  else match Chars.cutFirst? ':' text with
    | none => return Percent.encode .user (← Percent.decode? .user text)
    | some (name, password) =>
      return Percent.encode .user (← Percent.decode? .user name) ++
        ':' :: Percent.encode .user (← Percent.decode? .user password)

/-- The user and the host of an authority, written anew. -/
def parseAuthority? (text : List Char) : Option (Option (List Char) × List Char) :=
  match Chars.cutLast? ['@'] text with
  | none => do return (none, Percent.encode .host (← decodeHost? text))
  | some (user, host) => do
    let host := Percent.encode .host (← decodeHost? host)
    return (some (← normalizeUser? user), host)

/-- A path written anew.  A lone star is shown, unless it is encoded with a small letter. -/
def normalizePath? (text : List Char) : Option (List Char) :=
  if text = ['%', '2', 'A'] then some ['*'] else Percent.normalize? .path text

/-- What stands before the query, the query, and whether it is empty. -/
def cutQuery (text : List Char) : List Char × List Char × Bool :=
  match Chars.cutFirst? '?' text with
  | none => (text, [], false)
  | some (rest, query) => (rest, query, query.isEmpty)

/-- The components of a text without a fragment. -/
def parseBody? (text : List Char) : Option Reference := do
  if text.any isControl then none
  else if text = ['*'] then return { path := ['*'] }
  else
    let (scheme, rest) ← cutScheme? text
    let scheme := scheme.map Char.toLower
    let (rest, query, emptyQuery) := cutQuery rest
    if rest.head? ≠ some '/' && scheme ≠ [] then
      return { scheme, rootless := rest, query, emptyQuery }
    else if rest.head? ≠ some '/' && (rest.takeWhile (· ≠ '/')).contains ':' then none
    else match rest with
      | '/' :: '/' :: authority =>
        if scheme = [] && authority.head? = some '/' then
          return { path := (← normalizePath? rest), query, emptyQuery }
        else
          let (user, host) ← parseAuthority? (authority.takeWhile (· ≠ '/'))
          let path ← normalizePath? (authority.dropWhile (· ≠ '/'))
          return { scheme, user, host, path, query, emptyQuery }
      | _ => return { scheme, path := (← normalizePath? rest), query, emptyQuery }

/-- The components of a text, or nothing if it is no IRI reference. -/
def parse? (text : List Char) : Option Reference :=
  match Chars.cutFirst? '#' text with
  | none => parseBody? text
  | some (body, fragment) => do
    return { ← parseBody? body with fragment := (← Percent.normalize? .fragment fragment) }

/-! ## Resolution -/

/-- One step of the removal of dot segments. -/
def stepSegment : List Char × Bool → List Char → List Char × Bool
  | (written, _), ['.'] => (written, false)
  | (written, first), ['.', '.'] =>
    match Chars.cutLast? ['/'] written with
    | none => ([], true)
    | some (before, _) => (before, first)
  | (written, first), segment =>
    (if first then written ++ segment else written ++ '/' :: segment, false)

/-- A path without its dot segments; it begins with one slash unless it is empty. -/
def removeDotSegments (path : List Char) : List Char :=
  if path = [] then [] else
    let segments := Chars.splitAll '/' path
    let (written, _) := segments.foldl stepSegment ([], true)
    let last := segments.getLastD []
    let closed := if last = ['.'] || last = ['.', '.'] then written ++ ['/'] else written
    if closed.head? = some '/' then closed else '/' :: closed

/-- The path of a reference read against the path of the base. -/
def resolvePath (base path : List Char) : List Char :=
  removeDotSegments <|
    if path = [] then base
    else if path.head? = some '/' then path
    else match Chars.cutLast? ['/'] base with
      | none => path
      | some (before, _) => before ++ '/' :: path

/-- A reference without a scheme, read against a base. -/
def resolve (base ref : Reference) : Reference :=
  if ref.host ≠ [] || ref.user.isSome then
    { ref with scheme := base.scheme, path := removeDotSegments ref.path }
  else
    let same := ref.path = [] && !ref.emptyQuery && ref.query = []
    let query := if same then base.query else ref.query
    let fragment := if same && ref.fragment = [] then base.fragment else ref.fragment
    if ref.path = [] && base.rootless ≠ [] then
      { scheme := base.scheme, rootless := base.rootless, emptyQuery := ref.emptyQuery,
        query, fragment }
    else
      { scheme := base.scheme, user := base.user, host := base.host,
        path := resolvePath base.path ref.path, emptyQuery := ref.emptyQuery, query, fragment }

/-! ## Putting a reference together -/

/-- The authority with the two slashes before it, if it is shown. -/
def renderAuthority (r : Reference) : List Char :=
  if r.scheme = [] && r.host = [] && r.user.isNone then []
  else
    (if r.host ≠ [] || r.path ≠ [] || r.user.isSome then ['/', '/'] else []) ++
      (match r.user with
        | none => []
        | some user => user ++ ['@']) ++ r.host

/-- The text of a reference. -/
def render (r : Reference) : List Char :=
  (if r.scheme = [] then [] else r.scheme ++ [':']) ++
    (if r.rootless ≠ [] then r.rootless
      else renderAuthority r ++
        (if r.path ≠ [] && r.path.head? ≠ some '/' && r.host ≠ [] then '/' :: r.path
          else r.path)) ++
    (if r.emptyQuery || r.query ≠ [] then '?' :: r.query else []) ++
    (if r.fragment = [] then [] else '#' :: r.fragment)

end Reference

/-! ## On texts -/

/-- A text put after the last slash of the base; a base without a slash gets one. -/
def appendToBase (base relative : String) : String :=
  if Text.endsWith "/" base then base ++ relative
  else match Text.cutLast? "/" base with
    | some (before, _) => before ++ "/" ++ relative
    | none => base ++ "/" ++ relative

/-- A reference resolved against a base.  A reference with a scheme is kept as it is; when
either text is no reference, the relative one is appended. -/
def resolveIri (base relative : String) : String :=
  match Reference.parse? base.toList, Reference.parse? relative.toList with
  | some b, some r =>
    if r.scheme ≠ [] then relative else .ofList (Reference.resolve b r).render
  | _, _ => appendToBase base relative

/-- Whether a text is an IRI reference with a scheme. -/
def isAbsolute (iri : String) : Bool :=
  match Reference.parse? iri.toList with
  | some r => r.scheme ≠ []
  | none => false

end RdfMapping.Iri
