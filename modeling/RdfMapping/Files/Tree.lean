/-
# Trees of files

Files and directories as a value, with the directory in which relative paths start.
-/
import RdfMapping.Files.Pattern

namespace RdfMapping.Files

/-- A place in a tree: names from the root down. -/
abbrev Place := List String

/-- What is at a place. -/
inductive Entry where
  | file (text : String)
  | directory
deriving DecidableEq, Repr

/-- Files and directories.  Each directory above one of them is there as well. -/
structure Tree where
  /-- The directory in which relative paths start. -/
  start : Place
  /-- What the tree holds; for each place the first entry counts. -/
  entries : List (Place × Entry) := []
deriving DecidableEq, Repr

/-- Why nothing can be done at a place. -/
inductive Obstacle where
  | missing
  | notDirectory
  | isDirectory
deriving DecidableEq, Repr

/-- The wording of an obstacle. -/
def Obstacle.message : Obstacle → String
  | missing => "no such file or directory"
  | notDirectory => "not a directory"
  | isDirectory => "is a directory"

/-- An action on a path that failed. -/
structure FileError where
  action : String
  path : String
  obstacle : Obstacle
deriving DecidableEq, Repr

/-- The wording of an error. -/
def FileError.message (e : FileError) : String :=
  e.action ++ " " ++ e.path ++ ": " ++ e.obstacle.message

namespace Tree

/-! ## Places -/

/-- What is at a place, if there is anything. -/
def content? (t : Tree) (place : Place) : Option Entry :=
  match t.entries.lookup place with
  | some entry => some entry
  | none =>
    if place.isPrefixOf t.start || t.entries.any fun (other, _) => place.isPrefixOf other then
      some .directory
    else none

/-- One step of a path. -/
def walk (t : Tree) (here : Place) (part : String) : Except Obstacle Place :=
  match t.content? here with
  | none => .error .missing
  | some (.file _) => .error .notDirectory
  | some .directory =>
    .ok (if part = "" || part = "." then here
      else if part = ".." then here.dropLast
      else here ++ [part])

/-- The place to which a path leads, through directories that have to be there. -/
def locate (t : Tree) (path : String) : Except Obstacle Place :=
  if path = "" then .error .missing
  else (parts path).foldlM t.walk (if isRooted path then [] else t.start)

/-- What a path leads to. -/
def find (t : Tree) (path : String) : Except Obstacle Entry := do
  match t.content? (← t.locate path) with
  | some entry => return entry
  | none => throw .missing

/-- The path of a place from the root. -/
def fullPath (place : Place) : String :=
  "/" ++ Text.join "/" place

/-! ## Content -/

/-- Puts something at a place. -/
def put (t : Tree) (place : Place) (entry : Entry) : Tree :=
  { t with entries := (place, entry) :: t.entries.filter (·.1 ≠ place) }

/-- Takes what is at a place away. -/
def erase (t : Tree) (place : Place) : Tree :=
  { t with entries := t.entries.filter (·.1 ≠ place) }

/-- The text of a file. -/
def read (t : Tree) (path : String) : Except FileError String :=
  match t.find path with
  | .ok (.file text) => .ok text
  | .ok .directory => .error ⟨"read", path, .isDirectory⟩
  | .error obstacle => .error ⟨"open", path, obstacle⟩

/-- Writes a text to a file, which is created if there is none. -/
def write (t : Tree) (path text : String) : Except FileError Tree :=
  match t.locate path with
  | .ok place =>
    match t.content? place with
    | some .directory => .error ⟨"open", path, .isDirectory⟩
    | _ => .ok (t.put place (.file text))
  | .error obstacle => .error ⟨"open", path, obstacle⟩

/-- Creates a directory with the given path, unless it is there. -/
def makeDirectory (t : Tree) (path : String) : Except FileError Tree :=
  match t.locate path with
  | .ok place =>
    match t.content? place with
    | some .directory => .ok t
    | some (.file _) => .error ⟨"mkdir", path, .notDirectory⟩
    | none => .ok (t.put place .directory)
  | .error obstacle => .error ⟨"mkdir", path, obstacle⟩

/-- Creates a directory and all directories on the way to it. -/
def makeDirectories (t : Tree) (path : String) : Except FileError Tree :=
  let names := (parts (clean path)).filter (· ≠ "")
  let root := if isRooted path then "/" else ""
  ((List.range names.length).map fun n => root ++ Text.join "/" (names.take (n + 1))).foldlM
    makeDirectory t

/-! ## The files below a directory -/

/-- The names that lead from one place to a place below it. -/
def below? (place : Place) (other : Place) : Option Place :=
  if place.isPrefixOf other && place.length < other.length then some (other.drop place.length)
  else none

/-- The ways from a place to all files below it. -/
def filesBelow (t : Tree) (place : Place) : List Place :=
  t.entries.filterMap fun (other, entry) =>
    match entry with
    | .file _ => below? place other
    | .directory => none

/-- The ways to all directories below a place, outer ones first. -/
def directoriesBelow (t : Tree) (place : Place) : List Place :=
  let ways := t.entries.flatMap fun (other, entry) =>
    match below? place other with
    | none => []
    | some way =>
      let whole := match entry with
        | .file _ => way.length - 1
        | .directory => way.length
      (List.range whole).map fun n => way.take (n + 1)
  ways.eraseDups.mergeSort isBefore
where
  /-- The order of names, part by part. -/
  isBefore : Place → Place → Bool
    | [], _ => true
    | _ :: _, [] => false
    | a :: as, b :: bs => a < b || (a = b && isBefore as bs)

/-- The paths of the files that match a pattern, in the order of their names; none if the
pattern is not well-formed.  A pattern for one directory alone stands for itself. -/
def matching? (t : Tree) (pattern : String) : Option (List String) :=
  let (base, rest) := Pattern.splitBase (clean pattern)
  match Pattern.ofText? rest with
  | none => none
  | some p =>
    if ["", ".", ".."].contains rest then
      some (match t.find (clean pattern) with
        | .ok _ => [clean pattern]
        | .error _ => [])
    else
      match t.locate base with
      | .error _ => some []
      | .ok place =>
        let found := ((t.filesBelow place).map (Text.join "/")).filter p.matchPath
        some ((found.map (join base)).mergeSort (· ≤ ·))

/-! ## Changes -/

/-- The path of a place, from the starting directory if it lies below. -/
def shortPath (t : Tree) (place : Place) : String :=
  match below? t.start place with
  | some way => Text.join "/" way
  | none => fullPath place

/-- The paths and texts of the files in one tree that are not the same in another. -/
def changes (before after : Tree) : List (String × String) :=
  (after.entries.filterMap fun (place, entry) =>
    match entry with
    | .file text =>
      if before.content? place = some entry then none else some (after.shortPath place, text)
    | .directory => none).mergeSort fun a b => a.1 ≤ b.1

end Tree

end RdfMapping.Files
