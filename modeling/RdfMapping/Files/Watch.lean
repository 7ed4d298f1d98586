/-
# Watched files

A watch names files by patterns.  The directories that can hold such files are observed, and
a change in one of them counts if its path matches a pattern.
-/
import RdfMapping.Files.Tree

namespace RdfMapping.Files

/-- A watch on the files that match some patterns. -/
structure Watch where
  /-- The patterns, as short as possible. -/
  patterns : List String
  /-- The observed directories. -/
  observed : List String := []
deriving DecidableEq, Repr

/-- Why a directory cannot be observed. -/
structure WatchError where
  directory : String
  obstacle : Obstacle
deriving DecidableEq, Repr

/-- The wording of an error. -/
def WatchError.message (e : WatchError) : String :=
  "watching " ++ e.directory ++ ": " ++ e.obstacle.message

namespace Watch

/-- Whether a name is that of a hidden file. -/
def isHidden (name : String) : Bool :=
  Text.startsWith "." name

/-- The directories that can hold matches of a pattern.  A pattern that spans parts needs all
directories below its base that are not hidden, and none if there is no base. -/
def directoriesOf (t : Tree) (pattern : String) : List String :=
  let (base, rest) := Pattern.splitBase pattern
  if !hasDoubleStar rest.toList then [base]
  else
    match t.locate base with
    | .error _ => []
    | .ok place =>
      match t.content? place with
      | some .directory =>
        base :: ((t.directoriesBelow place).filter fun way => !way.any isHidden).map fun way =>
          join base (Text.join "/" way)
      | _ => []
where
  /-- Whether there are two stars in a row. -/
  hasDoubleStar : List Char → Bool
    | '*' :: '*' :: _ => true
    | _ :: rest => hasDoubleStar rest
    | [] => false

/-- The directories to observe, each once. -/
def directories (t : Tree) (patterns : List String) : List String :=
  (patterns.flatMap (directoriesOf t)).eraseDups

/-- Begins to watch.  Directories are observed in order, and the first that is not there is
an error; what was observed before is kept for the record. -/
def start (t : Tree) (patterns : List String) : Watch × Option WatchError :=
  let patterns := patterns.map clean
  observe ⟨patterns, []⟩ (directories t patterns)
where
  /-- Observes further directories. -/
  observe (w : Watch) : List String → Watch × Option WatchError
    | [] => (w, none)
    | dir :: rest =>
      match t.find dir with
      | .ok _ => observe { w with observed := w.observed ++ [dir] } rest
      | .error obstacle => (w, some ⟨dir, obstacle⟩)

/-- Whether a path is one of the watched files. -/
def covers (w : Watch) (path : String) : Bool :=
  w.patterns.any fun pattern =>
    match Pattern.ofText? pattern with
    | some p => p.matchPath (clean path)
    | none => false

/-- The path under which a change is reported, if the changed file is watched. -/
def report? (w : Watch) (path : String) : Option String :=
  if w.observed.contains (directory path) && w.covers path then
    some (directory path ++ "/" ++ lastPart path)
  else none

end Watch

end RdfMapping.Files
