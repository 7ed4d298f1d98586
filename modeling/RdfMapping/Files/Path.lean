/-
# Paths of files

A path is a text whose parts are divided by slashes.
-/
import RdfMapping.Text.Cut

namespace RdfMapping.Files

/-! ## The parts of a path -/

/-- The parts of a path between its slashes. -/
def parts (path : String) : List String :=
  (Chars.splitAll '/' path.toList).map .ofList

/-- Whether a path starts at the root and not at the working directory. -/
def isRooted (path : String) : Bool :=
  Text.startsWith "/" path

/-- The last part of a path as it is written. -/
def lastPart (path : String) : String :=
  ((Text.cutLast? "/" path).map Prod.snd).getD path

/-- What follows the last dot of a path, with the dot. -/
def extension (path : String) : String :=
  match Text.cutLast? "." (lastPart path) with
  | some (_, after) => "." ++ after
  | none => ""

/-! ## Shortest paths -/

/-- Adds a part to those before it, in reverse. -/
def pushPart (rooted : Bool) (above : List String) (part : String) : List String :=
  if part = "" || part = "." then above
  else if part = ".." then
    match above with
    | [] => if rooted then [] else [".."]
    | last :: rest => if last = ".." then ".." :: above else rest
  else part :: above

/-- The shortest path that leads to the same place. -/
def clean (path : String) : String :=
  let rooted := isRooted path
  let kept := Text.join "/" ((parts path).foldl (pushPart rooted) []).reverse
  if rooted then "/" ++ kept else if kept = "" then "." else kept

/-- The directory in which a path lies. -/
def directory (path : String) : String :=
  match Text.cutLast? "/" path with
  | some (before, _) => clean (before ++ "/")
  | none => "."

/-- A path that starts in a directory. -/
def join (dir path : String) : String :=
  clean (dir ++ "/" ++ path)

end RdfMapping.Files
