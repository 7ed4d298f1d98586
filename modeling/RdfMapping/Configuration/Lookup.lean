/-
# Configurations in files

The configuration of a project lies in a file of a fixed name, in the directory of the
conversion or above it.
-/
import RdfMapping.Configuration.Text
import RdfMapping.Files.Tree

namespace RdfMapping

open Files (FileError Place Tree)

/-- Why there is no configuration to use. -/
inductive ConfigurationError where
  | unreadable (error : FileError)
  | malformed (path : String) (fault : ConfigurationFault)
  | flawed (flaws : List ConfigurationFlaw)
deriving DecidableEq, Repr

/-- The wording of an error. -/
def ConfigurationError.message : ConfigurationError → String
  | unreadable error => "failed to read config file: " ++ error.message
  | malformed path fault => "failed to parse config file " ++ path ++ ": " ++ fault.message
  | flawed flaws => Text.join "\n" (flaws.map (·.message))

namespace Configuration

/-- The name of the file that holds the configuration of a project. -/
def projectFileName : String := ".yarrrml.yaml"

/-- The places from a directory up to the root. -/
def upward (place : Place) : List Place :=
  (List.range (place.length + 1)).map fun n => place.take (place.length - n)

/-- The nearest configuration of a project, in a directory or above it. -/
def projectFile? (t : Tree) (dir : String) : Option String :=
  let full := Files.clean (if Files.isRooted dir then dir else Tree.fullPath t.start ++ "/" ++ dir)
  let place := (Files.parts full).filter (· ≠ "")
  ((upward place).map (· ++ [projectFileName])).findSome? fun file =>
    match t.content? file with
    | some (.file _) => some (Tree.fullPath file)
    | _ => none

/-- The configuration in a file, over the default one. -/
def ofFile (t : Tree) (path : String) : Except ConfigurationError Configuration := do
  let text ← (t.read path).mapError .unreadable
  let c ← (ofText text).mapError (.malformed path)
  return Configuration.default.merge c

/-- A configuration without flaws. -/
def checked (c : Configuration) : Except ConfigurationError Configuration :=
  if c.flaws.isEmpty then .ok c else .error (.flawed c.flaws)

/-- The file to read: the one asked for, or else the nearest one of a project. -/
def file? (t : Tree) (dir path : String) : Option String :=
  if path = "" then projectFile? t dir else some path

/-- The configuration to use in a directory; `path` is the file asked for, if any. -/
def load (t : Tree) (dir path : String) : Except ConfigurationError Configuration :=
  match file? t dir path with
  | none => Configuration.default.checked
  | some path => ofFile t path >>= checked

end Configuration

end RdfMapping
