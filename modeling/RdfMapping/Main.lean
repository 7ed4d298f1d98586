/-
# The command

The outer layer of the command line: it loads the files around the working directory, runs
the command on them, and prints and writes what the run leaves.  Everything it decides is
decided by `CommandLine.execute` and, in watch mode, by `CommandLine.applyChange`.
-/
import RdfMapping.CommandLine.Session

namespace RdfMapping.Main

open CommandLine
open Files (Entry Place Tree)

/-! ## Loading files -/

/-- What lies in and below a directory.  Files that hold no text are left out. -/
partial def loadBelow (place : Place) (found : Array IO.FS.DirEntry) :
    IO (List (Place × Entry)) := do
  let mut entries := []
  for e in found do
    let here := place ++ [e.fileName]
    if ← e.path.isDir then
      entries := entries ++ (here, .directory) :: (← loadBelow here (← e.path.readDir))
    else
      match ← (IO.FS.readFile e.path).toBaseIO with
      | .ok text => entries := entries ++ [(here, .file text)]
      | .error _ => pure ()
  return entries

/-- The place of a directory with a full path. -/
def placeOf (path : String) : Place :=
  (Files.parts path).filter (· ≠ "")

/-- The directories outside to which a word of the command leads. -/
def outsideBase? (word : String) : Option String :=
  let path := Files.clean (((Text.cutFirst? '=' word).map (·.2)).getD word)
  if Files.isRooted path || Text.startsWith ".." path then some (Files.Pattern.splitBase path).1
  else none

/-- The files around the working directory and where words lead. -/
def loadTree (words : List String) : IO Tree := do
  let here ← IO.currentDir
  let start := placeOf here.toString
  let mut entries ← loadBelow start (← here.readDir)
  for base in words.filterMap outsideBase? do
    let full ← (IO.FS.realPath base).toBaseIO
    match full with
    | .ok dir =>
      if ← dir.isDir then
        entries := entries ++ (← loadBelow (placeOf dir.toString) (← dir.readDir))
    | .error _ => pure ()
  for above in Configuration.upward start do
    let file := above ++ [Configuration.projectFileName]
    match ← (IO.FS.readFile (Tree.fullPath file)).toBaseIO with
    | .ok text => entries := entries ++ [(file, .file text)]
    | .error _ => pure ()
  return { start, entries }

/-! ## Leaving results -/

/-- Writes the files that changed from one tree to another. -/
def save (before after : Tree) : IO Unit := do
  for (path, text) in before.changes after do
    IO.FS.createDirAll (Files.directory path)
    IO.FS.writeFile path text

/-- Prints and writes what a part of a run leaves, and forgets what was printed. -/
def publish (before : Tree) (s : Session) : IO Session := do
  save before s.tree
  IO.print s.output
  for line in s.log do
    IO.eprintln line.render
  (← IO.getStdout).flush
  return { s with output := "", log := [] }

/-- The changes from one tree to another. -/
def changesBetween (before after : Tree) : List Change :=
  (before.changes after).map (fun (path, text) => ⟨path, some text⟩) ++
    (after.changes before).filterMap fun (path, _) =>
      match after.find path with
      | .ok _ => none
      | .error _ => some ⟨path, none⟩

/-! ## Running -/

/-- Converts again whenever a watched file changes. -/
partial def watchForever (words : List String) (c : Configuration) (o : Options)
    (watch : Files.Watch) (s : Session) : IO Unit := do
  IO.sleep (max 10 (c.debounce.nanoseconds / 1000000).toNat).toUInt32
  let now ← loadTree words
  let (_, next) := ((changesBetween s.tree now).forM (applyChange c o watch)).run.run s
  watchForever words c o watch (← publish now next)

/-- Shows the failure of a run. -/
def complain (text : String) : IO UInt32 := do
  IO.eprint text
  return 1

end RdfMapping.Main

open RdfMapping RdfMapping.Main RdfMapping.CommandLine in
/-- Runs the command with the given words. -/
def main (words : List String) : IO UInt32 := do
  let tree ← loadTree words
  let outcome := execute tree words []
  let session ← publish tree outcome.session
  if outcome.failure.isSome then complain outcome.complaint
  else
    match Command.ofWords words with
    | .ok (.convert o) =>
      match o.watch, ((configuration o).run.run { tree := session.tree }).1 with
      | true, .ok c =>
        watchForever words c o (Files.Watch.start session.tree o.inputs).1 session
        return 0
      | _, _ => return 0
    | _ => return 0
