/-
# Runs of the command

A run reads files from a tree and writes to it, prints a result and keeps a log.  It can fail
at any point, but what it has printed and logged before stays.
-/
import RdfMapping.CommandLine.Log
import RdfMapping.CommandLine.Usage
import RdfMapping.Compilation
import RdfMapping.Configuration.Lookup
import RdfMapping.Files.Watch
import RdfMapping.Rdf.Codec
import RdfMapping.Reversal
import RdfMapping.Shorthand.Merge

namespace RdfMapping.CommandLine

open Files (FileError Tree Watch)
open Mapping (Dialect)
open Rdf (Format Quad)

/-- What a run has done so far. -/
structure Session where
  tree : Tree
  /-- Less important lines are not logged. -/
  threshold : Level := .info
  output : String := ""
  log : List LogLine := []

/-- A part of a run. -/
abbrev Run := ExceptT Failure (StateM Session)

/-- Adds a line to the log, if it is important enough. -/
def Session.note (s : Session) (line : LogLine) : Session :=
  if s.threshold.rank ≤ line.level.rank then { s with log := s.log ++ [line] } else s

/-- Logs a message. -/
def note (level : Level) (message : String) (values : List (String × String)) : Run Unit :=
  modify (·.note ⟨level, message, values⟩)

/-- Fails with a text. -/
def fail {α : Type} (message : String) : Run α :=
  throw (.plain message)

/-- Goes on with a value, or fails with diagnostics. -/
def orDiagnosed {α : Type} : Except (List Diagnostic) α → Run α
  | .ok a => pure a
  | .error causes => throw (.diagnosed none causes)

/-- Goes on with a value that was decoded, or fails. -/
def orDecoded {α : Type} : Except RuleGraph.DecodeError α → Run α
  | .ok a => pure a
  | .error (.flawed found) => throw (.diagnosed none found)
  | .error .endless => throw .endless

/-! ## Configuration -/

/-- The settings of the flags over those of the configuration. -/
def configuration (o : Options) : Run Configuration := do
  let tree := (← get).tree
  let loaded ← match Configuration.file? tree "" o.configPath with
    | none => do
      note .debug "No project config found" []
      pure Configuration.default
    | some path =>
      match Configuration.ofFile tree path with
      | .ok c => do
        note .debug "Loaded config" [("path", path)]
        pure c
      | .error e => fail ("load config: " ++ e.message)
  match loaded.checked with
  | .error e => fail ("load config: " ++ e.message)
  | .ok c =>
    let flags : Configuration :=
      { target := Text.lower o.format, rdfFormat := o.rdfSyntax, keepDialect := o.keepDialect
        base := o.base }
    match (c.merge flags).checked with
    | .error e => fail ("invalid configuration: " ++ e.message)
    | .ok c => return c

/-- What holds before a document is read. -/
def settingsOf (c : Configuration) : Shorthand.Settings :=
  { base := c.base, prefixes := c.table? }

/-! ## Inputs -/

/-- The paths of all inputs, each once. -/
def inputPaths (patterns : List String) : Run (List String) := do
  let tree := (← get).tree
  let found ← patterns.mapM fun pattern =>
    match tree.matching? pattern with
    | none => fail ("bad input pattern " ++ Text.quote pattern ++ ": syntax error in pattern")
    | some [] => fail ("the input file " ++ pattern ++ " is not found")
    | some paths => pure paths
  return found.flatten.eraseDups

/-- The text of an input. -/
def readInput (path : String) : Run String := do
  match (← get).tree.read path with
  | .ok text => return text
  | .error e =>
    if e.obstacle = .missing then fail ("the input file " ++ path ++ " is not found")
    else fail ("reading " ++ path ++ ": " ++ e.message)

/-! ## Conversion -/

/-- Compiles documents in shorthand, which are merged into one. -/
def compileInputs (c : Configuration) (paths : List String) : Run String := do
  let roots ← paths.mapM fun path => do
    match Shorthand.readText (← readInput path) with
    | .ok root => pure (some root)
    | .error d =>
      throw (.diagnosed (some ("the input file " ++ path ++ " contains invalid YAML")) [d])
  let root ← orDiagnosed (Shorthand.merge roots)
  let dialect := if c.target = "r2rml" then some Dialect.r2rml else none
  let compiled ← orDiagnosed (compile (settingsOf c) dialect (some root))
  compiled.warnings.forM fun d =>
    note .warn d.message
      [("code", d.code), ("mapping", d.location.mapping),
        ("line", toString d.location.span.line)]
  let format ← match Format.ofName c.rdfFormat with
    | .ok format => pure format
    | .error e => fail e.message
  match format.write compiled.prefixes compiled.base compiled.triples with
  | .error e => fail e.message
  | .ok text =>
    note .debug "Compiled"
      [("inputs", toString paths.length), ("triples", toString compiled.triples.length),
        ("dialect", compiled.dialect.name)]
    return text

/-- Writes the rules of all inputs in shorthand. -/
def reverseInputs (c : Configuration) (paths : List String) : Run String := do
  let quads ← paths.mapM fun path => do
    let format := (Format.ofPath? path).getD .turtle
    match format.read (← readInput path) with
    | .ok quads => pure quads
    | .error e => fail ("there is a problem with the input file " ++ path ++ ": " ++ e.message)
  orDecoded (reverseToText (settingsOf c) c.keepDialect quads.flatten)

/-- Writes a text to a file, whose directory is created. -/
def writeOutput (t : Tree) (path text : String) : Except String Tree := do
  let dir := Files.directory path
  let t ← if dir = "." then pure t
    else (t.makeDirectories dir).mapError fun e => "creating output directory: " ++ e.message
  (t.write path text).mapError fun e => "writing file " ++ path ++ ": " ++ e.message

/-- Converts all inputs and prints or writes the result. -/
def convert (c : Configuration) (o : Options) : Run Unit := do
  let paths ← inputPaths o.inputs
  let text ← if c.target = "yaml" then reverseInputs c paths else compileInputs c paths
  if o.output = "" then modify fun s => { s with output := s.output ++ text }
  else
    match writeOutput (← get).tree o.output text with
    | .error e => fail ("the output could not be written to " ++ o.output ++ ": " ++ e)
    | .ok tree =>
      modify fun s => { s with tree }
      note .info "Wrote output" [("path", o.output), ("format", c.target)]

/-! ## Watching -/

/-- Converts again; only an endless failure ends the run. -/
def rebuild (c : Configuration) (o : Options) : Run Unit :=
  tryCatch (convert c o) fun failure =>
    if failure = .endless then throw failure
    else failure.lines.forM fun line => note .error line []

/-- Begins to watch the inputs and converts them for the first time. -/
def beginWatch (c : Configuration) (o : Options) : Run Watch := do
  let (watch, error?) := Watch.start (← get).tree o.inputs
  watch.observed.forM fun dir => note .debug "Watching directory" [("path", dir)]
  match error? with
  | some e => fail e.message
  | none =>
    rebuild c o
    note .info "Watching for changes" [("inputs", Text.join "," o.inputs)]
    return watch

/-- A file that gets a new text or is taken away. -/
structure Change where
  path : String
  text : Option String
deriving DecidableEq, Repr

/-- The tree after a change. -/
def Change.apply (change : Change) (t : Tree) : Tree :=
  match t.locate change.path with
  | .error _ => t
  | .ok place =>
    match change.text with
    | some text => t.put place (.file text)
    | none => t.erase place

/-- Takes note of a change, and converts again if it is one of an input. -/
def applyChange (c : Configuration) (o : Options) (watch : Watch) (change : Change) :
    Run Unit := do
  modify fun s => { s with tree := change.apply s.tree }
  match watch.report? change.path with
  | none => return
  | some path =>
    note .debug "Change detected"
      [("path", path), ("op", if change.text.isSome then "CREATE" else "REMOVE")]
    note .info "Inputs changed" [("files", path)]
    rebuild c o

/-! ## The command -/

/-- Prints a text. -/
def print (text : String) : Run Unit :=
  modify fun s => { s with output := s.output ++ text }

/-- Converts the inputs, and again after each of the changes in watch mode. -/
def runOptions (o : Options) (changes : List Change) : Run Unit := do
  modify fun s => { s with threshold := .ofName o.logLevel }
  if o.inputs.isEmpty then fail "please provide an input file"
  else
    let c ← configuration o
    if o.watch then
      let watch ← beginWatch c o
      changes.forM (applyChange c o watch)
    else convert c o

/-- What a run leaves: its output, log, files and failure. -/
structure Outcome where
  session : Session
  failure : Option Failure := none
  complaint : String := ""

/-- Runs the command with words on a tree of files and its changes. -/
def execute (tree : Tree) (words : List String) (changes : List Change) : Outcome :=
  match Command.ofWords words with
  | .error e =>
    let hint := match e with
      | .unknownCommand _ _ => "Run '" ++ commandName ++ " --help' for usage.\n"
      | _ => ""
    ⟨{ tree }, some (.plain e.message), "Error: " ++ e.message ++ "\n" ++ hint⟩
  | .ok command =>
    let run := match command with
      | .version => print versionLine
      | .help topic => print (helpText topic)
      | .convert o => runOptions o changes
    match run.run.run { tree } with
    | (.ok (), session) => { session }
    | (.error failure, session) => ⟨session, some failure, "Error: " ++ failure.message ++ "\n"⟩

end RdfMapping.CommandLine
