/-
# Help

The texts that say how the command is used.
-/
import RdfMapping.CommandLine.Arguments

namespace RdfMapping.CommandLine

/-- The version of the command. -/
def version : String := "0.1.0"

/-- The line that tells the version. -/
def versionLine : String := commandName ++ " version " ++ version ++ "\n"

/-! ## Flags -/

/-- What a flag is for. -/
def Flag.purpose : Flag → Topic → String
  | .base, _ => "Base IRI for documents that declare none"
  | .config, _ => "Config file path (default: nearest .yarrrml.yaml)"
  | .format, _ => "Output format: RML, R2RML or YAML (default: RML)"
  | .help, .main => "help for " ++ commandName
  | .help, .version => "help for version"
  | .help, .help => "help for help"
  | .input, _ => "Input file or glob pattern (repeatable)"
  | .logLevel, _ => "Log level (debug, info, warn, error) (default \"info\")"
  | .output, _ => "Output file (default: stdout)"
  | .preserveDialect, _ => "Write \"dialect: r2rml\" when converting R2RML to YAML"
  | .rdfSyntax, _ => "RDF syntax of compiled output: turtle, ntriples, nquads or jsonld"
  | .watch, _ => "Watch inputs and rebuild on change"

/-- How a flag is written in a list of flags, with the sort of its value. -/
def Flag.heading (f : Flag) : String :=
  (if f.letter?.isSome then "  " else "      ") ++ f.title ++
    (if f.isSwitch then "" else if f = .input then " stringArray" else " string")

/-- A text filled up with blanks. -/
def padTo (width : Nat) (s : String) : String :=
  s ++ .ofList (List.replicate (width - s.length) ' ')

/-- The lines of flags, with their purposes in one column. -/
def flagLines (topic : Topic) (flags : List Flag) : List String :=
  let width := (flags.map fun f => f.heading.length).foldl max 0
  flags.map fun f => padTo width f.heading ++ "   " ++ f.purpose topic

/-! ## Pages -/

/-- What the command does. -/
def description : List String :=
  [commandName ++ " compiles YARRRML mapping documents into RML or R2RML",
    "rules, or converts RML/R2RML rules back into YARRRML.",
    "",
    "Several inputs or glob patterns are merged into one document before",
    "compiling. In watch mode the output is rebuilt whenever an input changes."]

/-- The page of a command. -/
def helpLines : Topic → List String
  | .main =>
    description ++
      ["", "Usage:", "  " ++ commandName ++ " [flags]", "  " ++ commandName ++ " [command]", "",
        "Available Commands:",
        "  completion  Generate the autocompletion script for the specified shell",
        "  help        Help about any command",
        "  version     Print version information", "", "Flags:"] ++
      flagLines .main Flag.all ++
      ["", "Use \"" ++ commandName ++ " [command] --help\" for more information about a command."]
  | .version =>
    ["Print version information", "", "Usage:", "  " ++ commandName ++ " version [flags]", "",
      "Flags:"] ++ flagLines .version [.help]
  | .help =>
    ["Help provides help for any command in the application.",
      "Simply type " ++ commandName ++ " help [path to command] for full details.", "", "Usage:",
      "  " ++ commandName ++ " help [command] [flags]", "", "Flags:"] ++ flagLines .help [.help]

/-- The help on a command. -/
def helpText (topic : Topic) : String :=
  String.join ((helpLines topic).map (· ++ "\n"))

end RdfMapping.CommandLine
