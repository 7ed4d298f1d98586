/-
# Log lines

What a run reports besides its result: a level, a message and named values, written as one
line of `key=value` pairs.
-/
import RdfMapping.Text.Blank
import RdfMapping.Text.Cut
import RdfMapping.Text.Lowercase
import RdfMapping.Text.Quoted

namespace RdfMapping.CommandLine

/-- How important a log line is. -/
inductive Level where
  | debug
  | info
  | warn
  | error
deriving DecidableEq, Repr

namespace Level

/-- The name of a level in a log line. -/
def name : Level → String
  | debug => "DEBUG"
  | info => "INFO"
  | warn => "WARN"
  | error => "ERROR"

/-- The place of a level among all levels, the least important one first. -/
def rank : Level → Nat
  | debug => 0
  | info => 1
  | warn => 2
  | error => 3

/-- The level with a name in any case; another name stands for `info`. -/
def ofName (s : String) : Level :=
  match Text.lower s with
  | "debug" => debug
  | "warn" => warn
  | "error" => error
  | _ => info

end Level

/-- One line of a log. -/
structure LogLine where
  level : Level
  message : String
  values : List (String × String) := []
deriving DecidableEq, Repr

/-- Whether a character cannot stand in a value without quotes. -/
def breaksValue (c : Char) : Bool :=
  c < ' ' || [' ', '=', '"', '\ufffd'].contains c ||
    ('\u007f' < c && (Text.isSpace c || !Text.isPrintable c))

/-- A value of a log line, between quotes if it needs them. -/
def logValue (s : String) : String :=
  if s = "" || s.toList.any breaksValue then Text.quote s else s

/-- The text of a log line, without its end. -/
def LogLine.render (l : LogLine) : String :=
  Text.join " " ((("level", l.level.name) :: ("msg", l.message) :: l.values).map fun (key, value) =>
    key ++ "=" ++ logValue value)

end RdfMapping.CommandLine
