/-
# Arguments of the command

The words after the name of the command: flags with and without values, the name of another
command, and inputs.
-/
import RdfMapping.Text.Cut
import RdfMapping.Text.EditDistance
import RdfMapping.Text.Lowercase
import RdfMapping.Text.Quoted

namespace RdfMapping.CommandLine

/-! ## Flags -/

/-- The flags of the command. -/
inductive Flag where
  | base
  | config
  | format
  | help
  | input
  | logLevel
  | output
  | preserveDialect
  | rdfSyntax
  | watch
deriving DecidableEq, Repr

namespace Flag

/-- The name of a flag, which is written after two dashes. -/
def name : Flag → String
  | base => "base"
  | config => "config"
  | format => "format"
  | help => "help"
  | input => "input"
  | logLevel => "log-level"
  | output => "output"
  | preserveDialect => "preserve-dialect"
  | rdfSyntax => "syntax"
  | watch => "watch"

/-- The letter of a flag that has one, which is written after one dash. -/
def letter? : Flag → Option Char
  | config => some 'c'
  | format => some 'f'
  | help => some 'h'
  | input => some 'i'
  | output => some 'o'
  | watch => some 'w'
  | _ => none

/-- Whether a flag is set without a value. -/
def isSwitch : Flag → Bool
  | help | preserveDialect | watch => true
  | _ => false

/-- The flags that set options, in the order of their names. -/
def settings : List Flag :=
  [base, config, format, input, logLevel, output, preserveDialect, rdfSyntax, watch]

/-- All flags in the order of their names. -/
def all : List Flag :=
  [base, config, format, help, input, logLevel, output, preserveDialect, rdfSyntax, watch]

/-- A flag as it is named in messages. -/
def title (f : Flag) : String :=
  match f.letter? with
  | some c => "-" ++ .ofList [c] ++ ", --" ++ f.name
  | none => "--" ++ f.name

end Flag

/-- What the flags and words of the command set. -/
structure Options where
  inputs : List String := []
  output : String := ""
  format : String := ""
  watch : Bool := false
  rdfSyntax : String := ""
  configPath : String := ""
  keepDialect : Bool := false
  base : String := ""
  logLevel : String := "info"
  help : Bool := false
  /-- The words that are neither flags nor their values. -/
  words : List String := []
deriving DecidableEq, Repr

/-! ## Errors -/

/-- Why words cannot be understood. -/
inductive UsageError where
  | unknownCommand (word : String) (similar : List String)
  | unknownFlag (name : String)
  | unknownLetter (letter : Char) (group : String)
  | noValue (word : String)
  | noValueForLetter (letter : Char) (group : String)
  | malformedFlag (word : String)
  | noTruthValue (flag : Flag) (value : String)
deriving DecidableEq, Repr

/-- The name of the command. -/
def commandName : String := "yarrrml-parser"

/-- A letter of a flag between quotes, or its first byte. -/
def quoteLetter (c : Char) : String :=
  let c := (String.utf8EncodeChar c).head?.elim c fun b => .ofNat b.toNat
  "'" ++ .ofList (if c = '\x27' then ['\\', c] else if c = '"' then [c] else Text.quoteChar c) ++
    "'"

/-- The wording of an error. -/
def UsageError.message : UsageError → String
  | unknownCommand word similar =>
    "unknown command " ++ Text.quote word ++ " for " ++ Text.quote commandName ++
      match similar with
      | [] => ""
      | names => "\n\nDid you mean this?\n" ++ String.join (names.map ("\t" ++ · ++ "\n"))
  | unknownFlag name => "unknown flag: --" ++ name
  | unknownLetter letter group =>
    "unknown shorthand flag: " ++ quoteLetter letter ++ " in -" ++ group
  | noValue word => "flag needs an argument: " ++ word
  | noValueForLetter letter group =>
    "flag needs an argument: " ++ quoteLetter letter ++ " in -" ++ group
  | malformedFlag word => "bad flag syntax: " ++ word
  | noTruthValue flag value =>
    "invalid argument " ++ Text.quote value ++ " for " ++ Text.quote flag.title ++
      " flag: strconv.ParseBool: parsing " ++ Text.quote value ++ ": invalid syntax"

/-! ## Setting options -/

/-- The words for truth values. -/
def truth? (s : String) : Option Bool :=
  if ["1", "t", "T", "true", "TRUE", "True"].contains s then some true
  else if ["0", "f", "F", "false", "FALSE", "False"].contains s then some false
  else none

/-- Sets one flag. -/
def Options.set (o : Options) (f : Flag) (value : String) : Except UsageError Options :=
  match f with
  | .base => .ok { o with base := value }
  | .config => .ok { o with configPath := value }
  | .format => .ok { o with format := value }
  | .input => .ok { o with inputs := o.inputs ++ [value] }
  | .logLevel => .ok { o with logLevel := value }
  | .output => .ok { o with output := value }
  | .rdfSyntax => .ok { o with rdfSyntax := value }
  | .help => (truthOf f).map fun help => { o with help }
  | .preserveDialect => (truthOf f).map fun keepDialect => { o with keepDialect }
  | .watch => (truthOf f).map fun watch => { o with watch }
where
  /-- The value of a switch. -/
  truthOf (f : Flag) : Except UsageError Bool :=
    match truth? value with
    | some b => .ok b
    | none => .error (.noTruthValue f value)

/-- What a word sets, and a last flag whose value is the next word. -/
structure Setting where
  values : List (Flag × String) := []
  pending : Option (Flag × UsageError) := none

/-- Reads a word that begins with two dashes; `s` is what follows them. -/
def readLong (known : List Flag) (s : String) : Except UsageError Setting :=
  let (name, value) := match Text.cutFirst? '=' s with
    | some (name, value) => (name, some value)
    | none => (s, none)
  if s = "" || Text.startsWith "-" s || Text.startsWith "=" s then
    .error (.malformedFlag ("--" ++ s))
  else match known.find? (·.name = name) with
    | none => .error (.unknownFlag name)
    | some f =>
      match value with
      | some value => .ok { values := [(f, value)] }
      | none =>
        if f.isSwitch then .ok { values := [(f, "true")] }
        else .ok { pending := some (f, .noValue ("--" ++ s)) }

/-- Reads the letters after one dash.  A letter with a value ends them. -/
def readLetters (known : List Flag) : List Char → Except UsageError Setting
  | [] => .ok {}
  | c :: rest =>
    match known.find? (·.letter? = some c) with
    | none => .error (.unknownLetter c (.ofList (c :: rest)))
    | some f =>
      match rest with
      | '=' :: d :: more => .ok { values := [(f, .ofList (d :: more))] }
      | _ =>
        if f.isSwitch then
          (readLetters known rest).map fun s => { s with values := (f, "true") :: s.values }
        else if rest.isEmpty then
          .ok { pending := some (f, .noValueForLetter c (.ofList [c])) }
        else .ok { values := [(f, .ofList rest)] }

/-- Whether a word is no flag. -/
def isPlain (word : String) : Bool :=
  word = "-" || !Text.startsWith "-" word

/-- Reads a word that is a flag. -/
def readFlag (known : List Flag) (word : String) : Except UsageError Setting :=
  match Text.stripStart? "--" word with
  | some s => readLong known s
  | none => readLetters known (word.toList.drop 1)

/-- Sets options from words; after two dashes alone all words are plain. -/
def readWords (known : List Flag) (o : Options) (waiting : Option (Flag × UsageError)) :
    List String → Except UsageError Options
  | [] =>
    match waiting with
    | some (_, error) => .error error
    | none => .ok o
  | word :: rest =>
    match waiting with
    | some (f, _) => o.set f word >>= fun o => readWords known o none rest
    | none =>
      if word = "--" then .ok { o with words := o.words ++ rest }
      else if isPlain word then readWords known { o with words := o.words ++ [word] } none rest
      else
        readFlag known word >>= fun setting =>
          setting.values.foldlM (fun o (f, value) => o.set f value) o >>= fun o =>
            readWords known o setting.pending rest

/-! ## Commands -/

/-- Whether a word takes the next one as its value, as far as is known. -/
def takesNext (known : List Flag) (word : String) : Bool :=
  if Text.hasChar '=' word then false
  else match word.toList with
    | '-' :: '-' :: name => !known.any fun f => f.isSwitch && f.name.toList = name
    | ['-', c] => !known.any fun f => f.isSwitch && f.letter? = some c
    | _ => false

/-- The words that may name a command, without the value of a flag. -/
def commandWords (known : List Flag) : List String → List String
  | [] => []
  | word :: rest =>
    if word = "--" then []
    else if takesNext known word then
      match rest with
      | _ :: next :: more => commandWords known (next :: more)
      | _ => []
    else if word = "" || Text.startsWith "-" word then commandWords known rest
    else word :: commandWords known rest

/-- Words without the first one that names a command. -/
def dropCommand (known : List Flag) (name : String) : List String → List String
  | [] => []
  | word :: rest =>
    if word = "--" then word :: rest
    else if takesNext known word then
      match rest with
      | next :: more => word :: next :: dropCommand known name more
      | [] => [word]
    else if word = name then rest
    else word :: dropCommand known name rest

/-- The command that a word names. -/
inductive Topic where
  | main
  | version
  | help
deriving DecidableEq, Repr

/-- The commands besides the main one. -/
def topics : List (String × Topic) :=
  [("version", .version), ("help", .help)]

/-- The names to propose for a command: those that are near or begin so. -/
def similarCommands (word : String) : List String :=
  let word := Text.lower word
  ["version", "completion"].filter fun name =>
    Text.editDistance word name ≤ 2 || Text.startsWith word name

/-- What words ask for. -/
inductive Command where
  | convert (options : Options)
  | version
  | help (topic : Topic)
deriving DecidableEq, Repr

/-- Reads the words of a topic. -/
def Command.ofTopic (topic : Topic) (words : List String) : Except UsageError Command := do
  match topic with
  | .main =>
    let o ← readWords Flag.all {} none words
    return if o.help then .help .main else .convert { o with inputs := o.inputs ++ o.words }
  | .version =>
    let o ← readWords [.help] {} none words
    return if o.help then .help .version else .version
  | .help =>
    let o ← readWords [.help] {} none words
    return .help (if o.help then .help else ((o.words.head?.bind (topics.lookup ·)).getD .main))

/-- What words ask for. -/
def Command.ofWords (words : List String) : Except UsageError Command :=
  match commandWords Flag.settings words with
  | [] => ofTopic .main words
  | word :: _ =>
    match topics.lookup word with
    | some topic => ofTopic topic (dropCommand Flag.settings word words)
    | none => .error (.unknownCommand word (similarCommands word))

end RdfMapping.CommandLine
