import ChocoRV.Settings.Basic
import ChocoRV.Text.Similarity

/-!
# Usage

The commands with their operands and options, what help says about them, and what is said about a
command line that does not fit. `Topic.usage` is the line that shows how a command is used;
`Topic.usageWith` is the one that shows what was given so far.
-/

namespace ChocoRV

/-- The name of the program. -/
def programName : String := "chococ"

/-- The options of all commands. -/
inductive Opt where
  | output | config | registers | poolSize | noComments | maxSteps | help
deriving DecidableEq, Repr, Inhabited

namespace Opt

def long : Opt → String
  | .output => "output"
  | .config => "config"
  | .registers => "registers"
  | .poolSize => "pool-size"
  | .noComments => "no-comments"
  | .maxSteps => "max-steps"
  | .help => "help"

def short? : Opt → Option Char
  | .output => some 'o'
  | .help => some 'h'
  | _ => none

/-- What stands for the value of an option that takes one. -/
def placeholder? : Opt → Option String
  | .output => some "OUTPUT"
  | .config => some "CONFIG"
  | .registers => some "REGISTERS"
  | .poolSize => some "POOL_SIZE"
  | .maxSteps => some "MAX_STEPS"
  | .noComments | .help => none

def takesValue (o : Opt) : Bool := o.placeholder?.isSome

/-- The option as it is written, without its value. -/
def flag (o : Opt) : String := "--" ++ o.long

/-- The option as it is written, with what stands for its value. -/
def text (o : Opt) : String :=
  match o.placeholder? with
  | some name => o.flag ++ " <" ++ name ++ ">"
  | none => o.flag

def about : Opt → String
  | .output => "Output file; defaults to the input with a `.s` extension"
  | .config => "Config file; defaults to the nearest chocopy.toml above the input"
  | .registers => "`physical` or `virtual`"
  | .poolSize => ""
  | .noComments => "Omit instruction comments from the assembly"
  | .maxSteps => "Instruction budget"
  | .help => "Print help"

/-- The options that take precedence over settings. -/
def codegen : List Opt := [.config, .registers, .poolSize, .noComments]

end Opt

/-- The commands that do something with files. -/
inductive Verb where
  | build | run | init
deriving DecidableEq, Repr, Inhabited

namespace Verb

def all : List Verb := [.build, .run, .init]

def name : Verb → String
  | .build => "build"
  | .run => "run"
  | .init => "init"

def ofName? (name : String) : Option Verb := all.find? (·.name == name)

def about : Verb → String
  | .build => "Translate a typed AST (JSON) to RISC-V assembly"
  | .run => "Translate and execute on the reference machine; exits with the program's status"
  | .init => "Write a default chocopy.toml"

def options : Verb → List Opt
  | .build => .output :: Opt.codegen ++ [.help]
  | .run => Opt.codegen ++ [.maxSteps, .help]
  | .init => [.help]

/-- The operand as it is written; one in brackets may be left out. -/
def operand : Verb → String
  | .build | .run => "<PATH>"
  | .init => "[DIR]"

def operandAbout : Verb → String
  | .build | .run => ""
  | .init => "[default: .]"

def needsOperand : Verb → Bool
  | .build | .run => true
  | .init => false

end Verb

/-- What can be given to a command. -/
inductive Arg where
  | operand
  | option (o : Opt)
deriving DecidableEq, Repr, Inhabited

namespace Arg

def option? : Arg → Option Opt
  | .operand => none
  | .option o => some o

/-- The argument of a command as it is written. -/
def text (v : Verb) : Arg → String
  | .operand => v.operand
  | .option o => o.text

end Arg

/-- What help can be about. -/
inductive Topic where
  | program
  | verb (v : Verb)
  /-- The command that prints help. -/
  | help
deriving DecidableEq, Repr, Inhabited

namespace Topic

/-- The topic of a name after that of another topic: only the program has commands. -/
def find? (t : Topic) (name : String) : Option Topic :=
  match t with
  | .program => if name == "help" then some .help else (Verb.ofName? name).map .verb
  | _ => none

/-- The names of all commands. -/
def names : List String := Verb.all.map Verb.name ++ ["help"]

/-- The words that the command starts with. -/
def start : Topic → String
  | .program => programName
  | .verb v => programName ++ " " ++ v.name
  | .help => programName ++ " help"

/-- What follows all options. -/
def rest : Topic → String
  | .program => "<COMMAND>"
  | .verb v => v.operand
  | .help => "[COMMAND]..."

def options : Topic → List Opt
  | .program => [.help]
  | .verb v => v.options
  | .help => []

/-- How the command is used. -/
def usage (t : Topic) : String :=
  let options := if t.options.any (· != .help) then ["[OPTIONS]"] else []
  " ".intercalate (t.start :: options ++ [t.rest])

/-- How the command is used with the arguments given so far, and with one more option. -/
def usageWith (t : Topic) (given : List Arg) (more : Option Opt) : String :=
  let options := (given.filterMap Arg.option? ++ more.toList).eraseDups
  " ".intercalate (t.start :: options.map Opt.text ++ [t.rest])

/-! ## Help -/

/-- Lines of two columns. -/
def table (rows : List (String × String)) : String :=
  let width := (rows.map (·.1.length)).foldl max 0
  String.join <| rows.map fun (left, right) =>
    let gap := String.ofList (List.replicate (width - left.length + 2) ' ')
    "  " ++ left ++ gap ++ right ++ "\n"

def optionRow (o : Opt) : String × String :=
  let short := match o.short? with
    | some c => "-" ++ c.toString ++ ", "
    | none => "    "
  (short ++ o.text, o.about)

def helpAbout : String := "Print this message or the help of the given subcommand(s)"

def about : Topic → String
  | .program => "ChocoPy RISC-V code generator"
  | .verb v => v.about
  | .help => helpAbout

/-- The commands or the operand of a topic. -/
def partsHelp : Topic → String
  | .program =>
    "\nCommands:\n" ++ table (Verb.all.map (fun v => (v.name, v.about)) ++ [("help", helpAbout)])
  | .verb v => "\nArguments:\n" ++ table [(v.operand, v.operandAbout)]
  | .help => "\nArguments:\n" ++ table [("[COMMAND]...", "Print help for the subcommand(s)")]

/-- What help says. -/
def helpText (t : Topic) : String :=
  let options := if t.options.isEmpty then "" else "\nOptions:\n" ++ table (t.options.map optionRow)
  t.about ++ "\n\nUsage: " ++ t.usage ++ "\n" ++ t.partsHelp ++ options

end Topic

/-! ## Misuse -/

/-- What could be meant by a word that does not fit. -/
inductive Tip where
  /-- A value that looks like an option. -/
  | operand
  /-- An option that is written nearly like that. -/
  | option (o : Opt)
  /-- An option of a command that comes later. -/
  | optionOf (v : Verb) (o : Opt)
  /-- A command, were it not for the dashes before it. -/
  | command
deriving DecidableEq, Repr, Inhabited

namespace Tip

def text (word : String) : Tip → String
  | .operand => "to pass '" ++ word ++ "' as a value, use '-- " ++ word ++ "'"
  | .option o => "a similar argument exists: '" ++ o.flag ++ "'"
  | .optionOf v o => "'" ++ v.name ++ " " ++ o.flag ++ "' exists"
  | .command => "subcommand '" ++ word ++ "' exists; to use it, remove the '--' before it"

end Tip

/-- Why a command line does not fit. -/
inductive Misuse where
  | unknownCommand (word : String) (similar : List String)
  | unexpectedArgument (word : String) (tip : Option Tip)
  /-- A value for an option that takes none. -/
  | unexpectedValue (value : String) (o : Opt)
  | missingValue (arg : String)
  | invalidValue (value arg reason : String)
  | repeated (arg : String)
  | missingOperand (arg : String)
deriving DecidableEq, Repr, Inhabited

/-- A misuse, the command that it is one of, and the arguments given before it that the usage line
shows. -/
structure UsageError where
  topic : Topic
  cause : Misuse
  given : List Arg
deriving DecidableEq, Repr, Inhabited

namespace Misuse

def message : Misuse → String
  | .unknownCommand word _ => "unrecognized subcommand '" ++ word ++ "'"
  | .unexpectedArgument word _ => "unexpected argument '" ++ word ++ "' found"
  | .unexpectedValue value o =>
    "unexpected value '" ++ value ++ "' for '" ++ o.text ++ "' found; no more were expected"
  | .missingValue arg => "a value is required for '" ++ arg ++ "' but none was supplied"
  | .invalidValue value arg reason =>
    "invalid value '" ++ value ++ "' for '" ++ arg ++ "': " ++ reason
  | .repeated arg => "the argument '" ++ arg ++ "' cannot be used multiple times"
  | .missingOperand arg => "the following required arguments were not provided:\n  " ++ arg

/-- What could be meant. -/
def tip? : Misuse → Option String
  | .unknownCommand _ [] => none
  | .unknownCommand _ [name] => some ("a similar subcommand exists: '" ++ name ++ "'")
  | .unknownCommand _ names =>
    let quoted := names.map fun name => "'" ++ name ++ "'"
    some ("some similar subcommands exist: " ++ ", ".intercalate quoted)
  | .unexpectedArgument word tip => tip.map (Tip.text word)
  | _ => none

/-- A wrong value says nothing about how the command is used. -/
def concernsUsage : Misuse → Bool
  | .missingValue _ | .invalidValue .. => false
  | _ => true

/-- The option that the usage line shows beside those that were given. -/
def shown? : Misuse → Option Opt
  | .unexpectedValue _ o => some o
  | _ => none

end Misuse

namespace UsageError

def usage (e : UsageError) : String :=
  if e.given.isEmpty && e.cause.shown?.isNone then e.topic.usage
  else e.topic.usageWith e.given e.cause.shown?

/-- The parts of the message, with an empty line between them. -/
def paragraphs (e : UsageError) : List String :=
  ["error: " ++ e.cause.message] ++
  (e.cause.tip?.map ("  tip: " ++ ·)).toList ++
  (if e.cause.concernsUsage then ["Usage: " ++ e.usage] else []) ++
  (if e.topic.options.contains .help then ["For more information, try '--help'."] else [])

/-- What is said about the error. -/
def text (e : UsageError) : String := "\n\n".intercalate e.paragraphs ++ "\n"

end UsageError

end ChocoRV
