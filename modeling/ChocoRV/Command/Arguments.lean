import ChocoRV.Command.Usage

/-!
# Command lines

A command line is a command, its operand and its options. An option that takes a value has it after
an equals sign or as the next word, its short form also right behind the letter. Each option may be
given once, and what follows `--` is no option.

Words are read from the first to the last, and the first one that does not fit is the error. Help
is given where it is asked for, whatever comes after. A value that is a word of its own is looked at
when the next argument begins, so that a word that is no argument at all is reported before it.
-/

namespace ChocoRV

/-- What a word of a command line is by itself. -/
inductive Word where
  | operand (text : String)
  /-- An option, with the value that is part of the word. -/
  | option (o : Opt) (value : Option String)
  /-- The mark after which all words are operands. -/
  | endOfOptions
  | unknownLong (name : String)
  | unknownShort (letter : Char)
deriving DecidableEq, Repr, Inhabited

namespace Word

/-- An option by its long name, with what follows an equals sign. -/
def ofLong (known : List Opt) (cs : List Char) : Word :=
  let name := String.ofList (cs.takeWhile (· != '='))
  match known.find? (·.long == name), cs.dropWhile (· != '=') with
  | some o, _ :: value => .option o (some (String.ofList value))
  | some o, [] => .option o none
  | none, _ => .unknownLong name

/-- An option by its letter, with what follows it. What follows an option without a value would be
more letters, but the only such option ends the reading. -/
def ofShort (known : List Opt) (c : Char) (cs : List Char) : Word :=
  match known.find? (·.short? == some c) with
  | some o =>
    if o.takesValue then
      match cs with
      | [] => .option o none
      | '=' :: value => .option o (some (String.ofList value))
      | value => .option o (some (String.ofList value))
    else .option o none
  | none => .unknownShort c

/-- What a word is where certain options are known. A hyphen by itself is an operand. -/
def read (known : List Opt) (word : String) : Word :=
  match word.toList with
  | ['-', '-'] => .endOfOptions
  | '-' :: '-' :: cs => ofLong known cs
  | '-' :: c :: cs => ofShort known c cs
  | _ => .operand word

end Word

/-- Why a command line was not read to its end. -/
inductive Stop where
  /-- Help is asked for. -/
  | help (topic : Topic)
  /-- There is no command. -/
  | noCommand
  | misuse (e : UsageError)
deriving DecidableEq, Repr, Inhabited

/-- Why a text is not a number of 64 bits. -/
inductive NumberError where
  | empty | invalidDigit | tooLarge
deriving DecidableEq, Repr, Inhabited

namespace NumberError

def message : NumberError → String
  | .empty => "cannot parse integer from empty string"
  | .invalidDigit => "invalid digit found in string"
  | .tooLarge => "number too large to fit in target type"

end NumberError

/-- The arguments of a command line, in the order in which they were given. An option without a
value has an empty one. -/
structure Arguments where
  given : List (Arg × String) := []
deriving DecidableEq, Repr, Inhabited

/-- An argument that is complete once its value has been read. -/
structure Pending where
  arg : Arg
  value : Option String
deriving DecidableEq, Repr, Inhabited

namespace Arguments

/-- The number that digits spell after those of `n`. -/
def digits (n : Nat) : List Char → Except NumberError Nat
  | [] => .ok n
  | c :: cs =>
    if c.isDigit then
      let next := n * 10 + (c.toNat - '0'.toNat)
      if next < UInt64.size then digits next cs else .error .tooLarge
    else .error .invalidDigit

/-- A number of 64 bits in decimal, perhaps after a plus sign. -/
def number (s : String) : Except NumberError Nat :=
  match s.toList with
  | [] => .error .empty
  | ['+'] => .error .invalidDigit
  | '+' :: cs => digits 0 cs
  | cs => digits 0 cs

def number? (s : String) : Option Nat := (number s).toOption

/-- What is wrong with a value. Paths are never empty. -/
def valueError? (v : Verb) (arg : Arg) (value : String) : Option Misuse :=
  match arg with
  | .operand | .option .output | .option .config =>
    if value.isEmpty then some (.missingValue (arg.text v)) else none
  | .option .registers =>
    if (RegisterMode.ofName? value).isSome then none
    else some (.invalidValue value (arg.text v) (RegisterMode.unknown value))
  | .option .poolSize | .option .maxSteps =>
    match number value with
    | .ok _ => none
    | .error e => some (.invalidValue value (arg.text v) e.message)
  | .option .noComments | .option .help => none

def args (a : Arguments) : List Arg := a.given.map (·.1)

def has (a : Arguments) (arg : Arg) : Bool := a.args.contains arg

def value? (a : Arguments) (arg : Arg) : Option String := a.given.lookup arg

/-- Enter an argument that is not there yet. -/
def enter (v : Verb) (a : Arguments) (arg : Arg) (value : String) : Except Stop Arguments :=
  if a.has arg then .error (.misuse ⟨.verb v, .repeated (arg.text v), []⟩)
  else
    match valueError? v arg value with
    | some cause => .error (.misuse ⟨.verb v, cause, []⟩)
    | none => .ok { given := a.given ++ [(arg, value)] }

/-- Enter the argument that was read last, which needs its value now. -/
def settle (v : Verb) (a : Arguments) : Option Pending → Except Stop Arguments
  | none => .ok a
  | some ⟨arg, some value⟩ => a.enter v arg value
  | some ⟨arg, none⟩ => .error (.misuse ⟨.verb v, .missingValue (arg.text v), []⟩)

/-- Make room for an operand; there can only be one. -/
def beforeOperand (v : Verb) (a : Arguments) (pending : Option Pending) (text : String) :
    Except Stop Arguments :=
  if a.has .operand || pending.any (·.arg == .operand) then
    .error (.misuse ⟨.verb v, .unexpectedArgument text none, []⟩)
  else a.settle v pending

/-- Read words that are all operands. -/
def readOperands (v : Verb) : Option Pending → Arguments → List String → Except Stop Arguments
  | pending, a, [] => a.settle v pending
  | pending, a, word :: rest => do
    readOperands v (some ⟨.operand, some word⟩) (← a.beforeOperand v pending word) rest

/-- The option whose name is most similar. -/
def similarOption? (known : List Opt) (name : String) : Option Opt :=
  (Similarity.similar name (known.map Opt.long)).getLast?.bind fun long =>
    known.find? (·.long == long)

/-- The error for an option of an unknown name. -/
def unknownLong (v : Verb) (a : Arguments) (name : String) : UsageError :=
  let word := "--" ++ name
  match similarOption? v.options name with
  | some o => ⟨.verb v, .unexpectedArgument word (some (.option o)), a.args ++ [.option o]⟩
  | none => ⟨.verb v, .unexpectedArgument word (some .operand), a.args⟩

/-- Read words onto the arguments before them. -/
def readFrom (v : Verb) : Option Pending → Arguments → List String → Except Stop Arguments
  | pending, a, [] => a.settle v pending
  | pending, a, word :: rest =>
    match Word.read v.options word with
    | .endOfOptions => a.readOperands v pending rest
    | .operand text =>
      match pending with
      | some ⟨.option o, none⟩ => readFrom v (some ⟨.option o, some text⟩) a rest
      | _ => do
        readFrom v (some ⟨.operand, some text⟩) (← a.beforeOperand v pending text) rest
    | .option o (some value) =>
      if o.takesValue then do
        let a ← a.settle v pending
        readFrom v none (← a.enter v (.option o) value) rest
      else .error (.misuse ⟨.verb v, .unexpectedValue value o, a.args⟩)
    | .option o none => do
      let a ← a.settle v pending
      if o.takesValue then readFrom v (some ⟨.option o, none⟩) a rest
      else if o == .help then .error (.help (.verb v))
      else readFrom v none (← a.enter v (.option o) "") rest
    | .unknownLong name => .error (.misuse (unknownLong v a name))
    | .unknownShort c =>
      .error (.misuse ⟨.verb v, .unexpectedArgument ("-" ++ c.toString) (some .operand), []⟩)

/-- Read the words after a command. -/
def read (v : Verb) (words : List String) : Except Stop Arguments := do
  let a ← readFrom v none {} words
  if v.needsOperand && !a.has .operand then
    throw (.misuse ⟨.verb v, .missingOperand v.operand, a.args ++ [.operand]⟩)
  return a

/-- The value of an option, read by `f`. -/
def get? {α : Type} (a : Arguments) (o : Opt) (f : String → Option α) : Option α :=
  (a.value? (.option o)).bind f

end Arguments

/-- Options that take precedence over settings. -/
structure CodegenOptions where
  /-- The file to read settings from. -/
  config : Option String := none
  registers : Option RegisterMode := none
  poolSize : Option Nat := none
  noComments : Bool := false
deriving DecidableEq, Repr, Inhabited

namespace CodegenOptions

def ofArguments (a : Arguments) : CodegenOptions where
  config := a.value? (.option .config)
  registers := a.get? .registers RegisterMode.ofName?
  poolSize := a.get? .poolSize Arguments.number?
  noComments := a.has (.option .noComments)

/-- The settings with the options put over them. -/
def apply (o : CodegenOptions) (s : CodegenSettings) : CodegenSettings :=
  { registers := o.registers.getD s.registers
    comments := s.comments && !o.noComments
    poolSize := o.poolSize.getD s.poolSize }

end CodegenOptions

/-- What is to be done. -/
inductive Command where
  /-- Compile a program to a file; by default one beside the source. -/
  | build (path : String) (output : Option String) (options : CodegenOptions)
  /-- Compile a program and run it. -/
  | run (path : String) (maxSteps : Option Nat) (options : CodegenOptions)
  /-- Write a settings file into a directory. -/
  | init (dir : String)
deriving DecidableEq, Repr, Inhabited

namespace Command

/-- The command with its arguments. The operand that may be left out is the current directory. -/
def ofArguments (v : Verb) (a : Arguments) : Command :=
  let path := (a.value? .operand).getD "."
  match v with
  | .build => .build path (a.value? (.option .output)) (.ofArguments a)
  | .run => .run path (a.get? .maxSteps Arguments.number?) (.ofArguments a)
  | .init => .init path

/-- Asking for help by a command, which takes the names that lead to a topic. -/
def helpStop (topic : Topic) : List String → Stop
  | [] => .help topic
  | name :: rest =>
    match topic.find? name with
    | some sub => helpStop sub rest
    | none => .misuse ⟨topic, .unknownCommand name [], []⟩

def unknownCommand (word : String) : Stop :=
  .misuse ⟨.program, .unknownCommand word (Similarity.similar word Topic.names), []⟩

/-- The option of a command among the words that is most similar; the command that comes first
counts. -/
def laterOption? (name : String) (words : List String) : Option Tip :=
  words.findSome? fun word => do
    let v ← Verb.ofName? word
    let o ← Arguments.similarOption? v.options name
    return .optionOf v o

/-- A first word that is not the name of a command. -/
def firstStop (word : String) (rest : List String) : Stop :=
  match Word.read Topic.program.options word with
  | .operand text => unknownCommand text
  | .option _ none => .help .program
  | .option o (some value) => .misuse ⟨.program, .unexpectedValue value o, []⟩
  | .endOfOptions =>
    match rest with
    | [] => .noCommand
    | word :: _ =>
      if Topic.names.contains word then
        .misuse ⟨.program, .unexpectedArgument word (some .command), []⟩
      else unknownCommand word
  | .unknownLong name =>
    match Arguments.similarOption? Topic.program.options name with
    | some o =>
      .misuse ⟨.program, .unexpectedArgument ("--" ++ name) (some (.option o)), [.option o]⟩
    | none => .misuse ⟨.program, .unexpectedArgument ("--" ++ name) (laterOption? name rest), []⟩
  | .unknownShort c => .misuse ⟨.program, .unexpectedArgument ("-" ++ c.toString) none, []⟩

/-- The command that a command line spells. -/
def ofWords : List String → Except Stop Command
  | [] => .error .noCommand
  | word :: rest =>
    match Topic.program.find? word with
    | some (.verb v) => (Arguments.read v rest).map (ofArguments v)
    | some _ => .error (helpStop .program rest)
    | none => .error (firstStop word rest)

end Command

end ChocoRV
