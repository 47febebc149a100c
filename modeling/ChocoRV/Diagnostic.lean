import ChocoRV.Source.Span

/-!
# Diagnostics

What can go wrong while code is generated, and the form in which it is reported.
-/

namespace ChocoRV

/-- Why no code could be generated. -/
inductive CompileError where
  /-- A construct that there is no code for. -/
  | unsupported (construct : String) (span : Span)
  /-- A name that nothing in scope defines. -/
  | unresolved (name : String) (span : Span)
  /-- Every register for temporaries is taken. -/
  | poolExhausted (construct : String) (span : Span)
  /-- A function spills more temporaries than its frame can address. -/
  | spillSlotsExhausted (function : String) (slots : Nat)
  /-- An instruction that is to be written still names a temporary. -/
  | virtualRegister (instr : String)
  /-- Declarations that contradict each other. -/
  | invalidProgram (reason : String)
deriving DecidableEq, Repr, Inhabited

namespace CompileError

def message : CompileError → String
  | .unsupported construct s => "no code generation for " ++ construct ++ " at " ++ s.text
  | .unresolved name s => "unresolved identifier '" ++ name ++ "' at " ++ s.text
  | .poolExhausted construct s =>
    "register pool exhausted while translating " ++ construct ++ " at " ++ s.text
  | .spillSlotsExhausted function slots =>
    "function '" ++ function ++ "' needs " ++ toString slots ++
      " spill slots, more than the frame can address"
  | .virtualRegister instr => "virtual register survived allocation: " ++ instr
  | .invalidProgram reason => "invalid program: " ++ reason

/-- The place in the source, for the errors that have one. -/
def span? : CompileError → Option Span
  | .unsupported _ s | .unresolved _ s | .poolExhausted _ s => some s
  | .spillSlotsExhausted .. | .virtualRegister _ | .invalidProgram _ => none

end CompileError

inductive Level where
  | error | warning
deriving DecidableEq, Repr, Inhabited

namespace Level

def text : Level → String
  | .error => "error"
  | .warning => "warning"

end Level

/-- A message for the user. -/
structure Diagnostic where
  level : Level := .error
  message : String
  span : Option Span := none
deriving DecidableEq, Repr, Inhabited

namespace Diagnostic

def text (d : Diagnostic) : String :=
  match d.span with
  | some s => d.level.text ++ " at " ++ s.text ++ ": " ++ d.message
  | none => d.level.text ++ ": " ++ d.message

/-- The diagnostic after the name of the file it is about. -/
def inFile (file : String) (d : Diagnostic) : String :=
  match d.span with
  | some s => file ++ ":" ++ s.text ++ ": " ++ d.text
  | none => file ++ ": " ++ d.text

def ofCompileError (e : CompileError) : Diagnostic :=
  { message := e.message, span := e.span? }

end Diagnostic

end ChocoRV
