import ChocoRV.Asm.Register
import ChocoRV.Machine.Run

/-!
# Settings

What can be chosen about compiling a program and about running it.
-/

namespace ChocoRV

/-- How registers are chosen for temporaries. -/
inductive RegisterMode where
  /-- Directly, while the code of a function is gone through. -/
  | physical
  /-- For the code of a whole function at once. -/
  | virtual
deriving DecidableEq, Repr, Inhabited

namespace RegisterMode

def name : RegisterMode → String
  | .physical => "physical"
  | .virtual => "virtual"

def ofName? (s : String) : Option RegisterMode :=
  if s == "physical" then some .physical else if s == "virtual" then some .virtual else none

/-- The message for a name that no mode has. -/
def unknown (s : String) : String :=
  "unknown register mode '" ++ s ++ "' (expected physical or virtual)"

end RegisterMode

/-- Settings of the compiler. -/
structure CodegenSettings where
  registers : RegisterMode := .physical
  /-- Instructions get comments. -/
  comments : Bool := true
  /-- How many registers temporaries may use; more than there are means all. -/
  poolSize : Nat := PhysReg.allocatable.length
deriving DecidableEq, Repr, Inhabited

namespace CodegenSettings

def maxPoolSize : Nat := PhysReg.allocatable.length

def effectivePoolSize (s : CodegenSettings) : Nat := min s.poolSize maxPoolSize

/-- The registers for temporaries. -/
def pool (s : CodegenSettings) : List PhysReg := PhysReg.allocatable.take s.effectivePoolSize

end CodegenSettings

/-- Settings of a run. -/
structure RunSettings where
  maxSteps : Nat := Image.defaultMaxSteps
deriving DecidableEq, Repr, Inhabited

structure Settings where
  codegen : CodegenSettings := {}
  run : RunSettings := {}
deriving DecidableEq, Repr, Inhabited

namespace Settings

/-- The name of the file that holds settings. -/
def fileName : String := "chocopy.toml"

/-- The text of a settings file that says what holds anyway. -/
def defaultText : String :=
  let s : Settings := {}
  "[codegen]\n" ++
    "registers = \"" ++ s.codegen.registers.name ++ "\"\n" ++
    "comments = " ++ (if s.codegen.comments then "true" else "false") ++ "\n" ++
    "pool_size = " ++ toString s.codegen.poolSize ++ "\n\n" ++
    "[run]\n" ++
    "max_steps = " ++ toString s.run.maxSteps ++ "\n"

end Settings

end ChocoRV
