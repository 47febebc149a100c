import ChocoRV.Machine.Step

/-!
# Runs

A run starts at a label and goes on until the program exits, returns to address 0, fails or has
used up its budget of steps.
-/

namespace ChocoRV

/-- How a run ended. -/
structure Outcome where
  exitCode : Int32
  stdout : String
  steps : Nat
deriving DecidableEq, Repr, Inhabited

namespace Image

/-- Where the stack begins. -/
def stackTop : Addr := 0x7ffffff0

/-- Returning to this address ends a run. -/
def haltAddress : Addr := 0

/-- The budget of a run that names none. -/
def defaultMaxSteps : Nat := 10000000

/-- Run with `fuel` steps left of a budget of `limit`. -/
def runSteps (img : Image) (limit : Nat) (fuel : Nat) (s : State) : Except Fault Outcome × State :=
  if s.pc = haltAddress then (.ok ⟨0, s.stdout, limit - fuel⟩, s)
  else
    match fuel with
    | 0 => (.error (.stepLimit limit), s)
    | fuel + 1 =>
      match img.fetch s.pc with
      | none => (.error (.pcOutOfRange s.pc), s)
      | some op =>
        match s.exec op with
        | .running s => img.runSteps limit fuel s
        | .exited code s => (.ok ⟨code, s.stdout, limit - fuel⟩, s)
        | .faulted fault s => (.error fault, s)

/-- The state in which a run begins: at its entry, with a fresh stack and nowhere to return. -/
def enter (entry : Addr) (s : State) : State :=
  ((s.setReg .sp stackTop.toInt32).setReg .ra haltAddress.toInt32).goto entry

/-- Run from a label with a budget of steps. Later runs go on with the state that is left. -/
def run (img : Image) (entry : String) (limit : Nat) (s : State) : Except Fault Outcome × State :=
  match img.label? entry with
  | none => (.error (.undefinedLabel entry), s)
  | some addr => img.runSteps limit limit (enter addr s)

end Image

end ChocoRV
