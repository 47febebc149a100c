import ChocoRV.Asm.Register
import ChocoRV.Machine.Memory

/-!
# Machine states

Registers, memory and what a run has printed.
-/

namespace ChocoRV

/-- The contents of the registers. Temporaries have an unbounded file of their own, so code can be
run before registers are chosen for them. -/
structure Registers where
  phys : Vector Int32 32
  virt : Std.ExtTreeMap Nat Int32

namespace Registers

def zeros : Registers := ⟨Vector.replicate 32 0, ∅⟩

/-- The value of a register; register `zero` always holds 0. -/
def get (r : Registers) : Reg → Int32
  | .phys .zero => 0
  | .phys p => r.phys.get p.number
  | .virt n => r.virt.getD n 0

/-- Writes to register `zero` are lost. -/
def set (r : Registers) : Reg → Int32 → Registers
  | .phys .zero, _ => r
  | .phys p, v => { r with phys := r.phys.set p.number.val v p.number.isLt }
  | .virt n, v => { r with virt := r.virt.insert n v }

end Registers

/-- All that changes while a program runs. -/
structure State where
  pc : Addr
  regs : Registers
  memory : Memory
  /-- The first address above the heap. -/
  brk : Addr
  stdout : String

namespace State

def reg (s : State) (r : Reg) : Int32 := s.regs.get r

def setReg (s : State) (r : Reg) (v : Int32) : State := { s with regs := s.regs.set r v }

/-- Write a result and go on with the next instruction. -/
def put (s : State) (r : Reg) (v : Int32) : State :=
  { s with regs := s.regs.set r v, pc := s.pc + 4 }

/-- Go on with the next instruction. -/
def skip (s : State) : State := { s with pc := s.pc + 4 }

def goto (s : State) (pc : Addr) : State := { s with pc }

end State

/-- Why a program could not be loaded or a run did not end properly. -/
inductive Fault where
  | undefinedLabel (name : String)
  | pcOutOfRange (pc : Addr)
  | invalidAddress (addr pc : Addr)
  | unknownSyscall (number : Int32)
  | stepLimit (limit : Nat)
deriving DecidableEq, Repr, Inhabited

namespace Fault

/-- The address as eight hexadecimal digits. -/
def hex (a : Addr) : String :=
  "0x" ++ String.ofList ((List.range 8).map fun k => Nat.digitChar (a.toNat >>> (28 - 4 * k) % 16))

def message : Fault → String
  | .undefinedLabel name => "undefined label '" ++ name ++ "'"
  | .pcOutOfRange pc => "pc " ++ hex pc ++ " is outside the text segment"
  | .invalidAddress addr pc => "invalid memory access at " ++ hex addr ++ " (pc " ++ hex pc ++ ")"
  | .unknownSyscall n => "unknown syscall " ++ toString n.toInt
  | .stepLimit n => "step limit of " ++ toString n ++ " instructions exceeded"

end Fault

end ChocoRV
