import ChocoRV.Machine.Image
import ChocoRV.Word

/-!
# One step

What each operation does to a state. A step that ends the program or fails leaves the state as it
was.
-/

namespace ChocoRV

namespace AluOp

/-- Arithmetic wraps around; dividing by zero gives -1 and leaves the dividend as remainder. -/
def eval : AluOp → Int32 → Int32 → Int32
  | .add, a, b => a + b
  | .sub, a, b => a - b
  | .mul, a, b => a * b
  | .div, a, b => if b = 0 then -1 else a / b
  | .rem, a, b => if b = 0 then a else a % b
  | .and, a, b => a &&& b
  | .or, a, b => a ||| b
  | .xor, a, b => a ^^^ b
  | .sll, a, b => (a.toUInt32 <<< b.toUInt32).toInt32
  | .slt, a, b => boolWord (a < b)
  | .sltu, a, b => boolWord (a.toUInt32 < b.toUInt32)

end AluOp

namespace ImmOp

def eval : ImmOp → Int32 → Int32 → Int32
  | .addi, a, n => a + n
  | .andi, a, n => a &&& n
  | .xori, a, n => a ^^^ n
  | .slti, a, n => boolWord (a < n)

end ImmOp

namespace ShiftOp

def eval : ShiftOp → Int32 → Fin 32 → Int32
  | .slli, a, k => (a.toUInt32 <<< UInt32.ofNat k.val).toInt32
  | .srai, a, k => a >>> Int32.ofNat k.val

end ShiftOp

namespace UnaryOp

def eval : UnaryOp → Int32 → Int32
  | .mv, a => a
  | .seqz, a => boolWord (a == 0)
  | .snez, a => boolWord (a != 0)

end UnaryOp

namespace Cmp

def eval : Cmp → Int32 → Int32 → Bool
  | .eq, a, b => a == b
  | .ne, a, b => a != b
  | .lt, a, b => a < b
  | .ge, a, b => b ≤ a
  | .ltu, a, b => a.toUInt32 < b.toUInt32
  | .geu, a, b => b.toUInt32 ≤ a.toUInt32

end Cmp

namespace ZeroCmp

def eval : ZeroCmp → Int32 → Bool
  | .eq, a => a == 0
  | .ne, a => a != 0

end ZeroCmp

/-- The numbers of the system calls, passed in `a7`. -/
inductive Syscall where
  | printInt | printString | sbrk | exit | printChar | exitCode
deriving DecidableEq, Repr, Inhabited

namespace Syscall

def number : Syscall → Int32
  | .printInt => 1
  | .printString => 4
  | .sbrk => 9
  | .exit => 10
  | .printChar => 11
  | .exitCode => 17

def ofNumber? (n : Int32) : Option Syscall :=
  if n = 1 then some .printInt
  else if n = 4 then some .printString
  else if n = 9 then some .sbrk
  else if n = 10 then some .exit
  else if n = 11 then some .printChar
  else if n = 17 then some .exitCode
  else none

end Syscall

/-- What came of a step. -/
inductive StepResult where
  | running (s : State)
  | exited (code : Int32) (s : State)
  | faulted (fault : Fault) (s : State)

namespace State

/-- Addresses below this one are never valid: they belong to references to nothing. -/
def nullPage : Addr := 0x1000

/-- Go on with `f` if the address is valid. -/
@[inline] def access (s : State) (addr : Addr) (f : State → StepResult) : StepResult :=
  if addr < nullPage then .faulted (.invalidAddress addr s.pc) s else f s

/-- The address that a register and an offset make. -/
def addrOf (s : State) (base : Reg) (offset : Int32) : Addr := (s.reg base + offset).toUInt32

/-- The word at an address, as a load would read it. -/
def loadWord (s : State) (addr : Addr) : Except Fault Int32 :=
  if addr < nullPage then .error (.invalidAddress addr s.pc) else .ok (s.memory.readWord addr)

/-- The text at an address, as a system call would print it. -/
def loadCString (s : State) (addr : Addr) : Except Fault String :=
  if addr < nullPage then .error (.invalidAddress addr s.pc) else .ok (s.memory.cstring addr)

def print (s : State) (text : String) : State :=
  { s with stdout := s.stdout ++ text, pc := s.pc + 4 }

/-- A system call: its number is in `a7`, its argument and its result in `a0`. -/
def syscall (s : State) : StepResult :=
  let a0 := s.reg .a0
  match Syscall.ofNumber? (s.reg .a7) with
  | some .printInt => .running (s.print (toString a0.toInt))
  | some .printString =>
    s.access a0.toUInt32 fun s => .running (s.print (s.memory.cstring a0.toUInt32))
  | some .printChar => .running (s.print (String.singleton (Char.ofNat a0.toUInt32.toUInt8.toNat)))
  | some .sbrk =>
    let old := s.brk
    .running { s.put .a0 old.toInt32 with brk := Addr.align4 (old + a0.toUInt32) }
  | some .exit => .exited 0 s
  | some .exitCode => .exited a0 s
  | none => .faulted (.unknownSyscall (s.reg .a7)) s

/-- Perform one operation. -/
def exec (s : State) : Op Addr → StepResult
  | .alu op rd a b => .running (s.put rd (op.eval (s.reg a) (s.reg b)))
  | .aluImm op rd a n => .running (s.put rd (op.eval (s.reg a) n))
  | .shift op rd a k => .running (s.put rd (op.eval (s.reg a) k))
  | .li rd n => .running (s.put rd n)
  | .la rd t => .running (s.put rd t.toInt32)
  | .unary op rd a => .running (s.put rd (op.eval (s.reg a)))
  | .load w rd base n =>
    let addr := s.addrOf base n
    s.access addr fun s =>
      match w with
      | .word => .running (s.put rd (s.memory.readWord addr))
      | .byte => .running (s.put rd (s.memory.read addr).toUInt32.toInt32)
  | .store w src base n =>
    let addr := s.addrOf base n
    let value := s.reg src
    s.access addr fun s =>
      match w with
      | .word => .running { s with memory := s.memory.writeWord addr value, pc := s.pc + 4 }
      | .byte =>
        .running { s with memory := s.memory.write addr value.toUInt32.toUInt8, pc := s.pc + 4 }
  | .jump t => .running (s.goto t)
  | .call t => .running ((s.setReg .ra (s.pc + 4).toInt32).goto t)
  | .callReg a =>
    let t := (s.reg a).toUInt32
    .running ((s.setReg .ra (s.pc + 4).toInt32).goto t)
  | .jumpReg a => .running (s.goto (s.reg a).toUInt32)
  | .branch c a b t => .running (if c.eval (s.reg a) (s.reg b) then s.goto t else s.skip)
  | .branchZero c a t => .running (if c.eval (s.reg a) then s.goto t else s.skip)
  | .ecall => s.syscall

end State

end ChocoRV
