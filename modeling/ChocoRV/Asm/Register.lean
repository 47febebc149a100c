/-!
# Registers

The 32 registers of the target, and the unbounded virtual registers that stand for temporaries
until a register is chosen for them.
-/

namespace ChocoRV

/-- The registers of the target, in the order of their hardware numbers. -/
inductive PhysReg where
  | zero | ra | sp | gp | tp | t0 | t1 | t2 | fp | s1 | a0 | a1 | a2 | a3 | a4 | a5 | a6 | a7
  | s2 | s3 | s4 | s5 | s6 | s7 | s8 | s9 | s10 | s11 | t3 | t4 | t5 | t6
deriving DecidableEq, Repr, Inhabited

namespace PhysReg

/-- Every register, by hardware number. -/
def all : List PhysReg :=
  [.zero, .ra, .sp, .gp, .tp, .t0, .t1, .t2, .fp, .s1, .a0, .a1, .a2, .a3, .a4, .a5, .a6, .a7,
   .s2, .s3, .s4, .s5, .s6, .s7, .s8, .s9, .s10, .s11, .t3, .t4, .t5, .t6]

/-- The hardware number. -/
def number : PhysReg → Fin 32
  | .zero => 0
  | .ra => 1
  | .sp => 2
  | .gp => 3
  | .tp => 4
  | .t0 => 5
  | .t1 => 6
  | .t2 => 7
  | .fp => 8
  | .s1 => 9
  | .a0 => 10
  | .a1 => 11
  | .a2 => 12
  | .a3 => 13
  | .a4 => 14
  | .a5 => 15
  | .a6 => 16
  | .a7 => 17
  | .s2 => 18
  | .s3 => 19
  | .s4 => 20
  | .s5 => 21
  | .s6 => 22
  | .s7 => 23
  | .s8 => 24
  | .s9 => 25
  | .s10 => 26
  | .s11 => 27
  | .t3 => 28
  | .t4 => 29
  | .t5 => 30
  | .t6 => 31

/-- The name in assembly text. -/
def name : PhysReg → String
  | .zero => "zero"
  | .ra => "ra"
  | .sp => "sp"
  | .gp => "gp"
  | .tp => "tp"
  | .t0 => "t0"
  | .t1 => "t1"
  | .t2 => "t2"
  | .fp => "fp"
  | .s1 => "s1"
  | .a0 => "a0"
  | .a1 => "a1"
  | .a2 => "a2"
  | .a3 => "a3"
  | .a4 => "a4"
  | .a5 => "a5"
  | .a6 => "a6"
  | .a7 => "a7"
  | .s2 => "s2"
  | .s3 => "s3"
  | .s4 => "s4"
  | .s5 => "s5"
  | .s6 => "s6"
  | .s7 => "s7"
  | .s8 => "s8"
  | .s9 => "s9"
  | .s10 => "s10"
  | .s11 => "s11"
  | .t3 => "t3"
  | .t4 => "t4"
  | .t5 => "t5"
  | .t6 => "t6"

/-- The register of that name. -/
def ofName? (n : String) : Option PhysReg :=
  all.find? (·.name == n)

/-- Registers that carry the first words of a call; further words stay on the stack. -/
def args : List PhysReg := [.a0, .a1, .a2, .a3]

/-- The register that carries a result. -/
def result : PhysReg := .a0

/-- Registers that a function gives back as it found them. -/
def calleeSaved : List PhysReg :=
  [.fp, .s1, .s2, .s3, .s4, .s5, .s6, .s7, .s8, .s9, .s10, .s11]

/-- Registers that a call may overwrite. -/
def callerSaved : List PhysReg :=
  [.ra, .t0, .t1, .t2, .t3, .t4, .t5, .t6, .a0, .a1, .a2, .a3, .a4, .a5, .a6, .a7]

/-- Registers for temporaries, in the order in which they are handed out. Calls keep all of
them, so a temporary survives a call without being saved around it. -/
def allocatable : List PhysReg :=
  [.s1, .s2, .s3, .s4, .s5, .s6, .s7, .s8, .s9, .s10, .s11]

/-- Registers kept free for reloading spilled temporaries. -/
def scratch : List PhysReg := [.t5, .t6]

def isCalleeSaved (r : PhysReg) : Bool := calleeSaved.contains r

end PhysReg

/-- An operand of an instruction. -/
inductive Reg where
  | phys (r : PhysReg)
  /-- A temporary, unique within one function. -/
  | virt (n : Nat)
deriving DecidableEq, Repr, Inhabited

namespace Reg

def virt? : Reg → Option Nat
  | .phys _ => none
  | .virt n => some n

def phys? : Reg → Option PhysReg
  | .phys r => some r
  | .virt _ => none

def isVirt (r : Reg) : Bool := r.virt?.isSome

/-- The name in assembly text; a temporary shows its number after `%v`. -/
def text : Reg → String
  | .phys r => r.name
  | .virt n => "%v" ++ toString n

abbrev zero : Reg := .phys .zero

abbrev ra : Reg := .phys .ra

abbrev sp : Reg := .phys .sp

abbrev fp : Reg := .phys .fp

abbrev t0 : Reg := .phys .t0

abbrev t1 : Reg := .phys .t1

abbrev t2 : Reg := .phys .t2

abbrev t3 : Reg := .phys .t3

abbrev t4 : Reg := .phys .t4

abbrev t5 : Reg := .phys .t5

abbrev t6 : Reg := .phys .t6

abbrev a0 : Reg := .phys .a0

abbrev a1 : Reg := .phys .a1

abbrev a2 : Reg := .phys .a2

abbrev a7 : Reg := .phys .a7

end Reg

end ChocoRV
