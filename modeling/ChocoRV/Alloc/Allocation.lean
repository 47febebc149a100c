import ChocoRV.Alloc.Scan

/-!
# Register allocation

A stream over temporaries is turned into one over registers: every temporary gets a register of
the pool or a word of the frame. One that lives in the frame is loaded into a scratch register
before each instruction that reads it and stored after each instruction that writes it.
-/

namespace ChocoRV

abbrev Assignment := Std.ExtTreeMap Nat Location

namespace Assignment

/-- The frame offset of a spilled temporary. -/
def spillOf? (asg : Assignment) (v : Nat) : Option Int32 :=
  match asg[v]? with
  | some (.spill offset) => some offset
  | _ => none

/-- The spilled temporaries that an operation reads, each once, with the scratch registers that
they are loaded into. -/
def reloads (asg : Assignment) (o : Op Label) : List (Nat × PhysReg) :=
  (o.virtUses.filter fun v => (asg.spillOf? v).isSome).eraseDups.zip PhysReg.scratch

/-- The register from which an operand is read. -/
def source (asg : Assignment) (loaded : List (Nat × PhysReg)) : Reg → Reg
  | .phys p => .phys p
  | .virt v =>
    match asg[v]? with
    | some (.reg p) => .phys p
    | some (.spill _) =>
      match loaded.lookup v with
      | some p => .phys p
      | none => .virt v
    | none => .virt v

/-- The register to which a result is written. -/
def target (asg : Assignment) : Reg → Reg
  | .phys p => .phys p
  | .virt v =>
    match asg[v]? with
    | some (.reg p) => .phys p
    | some (.spill _) => .t5
    | none => .virt v

def reloadItem (asg : Assignment) (entry : Nat × PhysReg) : Item :=
  .noted (.lw (.phys entry.2) .fp ((asg.spillOf? entry.1).getD 0))
    ("reload " ++ (Reg.virt entry.1).text)

/-- The store that follows an operation which writes a spilled temporary. -/
def spillItems (asg : Assignment) (o : Op Label) : List Item :=
  match o.virtDef? with
  | some v =>
    match asg.spillOf? v with
    | some offset => [.noted (.sw .t5 .fp offset) ("spill " ++ (Reg.virt v).text)]
    | none => []
  | none => []

def applyInstr (asg : Assignment) (i : Instr) : List Item :=
  let loaded := asg.reloads i.op
  loaded.map asg.reloadItem ++
    .instr { i with op := i.op.mapRegs (asg.source loaded) asg.target } :: asg.spillItems i.op

def applyItem (asg : Assignment) : Item → List Item
  | .label l => [.label l]
  | .instr i => asg.applyInstr i

def apply (asg : Assignment) (items : List Item) : List Item := items.flatMap asg.applyItem

end Assignment

/-- A stream whose temporaries have been placed. -/
structure Allocation where
  items : List Item
  assignment : Assignment
  /-- The pool registers in use, in pool order. -/
  used : List PhysReg
  spillSlots : Nat

namespace Allocation

/-- Choose a location for every temporary of a stream. The first spilled temporary lives at
`spillBase` from `fp`, later ones a word further down each. -/
def allocate (items : List Item) (pool : List PhysReg) (spillBase : Int32) (function : String) :
    Except CompileError Allocation := do
  let g := FlowGraph.ofItems items
  let final ← Scan.run ⟨pool, spillBase, function⟩ (Interval.all g g.liveness)
  let asg : Assignment := final.assignment
  return {
    items := asg.apply items
    assignment := asg
    used := pool.filter fun p => asg.toList.any (·.2 == .reg p)
    spillSlots := final.spills }

end Allocation

end ChocoRV
