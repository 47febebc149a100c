import ChocoRV.Draft.Placement

/-!
# Registers for a draft over temporaries

What the direct mode does, told of a draft over temporaries: its events are gone through in order,
and each temporary gets, where it is taken, the first register that no other temporary holds.
`Supply.run` does this, and `Body.ofDraft` makes the body of a unit of it.

* `Supply.reg`, `Supply.item`: the register that stands for an operand, and an item with registers
  in place of its temporaries.
* `Supply.run`: the items over registers and the supply at the end, or the error of the first take
  for which no register is left.
* `Body.ofDraft`: the body in either mode.

`Function.body_eq` says that the bodies the two modes draft are these.
-/

namespace ChocoRV

namespace Supply

/-- Temporary `t` gives back its slot. -/
def release (s : Supply) (t : Nat) : Supply :=
  match s.slots.lookup t with
  | some k => s.free k
  | none => s

theorem lookup_take (s : Supply) (n k t : Nat) :
    (s.take n k).slots.lookup t = if t = n then some k else s.slots.lookup t := by
  rw [take, List.lookup_cons]
  by_cases h : t = n
  · simp [h]
  · simp [h, beq_eq_false_iff_ne.mpr h]

/-- The register that stands for an operand. -/
def reg (s : Supply) (pool : List PhysReg) : Reg → Reg
  | .phys p => .phys p
  | .virt t =>
    match (s.slots.lookup t).bind (pool[·]?) with
    | some p => .phys p
    | none => .virt t

def item (s : Supply) (pool : List PhysReg) : Item → Item
  | .label l => .label l
  | .instr i => .instr { i with op := i.op.mapRegs (s.reg pool) (s.reg pool) }

/-- Go through the events of a draft: the code over registers, and the supply at the end. -/
def run (pool : List PhysReg) : Supply → List Event → Except CompileError (List Item × Supply)
  | s, [] => .ok ([], s)
  | s, .item i :: rest => do
    let (items, final) ← run pool s rest
    return (s.item pool i :: items, final)
  | s, .take t what span :: rest =>
    match s.free? pool.length with
    | some k => run pool (s.take t k) rest
    | none => .error (.poolExhausted what span)
  | s, .release t :: rest => run pool (s.release t) rest

end Supply

/-- The body of a draft over temporaries in either mode. In the direct one a register may be missing
before the point at which drafting itself failed, and then that is the error. -/
def Body.ofDraft (mode : RegisterMode) (pool : List PhysReg) (spillBase : Int32) (function : String)
    (draft : Draft.Result Unit) : Except CompileError Body :=
  match mode with
  | .physical => do
    let (items, supply) ← Supply.run pool {} draft.events
    draft.value
    return ⟨items, 0, supply.used pool⟩
  | .virtual => Body.ofTemporaries pool spillBase function draft

end ChocoRV
