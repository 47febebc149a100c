import ChocoRV.Draft.Basic
import ChocoRV.Alloc.Allocation

/-!
# The body of a function

A draft of the direct mode is over registers already, and the registers that it has used are to be
saved. Of a draft over temporaries the code is handed to the allocator, which chooses registers for
the whole function at once.
-/

namespace ChocoRV

/-- The body of a function over registers, with what its frame has to hold for it. -/
structure Body where
  items : List Item
  spillSlots : Nat
  saved : List PhysReg
deriving DecidableEq, Repr, Inhabited

namespace Body

/-- The code of a draft. -/
def draftItems (events : List Event) : List Item := events.filterMap Event.item?

/-- The body that a draft of the direct mode has come to. -/
def ofDirect (r : Draft.ResultOf .physical Unit) : Except CompileError Body := do
  r.value
  return ⟨draftItems r.events, 0, r.state.supply.used r.state.regs⟩

/-- The body that is made of a draft over temporaries. -/
def ofTemporaries (regs : List PhysReg) (spillBase : Int32) (function : String)
    (r : Draft.Result Unit) : Except CompileError Body := do
  r.value
  let a ← Allocation.allocate (draftItems r.events) regs spillBase function
  return ⟨a.items, a.spillSlots, a.used⟩

end Body

end ChocoRV
