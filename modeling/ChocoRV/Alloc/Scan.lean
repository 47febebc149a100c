import ChocoRV.Alloc.Interval
import ChocoRV.Diagnostic

/-!
# Linear scan

Intervals are visited by their start. Each one takes the first register of the pool that no
interval still active holds. When none is left, the interval that ends last gives up its register
and lives in the frame instead.
-/

namespace ChocoRV

/-- Where a temporary lives. -/
inductive Location where
  | reg (r : PhysReg)
  /-- The frame word at this offset from `fp`. -/
  | spill (offset : Int32)
deriving DecidableEq, Repr, Inhabited

namespace Scan

/-- An interval that holds a slot of the pool. -/
structure Active where
  interval : Interval
  slot : Nat
deriving DecidableEq, Repr, Inhabited

structure State where
  active : List Active
  assignment : Std.ExtTreeMap Nat Location
  /-- The number of temporaries spilled so far. -/
  spills : Nat

/-- What the scan is given: the pool, the frame offset of the first spilled temporary, and the
function's name for messages. -/
structure Setup where
  pool : List PhysReg
  spillBase : Int32
  function : String

/-- The lowest offset that one load or store can reach. -/
def minOffset : Int32 := -2048

/-- The frame offset of the `k`-th spilled temporary. -/
def spillOffset (base : Int32) (k : Nat) : Int32 := base - Int32.ofNat k * 4

def start : State := ⟨[], ∅, 0⟩

/-- The first slot of the pool that no active interval holds. -/
def freeSlot? (n : Nat) (active : List Active) : Option Nat :=
  (List.range n).find? fun slot => active.all (·.slot != slot)

/-- The active interval that ends last. -/
def lastActive? : List Active → Option Active
  | [] => none
  | a :: rest =>
    match lastActive? rest with
    | some b => some (if b.interval.endsAfter a.interval then b else a)
    | none => some a

/-- Give temporary `v` the next frame word. -/
def spill (setup : Setup) (s : State) (v : Nat) : Except CompileError State :=
  let offset := spillOffset setup.spillBase s.spills
  if offset < minOffset then .error (.spillSlotsExhausted setup.function (s.spills + 1))
  else .ok { s with assignment := s.assignment.insert v (.spill offset), spills := s.spills + 1 }

/-- Give interval `iv` a slot of the pool. -/
def assign (setup : Setup) (s : State) (iv : Interval) (slot : Nat) : State :=
  { s with
    active := ⟨iv, slot⟩ :: s.active
    assignment := s.assignment.insert iv.vreg (.reg (setup.pool.getD slot .zero)) }

/-- Visit one interval. -/
def visit (setup : Setup) (s : State) (iv : Interval) : Except CompileError State :=
  let s := { s with active := s.active.filter fun a => iv.start ≤ a.interval.stop }
  match freeSlot? setup.pool.length s.active with
  | some slot => .ok (assign setup s iv slot)
  | none =>
    match lastActive? s.active with
    | some victim =>
      if victim.interval.endsAfter iv then do
        let s ← spill setup s victim.interval.vreg
        return assign setup { s with active := s.active.filter (· != victim) } iv victim.slot
      else spill setup s iv.vreg
    | none => spill setup s iv.vreg

/-- Visit all intervals. -/
def run (setup : Setup) (intervals : List Interval) : Except CompileError State :=
  intervals.foldlM (visit setup) start

end Scan

end ChocoRV
