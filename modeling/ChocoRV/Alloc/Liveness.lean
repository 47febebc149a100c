import Std.Data.ExtTreeSet
import ChocoRV.Alloc.FlowGraph

/-!
# Liveness

A temporary is live before an instruction if some path from there reads it before writing it.
`transfer` says what one instruction does to the set of live temporaries. `pass` brings the sets
before and after every instruction up to date, from the last instruction to the first, and `solve`
passes until neither has changed anywhere.
-/

namespace ChocoRV

/-- A set of temporaries. -/
abbrev LiveSet := Std.ExtTreeSet Nat

/-- The live temporaries before and after each instruction of a stream. -/
structure Liveness where
  liveIn : Array LiveSet
  liveOut : Array LiveSet

namespace Op

variable {τ : Type}

/-- The temporary that is written. -/
def virtDef? (o : Op τ) : Option Nat := o.def?.bind Reg.virt?

/-- The temporaries that are read. -/
def virtUses (o : Op τ) : List Nat := o.uses.filterMap Reg.virt?

/-- The temporaries that are mentioned. -/
def virts (o : Op τ) : List Nat := o.virtDef?.toList ++ o.virtUses

/-- The live temporaries before an operation, from those after it. -/
def transfer (o : Op τ) (out : LiveSet) : LiveSet :=
  let kept := match o.virtDef? with
    | some v => out.erase v
    | none => out
  kept ∪ Std.ExtTreeSet.ofList o.virtUses

end Op

namespace FlowGraph

/-- What is live after instruction `k`, if `ins` is live before each instruction. -/
def outAt (g : FlowGraph) (ins : Array LiveSet) (k : Nat) : LiveSet :=
  (g.succ k).foldl (fun acc s => acc ∪ ins.getD s ∅) ∅

/-- What is live before instruction `k`, if `out` is live after it. -/
def inFrom (g : FlowGraph) (k : Nat) (out : LiveSet) : LiveSet :=
  match g.ops[k]? with
  | some op => op.transfer out
  | none => ∅

/-- Bring the instructions below `k` up to date, the last one first, and tell whether a set before
or after one of them has changed. -/
def passBelow (g : FlowGraph) : Nat → Liveness → Liveness × Bool
  | 0, live => (live, false)
  | k + 1, live =>
    let out := g.outAt live.liveIn k
    let before := g.inFrom k out
    if before ≠ live.liveIn.getD k ∅ ∨ out ≠ live.liveOut.getD k ∅ then
      let next : Liveness :=
        ⟨live.liveIn.setIfInBounds k before, live.liveOut.setIfInBounds k out⟩
      ((g.passBelow k next).1, true)
    else g.passBelow k live

def pass (g : FlowGraph) (live : Liveness) : Liveness × Bool := g.passBelow g.size live

/-- Pass until nothing changes, at most `fuel` times. -/
def solve (g : FlowGraph) : Nat → Liveness → Liveness
  | 0, live => live
  | fuel + 1, live =>
    let (next, changed) := g.pass live
    if changed then g.solve fuel next else next

/-- The temporaries that the stream mentions. -/
def virts (g : FlowGraph) : LiveSet :=
  g.ops.foldl (fun acc op => acc ∪ Std.ExtTreeSet.ofList op.virts) ∅

/-- Every pass that changes a set before an instruction adds a temporary to it. -/
def sweepBound (g : FlowGraph) : Nat := g.size * g.virts.size + 1

/-- Nothing is live yet. -/
def noneLive (g : FlowGraph) : Liveness := ⟨Array.replicate g.size ∅, Array.replicate g.size ∅⟩

/-- Once the sets before the instructions stay, one more pass brings the others up to date. -/
def liveness (g : FlowGraph) : Liveness := g.solve (g.sweepBound + 1) g.noneLive

end FlowGraph

namespace Liveness

def ofItems (items : List Item) : Liveness := (FlowGraph.ofItems items).liveness

end Liveness

end ChocoRV
