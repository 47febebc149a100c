import Std.Data.ExtTreeMap
import ChocoRV.Alloc.Liveness

/-!
# Live intervals

The stretch of instructions, from the first to the last, at which a temporary is live or is
mentioned.
-/

namespace ChocoRV

structure Interval where
  vreg : Nat
  start : Nat
  stop : Nat
deriving DecidableEq, Repr, Inhabited

namespace Interval

/-- Intervals are scanned by where they start; of two that start together the lower-numbered
temporary comes first. -/
def startsBefore (i j : Interval) : Bool :=
  i.start < j.start || (i.start == j.start && i.vreg ≤ j.vreg)

/-- The furthest end is spilled first; of two that end together the higher-numbered temporary. -/
def endsAfter (i j : Interval) : Bool :=
  j.stop < i.stop || (j.stop == i.stop && j.vreg < i.vreg)

/-- The temporaries that need a location at instruction `k`. -/
def occupants (g : FlowGraph) (live : Liveness) (k : Nat) : LiveSet :=
  let mentioned := match g.ops[k]? with
    | some op => op.virts
    | none => []
  live.liveIn.getD k ∅ ∪ live.liveOut.getD k ∅ ∪ Std.ExtTreeSet.ofList mentioned

/-- The interval of a temporary, stretched to instruction `k`. -/
def touch (k : Nat) (spans : Std.ExtTreeMap Nat (Nat × Nat)) (v : Nat) :
    Std.ExtTreeMap Nat (Nat × Nat) :=
  match spans[v]? with
  | some (start, _) => spans.insert v (start, k)
  | none => spans.insert v (k, k)

/-- The first and the last instruction at which each temporary needs a location. -/
def spans (g : FlowGraph) (live : Liveness) : Std.ExtTreeMap Nat (Nat × Nat) :=
  (List.range g.size).foldl
    (fun acc k => (occupants g live k).toList.foldl (touch k) acc) ∅

/-- Put an interval before the first one that it comes before. -/
def insertByStart (i : Interval) : List Interval → List Interval
  | [] => [i]
  | j :: rest => if i.startsBefore j then i :: j :: rest else j :: insertByStart i rest

/-- The intervals in the order in which they are scanned. -/
def sortByStart (intervals : List Interval) : List Interval := intervals.foldr insertByStart []

/-- The intervals of all temporaries, in the order in which they are scanned. -/
def all (g : FlowGraph) (live : Liveness) : List Interval :=
  sortByStart ((spans g live).toList.map fun (v, start, stop) => ⟨v, start, stop⟩)

end Interval

end ChocoRV
