import Std.Data.ExtTreeMap
import ChocoRV.Asm.Program

/-!
# Flow graphs

The instructions of one stream and where control can go after each of them. Instructions are
numbered without the labels between them.
-/

namespace ChocoRV

structure FlowGraph where
  ops : Array (Op Label)
  /-- The instructions that may come right after each one. -/
  succs : Array (List Nat)

namespace FlowGraph

/-- The number of the instruction after each label, with `k` instructions before the stream. -/
def positions : Nat → List Item → List (String × Nat)
  | _, [] => []
  | k, .label l :: rest => (l.name, k) :: positions k rest
  | k, .instr _ :: rest => positions (k + 1) rest

/-- Labels by name; the last definition of a name counts. -/
def labelTable (items : List Item) : Std.ExtTreeMap String Nat :=
  (positions 0 items).foldl (fun table entry => table.insert entry.1 entry.2) ∅

/-- What may follow instruction `k` of `n`. Control that goes to a label outside the stream or at
its end has left it. -/
def succsOf (table : Std.ExtTreeMap String Nat) (n k : Nat) (op : Op Label) : List Nat :=
  let next := if k + 1 < n then [k + 1] else []
  let target (l : Label) := (table[l.name]?.filter (· < n)).toList
  match op.flow with
  | .next => next
  | .jump l => target l
  | .branch l => next ++ target l
  | .exit => []

def ofItems (items : List Item) : FlowGraph :=
  let ops := (Assembly.instrs items).map Instr.op
  let table := labelTable items
  { ops := ops.toArray
    succs := (ops.zipIdx.map fun (op, k) => succsOf table ops.length k op).toArray }

def size (g : FlowGraph) : Nat := g.ops.size

def succ (g : FlowGraph) (k : Nat) : List Nat := g.succs.getD k []

end FlowGraph

end ChocoRV
