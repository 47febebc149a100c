import ChocoRV.Frame
import ChocoRV.Draft.Placement
import ChocoRV.Draft.Stmt

/-!
# Code for functions

A function is drafted in the register mode of the settings, and its frame is laid around the body
that results.
-/

namespace ChocoRV

namespace Function

/-- The label of the top level. -/
def main : String := "main"

variable {mode : RegisterMode}

/-- Where the drafting of a function begins, with the constants so far and the registers that
temporaries are given. -/
def start (pool : ConstantPool) (regs : List PhysReg := []) : Draft.StateOf mode :=
  { labels := Env.firstLabel, temps := 0, pool, regs }

def topLevelEnv (table : SymbolTable) (comments : Bool) : Env :=
  ⟨table, comments, none, SymbolTable.globalScope, main⟩

def funcEnv (table : SymbolTable) (comments : Bool) (id : Nat) : Env :=
  ⟨table, comments, some id, (table.func id).scope, (table.func id).label.name⟩

/-- Give the locals of a function their initial values. -/
def initLocals (env : Env) (locals : List LocalVar) : Draft mode Unit :=
  locals.zipIdx.forM fun (v, k) => do
    Draft.loadLiteral .t0 v.init v.type
    env.note (.sw .t0 .fp (Frame.localOffset k)) ("local " ++ v.name)

/-- The draft of a function; one that does not return a value returns nothing. -/
def draft (env : Env) (f : FuncInfo) : Draft mode Unit := do
  initLocals env f.locals
  env.block f.body
  env.note (.li .a0 0) "implicit return None"

/-- Draft the code of a function in the mode of the settings: the body, and the constants after
it. -/
def body (settings : CodegenSettings) (frame : Frame) (code : ∀ mode, Draft mode Unit)
    (pool : ConstantPool) : Except CompileError (Body × ConstantPool) :=
  match settings.registers with
  | .physical => do
    let r := code .physical (start pool settings.pool)
    return (← Body.ofDirect r, r.state.pool)
  | .virtual => do
    let r := code .virtual (start pool)
    return (← Body.ofTemporaries settings.pool frame.spillBase frame.name r, r.state.pool)

/-- Lay the frame around a body. -/
def finish (frame : Frame) (entry exit : Label) (body : Body) : List Item :=
  let frame := { frame with spillSlots := body.spillSlots, saved := body.saved }
  .label entry :: frame.prologue ++ body.items ++ frame.epilogue exit

/-- The code of the top level, and the constants after it. -/
def topLevel (settings : CodegenSettings) (table : SymbolTable) (stmts : List Stmt)
    (pool : ConstantPool) : Except CompileError (List Item × ConstantPool) := do
  let env := topLevelEnv table settings.comments
  let (b, pool) ← body settings .topLevel (fun _ => env.block stmts) pool
  return (finish .topLevel (.global main) env.exit b, pool)

/-- The code of function `id`, and the constants after it. -/
def func (settings : CodegenSettings) (table : SymbolTable) (id : Nat) (pool : ConstantPool) :
    Except CompileError (List Item × ConstantPool) := do
  let f := table.func id
  let env := funcEnv table settings.comments id
  let (b, pool) ← body settings (.ofFunc f) (fun _ => draft env f) pool
  return (finish (.ofFunc f) f.label env.exit b, pool)

/-- The code of functions in order, and the constants after them. -/
def all (settings : CodegenSettings) (table : SymbolTable) :
    List Nat → ConstantPool → Except CompileError (List Item × ConstantPool)
  | [], pool => .ok ([], pool)
  | id :: rest, pool => do
    let (items, pool) ← func settings table id pool
    let (more, pool) ← all settings table rest pool
    return (items ++ more, pool)

end Function

end ChocoRV
