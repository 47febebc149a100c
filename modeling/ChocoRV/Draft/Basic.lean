import ChocoRV.Constant
import ChocoRV.Settings.Basic
import ChocoRV.Symbol.Table

/-!
# Drafts

Code in the making. The same steps draft code in both register modes; only where temporaries come
from differs.

* In the direct mode a temporary is a register of the pool, the first one that no other temporary
  holds, and drafting fails if there is none. `Supply` says which registers are in use.
* In the other mode a temporary is a number. Such a draft records where each temporary is taken and
  where it is released, besides the instructions.

What a draft has recorded before an error stays.
-/

namespace ChocoRV

/-- An entry of a draft. -/
inductive Event where
  | item (i : Item)
  /-- Temporary `t` is taken for the construct `what` at `span`. -/
  | take (t : Nat) (what : String) (span : Span)
  | release (t : Nat)
deriving DecidableEq, Repr, Inhabited

namespace Event

def item? : Event → Option Item
  | .item i => some i
  | _ => none

end Event

/-- The pool of registers while a draft is made. -/
structure Supply where
  /-- The slot of each temporary taken so far. -/
  slots : List (Nat × Nat) := []
  /-- The slots in use. -/
  busy : List Nat := []
  /-- The slots that have been in use. -/
  touched : List Nat := []
deriving DecidableEq, Repr, Inhabited

namespace Supply

/-- The first slot out of `n` that is not in use. -/
def free? (s : Supply) (n : Nat) : Option Nat := (List.range n).find? (!s.busy.contains ·)

/-- The first register that is not in use, and its slot. -/
def next? (s : Supply) (regs : List PhysReg) : Option (Nat × PhysReg) :=
  (s.free? regs.length).bind fun k => regs[k]?.map (k, ·)

/-- Temporary `t` gets slot `k`. -/
def take (s : Supply) (t k : Nat) : Supply :=
  { slots := (t, k) :: s.slots, busy := k :: s.busy
    touched := if s.touched.contains k then s.touched else k :: s.touched }

/-- A slot is given back. -/
def free (s : Supply) (k : Nat) : Supply := { s with busy := s.busy.filter (· != k) }

/-- The registers that have been in use, in pool order. -/
def used (s : Supply) (regs : List PhysReg) : List PhysReg :=
  (regs.zipIdx.filter fun (_, k) => s.touched.contains k).map (·.1)

end Supply

namespace Draft

/-- How many labels and temporaries have been used, the constants so far, and the registers for
temporaries with the use that has been made of them. -/
structure StateOf (mode : RegisterMode) where
  labels : Nat
  temps : Nat
  pool : ConstantPool
  regs : List PhysReg := []
  supply : Supply := {}
deriving DecidableEq, Repr, Inhabited

/-- What drafting has come to. -/
structure ResultOf (mode : RegisterMode) (α : Type) where
  events : List Event
  state : StateOf mode
  value : Except CompileError α

/-- The state while code over temporaries is drafted. -/
abbrev State := StateOf .virtual

/-- What drafting code over temporaries has come to. -/
abbrev Result := ResultOf .virtual

end Draft

/-- A piece of drafting that gives a value of type `α`. -/
def Draft (mode : RegisterMode) (α : Type) : Type := Draft.StateOf mode → Draft.ResultOf mode α

namespace Draft

variable {mode : RegisterMode} {α β : Type}

/-- Draft nothing. -/
def pure (a : α) : Draft mode α := fun s => ⟨[], s, .ok a⟩

/-- Draft `x`, then what follows from its value. -/
def bind (x : Draft mode α) (f : α → Draft mode β) : Draft mode β := fun s =>
  let r := x s
  match r.value with
  | .ok a =>
    let r' := f a r.state
    ⟨r.events ++ r'.events, r'.state, r'.value⟩
  | .error e => ⟨r.events, r.state, .error e⟩

instance : Monad (Draft mode) where
  pure := Draft.pure
  bind := Draft.bind

def fail (e : CompileError) : Draft mode α := fun s => ⟨[], s, .error e⟩

def ofExcept : Except CompileError α → Draft mode α
  | .ok a => pure a
  | .error e => fail e

/-- Record one event. -/
def record (e : Event) : Draft mode Unit := fun s => ⟨[e], s, .ok ()⟩

def emit (o : Op Label) : Draft mode Unit := record (.item (.op o))

def place (l : Label) : Draft mode Unit := record (.item (.label l))

/-- A new temporary. The construct it is for is named in the error if no register is left. -/
def take (what : String) (span : Span) : Draft mode Reg :=
  match mode with
  | .virtual => fun s =>
    ⟨[.take s.temps what span], { s with temps := s.temps + 1 }, .ok (.virt s.temps)⟩
  | .physical => fun s =>
    match s.supply.next? s.regs with
    | some (k, p) =>
      ⟨[], { s with temps := s.temps + 1, supply := s.supply.take s.temps k }, .ok (.phys p)⟩
    | none => ⟨[], s, .error (.poolExhausted what span)⟩

/-- Give a temporary back. -/
def release (r : Reg) : Draft mode Unit :=
  match mode, r with
  | .virtual, .virt t => record (.release t)
  | .virtual, .phys _ => pure ()
  | .physical, .virt _ => pure ()
  | .physical, .phys p => fun s =>
    match s.regs.idxOf? p with
    | some k => ⟨[], { s with supply := s.supply.free k }, .ok ()⟩
    | none => ⟨[], s, .ok ()⟩

def intern (c : Constant) : Draft mode Label := fun s =>
  let (l, pool) := s.pool.intern c
  ⟨[], { s with pool }, .ok l⟩

/-- Load a literal as a value of some type: integers and booleans are plain words in variables of
their types and references to boxes elsewhere. -/
def loadLiteral (rd : Reg) (lit : Literal) (type : ValueType) : Draft mode Unit :=
  match lit with
  | .int n =>
    if type.isUnboxed then emit (.li rd n)
    else do
      let l ← intern (.int n)
      emit (.la rd l)
  | .bool b =>
    if type.isUnboxed then emit (.li rd (boolWord b))
    else emit (.la rd (ConstantPool.boolLabel b))
  | .str s => do
    let l ← intern (.str s)
    emit (.la rd l)
  | .none => emit (.li rd 0)

end Draft

/-- The function that code is being drafted for. -/
structure Env where
  table : SymbolTable
  /-- Instructions get comments. -/
  comments : Bool
  /-- The number of the function; none for the top level. -/
  func : Option Nat
  scope : Nat
  /-- The name that the labels of the function begin with. -/
  unit : String

namespace Env

/-- The label at which the function is left. -/
def exit (env : Env) : Label := .nth env.unit 0

/-- The first label after the one at which the function is left. -/
def firstLabel : Nat := 1

variable {mode : RegisterMode}

/-- Emit an operation with a comment, if there are comments. -/
def note (env : Env) (o : Op Label) (comment : String) : Draft mode Unit :=
  Draft.record (.item (.instr ⟨o, if env.comments then some comment else none⟩))

/-- A new label of the function. -/
def label (env : Env) : Draft mode Label := fun s =>
  ⟨[], { s with labels := s.labels + 1 }, .ok (.nth env.unit s.labels)⟩

/-- What a name stands for. -/
def resolve (env : Env) (name : String) (span : Span) : Except CompileError Symbol :=
  env.table.lookup env.scope name span

/-- How many functions enclose the code; none for the top level. -/
def depth? (env : Env) : Option Nat := env.func.map fun f => (env.table.func f).depth

end Env

end ChocoRV
