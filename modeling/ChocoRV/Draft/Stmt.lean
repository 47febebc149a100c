import ChocoRV.Draft.Expr

/-!
# Code for statements

Statements leave every temporary they take released.
-/

namespace ChocoRV

namespace Env

open Draft (emit place take release)

variable {mode : RegisterMode}

/-- The type of the place that an assignment stores to. -/
def targetType (env : Env) (target : Expr) : Except CompileError ValueType :=
  match target with
  | .name i n => env.nameType n i.span
  | .member i object attr => return (← env.attrOf object attr i.span).type
  | .index i _ _ => return i.type
  | _ => .error (.unsupported ("assignment to " ++ target.kind) target.span)

/-- Store a register in the place that an expression names. -/
def store (env : Env) (target : Expr) (r : Reg) : Draft mode Unit :=
  match target with
  | .name i n => env.storeName n r i.span
  | .member i object attr => do
    let o ← env.expr object
    env.noneCheck o
    let a ← Draft.ofExcept (env.attrOf object attr i.span)
    env.note (.sw r o a.offset) ("set ." ++ attr)
    release o
  | .index _ seq idx => do
    let s ← env.expr seq
    env.noneCheck s
    let k ← env.expr idx
    env.boundsCheck s k
    elementAddr s k
    emit (.sw r .t0 0)
    release k
    release s
  | _ => Draft.fail (.unsupported ("assignment to " ++ target.kind) target.span)

/-- Store a value of type `type` in each target, in order. A target that holds references gets a box
of its own. -/
def assignAll (env : Env) (type : ValueType) (r : Reg) : List Expr → Draft mode Unit
  | [] => return ()
  | target :: rest => do
    let dst ← Draft.ofExcept (env.targetType target)
    if type.isUnboxed && !dst.isUnboxed then
      let boxed ← take "AssignStmt" target.span
      emit (.mv boxed r)
      env.coerce boxed type dst
      env.store target boxed
      release boxed
    else env.store target r
    env.assignAll type r rest

/-- The type of the elements that a loop runs over. -/
def elementType (span : Span) (seq : ValueType) : Except CompileError ValueType :=
  if seq.isStr then .ok .str
  else
    match seq.element? with
    | some t => .ok t
    | none => .error (.unsupported "for over a non-list" span)

mutual

/-- The code for a statement. -/
def stmt (env : Env) : Stmt → Draft mode Unit
  | .expr _ e => do
    let r ← env.expr e
    release r
  | .assign _ targets value => do
    let r ← env.expr value
    env.assignAll value.type r targets
    release r
  | .ifElse _ test onTrue onFalse => do
    let c ← env.expr test
    let other ← env.label
    let done ← env.label
    emit (.beqz c other)
    release c
    env.block onTrue
    emit (.jump done)
    place other
    env.block onFalse
    place done
  | .whileLoop _ test body => do
    let top ← env.label
    let done ← env.label
    place top
    let c ← env.expr test
    env.note (.beqz c done) "while"
    release c
    env.block body
    emit (.jump top)
    place done
  | .forEach span var seq body => do
    let elem ← Draft.ofExcept (elementType span seq.type)
    let type ← Draft.ofExcept (env.nameType var span)
    let s ← env.expr seq
    if !seq.type.isStr then env.noneCheck s
    let idx ← take "ForStmt" span
    emit (.li idx 0)
    let top ← env.label
    let done ← env.label
    place top
    -- The length is read again on every turn.
    env.note (.lw .t0 s Object.sizeOffset) "length"
    emit (.bge idx .t0 done)
    let item ← take "ForStmt" span
    if seq.type.isStr then charAt item s idx
    else
      elementAddr s idx
      emit (.lw item .t0 0)
    env.coerce item elem type
    env.storeName var item span
    release item
    emit (.addi idx idx 1)
    env.block body
    emit (.jump top)
    place done
    release idx
    release s
  | .ret _ value => do
    match value with
    | some e =>
      let r ← env.expr e
      match env.func with
      | some f => env.coerce r e.type (env.table.func f).result
      | none => pure ()
      emit (.mv .a0 r)
      release r
    | none => emit (.li .a0 0)
    env.note (.jump env.exit) "return"
  | .pass _ => return ()

/-- The code for statements in order. -/
def block (env : Env) : List Stmt → Draft mode Unit
  | [] => return ()
  | s :: ss => do
    env.stmt s
    env.block ss

end

end Env

end ChocoRV
