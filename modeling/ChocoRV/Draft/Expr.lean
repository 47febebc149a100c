import ChocoRV.Draft.Basic
import ChocoRV.Routine.Basic

/-!
# Code for expressions

The value of an expression is left in a new temporary, which whoever asked for it releases. Integers
and booleans are plain words; every other value is a reference, 0 for nothing.
-/

namespace ChocoRV

namespace Env

open Draft (emit place take release)

variable {mode : RegisterMode}

/-! ## Names -/

/-- Follow `n` static links from the frame at `base`. -/
def followLinks (env : Env) : Nat → Reg → Draft mode Reg
  | 0, base => return base
  | n + 1, base => do
    env.note (.lw .t0 base 0) "static link"
    env.followLinks n .t0

/-- The register that points to the frame of function `owner`, which is the function itself or one
around it. -/
def frameOf (env : Env) (owner : Nat) (span : Span) : Draft mode Reg :=
  let f := env.table.func owner
  match env.depth? with
  | some depth =>
    if f.depth ≤ depth then env.followLinks (depth - f.depth) .fp
    else Draft.fail (.unsupported ("access to a variable of '" ++ f.name ++ "'") span)
  | none => Draft.fail (.unsupported ("access to a variable of '" ++ f.name ++ "'") span)

/-- Load a variable. -/
def loadName (env : Env) (name : String) (span : Span) : Draft mode Reg := do
  let sym ← Draft.ofExcept (env.resolve name span)
  let r ← take "Identifier" span
  match sym with
  | .global g =>
    emit (.la r g.label)
    env.note (.lw r r 0) ("global " ++ name)
    return r
  | .stack v =>
    let base ← env.frameOf v.func span
    env.note (.lw r base v.offset) ("load " ++ name)
    return r
  | _ => Draft.fail (.unsupported ("'" ++ name ++ "' used as a value") span)

/-- Store a register in a variable. -/
def storeName (env : Env) (name : String) (r : Reg) (span : Span) : Draft mode Unit := do
  match ← Draft.ofExcept (env.resolve name span) with
  | .global g =>
    emit (.la .t0 g.label)
    env.note (.sw r .t0 0) ("global " ++ name ++ " =")
  | .stack v =>
    let base ← env.frameOf v.func span
    env.note (.sw r base v.offset) (name ++ " =")
  | _ => Draft.fail (.unsupported ("assignment to '" ++ name ++ "'") span)

/-- The declared type of a variable. -/
def nameType (env : Env) (name : String) (span : Span) : Except CompileError ValueType := do
  match ← env.resolve name span with
  | .global g => return g.type
  | .stack v => return v.type
  | _ => throw (.unsupported ("'" ++ name ++ "' is not a variable") span)

/-- The attribute that a member expression names. -/
def attrOf (env : Env) (object : Expr) (attr : String) (span : Span) :
    Except CompileError Attribute := do
  let c ← env.table.classOf object.type
  match env.table.attrOf c attr with
  | .ok a => return a
  | .error _ => throw (.unresolved (c.name ++ "." ++ attr) span)

/-! ## Checks and conversions -/

/-- End the program if the reference is to nothing. -/
def noneCheck (env : Env) (r : Reg) : Draft mode Unit :=
  env.note (.beqz r Routine.errorNone) "None check"

/-- End the program unless the index lies within the sequence. Compared as a number without sign, a
negative index is too large as well. -/
def boundsCheck (env : Env) (seq idx : Reg) : Draft mode Unit := do
  env.note (.lw .t0 seq Object.sizeOffset) "length"
  emit (.bgeu idx .t0 Routine.errorOob)

/-- Let `t0` point to an element of a list. -/
def elementAddr (seq idx : Reg) : Draft mode Unit := do
  emit (.slli .t0 idx Op.wordShift)
  emit (.add .t0 seq .t0)

/-- A string of the one byte at an index of a string. -/
def charAt (dst str idx : Reg) : Draft mode Unit := do
  emit (.add .t0 str idx)
  emit (.lbu .a0 .t0 0)
  emit (.call Routine.strChar)
  emit (.mv dst .a0)

/-- Box a plain word in place where a value of type `src` goes to a place of type `dst` that holds
references. -/
def coerce (env : Env) (r : Reg) (src dst : ValueType) : Draft mode Unit :=
  if !src.isUnboxed || dst.isUnboxed then return ()
  else if src.isBool then do
    let falsy ← env.label
    let done ← env.label
    env.note (.beqz r falsy) "box bool"
    emit (.la r (ConstantPool.boolLabel true))
    emit (.jump done)
    place falsy
    emit (.la r (ConstantPool.boolLabel false))
    place done
  else do
    env.note (.la .a0 Routine.intPrototype) "box int"
    emit (.call Routine.alloc)
    emit (.sw r .a0 0)
    emit (.mv r .a0)

/-! ## Operators -/

/-- Call a routine of two arguments and leave its result in place of the first. -/
def callRoutine (routine : Label) (l r : Reg) : Draft mode Unit := do
  emit (.mv .a0 l)
  emit (.mv .a1 r)
  emit (.call routine)
  emit (.mv l .a0)

/-- Concatenation copies elements as they are, so both lists have to hold them in the form that the
result has. -/
def checkConcat (span : Span) (result left right : ValueType) : Except CompileError Unit :=
  match result.element? with
  | none => .ok ()
  | some elem =>
    let agrees (side : ValueType) : Bool := match side.element? with
      | some e => e.isUnboxed == elem.isUnboxed
      | none => true
    if agrees left && agrees right then .ok ()
    else .error (.unsupported "list concatenation that would box elements" span)

/-- Division that rounds down: the truncated quotient is one too large when the remainder is not
zero and differs in sign from the divisor. -/
def floorDiv (env : Env) (l r : Reg) : Draft mode Unit := do
  env.note (.beqz r Routine.errorDiv) "divisor zero?"
  emit (.div .t0 l r)
  emit (.rem .t1 l r)
  emit (.snez .t2 .t1)
  emit (.xor .t1 .t1 r)
  emit (.slt .t1 .t1 .zero)
  emit (.and .t1 .t1 .t2)
  emit (.sub l .t0 .t1)

/-- The remainder that goes with `floorDiv`; it has the sign of the divisor. -/
def floorMod (env : Env) (l r : Reg) : Draft mode Unit := do
  env.note (.beqz r Routine.errorDiv) "divisor zero?"
  emit (.rem .t0 l r)
  emit (.snez .t2 .t0)
  emit (.xor .t1 .t0 r)
  emit (.slt .t1 .t1 .zero)
  emit (.and .t1 .t1 .t2)
  emit (.mul .t1 .t1 r)
  emit (.add l .t0 .t1)

/-- Combine two operands of the types `left` and `right` into the first. What addition and equality
mean depends on the type of the left one. -/
def applyOp (env : Env) (info : ExprInfo) (op : BinOp) (left right : ValueType) (l r : Reg) :
    Draft mode Unit :=
  match op with
  | .add =>
    if left.isStr then callRoutine Routine.strcat l r
    else if left.isList then do
      Draft.ofExcept (checkConcat info.span info.type left right)
      callRoutine Routine.listconcat l r
    else emit (.add l l r)
  | .sub => emit (.sub l l r)
  | .mul => emit (.mul l l r)
  | .floorDiv => env.floorDiv l r
  | .mod => env.floorMod l r
  | .eq =>
    if left.isStr then callRoutine Routine.streql l r
    else do
      emit (.sub l l r)
      emit (.seqz l l)
  | .ne =>
    if left.isStr then do
      callRoutine Routine.streql l r
      emit (.xori l l 1)
    else do
      emit (.sub l l r)
      emit (.snez l l)
  | .is => do
    emit (.sub l l r)
    emit (.seqz l l)
  | .lt => emit (.slt l l r)
  | .gt => emit (.slt l r l)
  | .le => do
    emit (.slt l r l)
    emit (.xori l l 1)
  | .ge => do
    emit (.slt l l r)
    emit (.xori l l 1)
  | .and | .or =>
    Draft.fail (.unsupported
      ("operator '" ++ op.symbol ++ "' after short-circuit lowering") info.span)

/-! ## Calls -/

/-- Make room for the words of a call. -/
def reserveArgs (env : Env) (words : Nat) : Draft mode Unit :=
  if 0 < words then
    env.note (.addi .sp .sp (-Object.slotOffset words)) (toString words ++ " argument words")
  else return ()

/-- The first words of a call also go into registers. -/
def loadArgRegs (words : Nat) : Draft mode Unit :=
  (PhysReg.args.take words).zipIdx.forM fun (a, k) =>
    emit (.lw (.phys a) .sp (Object.slotOffset k))

/-- Call the method in a slot of the dispatch table of the object in `a0`. -/
def dispatch (env : Env) (slot : Nat) (name : String) : Draft mode Unit := do
  emit (.lw .t0 .a0 Object.dispatchTableOffset)
  env.note (.lw .t0 .t0 (Object.slotOffset slot)) ("method " ++ name)
  emit (.callReg .t0)

/-- Give back the room of a call and keep its result. -/
def finishCall (words : Nat) (what : String) (span : Span) : Draft mode Reg := do
  if 0 < words then emit (.addi .sp .sp (Object.slotOffset words))
  let dst ← take what span
  emit (.mv dst .a0)
  return dst

def checkArgCount (span : Span) (given expected : Nat) : Except CompileError Unit :=
  if expected = given then .ok ()
  else
    .error (.invalidProgram
      ("call at " ++ span.text ++ " passes " ++ toString given ++ " arguments, expected " ++
        toString expected))

/-- Pass the static link to a nested function. -/
def passLink (env : Env) (f : FuncInfo) (span : Span) : Draft mode Unit :=
  if f.hasStaticLink then
    match f.parent with
    | some parent => do
      let base ← env.frameOf parent span
      env.note (.sw base .sp 0) ("static link for " ++ f.name)
    | none => Draft.fail (.invalidProgram ("nested function '" ++ f.name ++ "' has no parent"))
  else return ()

/-- A new object of a class, after its constructor has run. -/
def construct (env : Env) (c : ClassInfo) (span : Span) : Draft mode Reg := do
  let dst ← take "CallExpr" span
  if c.name == "int" || c.name == "bool" then
    emit (.li dst 0)
    return dst
  else if c.name == "str" then
    let l ← Draft.intern (.str "")
    emit (.la dst l)
    return dst
  else
    match c.method? "__init__" with
    | none => Draft.fail (.unresolved (c.name ++ ".__init__") span)
    | some (slot, _) =>
      env.note (.la .a0 c.prototype) ("new " ++ c.name)
      emit (.call Routine.alloc)
      emit (.mv dst .a0)
      env.reserveArgs 1
      emit (.sw .a0 .sp 0)
      env.dispatch slot "__init__"
      emit (.addi .sp .sp Object.wordSize)
      return dst

/-- The method that a call names: its slot, and the parameters after the object itself. -/
def methodOf (env : Env) (object : Expr) (method : String) (span : Span) :
    Except CompileError (Nat × List TypedVar) := do
  let c ← env.table.classOf object.type
  match c.method? method with
  | some (slot, m) =>
    let params := match m.func with
      | some id => (env.table.func id).params.drop 1
      | none => []
    return (slot, params)
  | none => throw (.unresolved (c.name ++ "." ++ method) span)

/-! ## Expressions -/

mutual

/-- The code for an expression; its value is in the register that is returned. -/
def expr (env : Env) : Expr → Draft mode Reg
  | .int i v => do
    let r ← take "IntegerLiteral" i.span
    emit (.li r v)
    return r
  | .bool i v => do
    let r ← take "BooleanLiteral" i.span
    emit (.li r (boolWord v))
    return r
  | .str i v => do
    let r ← take "StringLiteral" i.span
    let l ← Draft.intern (.str v)
    emit (.la r l)
    return r
  | .none i => do
    let r ← take "NoneLiteral" i.span
    emit (.li r 0)
    return r
  | .name i n => env.loadName n i.span
  | .unary _ op e => do
    let r ← env.expr e
    match op with
    | .neg => emit (.neg r r)
    | .not => emit (.seqz r r)
    return r
  | .binary i left op right =>
    match op with
    | .and | .or => do
      let l ← env.expr left
      let done ← env.label
      let skip : Op Label := if op = .and then .beqz l done else .bnez l done
      env.note skip ("short-circuit " ++ op.symbol)
      let r ← env.expr right
      emit (.mv l r)
      release r
      place done
      return l
    | _ => do
      let l ← env.expr left
      let r ← env.expr right
      env.applyOp i op left.type right.type l r
      release r
      return l
  | .cond i test onTrue onFalse => do
    let dst ← take "IfExpr" i.span
    let c ← env.expr test
    let other ← env.label
    let done ← env.label
    emit (.beqz c other)
    release c
    let v ← env.expr onTrue
    env.coerce v onTrue.type i.type
    emit (.mv dst v)
    release v
    emit (.jump done)
    place other
    let v ← env.expr onFalse
    env.coerce v onFalse.type i.type
    emit (.mv dst v)
    release v
    place done
    return dst
  | .call i function args => do
    match ← Draft.ofExcept (env.resolve function i.span) with
    | .cls id => env.construct (env.table.cls id) i.span
    | .func id =>
      let f := env.table.func id
      let words := f.argCount
      env.reserveArgs words
      Draft.ofExcept (checkArgCount i.span args.length f.params.length)
      env.args (if f.hasStaticLink then 1 else 0) f.params args
      env.passLink f i.span
      loadArgRegs words
      emit (.call f.label)
      finishCall words "CallExpr" i.span
    | _ => Draft.fail (.unsupported ("call of non-function '" ++ function ++ "'") i.span)
  | .methodCall i object method args => do
    let (slot, params) ← Draft.ofExcept (env.methodOf object method i.span)
    let words := 1 + args.length
    env.reserveArgs words
    let o ← env.expr object
    env.noneCheck o
    env.note (.sw o .sp 0) "self"
    release o
    Draft.ofExcept (checkArgCount i.span args.length params.length)
    env.args 1 params args
    loadArgRegs words
    env.dispatch slot method
    finishCall words "MethodCallExpr" i.span
  | .member i object attr => do
    let o ← env.expr object
    env.noneCheck o
    let a ← Draft.ofExcept (env.attrOf object attr i.span)
    env.note (.lw o o a.offset) ("get ." ++ attr)
    return o
  | .index _ seq idx => do
    let s ← env.expr seq
    if seq.type.isStr then
      let k ← env.expr idx
      env.boundsCheck s k
      charAt s s k
      release k
      return s
    else
      env.noneCheck s
      let k ← env.expr idx
      env.boundsCheck s k
      elementAddr s k
      emit (.lw s .t0 0)
      release k
      return s
  | .list i elements => do
    let n := Int32.ofNat elements.length
    env.note (.la .a0 Routine.listPrototype) ("new list of " ++ toString n.toInt)
    emit (.li .a1 n)
    emit (.li .a2 n)
    emit (.call Routine.alloc2)
    let dst ← take "ListExpr" i.span
    emit (.mv dst .a0)
    env.elements dst i.type.element? 0 elements
    return dst

/-- Put the arguments of a call into its words from word `k` on. -/
def args (env : Env) (k : Nat) : List TypedVar → List Expr → Draft mode Unit
  | p :: ps, e :: es => do
    let r ← env.expr e
    env.coerce r e.type p.type
    env.note (.sw r .sp (Object.slotOffset k)) ("arg " ++ p.name)
    release r
    env.args (k + 1) ps es
  | _, _ => return ()

/-- Put the elements of a list display into the list from element `k` on. -/
def elements (env : Env) (dst : Reg) (type : Option ValueType) (k : Nat) :
    List Expr → Draft mode Unit
  | [] => return ()
  | e :: es => do
    let r ← env.expr e
    match type with
    | some t => env.coerce r e.type t
    | none => pure ()
    emit (.sw r dst (Object.slotOffset k))
    release r
    env.elements dst type (k + 1) es

end

end Env

end ChocoRV
