import ChocoRV.Constant
import ChocoRV.Routine.Basic
import ChocoRV.Symbol.Table
import ChocoRV.Machine.Step

/-!
# The code of the support routines

The code that every program comes with: error exits, allocation, strings, lists and printing. The
routines use caller-saved registers only, so temporaries survive their calls. Arguments come in `a0`
to `a2`, results go out in `a0`.
-/

namespace ChocoRV

namespace Routine

/-- A private label of a routine. -/
def loc (routine : Label) (n : Nat) : Label := .nth routine.name n

/-- The constants that the routines print. -/
structure Messages where
  onNone : Label
  division : Label
  bounds : Label
  object : Label
  yes : Label
  no : Label

/-- The messages as constants of the pool. -/
def messages (pool : ConstantPool) : Messages × ConstantPool :=
  let (onNone, pool) := pool.intern (.str "Operation on None")
  let (division, pool) := pool.intern (.str "Division by zero")
  let (bounds, pool) := pool.intern (.str "Index out of bounds")
  let (object, pool) := pool.intern (.str "<object>")
  let (yes, pool) := pool.intern (.str "True")
  let (no, pool) := pool.intern (.str "False")
  (⟨onNone, division, bounds, object, yes, no⟩, pool)

def syscall (s : Syscall) : List Item := [.op (.li .a7 s.number), .op .ecall]

/-- An error exit: `abort` with an exit code and the bytes of a message. -/
def errorExit (name : Label) (code : Int32) (text : String) (message : Label) (payload : Int32) :
    List Item :=
  [.label name,
    .noted (.li .a0 code) ("exit code for: " ++ text),
    .op (.la .a1 message),
    .noted (.addi .a1 .a1 payload) "message bytes",
    .op (.jump abort)]

/-- Print the text at `a1` and a line feed, and exit with the code in `a0`. -/
def abortItems : List Item :=
  [.label abort, .op (.mv .t0 .a0), .op (.mv .a0 .a1)] ++ syscall .printString ++
    [.op (.li .a0 10)] ++ syscall .printChar ++ [.op (.mv .a0 .t0)] ++ syscall .exitCode

/-- Copy `count` bytes or words from `src` to `dst`; all three registers are used up, and `t3`. Its
labels are numbered from `n` on. -/
def copyLoop (routine : Label) (n : Nat) (width : Width) (src dst count : Reg) : List Item :=
  let top := loc routine n
  let done := loc routine (n + 1)
  let step : Int32 := match width with
    | .byte => 1
    | .word => 4
  [.label top, .op (.beqz count done), .op (.load width .t3 src 0), .op (.store width .t3 dst 0),
    .op (.addi src src step), .op (.addi dst dst step), .op (.addi count count (-1)),
    .op (.jump top), .label done]

/-- A copy of the object at `a0`, whose size counts its payload words. -/
def allocItems : List Item :=
  [.label alloc,
    .noted (.mv .t0 .a0) "prototype",
    .noted (.lw .t1 .t0 Object.sizeOffset) "attribute count",
    .op (.addi .a0 .t1 3),
    .op (.slli .a0 .a0 Op.wordShift)] ++
  syscall .sbrk ++
  [.noted (.addi .a0 .a0 12) "object reference",
    .op (.addi .t2 .t0 Object.tagOffset),
    .op (.addi .t4 .a0 Object.tagOffset),
    .op (.addi .t1 .t1 3)] ++
  copyLoop alloc 0 .word .t2 .t4 .t1 ++
  [.op (.jumpReg .ra)]

/-- A new object with the header of the one at `a0`, the size in `a1` and `a2` payload words, all
zero. -/
def alloc2Items : List Item :=
  let top := loc alloc2 0
  let done := loc alloc2 1
  [.label alloc2,
    .noted (.mv .t0 .a0) "prototype",
    .op (.addi .a0 .a2 3),
    .op (.slli .a0 .a0 Op.wordShift)] ++
  syscall .sbrk ++
  [.noted (.addi .a0 .a0 12) "object reference",
    .op (.lw .t1 .t0 Object.tagOffset),
    .op (.sw .t1 .a0 Object.tagOffset),
    .op (.lw .t1 .t0 Object.dispatchTableOffset),
    .op (.sw .t1 .a0 Object.dispatchTableOffset),
    .op (.sw .a1 .a0 Object.sizeOffset),
    .op (.mv .t1 .a0),
    .op (.mv .t2 .a2),
    .label top,
    .op (.beqz .t2 done),
    .op (.sw .zero .t1 0),
    .op (.addi .t1 .t1 4),
    .op (.addi .t2 .t2 (-1)),
    .op (.jump top),
    .label done,
    .op (.jumpReg .ra)]

/-- The constructor that does nothing. -/
def objectInitItems : List Item := [.label objectInit, .op (.li .a0 0), .op (.jumpReg .ra)]

/-- Print an object and a line feed: integers, booleans and strings by value, all others by a
placeholder. -/
def printItems (m : Messages) : List Item :=
  let asInt := loc print 0
  let asBool := loc print 1
  let asStr := loc print 2
  let newline := loc print 3
  [.label print,
    .op (.beqz .a0 errorNone),
    .op (.lw .t0 .a0 Object.tagOffset),
    .op (.li .t1 Object.intTag),
    .op (.beq .t0 .t1 asInt),
    .op (.li .t1 Object.boolTag),
    .op (.beq .t0 .t1 asBool),
    .op (.li .t1 Object.strTag),
    .op (.beq .t0 .t1 asStr),
    .op (.la .a0 m.object),
    .op (.jump asStr),
    .label asInt,
    .op (.lw .a0 .a0 0)] ++
  syscall .printInt ++
  [.op (.jump newline),
    .label asBool,
    .op (.lw .t0 .a0 0),
    .op (.la .a0 m.yes),
    .op (.bnez .t0 asStr),
    .op (.la .a0 m.no),
    .label asStr] ++
  syscall .printString ++
  [.label newline,
    .op (.li .a0 10)] ++
  syscall .printChar ++
  [.op (.li .a0 0),
    .op (.jumpReg .ra)]

/-- The size of a list or a string. -/
def lenItems : List Item :=
  [.label len, .op (.beqz .a0 errorNone), .op (.lw .a0 .a0 Object.sizeOffset), .op (.jumpReg .ra)]

/-- A string of the byte in `a0`. -/
def strCharItems : List Item :=
  [.label strChar,
    .op (.addi .sp .sp (-16)),
    .op (.sw .ra .sp 12),
    .op (.sw .a0 .sp 8),
    .op (.la .a0 strPrototype),
    .op (.li .a1 1),
    .op (.li .a2 1),
    .op (.call alloc2),
    .op (.lw .t0 .sp 8),
    .op (.sb .t0 .a0 0),
    .op (.lw .ra .sp 12),
    .op (.addi .sp .sp 16),
    .op (.jumpReg .ra)]

/-- Append the sequence at `sp + slot` to what has been copied so far. -/
def appendItems (routine : Label) (n : Nat) (width : Width) (slot : Int32) : List Item :=
  [.op (.lw .t0 .sp slot), .op (.lw .t1 .t0 Object.sizeOffset)] ++
    copyLoop routine n width .t0 .t2 .t1

/-- A new sequence of the items of the one at `a0`, then of the one at `a1`: a string for bytes, a
list for words. -/
def concatItems (routine prototype : Label) (width : Width) : List Item :=
  let checks : List Item := match width with
    | .byte => []
    | .word => [.op (.beqz .a0 errorNone), .op (.beqz .a1 errorNone)]
  let words : List Item := match width with
    | .byte => [.op (.addi .a2 .a1 4), .op (.srai .a2 .a2 Op.wordShift)]
    | .word => [.op (.mv .a2 .a1)]
  [.label routine] ++ checks ++
  [.op (.addi .sp .sp (-16)),
    .op (.sw .ra .sp 12),
    .op (.sw .a0 .sp 8),
    .op (.sw .a1 .sp 4),
    .op (.lw .t0 .a0 Object.sizeOffset),
    .op (.lw .t1 .a1 Object.sizeOffset),
    .noted (.add .a1 .t0 .t1) "combined length"] ++
  words ++
  [.op (.la .a0 prototype),
    .op (.call alloc2),
    .op (.mv .t2 .a0)] ++
  appendItems routine 0 width 8 ++ appendItems routine 2 width 4 ++
  [.op (.lw .ra .sp 12),
    .op (.addi .sp .sp 16),
    .op (.jumpReg .ra)]

/-- Whether two strings hold the same bytes. -/
def streqlItems : List Item :=
  let top := loc streql 0
  let equal := loc streql 1
  let differ := loc streql 2
  [.label streql,
    .op (.lw .t0 .a0 Object.sizeOffset),
    .op (.lw .t1 .a1 Object.sizeOffset),
    .op (.bne .t0 .t1 differ),
    .label top,
    .op (.beqz .t0 equal),
    .op (.lbu .t2 .a0 0),
    .op (.lbu .t3 .a1 0),
    .op (.bne .t2 .t3 differ),
    .op (.addi .a0 .a0 1),
    .op (.addi .a1 .a1 1),
    .op (.addi .t0 .t0 (-1)),
    .op (.jump top),
    .label equal,
    .op (.li .a0 1),
    .op (.jumpReg .ra),
    .label differ,
    .op (.li .a0 0),
    .op (.jumpReg .ra)]

/-- All routines; `payload` is the offset of the bytes of a string. -/
def items (m : Messages) (payload : Int32) : List Item :=
  errorExit errorNone Object.operationOnNone "Operation on None" m.onNone payload ++
  errorExit errorDiv Object.divisionByZero "Division by zero" m.division payload ++
  errorExit errorOob Object.indexOutOfBounds "Index out of bounds" m.bounds payload ++
  abortItems ++ allocItems ++ alloc2Items ++ objectInitItems ++ printItems m ++ lenItems ++
  strCharItems ++ concatItems strcat strPrototype .byte ++
  concatItems listconcat listPrototype .word ++ streqlItems

/-- The routines for a program, and the constants after them. -/
def all (table : SymbolTable) (pool : ConstantPool) :
    Except CompileError (List Item × ConstantPool) := do
  let str ← table.classNamed "str"
  let payload := (← table.attrOf str "__str__").offset
  let (m, pool) := messages pool
  return (items m payload, pool)

end Routine

end ChocoRV
