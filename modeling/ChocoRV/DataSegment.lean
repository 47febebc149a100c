import ChocoRV.Constant
import ChocoRV.Symbol.Table
import ChocoRV.Routine.Basic

/-!
# The data segment

Global variables, the prototype and the dispatch table of each class, the list prototype and the
constants. The label of an object marks its payload; the header words come right before it.
-/

namespace ChocoRV

namespace DataSegment

/-- The words of literals, each for its type, and the constants after them. -/
def literalWords : List (Literal × ValueType) → ConstantPool → List Datum × ConstantPool
  | [], pool => ([], pool)
  | (lit, type) :: rest, pool =>
    let (word, pool) := pool.literalWord lit type
    let (more, pool) := literalWords rest pool
    (word :: more, pool)

def globals : List GlobalVar → ConstantPool → List Datum × ConstantPool
  | [], pool => ([], pool)
  | g :: rest, pool =>
    let (word, pool) := pool.literalWord g.init g.type
    let (more, pool) := globals rest pool
    (.label g.label :: word :: more, pool)

/-- The prototype of a class. A string has no attribute words but an empty text. -/
def prototype (c : ClassInfo) (pool : ConstantPool) : List Datum × ConstantPool :=
  if c.tag = Object.strTag then
    (ConstantPool.header c.tag c.dispatchTable.name 0 ++ [.label c.prototype, .word 0], pool)
  else
    let (words, pool) := literalWords (c.attrs.map fun a => (a.init, a.type)) pool
    (ConstantPool.header c.tag c.dispatchTable.name (Int32.ofNat c.attrs.length) ++
      .label c.prototype :: words, pool)

def dispatchTable (c : ClassInfo) : List Datum :=
  .label c.dispatchTable :: c.methods.map fun m => .address m.label

def classes : List ClassInfo → ConstantPool → List Datum × ConstantPool
  | [], pool => ([], pool)
  | c :: rest, pool =>
    let (proto, pool) := prototype c pool
    let (more, pool) := classes rest pool
    (proto ++ dispatchTable c ++ more, pool)

/-- The prototype of lists, which dispatch as objects do. -/
def listPrototype (table : SymbolTable) : List Datum :=
  let object := match table.classes.toList.find? (·.tag == Object.objectTag) with
    | some c => c.dispatchTable.name
    | none => ""
  ConstantPool.header Object.listTag object 0 ++ [.label Routine.listPrototype]

/-- The whole segment. All constants of the code have to be in the pool. -/
def all (table : SymbolTable) (pool : ConstantPool) : List Datum :=
  let (vars, pool) := globals table.globals pool
  let (protos, pool) := classes table.classes.toList pool
  vars ++ protos ++ listPrototype table ++ pool.data

end DataSegment

end ChocoRV
