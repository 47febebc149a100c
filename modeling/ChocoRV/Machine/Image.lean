import ChocoRV.Asm.Program
import ChocoRV.Machine.State

/-!
# Loading

A program is placed in memory and every label it names is replaced by its address. Text labels
count instructions from `textBase`. Data is laid out from `dataBase` upward: words stand at
multiples of four, texts right where the data before them ends, and a label names the entry after
it. Of two labels of one name the later one counts, and data comes after text.
-/

namespace ChocoRV

/-- The addresses of labels, by name. -/
abbrev LabelTable := Std.ExtTreeMap String Addr

/-- A program ready to run. -/
structure Image where
  code : Array (Op Addr)
  labels : LabelTable

namespace Image

/-- Where the text segment begins. -/
def textBase : Addr := 0x00400000

/-- Where the data segment begins. -/
def dataBase : Addr := 0x10000000

/-- The address of the first instruction after each label of the text, from `pc` on. -/
def textLabels : Addr → List Item → List (String × Addr)
  | _, [] => []
  | pc, .label l :: rest => (l.name, pc) :: textLabels pc rest
  | pc, .instr _ :: rest => textLabels (pc + 4) rest

/-- Lay out data from `cursor` upward: the addresses of its labels, and where it ends. A label names
the entry after it, so labels are pending until it is known where that entry begins. -/
def placeData : Addr → List String → List Datum → List (String × Addr) × Addr
  | cursor, pending, [] => (pending.map (·, cursor), cursor)
  | cursor, pending, .label l :: rest => placeData cursor (pending ++ [l.name]) rest
  | cursor, pending, .align :: rest => placeData (Addr.align4 cursor) pending rest
  | cursor, pending, .ascii text :: rest =>
    let (labels, last) := placeData (cursor + UInt32.ofNat (Utf8.encode text).length + 1) [] rest
    (pending.map (·, cursor) ++ labels, last)
  | cursor, pending, .word _ :: rest | cursor, pending, .address _ :: rest =>
    let start := Addr.align4 cursor
    let (labels, last) := placeData (start + 4) [] rest
    (pending.map (·, start) ++ labels, last)

/-- All labels; the last one of a name counts. -/
def labelTable (a : Assembly) : LabelTable :=
  (textLabels textBase a.text ++ (placeData dataBase [] a.data).1).foldl
    (fun table entry => table.insert entry.1 entry.2) ∅

def find (table : LabelTable) (name : String) : Except Fault Addr :=
  match table[name]? with
  | some addr => .ok addr
  | none => .error (.undefinedLabel name)

/-- Write a text from `cursor` upward, with a zero after it: the memory, and where it ends. -/
def writeText : Memory → Addr → List UInt8 → Memory × Addr
  | m, cursor, [] => (m.write cursor 0, cursor + 1)
  | m, cursor, b :: bytes => writeText (m.write cursor b) (cursor + 1) bytes

/-- Write the data from `cursor` upward. -/
def writeData (table : LabelTable) : Memory → Addr → List Datum → Except Fault Memory
  | m, _, [] => .ok m
  | m, cursor, .label _ :: rest => writeData table m cursor rest
  | m, cursor, .align :: rest => writeData table m (Addr.align4 cursor) rest
  | m, cursor, .word w :: rest =>
    let cursor := Addr.align4 cursor
    writeData table (m.writeWord cursor w) (cursor + 4) rest
  | m, cursor, .address l :: rest => do
    let addr ← find table l.name
    let cursor := Addr.align4 cursor
    writeData table (m.writeWord cursor addr.toInt32) (cursor + 4) rest
  | m, cursor, .ascii text :: rest =>
    let (m, cursor) := writeText m cursor (Utf8.encode text)
    writeData table m cursor rest

/-- Load a program: its image, and the state before its first run. A label that nothing defines is
refused, in data before text. -/
def load (a : Assembly) : Except Fault (Image × State) := do
  let table := labelTable a
  let memory ← writeData table .empty dataBase a.data
  let code ← (Assembly.instrs a.text).mapM fun i => i.op.resolve fun l => find table l.name
  let state : State :=
    { pc := textBase, regs := .zeros, memory, brk := Addr.align4 (placeData dataBase [] a.data).2,
      stdout := "" }
  return (⟨code.toArray, table⟩, state)

def label? (img : Image) (name : String) : Option Addr := img.labels[name]?

/-- The operation at an address; the two low bits of the address do not count. -/
def fetch (img : Image) (pc : Addr) : Option (Op Addr) :=
  if pc < textBase then none else img.code[((pc - textBase) / 4).toNat]?

end Image

end ChocoRV
