import Std.Data.ExtTreeMap
import ChocoRV.Object
import ChocoRV.Word
import ChocoRV.Source.Program
import ChocoRV.Asm.Program

/-!
# Constants

String literals and boxed integers that a program refers to. Each distinct constant has one place in
the pool and so one label, numbered in the order of first use. The two booleans always exist and
have labels of their own.

A pool keeps the constants with their labels in the order of first use, and besides them two maps,
one from texts and one from integers to labels, in which a constant is looked up.
`ConstantPool.Consistent` says how the three hang together; it is part of every pool, so that
`ConstantPool.intern` has to keep it.
-/

namespace ChocoRV

inductive Constant where
  | str (text : String)
  | int (value : Int32)
deriving DecidableEq, Repr, Inhabited

namespace ConstantPool

/-- The label of the `k`-th constant; it marks the payload. -/
def label (k : Nat) : Label := .global ("const_" ++ toString k)

def boolLabel (b : Bool) : Label := .global (if b then "const_true" else "const_false")

/-- The rows that constants stand in, each with its label. -/
abbrev Rows := List (Label × Constant)

/-- A map gives the label of every constant of one kind that stands in the rows, and no other. -/
def Indexes {κ : Type} [Ord κ] [Std.TransOrd κ] (map : Std.ExtTreeMap κ Label)
    (kind : κ → Constant) (rows : Rows) : Prop :=
  ∀ key l, map[key]? = some l ↔ (l, kind key) ∈ rows

/-- The rows are numbered from the first one on, and the two maps belong to them. -/
structure Consistent (rows : Rows) (strings : Std.ExtTreeMap String Label)
    (ints : Std.ExtTreeMap Int32 Label) : Prop where
  numbered {k : Nat} {row : Label × Constant} (h : rows[k]? = some row) : row.1 = label k
  strings : Indexes strings .str rows
  ints : Indexes ints .int rows

/-- Without rows, both maps are empty. -/
theorem Consistent.nil : Consistent [] ∅ ∅ :=
  ⟨nofun, fun _ _ => by simp, fun _ _ => by simp⟩

end ConstantPool

/-- The constants in the order of first use, each with its label, and where to find a constant. -/
structure ConstantPool where
  rows : ConstantPool.Rows := []
  strings : Std.ExtTreeMap String Label := ∅
  ints : Std.ExtTreeMap Int32 Label := ∅
  consistent : ConstantPool.Consistent rows strings ints := by exact ConstantPool.Consistent.nil
deriving DecidableEq, Repr

namespace ConstantPool

instance : Inhabited ConstantPool := ⟨{}⟩

/-- The label of a constant that is in the pool. -/
def label? (pool : ConstantPool) : Constant → Option Label
  | .str text => pool.strings[text]?
  | .int n => pool.ints[n]?

/-- The label of the next constant that joins. -/
def nextLabel (pool : ConstantPool) : Label := label pool.rows.length

section Push

variable {rows : Rows} {c : Constant} {l : Label} {κ : Type} [Ord κ] [Std.TransOrd κ]
  {map : Std.ExtTreeMap κ Label} {kind : κ → Constant}

/-- The row that comes next has the next number. -/
theorem numbered_push (h : ∀ {k : Nat} {row : Label × Constant}, rows[k]? = some row →
    row.1 = label k)
    {k : Nat} {row : Label × Constant} (hk : (rows ++ [(label rows.length, c)])[k]? = some row) :
    row.1 = label k := by
  grind

/-- A constant of another kind does not concern a map. -/
theorem Indexes.other (h : Indexes map kind rows) (hc : ∀ key, c ≠ kind key) :
    Indexes map kind (rows ++ [(l, c)]) := by
  intro key l'
  simp [h key l', (hc key).symm]

/-- A new constant of the kind of a map joins it. -/
theorem Indexes.insert [Std.LawfulEqOrd κ] (h : Indexes map kind rows)
    (hkind : ∀ {a b}, kind a = kind b → a = b) {key : κ} (hnew : map[key]? = none) :
    Indexes (map.insert key l) kind (rows ++ [(l, kind key)]) := by
  intro key' l'
  simp only [Std.ExtTreeMap.getElem?_insert, Std.compare_eq_iff_eq, List.mem_append,
    List.mem_singleton, Prod.mk.injEq, ← h key' l']
  by_cases heq : key = key'
  · subst heq
    simp [hnew, eq_comm]
  · have hne : kind key' ≠ kind key := fun hk => heq (hkind hk).symm
    simp [heq, hne]

end Push

/-- A new constant joins the pool, and the map of its kind. -/
def push (pool : ConstantPool) : (c : Constant) → pool.label? c = none → ConstantPool
  | .str text, h =>
    { rows := pool.rows ++ [(pool.nextLabel, .str text)]
      strings := pool.strings.insert text pool.nextLabel
      ints := pool.ints
      consistent :=
        ⟨numbered_push pool.consistent.numbered,
          pool.consistent.strings.insert Constant.str.inj h,
          pool.consistent.ints.other nofun⟩ }
  | .int n, h =>
    { rows := pool.rows ++ [(pool.nextLabel, .int n)]
      strings := pool.strings
      ints := pool.ints.insert n pool.nextLabel
      consistent :=
        ⟨numbered_push pool.consistent.numbered,
          pool.consistent.strings.other nofun,
          pool.consistent.ints.insert Constant.int.inj h⟩ }

/-- The label of a constant, which joins the pool unless it is there. -/
def intern (pool : ConstantPool) (c : Constant) : Label × ConstantPool :=
  match h : pool.label? c with
  | some l => (l, pool)
  | none => (pool.nextLabel, pool.push c h)

/-- The data word of a variable or an attribute that a literal is the initial value of. Integers and
booleans are plain words in variables of their types and references to boxes elsewhere. -/
def literalWord (pool : ConstantPool) (lit : Literal) (type : ValueType) : Datum × ConstantPool :=
  match lit with
  | .int n =>
    if type.isUnboxed then (.word n, pool)
    else
      let (l, pool) := pool.intern (.int n)
      (.address l, pool)
  | .bool b =>
    if type.isUnboxed then (.word (boolWord b), pool) else (.address (boolLabel b), pool)
  | .str s =>
    let (l, pool) := pool.intern (.str s)
    (.address l, pool)
  | .none => (.word 0, pool)

/-- The header words of an object. -/
def header (tag : Int32) (dispatchTable : String) (size : Int32) : List Datum :=
  [.word tag, .address (.global dispatchTable), .word size]

def boolData (b : Bool) : List Datum :=
  header Object.boolTag "$bool$dispatchTable" 1 ++
    [.label (boolLabel b), .word (boolWord b)]

def constantData (l : Label) : Constant → List Datum
  | .str s =>
    header Object.strTag "$str$dispatchTable" (Int32.ofNat s.utf8ByteSize) ++
      [.label l, .ascii s, .align]
  | .int n => header Object.intTag "$int$dispatchTable" 1 ++ [.label l, .word n]

/-- The objects of all constants. -/
def data (pool : ConstantPool) : List Datum :=
  boolData false ++ boolData true ++ pool.rows.flatMap fun row => constantData row.1 row.2

end ConstantPool

end ChocoRV
