/-!
# Objects in memory

An object reference points at the first payload word. Three header words stand right below it: the
type tag, the address of the dispatch table and the size, which counts attributes, list elements or
the bytes of a string.
-/

namespace ChocoRV.Object

/-- Bytes in a word. -/
def wordSize : Int32 := 4

def tagOffset : Int32 := -12

def dispatchTableOffset : Int32 := -8

def sizeOffset : Int32 := -4

/-- The byte offset of payload word `index`. -/
def slotOffset (index : Nat) : Int32 := Int32.ofNat index * wordSize

theorem slotOffset_eq (index : Nat) : slotOffset index = Int32.ofNat (4 * index) := by
  rw [Nat.mul_comm, Int32.ofNat_mul]
  rfl

/-- The payload words of a string of `len` bytes, with room for a zero byte after them. -/
def strPayloadWords (len : Nat) : Int32 := (Int32.ofNat len + wordSize) / wordSize

/-! ## Type tags -/

def objectTag : Int32 := 0

def intTag : Int32 := 1

def boolTag : Int32 := 2

def strTag : Int32 := 3

def listTag : Int32 := -1

/-- Classes of the program are numbered from here on. -/
def firstUserTag : Int32 := 4

/-! ## Exit codes -/

def divisionByZero : Int32 := 2

def indexOutOfBounds : Int32 := 3

def operationOnNone : Int32 := 4

/-- The attribute of a boxed integer, boolean or string; its payload begins at offset 0. -/
def builtinAttr? : String → Option String
  | "int" => some "__int__"
  | "bool" => some "__bool__"
  | "str" => some "__str__"
  | _ => none

end ChocoRV.Object
