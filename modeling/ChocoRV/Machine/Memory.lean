import Std.Data.ExtTreeMap
import ChocoRV.Text.Utf8

/-!
# Memory

A byte for every 32-bit address, zero until it is written. Words are four bytes, least
significant first; addresses wrap around at the top.
-/

namespace ChocoRV

abbrev Addr := UInt32

/-- The least multiple of four that is not below `a`. -/
def Addr.align4 (a : Addr) : Addr := (a + 3) &&& 0xFFFFFFFC

structure Memory where
  bytes : Std.ExtTreeMap Addr UInt8

namespace Memory

def empty : Memory := ⟨∅⟩

def read (m : Memory) (a : Addr) : UInt8 := m.bytes.getD a 0

def write (m : Memory) (a : Addr) (b : UInt8) : Memory := ⟨m.bytes.insert a b⟩

/-- Byte `k` of a word, counted from the least significant one. -/
def wordByte (w : UInt32) (k : UInt32) : UInt8 := (w >>> (8 * k)).toUInt8

def readWord (m : Memory) (a : Addr) : Int32 :=
  ((m.read a).toUInt32 ||| (m.read (a + 1)).toUInt32 <<< 8 |||
    (m.read (a + 2)).toUInt32 <<< 16 ||| (m.read (a + 3)).toUInt32 <<< 24).toInt32

def writeWord (m : Memory) (a : Addr) (w : Int32) : Memory :=
  let u := w.toUInt32
  (((m.write a (wordByte u 0)).write (a + 1) (wordByte u 1)).write (a + 2) (wordByte u 2)).write
    (a + 3) (wordByte u 3)

/-- The bytes from `a` upward until a zero byte, at most `fuel` of them. -/
def bytesFrom (m : Memory) : Nat → Addr → List UInt8
  | 0, _ => []
  | fuel + 1, a =>
    let b := m.read a
    if b == 0 then [] else b :: m.bytesFrom fuel (a + 1)

/-- The text from `a` up to the first zero byte. A walk over all of memory comes back to where it
began, so as many bytes as there are addresses bound it. -/
def cstring (m : Memory) (a : Addr) : String :=
  Utf8.decodeLossy (m.bytesFrom UInt32.size a)

@[simp] theorem read_write (m : Memory) (a a' : Addr) (b : UInt8) :
    (m.write a b).read a' = if a = a' then b else m.read a' := by
  simp only [read, write, Std.ExtTreeMap.getD_insert, Std.compare_eq_iff_eq]

end Memory

end ChocoRV
