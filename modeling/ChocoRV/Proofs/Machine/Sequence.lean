import Mathlib
import ChocoRV.Object
import ChocoRV.Proofs.Machine.State

/-!
# Sequences in memory

A list or a string is a reference to its payload, with the number of its elements in the word
before. The code that finds an element compares the index with the length as words without sign. As
a length is not negative, this is the two-sided check, and where the payload does not wrap around,
the address of an element does not either.
-/

namespace ChocoRV

/-- The number of bytes of an access. -/
def Width.size : Width → Nat
  | .word => 4
  | .byte => 1

/-- The word that a load gives. -/
def Width.read (m : Memory) (a : Addr) : Width → Int32
  | .word => m.readWord a
  | .byte => (m.read a).toUInt32.toInt32

/-- Where element `i` of a sequence at `q` is. -/
def Width.elementAt (w : Width) (q : Int32) (i : Nat) : Addr :=
  UInt32.ofNat (q.toUInt32.toNat + w.size * i)

/-- A sequence of `n` elements: its size word is at a valid address, and its elements end before the
addresses wrap around. -/
structure Memory.SequenceAt (m : Memory) (w : Width) (q : Int32) (n : Nat) : Prop where
  size : m.readWord (q + Object.sizeOffset).toUInt32 = Int32.ofNat n
  length : n < 2147483648
  header : State.nullPage.toNat + 4 ≤ q.toUInt32.toNat
  payload : q.toUInt32.toNat + w.size * n ≤ UInt32.size

/-- An index of a sequence of `n` elements. -/
def InRange (i : Int32) (n : Nat) : Prop := 0 ≤ i.toInt ∧ i.toInt < n

instance (i : Int32) (n : Nat) : Decidable (InRange i n) := inferInstanceAs (Decidable (_ ∧ _))

/-- Compared without sign, a negative index is larger than any length. -/
theorem geu_length_iff {i : Int32} {n : Nat} (hn : n < 2147483648) :
    Cmp.geu.eval i (Int32.ofNat n) = true ↔ ¬ InRange i n := by
  -- Read without sign, the index is itself or at least half of all words; a length is less.
  have hlength : (Int32.ofNat n).toUInt32.toNat = n := toNat_ofNat_word (by omega)
  have hmin : -2147483648 ≤ i.toInt := i.minValue_le_toInt
  have hmax : i.toInt ≤ 2147483647 := i.toInt_le
  rw [Cmp.eval, decide_eq_true_iff, UInt32.le_iff_toNat_le, hlength, toNat_toUInt32, InRange]
  omega

namespace Memory.SequenceAt

variable {m : Memory} {w : Width} {q i : Int32} {n : Nat}

theorem size_valid (h : m.SequenceAt w q n) :
    State.nullPage ≤ (q + Object.sizeOffset).toUInt32 := by
  have hheader := h.header
  have hq := q.toUInt32.toNat_lt_size
  have hsize : UInt32.size = 4294967296 := rfl
  have hoffset : Object.sizeOffset.toUInt32.toNat = 4294967292 := rfl
  rw [UInt32.le_iff_toNat_le, Int32.toUInt32_add, UInt32.toNat_add, hoffset]
  omega

/-- The elements do not wrap around. -/
theorem toNat_elementAt (h : m.SequenceAt w q n) (hi : InRange i n) :
    (w.elementAt q i.toInt.toNat).toNat = q.toUInt32.toNat + w.size * i.toInt.toNat ∧
      q.toUInt32.toNat + w.size * i.toInt.toNat + w.size ≤ q.toUInt32.toNat + w.size * n := by
  obtain ⟨hlow, hhigh⟩ := hi
  have hpayload := h.payload
  -- The element after this one begins no later than the payload ends.
  have hlast : w.size * i.toInt.toNat + w.size ≤ w.size * n := by
    rw [← Nat.mul_succ]
    exact Nat.mul_le_mul_left _ (by omega)
  have hpos : 0 < w.size := by cases w <;> decide
  refine ⟨?_, by omega⟩
  rw [Width.elementAt, UInt32.toNat_ofNat_of_lt' (by omega)]

/-- An element lies within the payload. -/
theorem element_inside (h : m.SequenceAt w q n) (hi : InRange i n) {b : Addr}
    (hb : w.Bytes (w.elementAt q i.toInt.toNat) b) :
    q.toUInt32.toNat ≤ b.toNat ∧ b.toNat < q.toUInt32.toNat + w.size * n := by
  obtain ⟨haddr, hlast⟩ := h.toNat_elementAt hi
  have hpayload := h.payload
  cases w with
  | word =>
    have hsize : Width.word.size = 4 := rfl
    have hword := Addr.toNat_of_inWord (by omega) hb
    omega
  | byte =>
    have hsize : Width.byte.size = 1 := rfl
    cases hb
    omega

theorem element_valid (h : m.SequenceAt w q n) (hi : InRange i n) :
    State.nullPage ≤ w.elementAt q i.toInt.toNat := by
  have hheader := h.header
  rw [UInt32.le_iff_toNat_le, (h.toNat_elementAt hi).1]
  omega

/-- The code multiplies an index by four and adds it to the reference. -/
theorem word_addr (h : m.SequenceAt .word q n) (hi : InRange i n) :
    (q + ShiftOp.eval .slli i Op.wordShift + 0).toUInt32 =
    Width.elementAt .word q i.toInt.toNat := by
  obtain ⟨haddr, hlast⟩ := h.toNat_elementAt hi
  have hpayload := h.payload
  have hsize : Width.word.size = 4 := rfl
  have hword : UInt32.size = 4294967296 := rfl
  rw [hsize] at haddr hlast hpayload
  obtain ⟨hlow, hhigh⟩ := hi
  -- No bit is lost, as the payload would not fit otherwise.
  have hshift : (ShiftOp.eval .slli i Op.wordShift).toUInt32.toNat = 4 * i.toInt.toNat := by
    show (i.toUInt32 <<< (2 : UInt32)).toNat = _
    rw [UInt32.toNat_shiftLeft, toNat_toUInt32, Nat.shiftLeft_eq,
      show (2 : UInt32).toNat % 32 = 2 from rfl]
    omega
  rw [← UInt32.toNat_inj, haddr, Int32.add_zero, Int32.toUInt32_add, UInt32.toNat_add, hshift]
  omega

theorem byte_addr (h : m.SequenceAt .byte q n) (hi : InRange i n) :
    (q + i + 0).toUInt32 = Width.elementAt .byte q i.toInt.toNat := by
  obtain ⟨haddr, hlast⟩ := h.toNat_elementAt hi
  have hpayload := h.payload
  have hsize : Width.byte.size = 1 := rfl
  have hword : UInt32.size = 4294967296 := rfl
  rw [hsize] at haddr hlast hpayload
  obtain ⟨hlow, hhigh⟩ := hi
  rw [← UInt32.toNat_inj, haddr, Int32.add_zero, Int32.toUInt32_add, UInt32.toNat_add,
    toNat_toUInt32 i]
  omega

end Memory.SequenceAt

end ChocoRV
