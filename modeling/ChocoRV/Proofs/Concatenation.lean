import Mathlib
import ChocoRV.Proofs.ErrorExits
import ChocoRV.Proofs.Routine.Alloc

/-!
# Concatenation

Strings and lists are concatenated by one routine for each width of an element. It keeps its
operands below the stack pointer, lets a new object be made at the break, and copies the elements of
both operands into it, one after the other. So the object is described by what has been copied, and
all else by the frames of the three steps.
-/

namespace ChocoRV

open Assembly Image

/-! ## Sizes -/

/-- The word size divides as a shift, as long as the sign bit is not set. -/
theorem shiftRight_two {n : Nat} (h : n < 2147483648) :
    Int32.ofNat n >>> Int32.ofNat 2 = Int32.ofNat (n / 4) := by
  rw [← Int32.toInt_inj, Int32.toInt_ofNat_of_lt (by omega)]
  show BitVec.toInt (BitVec.sshiftRight' (Int32.ofNat n).toBitVec 2#32) = _
  rw [BitVec.sshiftRight', BitVec.toInt_sshiftRight, Int32.toInt_toBitVec,
    Int32.toInt_ofNat_of_lt (by omega), Int.shiftRight_eq_div_pow, show (2#32).toNat = 2 from rfl]
  omega

/-- A string has one word more than whole words of bytes. -/
theorem Object.strPayloadWords_eq {n : Nat} (h : n + 4 < 2147483648) :
    strPayloadWords n = Int32.ofNat ((n + 4) / 4) := by
  have hsum : Int32.ofNat n + wordSize = Int32.ofNat (n + 4) := by
    rw [Int32.ofNat_add]
    rfl
  rw [← Int32.toInt_inj, Int32.toInt_ofNat_of_lt (by omega), strPayloadWords, hsum,
    Int32.toInt_div_of_ne_right _ _ (by decide), Int32.toInt_ofNat_of_lt (by omega),
    show wordSize.toInt = 4 from rfl, Int.tdiv_eq_ediv_of_nonneg (by omega)]
  omega

namespace Width

/-- The routine that concatenates. -/
def concat : Width → Label
  | .byte => Routine.strcat
  | .word => Routine.listconcat

/-- The prototype of what has elements of this width. -/
def prototype : Width → Label
  | .byte => Routine.strPrototype
  | .word => Routine.listPrototype

/-- The number of payload words for `n` elements. -/
def payloadWords (n : Nat) : Width → Nat
  | .byte => (Object.strPayloadWords n).toInt.toNat
  | .word => n

variable {n : Nat}

theorem payloadWords_byte (h : n + 4 < 2147483648) : payloadWords n .byte = (n + 4) / 4 := by
  rw [payloadWords, Object.strPayloadWords_eq h, Int32.toInt_ofNat_of_lt (by omega)]
  exact Int.toNat_natCast _

/-- The payload has room for the elements, and strings end with a zero. -/
theorem size_mul_le (w : Width) (h : n + 4 < 2147483648) :
    w.size * n ≤ 4 * w.payloadWords n ∧ (w = .byte → n < 4 * w.payloadWords n) := by
  cases w with
  | byte =>
    rw [payloadWords_byte h]
    show 1 * n ≤ _ ∧ _
    omega
  | word => exact ⟨Nat.le_refl _, fun h => nomatch h⟩

end Width

/-! ## What the routine is given, and what it leaves -/

/-- The sixteen bytes below the stack pointer. -/
def State.scratch (s : State) : Region := ⟨(s.reg .sp).toUInt32 - 16, 16⟩

/-- Where a new object of `n` payload words will be. -/
def State.fresh (s : State) (n : Nat) : Region := ⟨s.brk, 12 + 4 * n⟩

/-- The size word and the elements of a sequence. -/
def Width.sequence (w : Width) (q : Int32) (n : Nat) : Region := ⟨q.toUInt32 - 4, 4 + w.size * n⟩

namespace State

/-- Sequences of `m` and `n` elements to be concatenated, which may be one and the same. Neither
they nor the new object have a byte in common with the scratch area, and they have none in common
with the new object. -/
structure Operands (s : State) (w : Width) (m n : Nat) : Prop where
  first : s.memory.SequenceAt w (s.reg .a0) m
  second : s.memory.SequenceAt w (s.reg .a1) n
  sum : m + n + 4 < 2147483648
  room : s.brk.toNat + (12 + 4 * w.payloadWords (m + n)) < UInt32.size
  stack : nullPage.toNat ≤ s.scratch.base.toNat ∧ s.scratch.base.toNat + 16 ≤ UInt32.size
  apart : (s.fresh (w.payloadWords (m + n))).Apart s.scratch
  first_apart : ∀ r ∈ [s.fresh (w.payloadWords (m + n)), s.scratch],
    (w.sequence (s.reg .a0) m).Apart r
  second_apart : ∀ r ∈ [s.fresh (w.payloadWords (m + n)), s.scratch],
    (w.sequence (s.reg .a1) n).Apart r

/-- Operands do not depend on the program counter. -/
theorem Operands.goto {s : State} {w : Width} {m n : Nat} (h : s.Operands w m n) (pc : Addr) :
    (s.goto pc).Operands w m n :=
  ⟨h.first, h.second, h.sum, h.room, h.stack, h.apart, h.first_apart, h.second_apart⟩

/-- There is a new object with the header of the prototype at `p`, the sum of the lengths and the
elements of both sequences, and zeros to its end. Nothing else has changed but the scratch area and
registers that callers save. -/
structure Concatenated (s : State) (w : Width) (p : Addr) (m n : Nat) (s' : State) : Prop where
  pc : s'.pc = (s.reg .ra).toUInt32
  result : s'.reg .a0 = (s.brk + 12).toInt32
  tag : s'.memory.readWord s.brk = s'.memory.readWord p
  dispatch : s'.memory.readWord (s.brk + 4) = s'.memory.readWord (p + 4)
  size : s'.memory.readWord (s.brk + 8) = Int32.ofNat (m + n)
  payload : s'.memory.elements w (s.brk + 12) (m + n) =
    s.memory.elements w (s.reg .a0).toUInt32 m ++ s.memory.elements w (s.reg .a1).toUInt32 n
  zeros : ∀ i, w.size * (m + n) ≤ i → i < 4 * w.payloadWords (m + n) →
    s'.memory.read (s.brk + 12 + UInt32.ofNat i) = 0
  terminated : w = .byte → m + n < 4 * w.payloadWords (m + n)
  others : Memory.Frame [s.fresh (w.payloadWords (m + n)), s.scratch] s.memory s'.memory
  brk : s'.brk = Addr.align4 (s.brk + UInt32.ofNat (12 + 4 * w.payloadWords (m + n)))
  regs : s.Preserves [.a0, .a1, .a2, .a7, .t0, .t1, .t2, .t3, .t4] s'
  stdout : s'.stdout = s.stdout

end State

/-! ## Memory -/

namespace Memory

variable {m : Memory} {w : Width} {a b d : Addr} {i j : Nat}

/-- Two copies, one behind the other, are the elements of both sources. -/
theorem elements_copies (ha : a.toNat + w.size * i ≤ UInt32.size)
    (hb : b.toNat + w.size * j ≤ UInt32.size) (hd : d.toNat + w.size * (i + j) < UInt32.size)
    (hapart : Region.Apart ⟨a, w.size * i⟩ ⟨d, w.size * (i + j)⟩)
    (hapart' : Region.Apart ⟨b, w.size * j⟩ ⟨d, w.size * (i + j)⟩) :
    Frame [⟨d, w.size * (i + j)⟩] m
        ((m.copy w i a d).copy w j b (d + UInt32.ofNat (w.size * i))) ∧
      ((m.copy w i a d).copy w j b (d + UInt32.ofNat (w.size * i))).elements w d (i + j) =
        m.elements w a i ++ m.elements w b j := by
  have hmul : w.size * (i + j) = w.size * i + w.size * j := Nat.mul_add _ _ _
  have hnext : (d + UInt32.ofNat (w.size * i)).toNat = d.toNat + w.size * i :=
    Addr.toNat_add_ofNat (by omega)
  have hin : Region.Within ⟨d, w.size * i⟩ ⟨d, w.size * (i + j)⟩ :=
    Region.within_of_le (Nat.le_refl _) (by omega)
  have hin' : Region.Within ⟨d + UInt32.ofNat (w.size * i), w.size * j⟩ ⟨d, w.size * (i + j)⟩ :=
    Region.within_of_le (by omega) (by omega)
  have hframe : Frame [⟨d, w.size * i⟩] m (m.copy w i a d) := .copy m a (by omega)
  have hframe' : Frame [⟨d + UInt32.ofNat (w.size * i), w.size * j⟩] (m.copy w i a d)
      ((m.copy w i a d).copy w j b (d + UInt32.ofNat (w.size * i))) := .copy _ b (by omega)
  refine ⟨?_, ?_⟩
  · exact (hframe.widen (List.forall_mem_singleton.mpr hin) List.mem_cons_self).trans
      (hframe'.widen (List.forall_mem_singleton.mpr hin') List.mem_cons_self)
  -- The second copy is behind the first one, which did not write what the second one reads.
  · rw [elements_add, hframe'.elements (by omega) (List.forall_mem_singleton.mpr ?_),
      elements_copy ha (by omega) (hapart.right hin),
        elements_copy hb (by omega) (hapart'.right hin'),
      hframe.elements hb (List.forall_mem_singleton.mpr (hapart'.right hin))]
    exact Region.apart_of_le (by omega)

end Memory

/-! ## The parts of the routine -/

namespace Routine

/-- Keep the return address and the operands. -/
def pushes : List Instr :=
  [⟨.addi .sp .sp (-16), none⟩, ⟨.sw .ra .sp 12, none⟩, ⟨.sw .a0 .sp 8, none⟩,
    ⟨.sw .a1 .sp 4, none⟩]

/-- The number of words that `a1` elements need. -/
def countWords : Width → List Instr
  | .byte => [⟨.addi .a2 .a1 4, none⟩, ⟨.srai .a2 .a2 Op.wordShift, none⟩]
  | .word => [⟨.mv .a2 .a1, none⟩]

/-- The arguments for a new object. -/
def measures (w : Width) : List Instr :=
  [⟨.lw .t0 .a0 Object.sizeOffset, none⟩, ⟨.lw .t1 .a1 Object.sizeOffset, none⟩,
    ⟨.add .a1 .t0 .t1, some "combined length"⟩] ++ countWords w ++ [⟨.la .a0 w.prototype, none⟩]

/-- The return address and the stack pointer as they were. -/
def pops : List Instr := [⟨.lw .ra .sp 12, none⟩, ⟨.addi .sp .sp 16, none⟩]

/-- The routine without its checks. -/
def concatBody (w : Width) : List Item :=
  pushes.map .instr ++ ((measures w).map .instr ++ .op (.call alloc2) :: .op (.mv .t2 .a0) ::
    (appendItems w.concat 0 w 8 ++ (appendItems w.concat 2 w 4 ++
      (pops.map .instr ++ [.op (.jumpReg .ra)]))))

end Routine

/-- The words that are kept below the stack pointer. -/
def State.pushed (s : State) : List (Addr × Int32) :=
  [(s.scratch.base + 12, s.reg .ra), (s.scratch.base + 8, s.reg .a0),
    (s.scratch.base + 4, s.reg .a1)]

/-- They lie in the scratch area and do not overlap. -/
theorem State.separate_pushed {s : State} (h : s.scratch.base.toNat + 16 ≤ UInt32.size) :
    Memory.Separate s.pushed ∧ ∀ e ∈ s.pushed, Region.Within ⟨e.1, 4⟩ s.scratch := by
  obtain ⟨h4, h8, h12⟩ := Addr.toNat_words (a := s.scratch.base) (by omega)
  have hin {a : Addr} (hl : s.scratch.base.toNat ≤ a.toNat) (hh :
    a.toNat + 4 ≤ s.scratch.base.toNat + 16) :
      Region.Within ⟨a, 4⟩ s.scratch := Region.within_of_le hl hh
  refine ⟨⟨?_, ?_⟩, ?_⟩
  · simp [pushed, h4, h8, h12]
    omega
  · simp [pushed, h4, h8, h12]
  · simp only [pushed, List.forall_mem_cons]
    exact ⟨hin (by omega) (by omega), hin (by omega) (by omega), hin (by omega) (by omega),
      fun _ he => absurd he List.not_mem_nil⟩

namespace Image.At

variable {img : Image} {inside : Nat → Prop} {k n : Nat} {rest : List Item} {s : State} {w : Width}

/-- The operands are kept in the scratch area. -/
theorem pushes (himg : img.Unwrapped) (h : img.At inside k (Routine.pushes.map .instr ++ rest) s)
    (hstack : State.nullPage.toNat ≤ s.scratch.base.toNat ∧
    s.scratch.base.toNat + 16 ≤ UInt32.size) :
    ∃ s', img.Comes inside s s' ∧ img.At inside (k + 4) rest s' ∧
      s'.memory = s.memory.writeWords s.pushed ∧
      s'.reg .sp = s.scratch.base.toInt32 ∧ s.Preserves [.sp] s' ∧ s'.brk = s.brk ∧
        s'.stdout = s.stdout := by
  have hsp : s.reg .sp + -16 = s.scratch.base.toInt32 := by
    exact (Int32.sub_eq_add_neg _ _).symm
  obtain ⟨h4, h8, h12⟩ := Addr.toNat_words (a := s.scratch.base) (by omega)
  have e4 : (s.scratch.base.toInt32 + 4).toUInt32 = s.scratch.base + 4 := rfl
  have e8 : (s.scratch.base.toInt32 + 8).toUInt32 = s.scratch.base + 8 := rfl
  have e12 : (s.scratch.base.toInt32 + 12).toUInt32 = s.scratch.base + 12 := rfl
  obtain ⟨hc, hat⟩ := h.straight himg Routine.pushes rfl (by
    simp [Routine.pushes, hsp, e4, e8, e12, UInt32.le_iff_toNat_le, h4, h8, h12,
      -Int32.toUInt32_add]
    omega)
  refine ⟨_, hc, hat, ?_, ?_, keeps_performs (by simp [Routine.pushes]) s, by simp, by simp⟩
  · simp [Routine.pushes, hsp, e4, e8, e12, Width.write, State.pushed, Memory.writeWords,
      -Int32.toUInt32_add]
  · simp [Routine.pushes, hsp]

/-- The lengths are added, and the number of words for the sum is computed. -/
theorem measures (himg : img.Unwrapped) {i j : Nat}
    (h : img.At inside k ((Routine.measures w).map .instr ++ rest) s)
    (hfirst : s.memory.SequenceAt w (s.reg .a0) i) (hsecond : s.memory.SequenceAt w (s.reg .a1) j)
    (hsum : i + j + 4 < 2147483648) :
    ∃ s', img.Comes inside s s' ∧ img.At inside (k + (Routine.measures w).length) rest s' ∧
      s'.memory = s.memory ∧ s'.reg .a0 = (img.addressOf w.prototype).toInt32 ∧
      s'.reg .a1 = Int32.ofNat (i + j) ∧ s'.reg .a2 = Int32.ofNat (w.payloadWords (i + j)) ∧
      s.Preserves [.a0, .a1, .a2, .t0, .t1] s' ∧ s'.brk = s.brk ∧ s'.stdout = s.stdout := by
  have hsize := hfirst.size
  have hsize' := hsecond.size
  have hwords : Int32.ofNat (i + j) + 4 = Int32.ofNat (i + j + 4) := (Int32.ofNat_add _ _).symm
  obtain ⟨hc, hat⟩ := h.straight himg (Routine.measures w) (by cases w <;> rfl) (by
    cases w <;> simp [Routine.measures, Routine.countWords, hfirst.size_valid, hsecond.size_valid,
      -Int32.toUInt32_add])
  refine ⟨_, hc, hat, ?_, ?_, ?_, ?_, ?_, by simp, by simp⟩
  · cases w <;> simp [Routine.measures, Routine.countWords]
  · cases w <;> simp [Routine.measures, Routine.countWords]
  · rw [Int32.ofNat_add]
    cases w <;> simp [Routine.measures, Routine.countWords, hsize, hsize', Width.read,
      -Int32.toUInt32_add]
  · cases w with
    | byte =>
      rw [Width.payloadWords_byte (by omega), ← shiftRight_two (by omega), ← hwords,
        Int32.ofNat_add]
      simp [Routine.measures, Routine.countWords, hsize, hsize', Width.read, ShiftOp.eval,
        Op.wordShift, -Int32.toUInt32_add]
    | word =>
      rw [Width.payloadWords, Int32.ofNat_add]
      simp [Routine.measures, Routine.countWords, hsize, hsize', Width.read, -Int32.toUInt32_add]
  · refine keeps_performs ?_ s
    cases w <;> simp [Routine.measures, Routine.countWords]

/-- A kept operand is copied behind what has been copied so far. -/
theorem appends (himg : img.Unwrapped) {routine : Label} {j : Nat} {slot q : Int32}
    (h : img.At inside k (Routine.appendItems routine j w slot ++ rest) s)
    (hslot : s.memory.readWord (s.reg .sp + slot).toUInt32 = q)
    (hvalid : State.nullPage ≤ (s.reg .sp + slot).toUInt32) (hseq : s.memory.SequenceAt w q n)
    (hdst : w.Valid (s.reg .t2).toUInt32 n) :
    ∃ s', img.Comes inside s s' ∧ img.At inside (k + 9) rest s' ∧
      s'.memory = s.memory.copy w n q.toUInt32 (s.reg .t2).toUInt32 ∧
      s'.reg .t2 = s.reg .t2 + Int32.ofNat (w.size * n) ∧ s.Preserves [.t0, .t1, .t2, .t3] s' ∧
      s'.brk = s.brk ∧ s'.stdout = s.stdout := by
  let finds : List Instr := [⟨.lw .t0 .sp slot, none⟩, ⟨.lw .t1 .t0 Object.sizeOffset, none⟩]
  obtain ⟨hc, hat⟩ := h.straight himg finds rfl (by
    simp [finds, hslot, hvalid, hseq.size_valid, Width.read, -Int32.toUInt32_add])
  let t := img.performs finds s
  have ht0 : t.reg .t0 = q := by
    simp [t, finds, hslot, Width.read, -Int32.toUInt32_add]
  have ht1 : t.reg .t1 = Int32.ofNat n := by
    simp [t, finds, hslot, hseq.size, Width.read, -Int32.toUInt32_add]
  have ht2 : t.reg .t2 = s.reg .t2 := by simp [t, finds]
  have htm : t.memory = s.memory := by simp [t, finds]
  have hsrc : w.Valid (t.reg .t0).toUInt32 n := by
    have hheader := hseq.header
    rw [ht0]
    exact .of_le (by omega) hseq.payload
  have hlength := hseq.length
  obtain ⟨s', hc', hat', hm, hlast, hkept, hbrk, hout⟩ :=
    hat.copies himg (by decide) ht1 (by omega) hsrc
    (by rwa [ht2])
  rw [ht0, ht2, htm] at hm
  refine ⟨s', hc.trans hc', hat', hm, by rw [hlast, ht2], ?_, ?_, ?_⟩
  · exact (keeps_performs (by simp [finds]) s).trans (hkept.mono (by decide))
  · rw [hbrk, brk_performs]
  · rw [hout, stdout_performs]

end Image.At

/-- The size word and the elements lie within the region of a sequence. -/
theorem Memory.SequenceAt.within {m : Memory} {w : Width} {q : Int32} {n : Nat}
    (h : m.SequenceAt w q n) :
    (q + Object.sizeOffset).toUInt32.toNat + 4 = q.toUInt32.toNat ∧
      Region.Within ⟨(q + Object.sizeOffset).toUInt32, 4⟩ (w.sequence q n) ∧
      Region.Within ⟨q.toUInt32, w.size * n⟩ (w.sequence q n) := by
  have hheader := h.header
  have hnull : State.nullPage.toNat = 4096 := rfl
  have hsub : (q + Object.sizeOffset).toUInt32 = q.toUInt32 - 4 := by
    rw [Int32.toUInt32_add, UInt32.sub_eq_add_neg]
    rfl
  have hbase : (q.toUInt32 - 4).toNat = q.toUInt32.toNat - 4 :=
    UInt32.toNat_sub_of_le _ _ (UInt32.le_iff_toNat_le.mpr (by show 4 ≤ _; omega))
  rw [hsub]
  exact ⟨by omega, Region.within_of_le (Nat.le_refl _) (by omega),
    Region.within_of_le (by omega) (by omega)⟩

/-- A sequence apart from what has been written is kept. -/
theorem Memory.SequenceAt.of_frame {m m' : Memory} {w : Width} {q : Int32} {n : Nat}
    {rs : List Region} (h : m.SequenceAt w q n) (hframe : Frame rs m m')
    (hapart : ∀ r ∈ rs, (w.sequence q n).Apart r) :
    m'.SequenceAt w q n ∧ m'.elements w q.toUInt32 n = m.elements w q.toUInt32 n := by
  obtain ⟨hbase, hsize, hpayload⟩ := h.within
  have hq := q.toUInt32.toNat_lt_size
  refine ⟨⟨?_, h.length, h.header, h.payload⟩, ?_⟩
  · rw [hframe.readWord (by omega) fun r hr => (hapart r hr).left hsize, h.size]
  · exact hframe.elements h.payload fun r hr => (hapart r hr).left hpayload

/-- The new object has been made, and its elements are still to be copied. -/
structure State.Prepared (s : State) (w : Width) (p : Addr) (m n : Nat) (t : State) : Prop where
  sp : t.reg .sp = s.scratch.base.toInt32
  target : t.reg .t2 = (s.brk + 12).toInt32
  result : t.reg .a0 = (s.brk + 12).toInt32
  pushed : ∀ {a v}, (a, v) ∈ s.pushed → t.memory.readWord a = v
  tag : t.memory.readWord s.brk = t.memory.readWord p
  dispatch : t.memory.readWord (s.brk + 4) = t.memory.readWord (p + 4)
  size : t.memory.readWord (s.brk + 8) = Int32.ofNat (m + n)
  zeros : ∀ b, Region.Contains ⟨s.brk + 12, 4 * w.payloadWords (m + n)⟩ b → t.memory.read b = 0
  frame : Memory.Frame [s.fresh (w.payloadWords (m + n)), s.scratch] s.memory t.memory
  brk : t.brk = Addr.align4 (s.brk + UInt32.ofNat (12 + 4 * w.payloadWords (m + n)))
  regs : s.Preserves [.sp, .ra, .a0, .a1, .a2, .a7, .t0, .t1, .t2, .t3, .t4] t
  stdout : t.stdout = s.stdout

namespace Image.At

variable {img : Image} {inside : Nat → Prop} {k j m n : Nat} {s t : State} {w : Width} {p : Addr}
variable {rest : List Item}

/-- The operands are kept and looked at, and the new object is made. -/
theorem prepares (himg : img.Unwrapped)
    (h : img.At inside k (Routine.pushes.map .instr ++ ((Routine.measures w).map .instr ++
      .op (.call Routine.alloc2) :: .op (.mv .t2 .a0) :: rest)) s)
    (halloc : img.Holds inside j Routine.alloc2Items) (hop : s.Operands w m n)
    (hbrk : State.nullPage.toNat ≤ s.brk.toNat) (hp : img.addressOf w.prototype = p + 12)
    (hproto : State.nullPage.toNat ≤ p.toNat) (hproto' : p.toNat + 8 ≤ s.brk.toNat) :
    ∃ i t, img.Comes inside s t ∧ img.At inside i rest t ∧ s.Prepared w p m n t := by
  have hroom := hop.room
  obtain ⟨hseparate, hpushed⟩ := State.separate_pushed hop.stack.2
  obtain ⟨s₁, hc₁, h₁, hm₁, hsp₁, hkept₁, hbrk₁, hout₁⟩ := h.pushes himg hop.stack
  have hframe₁ : Memory.Frame [s.scratch] s.memory s₁.memory := by
    rw [hm₁]
    exact (Memory.Frame.writeWords _ hseparate.whole).widen (List.forall_mem_map.mpr hpushed)
      List.mem_cons_self
  obtain ⟨hfirst₁, -⟩ := hop.first.of_frame hframe₁ fun r hr => hop.first_apart r (.tail _ hr)
  obtain ⟨hsecond₁, -⟩ := hop.second.of_frame hframe₁ fun r hr => hop.second_apart r (.tail _ hr)
  rw [← hkept₁ .a0 (by decide)] at hfirst₁
  rw [← hkept₁ .a1 (by decide)] at hsecond₁
  obtain ⟨s₂, hc₂, h₂, hm₂, ha0₂, ha1₂, ha2₂, hkept₂, hbrk₂, hout₂⟩ :=
    h₁.measures himg hfirst₁ hsecond₁ hop.sum
  have hbrk₂' : s₂.brk = s.brk := hbrk₂.trans hbrk₁
  obtain ⟨s₃, hc₃, h₃, hmakes⟩ := h₂.calls_alloc2 (p := p) himg halloc ha2₂ (by rwa [hbrk₂'])
    (by rwa [hbrk₂']) (by rw [ha0₂, hp]) hproto (by omega)
    (by rw [hbrk₂']; exact Region.apart_of_le (.inl hproto'))
  obtain ⟨⟨hres₃, hbrk₃, hframe₃, hkept₃, hout₃⟩, htag₃, hdispatch₃, hsize₃, hzeros₃⟩ := hmakes
  rw [State.reg_setReg_of_ne _ _ (by decide), ha1₂] at hsize₃
  rw [State.brk_setReg, hbrk₂'] at hres₃ hbrk₃ hframe₃ htag₃ hdispatch₃ hsize₃ hzeros₃
  rw [State.memory_setReg, hm₂] at hframe₃ htag₃ hdispatch₃
  obtain ⟨hc₄, h₄⟩ := h₃.perform himg rfl trivial
  -- What lies apart from the new object is as it was after the operands had been kept.
  have hsame {a : Addr} (ha : a.toNat + 4 ≤ UInt32.size)
      (hapart : Region.Apart ⟨a, 4⟩ (s.fresh (w.payloadWords (m + n)))) :
      s₃.memory.readWord a = s₁.memory.readWord a :=
    hframe₃.readWord ha (List.forall_mem_singleton.mpr hapart)
  have hp4 : (p + 4).toNat = p.toNat + 4 := Addr.toNat_add_ofNat (n := 4) (by omega)
  have hkept₂' : s.Preserves [.sp, .ra, .a0, .a1, .a2, .a7, .t0, .t1, .t2, .t3, .t4] s₂ :=
    (hkept₁.mono (by decide)).trans (hkept₂.mono (by decide))
  have hra {q : Reg} (hq : q ≠ .ra) (v : Int32) : (s₂.setReg .ra v).reg q = s₂.reg q :=
    s₂.reg_setReg_of_ne v hq
  refine ⟨_, _, hc₁.trans (hc₂.trans (hc₃.trans hc₄)), h₄, ?_, ?_, ?_, ?_, ?_, ?_, hsize₃,
    hzeros₃, ?_, hbrk₃, ?_, ?_⟩
  · rw [← hsp₁, ← hkept₂ .sp (by decide), ← hra (by decide), ← hkept₃ .sp (by decide)]
    exact s₃.reg_put_of_ne _ (by decide)
  · exact (s₃.reg_put_self _ (by decide)).trans hres₃
  · exact (s₃.reg_put_of_ne _ (by decide)).trans hres₃
  · intro a v he
    refine (hsame (hseparate.whole _ he) (hop.apart.symm.left (hpushed _ he))).trans ?_
    rw [hm₁]
    exact Memory.readWord_writeWords hseparate he
  · exact htag₃.trans (hsame (by omega) (Region.apart_of_le (by omega))).symm
  · exact hdispatch₃.trans (hsame (by omega) (Region.apart_of_le (by omega))).symm
  · exact (hframe₁.mono (List.subset_cons_self _ _)).trans
      (hframe₃.mono (List.cons_subset_cons _ (List.nil_subset _)))
  · exact hkept₂'.trans (.trans (.setReg (by decide) s₂ _)
      (.trans (hkept₃.mono (by decide)) (.put (by decide) _ _)))
  · exact hout₃.trans (hout₂.trans hout₁)

/-- What has been kept is found again as long as only the new object is written to. -/
theorem slot (hop : s.Operands w m n) (hprep : s.Prepared w p m n t) {u : State} {slot v : Int32}
    (hsp : u.reg .sp = t.reg .sp)
    (hframe : Memory.Frame [s.fresh (w.payloadWords (m + n))] t.memory u.memory)
    (he : ((s.scratch.base.toInt32 + slot).toUInt32, v) ∈ s.pushed) :
    u.memory.readWord (u.reg .sp + slot).toUInt32 = v ∧
      State.nullPage ≤ (u.reg .sp + slot).toUInt32 := by
  obtain ⟨hseparate, hpushed⟩ := State.separate_pushed hop.stack.2
  rw [hsp, hprep.sp]
  refine ⟨?_, ?_⟩
  · rw [hframe.readWord (hseparate.whole _ he)
      (List.forall_mem_singleton.mpr (hop.apart.symm.left (hpushed _ he)))]
    exact hprep.pushed he
  · have hfirst : Region.Contains ⟨(s.scratch.base.toInt32 + slot).toUInt32, 4⟩ _ :=
      Region.contains_mk.mpr ⟨Nat.le_refl _, Nat.lt_add_of_pos_right (by decide)⟩
    exact UInt32.le_iff_toNat_le.mpr (Nat.le_trans hop.stack.1 (hpushed _ he _ hfirst).1)

/-- The elements of both operands are copied, one behind the other. -/
theorem copiesBoth (himg : img.Unwrapped)
    (h : img.At inside k
      (Routine.appendItems w.concat 0 w 8 ++ (Routine.appendItems w.concat 2 w 4 ++ rest)) t)
    (hop : s.Operands w m n) (hbrk : State.nullPage.toNat ≤ s.brk.toNat)
    (hprep : s.Prepared w p m n t) :
    ∃ u, img.Comes inside t u ∧ img.At inside (k + 9 + 9) rest u ∧
      u.memory = (t.memory.copy w m (s.reg .a0).toUInt32 (s.brk + 12)).copy w n (s.reg .a1).toUInt32
        (s.brk + 12 + UInt32.ofNat (w.size * m)) ∧
      t.Preserves [.t0, .t1, .t2, .t3] u ∧ u.brk = t.brk ∧ u.stdout = t.stdout := by
  have hroom := hop.room
  obtain ⟨hfits, -⟩ := w.size_mul_le hop.sum
  have hmul : w.size * (m + n) = w.size * m + w.size * n := Nat.mul_add _ _ _
  have h12 : (s.brk + 12).toNat = s.brk.toNat + 12 := Addr.toNat_add_ofNat (n := 12) (by omega)
  have hnext : (s.brk + 12 + UInt32.ofNat (w.size * m)).toNat = s.brk.toNat + 12 + w.size * m := by
    rw [Addr.toNat_add_ofNat (by omega), h12]
  obtain ⟨hfirst, -⟩ := hop.first.of_frame hprep.frame hop.first_apart
  obtain ⟨hsecond, -⟩ := hop.second.of_frame hprep.frame hop.second_apart
  have ht2 : (t.reg .t2).toUInt32 = s.brk + 12 := congrArg Int32.toUInt32 hprep.target
  obtain ⟨hword, hvalid⟩ := slot hop hprep rfl (.refl _ _) (.tail _ (.head _) :
    (_, s.reg .a0) ∈ s.pushed)
  obtain ⟨u, hc, hu, hm, hlast, hkept, hbrk₁, hout⟩ := h.appends himg hword hvalid hfirst
    (by rw [ht2]; exact .of_le (by omega) (by omega))
  rw [ht2] at hm
  have hframe : Memory.Frame [s.fresh (w.payloadWords (m + n))] t.memory u.memory := by
    rw [hm]
    exact (Memory.Frame.copy _ _ (by omega)).widen
      (List.forall_mem_singleton.mpr (Region.within_of_le (by omega) (by omega))) List.mem_cons_self
  have hu2 : (u.reg .t2).toUInt32 = s.brk + 12 + UInt32.ofNat (w.size * m) := by
    rw [hlast, Int32.toUInt32_add, ht2]
    rfl
  obtain ⟨hword', hvalid'⟩ := slot hop hprep (hkept .sp (by decide)) hframe
    (.tail _ (.tail _ (.head _)) : (_, s.reg .a1) ∈ s.pushed)
  obtain ⟨hsecond', -⟩ := hsecond.of_frame hframe fun r hr =>
    hop.second_apart r (List.mem_cons.mpr (.inl (List.mem_singleton.mp hr)))
  obtain ⟨v, hc', hv, hm', -, hkept', hbrk₂, hout'⟩ := hu.appends himg hword' hvalid' hsecond'
    (by rw [hu2]; exact .of_le (by omega) (by omega))
  rw [hu2, hm] at hm'
  exact ⟨v, hc.trans hc', hv, hm', hkept.trans hkept', hbrk₂.trans hbrk₁, hout'.trans hout⟩

/-- The elements of both operands are copied, and the routine goes back. -/
theorem fills (himg : img.Unwrapped)
    (h : img.At inside k (Routine.appendItems w.concat 0 w 8 ++
    (Routine.appendItems w.concat 2 w 4 ++
      (Routine.pops.map .instr ++ [.op (.jumpReg .ra)]))) t)
    (hop : s.Operands w m n) (hbrk : State.nullPage.toNat ≤ s.brk.toNat)
    (hproto' : p.toNat + 8 ≤ s.brk.toNat) (hprep : s.Prepared w p m n t) :
    ∃ s', img.Comes inside t s' ∧ s.Concatenated w p m n s' := by
  have hroom := hop.room
  obtain ⟨hfits, hterminated⟩ := w.size_mul_le hop.sum
  obtain ⟨h4, h8, h12⟩ := Addr.toNat_words (a := s.brk) (by omega)
  have hp4 : (p + 4).toNat = p.toNat + 4 := Addr.toNat_add_ofNat (n := 4) (by omega)
  have hin : Region.Within ⟨s.brk + 12, w.size * (m + n)⟩ (s.fresh (w.payloadWords (m + n))) :=
    Region.within_of_le (by omega) (by omega)
  obtain ⟨hfirst, hsame⟩ := hop.first.of_frame hprep.frame hop.first_apart
  obtain ⟨hsecond, hsame'⟩ := hop.second.of_frame hprep.frame hop.second_apart
  obtain ⟨u, hc, hu, hm, hkept, hbrk', hout⟩ := h.copiesBoth himg hop hbrk hprep
  obtain ⟨hframe, helements⟩ := Memory.elements_copies (m := t.memory) (d := s.brk + 12)
    hfirst.payload
    hsecond.payload (by omega) (((hop.first_apart _ (.head _)).left hfirst.within.2.2).right hin)
    (((hop.second_apart _ (.head _)).left hsecond.within.2.2).right hin)
  rw [← hm] at hframe helements
  -- The header and the prototype are apart from the elements.
  have hword {a : Addr} (ha : a.toNat + 4 ≤ s.brk.toNat + 12) :
      u.memory.readWord a = t.memory.readWord a :=
    hframe.readWord (by omega) (List.forall_mem_singleton.mpr (Region.apart_of_le (by omega)))
  have hfresh : Memory.Frame [s.fresh (w.payloadWords (m + n))] t.memory u.memory :=
    hframe.widen (List.forall_mem_singleton.mpr hin) List.mem_cons_self
  have hpushed : ((s.scratch.base.toInt32 + 12).toUInt32, s.reg .ra) ∈ s.pushed := .head _
  obtain ⟨hra, hvalid⟩ := slot hop hprep (hkept .sp (by decide)) hfresh hpushed
  obtain ⟨hc', hv⟩ := hu.straight himg Routine.pops rfl (by
    simp [Routine.pops, hvalid, -Int32.toUInt32_add])
  let v := img.performs Routine.pops u
  have hvm : v.memory = u.memory := by simp [v, Routine.pops]
  have hvra : v.reg .ra = s.reg .ra := by
    simp [v, Routine.pops, Width.read, hra, -Int32.toUInt32_add]
  have hvsp : v.reg .sp = s.reg .sp := by
    have hsp : v.reg .sp = u.reg .sp + 16 := by simp [v, Routine.pops]
    rw [hsp, hkept .sp (by decide), hprep.sp]
    exact Int32.sub_add_cancel _ _
  have hvkept : t.Preserves [.sp, .ra, .t0, .t1, .t2, .t3] v :=
    (hkept.mono (by decide)).trans (keeps_performs (by simp [Routine.pops]) u)
  refine ⟨v.goto (v.reg .ra).toUInt32, hc.trans (hc'.trans (hv.ret himg)), ?_⟩
  refine ⟨?_, ?_, ?_, ?_, ?_, ?_, ?_, hterminated, ?_, ?_, ?_, ?_⟩
  · rw [State.pc_goto, hvra]
  · exact (hvkept .a0 (by decide)).trans hprep.result
  · rw [State.memory_goto, hvm, hword (by omega), hword (by omega), hprep.tag]
  · rw [State.memory_goto, hvm, hword (by omega), hword (by omega), hprep.dispatch]
  · rw [State.memory_goto, hvm, hword (by omega), hprep.size]
  · rw [State.memory_goto, hvm, helements, hsame, hsame']
  · intro i hl hh
    have hi : (s.brk + 12 + UInt32.ofNat i).toNat = s.brk.toNat + 12 + i := by
      rw [Addr.toNat_add_ofNat (by omega), h12]
    rw [State.memory_goto, hvm, hframe _ (List.forall_mem_singleton.mpr fun hmem => ?_)]
    · exact hprep.zeros _ (Region.contains_mk.mpr (by omega))
    · have := (Region.contains_mk.mp hmem).2
      omega
  · rw [State.memory_goto, hvm]
    exact hprep.frame.trans (hfresh.mono (List.cons_subset_cons _ (List.nil_subset _)))
  · rw [State.brk_goto, brk_performs, hbrk', hprep.brk]
  · exact ((hprep.regs.trans (hvkept.mono (by decide))).restore hvsp).restore hvra
  · rw [State.stdout_goto, stdout_performs, hout, hprep.stdout]

end Image.At

/-! ## The whole routine -/

/-- Lists are checked for `None`. -/
def Routine.concatChecks : Width → List Item
  | .byte => []
  | .word => [.op (.beqz .a0 errorNone), .op (.beqz .a1 errorNone)]

theorem Routine.concatItems_eq (w : Width) :
    concatItems w.concat w.prototype w = .label w.concat :: (concatChecks w ++ concatBody w) := by
  cases w <;> rfl

variable {img : Image} {inside : Nat → Prop} {k j m n : Nat} {s : State} {w : Width} {p : Addr}

/-- A reference to a sequence is not zero. -/
theorem Memory.SequenceAt.ne_zero {m : Memory} {q : Int32} (h : m.SequenceAt w q n) : q ≠ 0 := by
  rintro rfl
  exact absurd h.header (by decide)

/-- Operands that are sequences pass the checks. -/
theorem Image.At.passes (himg : img.Unwrapped)
    (h : img.At inside k (Routine.concatChecks w ++ Routine.concatBody w) s)
    (h0 : s.reg .a0 ≠ 0) (h1 : s.reg .a1 ≠ 0) :
    ∃ i t, img.Comes inside s t ∧ img.At inside i (Routine.concatBody w) t ∧ t = s.goto t.pc := by
  cases w with
  | byte => exact ⟨k, s, .refl s, h, rfl⟩
  | word =>
    obtain ⟨hc, hat⟩ := h.skipZero himg (beq_eq_false_iff_ne.mpr h0)
    obtain ⟨hc', hat'⟩ := hat.skipZero himg (beq_eq_false_iff_ne.mpr h1)
    exact ⟨_, _, hc.trans hc', hat', rfl⟩

/-- From its label the routine concatenates. -/
theorem Image.Holds.concatenates (himg : img.Unwrapped)
    (h : img.Holds inside k (Routine.concatItems w.concat w.prototype w)) (hpc : s.pc = pcOf k)
    (halloc : img.Holds inside j Routine.alloc2Items) (hop : s.Operands w m n)
    (hbrk : State.nullPage.toNat ≤ s.brk.toNat) (hp : img.addressOf w.prototype = p + 12)
    (hproto : State.nullPage.toNat ≤ p.toNat) (hproto' : p.toNat + 8 ≤ s.brk.toNat) :
    ∃ s', img.Comes inside s s' ∧ s.Concatenated w p m n s' := by
  rw [Routine.concatItems_eq] at h
  have hat : img.At inside k (Routine.concatChecks w ++ Routine.concatBody w) s := ⟨h.2, hpc⟩
  obtain ⟨i, t, hc, ht, hgoto⟩ := hat.passes himg hop.first.ne_zero hop.second.ne_zero
  -- Only the program counter has changed.
  have hop' : t.Operands w m n := hgoto ▸ hop.goto t.pc
  have hbrk' : t.brk = s.brk := by rw [hgoto, State.brk_goto]
  obtain ⟨_, u, hc', hu, hprep⟩ := ht.prepares himg halloc hop' (by rwa [hbrk']) hp hproto
    (by rwa [hbrk'])
  obtain ⟨s', hc'', hdone⟩ := hu.fills himg hop' (by rwa [hbrk']) (by rwa [hbrk']) hprep
  rw [hgoto] at hdone
  exact ⟨s', hc.trans (hc'.trans hc''), hdone.pc, hdone.result, hdone.tag,
    hdone.dispatch, hdone.size, hdone.payload, hdone.zeros, hdone.terminated, hdone.others,
      hdone.brk, hdone.regs, hdone.stdout⟩

/-- Zero for a list leads to the error exit. -/
theorem Image.Holds.rejects (himg : img.Unwrapped) {addr : Addr}
    (h : img.Holds inside k (Routine.concatItems Routine.listconcat Routine.listPrototype .word))
    (hpc : s.pc = pcOf k) (herror : img.label? Routine.errorNone.name = some addr)
    (hzero : s.reg .a0 = 0 ∨ s.reg .a1 = 0) : ∃ t, img.Comes inside s t ∧ t.pc = addr := by
  have hl : find img.labels Routine.errorNone.name = .ok addr := find_eq_ok_iff.mpr herror
  have hat : img.At inside k (Routine.concatChecks .word ++ Routine.concatBody .word) s :=
    ⟨h.2, hpc⟩
  by_cases h0 : s.reg .a0 = 0
  · exact ⟨_, hat.branchZero himg hl (beq_iff_eq.mpr h0), rfl⟩
  · obtain ⟨hc, hat'⟩ := hat.skipZero himg (beq_eq_false_iff_ne.mpr h0)
    exact ⟨_, hc.trans (hat'.branchZero himg hl (beq_iff_eq.mpr (hzero.resolve_left h0))), rfl⟩

/-- The routine of a compiled program with its heap above its data. -/
theorem CompiledAs.concatenates {prog : Program} {settings : CodegenSettings} {a : Assembly}
    {table : SymbolTable} {bodies : List Body} {payload : Int32} {init : State}
    (h : CompiledAs prog settings a table bodies payload) (hload : load a = .ok (img, init))
    (himg : img.Unwrapped) (hheap : a.dataTop ≤ s.brk.toNat)
    (hpc : img.label? w.concat.name = some s.pc) (hop : s.Operands w m n) :
    ∃ p i s', img.label? w.prototype.name = some (p + 12) ∧ Steps img i s s' ∧
      s.Concatenated w p m n s' := by
  have hlt := s.brk.toNat_lt_size
  obtain ⟨k, hk⟩ : ∃ k, img.Holds (fun _ => True) k (Routine.concatItems w.concat w.prototype w) :=
    h.holds_routine hload (by cases w <;> simp [Routine.parts, Width.concat, Width.prototype])
  obtain ⟨j, halloc⟩ : ∃ j, img.Holds (fun _ => True) j Routine.alloc2Items :=
    h.holds_routine hload (by simp [Routine.parts])
  obtain ⟨p, hlabel, hlow, hhigh⟩ := h.prototype_header hload (l := w.prototype) (by omega)
    (by cases w <;> simp [Width.prototype])
  have hpc' : s.pc = pcOf k := by
    rw [Routine.concatItems_eq] at hk
    exact Option.some.inj (hpc.symm.trans (find_eq_ok_iff.mp hk.1))
  obtain ⟨s', hcomes, hdone⟩ := hk.concatenates himg hpc' halloc hop (by omega)
    (addressOf_eq (find_eq_ok_iff.mpr hlabel)) hlow (by omega)
  obtain ⟨i, hsteps⟩ := hcomes.steps
  exact ⟨p, i, s', hlabel, hsteps, hdone⟩

/-- **Concatenation.** In a compiled program with its heap above its data, the routines for strings
and lists leave a new object with the elements of both operands and go back. With zero for a list
the program ends with exit code 4. Its last act is to print a message; the text begins at an offset
behind a label of the data, which is zero unless the program declares a class named like that of
strings, and must not lead beyond the last address. -/
theorem concatenation_routines {prog : Program} {settings : CodegenSettings} {a : Assembly}
    {img : Image} {init s : State} (hcompile : compile prog settings = .ok a)
    (hload : load a = .ok (img, init)) (himg : img.Unwrapped) (hheap : a.dataTop ≤ s.brk.toNat) :
    (∀ w m n, img.label? w.concat.name = some s.pc → s.Operands w m n →
      ∃ p i s', img.label? w.prototype.name = some (p + 12) ∧ Steps img i s s' ∧
        s.Concatenated w p m n s') ∧
    ∃ table bodies payload, CompiledAs prog settings a table bodies payload ∧
      ((∀ d ∈ prog.classDecls, d.name ≠ "str") → payload = 0) ∧
      (a.dataTop + payload.toUInt32.toNat ≤ UInt32.size →
        img.label? Routine.listconcat.name = some s.pc → s.reg .a0 = 0 ∨ s.reg .a1 = 0 →
        ∃ s', Ends img s Object.operationOnNone s') := by
  obtain ⟨table, bodies, payload, hc, hpayload⟩ := compile_eq_ok_payload hcompile
  refine ⟨fun w m n hpc hop => hc.concatenates hload himg hheap hpc hop, table, bodies, payload, hc,
    hpayload, fun hroom hpc hzero => ?_⟩
  have hvalid := hc.messageAt_valid hload hroom (ErrorExit.onNone_mem _)
  obtain ⟨addr, herror, hends⟩ := hc.ends_error hload himg (ErrorExit.onNone_mem _)
  obtain ⟨k, hk⟩ : ∃ k, img.Holds (fun _ => True) k
      (Routine.concatItems Routine.listconcat Routine.listPrototype .word) :=
    hc.holds_routine hload (by simp [Routine.parts])
  have hpc' : s.pc = pcOf k := Option.some.inj (hpc.symm.trans (find_eq_ok_iff.mp hk.1))
  obtain ⟨t, hcomes, ht⟩ := hk.rejects himg hpc' herror hzero
  obtain ⟨i, hsteps⟩ := hcomes.steps
  obtain ⟨s', ⟨i', hsteps', hexit⟩, -⟩ := hends t ht hvalid
  exact ⟨s', i + i', hsteps.trans hsteps', hexit⟩

/-- Two references to one string `hi`, with the heap below it and the stack above it. -/
def hiTwice : State where
  pc := 0
  regs := ((Registers.zeros.set .a0 805306368).set .a1 805306368).set .sp 1342177280
  memory := (Memory.empty.writeWord 805306364 2).writeBytes 805306368 [104, 105]
  brk := 536870912
  stdout := ""

theorem hiTwice_operands : hiTwice.Operands .byte 2 2 := by
  have hstring : hiTwice.memory.SequenceAt .byte 805306368 2 :=
    ⟨by decide +kernel, by decide, by decide, by decide⟩
  have hroom : Width.payloadWords (2 + 2) .byte = 2 := Width.payloadWords_byte (by decide)
  have hapart : ∀ r ∈ [hiTwice.fresh (Width.payloadWords (2 + 2) .byte), hiTwice.scratch],
      (Width.byte.sequence 805306368 2).Apart r := by
    rw [hroom]
    simp only [List.forall_mem_cons]
    exact ⟨Region.apart_of_le (by decide +kernel), Region.apart_of_le (by decide +kernel),
      List.forall_mem_nil _⟩
  refine ⟨hstring, hstring, by decide, ?_, by decide +kernel, ?_, hapart, hapart⟩
  · rw [hroom]
    decide
  · rw [hroom]
    exact Region.apart_of_le (by decide +kernel)

/-- A string is concatenated with itself. -/
theorem hi_and_hi :
    ∃ (a : Assembly) (img : Image) (init s : State) (p : Addr) (i : Nat) (s' : State),
      compile {} ⟨.physical, false, 4⟩ = .ok a ∧ load a = .ok (img, init) ∧ s.Operands .byte 2 2 ∧
      Steps img i s s' ∧ s.Concatenated .byte p 2 2 s' ∧
      s'.memory.elements .byte (s'.reg .a0).toUInt32 4 = [104, 105, 104, 105] := by
  obtain ⟨a, img, init, hcompile, hload, himg, hdata, hlabels⟩ := exists_loaded_empty
  obtain ⟨pc, hpc⟩ := hlabels Routine.strcat List.mem_cons_self
  have hop := hiTwice_operands.goto pc
  obtain ⟨p, i, s', -, hsteps, hdone⟩ :=
    (concatenation_routines (s := hiTwice.goto pc) hcompile hload himg hdata).1 .byte 2 2 hpc hop
  refine ⟨a, img, init, _, p, i, s', hcompile, hload, hop, hsteps, hdone, ?_⟩
  rw [hdone.result]
  refine hdone.payload.trans ?_
  show hiTwice.memory.elements .byte 805306368 2 ++ hiTwice.memory.elements .byte 805306368 2 = _
  decide +kernel

end ChocoRV
