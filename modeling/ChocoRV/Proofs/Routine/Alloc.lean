import Mathlib
import ChocoRV.Proofs.Machine.Exits
import ChocoRV.Proofs.Routine.Loops

/-!
# Allocation

Both allocators move the break up and make an object below it. `State.Allocates` is what they have
in common: where the object is, and all that they leave alone. One copies a whole object, the other
one takes the header of an object, a size word and as many zero words as it is told.
-/

namespace ChocoRV

open Assembly Image

namespace State

/-- The state after the heap has been made larger. -/
def sbrk (s : State) : State :=
  { s.put .a0 s.brk.toInt32 with brk := Addr.align4 (s.brk + (s.reg .a0).toUInt32) }

theorem syscall_sbrk {s : State} (h : s.reg .a7 = Syscall.number .sbrk) :
    s.syscall = .running s.sbrk := by
  simp only [syscall, ofNumber?_of_reg h]
  rfl

variable (s : State)

@[simp] theorem pc_sbrk : s.sbrk.pc = s.pc + 4 := rfl

@[simp] theorem memory_sbrk : s.sbrk.memory = s.memory := rfl

@[simp] theorem stdout_sbrk : s.sbrk.stdout = s.stdout := rfl

@[simp] theorem brk_sbrk : s.sbrk.brk = Addr.align4 (s.brk + (s.reg .a0).toUInt32) := rfl

theorem reg_sbrk (r : Reg) : s.sbrk.reg r = (s.put .a0 s.brk.toInt32).reg r := rfl

/-- An object of `n` payload words has been made at the break. Its reference is in `a0`, and nothing
else has changed but registers that callers save. -/
structure Allocates (s : State) (n : Nat) (s' : State) : Prop where
  result : s'.reg .a0 = (s.brk + 12).toInt32
  brk : s'.brk = Addr.align4 (s.brk + UInt32.ofNat (12 + 4 * n))
  frame : Memory.Frame [⟨s.brk, 12 + 4 * n⟩] s.memory s'.memory
  regs : s.Preserves [.a0, .a7, .t0, .t1, .t2, .t3, .t4] s'
  stdout : s'.stdout = s.stdout

/-- The new object has the tag and the dispatch table of one whose header begins at `p`, the size
that was in `a1`, and zeros. -/
structure Makes (s : State) (p : Addr) (n : Nat) (s' : State) : Prop extends s.Allocates n s' where
  tag : s'.memory.readWord s.brk = s.memory.readWord p
  dispatch : s'.memory.readWord (s.brk + 4) = s.memory.readWord (p + 4)
  size : s'.memory.readWord (s.brk + 8) = s.reg .a1
  zeros : ∀ b, Region.Contains ⟨s.brk + 12, 4 * n⟩ b → s'.memory.read b = 0

end State

/-- Header and payload words as a number of bytes. -/
theorem toUInt32_words {n : Nat} (h : 12 + 4 * n < 4294967296) :
    (ShiftOp.eval .slli (Int32.ofNat n + 3) Op.wordShift).toUInt32 = UInt32.ofNat (12 + 4 * n) := by
  have hsum : (Int32.ofNat n + 3).toUInt32 = UInt32.ofNat (n + 3) := by
    rw [UInt32.ofNat_add]
    rfl
  show (Int32.ofNat n + 3).toUInt32 <<< (2 : UInt32) = _
  rw [hsum, ← UInt32.toNat_inj, UInt32.toNat_shiftLeft, UInt32.toNat_ofNat', UInt32.toNat_ofNat',
    Nat.shiftLeft_eq, show (2 : UInt32).toNat % 32 = 2 from rfl, Nat.mod_eq_of_lt h]
  omega

/-! The words of a header, from the reference twelve bytes above its first one. -/

theorem Object.tag_addr (a : Addr) : (a.toInt32 + 12 + tagOffset).toUInt32 = a := by
  rw [Int32.toUInt32_add, Int32.toUInt32_add, UInt32.add_assoc]
  exact UInt32.add_zero a

theorem Object.dispatchTable_addr (a : Addr) :
    (a.toInt32 + 12 + dispatchTableOffset).toUInt32 = a + 4 := by
  rw [Int32.toUInt32_add, Int32.toUInt32_add, UInt32.add_assoc]
  rfl

theorem Object.size_addr (a : Addr) : (a.toInt32 + 12 + sizeOffset).toUInt32 = a + 8 := by
  rw [Int32.toUInt32_add, Int32.toUInt32_add, UInt32.add_assoc]
  rfl

/-- The words of a header at an address. -/
def Object.header (a : Addr) (tag dispatch size : Int32) : List (Addr × Int32) :=
  [(a, tag), (a + 4, dispatch), (a + 8, size)]

/-- The words of a header lie in the first twelve bytes of an object, and do not overlap. -/
theorem Object.separate_header {a : Addr} (ha : a.toNat + 12 ≤ UInt32.size)
    (tag dispatch size : Int32) :
    Memory.Separate (header a tag dispatch size) ∧
      ∀ e ∈ header a tag dispatch size, Region.Within ⟨e.1, 4⟩ ⟨a, 12⟩ := by
  have h4 : (a + 4).toNat = a.toNat + 4 := Addr.toNat_add_ofNat (n := 4) (by omega)
  have h8 : (a + 8).toNat = a.toNat + 8 := Addr.toNat_add_ofNat (n := 8) (by omega)
  refine ⟨⟨?_, ?_⟩, ?_⟩
  · simp [header, h4, h8]
    omega
  · simp [header, h4, h8]
  · simp only [header, List.forall_mem_cons]
    exact ⟨Region.within_of_le (by omega) (by omega), Region.within_of_le (by omega) (by omega),
      Region.within_of_le (by omega) (by omega), fun _ he => absurd he List.not_mem_nil⟩

namespace Image.At

variable {img : Image} {inside : Nat → Prop} {k n : Nat} {rest : List Item} {s : State}

/-- The heap is made larger by a header and as many words as a register says. -/
theorem grows (himg : img.Unwrapped) {r : Reg} {c : Option String}
    (h : img.At inside k (.instr ⟨.addi .a0 r 3, c⟩ :: .op (.slli .a0 .a0 Op.wordShift) ::
      (Routine.syscall .sbrk ++ rest)) s)
    (hr : s.reg r = Int32.ofNat n) (hn : 12 + 4 * n < 4294967296) :
    ∃ s', img.Comes inside s s' ∧ img.At inside (k + 4) rest s' ∧ s'.reg .a0 = s.brk.toInt32 ∧
      s'.brk = Addr.align4 (s.brk + UInt32.ofNat (12 + 4 * n)) ∧ s'.memory = s.memory ∧
      s'.stdout = s.stdout ∧ s.Preserves [.a0, .a7] s' := by
  let ask : List Instr := [⟨.addi .a0 r 3, c⟩, ⟨.slli .a0 .a0 Op.wordShift, none⟩,
    ⟨.li .a7 Syscall.sbrk.number, none⟩]
  obtain ⟨hc₁, h₁⟩ := h.straight himg ask rfl (by simp [ask])
  have ha7 : (img.performs ask s).reg .a7 = Syscall.sbrk.number := by
    simp [ask]
  obtain ⟨hc₂, h₂⟩ := h₁.ecall himg (State.syscall_sbrk ha7) rfl
  refine ⟨_, hc₁.trans hc₂, h₂, ?_, ?_, ?_, ?_, ?_⟩
  · simp [State.reg_sbrk]
  · rw [State.brk_sbrk, brk_performs, ← toUInt32_words hn, ← hr]
    simp [ask]
  · simp [ask]
  · simp
  · exact (keeps_performs (by simp [ask]) s).trans (.put List.mem_cons_self _ _)

/-- A new object with the header of another one, which begins at `p`. -/
theorem makes (himg : img.Unwrapped) {p : Addr}
    (h : img.At inside k (Routine.alloc2Items.dropLast ++ rest) s)
    (hn : s.reg .a2 = Int32.ofNat n) (hbrk : State.nullPage.toNat ≤ s.brk.toNat)
    (hroom : s.brk.toNat + (12 + 4 * n) < UInt32.size) (hp : s.reg .a0 = (p + 12).toInt32)
    (hproto : State.nullPage.toNat ≤ p.toNat) (hproto' : p.toNat + 8 ≤ UInt32.size)
    (hapart : Region.Apart ⟨p, 8⟩ ⟨s.brk, 12 + 4 * n⟩) :
    ∃ s', img.Comes inside s s' ∧ img.At inside (k + 18) rest s' ∧ s.Makes p n s' := by
  have hsize : UInt32.size = 4294967296 := rfl
  obtain ⟨hc₁, h₁⟩ := h.label.perform himg rfl trivial
  let t := s.put .t0 (s.reg .a0)
  have ht2 : t.reg .a2 = Int32.ofNat n := by simp [t, hn]
  obtain ⟨u, hc₂, h₂, hu0, hubrk, hum, huout, hukept⟩ := h₁.grows himg ht2 (by omega)
  have hukept' : s.Preserves [.a0, .a7, .t0] u :=
    (State.Preserves.put (by decide) s _).trans (hukept.mono (by decide))
  have hut0 : u.reg .t0 = p.toInt32 + 12 := by
    rw [hukept .t0 (by decide)]
    exact (s.reg_put_self _ (by decide)).trans hp
  -- The header, and what the loop begins with.
  have hp4 : (p + 4).toNat = p.toNat + 4 := Addr.toNat_add_ofNat (n := 4) (by omega)
  obtain ⟨h4, h8, h12⟩ := Addr.toNat_words (a := s.brk) (by omega)
  let fill : List Instr := [⟨.addi .a0 .a0 12, some "object reference"⟩,
    ⟨.lw .t1 .t0 Object.tagOffset, none⟩, ⟨.sw .t1 .a0 Object.tagOffset, none⟩,
    ⟨.lw .t1 .t0 Object.dispatchTableOffset, none⟩, ⟨.sw .t1 .a0 Object.dispatchTableOffset, none⟩,
    ⟨.sw .a1 .a0 Object.sizeOffset, none⟩, ⟨.mv .t1 .a0, none⟩, ⟨.mv .t2 .a2, none⟩]
  obtain ⟨hc₃, h₃⟩ := h₂.straight himg fill rfl (by
    simp [fill, hu0, hut0, Object.tag_addr, Object.dispatchTable_addr, Object.size_addr,
      UInt32.le_iff_toNat_le, hp4, h4, h8, -Int32.toUInt32_add]
    omega)
  let v := img.performs fill u
  have hv0 : v.reg .a0 = (s.brk + 12).toInt32 := by
    simp [v, fill, hu0]
  have hv1 : v.reg .t1 = (s.brk + 12).toInt32 := by
    simp [v, fill, hu0]
  have hv2 : v.reg .t2 = Int32.ofNat n := by
    rw [← hn, ← hukept' .a2 (by decide)]
    simp [v, fill]
  have hu1 : u.reg .a1 = s.reg .a1 := hukept' .a1 (by decide)
  let header := Object.header s.brk (s.memory.readWord p) (s.memory.readWord (p + 4)) (s.reg .a1)
  have hvm : v.memory = s.memory.writeWords header := by
    -- The second word is read after the first one has been written elsewhere.
    have hsecond : (s.memory.writeWord s.brk (s.memory.readWord p)).readWord (p + 4) =
        s.memory.readWord (p + 4) := by
      have hfirst : Memory.Frame [⟨s.brk, 4⟩] s.memory
          (s.memory.writeWord s.brk (s.memory.readWord p)) :=
        Memory.Frame.write (w := .word) _ (by show _ + 4 ≤ _; omega) _
      refine hfirst.readWord (by omega) (List.forall_mem_singleton.mpr ?_)
      exact (hapart.left (Region.within_of_le (by omega) (by omega))).right
        (Region.within_of_le (Nat.le_refl _) (by omega))
    simp [v, fill, header, Object.header, Memory.writeWords, hu0, hut0, hum, hu1, hsecond,
      Object.tag_addr, Object.dispatchTable_addr, Object.size_addr, Width.write, Width.read,
      -Int32.toUInt32_add]
  have hvalid : Width.word.Valid (v.reg .t1).toUInt32 n := by
    rw [hv1]
    refine .of_le ?_ ?_
    · show _ ≤ (s.brk + 12).toNat
      omega
    · show (s.brk + 12).toNat + 4 * n ≤ _
      omega
  obtain ⟨s', hc₄, h₄, hm', hkept, hbrk', hout'⟩ := h₃.clears himg hv2 (by omega) hvalid
  obtain ⟨hseparate, hin⟩ := Object.separate_header (a := s.brk) (by omega) (s.memory.readWord p)
    (s.memory.readWord (p + 4)) (s.reg .a1)
  have hword {a : Addr} {x : Int32} (he : (a, x) ∈ header) : v.memory.readWord a = x := by
    rw [hvm]
    exact Memory.readWord_writeWords hseparate he
  have hframe : Memory.Frame [⟨s.brk, 12⟩] s.memory v.memory := by
    rw [hvm]
    exact (Memory.Frame.writeWords _ hseparate.whole).widen (List.forall_mem_map.mpr hin)
      List.mem_cons_self
  have hclear : Memory.Frame [⟨s.brk + 12, 4 * n⟩] v.memory s'.memory := by
    rw [hm', hv1]
    exact Memory.Frame.clear _ (by show (s.brk + 12).toNat + 4 * n ≤ _; omega)
  have hheader {a : Addr} (ha : s.brk.toNat ≤ a.toNat ∧ a.toNat + 4 ≤ s.brk.toNat + 12) :
      s'.memory.readWord a = v.memory.readWord a :=
    hclear.readWord (by omega) (List.forall_mem_singleton.mpr (Region.apart_of_le (by omega)))
  refine ⟨s', hc₁.trans (hc₂.trans (hc₃.trans hc₄)), h₄, ⟨?_, ?_, ?_, ?_, ?_⟩, ?_, ?_, ?_, ?_⟩
  · rw [hkept .a0 (by decide)]
    exact hv0
  · rw [hbrk', brk_performs, hubrk]
    rfl
  · refine (hframe.widen (List.forall_mem_singleton.mpr ?_) List.mem_cons_self).trans
      (hclear.widen (List.forall_mem_singleton.mpr ?_) List.mem_cons_self)
    · exact Region.within_of_le (Nat.le_refl _) (by omega)
    · exact Region.within_of_le (by omega) (by omega)
  · exact (hukept'.mono (by decide)).trans
      ((keeps_performs (by simp [fill]) u).trans (hkept.mono (by decide)))
  · rw [hout', stdout_performs, huout]
    rfl
  · exact (hheader (by omega)).trans (hword (by simp [header, Object.header]))
  · exact (hheader (by omega)).trans (hword (by simp [header, Object.header]))
  · exact (hheader (by omega)).trans (hword (by simp [header, Object.header]))
  · intro b hb
    rw [hm', hv1]
    exact Memory.read_clear (by show (s.brk + 12).toNat + 4 * n ≤ _; omega) hb

/-- A call of a routine that comes to its end with the return address that it was given. -/
theorem comesBack (himg : img.Unwrapped) {j : Nat} {l : Label} {c : Option String} {u : State}
    (h : img.At inside k (.instr ⟨.call l, c⟩ :: rest) s)
    (hl : find img.labels l.name = .ok (pcOf j))
    (hc : img.Comes inside ((s.setReg .ra (pcOf (k + 1)).toInt32).goto (pcOf j)) u)
    (hu : img.At inside n [.op (.jumpReg .ra)] u) (hra : u.reg .ra = (pcOf (k + 1)).toInt32) :
    img.Comes inside s (u.goto (pcOf (k + 1))) ∧
      img.At inside (k + 1) rest (u.goto (pcOf (k + 1))) := by
  have hback : (u.reg .ra).toUInt32 = pcOf (k + 1) := congrArg Int32.toUInt32 hra
  have hret := hu.ret himg
  rw [hback] at hret
  exact ⟨(h.call himg hl).trans (hc.trans hret), h.code.2, rfl⟩

/-- A call of the routine that makes an object comes back to the place after it. -/
theorem calls_alloc2 (himg : img.Unwrapped) {p : Addr} {j : Nat} {c : Option String}
    (h : img.At inside k (.instr ⟨.call Routine.alloc2, c⟩ :: rest) s)
    (hcode : img.Holds inside j Routine.alloc2Items)
    (hn : s.reg .a2 = Int32.ofNat n) (hbrk : State.nullPage.toNat ≤ s.brk.toNat)
    (hroom : s.brk.toNat + (12 + 4 * n) < UInt32.size) (hp : s.reg .a0 = (p + 12).toInt32)
    (hproto : State.nullPage.toNat ≤ p.toNat) (hproto' : p.toNat + 8 ≤ UInt32.size)
    (hapart : Region.Apart ⟨p, 8⟩ ⟨s.brk, 12 + 4 * n⟩) :
    ∃ s', img.Comes inside s s' ∧ img.At inside (k + 1) rest s' ∧
      (s.setReg .ra (pcOf (k + 1)).toInt32).Makes p n s' := by
  let t := (s.setReg .ra (pcOf (k + 1)).toInt32).goto (pcOf j)
  have ht2 : t.reg .a2 = Int32.ofNat n := (s.reg_setReg_of_ne _ (by decide)).trans hn
  have ht0 : t.reg .a0 = (p + 12).toInt32 := (s.reg_setReg_of_ne _ (by decide)).trans hp
  have hat : img.At inside j (Routine.alloc2Items.dropLast ++ [.op (.jumpReg .ra)]) t :=
    ⟨hcode, rfl⟩
  obtain ⟨u, hc, hu, hmakes⟩ := hat.makes himg ht2 hbrk hroom ht0 hproto hproto' hapart
  have htra : t.reg .ra = (pcOf (k + 1)).toInt32 := s.reg_setReg_self _ (by decide : Reg.ra ≠ .zero)
  obtain ⟨hcomes, hnext⟩ := h.comesBack himg hcode.1 hc hu
    ((hmakes.regs .ra (by decide)).trans htra)
  refine ⟨_, hcomes, hnext, ?_⟩
  exact ⟨⟨hmakes.result, hmakes.brk, hmakes.frame, hmakes.regs, hmakes.stdout⟩, hmakes.tag,
    hmakes.dispatch, hmakes.size, hmakes.zeros⟩

/-- A copy of the object whose header begins at `p`. -/
theorem duplicates (himg : img.Unwrapped) {p : Addr}
    (h : img.At inside k (Routine.allocItems.dropLast ++ rest) s)
    (hn : s.memory.readWord (p + 8) = Int32.ofNat n) (hbrk : State.nullPage.toNat ≤ s.brk.toNat)
    (hroom : s.brk.toNat + (12 + 4 * n) < UInt32.size) (hp : s.reg .a0 = (p + 12).toInt32)
    (hproto : State.nullPage.toNat ≤ p.toNat) (hproto' : p.toNat + (12 + 4 * n) ≤ UInt32.size)
    (hapart : Region.Apart ⟨p, 12 + 4 * n⟩ ⟨s.brk, 12 + 4 * n⟩) :
    ∃ s', img.Comes inside s s' ∧ img.At inside (k + 17) rest s' ∧ s.Allocates n s' ∧
      s'.memory.elements .word s.brk (n + 3) = s.memory.elements .word p (n + 3) := by
  have hsize : UInt32.size = 4294967296 := rfl
  have hp8 : (p + 8).toNat = p.toNat + 8 := Addr.toNat_add_ofNat (n := 8) (by omega)
  have hp' : s.reg .a0 = p.toInt32 + 12 := hp
  let look : List Instr := [⟨.mv .t0 .a0, some "prototype"⟩,
    ⟨.lw .t1 .t0 Object.sizeOffset, some "attribute count"⟩]
  obtain ⟨hc₁, h₁⟩ := h.label.straight himg look rfl (by
    simp [look, hp', Object.size_addr, UInt32.le_iff_toNat_le, hp8, -Int32.toUInt32_add]
    omega)
  let t := img.performs look s
  have ht1 : t.reg .t1 = Int32.ofNat n := by
    simp [t, look, hp', Object.size_addr, Width.read, hn, -Int32.toUInt32_add]
  have ht0 : t.reg .t0 = p.toInt32 + 12 := by
    simp [t, look, hp']
  have htm : t.memory = s.memory := by simp [t, look]
  have htkept : s.Preserves [.t0, .t1] t := keeps_performs (by simp [look]) s
  obtain ⟨u, hc₂, h₂, hu0, hubrk, hum, huout, hukept⟩ := h₁.grows himg ht1 (by omega)
  have hut0 : u.reg .t0 = p.toInt32 + 12 := (hukept .t0 (by decide)).trans ht0
  have hut1 : u.reg .t1 = Int32.ofNat n := (hukept .t1 (by decide)).trans ht1
  let place : List Instr := [⟨.addi .a0 .a0 12, some "object reference"⟩,
    ⟨.addi .t2 .t0 Object.tagOffset, none⟩, ⟨.addi .t4 .a0 Object.tagOffset, none⟩,
    ⟨.addi .t1 .t1 3, none⟩]
  obtain ⟨hc₃, h₃⟩ := h₂.straight himg place rfl (by simp [place])
  let v := img.performs place u
  have hv0 : v.reg .a0 = (s.brk + 12).toInt32 := by
    simp [v, place, hu0]
  have hv1 : v.reg .t1 = Int32.ofNat (n + 3) := by
    rw [Int32.ofNat_add]
    simp [v, place, hut1]
  have hv2 : (v.reg .t2).toUInt32 = p := by
    simp [v, place, hut0, Object.tag_addr, -Int32.toUInt32_add]
  have hv4 : (v.reg .t4).toUInt32 = s.brk := by
    simp [v, place, hu0, Object.tag_addr, -Int32.toUInt32_add]
  have hvm : v.memory = s.memory := by
    rw [← htm, ← hum]
    simp [v, place]
  have hwords : Width.word.size * (n + 3) = 12 + 4 * n := by
    show 4 * (n + 3) = _
    omega
  obtain ⟨s', hc₄, h₄, hm', -, hkept, hbrk', hout'⟩ := h₃.copies himg (by decide) hv1 (by omega)
    (by rw [hv2]; exact .of_le hproto (by omega)) (by rw [hv4]; exact .of_le hbrk (by omega))
  rw [hv2, hv4, hvm] at hm'
  refine ⟨s', hc₁.trans (hc₂.trans (hc₃.trans hc₄)), h₄, ⟨?_, ?_, ?_, ?_, ?_⟩, ?_⟩
  · rw [hkept .a0 (by decide)]
    exact hv0
  · rw [hbrk', brk_performs, hubrk, brk_performs]
  · rw [hm', ← hwords]
    exact Memory.Frame.copy _ _ (by omega)
  · exact (htkept.mono (by decide)).trans ((hukept.mono (by decide)).trans
      ((keeps_performs (by simp [place]) u).trans (hkept.mono (by decide))))
  · rw [hout', stdout_performs, huout, stdout_performs]
  · rw [hm']
    exact Memory.elements_copy (by omega) (by omega) (hwords ▸ hapart)

end Image.At

end ChocoRV
