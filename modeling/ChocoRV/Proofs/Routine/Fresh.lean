import Mathlib
import ChocoRV.Proofs.Concatenation

/-!
# Strings of one byte

An index into a string and a loop over one make strings of one byte. The routine for this keeps its
operand below the stack pointer, lets a new object be made at the break with the header of the
prototype of strings, and puts the byte into it.
-/

namespace ChocoRV

open Assembly Image

/-- There is room for an object of `n` payload words, apart from the scratch area. -/
structure State.HasRoom (s : State) (n : Nat) : Prop where
  room : s.brk.toNat + (12 + 4 * n) < UInt32.size
  stack : nullPage.toNat ≤ s.scratch.base.toNat ∧ s.scratch.base.toNat + 16 ≤ UInt32.size
  apart : (s.fresh n).Apart s.scratch

/-- A new string has been made of the byte in `a0`, with the header of the prototype at `p`. -/
structure State.Spells (s : State) (p : Addr) (s' : State) : Prop where
  pc : s'.pc = (s.reg .ra).toUInt32
  result : s'.reg .a0 = (s.brk + 12).toInt32
  tag : s'.memory.readWord s.brk = s'.memory.readWord p
  size : s'.memory.readWord (s.brk + 8) = 1
  byte : s'.memory.read (s.brk + 12) = (s.reg .a0).toUInt32.toUInt8
  zero : s'.memory.read (s.brk + 13) = 0

namespace Routine

/-- Keep the return address and the character, and ask for a string of one byte. -/
def charBegins : List Instr :=
  [⟨.addi .sp .sp (-16), none⟩, ⟨.sw .ra .sp 12, none⟩, ⟨.sw .a0 .sp 8, none⟩,
    ⟨.la .a0 strPrototype, none⟩, ⟨.li .a1 1, none⟩, ⟨.li .a2 1, none⟩]

/-- Put the character into the string. -/
def charEnds : List Instr :=
  [⟨.lw .t0 .sp 8, none⟩, ⟨.sb .t0 .a0 0, none⟩, ⟨.lw .ra .sp 12, none⟩, ⟨.addi .sp .sp 16, none⟩]

end Routine

namespace Image

variable {img : Image} {inside : Nat → Prop} {k j : Nat} {rest : List Item} {s : State} {p : Addr}

/-- The return address and the character are kept in the scratch area. -/
theorem At.beginsChar (himg : img.Unwrapped)
    (h : img.At inside k (Routine.charBegins.map .instr ++ rest) s)
    (hstack : State.nullPage.toNat ≤ s.scratch.base.toNat ∧
    s.scratch.base.toNat + 16 ≤ UInt32.size) :
    ∃ s', img.Comes inside s s' ∧ img.At inside (k + 6) rest s' ∧
      s'.memory = s.memory.writeWords (s.pushed.take 2) ∧ s'.reg .sp = s.scratch.base.toInt32 ∧
      s'.reg .a0 = (img.addressOf Routine.strPrototype).toInt32 ∧ s'.reg .a1 = 1 ∧ s'.reg .a2 = 1 ∧
      s'.brk = s.brk := by
  have hsp : s.reg .sp + -16 = s.scratch.base.toInt32 := (Int32.sub_eq_add_neg _ _).symm
  have h8 : (s.scratch.base + 8).toNat = s.scratch.base.toNat + 8 :=
    Addr.toNat_add_ofNat (n := 8) (by omega)
  have h12 : (s.scratch.base + 12).toNat = s.scratch.base.toNat + 12 :=
    Addr.toNat_add_ofNat (n := 12) (by omega)
  have e8 : (s.scratch.base.toInt32 + 8).toUInt32 = s.scratch.base + 8 := rfl
  have e12 : (s.scratch.base.toInt32 + 12).toUInt32 = s.scratch.base + 12 := rfl
  obtain ⟨hc, hat⟩ := h.straight himg Routine.charBegins rfl (by
    simp [Routine.charBegins, hsp, e8, e12, UInt32.le_iff_toNat_le, h8, h12, -Int32.toUInt32_add]
    omega)
  refine ⟨_, hc, hat, ?_, ?_, ?_, ?_, ?_, by simp⟩
  · simp [Routine.charBegins, hsp, e8, e12, Width.write, State.pushed, Memory.writeWords,
      -Int32.toUInt32_add]
  all_goals simp [Routine.charBegins, hsp]

/-- The character is put into the string, and the routine goes back. -/
theorem At.endsChar (himg : img.Unwrapped) {base q : Addr} {v ra : Int32}
    (h : img.At inside k (Routine.charEnds.map .instr ++ [.op (.jumpReg .ra)]) s)
    (hbase : State.nullPage.toNat ≤ base.toNat ∧ base.toNat + 16 ≤ UInt32.size)
    (hsp : s.reg .sp = base.toInt32) (ha0 : s.reg .a0 = q.toInt32) (hq : State.nullPage ≤ q)
    (hv : s.memory.readWord (base + 8) = v) (hra : s.memory.readWord (base + 12) = ra)
    (hapart : Region.Apart ⟨base, 16⟩ ⟨q, 1⟩) :
    ∃ s', img.Comes inside s s' ∧ s'.pc = ra.toUInt32 ∧
      s'.memory = s.memory.write q v.toUInt32.toUInt8 ∧
      s'.reg .a0 = q.toInt32 := by
  have h8 : (base + 8).toNat = base.toNat + 8 := Addr.toNat_add_ofNat (n := 8) (by omega)
  have h12 : (base + 12).toNat = base.toNat + 12 := Addr.toNat_add_ofNat (n := 12) (by omega)
  have e8 : (base.toInt32 + 8).toUInt32 = base + 8 := rfl
  have e12 : (base.toInt32 + 12).toUInt32 = base + 12 := rfl
  have hframe : Memory.Frame [⟨q, 1⟩] s.memory (s.memory.write q v.toUInt32.toUInt8) :=
    Memory.Frame.write (w := .byte) s.memory q.toNat_lt_size v
  -- The return address is still there after the character has been written.
  have hra' : (s.memory.write q v.toUInt32.toUInt8).readWord (base + 12) = ra := by
    rw [hframe.readWord (by omega) (List.forall_mem_singleton.mpr (hapart.left ?_)), hra]
    exact Region.within_of_le (by omega) (by omega)
  obtain ⟨hc, hat⟩ := h.straight himg Routine.charEnds rfl (by
    simp [Routine.charEnds, hsp, ha0, hq, e8, e12, UInt32.le_iff_toNat_le, h8, h12,
      -Int32.toUInt32_add]
    omega)
  obtain ⟨t, htdef⟩ : ∃ t, t = img.performs Routine.charEnds s := ⟨_, rfl⟩
  rw [← htdef] at hc hat
  have htra : t.reg .ra = ra := by
    simp [htdef, Routine.charEnds, hsp, ha0, e8, e12, Width.read, Width.write, hv, hra',
      -Int32.toUInt32_add]
  refine ⟨_, hc.trans (hat.ret himg), by rw [htra]; rfl, ?_, ?_⟩
  · simp [htdef, Routine.charEnds, hsp, ha0, e8, Width.read, Width.write, hv, -Int32.toUInt32_add]
  · simp [htdef, Routine.charEnds, ha0]

/-- From its label the routine makes a string of one byte. -/
theorem Holds.spells (himg : img.Unwrapped) (h : img.Holds inside k Routine.strCharItems)
    (hpc : s.pc = pcOf k) (halloc : img.Holds inside j Routine.alloc2Items)
    (hfree : s.HasRoom 1) (hbrk : State.nullPage.toNat ≤ s.brk.toNat)
    (hp : img.addressOf Routine.strPrototype = p + 12)
    (hproto : State.nullPage.toNat ≤ p.toNat) (hproto' : p.toNat + 8 ≤ UInt32.size)
    (hheader : Region.Apart ⟨p, 8⟩ (s.fresh 1)) : ∃ s', img.Comes inside s s' ∧ s.Spells p s' := by
  obtain ⟨hroom, hstack, hapart⟩ := hfree
  have hq : (s.brk + 12).toNat = s.brk.toNat + 12 := Addr.toNat_add_ofNat (n := 12) (by omega)
  have hq8 : (s.brk + 8).toNat = s.brk.toNat + 8 := Addr.toNat_add_ofNat (n := 8) (by omega)
  have hq13 : (s.brk + 13).toNat = s.brk.toNat + 13 := Addr.toNat_add_ofNat (n := 13) (by omega)
  obtain ⟨hseparate, hpushed⟩ := State.separate_pushed hstack.2
  have hat : img.At inside k (Routine.charBegins.map .instr ++
    .op (.call Routine.alloc2) :: (Routine.charEnds.map .instr ++ [.op (.jumpReg .ra)])) s :=
      ⟨h.2, hpc⟩
  obtain ⟨t, hc₁, h₁, hm₁, hsp₁, ha0₁, ha1₁, ha2₁, hbrk₁⟩ :=
    hat.beginsChar himg hstack
  obtain ⟨u, hc₂, h₂, hmakes⟩ := h₁.calls_alloc2 (p := p) (n := 1) himg halloc ha2₁ (by rwa [hbrk₁])
    (by rw [hbrk₁]; exact hroom) (by rw [ha0₁, hp]) hproto hproto' (by rw [hbrk₁]; exact hheader)
  obtain ⟨⟨hres₂, -, hframe₂, hkept₂, -⟩, htag₂, -, hsize₂, hzeros₂⟩ := hmakes
  rw [State.reg_setReg_of_ne _ _ (by decide), ha1₁] at hsize₂
  rw [State.brk_setReg, hbrk₁] at hres₂ hframe₂ htag₂ hsize₂ hzeros₂
  rw [State.memory_setReg] at hframe₂ htag₂
  -- What has been kept is not in the new object.
  have hkeptAt {a : Addr} {v : Int32} (he : (a, v) ∈ s.pushed.take 2) :
      u.memory.readWord a = v := by
    have he' := List.take_subset 2 s.pushed he
    rw [hframe₂.readWord (hseparate.whole _ he')
      (List.forall_mem_singleton.mpr (hapart.symm.left (hpushed _ he'))), hm₁]
    exact Memory.readWord_writeWords ⟨fun e he => hseparate.whole e (List.take_subset 2 _ he),
      hseparate.apart.sublist (List.take_sublist 2 _)⟩ he
  have hra {q : Reg} (hne : q ≠ .ra) (v : Int32) : (t.setReg .ra v).reg q = t.reg q :=
    t.reg_setReg_of_ne v hne
  have hsp₂ : u.reg .sp = s.scratch.base.toInt32 := by
    rw [hkept₂ .sp (by decide), hra (by decide), hsp₁]
  obtain ⟨s', hc₃, hpc', hm', hres'⟩ := h₂.endsChar himg hstack hsp₂ hres₂
    (UInt32.le_iff_toNat_le.mpr (by omega)) (hkeptAt (.tail _ (.head _))) (hkeptAt (.head _))
    (hapart.symm.right (Region.within_of_le (by omega) (by omega)))
  have hframe' : Memory.Frame [⟨s.brk + 12, 1⟩] u.memory s'.memory := by
    rw [hm']
    exact Memory.Frame.write (w := .byte) _ (s.brk + 12).toNat_lt_size _
  have hsame {a : Addr} (ha : a.toNat + 4 ≤ s.brk.toNat + 12) :
      s'.memory.readWord a = u.memory.readWord a :=
    hframe'.readWord (by omega) (List.forall_mem_singleton.mpr (Region.apart_of_le (by omega)))
  -- The tag of the prototype is the one that has been copied.
  have htag : t.memory.readWord p = s'.memory.readWord p := by
    have hcell : Region.Within ⟨s.brk + 12, 1⟩ (s.fresh 1) :=
      Region.within_of_le (by omega) (by omega)
    have hword : Region.Within ⟨p, 4⟩ ⟨p, 8⟩ := Region.within_of_le (by omega) (by omega)
    rw [hframe'.readWord (by omega) (List.forall_mem_singleton.mpr
      ((hheader.left hword).right hcell)),
      hframe₂.readWord (by omega) (List.forall_mem_singleton.mpr (hheader.left hword))]
  refine ⟨s', hc₁.trans (hc₂.trans hc₃), hpc', hres', ?_, ?_, ?_, ?_⟩
  · rw [hsame (by omega), htag₂, htag]
  · rw [hsame (by omega), hsize₂]
  · rw [hm', Memory.read_write, if_pos rfl]
  · rw [hframe' _ (List.forall_mem_singleton.mpr fun hc => ?_)]
    · exact hzeros₂ _ (Region.contains_mk.mpr (by omega))
    · rw [Region.contains_mk] at hc
      omega

end Image

end ChocoRV
