import Mathlib
import ChocoRV.Machine.Step

/-!
# Registers and memory

What a register or a word of memory holds after a write, to the same place and to another one.
-/

namespace ChocoRV

/-! ## Registers -/

theorem PhysReg.all_number (p : PhysReg) : PhysReg.all[p.number.val]? = some p := by
  cases p <;> rfl

theorem PhysReg.number_injective {p q : PhysReg} (h : p.number = q.number) : p = q := by
  have hp := p.all_number
  rw [h, q.all_number] at hp
  exact (Option.some.inj hp).symm

namespace Registers

@[simp] theorem get_zero (r : Registers) : r.get .zero = 0 := rfl

theorem get_phys {p : PhysReg} (r : Registers) (h : p ≠ .zero) :
    r.get (.phys p) = r.phys.get p.number := by
  cases p with
  | zero => exact absurd rfl h
  | _ => rfl

theorem set_phys {p : PhysReg} (r : Registers) (v : Int32) (h : p ≠ .zero) :
    r.set (.phys p) v = { r with phys := r.phys.set p.number.val v p.number.isLt } := by
  cases p with
  | zero => exact absurd rfl h
  | _ => rfl

theorem get_set_self {a : Reg} (r : Registers) (v : Int32) (h : a ≠ .zero) :
    (r.set a v).get a = v := by
  cases a with
  | virt n => simp [set, get]
  | phys p =>
    have hp : p ≠ .zero := fun e => h (congrArg Reg.phys e)
    rw [get_phys _ hp, set_phys r v hp]
    have hset : (r.phys.set p.number.val v p.number.isLt)[p.number.val] = v :=
      Vector.getElem_set_self p.number.isLt
    exact hset

theorem get_set_of_ne {a b : Reg} (r : Registers) (v : Int32) (h : b ≠ a) :
    (r.set a v).get b = r.get b := by
  cases a with
  | virt n =>
    cases b with
    | phys q => cases q <;> rfl
    | virt m =>
      have hmn : n ≠ m := fun e => h (congrArg Reg.virt e.symm)
      simp [set, get, Std.ExtTreeMap.getD_insert, hmn]
  | phys p =>
    by_cases hp : p = .zero
    · subst hp
      rfl
    rw [set_phys r v hp]
    cases b with
    | virt m => rfl
    | phys q =>
      by_cases hq : q = .zero
      · subst hq
        rfl
      rw [get_phys _ hq, get_phys _ hq]
      have hne : p.number.val ≠ q.number.val := fun e =>
        h (congrArg Reg.phys (PhysReg.number_injective (Fin.ext e)).symm)
      have hset : (r.phys.set p.number.val v p.number.isLt)[q.number.val] = r.phys[q.number.val] :=
        Vector.getElem_set_ne p.number.isLt q.number.isLt hne
      exact hset

end Registers

namespace State

variable (s : State) (rd : Reg) (v : Int32)

@[simp] theorem reg_zero : s.reg .zero = 0 := rfl

@[simp] theorem pc_put : (s.put rd v).pc = s.pc + 4 := rfl

@[simp] theorem memory_put : (s.put rd v).memory = s.memory := rfl

@[simp] theorem brk_put : (s.put rd v).brk = s.brk := rfl

@[simp] theorem stdout_put : (s.put rd v).stdout = s.stdout := rfl

theorem reg_put_self {rd : Reg} (h : rd ≠ .zero) : (s.put rd v).reg rd = v :=
  s.regs.get_set_self v h

theorem reg_put_of_ne {rd r : Reg} (h : r ≠ rd) : (s.put rd v).reg r = s.reg r :=
  s.regs.get_set_of_ne v h

theorem reg_put {rd : Reg} (h : rd ≠ .zero) (r : Reg) :
    (s.put rd v).reg r = if r = rd then v else s.reg r := by
  split
  · subst r
    exact s.reg_put_self v h
  · exact s.reg_put_of_ne v ‹_›

@[simp] theorem pc_setReg : (s.setReg rd v).pc = s.pc := rfl

@[simp] theorem memory_setReg : (s.setReg rd v).memory = s.memory := rfl

theorem reg_setReg_self {rd : Reg} (h : rd ≠ .zero) : (s.setReg rd v).reg rd = v :=
  s.regs.get_set_self v h

theorem reg_setReg_of_ne {rd r : Reg} (h : r ≠ rd) : (s.setReg rd v).reg r = s.reg r :=
  s.regs.get_set_of_ne v h

@[simp] theorem pc_goto (pc : Addr) : (s.goto pc).pc = pc := rfl

@[simp] theorem reg_goto (pc : Addr) (r : Reg) : (s.goto pc).reg r = s.reg r := rfl

@[simp] theorem memory_goto (pc : Addr) : (s.goto pc).memory = s.memory := rfl

@[simp] theorem brk_goto (pc : Addr) : (s.goto pc).brk = s.brk := rfl

@[simp] theorem stdout_goto (pc : Addr) : (s.goto pc).stdout = s.stdout := rfl

theorem skip_eq_goto : s.skip = s.goto (s.pc + 4) := rfl

end State

/-! ## Memory -/

/-- The bytes of the word at address `a`. -/
def Addr.InWord (a b : Addr) : Prop := b = a ∨ b = a + 1 ∨ b = a + 2 ∨ b = a + 3

/-- A word with sign, read as one without. -/
theorem toNat_toUInt32 (w : Int32) : w.toUInt32.toNat = (w.toInt % 4294967296).toNat := by
  have hofInt : (Int32.ofInt w.toInt).toUInt32.toNat = (w.toInt % 4294967296).toNat :=
    BitVec.toNat_ofInt w.toInt
  rwa [Int32.ofInt_toInt] at hofInt

theorem toNat_ofNat_word {n : Nat} (h : n < 4294967296) : (Int32.ofNat n).toUInt32.toNat = n := by
  show (UInt32.ofNat n).toNat = n
  rw [UInt32.toNat_ofNat']
  omega

namespace Addr

theorem toNat_of_inWord {a b : Addr} (ha : a.toNat + 4 ≤ UInt32.size) (h : InWord a b) :
    a.toNat ≤ b.toNat ∧ b.toNat < a.toNat + 4 := by
  have hsize : UInt32.size = 4294967296 := rfl
  have hadd {k : UInt32} (hk : k.toNat < 4) : (a + k).toNat = a.toNat + k.toNat := by
    rw [UInt32.toNat_add]
    omega
  rcases h with rfl | rfl | rfl | rfl
  · omega
  · rw [hadd (by decide)]
    exact ⟨Nat.le_add_right _ _, Nat.add_lt_add_left (by decide) _⟩
  · rw [hadd (by decide)]
    exact ⟨Nat.le_add_right _ _, Nat.add_lt_add_left (by decide) _⟩
  · rw [hadd (by decide)]
    exact ⟨Nat.le_add_right _ _, Nat.add_lt_add_left (by decide) _⟩

/-- Words four bytes apart have no byte in common. -/
theorem not_inWord_of_apart {a a' b : Addr} (ha : a.toNat + 4 ≤ UInt32.size)
    (ha' : a'.toNat + 4 ≤ UInt32.size) (h : a.toNat + 4 ≤ a'.toNat ∨ a'.toNat + 4 ≤ a.toNat)
    (hb : InWord a b) : ¬ InWord a' b := by
  intro hb'
  have := toNat_of_inWord ha hb
  have := toNat_of_inWord ha' hb'
  omega

end Addr

namespace Memory

open Addr (InWord)

variable (m : Memory) (a : Addr) (w : Int32)

theorem read_writeWord_of_not_inWord {b : Addr} (h : ¬ InWord a b) :
    (m.writeWord a w).read b = m.read b := by
  simp only [InWord, not_or] at h
  obtain ⟨h0, h1, h2, h3⟩ := h
  simp only [writeWord, read_write, Ne.symm h0, Ne.symm h1, Ne.symm h2, Ne.symm h3, if_false]

/-- The four bytes of a word that has been written. -/
theorem read_writeWord :
    (m.writeWord a w).read a = wordByte w.toUInt32 0 ∧
      (m.writeWord a w).read (a + 1) = wordByte w.toUInt32 1 ∧
      (m.writeWord a w).read (a + 2) = wordByte w.toUInt32 2 ∧
      (m.writeWord a w).read (a + 3) = wordByte w.toUInt32 3 := by
  have h {i j : UInt32} (hij : i ≠ j) : a + i ≠ a + j := fun e =>
    hij (UInt32.add_right_inj a |>.mp e)
  have h0 {j : UInt32} (hj : 0 ≠ j) : a + j ≠ a := fun e => h hj.symm (by rw [e, UInt32.add_zero])
  refine ⟨?_, ?_, ?_, ?_⟩
  · simp [writeWord, h0]
  · simp [writeWord, h]
  · simp [writeWord, h]
  · simp [writeWord]

/-- Bytes of a word as bit vectors. -/
theorem toBitVec_wordByte (u : UInt32) :
    (wordByte u 0).toUInt32.toBitVec = (u.toBitVec.setWidth 8).setWidth 32 ∧
      ((wordByte u 1).toUInt32 <<< 8).toBitVec = ((u.toBitVec >>> 8).setWidth 8).setWidth 32 <<< 8 ∧
      ((wordByte u 2).toUInt32 <<< 16).toBitVec =
        ((u.toBitVec >>> 16).setWidth 8).setWidth 32 <<< 16 ∧
      ((wordByte u 3).toUInt32 <<< 24).toBitVec =
        ((u.toBitVec >>> 24).setWidth 8).setWidth 32 <<< 24 :=
  ⟨rfl, rfl, rfl, rfl⟩

/-- A word is put together again from its bytes. -/
theorem wordByte_join (u : UInt32) :
    (wordByte u 0).toUInt32 ||| (wordByte u 1).toUInt32 <<< 8 ||| (wordByte u 2).toUInt32 <<< 16 |||
      (wordByte u 3).toUInt32 <<< 24 = u := by
  obtain ⟨h0, h1, h2, h3⟩ := toBitVec_wordByte u
  refine UInt32.eq_of_toBitVec_eq (BitVec.eq_of_getLsbD_eq fun i hi => ?_)
  rw [UInt32.toBitVec_or, UInt32.toBitVec_or, UInt32.toBitVec_or, h0, h1, h2, h3]
  simp only [BitVec.getLsbD_or, BitVec.getLsbD_shiftLeft, BitVec.getLsbD_setWidth,
    BitVec.getLsbD_ushiftRight, hi]
  -- Each bit stands in exactly one of the bytes.
  rcases Nat.lt_or_ge i 8 with h | h
  · grind
  rcases Nat.lt_or_ge i 16 with h' | h'
  · grind
  rcases Nat.lt_or_ge i 24 with h'' | h''
  · grind
  · grind

theorem readWord_writeWord_self : (m.writeWord a w).readWord a = w := by
  obtain ⟨h0, h1, h2, h3⟩ := read_writeWord m a w
  rw [readWord, h0, h1, h2, h3, wordByte_join]
  rfl

/-- A word depends on its bytes only. -/
theorem readWord_congr {m m' : Memory} {a : Addr} (h : ∀ b, InWord a b → m.read b = m'.read b) :
    m.readWord a = m'.readWord a := by
  have h0 := h a (.inl rfl)
  have h1 := h (a + 1) (.inr (.inl rfl))
  have h2 := h (a + 2) (.inr (.inr (.inl rfl)))
  have h3 := h (a + 3) (.inr (.inr (.inr rfl)))
  rw [readWord, readWord, h0, h1, h2, h3]

theorem readWord_writeWord_of_disjoint {a' : Addr} (h : ∀ b, InWord a b → ¬ InWord a' b) :
    (m.writeWord a' w).readWord a = m.readWord a :=
  readWord_congr fun b hb => read_writeWord_of_not_inWord m a' w (h b hb)

/-- A text depends on the bytes up to the first zero only. -/
theorem bytesFrom_congr {m m' : Memory} {fuel : Nat} {a : Addr}
    (h : ∀ k ≤ (m.bytesFrom fuel a).length, m.read (a + UInt32.ofNat k) =
    m'.read (a + UInt32.ofNat k)) :
    m.bytesFrom fuel a = m'.bytesFrom fuel a := by
  induction fuel generalizing a with
  | zero => rfl
  | succ fuel ih =>
    have h0 := h 0 (Nat.zero_le _)
    rw [show UInt32.ofNat 0 = 0 from rfl, UInt32.add_zero] at h0
    simp only [bytesFrom, ← h0]
    split
    · rfl
    · rename_i hb
      refine congrArg (m.read a :: ·) (ih fun k hk => ?_)
      have hk' : k + 1 ≤ (m.bytesFrom (fuel + 1) a).length := by
        simp only [bytesFrom, hb, Bool.false_eq_true, if_false, List.length_cons]
        omega
      have hnext := h (k + 1) hk'
      rw [show UInt32.ofNat (k + 1) = 1 + UInt32.ofNat k by
        rw [UInt32.ofNat_add, UInt32.add_comm]; rfl, ← UInt32.add_assoc] at hnext
      exact hnext

end Memory

/-- A state may be at any place, with any memory and any words in registers. -/
theorem State.exists_with_regs (s : State) (pc : Addr) (m : Memory) (ws : List (Reg × Int32))
    (hnodup : (ws.map (·.1)).Nodup) (hzero : ∀ e ∈ ws, e.1 ≠ .zero) :
    ∃ t : State, t.pc = pc ∧ t.memory = m ∧ t.brk = s.brk ∧ ws.Forall fun e => t.reg e.1 = e.2 := by
  simp only [List.forall_iff_forall_mem]
  induction ws with
  | nil => exact ⟨{ s with memory := m }.goto pc, rfl, rfl, rfl, List.forall_mem_nil _⟩
  | cons e ws ih =>
    rw [List.map_cons, List.nodup_cons] at hnodup
    rw [List.forall_mem_cons] at hzero
    obtain ⟨t, hpc, hm, hbrk, hws⟩ := ih hnodup.2 hzero.2
    refine ⟨t.setReg e.1 e.2, hpc, hm, hbrk, ?_⟩
    rw [List.forall_mem_cons]
    refine ⟨reg_setReg_self _ _ hzero.1, fun e' he' => ?_⟩
    have hne : e'.1 ≠ e.1 := fun heq => hnodup.1 (heq ▸ List.mem_map_of_mem he')
    rw [reg_setReg_of_ne _ _ hne, hws e' he']

/-! ## Access to memory -/

/-- The bytes that a load or a store at an address covers. -/
def Width.Bytes : Width → Addr → Addr → Prop
  | .word, a, b => Addr.InWord a b
  | .byte, a, b => b = a

/-- The bytes of memory that an operation reads or writes in a state. -/
def State.Touches (s : State) : Op Addr → Addr → Prop
  | .load w _ base n, b | .store w _ base n, b =>
    nullPage ≤ s.addrOf base n ∧ w.Bytes (s.addrOf base n) b
  | .ecall, b =>
    Syscall.ofNumber? (s.reg .a7) = some .printString ∧ nullPage ≤ (s.reg .a0).toUInt32 ∧
      ∃ k ≤ (s.memory.bytesFrom UInt32.size (s.reg .a0).toUInt32).length,
        b = (s.reg .a0).toUInt32 + UInt32.ofNat k
  | _, _ => False

theorem State.access_of_le {s : State} {a : Addr} {f : State → StepResult} (h : nullPage ≤ a) :
    s.access a f = f s :=
  if_neg (UInt32.not_lt.mpr h)

theorem State.access_of_lt {s : State} {a : Addr} {f : State → StepResult} (h : a < nullPage) :
    s.access a f = .faulted (.invalidAddress a s.pc) s :=
  if_pos h

end ChocoRV
