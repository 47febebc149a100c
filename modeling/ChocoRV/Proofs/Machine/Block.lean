import Mathlib
import ChocoRV.Proofs.Machine.Region
import ChocoRV.Proofs.Machine.Walk

/-!
# Blocks of code

Straight code is a list of operations that go on with the next one. `Image.performs` is the state
after all of them, as a function, so that registers and memory after a block are computed;
`Image.At.straight` says that the program comes there. `Image.At` is a place in a stream of items,
and its lemmas say where each kind of item leads from there.
-/

namespace ChocoRV

open Assembly

namespace State

/-- The state after a store. -/
def stored (s : State) (w : Width) (a : Addr) (v : Int32) : State :=
  { s with memory := w.write s.memory a v, pc := s.pc + 4 }

variable (s : State) (w : Width) (a : Addr) (v : Int32)

@[simp] theorem pc_stored : (s.stored w a v).pc = s.pc + 4 := rfl

@[simp] theorem reg_stored (r : Reg) : (s.stored w a v).reg r = s.reg r := rfl

@[simp] theorem memory_stored : (s.stored w a v).memory = w.write s.memory a v := rfl

@[simp] theorem brk_stored : (s.stored w a v).brk = s.brk := rfl

@[simp] theorem stdout_stored : (s.stored w a v).stdout = s.stdout := rfl

@[simp] theorem pc_skip : s.skip.pc = s.pc + 4 := rfl

@[simp] theorem reg_skip (r : Reg) : s.skip.reg r = s.reg r := rfl

@[simp] theorem memory_skip : s.skip.memory = s.memory := rfl

@[simp] theorem brk_skip : s.skip.brk = s.brk := rfl

@[simp] theorem stdout_skip : s.skip.stdout = s.stdout := rfl

@[simp] theorem brk_setReg (r : Reg) : (s.setReg r v).brk = s.brk := rfl

@[simp] theorem stdout_setReg (r : Reg) : (s.setReg r v).stdout = s.stdout := rfl

end State

-- With these, `simp` computes the registers after a block of code.
attribute [simp] State.reg_put State.addrOf State.compute AluOp.eval ImmOp.eval UnaryOp.eval Op.def?

/-- All registers but these are kept. -/
def State.Preserves (rs : List Reg) (s s' : State) : Prop := ∀ q ∉ rs, s'.reg q = s.reg q

variable {r : Reg}

namespace State.Preserves

variable {rs rs' : List Reg} {s s' s'' : State}

theorem mono (h : s.Preserves rs s') (hrs : rs ⊆ rs') : s.Preserves rs' s' :=
  fun q hq => h q fun hmem => hq (hrs hmem)

theorem trans (h : s.Preserves rs s') (h' : s'.Preserves rs s'') : s.Preserves rs s'' :=
  fun q hq => (h' q hq).trans (h q hq)

theorem put {rd : Reg} (hrd : rd ∈ rs) (s : State) (v : Int32) : s.Preserves rs (s.put rd v) :=
  fun _ hq => s.reg_put_of_ne v fun e => hq (e ▸ hrd)

theorem setReg {rd : Reg} (hrd : rd ∈ rs) (s : State)
    (v : Int32) : s.Preserves rs (s.setReg rd v) :=
  fun _ hq => s.reg_setReg_of_ne v fun e => hq (e ▸ hrd)

/-- A register that has its value again is kept, too. -/
theorem restore (h : s.Preserves (r :: rs) s') (hr : s'.reg r = s.reg r) : s.Preserves rs s' := by
  intro q hq
  by_cases hqr : q = r
  · rw [hqr, hr]
  · exact h q (List.not_mem_cons_of_ne_of_not_mem hqr hq)

end State.Preserves

/-- An operation that goes on with the next one. -/
def Op.straight {τ : Type} : Op τ → Bool
  | .alu .. | .aluImm .. | .shift .. | .li .. | .unary .. | .la .. | .load .. | .store .. => true
  | _ => false

/-- The address that an operation accesses is valid. -/
@[simp] def State.Allows (s : State) : Op Label → Prop
  | .load _ _ base n | .store _ _ base n => nullPage ≤ s.addrOf base n
  | _ => True

theorem Assembly.instrs_map_instr (is : List Instr) : instrs (is.map Item.instr) = is := by
  rw [instrs, List.filterMap_map]
  exact List.filterMap_some

namespace Image

/-- The address of a label. -/
def addressOf (img : Image) (l : Label) : Addr := (img.label? l.name).getD 0

theorem addressOf_eq {img : Image} {l : Label} {a : Addr} (h : find img.labels l.name = .ok a) :
    img.addressOf l = a := by
  rw [addressOf, label?, find_eq_ok_iff.mp h, Option.getD_some]

/-- The state after a straight operation. -/
@[simp] def perform (img : Image) (s : State) : Op Label → State
  | .la rd l => s.put rd (img.addressOf l).toInt32
  | .load w rd base n => s.put rd (w.read s.memory (s.addrOf base n))
  | .store w src base n => s.stored w (s.addrOf base n) (s.reg src)
  | o => s.compute o

/-- The state after straight operations. -/
@[simp] def performs (img : Image) : List Instr → State → State
  | [], s => s
  | i :: is, s => performs img is (img.perform s i.op)

/-- All addresses that operations access one after the other are valid. -/
@[simp] def Allows (img : Image) : List Instr → State → Prop
  | [], _ => True
  | i :: is, s => s.Allows i.op ∧ Allows img is (img.perform s i.op)

/-- From `s` the program comes to `s'`, by instructions in `inside`. -/
def Comes (img : Image) (inside : Nat → Prop) (s s' : State) : Prop :=
  ∃ n, Walk img (Safe img inside fun _ => True) n s s'

/-- The program is at the first one of these items. -/
structure At (img : Image) (inside : Nat → Prop) (k : Nat) (items : List Item)
    (s : State) : Prop where
  code : img.Holds inside k items
  pc : s.pc = pcOf k

namespace Comes

variable {img : Image} {inside : Nat → Prop} {s s' s'' : State}

theorem refl (s : State) : img.Comes inside s s := ⟨0, .refl s⟩

theorem trans (h : img.Comes inside s s') (h' : img.Comes inside s' s'') :
    img.Comes inside s s'' := by
  obtain ⟨n, hw⟩ := h
  obtain ⟨m, hw'⟩ := h'
  exact ⟨n + m, hw.trans hw'⟩

theorem steps (h : img.Comes inside s s') : ∃ n, Steps img n s s' := by
  obtain ⟨n, hw⟩ := h
  exact ⟨n, hw.steps⟩

end Comes

namespace At

variable {img : Image} {inside : Nat → Prop} {k : Nat} {rest : List Item} {s s' : State}
variable {c : Option String} {l : Label} {a : Addr}

/-- The step that all kinds of operations have in common. -/
theorem step (himg : img.Unwrapped) {i : Instr} {op : Op Addr}
    (h : img.At inside k (.instr i :: rest) s)
    (hres : i.op.resolve (fun l => find img.labels l.name) = .ok op)
    (he : s.exec op = .running s') :
    img.Comes inside s s' := by
  obtain ⟨⟨⟨⟨op', hop, hres'⟩, hin⟩, -⟩, hpc⟩ := h
  cases hres.symm.trans hres'
  exact ⟨1, Holds.walk_one himg hpc hop hin (fun _ _ => trivial) he⟩

theorem label (h : img.At inside k (.label l :: rest) s) : img.At inside k rest s :=
    ⟨h.code.2, h.pc⟩

theorem next {i : Instr} (h : img.At inside k (.instr i :: rest) s) (hpc : s'.pc = s.pc + 4) :
    img.At inside (k + 1) rest s' :=
  ⟨h.code.2, by rw [hpc, h.pc, pcOf_add_four]⟩

variable (himg : img.Unwrapped)

include himg

/-- A straight operation. -/
theorem perform {i : Instr} (h : img.At inside k (.instr i :: rest) s)
    (hi : i.op.straight = true) (hallows : s.Allows i.op) :
    img.Comes inside s (img.perform s i.op) ∧ img.At inside (k + 1) rest (img.perform s i.op) := by
  obtain ⟨op, -, hres⟩ := h.code.1.1
  have hres' := hres
  obtain ⟨o, c⟩ := i
  cases o with
  | alu | aluImm | shift | li | unary =>
    cases hres
    exact ⟨h.step himg hres' rfl, h.next rfl⟩
  | la rd l =>
    obtain ⟨a, hl, rfl⟩ := map_eq_ok_iff.mp hres
    rw [Image.perform, addressOf_eq hl]
    exact ⟨h.step himg hres' rfl, h.next rfl⟩
  | load w rd base n =>
    cases hres
    refine ⟨h.step himg hres' ?_, h.next rfl⟩
    rw [State.exec, State.access_of_le hallows]
    cases w <;> rfl
  | store w src base n =>
    cases hres
    refine ⟨h.step himg hres' ?_, h.next rfl⟩
    rw [State.exec, State.access_of_le hallows]
    cases w <;> rfl
  | _ => cases hi

/-- Straight operations, one after the other. -/
theorem straight (is : List Instr)
    (h : img.At inside k (is.map Item.instr ++ rest) s) (his : is.all (·.op.straight) = true)
    (hallows : img.Allows is s) :
    img.Comes inside s (img.performs is s) ∧ img.At inside (k + is.length) rest
      (img.performs is s) := by
  induction is generalizing k s with
  | nil => exact ⟨.refl s, h⟩
  | cons i is ih =>
    rw [List.all_cons, Bool.and_eq_true] at his
    obtain ⟨hcomes, hat⟩ := perform himg h his.1 hallows.1
    obtain ⟨hcomes', hat'⟩ := ih hat his.2 hallows.2
    rw [List.length_cons, Nat.add_comm is.length 1, ← Nat.add_assoc]
    exact ⟨hcomes.trans hcomes', hat'⟩

theorem jump (h : img.At inside k (.instr ⟨.jump l, c⟩ :: rest) s)
    (hl : find img.labels l.name = .ok a) : img.Comes inside s (s.goto a) :=
  h.step himg (by rw [Op.resolve, hl]; rfl) rfl

/-- A call leaves the place after it in `ra`. -/
theorem call (h : img.At inside k (.instr ⟨.call l, c⟩ :: rest) s)
    (hl : find img.labels l.name = .ok a) :
    img.Comes inside s ((s.setReg .ra (pcOf (k + 1)).toInt32).goto a) := by
  rw [← pcOf_add_four, ← h.pc]
  exact h.step himg (by rw [Op.resolve, hl]; rfl) rfl

theorem ret (h : img.At inside k (.instr ⟨.jumpReg .ra, c⟩ :: rest) s) :
    img.Comes inside s (s.goto (s.reg .ra).toUInt32) :=
  h.step himg rfl rfl

/-- A branch whose condition holds. -/
theorem branchZero {cmp : ZeroCmp}
    (h : img.At inside k (.instr ⟨.branchZero cmp r l, c⟩ :: rest) s)
    (hl : find img.labels l.name = .ok a) (hcmp : cmp.eval (s.reg r) = true) :
    img.Comes inside s (s.goto a) :=
  h.step himg (by rw [Op.resolve, hl]; rfl) (by rw [State.exec, hcmp]; rfl)

/-- A branch whose condition does not hold. -/
theorem skipZero {cmp : ZeroCmp}
    (h : img.At inside k (.instr ⟨.branchZero cmp r l, c⟩ :: rest) s)
    (hcmp : cmp.eval (s.reg r) = false) :
    img.Comes inside s s.skip ∧ img.At inside (k + 1) rest s.skip := by
  obtain ⟨op, -, hres⟩ := h.code.1.1
  obtain ⟨a, -, rfl⟩ := map_eq_ok_iff.mp hres
  refine ⟨h.step himg hres ?_, h.next rfl⟩
  rw [State.exec, hcmp]
  rfl

/-- A comparison that holds. -/
theorem branch {cmp : Cmp} {r' : Reg}
    (h : img.At inside k (.instr ⟨.branch cmp r r' l, c⟩ :: rest) s)
    (hl : find img.labels l.name = .ok a) (hcmp : cmp.eval (s.reg r) (s.reg r') = true) :
    img.Comes inside s (s.goto a) :=
  h.step himg (by rw [Op.resolve, hl]; rfl) (by rw [State.exec, hcmp]; rfl)

/-- A comparison that does not hold. -/
theorem skip {cmp : Cmp} {r' : Reg}
    (h : img.At inside k (.instr ⟨.branch cmp r r' l, c⟩ :: rest) s)
    (hcmp : cmp.eval (s.reg r) (s.reg r') = false) :
    img.Comes inside s s.skip ∧ img.At inside (k + 1) rest s.skip := by
  obtain ⟨op, -, hres⟩ := h.code.1.1
  obtain ⟨a, -, rfl⟩ := map_eq_ok_iff.mp hres
  refine ⟨h.step himg hres ?_, h.next rfl⟩
  rw [State.exec, hcmp]
  rfl

/-- A system call that goes on. -/
theorem ecall (h : img.At inside k (.instr ⟨.ecall, c⟩ :: rest) s)
    (he : s.syscall = .running s') (hpc : s'.pc = s.pc + 4) :
    img.Comes inside s s' ∧ img.At inside (k + 1) rest s' :=
  ⟨h.step himg rfl he, h.next hpc⟩

end At

/-! ## What a block keeps -/

variable {img : Image}

/-- A straight operation changes the register that it defines. -/
theorem reg_perform_of_ne {o : Op Label} (h : o.def? ≠ some r) (s : State) :
    (img.perform s o).reg r = s.reg r := by
  cases o with
  | alu | aluImm | shift | li | unary | la | load => exact s.reg_put_of_ne _ fun e => h (e ▸ rfl)
  | _ => rfl

/-- Registers that no operation of a block defines are kept. -/
theorem reg_performs {is : List Instr} (h : ∀ i ∈ is, i.op.def? ≠ some r) (s : State) :
    (img.performs is s).reg r = s.reg r := by
  induction is generalizing s with
  | nil => rfl
  | cons i is ih =>
    rw [List.forall_mem_cons] at h
    exact (ih h.2 _).trans (reg_perform_of_ne h.1 s)

@[simp] theorem brk_performs (is : List Instr) (s : State) : (img.performs is s).brk = s.brk := by
  induction is generalizing s with
  | nil => rfl
  | cons i is ih => exact (ih _).trans (by obtain ⟨o, c⟩ := i; cases o <;> rfl)

@[simp] theorem stdout_performs (is : List Instr) (s : State) :
    (img.performs is s).stdout = s.stdout := by
  induction is generalizing s with
  | nil => rfl
  | cons i is ih => exact (ih _).trans (by obtain ⟨o, c⟩ := i; cases o <;> rfl)

/-- A block keeps what is not in the list of registers that it defines. -/
theorem keeps_performs {is : List Instr} {rs : List Reg}
    (h : is.all (fun i => i.op.def?.all rs.contains) = true) (s : State) :
    s.Preserves rs (img.performs is s) := by
  intro r hr
  refine reg_performs (fun i hi hdef => hr ?_) s
  have hall := List.all_eq_true.mp h i hi
  rw [hdef, Option.all_some] at hall
  exact List.contains_iff_mem.mp hall

end Image

end ChocoRV
