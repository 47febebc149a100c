import Mathlib
import ChocoRV.Proofs.Except
import ChocoRV.Proofs.Machine.State

/-!
# Operands and flow describe what a step does

Liveness and register allocation know an operation by the registers that it names and by where
control goes next. Here the two are what the machine does: a step depends on no register but those
that are read, changes none but the one that is written, and goes on where the flow says.
-/

namespace ChocoRV

namespace Op

/-- The registers that a step depends on; a system call has its number and its argument in
registers. -/
def reads {τ : Type} : Op τ → List Reg
  | .ecall => [.a0, .a7]
  | o => o.uses

/-- The register that a step may change; a system call has its result in one. -/
def writes? {τ : Type} : Op τ → Option Reg
  | .ecall => some .a0
  | o => o.def?

/-- Calls go to their target and come back to the next instruction only later. -/
def isCall {τ : Type} : Op τ → Bool
  | .call _ | .callReg _ => true
  | _ => false

end Op

/-- The states are the same but for registers, and the registers of the list have the same
values. -/
structure State.SameOn (rs : List Reg) (s t : State) : Prop where
  pc : s.pc = t.pc
  memory : s.memory = t.memory
  brk : s.brk = t.brk
  stdout : s.stdout = t.stdout
  regs (r : Reg) (h : r ∈ rs) : s.reg r = t.reg r

namespace StepResult

def state : StepResult → State
  | .running s | .exited _ s | .faulted _ s => s

/-- Both steps go on, both end with the same exit code, or both fail in the same way. Only a step
that goes on has written its result. -/
inductive SameOn (written : Option Reg) (rs : List Reg) : StepResult → StepResult → Prop
  | running {s t : State} (h : s.SameOn (written.toList ++ rs) t) :
      SameOn written rs (.running s) (.running t)
  | exited {s t : State} (code : Int32) (h : s.SameOn rs t) :
      SameOn written rs (.exited code s) (.exited code t)
  | faulted {s t : State} (f : Fault) (h : s.SameOn rs t) :
      SameOn written rs (.faulted f s) (.faulted f t)

end StepResult

/-- Control goes on at an address, for an operation with a flow that reads some registers. -/
def Flow.LeadsTo (table : LabelTable) (s : State) (reads : List Reg)
    (addr : Addr) : Flow Label → Prop
  | .next => addr = s.pc + 4
  | .jump t => Image.find table t.name = .ok addr
  | .branch t => addr = s.pc + 4 ∨ Image.find table t.name = .ok addr
  | .exit => ∃ r, reads = [r] ∧ addr = (s.reg r).toUInt32

/-! ## What a step depends on -/

namespace State

namespace SameOn

variable {rs : List Reg} {s t : State} {written : Option Reg}

variable (h : s.SameOn rs t)

include h

theorem goto (a : Addr) : (s.goto a).SameOn rs (t.goto a) :=
  ⟨rfl, h.memory, h.brk, h.stdout, h.regs⟩

theorem skip : s.skip.SameOn rs t.skip :=
  { h with pc := congrArg (· + 4) h.pc }

theorem print (text : String) : (s.print text).SameOn rs (t.print text) :=
  { h.skip with stdout := congrArg (· ++ text) h.stdout }

theorem setReg (rd : Reg) (v : Int32) :
    (s.setReg rd v).SameOn (rd :: rs) (t.setReg rd v) := by
  refine ⟨h.pc, h.memory, h.brk, h.stdout, fun r hr => ?_⟩
  by_cases heq : r = rd
  · subst heq
    by_cases hz : r = .zero
    · rw [hz, reg_zero, reg_zero]
    · rw [reg_setReg_self _ _ hz, reg_setReg_self _ _ hz]
  · rw [reg_setReg_of_ne _ _ heq, reg_setReg_of_ne _ _ heq]
    exact h.regs r ((List.mem_cons.mp hr).resolve_left heq)

theorem put (rd : Reg) (v : Int32) : (s.put rd v).SameOn (rd :: rs) (t.put rd v) :=
  (h.setReg rd v).skip

/-- An access fails in both states or in none. -/
theorem access (addr : Addr) {f g : State → StepResult}
    (hfg : StepResult.SameOn written rs (f s) (g t)) :
    StepResult.SameOn written rs (s.access addr f) (t.access addr g) := by
  unfold State.access
  split
  · rw [h.pc]
    exact .faulted _ h
  · exact hfg

theorem syscall (ha0 : Reg.a0 ∈ rs) (ha7 : Reg.a7 ∈ rs) :
    StepResult.SameOn (some .a0) rs s.syscall t.syscall := by
  -- The argument is known to agree, so it does after what leaves it alone.
  have hkeep {s t : State} (h : s.SameOn rs t) : s.SameOn (.a0 :: rs) t :=
    { h with regs := fun r hr => h.regs r (List.mem_of_mem_cons_of_mem hr ha0) }
  unfold State.syscall
  simp only [h.regs _ ha0, h.regs _ ha7]
  split
  case h_1 | h_3 => exact .running (hkeep (h.print _))
  case h_2 =>
    refine h.access _ ?_
    rw [h.memory]
    exact .running (hkeep (h.print _))
  case h_4 =>
    simp only [h.brk]
    exact .running { h.put .a0 t.brk.toInt32 with brk := rfl }
  case h_5 | h_6 => exact .exited _ h
  case h_7 => exact .faulted _ h

/-- States that agree on all that an operation reads agree after it, and also on what it writes. -/
theorem exec {op : Op Addr} (hreads : op.reads ⊆ rs) :
    StepResult.SameOn op.writes? rs (s.exec op) (t.exec op) := by
  have huse {r : Reg} (hr : r ∈ op.reads) : s.reg r = t.reg r := h.regs r (hreads hr)
  cases op with
  | alu _ _ a b =>
    simp only [State.exec, huse (.head _), huse (.tail _ (.head _))]
    exact .running (h.put _ _)
  | aluImm _ _ a _ | shift _ _ a _ | unary _ _ a =>
    simp only [State.exec, huse (.head _)]
    exact .running (h.put _ _)
  | li | la => exact .running (h.put _ _)
  | load w _ a n =>
    simp only [State.exec, addrOf, huse (.head _)]
    refine h.access _ ?_
    cases w <;> rw [h.memory] <;> exact .running (h.put _ _)
  | store w src base n =>
    simp only [State.exec, addrOf, huse (.head _), huse (.tail _ (.head _))]
    refine h.access _ ?_
    cases w <;> exact .running { h.skip with memory := by rw [h.memory] }
  | jump => exact .running (h.goto _)
  | call =>
    simp only [State.exec, h.pc]
    exact .running ((h.setReg _ _).goto _)
  | callReg a =>
    simp only [State.exec, h.pc, huse (.head _)]
    exact .running ((h.setReg _ _).goto _)
  | jumpReg a =>
    simp only [State.exec, huse (.head _)]
    exact .running (h.goto _)
  | branch _ a b _ =>
    simp only [State.exec, huse (.head _), huse (.tail _ (.head _))]
    split <;> [exact .running (h.goto _); exact .running h.skip]
  | branchZero _ a _ =>
    simp only [State.exec, huse (.head _)]
    split <;> [exact .running (h.goto _); exact .running h.skip]
  | ecall => exact h.syscall (hreads (.head _)) (hreads (.tail _ (.head _)))

end SameOn

/-! ## What a step leaves alone -/

variable {s : State} {r : Reg}

theorem reg_access {addr : Addr} {f : State → StepResult} (h : (f s).state.reg r = s.reg r) :
    (s.access addr f).state.reg r = s.reg r := by
  unfold access
  split
  · rfl
  · exact h

theorem reg_setReg_of_frame {rd : Reg} (v : Int32) (h : rd ≠ r ∨ r = .zero) :
    (s.setReg rd v).reg r = s.reg r := by
  rcases h with hne | rfl
  · exact reg_setReg_of_ne _ _ (Ne.symm hne)
  · rfl

theorem reg_syscall (h : r ≠ .a0) : s.syscall.state.reg r = s.reg r := by
  unfold syscall
  split
  case h_2 => exact reg_access rfl
  case h_4 => exact reg_setReg_of_ne _ _ h
  all_goals rfl

/-- A step changes no register but the one that it writes, and never register `zero`. -/
theorem reg_exec {op : Op Addr} (h : op.writes? ≠ some r ∨ r = .zero) :
    (s.exec op).state.reg r = s.reg r := by
  have hrd {rd : Reg} (hw : op.writes? = some rd) : rd ≠ r ∨ r = .zero :=
    h.imp_left fun hne heq => hne (hw.trans (congrArg some heq))
  cases op with
  | alu | aluImm | shift | li | la | unary | call | callReg => exact reg_setReg_of_frame _ (hrd rfl)
  | load w =>
    simp only [exec]
    refine reg_access ?_
    cases w <;> exact reg_setReg_of_frame _ (hrd rfl)
  | store w =>
    simp only [exec]
    refine reg_access ?_
    cases w <;> rfl
  | jump | jumpReg => rfl
  | branch | branchZero =>
    simp only [exec]
    split <;> rfl
  | ecall =>
    rcases hrd rfl with hne | rfl
    · exact reg_syscall (Ne.symm hne)
    · exact reg_syscall (by decide)

/-! ## Where control goes -/

theorem running_of_access {addr : Addr} {f : State → StepResult} {s' : State}
    (h : s.access addr f = .running s') : f s = .running s' := by
  unfold access at h
  split at h
  · cases h
  · exact h

theorem pc_syscall {s' : State} (h : s.syscall = .running s') : s'.pc = s.pc + 4 := by
  unfold syscall at h
  split at h
  case h_2 =>
    cases running_of_access h
    rfl
  all_goals
    cases h
    try rfl

end State

/-- Looking up the destination changes nothing else of an operation. -/
theorem Op.resolve_operands {τ σ ε : Type} {f : τ → Except ε σ} {i : Op τ} {op : Op σ}
    (h : i.resolve f = .ok op) : op.reads = i.reads ∧ op.writes? = i.writes? := by
  cases i
  case la | jump | call | branch | branchZero =>
    obtain ⟨addr, -, rfl⟩ := map_eq_ok_iff.mp h
    exact ⟨rfl, rfl⟩
  all_goals
    cases h
    exact ⟨rfl, rfl⟩

/-- An operation that is no call goes on where its flow leads. -/
theorem State.leadsTo_of_exec {table : LabelTable} {s s' : State} {i : Op Label} {op : Op Addr}
    (hi : i.resolve (fun l => Image.find table l.name) = .ok op) (hcall : i.isCall = false)
    (h : s.exec op = .running s') : i.flow.LeadsTo table s i.uses s'.pc := by
  cases i with
  | alu | aluImm | shift | li | unary =>
    cases hi
    cases h
    rfl
  | la =>
    obtain ⟨addr, -, rfl⟩ := map_eq_ok_iff.mp hi
    cases h
    rfl
  | load w | store w =>
    cases hi
    simp only [exec] at h
    have hrun := running_of_access h
    cases w <;> cases hrun <;> rfl
  | jump t =>
    obtain ⟨addr, hfind, rfl⟩ := map_eq_ok_iff.mp hi
    cases h
    exact hfind
  | call | callReg => cases hcall
  | jumpReg a =>
    cases hi
    cases h
    exact ⟨a, rfl, rfl⟩
  | branch | branchZero =>
    obtain ⟨addr, hfind, rfl⟩ := map_eq_ok_iff.mp hi
    cases h
    simp only [Flow.LeadsTo, Op.flow]
    split
    · exact .inr hfind
    · exact .inl rfl
  | ecall =>
    cases hi
    exact pc_syscall h

/-- **Operands and flow describe what a step does.** In two states that differ in registers only and
agree on all that an operation reads, it comes to the same end; the states after it then agree on
the registers that they agreed on before and, if it goes on, on the one that is written. No other
register changes. If it goes on and is no call, it does so where its flow leads. -/
theorem operands_describe_steps {table : LabelTable} {i : Op Label} {op : Op Addr}
    (hi : i.resolve (fun l => Image.find table l.name) = .ok op) :
    (∀ s t rs, i.reads ⊆ rs → State.SameOn rs s t →
      StepResult.SameOn i.writes? rs (s.exec op) (t.exec op)) ∧
    (∀ (s : State) r, i.writes? ≠ some r ∨ r = .zero → (s.exec op).state.reg r = s.reg r) ∧
    ∀ (s s' : State), s.exec op = .running s' → i.isCall = false →
      i.flow.LeadsTo table s i.uses s'.pc := by
  obtain ⟨hreads, hwrites⟩ := Op.resolve_operands hi
  refine ⟨fun s t rs hsub h => ?_, fun s r hr => ?_, fun s s' h hcall => ?_⟩
  · rw [← hreads] at hsub
    rw [← hwrites]
    exact h.exec hsub
  · rw [← hwrites] at hr
    exact State.reg_exec hr
  · exact State.leadsTo_of_exec hi hcall h

/-- A branch to the start of a program: in states that agree on its two operands it goes the same
way. -/
theorem branch_operands_describe :
    ∃ op, (Op.branch .lt .a0 .a1 (Label.global "main")).resolve
        (fun l => Image.find ((∅ : LabelTable).insert "main" Image.textBase) l.name) = .ok op ∧
      ∀ s t : State, s.SameOn [.a0, .a1] t →
        StepResult.SameOn none [.a0, .a1] (s.exec op) (t.exec op) ∧
        ∀ s', s.exec op = .running s' → s'.pc = s.pc + 4 ∨ s'.pc = Image.textBase := by
  have hfind : Image.find ((∅ : LabelTable).insert "main" Image.textBase) "main" =
      .ok Image.textBase := by
    simp only [Image.find, Std.ExtTreeMap.getElem?_insert_self]
  have hop : (Op.branch .lt .a0 .a1 (Label.global "main")).resolve
      (fun l => Image.find ((∅ : LabelTable).insert "main" Image.textBase) l.name) =
        .ok (.branch .lt .a0 .a1 Image.textBase) :=
    map_eq_ok_iff.mpr ⟨Image.textBase, hfind, rfl⟩
  obtain ⟨hsame, -, hleads⟩ := operands_describe_steps hop
  refine ⟨_, hop, fun s t h => ⟨hsame s t _ (List.Subset.refl _) h, fun s' hrun => ?_⟩⟩
  refine (hleads s s' hrun rfl).imp_right fun haddr => ?_
  exact Except.ok.inj (haddr.symm.trans hfind)

end ChocoRV
