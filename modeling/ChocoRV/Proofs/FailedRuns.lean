import Mathlib
import ChocoRV.Proofs.StepBudget

/-!
# A failing instruction has no effect

Callers go on with a machine after a run on it has failed. An operation checks all that can go wrong
before it changes anything, so such a run leaves exactly what the instructions before the failing
one have made of the state: no part of a store, a load, a call or a system call.
-/

namespace ChocoRV

/-- An operation that fails leaves the state as it is. -/
theorem State.exec_faulted {s s' : State} {op : Op Addr} {f : Fault}
    (h : s.exec op = .faulted f s') :
    s' = s := by
  cases op with
  | load w rd base n | store w src base n =>
    simp only [State.exec, State.access] at h
    split at h
    · cases h
      rfl
    · cases w <;> cases h
  | ecall =>
    simp only [State.exec, State.syscall, State.access] at h
    split at h
    case h_2 =>
      split at h <;> cases h
      rfl
    case h_7 =>
      cases h
      rfl
    all_goals cases h
  | _ => cases h

namespace Image

variable {img : Image} {limit fuel : Nat} {s s' : State} {f : Fault}

theorem FaultsAt.pc_ne_halt (h : FaultsAt img s f) : s.pc ≠ haltAddress := by
  cases h with
  | outOfRange h _ => exact h
  | fault hf _ => exact Image.pc_ne_halt hf

theorem runSteps_faults (h : FaultsAt img s f) (limit fuel : Nat) :
    img.runSteps limit (fuel + 1) s = (.error f, s) := by
  rw [runSteps, if_neg h.pc_ne_halt]
  cases h with
  | outOfRange _ hf => simp only [hf]
  | fault hf he =>
    simp only [hf, he]
    rw [State.exec_faulted he]

/-- A run that fails has completed some instructions, and then the budget is used up or the next one
fails. -/
theorem faults_of_runSteps (h : img.runSteps limit fuel s = (.error f, s')) :
    ∃ n ≤ fuel, Steps img n s s' ∧ s'.pc ≠ haltAddress ∧
      ((n = fuel ∧ f = .stepLimit limit) ∨ (n < fuel ∧ FaultsAt img s' f)) := by
  induction fuel generalizing s with
  | zero =>
    by_cases hpc : s.pc = haltAddress
    · rw [runSteps_halt hpc] at h
      cases h
    · rw [runSteps_zero hpc] at h
      cases h
      exact ⟨0, Nat.le_refl 0, .refl _, hpc, .inl ⟨rfl, rfl⟩⟩
  | succ fuel ih =>
    rcases step_cases img s with ⟨op, t, hf, he⟩ | ⟨code, hexit⟩ | ⟨f', hfault⟩
    · rw [Nat.add_comm, runSteps_steps (.one hf he)] at h
      obtain ⟨n, hn, hs, hpc, hend⟩ := ih h
      refine ⟨n + 1, Nat.succ_le_succ hn, .step hf he hs, hpc, ?_⟩
      exact hend.imp (fun hend => ⟨congrArg (· + 1) hend.1, hend.2⟩)
        (fun hend => ⟨Nat.succ_lt_succ hend.1, hend.2⟩)
    · obtain ⟨k, hk⟩ := runSteps_exits hexit limit fuel
      rw [hk] at h
      cases h
    · rw [runSteps_faults hfault] at h
      cases h
      exact ⟨0, Nat.zero_le _, .refl _, hfault.pc_ne_halt, .inr ⟨Nat.succ_pos _, hfault⟩⟩

/-- **A failing instruction has no effect.** A run from a label that does not exist leaves the state
as it is. Any other run that fails leaves the state that a number of completed instructions make of
the one in which it began; it is the state that a budget of just these instructions leaves. The run
fails there because its budget is used up, or because the next instruction does. -/
theorem failed_runs_leave_completed_steps {img : Image} {entry : String} {limit : Nat}
    {s s' : State} {f : Fault} (h : img.run entry limit s = (.error f, s')) :
    (img.label? entry = none ∧ f = .undefinedLabel entry ∧ s' = s) ∨
      ∃ addr n, img.label? entry = some addr ∧ n ≤ limit ∧ Steps img n (enter addr s) s' ∧
        img.run entry n s = (.error (.stepLimit n), s') ∧
        ((n = limit ∧ f = .stepLimit limit) ∨ (n < limit ∧ FaultsAt img s' f)) := by
  cases hl : img.label? entry with
  | none =>
    simp only [run, hl] at h
    cases h
    exact .inl ⟨rfl, rfl, rfl⟩
  | some addr =>
    simp only [run, hl] at h ⊢
    obtain ⟨n, hn, hs, hpc, hend⟩ := faults_of_runSteps h
    exact .inr ⟨addr, n, rfl, hn, hs, runSteps_cut hs hpc n, hend⟩

/-- A program that prints a letter and then stores to an address that is not valid. -/
def printThenStore : Assembly where
  text := [.label (.global "main"), .op (.li .a0 65), .op (.li .a7 Syscall.printChar.number),
    .op .ecall, .op (.sw .a0 .zero 4)]

/-- The letter stays printed, and the run has stopped at the store. -/
theorem printThenStore_fails :
    ∃ img init s' n, load printThenStore = .ok (img, init) ∧
      img.run "main" 9 init = (.error (.invalidAddress 4 0x40000c), s') ∧ s'.stdout = "A" ∧
      Steps img n (enter textBase init) s' ∧ img.run "main" n init = (.error (.stepLimit n), s') ∧
      FaultsAt img s' (.invalidAddress 4 0x40000c) := by
  have hcheck : (load printThenStore).toOption.any (fun r => r.1.label? "main" == some textBase &&
      decide ((r.1.run "main" 9 r.2).1 = .error (.invalidAddress 4 0x40000c)) &&
      (r.1.run "main" 9 r.2).2.stdout == "A") = true := by decide +kernel
  obtain ⟨⟨img, init⟩, hload, hcheck⟩ := exists_ok_of_any hcheck
  simp only [Bool.and_eq_true, beq_iff_eq, decide_eq_true_eq] at hcheck
  obtain ⟨⟨hmain, hrun⟩, hout⟩ := hcheck
  have hfail : img.run "main" 9 init = (.error (.invalidAddress 4 0x40000c),
      (img.run "main" 9 init).2) :=
    Prod.ext hrun rfl
  rcases failed_runs_leave_completed_steps hfail with ⟨hnone, -⟩ | ⟨addr, n, hl, -, hs, hcut, hend⟩
  · rw [hmain] at hnone
    cases hnone
  · cases hl.symm.trans hmain
    rcases hend with ⟨-, hlimit⟩ | ⟨-, hfault⟩
    · cases hlimit
    · exact ⟨img, init, _, n, hload, hfail, hout, hs, hcut, hfault⟩

end Image

end ChocoRV
