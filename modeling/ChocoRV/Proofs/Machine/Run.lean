import Mathlib
import ChocoRV.Machine.Run

/-!
# Runs as sequences of steps

`Image.Steps` counts steps between states, without a budget. A state from which there is no further
step is one in which the program exits (`Image.ExitsAt`) or one in which it fails
(`Image.FaultsAt`), never both. What `Image.runSteps` gives follows from the steps alone.
-/

namespace ChocoRV

variable {s : State} {op : Op Addr} {code : Int32}

/-- Only a system call ends a program, and it leaves the state as it is. -/
theorem State.exec_exited {s' : State} (h : s.exec op = .exited code s') : s' = s := by
  cases op with
  | load w rd base n | store w src base n =>
    simp only [State.exec, State.access] at h
    split at h
    · exact nomatch h
    · cases w <;> exact nomatch h
  | ecall =>
    simp only [State.exec, State.syscall, State.access] at h
    split at h
    case h_2 => split at h <;> exact nomatch h
    case h_5 | h_6 => cases h; rfl
    all_goals exact nomatch h
  | _ => exact nomatch h

namespace Image

variable {img : Image}

/-- After `n` steps from `s` the program is in state `s'`, and running. -/
inductive Steps (img : Image) : Nat → State → State → Prop
  | refl (s : State) : Steps img 0 s s
  | step {n : Nat} {s s' s'' : State} {op : Op Addr} (hf : img.fetch s.pc = some op)
      (he : s.exec op = .running s') (h : Steps img n s' s'') : Steps img (n + 1) s s''

/-- The program ends in this state, with an exit code. -/
inductive ExitsAt (img : Image) (s : State) : Int32 → Prop
  | halt (h : s.pc = haltAddress) : ExitsAt img s 0
  | exit {op : Op Addr} {code : Int32} {s' : State} (hf : img.fetch s.pc = some op)
      (he : s.exec op = .exited code s') : ExitsAt img s code

/-- The program fails in this state. -/
inductive FaultsAt (img : Image) (s : State) : Fault → Prop
  | outOfRange (h : s.pc ≠ haltAddress) (hf : img.fetch s.pc = none) :
      FaultsAt img s (.pcOutOfRange s.pc)
  | fault {op : Op Addr} {f : Fault} {s' : State} (hf : img.fetch s.pc = some op)
      (he : s.exec op = .faulted f s') : FaultsAt img s f

/-- There is no code where a run returns to. -/
theorem fetch_halt : img.fetch haltAddress = none := rfl

theorem pc_ne_halt (hf : img.fetch s.pc = some op) : s.pc ≠ haltAddress := by
  intro h
  rw [h, fetch_halt] at hf
  exact nomatch hf

namespace Steps

variable {n m : Nat} {s s' s'' : State}

theorem trans (h : Steps img n s s') (h' : Steps img m s' s'') : Steps img (n + m) s s'' := by
  induction h with
  | refl s =>
    rw [Nat.zero_add]
    exact h'
  | step hf he _ ih =>
    rw [Nat.add_right_comm]
    exact .step hf he (ih h')

theorem one (hf : img.fetch s.pc = some op) (he : s.exec op = .running s') : Steps img 1 s s' :=
  .step hf he (.refl s')

/-- A run contains the shorter ones. -/
theorem cut (h : Steps img m s s') (hn : n ≤ m) : ∃ t, Steps img n s t := by
  induction h generalizing n with
  | refl s => exact ⟨s, Nat.le_zero.mp hn ▸ .refl s⟩
  | @step m s _ _ op hf he _ ih =>
    cases n with
    | zero => exact ⟨s, .refl s⟩
    | succ n =>
      obtain ⟨t, ht⟩ := ih (Nat.le_of_succ_le_succ hn)
      exact ⟨t, .step hf he ht⟩

/-- Of two sequences of steps from one state, one goes on from where the other ends. -/
theorem linear (h : Steps img n s s') (h' : Steps img m s s'') :
    (∃ k, Steps img k s' s'' ∧ m = n + k) ∨ ∃ k, Steps img k s'' s' ∧ n = m + k := by
  induction h generalizing m with
  | refl s => exact .inl ⟨m, h', by omega⟩
  | @step n s s₁ s' op hf he h ih =>
    cases h' with
    | refl => exact .inr ⟨n + 1, .step hf he h, by omega⟩
    | step hf' he' h' =>
      rw [hf] at hf'
      cases hf'
      rw [he] at he'
      cases he'
      rcases ih h' with ⟨k, hk, rfl⟩ | ⟨k, hk, rfl⟩
      · exact .inl ⟨k, hk, by omega⟩
      · exact .inr ⟨k, hk, by omega⟩

end Steps

/-- What holds in every state of the run from `s`. -/
def Always (img : Image) (Q : State → Prop) (s : State) : Prop :=
  ∀ n s', Steps img n s s' → Q s'

theorem Always.now {Q : State → Prop} (h : Always img Q s) : Q s := h 0 s (.refl s)

theorem Always.step {Q : State → Prop} {s' : State} (h : Always img Q s)
    (hf : img.fetch s.pc = some op) (he : s.exec op = .running s') : Always img Q s' :=
  fun n s'' hs => h (n + 1) s'' (.step hf he hs)

/-- A program that exits takes no further step. -/
theorem ExitsAt.not_step {s' : State} {n : Nat} (h : ExitsAt img s code) (hs : Steps img n s s') :
    n = 0 ∧ s' = s := by
  cases hs with
  | refl => exact ⟨rfl, rfl⟩
  | step hf he _ =>
    cases h with
    | halt h => exact absurd h (pc_ne_halt hf)
    | exit hf' he' =>
      rw [hf] at hf'
      cases hf'
      rw [he] at he'
      exact nomatch he'

theorem FaultsAt.not_step {s' : State} {n : Nat} {f : Fault} (h : FaultsAt img s f)
    (hs : Steps img n s s') : n = 0 ∧ s' = s := by
  cases hs with
  | refl => exact ⟨rfl, rfl⟩
  | step hf he _ =>
    cases h with
    | outOfRange _ hf' =>
      rw [hf] at hf'
      exact nomatch hf'
    | fault hf' he' =>
      rw [hf] at hf'
      cases hf'
      rw [he] at he'
      exact nomatch he'

theorem ExitsAt.not_faults {f : Fault} (h : ExitsAt img s code) : ¬ FaultsAt img s f := by
  intro hf
  cases h with
  | halt h =>
    cases hf with
    | outOfRange hne _ => exact hne h
    | fault hfetch _ => exact pc_ne_halt hfetch h
  | exit hfetch he =>
    cases hf with
    | outOfRange _ hnone =>
      rw [hfetch] at hnone
      exact nomatch hnone
    | fault hfetch' he' =>
      rw [hfetch] at hfetch'
      cases hfetch'
      rw [he] at he'
      exact nomatch he'

theorem ExitsAt.unique {code' : Int32} (h : ExitsAt img s code) (h' : ExitsAt img s code') :
    code = code' := by
  cases h with
  | halt h =>
    cases h' with
    | halt _ => rfl
    | exit hf _ => exact absurd h (pc_ne_halt hf)
  | exit hf he =>
    cases h' with
    | halt h => exact absurd h (pc_ne_halt hf)
    | exit hf' he' =>
      rw [hf] at hf'
      cases hf'
      rw [he] at he'
      cases he'
      rfl

/-- Every state is one in which the program goes on, exits or fails. -/
theorem step_cases (img : Image) (s : State) :
    (∃ op s', img.fetch s.pc = some op ∧ s.exec op = .running s') ∨
      (∃ code, ExitsAt img s code) ∨ ∃ f, FaultsAt img s f := by
  by_cases hpc : s.pc = haltAddress
  · exact .inr (.inl ⟨0, .halt hpc⟩)
  cases hf : img.fetch s.pc with
  | none => exact .inr (.inr ⟨_, .outOfRange hpc hf⟩)
  | some op =>
    cases he : s.exec op with
    | running s' => exact .inl ⟨op, s', rfl, he⟩
    | exited code s' => exact .inr (.inl ⟨code, .exit hf he⟩)
    | faulted f s' => exact .inr (.inr ⟨f, .fault hf he⟩)

/-! ## Budgets -/

variable {limit fuel : Nat} {s s' : State}

/-- A budget covers the steps one after the other. -/
theorem runSteps_steps {n : Nat} (h : Steps img n s s') (limit fuel : Nat) :
    img.runSteps limit (n + fuel) s = img.runSteps limit fuel s' := by
  induction h with
  | refl s => rw [Nat.zero_add]
  | @step n s s₁ s' op hf he _ ih =>
    rw [Nat.add_right_comm, runSteps, if_neg (pc_ne_halt hf)]
    simp only [hf, he]
    exact ih

theorem runSteps_exits (h : ExitsAt img s code) (limit fuel : Nat) :
    ∃ k, img.runSteps limit (fuel + 1) s = (.ok ⟨code, s.stdout, k⟩, s) := by
  cases h with
  | halt h => exact ⟨_, by rw [runSteps, if_pos h]⟩
  | exit hf he =>
    rw [runSteps, if_neg (pc_ne_halt hf)]
    simp only [hf, he]
    rw [State.exec_exited he]
    exact ⟨_, rfl⟩

/-- Without a step left, a run is over unless it has come to its end. -/
theorem runSteps_zero (h : s.pc ≠ haltAddress) :
    img.runSteps limit 0 s = (.error (.stepLimit limit), s) := by
  rw [runSteps, if_neg h]

/-- A run that ends with an exit code has taken steps to a state in which the program exits. -/
theorem exits_of_runSteps {o : Outcome} (h : img.runSteps limit fuel s = (.ok o, s')) :
    ∃ n ≤ fuel, Steps img n s s' ∧ ExitsAt img s' o.exitCode ∧ o.stdout = s'.stdout := by
  induction fuel generalizing s with
  | zero =>
    by_cases hpc : s.pc = haltAddress
    · rw [runSteps, if_pos hpc] at h
      cases h
      exact ⟨0, Nat.le_refl _, .refl _, .halt hpc, rfl⟩
    · rw [runSteps_zero hpc] at h
      exact nomatch h
  | succ fuel ih =>
    rcases step_cases img s with ⟨op, s₁, hf, he⟩ | ⟨code, hx⟩ | ⟨f, hx⟩
    · have hrun : img.runSteps limit (fuel + 1) s = img.runSteps limit fuel s₁ := by
        rw [Nat.add_comm]
        exact runSteps_steps (.one hf he) limit fuel
      rw [hrun] at h
      obtain ⟨n, hn, hs, hx, ho⟩ := ih h
      exact ⟨n + 1, by omega, .step hf he hs, hx, ho⟩
    · obtain ⟨k, hk⟩ := runSteps_exits hx limit fuel
      rw [hk] at h
      cases h
      exact ⟨0, Nat.zero_le _, .refl _, hx, rfl⟩
    · cases hx with
      | outOfRange hpc hf =>
        rw [runSteps, if_neg hpc] at h
        simp only [hf] at h
        exact nomatch h
      | fault hf he =>
        rw [runSteps, if_neg (pc_ne_halt hf)] at h
        simp only [hf, he] at h
        exact nomatch h

/-- Started in `s`, the program comes to its end in state `s'`, with an exit code. -/
def Ends (img : Image) (s : State) (code : Int32) (s' : State) : Prop :=
  ∃ n, Steps img n s s' ∧ ExitsAt img s' code

/-- A program that comes to its end does so under every budget that is large enough. -/
theorem Ends.eventually (h : Ends img s code s') :
    ∃ bound, ∀ limit ≥ bound, ∃ k, img.runSteps limit limit s = (.ok ⟨code, s'.stdout, k⟩, s') := by
  obtain ⟨n, hs, hx⟩ := h
  refine ⟨n + 1, fun limit hl => ?_⟩
  obtain ⟨fuel, rfl⟩ : ∃ fuel, limit = n + (fuel + 1) := ⟨limit - n - 1, by omega⟩
  rw [runSteps_steps hs]
  exact runSteps_exits hx _ fuel

/-- To come to an end is to do so under some budget. -/
theorem ends_iff : Ends img s code s' ↔
      ∃ limit k, img.runSteps limit limit s = (.ok ⟨code, s'.stdout, k⟩, s') := by
  constructor
  · intro h
    obtain ⟨bound, hb⟩ := h.eventually
    obtain ⟨k, hk⟩ := hb bound (Nat.le_refl _)
    exact ⟨bound, k, hk⟩
  · rintro ⟨limit, k, h⟩
    obtain ⟨n, -, hs, hx, -⟩ := exits_of_runSteps h
    exact ⟨n, hs, hx⟩

end Image

end ChocoRV
