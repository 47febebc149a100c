import Mathlib
import ChocoRV.Proofs.Except
import ChocoRV.Proofs.Machine.Run

/-!
# The step budget only cuts runs short

What a run does is fixed by its steps; a budget says no more than how far it may go. So a run that
is not cut short ends in the same way under every larger budget, and one that finishes after `n`
instructions needs a budget of `n`, no more and no less. An instruction that ends the program counts
as one, returning to the halt address does not.
-/

namespace ChocoRV

namespace Image

variable {img : Image} {limit fuel : Nat} {s s' : State}

/-- From `s` the program finishes after `n` instructions, with an exit code: it is back at the halt
address then, or the last instruction has ended it. -/
inductive Finishes (img : Image) (s : State) : Nat → Int32 → State → Prop
  | returns {n : Nat} {s' : State} (h : Steps img n s s') (hpc : s'.pc = haltAddress) :
      Finishes img s n 0 s'
  | exits {n : Nat} {s' s'' : State} {op : Op Addr} {code : Int32} (h : Steps img n s s')
      (hf : img.fetch s'.pc = some op) (he : s'.exec op = .exited code s'') :
      Finishes img s (n + 1) code s''

/-! ## Budgets that are large enough -/

theorem runSteps_halt (h : s.pc = haltAddress) (limit fuel : Nat) :
    img.runSteps limit fuel s = (.ok ⟨0, s.stdout, limit - fuel⟩, s) := by
  cases fuel <;> rw [runSteps, if_pos h]

/-- A step of the budget is used for an instruction that ends the program. -/
theorem runSteps_exited {op : Op Addr} {code : Int32} (hf : img.fetch s.pc = some op)
    (he : s.exec op = .exited code s') (limit fuel : Nat) :
    img.runSteps limit (fuel + 1) s = (.ok ⟨code, s'.stdout, limit - fuel⟩, s') := by
  rw [runSteps, if_neg (pc_ne_halt hf)]
  simp only [hf, he]

theorem Finishes.runSteps {n : Nat} {code : Int32} (h : Finishes img s n code s') (hn : n ≤ fuel)
    (hfuel : fuel ≤ limit) :
    img.runSteps limit fuel s = (.ok ⟨code, s'.stdout, limit - fuel + n⟩, s') := by
  cases h with
  | returns hs hpc =>
    obtain ⟨rest, rfl⟩ := Nat.exists_eq_add_of_le hn
    rw [runSteps_steps hs, runSteps_halt hpc, show limit - (n + rest) + n = limit - rest by omega]
  | @exits n t _ _ _ hs hf he =>
    obtain ⟨rest, rfl⟩ := Nat.exists_eq_add_of_le hn
    rw [Nat.add_assoc, Nat.add_comm 1, runSteps_steps hs, runSteps_exited hf he,
      show limit - (n + (rest + 1)) + (n + 1) = limit - rest by omega]

/-- A run that ends with an outcome has finished, and the outcome counts its instructions. -/
theorem finishes_of_runSteps {o : Outcome} (h : img.runSteps limit fuel s = (.ok o, s'))
    (hfuel : fuel ≤ limit) :
    ∃ n ≤ fuel, Finishes img s n o.exitCode s' ∧ o = ⟨o.exitCode, s'.stdout, limit - fuel + n⟩ := by
  obtain ⟨n, hn, hs, hexit, -⟩ := exits_of_runSteps h
  -- Whenever it finishes within the budget, the outcome is the one of finishing there.
  have hsame {n : Nat} (hn : n ≤ fuel) (hfin : Finishes img s n o.exitCode s') :
      o = ⟨o.exitCode, s'.stdout, limit - fuel + n⟩ := by
    have heq := h.symm.trans (hfin.runSteps hn hfuel)
    exact Except.ok.inj (Prod.ext_iff.mp heq).1
  generalize hcode : o.exitCode = code at hexit hsame
  cases hexit with
  | halt hpc =>
    have hfin := Finishes.returns hs hpc
    exact ⟨n, hn, hfin, hsame hn hfin⟩
  | exit hf he =>
    obtain rfl := State.exec_exited he
    have hlt : n < fuel := by
      refine Nat.lt_of_le_of_ne hn ?_
      rintro rfl
      -- The last instruction would not have been carried out.
      rw [← Nat.add_zero n, runSteps_steps hs, runSteps_zero (pc_ne_halt hf)] at h
      cases h
    have hfin := Finishes.exits hs hf he
    exact ⟨n + 1, hlt, hfin, hsame hlt hfin⟩

/-! ## Budgets that are too small -/

/-- Before it finishes, a program is running and not at the halt address. -/
theorem Finishes.running {n : Nat} {code : Int32} (h : Finishes img s n code s') {m : Nat}
    (hm : m < n) :
    ∃ t, Steps img m s t ∧ t.pc ≠ haltAddress := by
  cases h with
  | returns hs hpc =>
    obtain ⟨t, ht⟩ := hs.cut (Nat.le_of_lt hm)
    refine ⟨t, ht, ?_⟩
    rcases ht.linear hs with ⟨k, hk, hlen⟩ | ⟨k, -, hlen⟩
    · cases hk with
      | refl => omega
      | step hf _ _ => exact pc_ne_halt hf
    · omega
  | @exits n u _ _ _ hs hf he =>
    obtain ⟨t, ht⟩ := hs.cut (Nat.le_of_lt_succ hm)
    refine ⟨t, ht, ?_⟩
    rcases ht.linear hs with ⟨k, hk, -⟩ | ⟨k, hk, hlen⟩
    · cases hk with
      | refl => exact pc_ne_halt hf
      | step hf' _ _ => exact pc_ne_halt hf'
    · obtain rfl : k = 0 := by omega
      cases hk
      exact pc_ne_halt hf

/-- A run that has used up its budget before it is at the halt address is cut short. -/
theorem runSteps_cut (hs : Steps img fuel s s') (hpc : s'.pc ≠ haltAddress) (limit : Nat) :
    img.runSteps limit fuel s = (.error (.stepLimit limit), s') := by
  have hrun := runSteps_steps hs limit 0
  rwa [Nat.add_zero, runSteps_zero hpc] at hrun

/-! ## Larger budgets -/

/-- A run that is not cut short goes the same way when there is more left of a larger budget. -/
theorem runSteps_add (more : Nat) (h : ∀ n, (img.runSteps limit fuel s).1 ≠ .error (.stepLimit n)) :
    img.runSteps (limit + more) (fuel + more) s = img.runSteps limit fuel s := by
  by_cases hpc : s.pc = haltAddress
  · rw [runSteps_halt hpc, runSteps_halt hpc, Nat.add_sub_add_right]
  induction fuel generalizing s with
  | zero => exact absurd (congrArg Prod.fst (runSteps_zero hpc)) (h limit)
  | succ fuel ih =>
    rw [Nat.add_right_comm]
    rcases step_cases img s with ⟨op, t, hf, he⟩ | ⟨code, hexit⟩ | ⟨f, hfault⟩
    · have hstep (limit fuel : Nat) : img.runSteps limit (fuel + 1) s =
          img.runSteps limit fuel t := by
        rw [Nat.add_comm, runSteps_steps (.one hf he)]
      rw [hstep] at h ⊢
      rw [hstep]
      by_cases hpc' : t.pc = haltAddress
      · rw [runSteps_halt hpc', runSteps_halt hpc', Nat.add_sub_add_right]
      · exact ih h hpc'
    · cases hexit with
      | halt h => exact absurd h hpc
      | exit hf he => rw [runSteps_exited hf he, runSteps_exited hf he, Nat.add_sub_add_right]
    · cases hfault with
      | outOfRange _ hf => simp only [runSteps, if_neg hpc, hf]
      | fault hf he => simp only [runSteps, if_neg hpc, hf, he]

/-- **The step budget only cuts runs short.** For runs from any label and state: one that does not
end at the step limit ends with the same outcome or fault, and in the same state, under every larger
budget; an outcome counts the instructions after which the run has finished, and they are within the
budget; and a run that finishes after `n` instructions does so under exactly the budgets from `n`
on, while a smaller one cuts it short in the state after as many instructions as it allows. -/
theorem step_budget_only_cuts (img : Image) (entry : String) (s : State) :
    (∀ N M, N ≤ M → (∀ n, (img.run entry N s).1 ≠ .error (.stepLimit n)) →
      img.run entry M s = img.run entry N s) ∧
    (∀ N o s', img.run entry N s = (.ok o, s') → o.steps ≤ N ∧
      ∃ addr, img.label? entry = some addr ∧ Finishes img (enter addr s) o.steps o.exitCode s') ∧
    ∀ addr n code s', img.label? entry = some addr → Finishes img (enter addr s) n code s' →
      ∀ N, (n ≤ N → img.run entry N s = (.ok ⟨code, s'.stdout, n⟩, s')) ∧
        (N < n → ∃ t, Steps img N (enter addr s) t ∧
          img.run entry N s = (.error (.stepLimit N), t)) := by
  refine ⟨fun N M hle hend => ?_, fun N o s' h => ?_,
    fun addr n code s' hl hfin N => ⟨fun hn => ?_, fun hn => ?_⟩⟩
  · obtain ⟨more, rfl⟩ := Nat.exists_eq_add_of_le hle
    cases hl : img.label? entry with
    | none => simp only [run, hl]
    | some addr =>
      simp only [run, hl] at hend ⊢
      exact runSteps_add more hend
  · cases hl : img.label? entry with
    | none =>
      simp only [run, hl] at h
      cases h
    | some addr =>
      simp only [run, hl] at h
      obtain ⟨n, hn, hfin, ho⟩ := finishes_of_runSteps h (Nat.le_refl N)
      have hsteps : o.steps = n := by rw [ho, Nat.sub_self, Nat.zero_add]
      exact ⟨hsteps ▸ hn, addr, rfl, hsteps ▸ hfin⟩
  · simp only [run, hl]
    rw [hfin.runSteps hn (Nat.le_refl N), Nat.sub_self, Nat.zero_add]
  · obtain ⟨t, ht, hpc⟩ := hfin.running hn
    simp only [run, hl]
    exact ⟨t, ht, runSteps_cut ht hpc N⟩

/-- A program of two instructions, the second of which ends it. -/
def exitAtOnce : Assembly :=
  { text := [.label (.global "main"), .op (.li .a7 Syscall.exit.number), .op .ecall] }

/-- Two is the least budget that it finishes under. -/
theorem exitAtOnce_budget :
    ∃ img init s', load exitAtOnce = .ok (img, init) ∧
      (∀ N ≥ 2, img.run "main" N init = (.ok ⟨0, s'.stdout, 2⟩, s')) ∧
      ∀ N < 2, (img.run "main" N init).1 = .error (.stepLimit N) := by
  have hcheck : (load exitAtOnce).toOption.any (fun r =>
      decide ((r.1.run "main" 2 r.2).1 = .ok ⟨0, "", 2⟩)) = true := by decide +kernel
  obtain ⟨⟨img, init⟩, hload, hrun⟩ := exists_ok_of_any hcheck
  obtain ⟨-, houtcome, hfinish⟩ := step_budget_only_cuts img "main" init
  obtain ⟨-, addr, hl, hfin⟩ := houtcome 2 _ _ (Prod.ext (of_decide_eq_true hrun) rfl)
  refine ⟨img, init, (img.run "main" 2 init).2, hload, fun N hN => ?_, fun N hN => ?_⟩
  · exact (hfinish _ _ _ _ hl hfin N).1 hN
  · obtain ⟨t, -, hcut⟩ := (hfinish _ _ _ _ hl hfin N).2 hN
    rw [hcut]

end Image

end ChocoRV
