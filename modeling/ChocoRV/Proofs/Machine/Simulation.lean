import Mathlib
import ChocoRV.Proofs.Machine.Run

/-!
# Simulations

A second program simulates a first one if it answers each step with one step or more, an exit with
an exit and a failure with a failure. As both are deterministic this is enough for the two to end in
the same way: a first program that does not come to an end fails or goes on for ever, and so does
the second.
-/

namespace ChocoRV

namespace Image

/-- Program `img₂` does what `img₁` does from states that `R` relates on; `E` relates the states in
which the two exit. -/
structure Simulation (img₁ img₂ : Image) (R E : State → State → Prop) : Prop where
  step {s₁ s₂ s₁' : State} {op : Op Addr} (hR : R s₁ s₂) (hf : img₁.fetch s₁.pc = some op)
    (he : s₁.exec op = .running s₁') : ∃ n s₂', Steps img₂ (n + 1) s₂ s₂' ∧ R s₁' s₂'
  exit {s₁ s₂ : State} {code : Int32} (hR : R s₁ s₂) (hx : ExitsAt img₁ s₁ code) :
    ∃ s₂', Ends img₂ s₂ code s₂' ∧ E s₁ s₂'
  fault {s₁ s₂ : State} {f : Fault} (hR : R s₁ s₂) (hx : FaultsAt img₁ s₁ f) :
    ∃ n s₂' f', Steps img₂ n s₂ s₂' ∧ FaultsAt img₂ s₂' f'

/-- A run goes on for any number of steps, unless it comes to an end or fails before. -/
theorem run_cases (img : Image) (s : State) (n : Nat) :
    (∃ s', Steps img n s s') ∨ (∃ code s', Ends img s code s') ∨
      ∃ m s' f, Steps img m s s' ∧ FaultsAt img s' f := by
  induction n generalizing s with
  | zero => exact .inl ⟨s, .refl s⟩
  | succ n ih =>
    rcases step_cases img s with ⟨op, s₁, hf, he⟩ | ⟨code, hx⟩ | ⟨f, hx⟩
    · rcases ih s₁ with ⟨s', hs⟩ | ⟨code, s', m, hs, hx⟩ | ⟨m, s', f, hs, hx⟩
      · exact .inl ⟨s', .step hf he hs⟩
      · exact .inr (.inl ⟨code, s', m + 1, .step hf he hs, hx⟩)
      · exact .inr (.inr ⟨m + 1, s', f, .step hf he hs, hx⟩)
    · exact .inr (.inl ⟨code, s, 0, .refl s, hx⟩)
    · exact .inr (.inr ⟨0, s, f, .refl s, hx⟩)

/-- No run is longer than one that ends. -/
theorem Ends.steps_le {img : Image} {s s' s'' : State} {code : Int32} {n m : Nat}
    (hs : Steps img n s s') (hx : ExitsAt img s' code) (h : Steps img m s s'') : m ≤ n := by
  rcases hs.linear h with ⟨k, hk, rfl⟩ | ⟨k, -, rfl⟩
  · have := (hx.not_step hk).1
    omega
  · omega

theorem Ends.unique {img : Image} {s s' s'' : State} {code code' : Int32}
    (h : Ends img s code s') (h' : Ends img s code' s'') : code = code' ∧ s' = s'' := by
  obtain ⟨n, hs, hx⟩ := h
  obtain ⟨m, hs', hx'⟩ := h'
  have heq : s'' = s' := by
    rcases hs.linear hs' with ⟨k, hk, -⟩ | ⟨k, hk, -⟩
    · exact (hx.not_step hk).2
    · exact (hx'.not_step hk).2.symm
  subst heq
  exact ⟨hx.unique hx', rfl⟩

/-- A run that ends does not fail. -/
theorem Ends.not_faults {img : Image} {s s' s'' : State} {code : Int32} {f : Fault} {n : Nat}
    (h : Ends img s code s') (hs : Steps img n s s'') : ¬ FaultsAt img s'' f := by
  intro hf
  obtain ⟨m, hs', hx⟩ := h
  have heq : s' = s'' := by
    rcases hs.linear hs' with ⟨k, hk, -⟩ | ⟨k, hk, -⟩
    · exact (hf.not_step hk).2
    · exact (hx.not_step hk).2.symm
  subst heq
  exact hx.not_faults hf

namespace Simulation

variable {img₁ img₂ : Image} {R E : State → State → Prop} {s₁ s₂ s₁' s₂' : State} {code : Int32}

/-- A run of the first program is followed by one of the second that is at least as long. -/
theorem steps (sim : Simulation img₁ img₂ R E) {n : Nat} (h : Steps img₁ n s₁ s₁') (hR : R s₁ s₂) :
    ∃ m ≥ n, ∃ s₂', Steps img₂ m s₂ s₂' ∧ R s₁' s₂' := by
  induction h generalizing s₂ with
  | refl s => exact ⟨0, Nat.le_refl 0, s₂, .refl s₂, hR⟩
  | step hf he _ ih =>
    obtain ⟨k, t, hk, hR'⟩ := sim.step hR hf he
    obtain ⟨m, hm, s₂', hs, hR''⟩ := ih hR'
    exact ⟨k + 1 + m, by omega, s₂', hk.trans hs, hR''⟩

/-- Where the first program comes to its end, the second one does, with the same exit code. -/
theorem ends (sim : Simulation img₁ img₂ R E) (hR : R s₁ s₂) (h : Ends img₁ s₁ code s₁') :
    ∃ s₂', Ends img₂ s₂ code s₂' ∧ E s₁' s₂' := by
  obtain ⟨n, hs, hx⟩ := h
  obtain ⟨m, -, t, ht, hR'⟩ := sim.steps hs hR
  obtain ⟨s₂', ⟨k, hk, hx'⟩, hE⟩ := sim.exit hR' hx
  exact ⟨s₂', ⟨m + k, ht.trans hk, hx'⟩, hE⟩

/-- Where the second program comes to its end, the first one does, with the same exit code. -/
theorem ends_of_ends (sim : Simulation img₁ img₂ R E) (hR : R s₁ s₂)
    (h : Ends img₂ s₂ code s₂') : ∃ s₁', Ends img₁ s₁ code s₁' ∧ E s₁' s₂' := by
  obtain ⟨n, hs, hx⟩ := h
  rcases run_cases img₁ s₁ (n + 1) with ⟨s₁', hs'⟩ | ⟨code', s₁', hend⟩ | ⟨k, s₁', f, hk, hf⟩
  · -- The second program would run for longer than it does.
    obtain ⟨m, hm, t, ht, -⟩ := sim.steps hs' hR
    have := Ends.steps_le hs hx ht
    omega
  · obtain ⟨t, hend₂, hE⟩ := sim.ends hR hend
    obtain ⟨rfl, rfl⟩ := hend₂.unique ⟨n, hs, hx⟩
    exact ⟨s₁', hend, hE⟩
  · obtain ⟨m, -, t, ht, hR'⟩ := sim.steps hk hR
    obtain ⟨j, t', f', hj, hf'⟩ := sim.fault hR' hf
    exact absurd hf' (Ends.not_faults ⟨n, hs, hx⟩ (ht.trans hj))

end Simulation

end Image

end ChocoRV
