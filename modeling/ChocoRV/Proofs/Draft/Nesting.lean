import Mathlib
import ChocoRV.Proofs.Draft.Replay
import ChocoRV.Proofs.Draft.Trace

/-!
# Temporaries are nested

Drafts take and release temporaries like a stack: takes are numbered without gaps, the temporary
that is released is always the one taken last, and an instruction mentions only temporaries that are
held. `Nested` states this of a list of events, and `Traced.nested` shows it of those of drafts.
-/

namespace ChocoRV

/-- Events `evs` start with `n` temporaries taken before them and the temporaries `H` held, the last
one first; they end with `n'` taken and `H'` held. -/
inductive Nested : Nat → List Nat → List Event → Nat → List Nat → Prop
  | nil {n : Nat} {H : List Nat} : Nested n H [] n H
  | label {n n' : Nat} {H H' : List Nat} {l : Label} {evs : List Event} :
      Nested n H evs n' H' → Nested n H (.item (.label l) :: evs) n' H'
  | instr {n n' : Nat} {H H' : List Nat} {i : Instr} {evs : List Event}
      (held : ∀ t ∈ i.op.virts, t ∈ H) :
      Nested n H evs n' H' → Nested n H (.item (.instr i) :: evs) n' H'
  | take {n n' : Nat} {H H' : List Nat} {what : String} {span : Span} {evs : List Event} :
      Nested (n + 1) (n :: H) evs n' H' → Nested n H (.take n what span :: evs) n' H'
  | release {n n' t : Nat} {H H' : List Nat} {evs : List Event} :
      Nested n H evs n' H' → Nested n (t :: H) (.release t :: evs) n' H'

namespace Nested

variable {n n' n'' : Nat} {H H' H'' : List Nat} {evs evs' : List Event}

theorem append (h : Nested n H evs n' H') (h' : Nested n' H' evs' n'' H'') :
    Nested n H (evs ++ evs') n'' H'' := by
  induction h with
  | nil => exact h'
  | label _ ih => exact .label (ih h')
  | instr held _ ih => exact .instr held (ih h')
  | take _ ih => exact .take (ih h')
  | release _ ih => exact .release (ih h')

/-- The number of temporaries taken never goes down. -/
theorem le (h : Nested n H evs n' H') : n ≤ n' := by
  induction h with
  | nil => exact Nat.le_refl _
  | label _ ih => exact ih
  | instr _ _ ih => exact ih
  | take _ ih => omega
  | release _ ih => exact ih

/-- The temporaries that the instructions mention are among those taken by the end. -/
theorem virts_lt (h : Nested n H evs n' H') (hH : ∀ t ∈ H, t < n) :
    ∀ i, Event.item (.instr i) ∈ evs → ∀ t ∈ i.op.virts, t < n' := by
  induction h with
  | nil => exact fun i hi => nomatch hi
  | label _ ih =>
    intro i hi
    rcases List.mem_cons.mp hi with heq | hi
    · exact nomatch heq
    · exact ih hH i hi
  | instr held h ih =>
    intro i hi t ht
    rcases List.mem_cons.mp hi with heq | hi
    · cases heq
      exact Nat.lt_of_lt_of_le (hH t (held t ht)) h.le
    · exact ih hH i hi t ht
  | take _ ih =>
    intro i hi
    rcases List.mem_cons.mp hi with heq | hi
    · exact nomatch heq
    · refine ih (fun t ht => ?_) i hi
      rcases List.mem_cons.mp ht with rfl | ht
      · exact Nat.lt_succ_self _
      · exact Nat.lt_succ_of_lt (hH t ht)
  | release _ ih =>
    intro i hi
    rcases List.mem_cons.mp hi with heq | hi
    · exact nomatch heq
    · exact ih (fun t ht => hH t (List.mem_cons_of_mem _ ht)) i hi

end Nested

/-- The events of a draft are nested. -/
theorem Traced.nested {env : Env} {E : Prop} {σ σ' : Draft.Scene} {s s' : Draft.State}
    {evs : List Event} (h : Traced env E σ s evs s' σ') :
    Nested s.temps σ.held evs s'.temps σ'.held := by
  induction h with
  | nil | fresh | intern => exact .nil
  | append _ _ ih₁ ih₂ => exact ih₁.append ih₂
  | instr h =>
    rw [Draft.Scene.held, Draft.Scene.held, h.held_eq]
    exact .instr h.allowed.held .nil
  | take => exact .take .nil
  | release h =>
    rw [Draft.Scene.held, h]
    exact .release .nil
  | label _ hκ =>
    rw [Draft.Scene.held, Draft.Scene.held, hκ.held]
    exact .label .nil
  | drop _ _ ih => exact ih
  | literal => exact .instr (fun t ht => absurd ht (WordValue.not_mem_virts_load _)) .nil

end ChocoRV
