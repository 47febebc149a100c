import Mathlib
import ChocoRV.Proofs.Draft.Trace

/-!
# Room for the words of calls

Code makes room for the words of a call by moving the stack pointer down and gives the room back
after the call. The words of a call are computed in between, and may hold calls themselves, so at
each place of a function there is a stack of open reservations: their sizes in words, the innermost
first.

- `Op.Shifts` says what an operation does to the open reservations: it opens one, closes one, stores
  to a word of the innermost one, or has nothing to do with the stack.
- `Along` goes along a stream. Every label has its own reservations, and whatever jumps to it has to
  arrive with them.
-/

namespace ChocoRV

open Draft (Context Scene)

/-- The label is number `n` of the unit for some `n`, and entry `n` of `L` is `R`. -/
def Label.HasLevel (unit : String) (L : List (List Nat)) (l : Label) (R : List Nat) : Prop :=
  ∃ n, l = .nth unit n ∧ L[n]? = some R

theorem Label.HasLevel.mono {unit : String} {L L' : List (List Nat)} {l : Label} {R : List Nat}
    (h : l.HasLevel unit L R) (hL : L <+: L') : l.HasLevel unit L' R := by
  obtain ⟨n, rfl, hn⟩ := h
  obtain ⟨more, rfl⟩ := hL
  have hlt : n < L.length := (List.getElem?_eq_some_iff.mp hn).1
  exact ⟨n, rfl, by rw [List.getElem?_append_left hlt, hn]⟩

theorem Label.nth_inj {unit : String} {m n : Nat} (h : (nth unit m).name = (nth unit n).name) :
    m = n := by
  have h : unit ++ "$L" ++ toString m = unit ++ "$L" ++ toString n := h
  rw [String.append_right_inj] at h
  exact Nat.repr_injective h

/-- The labels of a function are none of the error routines. -/
theorem Label.nth_not_error {unit : String} {n : Nat} {l : Label} (hl : l ∈ Routine.errors) :
    (nth unit n).name ≠ l.name := by
  intro h
  have hmem : '$' ∈ l.name.toList := by
    rw [← h, nth]
    simp
  have herrors : ∀ l ∈ Routine.errors, '$' ∉ l.name.toList := by decide
  exact herrors l hl hmem

/-- What an operation does to the open reservations. A jump goes to a label that has the same ones,
or out of the function to an error routine. -/
inductive Op.Shifts (unit : String) (L : List (List Nat)) :
    List Nat → Op Label → List Nat → Prop
  | reserve {R : List Nat} (words : Nat) :
      Shifts unit L R (.addi .sp .sp (-Object.slotOffset words)) (words :: R)
  | giveBack {R : List Nat} (words : Nat) :
      Shifts unit L (words :: R) (.addi .sp .sp (Object.slotOffset words)) R
  | pass {R : List Nat} {words k : Nat} (src : Reg) (hk : k < words) :
      Shifts unit L (words :: R) (.sw src .sp (Object.slotOffset k)) (words :: R)
  | other {R : List Nat} {o : Op Label} (h : o.OffStack)
      (ht : ∀ l ∈ o.flow.target?, l.HasLevel unit L R ∨ l ∈ Routine.errors) :
      Shifts unit L R o R

/-- Labels that join later change nothing. -/
theorem Op.Shifts.mono {unit : String} {L L' : List (List Nat)} {R R' : List Nat} {o : Op Label}
    (h : o.Shifts unit L R R') (hL : L <+: L') : o.Shifts unit L' R R' := by
  cases h with
  | reserve words => exact .reserve words
  | giveBack words => exact .giveBack words
  | pass src hk => exact .pass src hk
  | other h ht => exact .other h fun l hl => (ht l hl).imp_left (·.mono hL)

/-- The reservations along a stream: `R` before it and `R'` after it. -/
inductive Along (unit : String) (L : List (List Nat)) : List Nat → List Item → List Nat → Prop
  | nil (R : List Nat) : Along unit L R [] R
  | label {R R' : List Nat} {l : Label} {items : List Item} (hl : l.HasLevel unit L R)
      (h : Along unit L R items R') : Along unit L R (.label l :: items) R'
  | instr {R R₁ R' : List Nat} {i : Instr} {items : List Item} (hi : i.op.Shifts unit L R R₁)
      (h : Along unit L R₁ items R') : Along unit L R (.instr i :: items) R'

namespace Along

variable {unit : String} {L L' : List (List Nat)} {R R₁ R₂ : List Nat} {xs ys : List Item}

theorem append (h₁ : Along unit L R xs R₁) (h₂ : Along unit L R₁ ys R₂) :
    Along unit L R (xs ++ ys) R₂ := by
  induction h₁ with
  | nil => exact h₂
  | label hl _ ih => exact .label hl (ih h₂)
  | instr hi _ ih => exact .instr hi (ih h₂)

theorem mono (h : Along unit L R xs R₁) (hL : L <+: L') : Along unit L' R xs R₁ := by
  induction h with
  | nil => exact .nil _
  | label hl _ ih => exact .label (hl.mono hL) ih
  | instr hi _ ih => exact .instr (hi.mono hL) ih

end Along

/-! ## Drafts -/

/-- `L` has what is open at each label that the code knows. -/
def Draft.Scene.Knows (unit : String) (L : List Context) (σ : Scene) : Prop :=
  ∀ l κ, (l, some κ) ∈ σ.labels → ∃ n, l = .nth unit n ∧ L[n]? = some κ

namespace Draft.Scene.Knows

variable {unit : String} {L L' : List Context} {σ : Scene}

theorem mono (h : σ.Knows unit L) (hL : L <+: L') : σ.Knows unit L' := by
  intro l κ hl
  obtain ⟨n, rfl, hn⟩ := h l κ hl
  obtain ⟨more, rfl⟩ := hL
  exact ⟨n, rfl, by rw [List.getElem?_append_left (List.getElem?_eq_some_iff.mp hn).1, hn]⟩

/-- Each label that the code knows has its part of what is open there. -/
theorem hasLevel (h : σ.Knows unit L) {l : Label} {κ : Context} (hl : (l, some κ) ∈ σ.labels)
    (f : Context → List Nat) : l.HasLevel unit (L.map f) (f κ) := by
  obtain ⟨n, rfl, hn⟩ := h l κ hl
  exact ⟨n, rfl, by rw [List.getElem?_map, hn]; rfl⟩

end Draft.Scene.Knows

/-- At the beginning of a unit only the place where it is left is known. -/
theorem Draft.Scene.knows_unit {env : Env} {L : List Context} :
    (unit env).Knows env.unit ({} :: L) := by
  intro l κ hl
  cases List.mem_singleton.mp hl
  exact ⟨0, rfl, rfl⟩

theorem Op.Fits.offStack {env : Env} {E : Prop} {σ : Scene} {o : Op Label} (h : o.Fits env E σ) :
    o.OffStack :=
  ⟨fun hd => (h.writes _ hd).2 rfl, fun hd => (h.writes _ hd).1.2 rfl, h.stores⟩

theorem Op.Steps.shifts {env : Env} {E : Prop} {σ : Scene} {o : Op Label} {κ : Context}
    {L : List Context} (h : o.Steps env E σ κ) (hσ : σ.Knows env.unit L) :
    o.Shifts env.unit (L.map (·.rooms)) σ.rooms κ.rooms := by
  cases h with
  | plain h hκ =>
    rw [hκ.rooms]
    refine .other h.offStack fun l hl => ?_
    rcases h.flows l hl with herror | ⟨κ', hmem, -, hrooms⟩
    · exact .inr herror
    · rw [Scene.rooms, ← hrooms]
      exact .inl (hσ.hasLevel hmem (·.rooms))
  | reserve words => exact .reserve words
  | giveBack words h =>
    rw [h]
    exact .giveBack words
  | pass h hk =>
    rw [Scene.rooms] at h
    rw [Scene.rooms, h]
    exact .pass _ hk

end ChocoRV
