import Mathlib
import ChocoRV.Alloc.Liveness

/-!
# Operands

The registers that an operation mentions, and where control goes after it.
-/

namespace ChocoRV

namespace Flow

variable {τ : Type}

/-- Control may go on with the next instruction. -/
def falls : Flow τ → Bool
  | .next | .branch _ => true
  | .jump _ | .exit => false

/-- The label at which control may go on. -/
def target? : Flow τ → Option τ
  | .jump t | .branch t => some t
  | .next | .exit => none

end Flow

theorem Reg.virt?_eq_some_iff {r : Reg} {v : Nat} : r.virt? = some v ↔ r = .virt v := by
  cases r <;> simp [Reg.virt?]

namespace Op

variable {τ : Type} {o : Op τ} {v : Nat}

/-- The registers that an operation mentions. -/
def regs (o : Op τ) : List Reg := o.def?.toList ++ o.uses

theorem virtDef?_eq_some_iff : o.virtDef? = some v ↔ o.def? = some (.virt v) := by
  simp [virtDef?, Option.bind_eq_some_iff, Reg.virt?_eq_some_iff]

theorem mem_virtUses_iff : v ∈ o.virtUses ↔ .virt v ∈ o.uses := by
  simp [virtUses, Reg.virt?_eq_some_iff]

theorem mem_virts_iff : v ∈ o.virts ↔ .virt v ∈ o.regs := by
  simp [virts, regs, virtDef?_eq_some_iff, mem_virtUses_iff]

theorem hasVirt_eq_false_iff : o.hasVirt = false ↔ ∀ v, .virt v ∉ o.regs := by
  have hvirt (r : Reg) : r.isVirt = true ↔ ∃ v, r = .virt v := by
    cases r <;> simp [Reg.isVirt, Reg.virt?]
  rw [← Bool.not_eq_true, hasVirt, Bool.or_eq_true, Option.any_eq_true, List.any_eq_true]
  simp only [hvirt, regs, List.mem_append, Option.mem_toList]
  constructor
  · rintro h v (hv | hv)
    · exact h (.inl ⟨_, hv, v, rfl⟩)
    · exact h (.inr ⟨_, hv, v, rfl⟩)
  · rintro h (⟨r, hr, v, rfl⟩ | ⟨r, hr, v, rfl⟩)
    · exact h v (.inl hr)
    · exact h v (.inr hr)

/-- No operation reads more than two registers. -/
theorem length_uses_le (o : Op τ) : o.uses.length ≤ 2 := by
  cases o <;> simp [uses]

@[simp] theorem target?_mapRegs (f g : Reg → Reg) (o : Op τ) :
    (o.mapRegs f g).target? = o.target? := by
  cases o <;> rfl

/-- An operation whose operands stay as they are stays as it is. -/
theorem mapRegs_of_eq {f g : Reg → Reg} (hf : ∀ r ∈ o.uses, f r = r) (hg : ∀ r ∈ o.def?, g r = r) :
    o.mapRegs f g = o := by
  cases o <;> simp_all [mapRegs, uses, def?]

end Op

end ChocoRV
