import Mathlib
import ChocoRV.Alloc.Allocation
import ChocoRV.Proofs.Machine.Load
import ChocoRV.Proofs.Operand

/-!
# What becomes of a stream

Placing temporaries turns each instruction into a few and leaves labels and targets alone. Here is
where the instructions that come of instruction `k` stand in the new stream.
-/

namespace ChocoRV

open Assembly

namespace Assignment

theorem labels_reloads (asg : Assignment) (entries : List (Nat × PhysReg)) :
    labels (entries.map asg.reloadItem) = [] ∧ targets (entries.map asg.reloadItem) = [] := by
  induction entries with
  | nil => exact ⟨rfl, rfl⟩
  | cons e entries ih => exact ih

theorem labels_spillItems (asg : Assignment) (o : Op Label) :
    labels (asg.spillItems o) = [] ∧ targets (asg.spillItems o) = [] := by
  unfold spillItems
  split
  · split <;> exact ⟨rfl, rfl⟩
  · exact ⟨rfl, rfl⟩

theorem labels_apply (asg : Assignment) (items : List Item) :
    labels (asg.apply items) = labels items ∧ targets (asg.apply items) = targets items := by
  induction items with
  | nil => exact ⟨rfl, rfl⟩
  | cons i items ih =>
    obtain ⟨hl, ht⟩ := ih
    have happly : asg.apply (i :: items) = asg.applyItem i ++ asg.apply items := rfl
    rw [happly, labels_append, targets_append, hl, ht]
    cases i with
    | label l => exact ⟨rfl, rfl⟩
    | instr i =>
      simp [applyItem, applyInstr, labels_reloads, labels_spillItems, targets_cons_instr]

/-- The instructions that come of one. -/
def expand (asg : Assignment) (i : Instr) : List Instr := instrs (asg.applyInstr i)

theorem instrs_apply (asg : Assignment) (items : List Item) :
    instrs (asg.apply items) = (instrs items).flatMap asg.expand := by
  induction items with
  | nil => rfl
  | cons i items ih =>
    have happly : asg.apply (i :: items) = asg.applyItem i ++ asg.apply items := rfl
    rw [happly, instrs_append, ih]
    cases i with
    | label l => rfl
    | instr i => rw [instrs_cons_instr, List.flatMap_cons]; rfl

theorem apply_append (asg : Assignment) (xs ys : List Item) :
    asg.apply (xs ++ ys) = asg.apply xs ++ asg.apply ys :=
  List.flatMap_append

/-- A stream without temporaries stays as it is. -/
theorem apply_of_no_virts (asg : Assignment) {items : List Item}
    (h : ∀ i ∈ instrs items, i.op.virts = []) : asg.apply items = items := by
  induction items with
  | nil => rfl
  | cons i items ih =>
    have happly : asg.apply (i :: items) = asg.applyItem i ++ asg.apply items := rfl
    cases i with
    | label l => rw [happly, ih h]; rfl
    | instr i =>
      rw [instrs_cons_instr, List.forall_mem_cons] at h
      rw [happly, ih h.2]
      have hnone (v : Nat) : .virt v ∉ i.op.regs := by
        rw [← Op.mem_virts_iff, h.1]
        exact List.not_mem_nil
      have hvirts : i.op.virtDef? = none ∧ i.op.virtUses = [] := by
        have := h.1
        rw [Op.virts, List.append_eq_nil_iff, Option.toList_eq_nil_iff] at this
        exact this
      have hreloads : asg.reloads i.op = [] := by rw [reloads, hvirts.2]; rfl
      have hspill : asg.spillItems i.op = [] := by rw [spillItems, hvirts.1]
      have hop : i.op.mapRegs (asg.source []) asg.target = i.op := by
        refine Op.mapRegs_of_eq ?_ ?_
        · intro r hr
          cases r with
          | phys p => rfl
          | virt v => exact absurd (List.mem_append_right _ hr) (hnone v)
        · intro r hr
          cases r with
          | phys p => rfl
          | virt v => exact absurd (List.mem_append_left _ (Option.mem_toList.mpr hr)) (hnone v)
      rw [applyItem, applyInstr, hreloads, hspill, hop]
      rfl

/-- The number of instructions that come of the first `k` of a stream. -/
def offset (asg : Assignment) (is : List Instr) (k : Nat) : Nat :=
  ((is.take k).flatMap asg.expand).length

variable {asg : Assignment} {is : List Instr} {k : Nat} {i : Instr}

theorem offset_succ (h : is[k]? = some i) :
    asg.offset is (k + 1) = asg.offset is k + (asg.expand i).length := by
  rw [offset, offset, List.take_add_one, h, List.flatMap_append, List.length_append]
  simp

/-- The instructions that come of instruction `k`, with those before and after them. -/
theorem flatMap_expand_split (h : is[k]? = some i) :
    is.flatMap asg.expand = (is.take k).flatMap asg.expand ++
      (asg.expand i ++ (is.drop (k + 1)).flatMap asg.expand) := by
  obtain ⟨hk, hi⟩ := List.getElem?_eq_some_iff.mp h
  conv_lhs => rw [← List.take_append_drop k is, List.drop_eq_getElem_cons hk, hi]
  rw [List.flatMap_append, List.flatMap_cons]

end Assignment

end ChocoRV
