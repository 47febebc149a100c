import Mathlib
import ChocoRV.Proofs.Alloc.Surround

/-!
# Liveness is exact

A temporary is live before an instruction if and only if control can go from there to an instruction
that reads it, with no instruction on the way that writes it. `GoesTo` says where control can go in
a stream, in terms of its instructions and labels alone; the successors of the flow graph are
exactly that (`FlowGraph.mem_succ_iff`). What is live lies on such a path because the temporaries
with a path form a closed family, and every path makes its temporary live, from its end backwards.
-/

namespace ChocoRV

open Assembly

/-! ## Control in a stream -/

/-- Instruction `t` comes right after the last label called `name`. -/
def LabelAt (items : List Item) (name : String) (t : Nat) : Prop :=
  ∃ pre l post, items = pre ++ .label l :: post ∧ l.name = name ∧ t = (instrs pre).length ∧
    ∀ l' ∈ labels post, l'.name ≠ name

/-- Control can go from instruction `k` of a stream to instruction `t`. -/
inductive GoesTo (items : List Item) (k : Nat) : Nat → Prop
  /-- On to the next instruction, from all but jumps. -/
  | next {i : Instr} (hi : (instrs items)[k]? = some i) (hjump : ∀ l, i.op ≠ .jump l)
      (hreg : ∀ r, i.op ≠ .jumpReg r) (ht : k + 1 < (instrs items).length) : GoesTo items k (k + 1)
  /-- To the label of a jump. -/
  | jump {i : Instr} {l : Label} {t : Nat} (hi : (instrs items)[k]? = some i) (hop : i.op = .jump l)
      (hl : LabelAt items l.name t) (ht : t < (instrs items).length) : GoesTo items k t
  /-- To the label of a branch. -/
  | branch {i : Instr} {l : Label} {t : Nat} (hi : (instrs items)[k]? = some i)
      (hop : (∃ c a b, i.op = .branch c a b l) ∨ ∃ c a, i.op = .branchZero c a l)
      (hl : LabelAt items l.name t) (ht : t < (instrs items).length) : GoesTo items k t

/-- Instruction `k` reads temporary `v`. -/
def ReadsAt (items : List Item) (v k : Nat) : Prop :=
  ∃ i, (instrs items)[k]? = some i ∧ .virt v ∈ i.op.uses

/-- Instruction `k` writes temporary `v`. -/
def WritesAt (items : List Item) (v k : Nat) : Prop :=
  ∃ i, (instrs items)[k]? = some i ∧ i.op.def? = some (.virt v)

/-- Control can go from instruction `k` to one that reads `v`, along instructions that do not write
`v`. -/
def ReachesRead (items : List Item) (v k : Nat) : Prop :=
  ∃ (m : Nat) (path : Nat → Nat), path 0 = k ∧ (∀ j < m, GoesTo items (path j) (path (j + 1))) ∧
    ReadsAt items v (path m) ∧ ∀ j < m, ¬ WritesAt items v (path j)

variable {items : List Item} {k t v : Nat}

theorem ReachesRead.of_reads (h : ReadsAt items v k) : ReachesRead items v k :=
  ⟨0, fun _ => k, rfl, fun _ hj => absurd hj (Nat.not_lt_zero _), h,
    fun _ hj => absurd hj (Nat.not_lt_zero _)⟩

theorem ReachesRead.of_goesTo (hstep : GoesTo items k t) (hw : ¬ WritesAt items v k)
    (h : ReachesRead items v t) : ReachesRead items v k := by
  obtain ⟨m, path, rfl, hpath, hread, hkeep⟩ := h
  refine ⟨m + 1, fun j => Nat.casesOn j k path, rfl, fun j hj => ?_, hread, fun j hj => ?_⟩
  · cases j with
    | zero => exact hstep
    | succ j => exact hpath j (Nat.lt_of_succ_lt_succ hj)
  · cases j with
    | zero => exact hw
    | succ j => exact hkeep j (Nat.lt_of_succ_lt_succ hj)

/-! ## The flow graph -/

namespace FlowGraph

/-- Of several labels of one name the table has the last one; a name without a label has the entry
from before. -/
theorem getElem?_foldl_positions {name : String} {table : Std.ExtTreeMap String Nat} (j : Nat) :
    ((positions j items).foldl (fun table entry => table.insert entry.1 entry.2) table)[name]? =
      some t ↔
    (∃ s, LabelAt items name s ∧ t = j + s) ∨
      (∀ l ∈ labels items, l.name ≠ name) ∧ table[name]? = some t := by
  induction items generalizing j table with
  | nil =>
    have hnone (s : Nat) : ¬ LabelAt [] name s := by
      rintro ⟨pre, l, post, hsplit, -⟩
      exact absurd hsplit (by simp)
    simp [positions, labels, hnone]
  | cons i items ih =>
    cases i with
    | label l =>
      rw [positions, List.foldl_cons, ih]
      have hlabels : labels (.label l :: items) = l :: labels items := rfl
      have hinsert : (table.insert l.name j)[name]? =
          if l.name = name then some j else table[name]? := by
        simp only [Std.ExtTreeMap.getElem?_insert, Std.compare_eq_iff_eq]
      rw [hlabels, List.forall_mem_cons, hinsert]
      constructor
      · rintro (⟨s, ⟨pre, l', post, rfl, hname, rfl, hlast⟩, rfl⟩ | ⟨hrest, htable⟩)
        · exact .inl ⟨_, ⟨.label l :: pre, l', post, rfl, hname, rfl, hlast⟩, rfl⟩
        · by_cases hl : l.name = name
          · rw [if_pos hl] at htable
            cases htable
            exact .inl ⟨0, ⟨[], l, items, rfl, hl, rfl, hrest⟩, rfl⟩
          · rw [if_neg hl] at htable
            exact .inr ⟨⟨hl, hrest⟩, htable⟩
      · rintro (⟨s, ⟨pre, l', post, hsplit, hname, rfl, hlast⟩, rfl⟩ | ⟨⟨hl, hrest⟩, htable⟩)
        · cases pre with
          | nil =>
            cases hsplit
            exact .inr ⟨hlast, if_pos hname⟩
          | cons p pre =>
            cases hsplit
            exact .inl ⟨_, ⟨pre, l', post, rfl, hname, rfl, hlast⟩, rfl⟩
        · exact .inr ⟨hrest, by rw [if_neg hl, htable]⟩
    | instr i =>
      rw [positions, ih]
      have hlabels : labels (.instr i :: items) = labels items := rfl
      rw [hlabels]
      refine or_congr_left ?_
      constructor
      · rintro ⟨s, ⟨pre, l, post, rfl, hname, rfl, hlast⟩, rfl⟩
        refine ⟨_, ⟨.instr i :: pre, l, post, rfl, hname, rfl, hlast⟩, ?_⟩
        rw [instrs_cons_instr, List.length_cons]
        omega
      · rintro ⟨s, ⟨pre, l, post, hsplit, hname, rfl, hlast⟩, rfl⟩
        cases pre with
        | nil => cases hsplit
        | cons p pre =>
          cases hsplit
          refine ⟨_, ⟨pre, l, post, rfl, hname, rfl, hlast⟩, ?_⟩
          rw [instrs_cons_instr, List.length_cons]
          omega

theorem getElem?_labelTable {name : String} :
    (labelTable items)[name]? = some t ↔ LabelAt items name t := by
  rw [labelTable, getElem?_foldl_positions]
  simp

/-- The successors of the flow graph are where control can go. -/
theorem mem_succ_iff : t ∈ (ofItems items).succ k ↔ GoesTo items k t := by
  have hnext {n : Nat} : t ∈ (if k + 1 < n then [k + 1] else []) ↔ t = k + 1 ∧ k + 1 < n := by
    split <;> simp [*]
  have htarget {l : Label} {n : Nat} : t ∈ ((labelTable items)[l.name]?.filter (· < n)).toList ↔
      LabelAt items l.name t ∧ t < n := by
    rw [Option.mem_toList, ← Option.mem_def, Option.mem_filter_iff, Option.mem_def,
      getElem?_labelTable, decide_eq_true_iff]
  constructor
  · intro h
    cases hi : (instrs items)[k]? with
    | none =>
      rw [succ, Array.getD_eq_getD_getElem?, Array.getElem?_eq_none] at h
      · exact absurd h List.not_mem_nil
      · simpa [ofItems] using hi
    | some i =>
      rw [succ_ofItems hi, succsOf] at h
      cases hop : i.op with
      | jump l =>
        rw [hop] at h
        obtain ⟨hl, ht⟩ := htarget.mp h
        exact .jump hi hop hl ht
      | jumpReg r =>
        rw [hop] at h
        exact absurd h List.not_mem_nil
      | branch c a b l =>
        rw [hop] at h
        rcases List.mem_append.mp h with h | h
        · obtain ⟨rfl, ht⟩ := hnext.mp h
          exact .next hi (by simp [hop]) (by simp [hop]) ht
        · obtain ⟨hl, ht⟩ := htarget.mp h
          exact .branch hi (.inl ⟨c, a, b, hop⟩) hl ht
      | branchZero c a l =>
        rw [hop] at h
        rcases List.mem_append.mp h with h | h
        · obtain ⟨rfl, ht⟩ := hnext.mp h
          exact .next hi (by simp [hop]) (by simp [hop]) ht
        · obtain ⟨hl, ht⟩ := htarget.mp h
          exact .branch hi (.inr ⟨c, a, hop⟩) hl ht
      | _ =>
        rw [hop] at h
        obtain ⟨rfl, ht⟩ := hnext.mp h
        exact .next hi (by simp [hop]) (by simp [hop]) ht
  · intro h
    cases h with
    | next hi hjump hreg ht =>
      rename_i i
      refine mem_succ_of_falls hi ?_ ht
      cases hop : i.op with
      | jump l => exact absurd hop (hjump l)
      | jumpReg r => exact absurd hop (hreg r)
      | _ => rfl
    | jump hi hop hl ht =>
      rw [succ_ofItems hi, succsOf, hop]
      exact htarget.mpr ⟨hl, ht⟩
    | branch hi hop hl ht =>
      rw [succ_ofItems hi, succsOf]
      rcases hop with ⟨c, a, b, hop⟩ | ⟨c, a, hop⟩
      · rw [hop]
        exact List.mem_append_right _ (htarget.mpr ⟨hl, ht⟩)
      · rw [hop]
        exact List.mem_append_right _ (htarget.mpr ⟨hl, ht⟩)

/-- The temporaries with a path to a read form a closed family. -/
theorem closed_reachesRead (items : List Item) :
    (ofItems items).Closed fun k v => ReachesRead items v k := by
  have hinstr {k : Nat} {o : Op Label} (ho : (ofItems items).ops[k]? = some o) :
      ∃ i, (instrs items)[k]? = some i ∧ i.op = o := by
    rw [getElem?_ops] at ho
    exact Option.map_eq_some_iff.mp ho
  refine ⟨fun {k v o} ho hv => ?_, fun {k s v o} ho hs hv => ?_⟩
  · obtain ⟨i, hi, rfl⟩ := hinstr ho
    exact .of_reads ⟨i, hi, Op.mem_virtUses_iff.mp hv⟩
  · obtain ⟨i, hi, rfl⟩ := hinstr ho
    by_cases hw : i.op.virtDef? = some v
    · exact .inl hw
    · refine .inr (.of_goesTo (mem_succ_iff.mp hs) ?_ hv)
      rintro ⟨i', hi', hdef⟩
      cases hi.symm.trans hi'
      exact hw (Op.virtDef?_eq_some_iff.mpr hdef)

theorem mem_liveIn_of_reads (h : ReadsAt items v k) :
    v ∈ (Liveness.ofItems items).liveIn.getD k ∅ := by
  obtain ⟨i, hi, huse⟩ := h
  have ho : (ofItems items).ops[k]? = some i.op := by rw [getElem?_ops, hi]; rfl
  exact (mem_liveIn ho).mpr (.inl (Op.mem_virtUses_iff.mpr huse))

theorem mem_liveOut_iff : v ∈ (Liveness.ofItems items).liveOut.getD k ∅ ↔
    ∃ t, GoesTo items k t ∧ v ∈ (Liveness.ofItems items).liveIn.getD t ∅ := by
  by_cases hk : k < (ofItems items).size
  · rw [Liveness.ofItems, mem_liveOut hk]
    simp only [mem_succ_iff]
  · have hsize : (Liveness.ofItems items).liveOut.size = (ofItems items).size :=
      (ofItems items).liveness_spec.2.1
    rw [Array.getD_eq_getD_getElem?, Array.getElem?_eq_none (by omega)]
    refine ⟨fun h => absurd h Std.ExtTreeSet.not_mem_empty, ?_⟩
    rintro ⟨t, hstep, -⟩
    have hi : ∃ i, (instrs items)[k]? = some i := by
      cases hstep with
      | next hi | jump hi | branch hi => exact ⟨_, hi⟩
    obtain ⟨i, hi⟩ := hi
    rw [size_ofItems] at hk
    exact absurd (List.getElem?_eq_some_iff.mp hi).1 hk

/-- Against the flow of control a live temporary stays live, up to an instruction that writes it. -/
theorem mem_liveIn_of_goesTo (hstep : GoesTo items k t) (hw : ¬ WritesAt items v k)
    (h : v ∈ (Liveness.ofItems items).liveIn.getD t ∅) :
    v ∈ (Liveness.ofItems items).liveIn.getD k ∅ := by
  have hi : ∃ i, (instrs items)[k]? = some i := by
    cases hstep with
    | next hi | jump hi | branch hi => exact ⟨_, hi⟩
  obtain ⟨i, hi⟩ := hi
  have ho : (ofItems items).ops[k]? = some i.op := by rw [getElem?_ops, hi]; rfl
  refine (mem_liveIn ho).mpr (.inr ⟨mem_liveOut_iff.mpr ⟨t, hstep, h⟩, fun hdef => ?_⟩)
  exact hw ⟨i, hi, Op.virtDef?_eq_some_iff.mp hdef⟩

theorem mem_liveIn_of_reachesRead (h : ReachesRead items v k) :
    v ∈ (Liveness.ofItems items).liveIn.getD k ∅ := by
  obtain ⟨m, path, rfl, hpath, hread, hkeep⟩ := h
  -- From the read backwards along the path.
  have hall : ∀ j ≤ m, v ∈ (Liveness.ofItems items).liveIn.getD (path (m - j)) ∅ := by
    intro j
    induction j with
    | zero => exact fun _ => mem_liveIn_of_reads hread
    | succ j ih =>
      intro hj
      have hlt : m - (j + 1) < m := by omega
      have hnext : m - (j + 1) + 1 = m - j := by omega
      refine mem_liveIn_of_goesTo (hpath _ hlt) (hkeep _ hlt) ?_
      rw [hnext]
      exact ih (Nat.le_of_succ_le hj)
  have hfirst := hall m (Nat.le_refl m)
  rwa [Nat.sub_self] at hfirst

end FlowGraph

/-- **Liveness is exact.** From empty sets a bounded number of sweeps leads to sets that a further
sweep does not change, and a further pass finds no set to change, neither before nor after an
instruction. There is one set before and one after each instruction; a temporary is live before an
instruction if and only if a path of control leads from there to a read with no write on the way,
and live after it if and only if it is live before something that can follow. -/
theorem liveness_exact (items : List Item) :
    (∃ n ≤ (FlowGraph.ofItems items).sweepBound,
      (Liveness.ofItems items).liveIn = (FlowGraph.ofItems items).sweep^[n]
        (Array.replicate (instrs items).length ∅) ∧
      (FlowGraph.ofItems items).sweep (Liveness.ofItems items).liveIn =
        (Liveness.ofItems items).liveIn) ∧
    (FlowGraph.ofItems items).pass (Liveness.ofItems items) = (Liveness.ofItems items, false) ∧
    (Liveness.ofItems items).liveIn.size = (instrs items).length ∧
    (Liveness.ofItems items).liveOut.size = (instrs items).length ∧
    ∀ k v, (v ∈ (Liveness.ofItems items).liveIn.getD k ∅ ↔ ReachesRead items v k) ∧
      (v ∈ (Liveness.ofItems items).liveOut.getD k ∅ ↔
        ∃ t, GoesTo items k t ∧ v ∈ (Liveness.ofItems items).liveIn.getD t ∅) := by
  obtain ⟨hgrowing, hfix⟩ := (FlowGraph.ofItems items).liveness_growing
  obtain ⟨-, hout, hsettled, n, hn, heq⟩ := (FlowGraph.ofItems items).liveness_spec
  have hsize := FlowGraph.size_ofItems items
  refine ⟨⟨n, hn, ?_, hfix⟩, FlowGraph.passBelow_of_settled hsettled, hgrowing.size.trans hsize,
    hout.trans hsize, fun k v => ⟨⟨?_, ?_⟩, FlowGraph.mem_liveOut_iff⟩⟩
  · rw [← hsize]
    exact heq
  · exact (FlowGraph.closed_reachesRead items).liveIn k v
  · exact FlowGraph.mem_liveIn_of_reachesRead

end ChocoRV
