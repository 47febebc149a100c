import Mathlib
import ChocoRV.Proofs.Alloc.LivePath

/-!
# Temporaries that meet do not share

The live interval of a temporary reaches from the first to the last instruction at which it is
needed: live before or after it, read or written by it. The scan gives every temporary of a stream
one location. Two of them share a register only if no instruction lies in both live intervals, and
they never share a frame word, so those that are needed at one instruction have different locations
(`allocation_interference_free`).
-/

namespace ChocoRV

open Assembly

/-- Temporary `v` is live before or after instruction `k`, or the instruction reads or writes it. -/
def NeededAt (items : List Item) (v k : Nat) : Prop :=
  v ∈ (Liveness.ofItems items).liveIn.getD k ∅ ∨ v ∈ (Liveness.ofItems items).liveOut.getD k ∅ ∨
    ReadsAt items v k ∨ WritesAt items v k

/-- Instruction `k` lies in the live interval of `v`. -/
def InLiveInterval (items : List Item) (v k : Nat) : Prop :=
  ∃ first last, NeededAt items v first ∧ NeededAt items v last ∧ first ≤ k ∧ k ≤ last

/-- The stream mentions temporary `v`. -/
def Mentions (items : List Item) (v : Nat) : Prop := ∃ i ∈ instrs items, .virt v ∈ i.op.regs

/-- The intervals of a stream, in the order of the scan. -/
def Interval.ofItems (items : List Item) : List Interval :=
  Interval.all (FlowGraph.ofItems items) (Liveness.ofItems items)

variable {items : List Item} {v k : Nat}

theorem NeededAt.inLiveInterval (h : NeededAt items v k) : InLiveInterval items v k :=
  ⟨k, k, h, h, Nat.le_refl k, Nat.le_refl k⟩

theorem mem_occupants_iff :
    v ∈ Interval.occupants (FlowGraph.ofItems items) (Liveness.ofItems items) k ↔
      NeededAt items v k := by
  rw [Interval.occupants, Std.ExtTreeSet.mem_union_iff, Std.ExtTreeSet.mem_union_iff, NeededAt,
    or_assoc, FlowGraph.getElem?_ops, ReadsAt, WritesAt]
  refine or_congr_right (or_congr_right ?_)
  rw [Std.ExtTreeSet.mem_ofList, List.contains_iff_mem]
  cases (instrs items)[k]? with
  | none => simp
  | some i => simp [Op.mem_virts_iff, Op.regs, or_comm]

theorem NeededAt.lt (h : NeededAt items v k) : k < (instrs items).length := by
  have hinstr {i : Instr} (hi : (instrs items)[k]? = some i) : k < (instrs items).length :=
    (List.getElem?_eq_some_iff.mp hi).1
  rcases h with hin | hout | ⟨i, hi, -⟩ | ⟨i, hi, -⟩
  · rw [← FlowGraph.size_ofItems]
    exact FlowGraph.lt_of_mem_liveIn hin
  · obtain ⟨t, hstep, -⟩ := FlowGraph.mem_liveOut_iff.mp hout
    cases hstep with
    | next hi | jump hi | branch hi => exact hinstr hi
  · exact hinstr hi
  · exact hinstr hi

/-- Only temporaries of the stream are live. -/
theorem mentions_of_mem_liveIn (h : v ∈ (Liveness.ofItems items).liveIn.getD k ∅) :
    Mentions items v := by
  have hvirts := (FlowGraph.ofItems items).liveness_growing.1.mentioned k v h
  obtain ⟨o, ho, hv⟩ := FlowGraph.mem_virts.mp hvirts
  obtain ⟨i, hi, rfl⟩ := List.mem_map.mp ho
  exact ⟨i, hi, Op.mem_virts_iff.mp hv⟩

theorem NeededAt.mentions (h : NeededAt items v k) : Mentions items v := by
  rcases h with hin | hout | ⟨i, hi, huse⟩ | ⟨i, hi, hdef⟩
  · exact mentions_of_mem_liveIn hin
  · obtain ⟨t, -, hin⟩ := FlowGraph.mem_liveOut_iff.mp hout
    exact mentions_of_mem_liveIn hin
  · exact ⟨i, List.mem_of_getElem? hi, List.mem_append_right _ huse⟩
  · exact ⟨i, List.mem_of_getElem? hi, List.mem_append_left _ (Option.mem_toList.mpr hdef)⟩

theorem Mentions.exists_neededAt (h : Mentions items v) : ∃ k, NeededAt items v k := by
  obtain ⟨i, hi, hv⟩ := h
  obtain ⟨k, hk⟩ := List.mem_iff_getElem?.mp hi
  rcases List.mem_append.mp hv with hdef | huse
  · exact ⟨k, .inr (.inr (.inr ⟨i, hk, Option.mem_toList.mp hdef⟩))⟩
  · exact ⟨k, .inr (.inr (.inl ⟨i, hk, huse⟩))⟩

/-! ## The intervals of a stream -/

namespace Interval

theorem vreg_inj {i j : Interval} (hi : i ∈ ofItems items) (hj : j ∈ ofItems items)
    (h : i.vreg = j.vreg) : i = j :=
  List.inj_on_of_nodup_map (all_nodup _ _) hi hj h

/-- What a live interval contains is what the interval of the scan contains. -/
theorem inLiveInterval_iff : InLiveInterval items v k ↔
    ∃ i ∈ ofItems items, i.vreg = v ∧ i.start ≤ k ∧ k ≤ i.stop := by
  have hsize := FlowGraph.size_ofItems items
  constructor
  · rintro ⟨first, last, hfirst, hlast, hk, hk'⟩
    obtain ⟨i, hi, hiv, hstart, -⟩ := mem_all (hsize ▸ hfirst.lt) (mem_occupants_iff.mpr hfirst)
    obtain ⟨j, hj, hjv, -, hstop⟩ := mem_all (hsize ▸ hlast.lt) (mem_occupants_iff.mpr hlast)
    have hij : i = j := vreg_inj hi hj (hiv.trans hjv.symm)
    subst hij
    exact ⟨i, hi, hiv, hstart.trans hk, hk'.trans hstop⟩
  · rintro ⟨i, hi, rfl, hstart, hstop⟩
    obtain ⟨-, -, hfirst, hlast⟩ := ends_of_mem_all hi
    exact ⟨i.start, i.stop, mem_occupants_iff.mp hfirst, mem_occupants_iff.mp hlast, hstart, hstop⟩

/-- The stream mentions exactly the temporaries with an interval. -/
theorem mentions_iff : Mentions items v ↔ ∃ i ∈ ofItems items, i.vreg = v := by
  constructor
  · intro h
    obtain ⟨k, hk⟩ := h.exists_neededAt
    obtain ⟨i, hi, hiv, -⟩ := inLiveInterval_iff.mp hk.inLiveInterval
    exact ⟨i, hi, hiv⟩
  · rintro ⟨i, hi, rfl⟩
    exact (mem_occupants_iff.mp (ends_of_mem_all hi).2.2.1).mentions

end Interval

/-! ## Allocations -/

/-- What an allocation of a stream does with the temporaries: every one that the stream mentions,
and no other, has a location. -/
structure InterferenceFree (items : List Item) (pool : List PhysReg) (base : Int32)
    (alloc : Allocation) : Prop where
  placed (v : Nat) : (∃ loc, alloc.assignment[v]? = some loc) ↔ Mentions items v
  /-- Temporaries with the same register have live intervals without a common instruction. -/
  disjoint {v w : Nat} {p : PhysReg} (hv : alloc.assignment[v]? = some (.reg p))
    (hw : alloc.assignment[w]? = some (.reg p)) (hne : v ≠ w) (k : Nat) :
    ¬ (InLiveInterval items v k ∧ InLiveInterval items w k)
  /-- Temporaries that are needed at the same instruction have different locations. -/
  apart {v w k : Nat} (hv : NeededAt items v k) (hw : NeededAt items w k) (hne : v ≠ w) :
    alloc.assignment[v]? ≠ alloc.assignment[w]?
  /-- Every spilled temporary has one of the first `spillSlots` words down from `base`. -/
  spilled {v : Nat} {o : Int32} (hv : alloc.assignment[v]? = some (.spill o)) :
    ∃ j < alloc.spillSlots, o.toInt = base.toInt - 4 * j
  /-- Each of these words belongs to one temporary, and an access from `fp` can reach it. -/
  slots : ∀ j < alloc.spillSlots, -2048 ≤ base.toInt - 4 * j ∧
    ∃! v : Nat, ∃ o, alloc.assignment[v]? = some (.spill o) ∧ o.toInt = base.toInt - 4 * j
  /-- The used registers come in pool order. -/
  order : alloc.used.Sublist pool
  used (p : PhysReg) : p ∈ alloc.used ↔ ∃ v : Nat, alloc.assignment[v]? = some (.reg p)

/-- **Allocation is interference-free**, for every stream and every pool without repetition. -/
theorem allocation_interference_free {items : List Item} {pool : List PhysReg} {base : Int32}
    {function : String} {alloc : Allocation} (hpool : pool.Nodup)
    (h : Allocation.allocate items pool base function = .ok alloc) :
    InterferenceFree items pool base alloc := by
  obtain ⟨final, hfinal, h⟩ := bind_eq_ok_iff.mp h
  cases h
  obtain ⟨t, hsound⟩ := Scan.sound_of_run hpool (Interval.all_sorted _ _) (Interval.all_nodup _ _)
    hfinal
  have hinterval {i : Interval} (hi : i ∈ Interval.ofItems items) :
      i ∈ (Interval.all (FlowGraph.ofItems items) (FlowGraph.ofItems items).liveness).reverse :=
    List.mem_reverse.mpr hi
  have hplaced (v : Nat) : (∃ loc, final.assignment[v]? = some loc) ↔ Mentions items v := by
    rw [Interval.mentions_iff]
    constructor
    · rintro ⟨loc, hloc⟩
      obtain ⟨i, hi, hiv⟩ := hsound.visited hloc
      exact ⟨i, List.mem_reverse.mp hi, hiv⟩
    · rintro ⟨i, hi, rfl⟩
      exact hsound.placed i (hinterval hi)
  have hdisjoint {v w : Nat} {p : PhysReg} (hv : final.assignment[v]? = some (.reg p))
      (hw : final.assignment[w]? = some (.reg p)) (hne : v ≠ w) (k : Nat) :
      ¬ (InLiveInterval items v k ∧ InLiveInterval items w k) := by
    rw [Interval.inLiveInterval_iff, Interval.inLiveInterval_iff]
    rintro ⟨⟨i, hi, rfl, hstart, hstop⟩, j, hj, rfl, hstart', hstop'⟩
    rcases hsound.apart (hinterval hi) (hinterval hj) hne hv hw with hlt | hlt
    · omega
    · omega
  have hmin : Scan.minOffset.toInt = -2048 := rfl
  have hoffset {j : Nat} (hj : j < final.spills) :
      (Scan.spillOffset base j).toInt = base.toInt - 4 * j := by
    have hreach : Scan.minOffset.toInt ≤ base.toInt - 4 * j := hsound.reach j hj
    exact Scan.toInt_spillOffset (by omega)
  refine {
    placed := hplaced
    disjoint := hdisjoint
    apart := ?_
    spilled := ?_
    slots := ?_
    order := List.filter_sublist
    used := ?_ }
  · intro v w k hv hw hne heq
    obtain ⟨loc, hloc⟩ := (hplaced v).mpr hv.mentions
    cases loc with
    | reg p =>
      exact hdisjoint hloc (heq.symm.trans hloc) hne k
        ⟨hv.inLiveInterval, hw.inLiveInterval⟩
    | spill o => exact hne (hsound.alone hloc (heq.symm.trans hloc))
  · intro v o hv
    obtain ⟨j, hj, rfl⟩ := hsound.spilled hv
    exact ⟨j, hj, hoffset hj⟩
  · intro j hj
    refine ⟨hsound.reach j hj, ?_⟩
    obtain ⟨v, hv⟩ := hsound.given j hj
    refine ⟨v, ⟨_, hv, hoffset hj⟩, ?_⟩
    rintro w ⟨o, hw, ho⟩
    have heq : o = Scan.spillOffset base j := Int32.toInt_inj.mp (ho.trans (hoffset hj).symm)
    exact hsound.alone (heq ▸ hw) hv
  · intro p
    simp only [List.mem_filter, List.any_eq_true, beq_iff_eq, Prod.exists,
      Std.ExtTreeMap.mem_toList_iff_getElem?_eq_some]
    constructor
    · rintro ⟨-, v, loc, hv, rfl⟩
      exact ⟨v, hv⟩
    · rintro ⟨v, hv⟩
      exact ⟨hsound.reg hv, v, _, hv, rfl⟩

/-- Two temporaries that live to the end and a short one between them. -/
def shortBetween : List Item :=
  [.op (.li (.virt 0) 1), .op (.li (.virt 1) 2), .op (.li (.virt 2) 3), .op (.mv .a1 (.virt 2)),
    .op (.add .a0 (.virt 0) (.virt 1))]

/-- With two registers the third temporary takes over the register of one that moves to the
frame. -/
theorem shortBetween_interference_free :
    [PhysReg.s1, .s2].Nodup ∧ ∃ alloc,
      Allocation.allocate shortBetween [.s1, .s2] (-12) "between" = .ok alloc ∧
      alloc.assignment[1]? = some (.spill (-12)) ∧ alloc.assignment[2]? = some (.reg .s2) ∧
      InterferenceFree shortBetween [.s1, .s2] (-12) alloc := by
  have hpool : [PhysReg.s1, .s2].Nodup := by decide
  have hplaces : (Allocation.allocate shortBetween [.s1, .s2] (-12) "between").toOption.map
      (fun a => (a.assignment[1]?, a.assignment[2]?)) =
        some (some (.spill (-12)), some (.reg .s2)) := by decide +kernel
  obtain ⟨alloc, halloc, hplaces⟩ := Option.map_eq_some_iff.mp hplaces
  have hok := toOption_eq_some_iff.mp halloc
  obtain ⟨hone, htwo⟩ := Prod.mk.inj hplaces
  exact ⟨hpool, alloc, hok, hone, htwo, allocation_interference_free hpool hok⟩

end ChocoRV
