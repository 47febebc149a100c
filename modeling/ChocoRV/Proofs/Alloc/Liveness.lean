import Mathlib
import ChocoRV.Alloc.Liveness

/-!
# Liveness is a fixed point

The sets only grow from sweep to sweep and hold temporaries of the stream only, so the budget of
sweeps is enough to reach a fixed point. What is live before an instruction is then exactly what the
instruction reads and what is live after it and not written by it. The solution is the least family
of sets with that property (`FlowGraph.Closed.liveIn`).
-/

namespace ChocoRV

namespace FlowGraph

/-- What is live before instruction `k`, if `ins` is live before each instruction. -/
def inAt (g : FlowGraph) (ins : Array LiveSet) (k : Nat) : LiveSet := g.inFrom k (g.outAt ins k)

/-- The sets before the instructions below `k` brought up to date, the last one first. -/
def sweepBelow (g : FlowGraph) : Nat → Array LiveSet → Array LiveSet
  | 0, ins => ins
  | k + 1, ins => g.sweepBelow k (ins.setIfInBounds k (g.inAt ins k))

/-- What a pass does to the sets before the instructions. -/
def sweep (g : FlowGraph) (ins : Array LiveSet) : Array LiveSet := g.sweepBelow g.size ins

variable {g : FlowGraph} {ins ins' : Array LiveSet} {k j v : Nat}

/-! ## Membership -/

theorem mem_foldl_union {α : Type} {f : α → LiveSet} {xs : List α} {acc : LiveSet} :
    v ∈ xs.foldl (fun acc x => acc ∪ f x) acc ↔ v ∈ acc ∨ ∃ x ∈ xs, v ∈ f x := by
  induction xs generalizing acc with
  | nil => simp
  | cons x xs ih =>
    rw [List.foldl_cons, ih, Std.ExtTreeSet.mem_union_iff, List.exists_mem_cons_iff, or_assoc]

theorem mem_outAt : v ∈ g.outAt ins k ↔ ∃ s ∈ g.succ k, v ∈ ins.getD s ∅ := by
  rw [outAt, mem_foldl_union]
  simp only [Std.ExtTreeSet.not_mem_empty, false_or]

theorem mem_transfer {o : Op Label} {out : LiveSet} :
    v ∈ o.transfer out ↔ v ∈ o.virtUses ∨ v ∈ out ∧ o.virtDef? ≠ some v := by
  have hlist : v ∈ Std.ExtTreeSet.ofList o.virtUses ↔ v ∈ o.virtUses := by
    rw [Std.ExtTreeSet.mem_ofList, List.contains_iff_mem]
  rw [Op.transfer, Std.ExtTreeSet.mem_union_iff, hlist, or_comm]
  cases o.virtDef? with
  | none => simp
  | some t =>
    rw [Std.ExtTreeSet.mem_erase, ne_eq, Std.compare_eq_iff_eq, ne_eq, Option.some_inj, and_comm]

theorem mem_inAt : v ∈ g.inAt ins k ↔ ∃ o, g.ops[k]? = some o ∧
    (v ∈ o.virtUses ∨ v ∈ g.outAt ins k ∧ o.virtDef? ≠ some v) := by
  rw [inAt, inFrom]
  cases g.ops[k]? with
  | none => simp
  | some o => simp [mem_transfer]

theorem mem_virts : v ∈ g.virts ↔ ∃ o ∈ g.ops.toList, v ∈ o.virts := by
  rw [virts, ← Array.foldl_toList, mem_foldl_union]
  simp only [Std.ExtTreeSet.not_mem_empty, false_or, Std.ExtTreeSet.mem_ofList,
    List.contains_iff_mem]

theorem getD_setIfInBounds {x : LiveSet} (hk : k < ins.size) :
    (ins.setIfInBounds k x).getD j ∅ = if k = j then x else ins.getD j ∅ := by
  rw [Array.getD_eq_getD_getElem?, Array.getElem?_setIfInBounds, Array.getD_eq_getD_getElem?]
  by_cases hkj : k = j
  · rw [if_pos hkj, if_pos hkj, if_pos hk]
    rfl
  · rw [if_neg hkj, if_neg hkj]

/-! ## Sweeps only add -/

/-- Every set of `ins` is part of the one of `ins'`. -/
def Below (ins ins' : Array LiveSet) : Prop := ∀ k v, v ∈ ins.getD k ∅ → v ∈ ins'.getD k ∅

theorem Below.refl (ins : Array LiveSet) : Below ins ins := fun _ _ h => h

theorem Below.trans {ins'' : Array LiveSet} (h : Below ins ins') (h' : Below ins' ins'') :
    Below ins ins'' :=
  fun k v hv => h' k v (h k v hv)

theorem inAt_mono (h : Below ins ins') (hv : v ∈ g.inAt ins k) : v ∈ g.inAt ins' k := by
  obtain ⟨o, ho, hv⟩ := mem_inAt.mp hv
  refine mem_inAt.mpr ⟨o, ho, hv.imp_right fun ⟨hout, hdef⟩ => ⟨?_, hdef⟩⟩
  obtain ⟨s, hs, hsv⟩ := mem_outAt.mp hout
  exact mem_outAt.mpr ⟨s, hs, h s v hsv⟩

/-- What holds between sweeps: one set for each instruction, none larger than the next sweep would
make it, and nothing but temporaries of the stream. -/
structure Growing (g : FlowGraph) (ins : Array LiveSet) : Prop where
  size : ins.size = g.size
  ascends (k v : Nat) (h : v ∈ ins.getD k ∅) : v ∈ g.inAt ins k
  mentioned (k v : Nat) (h : v ∈ ins.getD k ∅) : v ∈ g.virts

theorem Growing.start (g : FlowGraph) : Growing g (Array.replicate g.size ∅) := by
  have hempty (k v : Nat) : v ∉ (Array.replicate g.size (∅ : LiveSet)).getD k ∅ := by
    rw [Array.getD_eq_getD_getElem?, Array.getElem?_replicate]
    split <;> exact Std.ExtTreeSet.not_mem_empty
  exact ⟨Array.size_replicate, fun k v h => absurd h (hempty k v), fun k v h =>
    absurd h (hempty k v)⟩

theorem Growing.inAt_mentioned (h : Growing g ins) (hv : v ∈ g.inAt ins k) : v ∈ g.virts := by
  obtain ⟨o, ho, hv⟩ := mem_inAt.mp hv
  rcases hv with huse | ⟨hout, -⟩
  · refine mem_virts.mpr ⟨o, ?_, List.mem_append_right _ huse⟩
    rw [← Array.getElem?_toList] at ho
    exact List.mem_of_getElem? ho
  · obtain ⟨s, -, hs⟩ := mem_outAt.mp hout
    exact h.mentioned s v hs

theorem Growing.set (h : Growing g ins) (hk : k < g.size) :
    Growing g (ins.setIfInBounds k (g.inAt ins k)) ∧
      Below ins (ins.setIfInBounds k (g.inAt ins k)) := by
  have hk' : k < ins.size := h.size ▸ hk
  have hbelow : Below ins (ins.setIfInBounds k (g.inAt ins k)) := by
    intro j v hv
    rw [getD_setIfInBounds hk']
    split
    · rename_i hkj
      exact hkj ▸ h.ascends j v hv
    · exact hv
  -- In the new array every set was there before or is what the old array makes of it.
  have hin (j v : Nat) (hv : v ∈ (ins.setIfInBounds k (g.inAt ins k)).getD j ∅) :
      v ∈ g.inAt ins j := by
    rw [getD_setIfInBounds hk'] at hv
    split at hv
    · rename_i hkj
      exact hkj ▸ hv
    · exact h.ascends j v hv
  refine ⟨⟨?_, fun j v hv => inAt_mono hbelow (hin j v hv), fun j v hv => ?_⟩, hbelow⟩
  · rw [Array.size_setIfInBounds, h.size]
  · exact h.inAt_mentioned (hin j v hv)

theorem Growing.sweepBelow (h : Growing g ins) (hk : k ≤ g.size) :
    Growing g (g.sweepBelow k ins) ∧ Below ins (g.sweepBelow k ins) := by
  induction k generalizing ins with
  | zero => exact ⟨h, .refl ins⟩
  | succ k ih =>
    obtain ⟨hset, hbelow⟩ := h.set (Nat.lt_of_succ_le hk)
    obtain ⟨hg, hb⟩ := ih hset (Nat.le_of_succ_le hk)
    exact ⟨hg, hbelow.trans hb⟩

/-! ## Few sweeps are enough -/

/-- The pairs of an instruction and a temporary live before it. -/
def pairs (g : FlowGraph) (ins : Array LiveSet) : Finset (Nat × Nat) :=
  (Finset.range g.size ×ˢ g.virts.toList.toFinset).filter fun p => p.2 ∈ ins.getD p.1 ∅

theorem card_pairs_le : (g.pairs ins).card ≤ g.size * g.virts.size := by
  calc (g.pairs ins).card
      ≤ (Finset.range g.size ×ˢ g.virts.toList.toFinset).card := Finset.card_filter_le _ _
    _ = g.size * g.virts.toList.toFinset.card := by rw [Finset.card_product, Finset.card_range]
    _ ≤ g.size * g.virts.toList.length := Nat.mul_le_mul_left _ (List.toFinset_card_le _)
    _ = g.size * g.virts.size := by rw [Std.ExtTreeSet.length_toList]

/-- Arrays of one length with the same sets are the same. -/
theorem Below.antisymm (hsize : ins.size = ins'.size) (h : Below ins ins') (h' : Below ins' ins) :
    ins = ins' := by
  refine Array.ext hsize fun k hk hk' => Std.ExtTreeSet.ext_mem fun v => ?_
  have e : ins.getD k ∅ = ins[k] := by simp [Array.getD, hk]
  have e' : ins'.getD k ∅ = ins'[k] := by simp [Array.getD, hk']
  rw [← e, ← e']
  exact ⟨h k v, h' k v⟩

/-- A sweep that changes something adds a pair. -/
theorem Growing.card_lt (h : Growing g ins) (h' : Growing g ins') (hbelow : Below ins ins')
    (hne : ins' ≠ ins) : (g.pairs ins).card < (g.pairs ins').card := by
  have hnot : ¬ Below ins' ins := fun hb =>
    hne (hb.antisymm (h'.size.trans h.size.symm) hbelow)
  simp only [Below, not_forall] at hnot
  obtain ⟨k, v, hv', hv⟩ := hnot
  have hk : k < g.size := by
    by_contra hk
    rw [Array.getD_eq_getD_getElem?, Array.getElem?_eq_none (by rw [h'.size]; omega)] at hv'
    exact Std.ExtTreeSet.not_mem_empty hv'
  refine Finset.card_lt_card ⟨fun p hp => ?_, fun hsub => ?_⟩
  · rw [pairs, Finset.mem_filter] at hp ⊢
    exact ⟨hp.1, hbelow p.1 p.2 hp.2⟩
  · have hp : (k, v) ∈ g.pairs ins' := by
      rw [pairs, Finset.mem_filter, Finset.mem_product, Finset.mem_range, List.mem_toFinset,
        Std.ExtTreeSet.mem_toList]
      exact ⟨⟨hk, h'.mentioned k v hv'⟩, hv'⟩
    have hp' := hsub hp
    rw [pairs, Finset.mem_filter] at hp'
    exact hv hp'.2

/-! ## The fixed point -/

theorem getElem?_sweepBelow_of_le (h : k ≤ j) : (g.sweepBelow k ins)[j]? = ins[j]? := by
  induction k generalizing ins with
  | zero => rfl
  | succ k ih =>
    rw [FlowGraph.sweepBelow, ih (Nat.le_of_succ_le h), Array.getElem?_setIfInBounds,
      if_neg (by omega)]

/-- Where a sweep changes nothing, each instruction has the set that it would be given. -/
theorem eq_inAt_of_sweepBelow (h : g.sweepBelow k ins = ins) (hk : k ≤ ins.size) (hj : j < k) :
    ins.getD j ∅ = g.inAt ins j := by
  induction k with
  | zero => exact absurd hj (Nat.not_lt_zero j)
  | succ k ih =>
    have hlast : ins[k]? = some (g.inAt ins k) := by
      have hget := congrArg (·[k]?) h
      simp only [FlowGraph.sweepBelow] at hget
      rw [getElem?_sweepBelow_of_le (Nat.le_refl k), Array.getElem?_setIfInBounds, if_pos rfl,
        if_pos (Nat.lt_of_succ_le hk)] at hget
      exact hget.symm
    have hsame : ins.setIfInBounds k (g.inAt ins k) = ins := by
      refine Array.ext_getElem? fun i => ?_
      rw [Array.getElem?_setIfInBounds]
      split
      · rename_i hki
        rw [if_pos (Nat.lt_of_succ_le hk), ← hki, hlast]
      · rfl
    rw [FlowGraph.sweepBelow, hsame] at h
    rcases Nat.lt_succ_iff_lt_or_eq.mp hj with hj | rfl
    · exact ih h (Nat.le_of_succ_le hk) hj
    · rw [Array.getD_eq_getD_getElem?, hlast]
      rfl

/-! ## Passes -/

/-- Every set is what the sets before the successors make of it. -/
def SettledBelow (g : FlowGraph) (k : Nat) (live : Liveness) : Prop :=
  ∀ j < k, g.inAt live.liveIn j = live.liveIn.getD j ∅ ∧
    g.outAt live.liveIn j = live.liveOut.getD j ∅

variable {live : Liveness}

theorem setIfInBounds_getD (ins : Array LiveSet) (k : Nat) :
    ins.setIfInBounds k (ins.getD k ∅) = ins := by
  refine Array.ext_getElem? fun i => ?_
  rw [Array.getElem?_setIfInBounds, Array.getD_eq_getD_getElem?]
  grind

/-- A pass sweeps the sets before the instructions, also where it finds nothing to change. -/
theorem liveIn_passBelow : (g.passBelow k live).1.liveIn = g.sweepBelow k live.liveIn := by
  induction k generalizing live with
  | zero => rfl
  | succ k ih =>
    rw [passBelow, FlowGraph.sweepBelow]
    dsimp only
    split
    · exact ih
    · next hsame =>
      have hin : g.inAt live.liveIn k = live.liveIn.getD k ∅ := not_not.mp (not_or.mp hsame).1
      rw [ih, hin, setIfInBounds_getD]

theorem size_liveOut_passBelow :
    (g.passBelow k live).1.liveOut.size = live.liveOut.size := by
  induction k generalizing live with
  | zero => rfl
  | succ k ih =>
    rw [passBelow]
    dsimp only
    split
    · rw [ih, Array.size_setIfInBounds]
    · exact ih

/-- A pass that tells of no change has changed nothing, and all sets are settled. -/
theorem passBelow_snd_eq_false (h : (g.passBelow k live).2 = false) :
    (g.passBelow k live).1 = live ∧ g.SettledBelow k live := by
  induction k with
  | zero => exact ⟨rfl, fun j hj => absurd hj (Nat.not_lt_zero j)⟩
  | succ k ih =>
    rw [passBelow] at h ⊢
    dsimp only at h ⊢
    split at h
    · cases h
    · next hsame =>
      obtain ⟨hin, hout⟩ := not_or.mp hsame
      rw [if_neg hsame]
      obtain ⟨heq, hsettled⟩ := ih h
      refine ⟨heq, fun j hj => ?_⟩
      rcases Nat.lt_succ_iff_lt_or_eq.mp hj with hj | rfl
      · exact hsettled j hj
      · exact ⟨not_not.mp hin, not_not.mp hout⟩

theorem passBelow_of_settled (h : g.SettledBelow k live) : g.passBelow k live = (live, false) := by
  induction k with
  | zero => rfl
  | succ k ih =>
    obtain ⟨hin, hout⟩ := h k (Nat.lt_succ_self k)
    rw [inAt] at hin
    rw [passBelow]
    dsimp only
    rw [if_neg (not_or.mpr ⟨not_not.mpr hin, not_not.mpr hout⟩)]
    exact ih fun j hj => h j (Nat.lt_succ_of_lt hj)

/-- Where the sets before the instructions stay, a pass settles those after them too. -/
theorem liveOut_passBelow (hk : k ≤ live.liveOut.size)
    (h : ∀ j < k, g.inAt live.liveIn j = live.liveIn.getD j ∅) :
    (g.passBelow k live).1.liveOut.getD j ∅ =
      if j < k then g.outAt live.liveIn j else live.liveOut.getD j ∅ := by
  induction k generalizing live with
  | zero => rfl
  | succ k ih =>
    have hlast : g.inFrom k (g.outAt live.liveIn k) = live.liveIn.getD k ∅ :=
      h k (Nat.lt_succ_self k)
    rw [passBelow]
    dsimp only
    split
    · let next : Liveness := ⟨live.liveIn, live.liveOut.setIfInBounds k (g.outAt live.liveIn k)⟩
      have hsize : k ≤ next.liveOut.size := by
        rw [Array.size_setIfInBounds]
        exact Nat.le_of_succ_le hk
      have hnext : next.liveOut.getD j ∅ =
          if k = j then g.outAt live.liveIn k else live.liveOut.getD j ∅ :=
        getD_setIfInBounds (Nat.lt_of_succ_le hk)
      have hrest := ih hsize fun j hj => h j (Nat.lt_succ_of_lt hj)
      rw [hlast, setIfInBounds_getD]
      refine hrest.trans ?_
      rw [hnext]
      grind
    · next hsame =>
      have hout := not_not.mp (not_or.mp hsame).2
      rw [ih (Nat.le_of_succ_le hk) fun j hj => h j (Nat.lt_succ_of_lt hj)]
      grind

/-- With more passes allowed than pairs can still be added, and one more for the sets after the
instructions, `solve` ends where a further pass changes nothing. -/
theorem Growing.solve {fuel : Nat} (h : Growing g live.liveIn) (hsize : live.liveOut.size = g.size)
    (hfuel : g.size * g.virts.size + 1 < fuel + (g.pairs live.liveIn).card) :
    Growing g (g.solve fuel live).liveIn ∧ (g.solve fuel live).liveOut.size = g.size ∧
      g.SettledBelow g.size (g.solve fuel live) ∧
      ∃ n, n + (g.pairs live.liveIn).card ≤ g.size * g.virts.size ∧
        (g.solve fuel live).liveIn = g.sweep^[n] live.liveIn := by
  have hpairs : (g.pairs live.liveIn).card ≤ g.size * g.virts.size := card_pairs_le
  induction fuel generalizing live with
  | zero => omega
  | succ fuel ih =>
    rw [FlowGraph.solve]
    dsimp only
    have hin : (g.pass live).1.liveIn = g.sweep live.liveIn := liveIn_passBelow
    have hout : (g.pass live).1.liveOut.size = g.size := size_liveOut_passBelow.trans hsize
    split
    · obtain ⟨hg, hb⟩ := h.sweepBelow (Nat.le_refl g.size)
      by_cases hfix : g.sweep live.liveIn = live.liveIn
      · -- Only sets after instructions have changed, so the next pass is the last one.
        have hsettled : g.SettledBelow g.size (g.pass live).1 := by
          have hkept (j : Nat) (hj : j < g.size) :
              g.inAt live.liveIn j = live.liveIn.getD j ∅ :=
            (eq_inAt_of_sweepBelow hfix (Nat.le_of_eq h.size.symm) hj).symm
          intro j hj
          rw [hin, hfix, pass, liveOut_passBelow (Nat.le_of_eq hsize.symm) hkept, if_pos hj]
          exact ⟨hkept j hj, rfl⟩
        have hlast : g.solve fuel (g.pass live).1 = (g.pass live).1 := by
          cases fuel with
          | zero => rfl
          | succ fuel =>
            rw [FlowGraph.solve, pass, passBelow_of_settled hsettled]
            rfl
        rw [hlast, hin, hfix]
        exact ⟨h, hout, hsettled, 0, by omega, rfl⟩
      · have hlt : (g.pairs live.liveIn).card < (g.pairs (g.pass live).1.liveIn).card := by
          rw [hin]
          exact h.card_lt hg hb hfix
        obtain ⟨hgrow, hsize', hsettled, n, hn, heq⟩ :=
          ih (show Growing g (g.pass live).1.liveIn from hin ▸ hg) hout (by omega) card_pairs_le
        refine ⟨hgrow, hsize', hsettled, n + 1, by omega, ?_⟩
        rw [heq, hin]
        rfl
    · next hsame =>
      obtain ⟨heq, hsettled⟩ := passBelow_snd_eq_false (Bool.eq_false_iff.mpr hsame)
      rw [pass, heq]
      exact ⟨h, hsize, hsettled, 0, by omega, rfl⟩

/-- What the solution is: it is settled, and sweeps lead to it from empty sets. -/
theorem liveness_spec (g : FlowGraph) :
    Growing g g.liveness.liveIn ∧ g.liveness.liveOut.size = g.size ∧
      g.SettledBelow g.size g.liveness ∧
      ∃ n ≤ g.sweepBound, g.liveness.liveIn = g.sweep^[n] (Array.replicate g.size ∅) := by
  have hstart : Growing g g.noneLive.liveIn := Growing.start g
  have hfuel : g.size * g.virts.size + 1 < (g.sweepBound + 1) +
      (g.pairs g.noneLive.liveIn).card := by
    rw [sweepBound]
    omega
  obtain ⟨hgrow, hsize, hsettled, n, hn, heq⟩ := hstart.solve Array.size_replicate hfuel
  exact ⟨hgrow, hsize, hsettled, n, by rw [sweepBound]; omega, heq⟩

theorem liveness_growing (g : FlowGraph) :
    Growing g g.liveness.liveIn ∧ g.sweep g.liveness.liveIn = g.liveness.liveIn := by
  obtain ⟨hgrow, -, hsettled, -⟩ := g.liveness_spec
  refine ⟨hgrow, ?_⟩
  have hpass : g.passBelow g.size g.liveness = (g.liveness, false) := passBelow_of_settled hsettled
  rw [sweep, ← liveIn_passBelow, hpass]

theorem mem_liveOut (hk : k < g.size) :
    v ∈ g.liveness.liveOut.getD k ∅ ↔ ∃ s ∈ g.succ k, v ∈ g.liveness.liveIn.getD s ∅ := by
  obtain ⟨-, -, hsettled, -⟩ := g.liveness_spec
  rw [← (hsettled k hk).2, mem_outAt]

/-- Before an instruction is live what it reads, and what is live after it and not written by it. -/
theorem mem_liveIn {o : Op Label} (ho : g.ops[k]? = some o) :
    v ∈ g.liveness.liveIn.getD k ∅ ↔
      v ∈ o.virtUses ∨ v ∈ g.liveness.liveOut.getD k ∅ ∧ o.virtDef? ≠ some v := by
  have hk : k < g.size := (Array.getElem?_eq_some_iff.mp ho).1
  obtain ⟨-, -, hsettled, -⟩ := g.liveness_spec
  rw [← (hsettled k hk).1, mem_inAt, mem_liveOut hk, ← mem_outAt]
  simp [ho]

/-- Nothing is live behind the last instruction. -/
theorem lt_of_mem_liveIn (h : v ∈ g.liveness.liveIn.getD k ∅) : k < g.size := by
  by_contra hk
  have hsize := g.liveness_growing.1.size
  rw [Array.getD_eq_getD_getElem?, Array.getElem?_eq_none (by omega)] at h
  exact Std.ExtTreeSet.not_mem_empty h

/-! ## Liveness is the least closed family -/

/-- A family of temporaries, one set for each instruction, that has whatever an instruction reads,
and whatever a successor has and the instruction does not write. -/
structure Closed (g : FlowGraph) (S : Nat → Nat → Prop) : Prop where
  reads {k v : Nat} {o : Op Label} (ho : g.ops[k]? = some o) (hv : v ∈ o.virtUses) : S k v
  flows {k s v : Nat} {o : Op Label} (ho : g.ops[k]? = some o) (hs : s ∈ g.succ k) (hv : S s v) :
    o.virtDef? = some v ∨ S k v

/-- Every set of `ins` is part of the family. -/
def Within (ins : Array LiveSet) (S : Nat → Nat → Prop) : Prop := ∀ k v, v ∈ ins.getD k ∅ → S k v

namespace Closed

variable {S : Nat → Nat → Prop}

theorem mem_of_inAt (h : g.Closed S) (hins : Within ins S) (hv : v ∈ g.inAt ins k) : S k v := by
  obtain ⟨o, ho, huse | ⟨hout, hdef⟩⟩ := mem_inAt.mp hv
  · exact h.reads ho huse
  · obtain ⟨s, hs, hmem⟩ := mem_outAt.mp hout
    exact (h.flows ho hs (hins s v hmem)).resolve_left hdef

theorem sweepBelow (h : g.Closed S) (hins : Within ins S) : Within (g.sweepBelow k ins) S := by
  induction k generalizing ins with
  | zero => exact hins
  | succ k ih =>
    refine ih fun j v hv => ?_
    rw [Array.getD_eq_getD_getElem?, Array.getElem?_setIfInBounds] at hv
    split at hv
    · rename_i hkj
      split at hv
      · exact hkj ▸ h.mem_of_inAt hins hv
      · exact absurd hv Std.ExtTreeSet.not_mem_empty
    · exact hins j v (by rwa [Array.getD_eq_getD_getElem?])

theorem iterate (h : g.Closed S) (n : Nat) (hins : Within ins S) : Within (g.sweep^[n] ins) S := by
  induction n generalizing ins with
  | zero => exact hins
  | succ n ih => exact ih (h.sweepBelow hins)

theorem liveIn (h : g.Closed S) : Within g.liveness.liveIn S := by
  obtain ⟨-, -, -, n, -, heq⟩ := g.liveness_spec
  rw [heq]
  refine h.iterate n fun k v hv => ?_
  rw [Array.getD_eq_getD_getElem?, Array.getElem?_replicate] at hv
  split at hv <;> exact absurd hv Std.ExtTreeSet.not_mem_empty

end Closed

end FlowGraph

end ChocoRV
