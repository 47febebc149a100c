import Mathlib
import ChocoRV.Proofs.Alloc.Greedy
import ChocoRV.Proofs.Alloc.Interference

/-!
# The fewest spills

Taking temporaries away until no instruction lies in more live intervals than there are registers,
one needs to take away at least as many as the scan spills, and that many are enough. So the number
of spilled temporaries is the least possible, and allocation fails only if so many frame words do
not fit (`spills_least`).
-/

namespace ChocoRV

open Assembly

/-- The temporaries that a stream mentions. -/
def temporaries (items : List Item) : Finset Nat := ((instrs items).flatMap (·.op.virts)).toFinset

/-- No instruction lies in the live intervals of more than `n` temporaries of `V`. -/
def CoveredAtMost (items : List Item) (n : Nat) (V : Finset Nat) : Prop :=
  ∀ k, ∀ W ⊆ V, (∀ v ∈ W, InLiveInterval items v k) → W.card ≤ n

/-- The numbers of temporaries that one can take away so that no instruction lies in the live
intervals of more than `n` of the others. -/
def removals (items : List Item) (n : Nat) : Set Nat :=
  {m | ∃ R ⊆ temporaries items, R.card = m ∧ CoveredAtMost items n (temporaries items \ R)}

variable {items : List Item} {n v : Nat}

theorem mem_temporaries : v ∈ temporaries items ↔ Mentions items v := by
  simp only [temporaries, List.mem_toFinset, List.mem_flatMap, Op.mem_virts_iff, Mentions]

theorem image_vreg_ofItems :
    (Interval.ofItems items).toFinset.image (·.vreg) = temporaries items := by
  ext v
  rw [mem_temporaries, Interval.mentions_iff, Finset.mem_image]
  simp only [List.mem_toFinset]

theorem vreg_injOn {S : Finset Interval} (hS : S ⊆ (Interval.ofItems items).toFinset) :
    Set.InjOn (·.vreg) (S : Set Interval) := fun _ hi _ hj heq =>
  Interval.vreg_inj (List.mem_toFinset.mp (hS hi)) (List.mem_toFinset.mp (hS hj)) heq

/-- A set of intervals fits if and only if their temporaries do. -/
theorem meetAtMost_iff {S : Finset Interval} (hS : S ⊆ (Interval.ofItems items).toFinset) :
    Interval.MeetAtMost n S ↔ CoveredAtMost items n (S.image (·.vreg)) := by
  constructor
  · intro h k W hW hk
    have hsub : W ⊆ (S.filter fun i => i.start ≤ k ∧ k ≤ i.stop).image (·.vreg) := by
      intro v hv
      obtain ⟨i, hi, rfl⟩ := Finset.mem_image.mp (hW hv)
      obtain ⟨j, hj, heq, hstart, hstop⟩ := Interval.inLiveInterval_iff.mp (hk _ hv)
      rw [Interval.vreg_inj hj (List.mem_toFinset.mp (hS hi)) heq] at hstart hstop
      exact Finset.mem_image.mpr ⟨i, Finset.mem_filter.mpr ⟨hi, hstart, hstop⟩, rfl⟩
    exact (Finset.card_le_card hsub).trans (Finset.card_image_le.trans (h k))
  · intro h k
    have hsub : (S.filter fun i => i.start ≤ k ∧ k ≤ i.stop) ⊆ S := Finset.filter_subset _ _
    rw [← Finset.card_image_of_injOn (vreg_injOn (hsub.trans hS))]
    refine h k _ (Finset.image_subset_image hsub) fun v hv => ?_
    obtain ⟨i, hi, rfl⟩ := Finset.mem_image.mp hv
    obtain ⟨hi, hstart, hstop⟩ := Finset.mem_filter.mp hi
    exact Interval.inLiveInterval_iff.mpr
      ⟨i, List.mem_toFinset.mp (hS hi), rfl, hstart, hstop⟩

/-- A good choice of intervals gives the least number of temporaries to take away. -/
theorem Greedy.isLeast_removals {t : Nat} {kept : Finset Interval}
    (h : Greedy n t (Interval.ofItems items).toFinset kept) :
    IsLeast (removals items n) ((Interval.ofItems items).toFinset.card - kept.card) := by
  have hcard {S : Finset Interval} (hS : S ⊆ (Interval.ofItems items).toFinset) :
      (S.image (·.vreg)).card = S.card := Finset.card_image_of_injOn (vreg_injOn hS)
  have hall := hcard (Finset.Subset.refl _)
  rw [image_vreg_ofItems] at hall
  constructor
  · have hkept : kept.image (·.vreg) ⊆ temporaries items := by
      rw [← image_vreg_ofItems]
      exact Finset.image_subset_image h.sub
    refine ⟨temporaries items \ kept.image (·.vreg), Finset.sdiff_subset, ?_, ?_⟩
    · rw [Finset.card_sdiff_of_subset hkept, hcard h.sub, hall]
    · rw [Finset.sdiff_sdiff_eq_self hkept]
      exact (meetAtMost_iff h.sub).mp h.meet
  · rintro m ⟨R, hR, rfl, hcovered⟩
    -- The intervals of the temporaries that stay are another choice.
    have hsub : (Interval.ofItems items).toFinset.filter (·.vreg ∉ R) ⊆
        (Interval.ofItems items).toFinset := Finset.filter_subset _ _
    have himage : ((Interval.ofItems items).toFinset.filter (·.vreg ∉ R)).image (·.vreg) =
        temporaries items \ R := by
      ext v
      rw [← image_vreg_ofItems, Finset.mem_sdiff]
      simp only [Finset.mem_image, Finset.mem_filter]
      constructor
      · rintro ⟨i, ⟨hi, hR⟩, rfl⟩
        exact ⟨⟨i, hi, rfl⟩, hR⟩
      · rintro ⟨⟨i, hi, rfl⟩, hR⟩
        exact ⟨i, ⟨hi, hR⟩, rfl⟩
    have hle := h.card_le hsub ((meetAtMost_iff hsub).mpr (himage ▸ hcovered))
    rw [← hcard hsub, himage, Finset.card_sdiff_of_subset hR] at hle
    omega

/-- **The scan spills as little as possible.** For every stream, pool and base, let `m` be the least
number of temporaries to take away so that no instruction lies in more live intervals than there are
registers. Allocation succeeds with `m` spilled temporaries, unless the last of `m` frame words is
out of reach: then, and only then, it runs out of them. -/
theorem spills_least (items : List Item) (pool : List PhysReg) (base : Int32) (function : String) :
    ∃ m : Nat, IsLeast (removals items pool.length) m ∧
      if 0 < m ∧ base.toInt - 4 * ((m : Int) - 1) < -2048 then
        ∃ slots, Allocation.allocate items pool base function =
          .error (.spillSlotsExhausted function slots)
      else ∃ alloc, Allocation.allocate items pool base function = .ok alloc ∧
        alloc.spillSlots = m := by
  have hmin : Scan.minOffset.toInt = -2048 := rfl
  have hallocate : Allocation.allocate items pool base function =
      Scan.run ⟨pool, base, function⟩ (Interval.ofItems items) >>= fun final =>
        .ok ⟨Assignment.apply final.assignment items, final.assignment,
          pool.filter fun p => final.assignment.toList.any (·.2 == .reg p), final.spills⟩ := rfl
  obtain ⟨t, kept, hgreedy, hrun⟩ := Scan.tracks_run ⟨pool, base, function⟩
    (Interval.all_sorted (FlowGraph.ofItems items) (Liveness.ofItems items))
    (List.Nodup.of_map _ (Interval.all_nodup _ _)) fun i hi => (Interval.ends_of_mem_all hi).1
  refine ⟨_, hgreedy.isLeast_removals, ?_⟩
  rcases hrun with ⟨s, hok, hcount, hreach⟩ | ⟨c, herror, hlow, hcount⟩
  · have hspills : s.spills = (Interval.ofItems items).toFinset.card - kept.card := by
      rw [Interval.ofItems]
      omega
    rw [← hspills, if_neg]
    · rw [hallocate, Interval.ofItems, hok]
      exact ⟨_, rfl, rfl⟩
    · rintro ⟨hpos, hlow⟩
      have hlast : Scan.minOffset.toInt ≤ base.toInt - 4 * ((s.spills - 1 : Nat) : Int) :=
        hreach (s.spills - 1) (by omega)
      omega
  · rw [if_pos]
    · rw [hallocate, Interval.ofItems, herror]
      exact ⟨_, rfl⟩
    · have hlow : base.toInt - 4 * c < Scan.minOffset.toInt := hlow
      rw [Interval.ofItems]
      omega

end ChocoRV
