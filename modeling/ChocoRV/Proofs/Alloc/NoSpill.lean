import Mathlib
import ChocoRV.Proofs.Alloc.Greedy
import ChocoRV.Proofs.Alloc.Held

/-!
# When the scan spills nothing

The scan moves a temporary to the frame only where more intervals meet than there are registers. So
it spills nothing if no instruction lies in more intervals than that (`Scan.run_of_meetAtMost`). The
intervals of a draft lie between take and release, and so no instruction lies in more of them than
the draft holds temporaries there (`meetAtMost_of_filled`).
-/

namespace ChocoRV

open Assembly

namespace Scan

/-- **The scan spills nothing** if no instruction lies in more intervals than there are
registers. -/
theorem run_of_meetAtMost (setup : Setup) (hpool : setup.pool.Nodup) {is : List Interval}
    (hsorted : is.Pairwise fun a b => a.start ≤ b.start) (hnodup : (is.map (·.vreg)).Nodup)
    (hle : ∀ i ∈ is, i.start ≤ i.stop)
    (hmeet : Interval.MeetAtMost setup.pool.length is.toFinset) :
    ∃ s, run setup is = .ok s ∧ s.spills = 0 ∧
      ∀ (v : Nat) (o : Int32), s.assignment[v]? ≠ some (.spill o) := by
  obtain ⟨t, kept, hgreedy, hrun⟩ := tracks_run setup hsorted (List.Nodup.of_map _ hnodup) hle
  have hall := hgreedy.card_le (Finset.Subset.refl _) hmeet
  rcases hrun with ⟨s, hok, hcount, -⟩ | ⟨c, -, -, hcount⟩
  · have hspills : s.spills = 0 := by omega
    obtain ⟨t, hsound⟩ := sound_of_run hpool hsorted hnodup hok
    refine ⟨s, hok, hspills, fun v o hv => ?_⟩
    obtain ⟨k, hk, -⟩ := hsound.spilled hv
    omega
  · omega

end Scan

/-- No instruction of a draft lies in more intervals than temporaries are held there. -/
theorem meetAtMost_of_filled {unit : String} {L : List (List Nat)} {F' H' : List Nat}
    {evs : List Event} {n n' : Nat} (h : Filled unit L [] evs F') (hn : Nested 0 [] evs n' H')
    (hlen : ∀ k, (heldAt [] evs k).length ≤ n) :
    Interval.MeetAtMost n (Interval.all (FlowGraph.ofItems (Body.draftItems evs))
      (FlowGraph.ofItems (Body.draftItems evs)).liveness).toFinset := by
  intro k
  have hinj : Set.InjOn (·.vreg) (((Interval.all (FlowGraph.ofItems (Body.draftItems evs))
      (FlowGraph.ofItems (Body.draftItems evs)).liveness).toFinset.filter
        fun i => i.start ≤ k ∧ k ≤ i.stop : Finset Interval) : Set Interval) := by
    intro i hi j hj heq
    exact List.inj_on_of_nodup_map (Interval.all_nodup _ _)
      (List.mem_toFinset.mp (Finset.mem_filter.mp hi).1)
      (List.mem_toFinset.mp (Finset.mem_filter.mp hj).1) heq
  rw [← Finset.card_image_of_injOn hinj]
  have hheld : ((Interval.all (FlowGraph.ofItems (Body.draftItems evs))
      (FlowGraph.ofItems (Body.draftItems evs)).liveness).toFinset.filter
        fun i => i.start ≤ k ∧ k ≤ i.stop).image (·.vreg) ⊆ (heldAt [] evs k).toFinset := by
    intro v hv
    obtain ⟨i, hi, rfl⟩ := Finset.mem_image.mp hv
    obtain ⟨hi, hstart, hstop⟩ := Finset.mem_filter.mp hi
    obtain ⟨hle, hlt, hfirst, hlast⟩ := Interval.ends_of_mem_all (List.mem_toFinset.mp hi)
    exact List.mem_toFinset.mpr (hn.mem_heldAt_of_between (fun u hu => absurd hu List.not_mem_nil)
      (h.mem_heldAt_of_occupants hn (hle.trans_lt hlt) hfirst)
      (h.mem_heldAt_of_occupants hn hlt hlast) hstart hstop)
  exact (Finset.card_le_card hheld).trans ((List.toFinset_card_le _).trans (hlen k))

/-- **Registers for takes are registers for intervals.** If the supply can give every take of a
draft a register of the pool, the allocator places all its temporaries in the same pool and spills
none. -/
theorem Allocation.allocate_of_supply {unit : String} {L : List (List Nat)} {F' H' : List Nat}
    {evs : List Event} {n' : Nat} {pool : List PhysReg} {items : List Item} {final : Supply}
    (h : Filled unit L [] evs F') (hn : Nested 0 [] evs n' H') (hpool : pool.Nodup)
    (hrun : Supply.run pool {} evs = .ok (items, final)) (base : Int32) (function : String) :
    ∃ alloc, allocate (Body.draftItems evs) pool base function = .ok alloc ∧ alloc.spillSlots = 0 ∧
      ∀ (v : Nat) (o : Int32), alloc.assignment[v]? ≠ some (.spill o) := by
  have hlen := hn.length_heldAt_le Supply.stacked_init hrun (Nat.zero_le _)
  obtain ⟨s, hs, hspills, hnone⟩ := Scan.run_of_meetAtMost ⟨pool, base, function⟩ hpool
    (Interval.all_sorted _ _) (Interval.all_nodup _ _)
    (fun i hi => (Interval.ends_of_mem_all hi).1) (meetAtMost_of_filled h hn hlen)
  let asg : Assignment := s.assignment
  refine ⟨⟨asg.apply (Body.draftItems evs), asg,
    pool.filter fun p => asg.toList.any (·.2 == .reg p), s.spills⟩, ?_, hspills, hnone⟩
  show (Scan.run _ _ >>= _) = _
  rw [hs]
  rfl

end ChocoRV
