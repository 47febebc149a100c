import Mathlib
import ChocoRV.Proofs.Alloc.Scan

/-!
# The scan keeps as many intervals as possible

With `n` registers, a set of intervals can be kept if no instruction lies in more than `n` of them.
The scan keeps as many intervals as any such set. `Greedy` is the invariant behind that: whatever
set is kept of the intervals seen so far, by every later instruction at least as many of those that
the scan keeps are over. Taking an interval while there is room preserves it, and so does giving up
the interval that ends last (`Greedy.keep`, `Greedy.drop`). `Scan.Tracks` says that the scan does
just that, and when it runs out of frame words (`Scan.tracks_run`).
-/

namespace ChocoRV

/-! ## Keeping intervals -/

namespace Interval

/-- No instruction lies in more than `n` intervals of `S`. -/
def MeetAtMost (n : Nat) (S : Finset Interval) : Prop :=
  ∀ k, (S.filter fun i => i.start ≤ k ∧ k ≤ i.stop).card ≤ n

/-- The intervals of `S` that are over before instruction `u`. -/
def ended (S : Finset Interval) (u : Nat) : Finset Interval := S.filter (·.stop < u)

/-- The intervals of `S` that are not over before instruction `u`. -/
def lasting (S : Finset Interval) (u : Nat) : Finset Interval := S.filter (u ≤ ·.stop)

variable {S T : Finset Interval} {i : Interval} {n u : Nat}

theorem mem_ended : i ∈ ended S u ↔ i ∈ S ∧ i.stop < u := Finset.mem_filter

theorem mem_lasting : i ∈ lasting S u ↔ i ∈ S ∧ u ≤ i.stop := Finset.mem_filter

theorem card_ended_add_card_lasting : (ended S u).card + (lasting S u).card = S.card := by
  have h := S.card_filter_add_card_filter_not fun i => i.stop < u
  simp only [not_lt] at h
  exact h

theorem card_ended_insert (h : i ∉ S) :
    (ended (insert i S) u).card = (ended S u).card + if i.stop < u then 1 else 0 := by
  rw [ended, Finset.filter_insert]
  split
  · exact Finset.card_insert_of_notMem fun hmem => h (mem_ended.mp hmem).1
  · rfl

theorem card_ended_le :
    (ended S u).card ≤ (ended (S.erase i) u).card + if i.stop < u then 1 else 0 := by
  calc (ended S u).card ≤ (ended (insert i (S.erase i)) u).card :=
        Finset.card_le_card (Finset.filter_subset_filter _ (Finset.insert_erase_subset i S))
    _ = _ := card_ended_insert (Finset.notMem_erase i S)

/-- What lasts from `u` on has lasted from any earlier instruction on. -/
theorem filter_lasting {t : Nat} (h : t ≤ u) : (lasting S t).filter (u ≤ ·.stop) = lasting S u := by
  grind [lasting]

theorem MeetAtMost.mono (h : MeetAtMost n S) (hsub : T ⊆ S) : MeetAtMost n T :=
  fun k => (Finset.card_le_card (Finset.filter_subset_filter _ hsub)).trans (h k)

/-- Of intervals that have all started, no more than `n` last on. -/
theorem MeetAtMost.card_lasting_le (h : MeetAtMost n S) (hstart : ∀ i ∈ S, i.start ≤ u) :
    (lasting S u).card ≤ n := by
  refine (Finset.card_le_card fun i hi => ?_).trans (h u)
  obtain ⟨hi, hstop⟩ := mem_lasting.mp hi
  exact Finset.mem_filter.mpr ⟨hi, hstart i hi, hstop⟩

end Interval

open ChocoRV.Interval

/-- Of the intervals `seen`, which have all started by `t`, the intervals `kept` are a good choice:
they fit into `n` registers, and whatever other choice fits, it has no more intervals that are over
by any instruction from `t` on. -/
structure Greedy (n t : Nat) (seen kept : Finset Interval) : Prop where
  sub : kept ⊆ seen
  started : ∀ i ∈ seen, i.start ≤ t
  meet : MeetAtMost n kept
  ahead : ∀ S ⊆ seen, MeetAtMost n S → ∀ u, t ≤ u → (ended S u).card ≤ (ended kept u).card

variable {is : List Interval}

namespace Greedy

variable {n t : Nat} {seen kept : Finset Interval} {iv x : Interval}

theorem empty (n : Nat) : Greedy n 0 ∅ ∅ where
  sub := Finset.Subset.refl _
  started := fun i hi => absurd hi (Finset.notMem_empty i)
  meet := fun _ => Nat.zero_le n
  ahead := fun S hS _ _ _ => by rw [Finset.subset_empty.mp hS]

theorem later {u : Nat} (h : Greedy n t seen kept) (hu : t ≤ u) : Greedy n u seen kept where
  sub := h.sub
  started i hi := (h.started i hi).trans hu
  meet := h.meet
  ahead S hS hmeet v hv := h.ahead S hS hmeet v (hu.trans hv)

theorem started_insert (h : Greedy n iv.start seen kept) :
    ∀ i ∈ insert iv seen, i.start ≤ iv.start :=
  (Finset.forall_mem_insert _ _ _).mpr ⟨Nat.le_refl _, h.started⟩

/-- Another choice from the intervals seen with a new one, as far as the old ones are concerned. -/
theorem card_ended_le (h : Greedy n t seen kept) {S : Finset Interval} (hS : S ⊆ insert iv seen)
    (hmeet : MeetAtMost n S) {u : Nat} (hu : t ≤ u) :
    (ended S u).card ≤ (ended kept u).card + if iv.stop < u then 1 else 0 := by
  have hsub : S.erase iv ⊆ seen := Finset.subset_insert_iff.mp hS
  have hold := h.ahead _ hsub (hmeet.mono (Finset.erase_subset _ _)) u hu
  have hnew : (ended S u).card ≤ (ended (S.erase iv) u).card + if iv.stop < u then 1 else 0 :=
    Interval.card_ended_le
  omega

/-- A new interval is kept while there is room for it. -/
theorem keep (h : Greedy n iv.start seen kept) (hnew : iv ∉ seen)
    (hroom : (lasting kept iv.start).card < n) :
    Greedy n iv.start (insert iv seen) (insert iv kept) := by
  refine ⟨Finset.insert_subset_insert _ h.sub, h.started_insert, fun k => ?_,
    fun S hS hmeet u hu => ?_⟩
  · rw [Finset.filter_insert]
    split
    · -- Whatever meets the new interval has lasted until it starts.
      have hsub : (kept.filter fun i => i.start ≤ k ∧ k ≤ i.stop) ⊆ lasting kept iv.start := by
        grind [lasting]
      have hcard := Finset.card_le_card hsub
      have hinsert := Finset.card_insert_le iv (kept.filter fun i => i.start ≤ k ∧ k ≤ i.stop)
      omega
    · exact h.meet k
  · rw [card_ended_insert fun hmem => hnew (h.sub hmem)]
    exact h.card_ended_le hS hmeet hu

/-- Without room, the interval that ends last is given up. -/
theorem drop (h : Greedy n iv.start seen kept) (hnew : iv ∉ seen) (hle : iv.start ≤ iv.stop)
    (hfull : n ≤ (lasting kept iv.start).card) (hx : x ∈ insert iv (lasting kept iv.start))
    (hlast : ∀ i ∈ insert iv (lasting kept iv.start), i.stop ≤ x.stop) :
    Greedy n iv.start (insert iv seen) ((insert iv kept).erase x) := by
  have hkept : iv ∉ kept := fun hmem => hnew (h.sub hmem)
  have hlasting : iv ∉ lasting kept iv.start := fun hmem => hkept (mem_lasting.mp hmem).1
  have hcard : (lasting kept iv.start).card = n :=
    Nat.le_antisymm (h.meet.card_lasting_le fun i hi => h.started i (h.sub hi)) hfull
  refine ⟨(Finset.erase_subset _ _).trans (Finset.insert_subset_insert _ h.sub), h.started_insert,
    fun k => ?_, fun S hS hmeet u hu => ?_⟩
  · by_cases hk : iv.start ≤ k
    · have hsub : (((insert iv kept).erase x).filter fun i => i.start ≤ k ∧ k ≤ i.stop) ⊆
          (insert iv (lasting kept iv.start)).erase x := by grind [lasting]
      refine (Finset.card_le_card hsub).trans ?_
      rw [Finset.card_erase_of_mem hx, Finset.card_insert_of_notMem hlasting, hcard]
      exact Nat.le_refl n
    · exact (Finset.card_le_card (by grind)).trans (h.meet k)
  · by_cases hxu : x.stop < u
    · -- All that is kept is over by then; another choice has at most `n` more than before.
      have hended : ended ((insert iv kept).erase x) u = (insert iv kept).erase x :=
        Finset.filter_true_of_mem fun i hi => by grind [lasting]
      have hsize : ((insert iv kept).erase x).card = (ended kept iv.start).card + n := by
        rw [Finset.card_erase_of_mem (Finset.insert_subset_insert _ (Finset.filter_subset _ _) hx),
          Finset.card_insert_of_notMem hkept, ← hcard, card_ended_add_card_lasting]
        rfl
      have hbefore := h.card_ended_le hS hmeet (Nat.le_refl _)
      rw [if_neg (Nat.not_lt.mpr hle)] at hbefore
      have hafter := hmeet.card_lasting_le fun i hi => h.started_insert i (hS hi)
      calc (ended S u).card ≤ S.card := Finset.card_filter_le _ _
        _ = (ended S iv.start).card + (lasting S iv.start).card := card_ended_add_card_lasting.symm
        _ ≤ (ended kept iv.start).card + n := Nat.add_le_add hbefore hafter
        _ = (ended ((insert iv kept).erase x) u).card := by rw [hended, hsize]
    · have hsame : ended ((insert iv kept).erase x) u = ended (insert iv kept) u := by grind [ended]
      rw [hsame, card_ended_insert hkept]
      exact h.card_ended_le hS hmeet hu

/-- There is always a next choice, and it has at most one interval more. -/
theorem next (h : Greedy n t seen kept) (hnew : iv ∉ seen) (ht : t ≤ iv.start)
    (hle : iv.start ≤ iv.stop) :
    ∃ kept', Greedy n iv.start (insert iv seen) kept' ∧ kept'.card ≤ kept.card + 1 := by
  by_cases hroom : (lasting kept iv.start).card < n
  · exact ⟨_, (h.later ht).keep hnew hroom, Finset.card_insert_le _ _⟩
  · obtain ⟨x, hx, hlast⟩ := (insert iv (lasting kept iv.start)).exists_max_image (·.stop)
      ⟨iv, Finset.mem_insert_self _ _⟩
    exact ⟨_, (h.later ht).drop hnew hle (Nat.not_lt.mp hroom) hx hlast,
      (Finset.card_erase_le).trans (Finset.card_insert_le _ _)⟩

/-- Intervals still to come are new after one more has been seen. -/
theorem notMem_insert_of_nodup (hiv : iv ∉ is) (hnew : ∀ i ∈ is, i ∉ seen) :
    ∀ i ∈ is, i ∉ insert iv seen := by
  grind

theorem extend (h : Greedy n t seen kept) (hsorted : is.Pairwise fun a b => a.start ≤ b.start)
    (ht : ∀ i ∈ is, t ≤ i.start) (hnodup : is.Nodup) (hnew : ∀ i ∈ is, i ∉ seen)
    (hle : ∀ i ∈ is, i.start ≤ i.stop) :
    ∃ t' kept', Greedy n t' (is.toFinset ∪ seen) kept' ∧ kept'.card ≤ kept.card + is.length := by
  induction is generalizing t seen kept with
  | nil => exact ⟨t, kept, by simpa using h, Nat.le_refl _⟩
  | cons iv is ih =>
    rw [List.pairwise_cons] at hsorted
    rw [List.nodup_cons] at hnodup
    rw [List.forall_mem_cons] at ht hnew hle
    obtain ⟨kept₁, h₁, hcard₁⟩ := h.next hnew.1 ht.1 hle.1
    obtain ⟨t', kept', h', hcard'⟩ := ih h₁ hsorted.2 hsorted.1 hnodup.2
      (notMem_insert_of_nodup hnodup.1 hnew.2) hle.2
    refine ⟨t', kept', ?_, by rw [List.length_cons]; omega⟩
    rw [List.toFinset_cons, Finset.insert_union]
    rwa [Finset.union_insert] at h'

/-- No choice that fits has more intervals. -/
theorem card_le (h : Greedy n t seen kept) {S : Finset Interval} (hS : S ⊆ seen)
    (hmeet : MeetAtMost n S) : S.card ≤ kept.card := by
  -- In the end everything is over.
  have hall (T : Finset Interval) (hT : T ⊆ seen) :
      ended T (t + seen.sup (·.stop) + 1) = T := by
    refine Finset.filter_true_of_mem fun i hi => ?_
    have hsup : i.stop ≤ seen.sup (·.stop) := Finset.le_sup (f := (·.stop)) (hT hi)
    omega
  have hahead := h.ahead S hS hmeet (t + seen.sup (·.stop) + 1) (by omega)
  rwa [hall S hS, hall kept h.sub] at hahead

end Greedy

/-! ## The scan makes these choices -/

namespace Scan

/-- The intervals `S` are active, each in a slot of its own. -/
structure Fills (n : Nat) (S : Finset Interval) (active : List Active) : Prop where
  slots : (active.map (·.slot)).Nodup
  bound : ∀ a ∈ active, a.slot < n
  nodup : (active.map (·.interval)).Nodup
  active : (active.map (·.interval)).toFinset = S

namespace Fills

variable {n slot : Nat} {S : Finset Interval} {active : List Active} {iv : Interval}

theorem mem_iff (h : Fills n S active) {i : Interval} : i ∈ S ↔ ∃ a ∈ active, a.interval = i := by
  rw [← h.active, List.mem_toFinset, List.mem_map]

theorem length_eq (h : Fills n S active) : active.length = S.card := by
  rw [← h.active, List.toFinset_card_of_nodup h.nodup, List.length_map]

theorem of_sublist (h : Fills n S active) {active' : List Active} (hsub : active'.Sublist active) :
    Fills n (active'.map (·.interval)).toFinset active' where
  slots := h.slots.sublist (hsub.map _)
  bound a ha := h.bound a (hsub.subset ha)
  nodup := h.nodup.sublist (hsub.map _)
  active := rfl

/-- An interval takes a slot that none of the others has. -/
theorem cons (h : Fills n S active) (hiv : iv ∉ S) (hslot : slot < n)
    (hfree : ∀ a ∈ active, a.slot ≠ slot) :
    Fills n (insert iv S) (⟨iv, slot⟩ :: active) where
  slots := List.nodup_cons.mpr ⟨by simpa using hfree, h.slots⟩
  bound := List.forall_mem_cons.mpr ⟨hslot, h.bound⟩
  nodup := List.nodup_cons.mpr ⟨fun hmem => hiv (h.mem_iff.mpr (List.mem_map.mp hmem)), h.nodup⟩
  active := by rw [List.map_cons, List.toFinset_cons, h.active]

/-- Letting intervals expire leaves those that last. -/
theorem expired (h : Fills n S active) (u : Nat) :
    Fills n (S.filter (u ≤ ·.stop)) (active.filter fun a => u ≤ a.interval.stop) := by
  convert h.of_sublist List.filter_sublist using 1
  ext i
  simp only [Finset.mem_filter, h.mem_iff, List.mem_toFinset, List.mem_map, List.mem_filter,
    decide_eq_true_eq]
  grind

/-- The new interval takes the slot of another one. -/
theorem replace (h : Fills n S active) (hiv : iv ∉ S) {victim : Active}
    (hvictim : victim ∈ active) :
    Fills n (insert iv (S.erase victim.interval))
      (⟨iv, victim.slot⟩ :: active.filter (· != victim)) := by
  have hinj {a : Active} (ha : a ∈ active) (heq : a.interval = victim.interval) : a = victim :=
    List.inj_on_of_nodup_map h.nodup ha hvictim heq
  have hothers : Fills n (S.erase victim.interval) (active.filter (· != victim)) := by
    convert h.of_sublist List.filter_sublist using 1
    ext i
    simp only [Finset.mem_erase, h.mem_iff, List.mem_toFinset, List.mem_map,
      List.mem_filter, bne_iff_ne]
    grind
  refine hothers.cons (fun hmem => hiv (Finset.mem_of_mem_erase hmem)) (h.bound _ hvictim)
    fun a ha heq => ?_
  obtain ⟨ha, hne⟩ := List.mem_filter.mp ha
  exact bne_iff_ne.mp hne (List.inj_on_of_nodup_map h.slots ha hvictim heq)

/-- A slot is free while fewer intervals are active than there are slots. -/
theorem exists_freeSlot (h : active.length < n) : freeSlot? n active ≠ none := by
  intro hfree
  have hall : List.range n ⊆ active.map (·.slot) := by
    intro k hk
    have hbusy := List.find?_eq_none.mp hfree k hk
    simp only [List.all_eq_true, bne_iff_ne, not_forall, not_not] at hbusy
    obtain ⟨a, ha, hslot⟩ := hbusy
    exact List.mem_map.mpr ⟨a, ha, hslot⟩
  have hlen := List.nodup_range.length_le_of_subset hall
  rw [List.length_range, List.length_map] at hlen
  omega

/-- There is room for another interval where a slot is free. -/
theorem card_lt (h : Fills n S active) (hslot : slot < n) (hfree : ∀ a ∈ active, a.slot ≠ slot) :
    S.card < n := by
  have hnodup : (slot :: active.map (·.slot)).Nodup :=
    List.nodup_cons.mpr ⟨by simpa using hfree, h.slots⟩
  have hsub : slot :: active.map (·.slot) ⊆ List.range n := by
    refine List.cons_subset.mpr ⟨List.mem_range.mpr hslot, fun k hk => ?_⟩
    obtain ⟨a, ha, rfl⟩ := List.mem_map.mp hk
    exact List.mem_range.mpr (h.bound a ha)
  have hlen := hnodup.length_le_of_subset hsub
  rw [List.length_cons, List.length_map, List.length_range] at hlen
  rw [← h.length_eq]
  omega

end Fills

/-- The scan has visited the intervals `seen`, keeps the intervals `kept` in registers and has moved
the others to frame words within reach. -/
structure Tracks (setup : Setup) (t : Nat) (seen kept : Finset Interval) (s : State) : Prop where
  greedy : Greedy setup.pool.length t seen kept
  fills : Fills setup.pool.length (lasting kept t) s.active
  count : kept.card + s.spills = seen.card
  reach : ∀ k < s.spills, minOffset.toInt ≤ setup.spillBase.toInt - 4 * k

variable {setup : Setup} {t : Nat} {seen kept : Finset Interval} {s s' : State} {iv : Interval}

theorem Tracks.start (setup : Setup) : Tracks setup 0 ∅ ∅ start where
  greedy := .empty _
  fills := ⟨.nil, List.forall_mem_nil _, .nil, rfl⟩
  count := rfl
  reach := fun k hk => absurd hk (Nat.not_lt_zero k)

/-- The frame word after those in reach is within reach or not. -/
theorem spill_cases (hreach : ∀ k < s.spills, minOffset.toInt ≤ setup.spillBase.toInt - 4 * k)
    (v : Nat) :
    (spill setup s v = .ok ⟨s.active, s.assignment.insert v
        (.spill (spillOffset setup.spillBase s.spills)), s.spills + 1⟩ ∧
      ∀ k < s.spills + 1, minOffset.toInt ≤ setup.spillBase.toInt - 4 * k) ∨
    spill setup s v = .error (.spillSlotsExhausted setup.function (s.spills + 1)) ∧
      setup.spillBase.toInt - 4 * s.spills < minOffset.toInt := by
  by_cases hlow : spillOffset setup.spillBase s.spills < minOffset
  · refine .inr ⟨by rw [spill, if_pos hlow], ?_⟩
    have hmin : minOffset.toInt = -2048 := rfl
    have hrange : -2147483648 ≤ setup.spillBase.toInt - 4 * s.spills := lower_bound_of_reach hreach
    rwa [Int32.lt_iff_toInt_lt, toInt_spillOffset hrange] at hlow
  · exact .inl ⟨by rw [spill, if_neg hlow], reach_next hreach hlow⟩

namespace Tracks

theorem expired (h : Tracks setup t seen kept s) (ht : t ≤ iv.start) :
    Tracks setup iv.start seen kept (expired s iv) where
  greedy := h.greedy.later ht
  fills := filter_lasting ht ▸ h.fills.expired iv.start
  count := h.count
  reach := h.reach

theorem notMem_lasting (h : Tracks setup t seen kept s) (hnew : iv ∉ seen) : iv ∉ lasting kept t :=
  fun hmem => hnew (h.greedy.sub (mem_lasting.mp hmem).1)

/-- An interval takes a free slot. -/
theorem assigned (h : Tracks setup iv.start seen kept s) (hnew : iv ∉ seen)
    (hle : iv.start ≤ iv.stop) {slot : Nat}
    (hslot : freeSlot? setup.pool.length s.active = some slot) :
    Tracks setup iv.start (insert iv seen) (insert iv kept) (assign setup s iv slot) := by
  obtain ⟨hlt, hfree⟩ := freeSlot?_eq_some hslot
  have hkept : iv ∉ kept := fun hmem => hnew (h.greedy.sub hmem)
  refine ⟨h.greedy.keep hnew (h.fills.card_lt hlt hfree), ?_, ?_, h.reach⟩
  · rw [lasting, Finset.filter_insert, if_pos hle]
    exact h.fills.cons (h.notMem_lasting hnew) hlt hfree
  · show (insert iv kept).card + s.spills = _
    rw [Finset.card_insert_of_notMem hkept, Finset.card_insert_of_notMem hnew, ← h.count]
    omega

/-- Without a free slot, giving up an interval that ends last is a good choice. -/
theorem dropped (h : Tracks setup iv.start seen kept s) (hnew : iv ∉ seen)
    (hle : iv.start ≤ iv.stop) (hfull : freeSlot? setup.pool.length s.active = none) {x : Interval}
    (hx : x ∈ insert iv (lasting kept iv.start)) (hiv : iv.stop ≤ x.stop)
    (hlast : ∀ a ∈ s.active, a.interval.stop ≤ x.stop) :
    Greedy setup.pool.length iv.start (insert iv seen) ((insert iv kept).erase x) ∧
      ((insert iv kept).erase x).card + (s.spills + 1) = (insert iv seen).card := by
  refine ⟨h.greedy.drop hnew hle ?_ hx ?_, ?_⟩
  · rw [← h.fills.length_eq]
    exact Nat.not_lt.mp fun hroom => Fills.exists_freeSlot hroom hfull
  · refine (Finset.forall_mem_insert _ _ _).mpr ⟨hiv, fun i hi => ?_⟩
    obtain ⟨a, ha, rfl⟩ := h.fills.mem_iff.mp hi
    exact hlast a ha
  · have hxkept : x ∈ insert iv kept := Finset.insert_subset_insert _ (Finset.filter_subset _ _) hx
    rw [Finset.card_erase_of_mem hxkept, Finset.card_insert_of_notMem fun hmem =>
      hnew (h.greedy.sub hmem),
      Finset.card_insert_of_notMem hnew, ← h.count]
    omega

/-- A visit comes to the choice `kept`, or it fails because that choice gives up an interval and the
next frame word is out of reach. -/
def Chooses (setup : Setup) (s : State) (iv : Interval) (seen kept : Finset Interval) : Prop :=
  (∃ s', Scan.visit setup s iv = .ok s' ∧ Tracks setup iv.start (insert iv seen) kept s') ∨
    Scan.visit setup s iv = .error (.spillSlotsExhausted setup.function (s.spills + 1)) ∧
      setup.spillBase.toInt - 4 * s.spills < minOffset.toInt ∧
      kept.card + (s.spills + 1) = (insert iv seen).card

/-- A visit makes the next good choice, as far as the frame allows it. -/
theorem visit (h : Tracks setup t seen kept s) (hnew : iv ∉ seen) (ht : t ≤ iv.start)
    (hle : iv.start ≤ iv.stop) :
    ∃ kept', Greedy setup.pool.length iv.start (insert iv seen) kept' ∧
      Chooses setup s iv seen kept' := by
  have hexp := h.expired ht
  have hiv := hexp.notMem_lasting hnew
  rcases visit_cases setup s iv with
    ⟨slot, hfree, hvisit⟩ | ⟨hfull, ⟨victim, hmem, hstop, hlast, hvisit⟩ | ⟨hlast, hvisit⟩⟩
  · have hassigned := hexp.assigned hnew hle hfree
    exact ⟨_, hassigned.greedy, .inl ⟨_, hvisit, hassigned⟩⟩
  · have hvictim := hexp.fills.mem_iff.mpr ⟨victim, hmem, rfl⟩
    obtain ⟨hgreedy, hcount⟩ :=
      hexp.dropped hnew hle hfull (Finset.mem_insert_of_mem hvictim) hstop hlast
    refine ⟨_, hgreedy, ?_⟩
    rw [Chooses, hvisit]
    rcases spill_cases hexp.reach victim.interval.vreg with ⟨hok, hreach⟩ | ⟨herror, hlow⟩
    · refine .inl ⟨_, by rw [hok]; rfl, hgreedy, ?_, hcount, hreach⟩
      have hkeeps : lasting ((insert iv kept).erase victim.interval) iv.start =
          insert iv ((lasting kept iv.start).erase victim.interval) := by grind [lasting]
      rw [hkeeps]
      exact hexp.fills.replace hiv hmem
    · exact .inr ⟨by rw [herror]; rfl, hlow, hcount⟩
  · -- The new interval itself is given up.
    obtain ⟨hgreedy, hcount⟩ :=
      hexp.dropped hnew hle hfull (Finset.mem_insert_self _ _) (Nat.le_refl _) hlast
    rw [Finset.erase_insert fun hmem => hnew (h.greedy.sub hmem)] at hgreedy hcount
    refine ⟨_, hgreedy, ?_⟩
    rw [Chooses, hvisit]
    rcases spill_cases hexp.reach iv.vreg with ⟨hok, hreach⟩ | ⟨herror, hlow⟩
    · exact .inl ⟨_, hok, hgreedy, hexp.fills, hcount, hreach⟩
    · exact .inr ⟨herror, hlow, hcount⟩

/-- The scan goes through with as many spills as its choices give up intervals, or stops at a frame
word out of reach that they need. -/
theorem foldlM (h : Tracks setup t seen kept s) (hsorted : is.Pairwise fun a b => a.start ≤ b.start)
    (ht : ∀ i ∈ is, t ≤ i.start) (hnodup : is.Nodup) (hnew : ∀ i ∈ is, i ∉ seen)
    (hle : ∀ i ∈ is, i.start ≤ i.stop) :
    ∃ t' kept', Greedy setup.pool.length t' (is.toFinset ∪ seen) kept' ∧
      ((∃ s', is.foldlM (Scan.visit setup) s = .ok s' ∧
          kept'.card + s'.spills = (is.toFinset ∪ seen).card ∧
          ∀ k < s'.spills, minOffset.toInt ≤ setup.spillBase.toInt - 4 * k) ∨
        ∃ c : Nat, is.foldlM (Scan.visit setup) s =
            .error (.spillSlotsExhausted setup.function (c + 1)) ∧
          setup.spillBase.toInt - 4 * c < minOffset.toInt ∧
          kept'.card + (c + 1) ≤ (is.toFinset ∪ seen).card) := by
  induction is generalizing t seen kept s with
  | nil =>
    rw [List.toFinset_nil, Finset.empty_union]
    exact ⟨t, kept, h.greedy, .inl ⟨s, rfl, h.count, h.reach⟩⟩
  | cons iv is ih =>
    rw [List.pairwise_cons] at hsorted
    rw [List.nodup_cons] at hnodup
    rw [List.forall_mem_cons] at ht hnew hle
    have hnext := Greedy.notMem_insert_of_nodup hnodup.1 hnew.2
    have hunion : (iv :: is).toFinset ∪ seen = is.toFinset ∪ insert iv seen := by
      rw [List.toFinset_cons, Finset.insert_union, Finset.union_insert]
    rw [List.foldlM_cons, hunion]
    obtain ⟨kept₁, hgreedy, ⟨s₁, hvisit, h₁⟩ | ⟨hvisit, hlow, hcount⟩⟩ :=
      h.visit hnew.1 ht.1 hle.1
    · rw [hvisit]
      exact ih h₁ hsorted.2 hsorted.1 hnodup.2 hnext hle.2
    · -- The scan has stopped; the choices that it would have made go on.
      obtain ⟨t', kept', h', hcard⟩ := hgreedy.extend hsorted.2 hsorted.1 hnodup.2 hnext hle.2
      refine ⟨t', kept', h', .inr ⟨s.spills, by rw [hvisit]; rfl, hlow, ?_⟩⟩
      have hdisjoint : Disjoint is.toFinset (insert iv seen) :=
        Finset.disjoint_left.mpr fun i hi => hnext i (List.mem_toFinset.mp hi)
      rw [Finset.card_union_of_disjoint hdisjoint, List.toFinset_card_of_nodup hnodup.2]
      omega

end Tracks

theorem tracks_run (setup : Setup) (hsorted : is.Pairwise fun a b => a.start ≤ b.start)
    (hnodup : is.Nodup) (hle : ∀ i ∈ is, i.start ≤ i.stop) :
    ∃ t kept, Greedy setup.pool.length t is.toFinset kept ∧
      ((∃ s, run setup is = .ok s ∧ kept.card + s.spills = is.toFinset.card ∧
          ∀ k < s.spills, minOffset.toInt ≤ setup.spillBase.toInt - 4 * k) ∨
        ∃ c : Nat, run setup is = .error (.spillSlotsExhausted setup.function (c + 1)) ∧
          setup.spillBase.toInt - 4 * c < minOffset.toInt ∧
          kept.card + (c + 1) ≤ is.toFinset.card) := by
  have h := (Tracks.start setup).foldlM hsorted (fun _ _ => Nat.zero_le _) hnodup
    (fun i _ => Finset.notMem_empty i) hle
  rw [Finset.union_empty] at h
  exact h

end Scan

end ChocoRV
