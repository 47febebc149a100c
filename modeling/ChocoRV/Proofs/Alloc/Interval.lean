import Mathlib
import ChocoRV.Alloc.Interval

/-!
# Intervals cover their instructions

Every temporary that needs a location at an instruction has exactly one interval, and the interval
contains the instruction. It begins and ends at instructions at which the temporary does need a
location. Intervals are scanned in the order in which they start.
-/

namespace ChocoRV

namespace Interval

variable {g : FlowGraph} {live : Liveness} {k n v u : Nat}

abbrev Spans := Std.ExtTreeMap Nat (Nat × Nat)

/-- The interval of `v` contains instruction `k`. -/
def SpannedAt (spans : Spans) (v k : Nat) : Prop :=
  ∃ a b : Nat, spans[v]? = some (a, b) ∧ a ≤ k ∧ k ≤ b

/-- No interval goes beyond instruction `k`. -/
def EndsBy (spans : Spans) (k : Nat) : Prop :=
  ∀ v a b : Nat, spans[v]? = some (a, b) → a ≤ b ∧ b ≤ k

variable {spans : Spans}

theorem getElem?_touch : (touch k spans v)[u]? =
    if v = u then some (((spans[v]?).map (·.1)).getD k, k) else spans[u]? := by
  unfold touch
  split
  · rename_i a b hv
    rw [Std.ExtTreeMap.getElem?_insert]
    simp [hv]
  · rename_i hv
    rw [Std.ExtTreeMap.getElem?_insert]
    simp [hv]

/-- Stretching an interval to `k` makes it contain `k` and keeps what the intervals contain. -/
theorem EndsBy.touched (h : EndsBy spans k) (v : Nat) :
    EndsBy (touch k spans v) k ∧ SpannedAt (touch k spans v) v k ∧
      ∀ u j, SpannedAt spans u j → SpannedAt (touch k spans v) u j := by
  have hstart : ((spans[v]?).map (·.1)).getD k ≤ k := by
    cases hv : spans[v]? with
    | none => exact Nat.le_refl k
    | some p => exact Nat.le_trans (h v p.1 p.2 hv).1 (h v p.1 p.2 hv).2
  refine ⟨?_, ?_, ?_⟩
  · intro u a b hu
    rw [getElem?_touch] at hu
    split at hu
    · cases hu
      exact ⟨hstart, Nat.le_refl k⟩
    · exact h u a b hu
  · exact ⟨_, k, by rw [getElem?_touch, if_pos rfl], hstart, Nat.le_refl k⟩
  · rintro u j ⟨a, b, hu, ha, hb⟩
    by_cases hvu : v = u
    · subst hvu
      refine ⟨a, k, ?_, ha, Nat.le_trans hb (h v a b hu).2⟩
      rw [getElem?_touch, if_pos rfl, hu]
      rfl
    · exact ⟨a, b, by rw [getElem?_touch, if_neg hvu, hu], ha, hb⟩

theorem EndsBy.foldl_touched (h : EndsBy spans k) (vs : List Nat) :
    EndsBy (vs.foldl (touch k) spans) k ∧ (∀ v ∈ vs, SpannedAt (vs.foldl (touch k) spans) v k) ∧
      ∀ u j, SpannedAt spans u j → SpannedAt (vs.foldl (touch k) spans) u j := by
  induction vs generalizing spans with
  | nil => exact ⟨h, List.forall_mem_nil _, fun _ _ hu => hu⟩
  | cons v vs ih =>
    obtain ⟨hends, hv, hkeep⟩ := h.touched v
    obtain ⟨hends', hvs, hkeep'⟩ := ih hends
    exact ⟨hends', List.forall_mem_cons.mpr ⟨hkeep' v k hv, hvs⟩,
      fun u j hu => hkeep' u j (hkeep u j hu)⟩

/-- After the first `n` instructions, the intervals contain all instructions so far at which their
temporaries need a location. -/
theorem spans_upto (g : FlowGraph) (live : Liveness) (n : Nat) :
    (∀ k, n ≤ k → EndsBy ((List.range n).foldl
      (fun acc k => (occupants g live k).toList.foldl (touch k) acc) ∅) k) ∧
    ∀ k < n, ∀ v ∈ occupants g live k, SpannedAt ((List.range n).foldl
      (fun acc k => (occupants g live k).toList.foldl (touch k) acc) ∅) v k := by
  induction n with
  | zero =>
    refine ⟨fun k _ v a b h => ?_, fun k hk => absurd hk (Nat.not_lt_zero k)⟩
    simp at h
  | succ n ih =>
    obtain ⟨hends, hcover⟩ := ih
    rw [List.range_succ, List.foldl_append]
    obtain ⟨hends', hnew, hkeep⟩ := (hends n (Nat.le_refl n)).foldl_touched
      (occupants g live n).toList
    refine ⟨fun k hk v a b h => ?_, fun k hk v hv => ?_⟩
    · obtain ⟨hab, hbn⟩ := hends' v a b h
      exact ⟨hab, by omega⟩
    · rcases Nat.lt_succ_iff_lt_or_eq.mp hk with hk | rfl
      · exact hkeep v k (hcover k hk v hv)
      · exact hnew v (Std.ExtTreeSet.mem_toList.mpr hv)

/-- Intervals begin and end, before instruction `n`, where their temporaries need a location. -/
def Tight (g : FlowGraph) (live : Liveness) (n : Nat) (spans : Spans) : Prop :=
  ∀ v a b : Nat, spans[v]? = some (a, b) →
    b < n ∧ v ∈ occupants g live a ∧ v ∈ occupants g live b

theorem Tight.touched (h : Tight g live n spans) (hk : k < n) (hv : v ∈ occupants g live k) :
    Tight g live n (touch k spans v) := by
  intro u a b hu
  rw [getElem?_touch] at hu
  split at hu
  · rename_i hvu
    subst hvu
    cases hu
    refine ⟨hk, ?_, hv⟩
    cases hspan : spans[v]? with
    | none => exact hv
    | some p => exact (h v p.1 p.2 hspan).2.1
  · exact h u a b hu

theorem Tight.foldl_touched {vs : List Nat} (h : Tight g live n spans) (hk : k < n)
    (hvs : ∀ v ∈ vs, v ∈ occupants g live k) : Tight g live n (vs.foldl (touch k) spans) := by
  induction vs generalizing spans with
  | nil => exact h
  | cons v vs ih =>
    rw [List.forall_mem_cons] at hvs
    exact ih (h.touched hk hvs.1) hvs.2

theorem spans_tight (g : FlowGraph) (live : Liveness) :
    Tight g live g.size (Interval.spans g live) := by
  have hfold : ∀ (ks : List Nat) (spans : Spans), (∀ k ∈ ks, k < g.size) →
      Tight g live g.size spans → Tight g live g.size
        (ks.foldl (fun acc k => (occupants g live k).toList.foldl (touch k) acc) spans) := by
    intro ks
    induction ks with
    | nil => exact fun spans _ h => h
    | cons k ks ih =>
      intro spans hks h
      rw [List.forall_mem_cons] at hks
      exact ih _ hks.2 (h.foldl_touched hks.1 fun v hv => Std.ExtTreeSet.mem_toList.mp hv)
  refine hfold _ ∅ (fun k hk => List.mem_range.mp hk) fun v a b h => ?_
  simp at h

/-! ## The order of the scan -/

theorem insertByStart_perm (i : Interval) (is : List Interval) :
    (insertByStart i is).Perm (i :: is) := by
  induction is with
  | nil => exact .refl _
  | cons j is ih =>
    rw [insertByStart]
    split
    · exact .refl _
    · exact (ih.cons j).trans (.swap i j is)

theorem sortByStart_perm (is : List Interval) : (sortByStart is).Perm is := by
  induction is with
  | nil => exact .refl _
  | cons i is ih => exact (insertByStart_perm i _).trans (ih.cons i)

theorem start_le_of_startsBefore {i j : Interval} :
    (i.startsBefore j = true → i.start ≤ j.start) ∧
      (i.startsBefore j = false → j.start ≤ i.start) := by
  unfold startsBefore
  constructor
  · intro h
    simp at h
    omega
  · intro h
    simp at h
    omega

theorem insertByStart_sorted {i : Interval} {is : List Interval}
    (h : is.Pairwise fun a b => a.start ≤ b.start) :
    (insertByStart i is).Pairwise fun a b => a.start ≤ b.start := by
  induction is with
  | nil => exact List.pairwise_singleton _ _
  | cons j is ih =>
    rw [List.pairwise_cons] at h
    rw [insertByStart]
    split
    · rename_i hij
      have hle := start_le_of_startsBefore.1 hij
      refine List.pairwise_cons.mpr ⟨List.forall_mem_cons.mpr ⟨hle, fun b hb => ?_⟩,
        List.pairwise_cons.mpr h⟩
      exact Nat.le_trans hle (h.1 b hb)
    · rename_i hij
      have hle := start_le_of_startsBefore.2 (Bool.eq_false_iff.mpr hij)
      refine List.pairwise_cons.mpr ⟨fun b hb => ?_, ih h.2⟩
      rcases List.mem_cons.mp ((insertByStart_perm i is).mem_iff.mp hb) with rfl | hb
      · exact hle
      · exact h.1 b hb

theorem sortByStart_sorted (is : List Interval) :
    (sortByStart is).Pairwise fun a b => a.start ≤ b.start := by
  induction is with
  | nil => exact .nil
  | cons i is ih => exact insertByStart_sorted ih

theorem all_sorted (g : FlowGraph) (live : Liveness) :
    (all g live).Pairwise fun a b => a.start ≤ b.start :=
  sortByStart_sorted _

/-- Each temporary has one interval. -/
theorem all_nodup (g : FlowGraph) (live : Liveness) : ((all g live).map (·.vreg)).Nodup := by
  refine ((sortByStart_perm _).map (·.vreg)).nodup_iff.mpr ?_
  rw [List.map_map]
  have hkeys := (spans g live).distinct_keys_toList
  rw [List.Nodup, List.pairwise_map]
  exact hkeys.imp fun hne e => hne (Std.compare_eq_iff_eq.mpr e)

/-- A temporary that needs a location at instruction `k` has an interval that contains `k`. -/
theorem mem_all (hk : k < g.size) (hv : v ∈ occupants g live k) :
    ∃ i ∈ all g live, i.vreg = v ∧ i.start ≤ k ∧ k ≤ i.stop := by
  obtain ⟨a, b, hspan, ha, hb⟩ := (spans_upto g live g.size).2 k hk v hv
  refine ⟨⟨v, a, b⟩, ?_, rfl, ha, hb⟩
  refine (sortByStart_perm _).mem_iff.mpr (List.mem_map.mpr ⟨(v, a, b), ?_, rfl⟩)
  exact Std.ExtTreeMap.mem_toList_iff_getElem?_eq_some.mpr hspan

/-- An interval is not empty, and its temporary needs a location at both ends. -/
theorem ends_of_mem_all {i : Interval} (hi : i ∈ all g live) :
    i.start ≤ i.stop ∧ i.stop < g.size ∧ i.vreg ∈ occupants g live i.start ∧
      i.vreg ∈ occupants g live i.stop := by
  obtain ⟨⟨v, a, b⟩, hmem, rfl⟩ := List.mem_map.mp ((sortByStart_perm _).mem_iff.mp hi)
  have hspan : (Interval.spans g live)[v]? = some (a, b) :=
    Std.ExtTreeMap.mem_toList_iff_getElem?_eq_some.mp hmem
  exact ⟨((spans_upto g live g.size).1 g.size le_rfl v a b hspan).1, spans_tight g live v a b hspan⟩

end Interval

end ChocoRV
