import Mathlib
import ChocoRV.Alloc.Scan
import ChocoRV.Proofs.Except

/-!
# What the scan keeps

After every visit, every visited temporary has a location, and no two temporaries share a frame word
(`Scan.Handed`). In a pool without repetition, intervals that share a register do not overlap.
`Scan.Sound` is the invariant behind that, with one lemma for each thing that a visit does: letting
intervals expire, giving out a slot, and moving a temporary to the frame.
-/

namespace ChocoRV

namespace Scan

/-- Every visited temporary has a location. The frame words given out so far are the first ones,
each to one temporary. -/
structure Handed (setup : Setup) (done : List Interval) (s : State) : Prop where
  placed : ∀ i ∈ done, ∃ loc, s.assignment[i.vreg]? = some loc
  spilled {v : Nat} {o : Int32} (h : s.assignment[v]? = some (.spill o)) :
    ∃ k < s.spills, o = spillOffset setup.spillBase k
  alone {v w : Nat} {o : Int32} (h : s.assignment[v]? = some (.spill o))
    (h' : s.assignment[w]? = some (.spill o)) : v = w
  /-- Every offset given out can be reached from `fp`. -/
  reach : ∀ k < s.spills, minOffset.toInt ≤ setup.spillBase.toInt - 4 * k

/-- What holds after the intervals `done` have been visited, all of which start by `t`. -/
structure Sound (setup : Setup) (done : List Interval) (t : Nat) (s : State) : Prop
    extends Handed setup done s where
  visited {v : Nat} {loc : Location} (h : s.assignment[v]? = some loc) : ∃ i ∈ done, i.vreg = v
  reg {v : Nat} {p : PhysReg} (h : s.assignment[v]? = some (.reg p)) : p ∈ setup.pool
  /-- Active intervals hold their slot of the pool. -/
  active {a : Active} (h : a ∈ s.active) : a.interval ∈ done ∧ a.slot < setup.pool.length ∧
    s.assignment[a.interval.vreg]? = some (.reg (setup.pool.getD a.slot .zero))
  slots : (s.active.map (·.slot)).Nodup
  /-- An interval with a register is active or over. -/
  held {i : Interval} {p : PhysReg} (hi : i ∈ done) (h : s.assignment[i.vreg]? = some (.reg p)) :
    (∃ a ∈ s.active, a.interval = i) ∨ i.stop < t
  apart {i j : Interval} {p : PhysReg} (hi : i ∈ done) (hj : j ∈ done) (hne : i.vreg ≠ j.vreg)
    (h : s.assignment[i.vreg]? = some (.reg p)) (h' : s.assignment[j.vreg]? = some (.reg p)) :
    i.stop < j.start ∨ j.stop < i.start
  /-- Every frame word that was given out is in use. -/
  given : ∀ k < s.spills, ∃ v : Nat,
    s.assignment[v]? = some (.spill (spillOffset setup.spillBase k))

variable {setup : Setup} {done done' : List Interval} {t : Nat} {s s' : State} {iv : Interval}

/-! ## Visits -/

/-- The state in which an interval is placed: those that are over before it starts are gone. -/
def expired (s : State) (iv : Interval) : State :=
  { s with active := s.active.filter fun a => iv.start ≤ a.interval.stop }

variable {active : List Active}

theorem freeSlot?_eq_some {n slot : Nat} (h : freeSlot? n active = some slot) :
    slot < n ∧ ∀ a ∈ active, a.slot ≠ slot := by
  refine ⟨List.mem_range.mp (List.mem_of_find?_eq_some h), fun a ha => ?_⟩
  have hall := List.find?_some h
  exact bne_iff_ne.mp (List.all_eq_true.mp hall a ha)

theorem lastActive?_eq_none (h : lastActive? active = none) : active = [] := by
  cases active with
  | nil => rfl
  | cons a rest =>
    rw [lastActive?] at h
    split at h <;> cases h

theorem stop_le_of_endsAfter {i j : Interval} : (i.endsAfter j = true → j.stop ≤ i.stop) ∧
    (i.endsAfter j = false → i.stop ≤ j.stop) := by
  unfold Interval.endsAfter
  grind

/-- No active interval ends after the one that is chosen. -/
theorem lastActive?_eq_some {a : Active} (h : lastActive? active = some a) :
    a ∈ active ∧ ∀ b ∈ active, b.interval.stop ≤ a.interval.stop := by
  induction active generalizing a with
  | nil => cases h
  | cons c rest ih =>
    rw [lastActive?] at h
    split at h
    · rename_i d hd
      obtain ⟨hmem, hrest⟩ := ih hd
      cases h
      split
      · rename_i hafter
        exact ⟨.tail _ hmem, List.forall_mem_cons.mpr ⟨stop_le_of_endsAfter.1 hafter, hrest⟩⟩
      · rename_i hafter
        refine ⟨.head _, List.forall_mem_cons.mpr ⟨Nat.le_refl _, fun b hb => ?_⟩⟩
        exact (hrest b hb).trans (stop_le_of_endsAfter.2 (Bool.eq_false_iff.mpr hafter))
    · rename_i hnone
      cases h
      rw [lastActive?_eq_none hnone]
      exact ⟨.head _, List.forall_mem_singleton.mpr (Nat.le_refl _)⟩

/-- What a visit does: it gives out a free slot; or, without one, it moves the active interval that
ends last to the frame and gives out its slot, or moves the interval itself to the frame where that
ends last. -/
theorem visit_cases (setup : Setup) (s : State) (iv : Interval) :
    (∃ slot, freeSlot? setup.pool.length (expired s iv).active = some slot ∧
      visit setup s iv = .ok (assign setup (expired s iv) iv slot)) ∨
    freeSlot? setup.pool.length (expired s iv).active = none ∧
      ((∃ victim ∈ (expired s iv).active, iv.stop ≤ victim.interval.stop ∧
          (∀ a ∈ (expired s iv).active, a.interval.stop ≤ victim.interval.stop) ∧
          visit setup s iv = spill setup (expired s iv) victim.interval.vreg >>= fun s =>
            .ok (assign setup { s with active := s.active.filter (· != victim) } iv victim.slot)) ∨
        (∀ a ∈ (expired s iv).active, a.interval.stop ≤ iv.stop) ∧
          visit setup s iv = spill setup (expired s iv) iv.vreg) := by
  unfold Scan.visit
  dsimp only
  split
  · exact .inl ⟨_, ‹_›, rfl⟩
  refine .inr ⟨‹_›, ?_⟩
  split
  · rename_i victim hlast
    obtain ⟨hmem, hlast⟩ := lastActive?_eq_some hlast
    split
    · rename_i hafter
      exact .inl ⟨victim, hmem, stop_le_of_endsAfter.1 hafter, hlast, rfl⟩
    · rename_i hafter
      have hle := stop_le_of_endsAfter.2 (Bool.eq_false_iff.mpr hafter)
      exact .inr ⟨fun a ha => (hlast a ha).trans hle, rfl⟩
  · rename_i hnone
    refine .inr ⟨fun a ha => ?_, rfl⟩
    have hnil : (expired s iv).active = [] := lastActive?_eq_none hnone
    rw [hnil] at ha
    cases ha

theorem visit_eq_ok (h : visit setup s iv = .ok s') :
    (∃ slot, freeSlot? setup.pool.length (expired s iv).active = some slot ∧
      s' = assign setup (expired s iv) iv slot) ∨
    (∃ victim ∈ (expired s iv).active, ∃ s₁,
      spill setup (expired s iv) victim.interval.vreg = .ok s₁ ∧
      s' = assign setup { s₁ with active := s₁.active.filter (· != victim) } iv victim.slot) ∨
    spill setup (expired s iv) iv.vreg = .ok s' := by
  rcases visit_cases setup s iv with ⟨slot, hfree, heq⟩ | ⟨-, ⟨victim, hmem, -, -, heq⟩ | ⟨-, heq⟩⟩
  · exact .inl ⟨slot, hfree, Except.ok.inj (h.symm.trans heq)⟩
  · obtain ⟨s₁, hs₁, h⟩ := bind_eq_ok_iff.mp (heq.symm.trans h)
    exact .inr (.inl ⟨victim, hmem, s₁, hs₁, (Except.ok.inj h).symm⟩)
  · exact .inr (.inr (heq.symm.trans h))

/-! ## Frame words -/

variable {v : Nat}

theorem getElem?_insert {m : Std.ExtTreeMap Nat Location} {u : Nat} {loc : Location} :
    (m.insert v loc)[u]? = if v = u then some loc else m[u]? := by
  simp only [Std.ExtTreeMap.getElem?_insert, Std.compare_eq_iff_eq]

/-- Offsets that stay in range have not wrapped around. -/
theorem toInt_spillOffset {base : Int32} {k : Nat} (h : -2147483648 ≤ base.toInt - 4 * k) :
    (spillOffset base k).toInt = base.toInt - 4 * k := by
  have hlt := base.toInt_lt
  have hk : (Int32.ofNat k).toInt = k := by
    rw [Int32.toInt_ofNat_of_lt]
    omega
  have h4 : (4 : Int32).toInt = 4 := rfl
  rw [spillOffset, Int32.toInt_sub, Int32.toInt_mul, hk, h4, Int.sub_bmod_bmod]
  exact (Int.bmod_eq_of_le (by omega) (by omega)).trans (by omega)

/-- A word below offsets that are in reach has not wrapped around. -/
theorem lower_bound_of_reach {base : Int32} {n : Nat}
    (h : ∀ k < n, minOffset.toInt ≤ base.toInt - 4 * k) : -2147483648 ≤ base.toInt - 4 * n := by
  have hmin : minOffset.toInt = -2048 := rfl
  cases n with
  | zero =>
    have := base.le_toInt
    omega
  | succ n =>
    have := h n (Nat.lt_succ_self n)
    omega

/-- The next offset is checked, and the one before it was in reach. -/
theorem reach_next {base : Int32} {n : Nat} (h : ∀ k < n, minOffset.toInt ≤ base.toInt - 4 * k)
    (hnext : ¬ spillOffset base n < minOffset) :
    ∀ k < n + 1, minOffset.toInt ≤ base.toInt - 4 * k := by
  intro k hk
  rcases Nat.lt_succ_iff_lt_or_eq.mp hk with hk | rfl
  · exact h k hk
  rw [Int32.lt_iff_toInt_lt, toInt_spillOffset (lower_bound_of_reach h)] at hnext
  omega

theorem spill_eq_ok (h : spill setup s v = .ok s') :
    ¬ spillOffset setup.spillBase s.spills < minOffset ∧
      s' = ⟨s.active, s.assignment.insert v (.spill (spillOffset setup.spillBase s.spills)),
        s.spills + 1⟩ := by
  by_cases hreach : spillOffset setup.spillBase s.spills < minOffset
  · rw [Scan.spill, if_pos hreach] at h
    cases h
  · rw [Scan.spill, if_neg hreach] at h
    exact ⟨hreach, (Except.ok.inj h).symm⟩

variable {is : List Interval}

namespace Handed

theorem start (setup : Setup) : Handed setup [] start where
  placed := List.forall_mem_nil _
  spilled h := by simp [Scan.start] at h
  alone h := by simp [Scan.start] at h
  reach k hk := absurd hk (Nat.not_lt_zero k)

variable (h : Handed setup done s)

include h

/-- The offsets given out have not wrapped around. -/
theorem toInt_offset {k : Nat} (hk : k < s.spills) :
    (spillOffset setup.spillBase k).toInt = setup.spillBase.toInt - 4 * k := by
  have hmin : minOffset.toInt = -2048 := rfl
  have hreach := h.reach k hk
  exact toInt_spillOffset (by omega)

theorem bounds {o : Int32} (hv : s.assignment[v]? = some (.spill o)) :
    -2048 ≤ o.toInt ∧ o.toInt ≤ setup.spillBase.toInt := by
  obtain ⟨k, hk, rfl⟩ := h.spilled hv
  have hreach : -2048 ≤ setup.spillBase.toInt - 4 * k := h.reach k hk
  rw [h.toInt_offset hk]
  omega

/-- One more temporary has got a location. -/
theorem placed_insert (loc : Location)
    (hdone : ∀ i ∈ done', i.vreg = v ∨ i ∈ done) :
    ∀ i ∈ done', ∃ loc', (s.assignment.insert v loc)[i.vreg]? = some loc' := by
  intro i hi
  rw [getElem?_insert]
  split
  · exact ⟨loc, rfl⟩
  · exact h.placed i ((hdone i hi).resolve_left (Ne.symm ‹_›))

/-- A register takes nothing of the frame. -/
theorem assign (iv : Interval) (slot : Nat) (active : List Active) :
    Handed setup (iv :: done) (Scan.assign setup { s with active } iv slot) := by
  have hkept {v : Nat} {o : Int32}
      (hv : (Scan.assign setup { s with active } iv slot).assignment[v]? = some (.spill o)) :
      s.assignment[v]? = some (.spill o) := by
    rw [Scan.assign, getElem?_insert] at hv
    split at hv
    · cases hv
    · exact hv
  exact ⟨h.placed_insert _ fun i hi => (List.mem_cons.mp hi).imp_left (congrArg Interval.vreg),
    fun hv => h.spilled (hkept hv), fun hv hw => h.alone (hkept hv) (hkept hw), h.reach⟩

/-- The word given out next is below all the others. -/
theorem spill (hs : Scan.spill setup s v = .ok s')
    (hdone : ∀ i ∈ done', i.vreg = v ∨ i ∈ done) : Handed setup done' s' := by
  obtain ⟨hnext, rfl⟩ := spill_eq_ok hs
  have hreach := reach_next h.reach hnext
  have hmin : minOffset.toInt = -2048 := rfl
  have hnew {w : Nat} (hw : s.assignment[w]? =
    some (.spill (spillOffset setup.spillBase s.spills))) :
      False := by
    obtain ⟨k, hk, heq⟩ := h.spilled hw
    have hlast := hreach s.spills (Nat.lt_succ_self _)
    have hint := h.toInt_offset hk
    rw [← heq, toInt_spillOffset (by omega)] at hint
    omega
  refine ⟨h.placed_insert _ hdone, fun {w o} hw => ?_, fun {w u o} hw hu => ?_, hreach⟩
  · rw [getElem?_insert] at hw
    split at hw
    · cases hw
      exact ⟨s.spills, Nat.lt_succ_self _, rfl⟩
    · obtain ⟨k, hk, rfl⟩ := h.spilled hw
      exact ⟨k, Nat.lt_succ_of_lt hk, rfl⟩
  · rw [getElem?_insert] at hw hu
    split at hw <;> split at hu
    · omega
    · cases hw
      exact absurd hu hnew
    · cases hu
      exact absurd hw hnew
    · exact h.alone hw hu

theorem visit (hv : Scan.visit setup s iv = .ok s') :
    Handed setup (iv :: done) s' := by
  have hexp : Handed setup done (expired s iv) := { h with }
  rcases visit_eq_ok hv with ⟨slot, -, rfl⟩ | ⟨victim, -, s₁, hs₁, rfl⟩ | hs
  · exact hexp.assign iv slot _
  · exact (hexp.spill hs₁ fun _ hi => .inr hi).assign iv victim.slot _
  · exact hexp.spill hs fun i hi => (List.mem_cons.mp hi).imp_left (congrArg Interval.vreg)

theorem foldlM (hrun : is.foldlM (Scan.visit setup) s = .ok s') :
    Handed setup (is.reverse ++ done) s' := by
  induction is generalizing done s with
  | nil =>
    cases hrun
    exact h
  | cons iv is ih =>
    rw [List.foldlM_cons] at hrun
    obtain ⟨s₁, hs₁, hrun⟩ := bind_eq_ok_iff.mp hrun
    rw [List.reverse_cons, List.append_assoc]
    exact ih (h.visit hs₁) hrun

end Handed

theorem handed_of_run (hrun : run setup is = .ok s) : Handed setup is.reverse s := by
  have h := (Handed.start setup).foldlM hrun
  rwa [List.append_nil] at h

/-! ## Registers -/

theorem Sound.start (setup : Setup) : Sound setup [] 0 start where
  toHanded := .start setup
  visited h := by simp [Scan.start] at h
  reg h := by simp [Scan.start] at h
  active h := nomatch h
  slots := .nil
  held hi := nomatch hi
  apart hi := nomatch hi
  given k hk := absurd hk (Nat.not_lt_zero k)

theorem Sound.expired (h : Sound setup done t s) (ht : t ≤ iv.start) :
    Sound setup done iv.start (expired s iv) :=
  { h with
    active := fun ha => h.active (List.mem_filter.mp ha).1
    slots := h.slots.sublist (List.filter_sublist.map _)
    held := by
      intro i p hi hreg
      rcases h.held hi hreg with ⟨a, ha, rfl⟩ | hover
      · by_cases hstop : iv.start ≤ a.interval.stop
        · exact .inl ⟨a, List.mem_filter.mpr ⟨ha, decide_eq_true hstop⟩, rfl⟩
        · exact .inr (Nat.lt_of_not_le hstop)
      · exact .inr (Nat.lt_of_lt_of_le hover ht) }

/-- Of two slots of a pool without repetition, only the same one has the same register. -/
theorem slot_eq (hpool : setup.pool.Nodup) {k n : Nat} (hk : k < setup.pool.length)
    (hn : n < setup.pool.length)
    (h : setup.pool.getD k .zero = setup.pool.getD n .zero) : k = n := by
  rw [List.getD_eq_getElem _ _ hk, List.getD_eq_getElem _ _ hn] at h
  exact (hpool.getElem_inj_iff).mp h

/-- An interval that has not been visited takes a slot that none of the active ones holds. -/
theorem Sound.assign (hpool : setup.pool.Nodup) (h : Sound setup done iv.start s)
    (hnew : ∀ i ∈ done, i.vreg ≠ iv.vreg) {slot : Nat} (hslot : slot < setup.pool.length)
    (hfree : ∀ a ∈ s.active, a.slot ≠ slot) :
    Sound setup (iv :: done) iv.start (assign setup s iv slot) := by
  have hget (u : Nat) : (Scan.assign setup s iv slot).assignment[u]? =
      if iv.vreg = u then some (.reg (setup.pool.getD slot .zero)) else s.assignment[u]? :=
    getElem?_insert
  have hself : (Scan.assign setup s iv slot).assignment[iv.vreg]? =
      some (.reg (setup.pool.getD slot .zero)) := by
    rw [hget, if_pos rfl]
  have hold {i : Interval} (hi : i ∈ done) :
      (Scan.assign setup s iv slot).assignment[i.vreg]? = s.assignment[i.vreg]? := by
    rw [hget, if_neg (Ne.symm (hnew i hi))]
  -- A visited interval that has the register of the slot is over: no active one has it.
  have hover {i : Interval} (hi : i ∈ done)
      (hreg : s.assignment[i.vreg]? = some (.reg (setup.pool.getD slot .zero))) :
      i.stop < iv.start := by
    rcases h.held hi hreg with ⟨a, ha, rfl⟩ | hover
    · obtain ⟨-, hlt, hreg'⟩ := h.active ha
      rw [hreg] at hreg'
      have heq := slot_eq hpool hslot hlt (Location.reg.inj (Option.some.inj hreg'))
      exact absurd heq.symm (hfree a ha)
    · exact hover
  refine { toHanded := h.toHanded.assign iv slot s.active, visited := ?_, reg := ?_, active := ?_,
           slots := ?_, held := ?_, apart := ?_, given := ?_ }
  · intro v loc hv
    rw [hget] at hv
    split at hv
    · exact ⟨iv, .head _, ‹_›⟩
    · obtain ⟨i, hi, hiv⟩ := h.visited hv
      exact ⟨i, .tail _ hi, hiv⟩
  · intro v p hv
    rw [hget] at hv
    split at hv
    · cases hv
      rw [List.getD_eq_getElem _ _ hslot]
      exact List.getElem_mem hslot
    · exact h.reg hv
  · intro a ha
    rcases List.mem_cons.mp ha with rfl | ha
    · exact ⟨.head _, hslot, hself⟩
    obtain ⟨hdone, hlt, hreg⟩ := h.active ha
    exact ⟨.tail _ hdone, hlt, (hold hdone).trans hreg⟩
  · refine List.nodup_cons.mpr ⟨fun hmem => ?_, h.slots⟩
    obtain ⟨a, ha, heq⟩ := List.mem_map.mp hmem
    exact hfree a ha heq
  · intro i p hi hreg
    rcases List.mem_cons.mp hi with rfl | hi
    · exact .inl ⟨_, .head _, rfl⟩
    · rw [hold hi] at hreg
      exact (h.held hi hreg).imp_left fun ⟨a, ha, hai⟩ => ⟨a, .tail _ ha, hai⟩
  · intro i j p hi hj hne hreg hreg'
    rcases List.mem_cons.mp hi with rfl | hi' <;> rcases List.mem_cons.mp hj with rfl | hj'
    · exact absurd rfl hne
    · exact .inr (hover hj' ((hold hj').symm.trans (hreg'.trans (hreg.symm.trans hself))))
    · exact .inl (hover hi' ((hold hi').symm.trans (hreg.trans (hreg'.symm.trans hself))))
    · exact h.apart hi' hj' hne ((hold hi').symm.trans hreg) ((hold hj').symm.trans hreg')
  · intro k hk
    obtain ⟨v, hv⟩ := h.given k hk
    obtain ⟨i, hi, rfl⟩ := h.visited hv
    exact ⟨i.vreg, (hold hi).trans hv⟩

/-- Temporary `v` moves to the frame, and what it held becomes free. -/
theorem Sound.spill (h : Sound setup done t s) (hs : spill setup s v = .ok s')
    (hreg : ∀ o, s.assignment[v]? ≠ some (.spill o)) (hsub : ∀ i ∈ done, i ∈ done')
    (hdone : ∀ i ∈ done', i.vreg = v ∨ i ∈ done) (hv : ∃ i ∈ done', i.vreg = v)
    (hactive : active.Sublist s.active) (hkeep : ∀ a ∈ s.active, a.interval.vreg ≠ v → a ∈ active)
    (hgone : ∀ a ∈ active, a.interval.vreg ≠ v) : Sound setup done' t { s' with active } := by
  have hhanded := h.toHanded.spill hs hdone
  obtain ⟨-, rfl⟩ := spill_eq_ok hs
  have hget (u : Nat) : (s.assignment.insert v
      (.spill (spillOffset setup.spillBase s.spills)))[u]? =
      if v = u then some (.spill (spillOffset setup.spillBase s.spills)) else s.assignment[u]? :=
    getElem?_insert
  have hstay {u : Nat} {p : PhysReg} (hu : (s.assignment.insert v
      (.spill (spillOffset setup.spillBase s.spills)))[u]? = some (.reg p)) :
      v ≠ u ∧ s.assignment[u]? = some (.reg p) := by
    rw [hget] at hu
    split at hu
    · cases hu
    · exact ⟨‹_›, hu⟩
  have hvisited {i : Interval} (hi : i ∈ done') (hne : v ≠ i.vreg) : i ∈ done :=
    (hdone i hi).resolve_left (Ne.symm hne)
  refine { toHanded := { hhanded with }, visited := ?_, reg :=
    fun hu => h.reg (hstay hu).2, active := ?_,
           slots := h.slots.sublist (hactive.map _), held := ?_, apart := ?_, given := ?_ }
  · intro u loc hu
    rw [hget] at hu
    split at hu
    · rename_i heq
      exact heq ▸ hv
    · obtain ⟨i, hi, hiu⟩ := h.visited hu
      exact ⟨i, hsub i hi, hiu⟩
  · intro a ha
    obtain ⟨hd, hlt, hr⟩ := h.active (hactive.subset ha)
    refine ⟨hsub _ hd, hlt, ?_⟩
    simp only [hget, if_neg (Ne.symm (hgone a ha))]
    exact hr
  · intro i p hi hr
    obtain ⟨hne, hr⟩ := hstay hr
    refine (h.held (hvisited hi hne) hr).imp_left ?_
    rintro ⟨a, ha, rfl⟩
    exact ⟨a, hkeep a ha (Ne.symm hne), rfl⟩
  · intro i j p hi hj hne hr hr'
    obtain ⟨hni, hr⟩ := hstay hr
    obtain ⟨hnj, hr'⟩ := hstay hr'
    exact h.apart (hvisited hi hni) (hvisited hj hnj) hne hr hr'
  · intro k hk
    rcases Nat.lt_succ_iff_lt_or_eq.mp hk with hk | rfl
    · obtain ⟨u, hu⟩ := h.given k hk
      have hne : v ≠ u := by
        rintro rfl
        exact hreg _ hu
      exact ⟨u, by rw [hget, if_neg hne, hu]⟩
    · exact ⟨v, by rw [hget, if_pos rfl]⟩

/-- Active intervals of one temporary are the same. -/
theorem Sound.active_unique (hpool : setup.pool.Nodup) (h : Sound setup done t s) {a b : Active}
    (ha : a ∈ s.active) (hb : b ∈ s.active) (heq : a.interval.vreg = b.interval.vreg) : a = b := by
  obtain ⟨-, hla, hra⟩ := h.active ha
  obtain ⟨-, hlb, hrb⟩ := h.active hb
  rw [heq, hrb] at hra
  have hslot := slot_eq hpool hlb hla (Location.reg.inj (Option.some.inj hra))
  exact List.inj_on_of_nodup_map h.slots ha hb hslot.symm

/-- A visit adds its interval to the visited ones. -/
theorem Sound.visit (hpool : setup.pool.Nodup) (h : Sound setup done t s) (ht : t ≤ iv.start)
    (hnew : ∀ i ∈ done, i.vreg ≠ iv.vreg) (hv : visit setup s iv = .ok s') :
    Sound setup (iv :: done) iv.start s' := by
  have hexp := h.expired ht
  rcases visit_eq_ok hv with ⟨slot, hfree, rfl⟩ | ⟨victim, hmem, s₁, hs₁, rfl⟩ | hs
  · obtain ⟨hlt, hunused⟩ := freeSlot?_eq_some hfree
    exact hexp.assign hpool hnew hlt hunused
  · obtain ⟨hdone, hlt, hreg⟩ := hexp.active hmem
    have hsame : s₁.active = (Scan.expired s iv).active := by rw [(spill_eq_ok hs₁).2]
    rw [hsame]
    have hothers {a : Active} (ha : a ∈ (Scan.expired s iv).active.filter (· != victim)) :
        a ∈ (Scan.expired s iv).active ∧ a ≠ victim := by
      obtain ⟨hin, hne⟩ := List.mem_filter.mp ha
      exact ⟨hin, bne_iff_ne.mp hne⟩
    have hsound := hexp.spill hs₁ (fun o ho => by cases hreg.symm.trans ho) (fun i hi => hi)
      (fun i hi => .inr hi) ⟨_, hdone, rfl⟩ (List.filter_sublist (p := (· != victim)))
      (fun a ha hne => List.mem_filter.mpr ⟨ha, bne_iff_ne.mpr fun e => hne (e ▸ rfl)⟩)
      (fun a ha e => (hothers ha).2 (hexp.active_unique hpool (hothers ha).1 hmem e))
    refine hsound.assign hpool hnew hlt fun a ha hslot => ?_
    exact (hothers ha).2 (List.inj_on_of_nodup_map hexp.slots (hothers ha).1 hmem hslot)
  · have hsame : s'.active = (Scan.expired s iv).active := by rw [(spill_eq_ok hs).2]
    have hnone (o : Int32) : (Scan.expired s iv).assignment[iv.vreg]? ≠ some (.spill o) := by
      intro ho
      obtain ⟨i, hi, heq⟩ := hexp.visited ho
      exact hnew i hi heq
    have hsound := hexp.spill hs hnone (fun i hi => List.mem_cons_of_mem iv hi)
      (fun i hi => (List.mem_cons.mp hi).imp_left (congrArg Interval.vreg))
      ⟨iv, .head _, rfl⟩ (.refl _) (fun a ha _ => ha) (fun a ha => hnew _ (hexp.active ha).1)
    rw [← hsame] at hsound
    exact hsound

/-- The scan visits all intervals, if they come in the order in which they start and belong to
different temporaries. -/
theorem Sound.foldlM (hpool : setup.pool.Nodup) (h : Sound setup done t s)
    (hsorted : is.Pairwise fun a b => a.start ≤ b.start) (ht : ∀ i ∈ is, t ≤ i.start)
    (hnodup : (is.map (·.vreg)).Nodup) (hnew : ∀ i ∈ is, ∀ j ∈ done, j.vreg ≠ i.vreg)
    (hrun : is.foldlM (Scan.visit setup) s = .ok s') :
    ∃ t', Sound setup (is.reverse ++ done) t' s' := by
  induction is generalizing done t s with
  | nil =>
    cases hrun
    exact ⟨t, h⟩
  | cons iv is ih =>
    rw [List.foldlM_cons] at hrun
    obtain ⟨s₁, hs₁, hrun⟩ := bind_eq_ok_iff.mp hrun
    rw [List.pairwise_cons] at hsorted
    rw [List.map_cons, List.nodup_cons] at hnodup
    rw [List.forall_mem_cons] at ht hnew
    have hnext := h.visit hpool ht.1 hnew.1 hs₁
    rw [List.reverse_cons, List.append_assoc]
    refine ih hnext hsorted.2 hsorted.1 hnodup.2 (fun i hi => ?_) hrun
    refine List.forall_mem_cons.mpr ⟨fun e => hnodup.1 ?_, hnew.2 i hi⟩
    rw [e]
    exact List.mem_map_of_mem hi

theorem sound_of_run (hpool : setup.pool.Nodup) (hsorted : is.Pairwise fun a b => a.start ≤ b.start)
    (hnodup : (is.map (·.vreg)).Nodup) (hrun : run setup is = .ok s) :
    ∃ t, Sound setup is.reverse t s := by
  have h := (Sound.start setup).foldlM hpool hsorted (fun _ _ => Nat.zero_le _) hnodup
    (fun _ _ _ hj => nomatch hj) hrun
  rw [List.append_nil] at h
  exact h

end Scan

end ChocoRV
