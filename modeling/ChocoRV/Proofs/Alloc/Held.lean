import Mathlib
import ChocoRV.Proofs.Alloc.Surround
import ChocoRV.Proofs.Draft.Fills
import ChocoRV.Proofs.Draft.Supply

/-!
# What needs a location is held

`heldAt` says which temporaries a draft holds at each of its instructions. They lie between their
take and their release, so a temporary that is held at two instructions is held at all between them
(`Nested.mem_heldAt_of_between`). Liveness stays within every family of sets that is closed under
the flow of control (`FlowGraph.Closed`), and the filled temporaries of a draft are such a family.
So a temporary that needs a location at an instruction is held there
(`Filled.mem_heldAt_of_occupants`).
-/

namespace ChocoRV

open Assembly Image

/-! ## The flow of control -/

namespace FlowGraph

/-- A temporary that needs a location at an instruction belongs to its set or is mentioned. -/
theorem Closed.mem_of_occupants {g : FlowGraph} {S : Nat → Nat → Prop} {k v : Nat} {o : Op Label}
    (h : g.Closed S) (ho : g.ops[k]? = some o) (hv : v ∈ Interval.occupants g g.liveness k) :
    S k v ∨ v ∈ o.virts := by
  have hk : k < g.size := (Array.getElem?_eq_some_iff.mp ho).1
  rw [Interval.occupants, ho, Std.ExtTreeSet.mem_union_iff, Std.ExtTreeSet.mem_union_iff] at hv
  rcases hv with (hin | hout) | hmention
  · exact .inl (h.liveIn k v hin)
  · obtain ⟨s, hs, hmem⟩ := (mem_liveOut hk).mp hout
    rcases h.flows ho hs (h.liveIn s v hmem) with hdef | hmem
    · exact .inr (List.mem_append_left _ (Option.mem_toList.mpr hdef))
    · exact .inl hmem
  · rw [Std.ExtTreeSet.mem_ofList, List.contains_iff_mem] at hmention
    exact .inr hmention

/-- Control goes on with the next instruction, or at a label of the stream that is named. -/
theorem cases_of_mem_succ {items : List Item} {k s : Nat} {i : Instr}
    (hi : (instrs items)[k]? = some i) (hs : s ∈ (ofItems items).succ k) :
    s = k + 1 ∨ ∃ l pre l' post, i.op.flow.target? = some l ∧ items = pre ++ .label l' :: post ∧
      l'.name = l.name ∧ s = (instrs pre).length := by
  have htable {l : Label} (h : (labelTable items)[l.name]? = some s) :
      ∃ pre l' post, items = pre ++ .label l' :: post ∧ l'.name = l.name ∧
        s = (instrs pre).length := by
    have hmem : (l.name, s) ∈ positions 0 items := by
      rcases mem_of_getElem?_foldl_insert h with hmem | hnone
      · exact hmem
      · simp at hnone
    obtain ⟨pre, l', post, hsplit, hname, hs⟩ := mem_positions.mp hmem
    exact ⟨pre, l', post, hsplit, hname, hs.trans (Nat.zero_add _)⟩
  have htarget {l : Label} (ht : i.op.flow.target? = some l)
      (h : s ∈ ((labelTable items)[l.name]?.filter (· < (instrs items).length)).toList) :
      ∃ l pre l' post, i.op.flow.target? = some l ∧ items = pre ++ .label l' :: post ∧
        l'.name = l.name ∧ s = (instrs pre).length := by
    obtain ⟨hget, -⟩ := Option.mem_filter_iff.mp (Option.mem_toList.mp h)
    obtain ⟨pre, l', post, hsplit, hname, hs⟩ := htable hget
    exact ⟨l, pre, l', post, ht, hsplit, hname, hs⟩
  have hnext (h : s ∈ if k + 1 < (instrs items).length then [k + 1] else []) : s = k + 1 := by
    split at h
    · exact List.mem_singleton.mp h
    · exact absurd h List.not_mem_nil
  rw [succ_ofItems hi, succsOf] at hs
  cases hflow : i.op.flow with
  | next =>
    rw [hflow] at hs
    exact .inl (hnext hs)
  | jump l =>
    rw [hflow] at hs htarget
    exact .inr (htarget rfl hs)
  | branch l =>
    rw [hflow] at hs htarget
    exact (List.mem_append.mp hs).imp hnext (htarget rfl)
  | exit =>
    rw [hflow] at hs
    exact absurd hs List.not_mem_nil

end FlowGraph

/-! ## Held temporaries -/

/-- The temporaries held before instruction `k` of events that begin with `H` held. -/
def heldAt : List Nat → List Event → Nat → List Nat
  | H, [], _ => H
  | H, .item (.label _) :: evs, k => heldAt H evs k
  | H, .item (.instr _) :: evs, k => Nat.casesOn k H (heldAt H evs)
  | H, .take t _ _ :: evs, k => heldAt (t :: H) evs k
  | H, .release _ :: evs, k => heldAt H.tail evs k

namespace Nested

variable {n n' t : Nat} {H H' : List Nat} {evs : List Event}

/-- A temporary that has been released is never held again. -/
theorem not_mem_heldAt (h : Nested n H evs n' H') (ht : t < n) (hH : t ∉ H) (k : Nat) :
    t ∉ heldAt H evs k := by
  induction h generalizing k with
  | nil => exact hH
  | label _ ih => exact ih ht hH k
  | instr _ _ ih =>
    cases k with
    | zero => exact hH
    | succ k => exact ih ht hH k
  | take _ ih =>
    refine ih (Nat.lt_succ_of_lt ht) (fun hmem => ?_) k
    rcases List.mem_cons.mp hmem with rfl | hmem
    · exact Nat.lt_irrefl _ ht
    · exact hH hmem
  | release _ ih => exact ih ht (fun hmem => hH (List.mem_cons_of_mem _ hmem)) k

/-- A temporary taken before the events is held until it is released. -/
theorem mem_heldAt_of_le (h : Nested n H evs n' H') (ht : t < n) {j m : Nat}
    (hj : t ∈ heldAt H evs j) (hm : m ≤ j) : t ∈ heldAt H evs m := by
  induction h generalizing j m with
  | nil => exact hj
  | label _ ih => exact ih ht hj hm
  | @instr n n' H H' i evs held h ih =>
    cases m with
    | zero =>
      by_contra hH
      exact (Nested.instr held h).not_mem_heldAt ht hH j hj
    | succ m =>
      cases j with
      | zero => exact absurd hm (Nat.not_succ_le_zero m)
      | succ j => exact ih ht hj (Nat.le_of_succ_le_succ hm)
  | take _ ih => exact ih (Nat.lt_succ_of_lt ht) hj hm
  | release _ ih => exact ih ht hj hm

theorem lt_of_mem_cons (hH : ∀ u ∈ H, u < n) : ∀ u ∈ n :: H, u < n + 1 := by
  intro u hu
  rcases List.mem_cons.mp hu with rfl | hu
  · exact Nat.lt_succ_self _
  · exact Nat.lt_succ_of_lt (hH u hu)

/-- What is held at two instructions is held at all between them. -/
theorem mem_heldAt_of_between (h : Nested n H evs n' H') (hH : ∀ u ∈ H, u < n) {i j m : Nat}
    (hi : t ∈ heldAt H evs i) (hj : t ∈ heldAt H evs j) (him : i ≤ m) (hmj : m ≤ j) :
    t ∈ heldAt H evs m := by
  induction h generalizing i j m with
  | nil => exact hi
  | label _ ih => exact ih hH hi hj him hmj
  | instr held h ih =>
    cases i with
    | zero => exact (Nested.instr held h).mem_heldAt_of_le (hH t hi) hj hmj
    | succ i =>
      obtain ⟨m, rfl⟩ : ∃ m', m = m' + 1 := ⟨m - 1, by omega⟩
      obtain ⟨j, rfl⟩ : ∃ j', j = j' + 1 := ⟨j - 1, by omega⟩
      exact ih hH hi hj (Nat.le_of_succ_le_succ him) (Nat.le_of_succ_le_succ hmj)
  | take _ ih => exact ih (lt_of_mem_cons hH) hi hj him hmj
  | release _ ih => exact ih (fun u hu => hH u (List.mem_cons_of_mem _ hu)) hi hj him hmj

/-- What an instruction mentions is held there. -/
theorem mem_heldAt_of_virts (h : Nested n H evs n' H') {k : Nat} {i : Instr}
    (hi : (instrs (Body.draftItems evs))[k]? = some i) (ht : t ∈ i.op.virts) :
    t ∈ heldAt H evs k := by
  induction h generalizing k with
  | nil => cases hi
  | label _ ih => exact ih hi
  | instr held _ ih =>
    cases k with
    | zero =>
      cases hi
      exact held t ht
    | succ k => exact ih hi
  | take _ ih => exact ih hi
  | release _ ih => exact ih hi

/-- Where every take is given a register, no more temporaries are held than there are registers. -/
theorem length_heldAt_le (h : Nested n H evs n' H') {pool : List PhysReg} {s final : Supply}
    {items : List Item} (hs : s.Stacked n H) (hr : Supply.run pool s evs = .ok (items, final))
    (hH : H.length ≤ pool.length) (k : Nat) : (heldAt H evs k).length ≤ pool.length := by
  induction h generalizing s items k with
  | nil => exact hH
  | label _ ih =>
    obtain ⟨rest, hr, -⟩ := Supply.run_item_eq_ok hr
    exact ih hs hr hH k
  | instr _ _ ih =>
    obtain ⟨rest, hr, -⟩ := Supply.run_item_eq_ok hr
    cases k with
    | zero => exact hH
    | succ k => exact ih hs hr hH k
  | take _ ih =>
    obtain ⟨hlt, hr⟩ := Supply.run_take_eq_ok hs hr
    exact ih hs.take hr hlt k
  | release _ ih => exact ih hs.release hr (Nat.le_of_succ_le hH) k

end Nested

/-! ## Filled temporaries -/

/-- The filled temporaries at each instruction of a stream, as `held` bounds them. -/
structure FilledAt (unit : String) (L : List (List Nat)) (items : List Item)
    (held fill : Nat → List Nat) : Prop where
  reads {k : Nat} {i : Instr} (hi : (instrs items)[k]? = some i) :
    ∀ r ∈ i.op.uses, r.FilledIn (fill k)
  aims {k : Nat} {i : Instr} (hi : (instrs items)[k]? = some i) : ∀ l ∈ i.op.flow.target?,
    (∃ K, l.HasLevel unit L K ∧ K ⊆ fill k) ∨ l ∈ Routine.errors
  step {k : Nat} {i : Instr} (hi : (instrs items)[k]? = some i) :
    fill (k + 1) ⊆ i.op.virtDef?.toList ++ fill k
  label {pre post : List Item} {l : Label} (hsplit : items = pre ++ .label l :: post) :
    ∃ K, l.HasLevel unit L K ∧ fill (instrs pre).length ⊆ K
  held {k : Nat} {i : Instr} (hi : (instrs items)[k]? = some i) : fill k ⊆ held k

namespace Filled

variable {unit : String} {L : List (List Nat)} {F F' H H' : List Nat} {evs : List Event}
  {n n' : Nat}

/-- The filled temporaries at each place, which are among those held. -/
theorem exists_filledAt (h : Filled unit L F evs F') (hn : Nested n H evs n' H') (hsub : F ⊆ H) :
    ∃ fill : Nat → List Nat, fill 0 ⊆ F ∧
      FilledAt unit L (Body.draftItems evs) (heldAt H evs) fill := by
  induction h generalizing n H with
  | @nil F F' hF =>
    refine ⟨fun _ => F, List.Subset.refl F, ⟨?_, ?_, ?_, ?_, ?_⟩⟩
    · intro k i hi
      cases hi
    · intro k i hi
      cases hi
    · intro k i hi
      cases hi
    · intro pre post l hsplit
      cases pre <;> cases hsplit
    · intro k i hi
      cases hi
  | take _ ih =>
    cases hn with
    | take hn => exact ih hn (List.subset_cons_of_subset _ hsub)
  | @release F F₁ F' t evs hF ht _ ih =>
    cases hn with
    | release hn =>
      have hsub₁ : F₁ ⊆ _ := fun v hv =>
        List.mem_of_ne_of_mem (ne_of_mem_of_not_mem hv ht) (hsub (hF hv))
      obtain ⟨fill, hzero, hfill⟩ := ih hn hsub₁
      exact ⟨fill, List.Subset.trans hzero hF, hfill⟩
  | @label F K F' l evs hl hF _ ih =>
    cases hn with
    | label hn =>
      obtain ⟨fill, hzero, hfill⟩ := ih hn (List.Subset.trans hF hsub)
      refine ⟨fill, List.Subset.trans hzero hF,
        ⟨hfill.reads, hfill.aims, hfill.step, fun {pre post l'} hsplit => ?_, hfill.held⟩⟩
      cases pre with
      | nil =>
        cases hsplit
        exact ⟨K, hl, hzero⟩
      | cons p pre =>
        obtain ⟨rfl, hrest⟩ := List.cons.inj hsplit
        obtain ⟨K', hK', hsub'⟩ := hfill.label hrest
        exact ⟨K', hK', hsub'⟩
  | @instr F F₁ F' i evs reads aims hF _ ih =>
    cases hn with
    | instr held hn =>
      have hsub₁ : F₁ ⊆ H := by
        refine List.Subset.trans hF (List.append_subset_of_subset_of_subset (fun v hv => ?_) hsub)
        exact held v (List.mem_append_left _ hv)
      obtain ⟨fill, hzero, hfill⟩ := ih hn hsub₁
      -- The numbers of the rest are one higher.
      refine ⟨fun k => Nat.casesOn k F fill, List.Subset.refl F, ⟨?_, ?_, ?_, ?_, ?_⟩⟩
      · intro k j hj
        cases k with
        | zero =>
          cases hj
          exact reads
        | succ k => exact hfill.reads hj
      · intro k j hj
        cases k with
        | zero =>
          cases hj
          exact aims
        | succ k => exact hfill.aims hj
      · intro k j hj
        cases k with
        | zero =>
          cases hj
          exact List.Subset.trans hzero hF
        | succ k => exact hfill.step hj
      · intro pre post l hsplit
        cases pre with
        | nil => cases hsplit
        | cons p pre =>
          obtain ⟨rfl, hrest⟩ := List.cons.inj hsplit
          exact hfill.label hrest
      · intro k j hj
        cases k with
        | zero => exact hsub
        | succ k => exact hfill.held hj

end Filled

/-- The filled temporaries are closed under the flow of control. -/
theorem FilledAt.closed {unit : String} {L : List (List Nat)} {items : List Item}
    {held fill : Nat → List Nat} (h : FilledAt unit L items held fill) :
    (FlowGraph.ofItems items).Closed fun k v => v ∈ fill k := by
  have hinstr {k : Nat} {o : Op Label} (ho : (FlowGraph.ofItems items).ops[k]? = some o) :
      ∃ i, (instrs items)[k]? = some i ∧ i.op = o := by
    rw [FlowGraph.getElem?_ops] at ho
    exact Option.map_eq_some_iff.mp ho
  refine ⟨fun {k v o} ho hv => ?_, fun {k s v o} ho hs hv => ?_⟩
  · obtain ⟨i, hi, rfl⟩ := hinstr ho
    obtain ⟨r, hr, hrv⟩ := List.mem_filterMap.mp hv
    exact h.reads hi r hr v hrv
  · obtain ⟨i, hi, rfl⟩ := hinstr ho
    rcases FlowGraph.cases_of_mem_succ hi hs with rfl | ⟨l, pre, l', post, ht, hsplit, hname, rfl⟩
    · exact (List.mem_append.mp (h.step hi hv)).imp_left Option.mem_toList.mp
    · -- The label has one set of filled temporaries, whatever jumps there.
      obtain ⟨K', ⟨n', rfl, hK'⟩, hsub'⟩ := h.label hsplit
      rcases h.aims hi l ht with ⟨K, ⟨n, rfl, hK⟩, hsub⟩ | herror
      · rw [Label.nth_inj hname, hK] at hK'
        cases hK'
        exact .inr (hsub (hsub' hv))
      · exact absurd hname (Label.nth_not_error herror)

/-- **What needs a location is held.** -/
theorem Filled.mem_heldAt_of_occupants {unit : String} {L : List (List Nat)} {F' H' : List Nat}
    {evs : List Event} {n' k v : Nat} (h : Filled unit L [] evs F') (hn : Nested 0 [] evs n' H')
    (hk : k < (FlowGraph.ofItems (Body.draftItems evs)).size)
    (hv : v ∈ Interval.occupants (FlowGraph.ofItems (Body.draftItems evs))
      (FlowGraph.ofItems (Body.draftItems evs)).liveness k) : v ∈ heldAt [] evs k := by
  obtain ⟨fill, -, hfill⟩ := h.exists_filledAt hn (List.nil_subset [])
  rw [FlowGraph.size_ofItems] at hk
  have hi := List.getElem?_eq_getElem hk
  have ho := FlowGraph.getElem?_ops (Body.draftItems evs) k
  rw [hi] at ho
  rcases hfill.closed.mem_of_occupants ho hv with hfilled | hmention
  · exact hfill.held hi hfilled
  · exact hn.mem_heldAt_of_virts hi hmention

/-- Nothing is live where a draft begins. -/
theorem Filled.liveIn_zero {unit : String} {L : List (List Nat)} {F' H' : List Nat}
    {evs : List Event} {n' : Nat} (h : Filled unit L [] evs F') (hn : Nested 0 [] evs n' H') :
    (Liveness.ofItems (Body.draftItems evs)).liveIn.getD 0 ∅ = ∅ := by
  obtain ⟨fill, hzero, hfill⟩ := h.exists_filledAt hn (List.nil_subset [])
  refine Std.ExtTreeSet.ext_mem fun v => ⟨fun hv => ?_, fun hv =>
    absurd hv Std.ExtTreeSet.not_mem_empty⟩
  exact absurd (hzero (hfill.closed.liveIn 0 v hv)) List.not_mem_nil

end ChocoRV
