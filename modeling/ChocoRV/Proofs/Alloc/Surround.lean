import Mathlib
import ChocoRV.Proofs.Alloc.Interval
import ChocoRV.Proofs.Alloc.Liveness
import ChocoRV.Proofs.Alloc.Scan
import ChocoRV.Proofs.Alloc.Simulate

/-!
# An allocated stream in a program

Liveness says which temporaries count, intervals and the scan keep their locations apart. So every
instruction of a program around an allocated stream can be carried out over locations
(`Surrounded.placed`), if the code around the stream leaves the registers and the frame words of
temporaries alone and does not jump into its middle.
-/

namespace ChocoRV

open Assembly Image

/-! ## Locations of live temporaries -/

variable {k : Nat} {i : Instr}

namespace FlowGraph

theorem getElem?_ops (items : List Item) (k : Nat) :
    (ofItems items).ops[k]? = (instrs items)[k]?.map Instr.op := by
  rw [← Array.getElem?_toList]
  exact List.getElem?_map

theorem size_ofItems (items : List Item) : (ofItems items).size = (instrs items).length :=
  List.length_map _

theorem succ_ofItems {items : List Item} (hi : (instrs items)[k]? = some i) :
    (ofItems items).succ k = succsOf (labelTable items) (instrs items).length k i.op := by
  have hlen : ((instrs items).map Instr.op).length = (instrs items).length := List.length_map _
  simp only [succ, ofItems, Array.getD_eq_getD_getElem?, List.getElem?_toArray, List.getElem?_map,
    List.getElem?_zipIdx, hi, hlen, Option.map_some, Option.getD_some, Nat.zero_add]

theorem map_fst_positions (k : Nat) (items : List Item) :
    (positions k items).map (·.1) = (labels items).map Label.name := by
  induction items generalizing k with
  | nil => rfl
  | cons i items ih =>
    cases i with
    | label l => exact congrArg (l.name :: ·) (ih k)
    | instr i => exact ih (k + 1)

/-- A label of the stream that an instruction names leads to a successor, unless it stands at the
end. -/
theorem mem_succ_of_target {items pre post : List Item} {l l' : Label}
    (hnames : ((labels items).map Label.name).Nodup) (hi : (instrs items)[k]? = some i)
    (htarget : i.op.flow.target? = some l) (hsplit : items = pre ++ .label l' :: post)
    (hname : l'.name = l.name) (hlt : (instrs pre).length < (instrs items).length) :
    (instrs pre).length ∈ (ofItems items).succ k := by
  have hpos : (l.name, (instrs pre).length) ∈ positions 0 items :=
    mem_positions.mpr ⟨pre, l', post, hsplit, hname, (Nat.zero_add _).symm⟩
  have htable : (labelTable items)[l.name]? = some (instrs pre).length := by
    rw [← map_fst_positions 0] at hnames
    exact getElem?_foldl_insert hnames hpos
  rw [succ_ofItems hi, succsOf]
  cases hflow : i.op.flow with
  | next | exit =>
    rw [hflow] at htarget
    exact nomatch htarget
  | jump t | branch t =>
    rw [hflow] at htarget
    cases htarget
    simp [htable, hlt]

theorem mem_succ_of_falls {items : List Item} (hi : (instrs items)[k]? = some i)
    (hfalls : i.op.flow.falls = true) (hlt : k + 1 < (instrs items).length) :
    k + 1 ∈ (ofItems items).succ k := by
  rw [succ_ofItems hi, succsOf]
  cases hflow : i.op.flow with
  | jump t | exit =>
    rw [hflow] at hfalls
    exact nomatch hfalls
  | next | branch t => simp [hlt]

end FlowGraph

namespace Allocation

variable {items : List Item} {pool : List PhysReg} {base : Int32} {f : String} {alloc : Allocation}

theorem allocate_eq_ok (h : allocate items pool base f = .ok alloc) :
    ∃ final, Scan.run ⟨pool, base, f⟩ (Interval.all (FlowGraph.ofItems items)
        (FlowGraph.ofItems items).liveness) = .ok final ∧
      alloc.assignment = final.assignment ∧ alloc.items = alloc.assignment.apply items := by
  obtain ⟨final, hfinal, h⟩ := bind_eq_ok_iff.mp h
  cases h
  exact ⟨final, hfinal, rfl, rfl⟩

theorem used_of_allocate (h : allocate items pool base f = .ok alloc) :
    alloc.used = pool.filter fun p => alloc.assignment.toList.any (·.2 == .reg p) := by
  obtain ⟨final, hfinal, h⟩ := bind_eq_ok_iff.mp h
  cases h
  rfl

/-- Allocation hands out frame words as the scan does. -/
theorem handed_of_allocate (h : allocate items pool base f = .ok alloc) :
    Scan.Handed ⟨pool, base, f⟩ (Interval.all (FlowGraph.ofItems items)
      (FlowGraph.ofItems items).liveness).reverse
      ⟨[], alloc.assignment, alloc.spillSlots⟩ := by
  obtain ⟨final, hrun, h⟩ := bind_eq_ok_iff.mp h
  cases h
  exact { Scan.handed_of_run hrun with }

/-- What the scan says about the locations of an allocation. -/
structure Locates (items : List Item) (pool : List PhysReg) (asg : Assignment) : Prop where
  wellPlaced : asg.WellPlaced pool
  /-- Whatever needs a location has one. -/
  placed {k v : Nat} (hk : k < (instrs items).length)
    (hv : v ∈ Interval.occupants (FlowGraph.ofItems items) (Liveness.ofItems items) k) :
    ∃ loc, asg[v]? = some loc
  /-- Two temporaries that need a location at the same place have different ones. -/
  apart {k u v : Nat} (hk : k < (instrs items).length)
    (hu : u ∈ Interval.occupants (FlowGraph.ofItems items) (Liveness.ofItems items) k)
    (hv : v ∈ Interval.occupants (FlowGraph.ofItems items) (Liveness.ofItems items) k)
    (hne : u ≠ v) : asg[u]? ≠ asg[v]?

theorem toNat_spillOffset_mod (base : Int32) (k : Nat) :
    (Scan.spillOffset base k).toUInt32.toNat % 4 = base.toUInt32.toNat % 4 := by
  have hoff : (Scan.spillOffset base k).toUInt32.toNat =
      (4294967296 - (UInt32.ofNat k * 4).toNat + base.toUInt32.toNat) % 4294967296 :=
    UInt32.toNat_sub _ _
  have hmul : (UInt32.ofNat k * 4).toNat % 4 = 0 := by
    rw [UInt32.toNat_mul, show (4 : UInt32).toNat = 4 from rfl]
    omega
  have hlt := (UInt32.ofNat k * 4).toNat_lt
  omega

theorem locates_of_allocate (hpool : pool.Nodup) (hsub : ∀ p ∈ pool, p ∈ PhysReg.allocatable)
    (h : allocate items pool base f = .ok alloc) : Locates items pool alloc.assignment := by
  obtain ⟨final, hfinal, hasg, -⟩ := allocate_eq_ok h
  obtain ⟨t, hsound⟩ := Scan.sound_of_run hpool (Interval.all_sorted _ _) (Interval.all_nodup _ _)
    hfinal
  rw [hasg]
  have hinterval {k v : Nat} (hk : k < (instrs items).length)
      (hv : v ∈ Interval.occupants (FlowGraph.ofItems items) (Liveness.ofItems items) k) :
      ∃ i ∈ (Interval.all (FlowGraph.ofItems items) (FlowGraph.ofItems items).liveness).reverse,
        i.vreg = v ∧ i.start ≤ k ∧ k ≤ i.stop := by
    obtain ⟨i, hi, hiv⟩ := Interval.mem_all (FlowGraph.size_ofItems items ▸ hk) hv
    exact ⟨i, List.mem_reverse.mpr hi, hiv⟩
  refine ⟨⟨hsub, fun hreg => hsound.reg hreg, fun ho ho' => ?_⟩, ?_, ?_⟩
  · obtain ⟨k, -, rfl⟩ := hsound.spilled ho
    obtain ⟨k', -, rfl⟩ := hsound.spilled ho'
    rw [toNat_spillOffset_mod, toNat_spillOffset_mod]
  · intro k v hk hv
    obtain ⟨i, hi, rfl, -⟩ := hinterval hk hv
    exact hsound.placed i hi
  · intro k u v hk hu hv hne heq
    obtain ⟨i, hi, rfl, hstart, hstop⟩ := hinterval hk hu
    obtain ⟨j, hj, rfl, hstart', hstop'⟩ := hinterval hk hv
    obtain ⟨loc, hloc⟩ := hsound.placed i hi
    rw [hloc] at heq
    cases loc with
    | reg p =>
      -- Both intervals contain instruction `k`, so they overlap.
      rcases hsound.apart hi hj hne hloc heq.symm with hlt | hlt
      · omega
      · omega
    | spill o => exact hne (hsound.alone hloc heq.symm)

/-! ## The program around a stream -/

/-- An operation that leaves allocation alone: it uses no register that allocation hands out, keeps
`fp`, and computes with no address of code. -/
structure Harmless (pool : List PhysReg) (data : List Datum) (o : Op Label) : Prop where
  direct : o.Direct
  data : ∀ rd l, o = .la rd l → l.name ∈ (data.filterMap Datum.label?).map Label.name
  phys : ∀ p, .phys p ∈ o.regs → ¬ Assignment.Reserved pool p
  frame : o.def? ≠ some .fp

/-- Code around a stream of which the instructions `inside` are performed. Control comes into the
stream at its beginning only, and not again, unless nothing is live there. -/
structure Surrounded (before items after : List Item) (data : List Datum) (pool : List PhysReg)
    (inside : Nat → Prop) : Prop where
  names : (⟨before ++ (items ++ after), data⟩ : Assembly).defs.Nodup
  harmless {k : Nat} {i : Instr} (hk : inside k)
    (hi : (instrs before ++ (instrs items ++ instrs after))[k]? = some i) :
    Harmless pool data i.op
  virts : ∀ i ∈ instrs before ++ instrs after, i.op.virts = []
  apart {k : Nat} {i : Instr} (hk : inside k)
    (hi : (instrs before ++ (instrs items ++ instrs after))[k]? = some i)
    (hout : k < (instrs before).length ∨ (instrs before).length + (instrs items).length ≤ k) :
    ∀ l ∈ i.op.flow.target?, l.name ∉ (labels items).map Label.name
  entry : (Liveness.ofItems items).liveIn.getD 0 ∅ = ∅ ∨
    (∀ pre l post, before = pre ++ .label l :: post →
      (instrs pre).length < (instrs before).length) ∧
    ∀ k < (instrs before).length, ¬ inside k

/-- What is live before instruction `k` of the whole program. -/
def LiveAt (before items : List Item) (k v : Nat) : Prop :=
  (instrs before).length ≤ k ∧
    v ∈ (Liveness.ofItems items).liveIn.getD (k - (instrs before).length) ∅

theorem LiveAt.lt {before : List Item} {v : Nat} (h : LiveAt before items k v) :
    k < (instrs before).length + (instrs items).length := by
  have hlt := FlowGraph.lt_of_mem_liveIn h.2
  rw [FlowGraph.size_ofItems] at hlt
  have := h.1
  omega

namespace Surrounded

variable {before after : List Item} {data : List Datum} {inside : Nat → Prop}
variable (r : Surrounded before items after data pool inside)

include r

theorem names_items : ((labels items).map Label.name).Nodup := by
  have hnames := r.names
  rw [Assembly.defs, labels_append, labels_append, List.map_append, List.map_append] at hnames
  exact ((hnames.sublist (List.sublist_append_left _ _)).sublist
    (List.sublist_append_right _ _)).sublist (List.sublist_append_left _ _)

/-- A label that leads to a place at which something is live belongs to the stream. -/
theorem label_of_live {pre post : List Item} {l : Label} {v : Nat}
    (hsplit : before ++ (items ++ after) = pre ++ .label l :: post)
    (hv : LiveAt before items (instrs pre).length v) :
    ∃ pre' post', items = pre' ++ .label l :: post' ∧
      (instrs pre).length = (instrs before).length + (instrs pre').length := by
  have hlt := hv.lt
  obtain ⟨hle, hv⟩ := hv
  rcases List.append_eq_append_iff.mp hsplit with ⟨mid, rfl, hmid⟩ | ⟨mid, hbefore, hmid⟩
  · rw [instrs_append, List.length_append] at hlt
    rcases List.append_eq_append_iff.mp hmid with ⟨mid', rfl, -⟩ | ⟨mid', hitems, hmid'⟩
    · rw [instrs_append, List.length_append] at hlt
      omega
    · cases mid' with
      | nil =>
        rw [List.append_nil] at hitems
        rw [hitems] at hlt
        omega
      | cons m mid' =>
        obtain ⟨rfl, -⟩ := List.cons.inj hmid'
        exact ⟨mid, mid', hitems, by rw [instrs_append, List.length_append]⟩
  · cases mid with
    | nil =>
      -- The label is the first item of the stream.
      rw [List.append_nil] at hbefore
      subst hbefore
      cases items with
      | nil => exact absurd hlt (by simp)
      | cons i items =>
        obtain ⟨rfl, -⟩ := List.cons.inj hmid
        exact ⟨[], items, rfl, rfl⟩
    | cons m mid =>
      obtain ⟨rfl, -⟩ := List.cons.inj hmid
      have hpre : (instrs before).length = (instrs pre).length + (instrs mid).length := by
        rw [hbefore, instrs_append, List.length_append, instrs_cons_label]
      rcases r.entry with hempty | ⟨hlabels, -⟩
      · rw [show (instrs pre).length - (instrs before).length = 0 by omega, hempty] at hv
        exact absurd hv Std.ExtTreeSet.not_mem_empty
      · have := hlabels pre l mid hbefore
        omega

/-- What is live where control goes after an instruction of the stream is live behind it. -/
theorem mem_liveOut {k' v : Nat} (hi : (instrs items)[k]? = some i)
    (hf : Follows (before ++ (items ++ after)) ((instrs before).length + k) i.op k')
    (hv : LiveAt before items k' v) : v ∈ (Liveness.ofItems items).liveOut.getD k ∅ := by
  have hk := (List.getElem?_eq_some_iff.mp hi).1
  have hsize := FlowGraph.size_ofItems items
  have hlt := hv.lt
  refine (FlowGraph.mem_liveOut (hsize ▸ hk)).mpr ⟨k' - (instrs before).length, ?_, hv.2⟩
  cases hf with
  | next h =>
    rw [show (instrs before).length + k + 1 - (instrs before).length = k + 1 by omega]
    exact FlowGraph.mem_succ_of_falls hi h (by omega)
  | @target l l' pre post h hsplit hname =>
    obtain ⟨pre', post', hitems, hlen⟩ := r.label_of_live hsplit hv
    rw [hlen, Nat.add_sub_cancel_left]
    exact FlowGraph.mem_succ_of_target r.names_items hi h hitems hname (by omega)

/-- After an instruction outside of the stream no temporary is live. -/
theorem not_live {k' v : Nat} (hk : inside k)
    (hi : (instrs before ++ (instrs items ++ instrs after))[k]? = some i)
    (hout : k < (instrs before).length ∨ (instrs before).length + (instrs items).length ≤ k)
    (hf : Follows (before ++ (items ++ after)) k i.op k') : ¬ LiveAt before items k' v := by
  intro hv
  have hlt := hv.lt
  cases hf with
  | next h =>
    have hle := hv.1
    rcases r.entry with hempty | ⟨-, hbefore⟩
    · have hv := hv.2
      rw [show k + 1 - (instrs before).length = 0 by omega, hempty] at hv
      exact absurd hv Std.ExtTreeSet.not_mem_empty
    · exact hbefore k (by omega) hk
  | @target l l' pre post h hsplit hname =>
    obtain ⟨pre', post', hitems, -⟩ := r.label_of_live hsplit hv
    refine r.apart hk hi hout l h ?_
    rw [← hname]
    refine List.mem_map_of_mem (mem_labels.mpr ?_)
    rw [hitems]
    exact List.mem_append_right _ List.mem_cons_self

/-- Every instruction that is performed can be carried out over the locations of an allocation. -/
theorem placed {asg : Assignment} (loc : Locates items pool asg) :
    asg.Placed pool ⟨before ++ (items ++ after), data⟩ inside (LiveAt before items) := by
  have hinstrs : instrs (before ++ (items ++ after)) =
      instrs before ++ (instrs items ++ instrs after) := by
    rw [instrs_append, instrs_append]
  refine ⟨fun {k i} hk hi => ?_, fun {k i} hk hi rd l hla => ?_⟩
  · rw [hinstrs] at hi
    have hop := r.harmless hk hi
    by_cases hin : (instrs before).length ≤ k ∧
        k < (instrs before).length + (instrs items).length
    · obtain ⟨j, rfl⟩ : ∃ j, k = (instrs before).length + j :=
        ⟨k - (instrs before).length, by omega⟩
      have hj : j < (instrs items).length := by omega
      rw [List.getElem?_append_right (by omega), Nat.add_sub_cancel_left,
        List.getElem?_append_left hj] at hi
      have hnode : (FlowGraph.ofItems items).ops[j]? = some i.op := by
        rw [FlowGraph.getElem?_ops, hi]
        rfl
      have hlive {v : Nat} : LiveAt before items ((instrs before).length + j) v ↔
          v ∈ (Liveness.ofItems items).liveIn.getD j ∅ := by
        rw [LiveAt, Nat.add_sub_cancel_left]
        exact and_iff_right (Nat.le_add_right _ _)
      -- What is written is mentioned, and what stays live is live behind the instruction.
      have hdef {t : Nat} (ht : i.op.virtDef? = some t) :
          t ∈ Interval.occupants (FlowGraph.ofItems items) (Liveness.ofItems items) j := by
        refine Std.ExtTreeSet.mem_union_iff.mpr (.inr ?_)
        simp only [hnode]
        rw [Std.ExtTreeSet.mem_ofList, List.contains_iff_mem, Op.virts, ht]
        exact List.mem_cons_self
      have hout {v : Nat}
          (hv : ∃ k', Follows (before ++ (items ++ after)) ((instrs before).length + j) i.op k' ∧
            LiveAt before items k' v) : v ∈ (Liveness.ofItems items).liveOut.getD j ∅ := by
        obtain ⟨k', hf, hv⟩ := hv
        exact r.mem_liveOut hi hf hv
      exact {
        uses := fun v hv => hlive.mpr ((FlowGraph.mem_liveIn hnode).mpr (.inl hv))
        placed := fun ht => loc.placed hj (hdef ht)
        kept := fun v hv => by
          by_cases hd : i.op.virtDef? = some v
          · exact .inr hd
          · exact .inl (hlive.mpr ((FlowGraph.mem_liveIn hnode).mpr (.inr ⟨hout hv, hd⟩)))
        apart := fun hv ht hne => by
          refine loc.apart hj ?_ (hdef ht) hne
          exact Std.ExtTreeSet.mem_union_iff.mpr
            (.inl (Std.ExtTreeSet.mem_union_iff.mpr (.inr (hout hv))))
        phys := fun hp => hop.phys _ hp
        frame := hop.frame
        direct := hop.direct }
    · have hout : k < (instrs before).length ∨
          (instrs before).length + (instrs items).length ≤ k := by omega
      have hmem : i ∈ instrs before ++ instrs after := by
        rcases hout with hlt | hge
        · rw [List.getElem?_append_left hlt] at hi
          exact List.mem_append_left _ (List.mem_of_getElem? hi)
        · rw [List.getElem?_append_right (by omega), List.getElem?_append_right (by omega)] at hi
          exact List.mem_append_right _ (List.mem_of_getElem? hi)
      have hnone (v : Nat) : v ∉ i.op.virts := by
        rw [r.virts i hmem]
        exact List.not_mem_nil
      have hdef {t : Nat} (ht : i.op.virtDef? = some t) : False := by
        refine hnone t (List.mem_append_left _ ?_)
        rw [ht]
        exact List.mem_cons_self
      have hafter {v : Nat} (hv : ∃ k', Follows (before ++ (items ++ after)) k i.op k' ∧
          LiveAt before items k' v) : False := by
        obtain ⟨k', hf, hv⟩ := hv
        exact r.not_live hk hi hout hf hv
      exact {
        uses := fun v hv => absurd (List.mem_append_right _ hv) (hnone v)
        placed := fun ht => (hdef ht).elim
        kept := fun v hv => (hafter hv).elim
        apart := fun hv => (hafter hv).elim
        phys := fun hp => hop.phys _ hp
        frame := hop.frame
        direct := hop.direct }
  · rw [hinstrs] at hi
    have hl := (r.harmless hk hi).data rd l hla
    rw [← map_fst_dataLabels dataBase] at hl
    obtain ⟨⟨name, addr⟩, haddr, rfl⟩ := List.mem_map.mp hl
    exact ⟨addr, haddr⟩

/-- Around the allocated stream the program is the same. -/
theorem apply_text (asg : Assignment) :
    before ++ (asg.apply items ++ after) = asg.apply (before ++ (items ++ after)) := by
  have hbefore := asg.apply_of_no_virts fun i hi => r.virts i (List.mem_append_left _ hi)
  have hafter := asg.apply_of_no_virts fun i hi => r.virts i (List.mem_append_right _ hi)
  rw [Assignment.apply_append, Assignment.apply_append, hbefore, hafter]

/-- The program can be loaded before allocation exactly if it can be loaded after it. -/
theorem load_apply (asg : Assignment) :
    (∃ x, load ⟨before ++ (asg.apply items ++ after), data⟩ = .ok x) ↔
      ∃ x, load ⟨before ++ (items ++ after), data⟩ = .ok x := by
  have htargets := (asg.labels_apply (before ++ (items ++ after))).2
  have hdefs := Assignment.defs_apply asg ⟨before ++ (items ++ after), data⟩
  rw [load_ok_iff, load_ok_iff, r.apply_text, Assembly.Closed, Assembly.Closed, hdefs,
    Assembly.refs, Assembly.refs, htargets]

end Surrounded

end Allocation

end ChocoRV
