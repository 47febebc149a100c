import Mathlib
import ChocoRV.Proofs.Alloc.Expand
import ChocoRV.Proofs.Alloc.Surround
import ChocoRV.Proofs.Draft.Supply
import ChocoRV.Proofs.Draft.Units

/-!
# From drafts to bodies

Both register modes go through the items of a draft and put registers in the place of temporaries.
The direct mode does nothing else; the allocating mode also loads spilled temporaries before an
instruction and stores them after it. `Body.Placing` says which registers come in and what may be
added, and `Body.placing_of_ofDraft` that every body is its draft with registers placed: those that
come in are the ones that the frame saves.
-/

namespace ChocoRV

open Assembly

/-- A change of operands that leaves registers alone and puts registers of `regs`, or in the
allocating mode scratch registers, in the place of temporaries. -/
structure Reg.Renaming (mode : RegisterMode) (regs : List PhysReg) (f : Reg → Reg) : Prop where
  phys (p : PhysReg) : f (.phys p) = .phys p
  virt (v : Nat) : f (.virt v) = .virt v ∨ ∃ p, f (.virt v) = .phys p ∧
    (p ∈ regs ∨ mode = .virtual ∧ p ∈ PhysReg.scratch)

/-- A register after the change stood there before or came in. -/
theorem Reg.Renaming.phys_cases {mode : RegisterMode} {regs : List PhysReg} {f : Reg → Reg}
    (h : Renaming mode regs f) {r : Reg} {p : PhysReg} (hr : f r = .phys p) :
    r = .phys p ∨ p ∈ regs ∨ mode = .virtual ∧ p ∈ PhysReg.scratch := by
  cases r with
  | phys q => exact .inl (by rw [← h.phys q, hr])
  | virt v =>
    rcases h.virt v with hv | ⟨q, hv, hq⟩
    · rw [hv] at hr
      cases hr
    · rw [hv] at hr
      cases hr
      exact .inr hq

/-- The moves between the frame and the scratch registers that spilling adds. -/
inductive Op.SpillMove : Op Label → Prop
  | reload {p : PhysReg} (hp : p ∈ PhysReg.scratch) (offset : Int32) :
      SpillMove (.lw (.phys p) .fp offset)
  | spill (offset : Int32) : SpillMove (.sw .t5 .fp offset)

/-- How a register mode turns an item of a draft into items of a body. Labels stay as they are. -/
structure Body.Placing (mode : RegisterMode) (regs : List PhysReg) (place : Item → List Item) :
    Prop where
  label (l : Label) : place (.label l) = [.label l]
  instr (i : Instr) : ∃ (src dst : Reg → Reg) (before after : List Instr),
    Reg.Renaming mode regs src ∧ Reg.Renaming mode regs dst ∧
      place (.instr i) = before.map .instr ++
        .instr { i with op := i.op.mapRegs src dst } :: after.map .instr ∧
      ∀ j ∈ before ++ after, mode = .virtual ∧ j.op.SpillMove

theorem mem_of_lookup {α : Type} {entries : List (Nat × α)} {k : Nat} {a : α}
    (h : entries.lookup k = some a) : (k, a) ∈ entries := by
  obtain ⟨before, after, rfl, -⟩ := List.lookup_eq_some_iff.mp h
  exact List.mem_append_right _ List.mem_cons_self

/-! ## The direct mode -/

namespace Supply

/-- Every slot that a temporary has is among those that have been in use. -/
def Recorded (s : Supply) : Prop := ∀ e ∈ s.slots, e.2 ∈ s.touched

theorem Recorded.take {s : Supply} (h : s.Recorded) (t k : Nat) : (s.take t k).Recorded := by
  intro e he
  have hsub : ∀ j, j ∈ s.touched ∨ j = k → j ∈ (s.take t k).touched := by
    intro j hj
    unfold Supply.take
    split
    · rename_i hk
      rcases hj with hj | rfl
      · exact hj
      · exact List.contains_iff_mem.mp hk
    · exact List.mem_cons.mpr hj.symm
  rcases List.mem_cons.mp he with rfl | he
  · exact hsub _ (.inr rfl)
  · exact hsub _ (.inl (h e he))

theorem Recorded.release {s : Supply} (h : s.Recorded) (t : Nat) : (s.release t).Recorded := by
  unfold Supply.release
  split
  · exact h
  · exact h

theorem Recorded.run {pool : List PhysReg} {evs : List Event} {items : List Item} {s final : Supply}
    (h : s.Recorded) (hr : run pool s evs = .ok (items, final)) : final.Recorded := by
  induction evs generalizing s items with
  | nil =>
    cases hr
    exact h
  | cons e evs ih =>
    cases e with
    | item i =>
      obtain ⟨rest, hr, -⟩ := run_item_eq_ok hr
      exact ih h hr
    | take t what span =>
      rw [Supply.run] at hr
      split at hr
      · exact ih (h.take t _) hr
      · cases hr
    | release t => exact ih (h.release t) hr

/-- The registers that takes are given count as used. -/
theorem mem_used_of_granted {pool : List PhysReg} {evs : List Event} {items : List Item}
    {final : Supply} {n' : Nat} {H' : List Nat} (h : Nested 0 [] evs n' H')
    (hr : run pool {} evs = .ok (items, final)) :
    ∀ p ∈ granted pool {} evs, p ∈ final.used pool := by
  intro p hp
  obtain ⟨t, ht⟩ := List.mem_iff_getElem?.mp hp
  rw [granted_getElem? h stacked_init hr, Option.bind_eq_some_iff] at ht
  obtain ⟨k, hk, hp⟩ := ht
  have hstart : Recorded {} := fun e he => absurd he List.not_mem_nil
  have htouched : k ∈ final.touched := hstart.run hr (_, k) (mem_of_lookup hk)
  refine List.mem_map.mpr ⟨(p, k), List.mem_filter.mpr ⟨?_, ?_⟩, rfl⟩
  · exact List.mem_zipIdx_iff_getElem?.mpr hp
  · exact List.contains_iff_mem.mpr htouched

end Supply

/-- Putting granted registers in the place of temporaries. -/
theorem Body.placing_place {granted regs : List PhysReg} (h : ∀ p ∈ granted, p ∈ regs) :
    Placing .physical regs fun i => [i.place granted] := by
  have hreg : Reg.Renaming .physical regs (·.place granted) := by
    refine ⟨fun p => rfl, fun v => ?_⟩
    simp only [Reg.place]
    split
    · rename_i p hp
      exact .inr ⟨p, rfl, .inl (h p (List.mem_of_getElem? hp))⟩
    · exact .inl rfl
  refine ⟨fun l => rfl, fun i => ⟨_, _, [], [], hreg, hreg, rfl,
    fun j hj => absurd hj List.not_mem_nil⟩⟩

/-! ## The allocating mode -/

namespace Assignment

variable {asg : Assignment} {regs : List PhysReg}

theorem renaming_source (h : ∀ {v : Nat} {p : PhysReg}, asg[v]? = some (.reg p) → p ∈ regs)
    {loaded : List (Nat × PhysReg)} (hl : ∀ e ∈ loaded, e.2 ∈ PhysReg.scratch) :
    Reg.Renaming .virtual regs (asg.source loaded) := by
  refine ⟨fun p => rfl, fun v => ?_⟩
  simp only [source]
  split
  · rename_i p hp
    exact .inr ⟨p, rfl, .inl (h hp)⟩
  · split
    · rename_i p hp
      exact .inr ⟨p, rfl, .inr ⟨trivial, hl (v, p) (mem_of_lookup hp)⟩⟩
    · exact .inl rfl
  · exact .inl rfl

theorem renaming_target (h : ∀ {v : Nat} {p : PhysReg}, asg[v]? = some (.reg p) → p ∈ regs) :
    Reg.Renaming .virtual regs asg.target := by
  refine ⟨fun p => rfl, fun v => ?_⟩
  simp only [target]
  split
  · rename_i p hp
    exact .inr ⟨p, rfl, .inl (h hp)⟩
  · exact .inr ⟨.t5, rfl, .inr ⟨trivial, by decide⟩⟩
  · exact .inl rfl

theorem mem_scratch_of_mem_reloads {o : Op Label} {e : Nat × PhysReg} (he : e ∈ asg.reloads o) :
    e.2 ∈ PhysReg.scratch :=
  (List.of_mem_zip he).2

/-- Loading and storing the spilled temporaries of each instruction. -/
theorem placing_applyItem (h : ∀ {v : Nat} {p : PhysReg}, asg[v]? = some (.reg p) → p ∈ regs) :
    Body.Placing .virtual regs asg.applyItem := by
  refine ⟨fun l => rfl, fun i => ?_⟩
  have hspills : ∃ after : List Instr, asg.spillItems i.op = after.map .instr ∧
      ∀ j ∈ after, j.op.SpillMove := by
    unfold spillItems
    split
    · split
      · rename_i offset _
        refine ⟨[⟨.sw .t5 .fp offset, _⟩], rfl, fun j hj => ?_⟩
        rw [List.mem_singleton.mp hj]
        exact .spill offset
      · exact ⟨[], rfl, fun j hj => absurd hj List.not_mem_nil⟩
    · exact ⟨[], rfl, fun j hj => absurd hj List.not_mem_nil⟩
  obtain ⟨after, hafter, hmoves⟩ := hspills
  let reload (e : Nat × PhysReg) : Instr :=
    ⟨.lw (.phys e.2) .fp ((asg.spillOf? e.1).getD 0), some ("reload " ++ (Reg.virt e.1).text)⟩
  have hreloads : (asg.reloads i.op).map asg.reloadItem =
      ((asg.reloads i.op).map reload).map .instr := by
    rw [List.map_map]
    rfl
  refine ⟨asg.source (asg.reloads i.op), asg.target, (asg.reloads i.op).map reload, after,
    renaming_source h fun e he => mem_scratch_of_mem_reloads he, renaming_target h, ?_,
    fun j hj => ⟨rfl, ?_⟩⟩
  · rw [applyItem, applyInstr, hreloads, hafter]
  · rcases List.mem_append.mp hj with hj | hj
    · obtain ⟨e, he, rfl⟩ := List.mem_map.mp hj
      exact .reload (mem_scratch_of_mem_reloads he) _
    · exact hmoves j hj

end Assignment

/-! ## Bodies -/

theorem CodegenSettings.pool_subset (settings : CodegenSettings) :
    ∀ p ∈ settings.pool, p ∈ PhysReg.allocatable := fun _ hp => List.mem_of_mem_take hp

/-- **Bodies are drafts with registers placed.** The registers that come in are those that the frame
of the function saves, and belong to the pool. -/
theorem Body.placing_of_ofDraft {settings : CodegenSettings} {base : Int32} {name : String}
    {d : Draft.Result Unit} {b : Body} {n' : Nat} (hn : Nested 0 [] d.events n' [])
    (h : ofDraft settings.registers settings.pool base name d = .ok b) :
    ∃ place, Placing settings.registers b.saved place ∧
      b.items = (draftItems d.events).flatMap place ∧ (∀ p ∈ b.saved, p ∈ settings.pool) ∧
      b.saved.Nodup := by
  cases hmode : settings.registers with
  | physical =>
    rw [hmode] at h
    obtain ⟨⟨items, final⟩, hrun, h⟩ := bind_eq_ok_iff.mp h
    obtain ⟨⟨⟩, -, h⟩ := bind_eq_ok_iff.mp h
    cases h
    refine ⟨_, placing_place (Supply.mem_used_of_granted hn hrun), ?_, ?_, ?_⟩
    · rw [Supply.run_eq_place hn hrun, List.map_eq_flatMap]
    · intro p hp
      obtain ⟨e, he, rfl⟩ := List.mem_map.mp hp
      exact List.fst_mem_of_mem_zipIdx (List.mem_filter.mp he).1
    · refine List.Sublist.nodup ((List.filter_sublist).map _) ?_
      rw [List.zipIdx_map_fst]
      exact settings.nodup_pool
  | virtual =>
    rw [hmode] at h
    obtain ⟨⟨⟩, -, h⟩ := bind_eq_ok_iff.mp h
    obtain ⟨alloc, halloc, h⟩ := bind_eq_ok_iff.mp h
    cases h
    have hplaced := (Allocation.locates_of_allocate settings.nodup_pool settings.pool_subset
      halloc).wellPlaced
    obtain ⟨final, -, -, hitems⟩ := Allocation.allocate_eq_ok halloc
    have hused := Allocation.used_of_allocate halloc
    refine ⟨_, Assignment.placing_applyItem fun {v p} hv => ?_, hitems, ?_, ?_⟩
    · rw [hused]
      refine List.mem_filter.mpr ⟨hplaced.reg hv, List.any_eq_true.mpr ⟨(v, .reg p), ?_, by simp⟩⟩
      exact Std.ExtTreeMap.mem_toList_iff_getElem?_eq_some.mpr hv
    · intro p hp
      rw [hused] at hp
      exact List.mem_of_mem_filter hp
    · rw [hused]
      exact settings.nodup_pool.filter _

end ChocoRV
