import Mathlib
import ChocoRV.Proofs.Draft.Fills
import ChocoRV.Proofs.Draft.Placing
import ChocoRV.Proofs.Stack.Statements

/-!
# Reservations and the stack pointer

The open reservations say where the stack pointer is: as many words below the frame as are reserved
(`Along.spAfter_eq`). Placing registers changes nothing about them (`Along.flatMap_place`), so what
has been shown of drafts holds of bodies in both register modes.
-/

namespace ChocoRV

open Assembly

/-! ## Moves of the stack pointer -/

/-- By how much an operation moves the stack pointer. -/
def Op.spShift : Op Label → Int32
  | .aluImm .addi (.phys .sp) (.phys .sp) n => n
  | _ => 0

theorem Op.OffStack.spShift_eq {o : Op Label} (h : o.OffStack) : o.spShift = 0 := by
  unfold spShift
  split
  · exact absurd rfl h.1
  · rfl

/-- Where the stack pointer is after instructions if it is at `offset` before them. -/
def spAfter (offset : Int32) (is : List Instr) :
    Int32 := is.foldl (fun o i => o + i.op.spShift) offset

theorem spAfter_append (offset : Int32) (xs ys : List Instr) :
    spAfter offset (xs ++ ys) = spAfter (spAfter offset xs) ys :=
  List.foldl_append

theorem slotOffset_add (j k : Nat) :
    Object.slotOffset (j + k) = Object.slotOffset j + Object.slotOffset k := by
  unfold Object.slotOffset
  rw [Int32.ofNat_add, Int32.add_mul]

/-- The offset is that of the words which are reserved. -/
theorem Op.Shifts.offset {unit : String} {L : List (List Nat)} {R R' : List Nat} {o : Op Label}
    (h : o.Shifts unit L R R') (base : Int32) :
    base - Object.slotOffset R.sum + o.spShift = base - Object.slotOffset R'.sum := by
  cases h with
  | reserve words =>
    rw [List.sum_cons, slotOffset_add]
    show base - Object.slotOffset R.sum + -Object.slotOffset words = _
    grind
  | giveBack words =>
    rw [List.sum_cons, slotOffset_add]
    show base - (Object.slotOffset words + Object.slotOffset R'.sum) + Object.slotOffset words = _
    grind
  | pass src hk => exact Int32.add_zero _
  | other h ht => rw [h.spShift_eq, Int32.add_zero]

theorem Along.spAfter_eq {unit : String} {L : List (List Nat)} {R R' : List Nat} {items : List Item}
    (h : Along unit L R items R') (base : Int32) :
    spAfter (base - Object.slotOffset R.sum) (instrs items) = base - Object.slotOffset R'.sum := by
  induction h with
  | nil => rfl
  | label _ _ ih => exact ih
  | instr hi _ ih =>
    rw [instrs_cons_instr, ← ih, ← hi.offset]
    rfl

/-- The reservations at each place of a stream. -/
theorem Along.rooms {unit : String} {L : List (List Nat)} {R R' : List Nat} {items : List Item}
    (h : Along unit L R items R') :
    ∃ room : Nat → List Nat, room 0 = R ∧ room (instrs items).length = R' ∧
      (∀ (k : Nat) (i : Instr), (instrs items)[k]? = some i →
        i.op.Shifts unit L (room k) (room (k + 1))) ∧
      ∀ (pre : List Item) (l : Label) (post : List Item), items = pre ++ .label l :: post →
        l.HasLevel unit L (room (instrs pre).length) := by
  induction h with
  | nil R =>
    refine ⟨fun _ => R, rfl, rfl, ?_, ?_⟩
    · intro k i hi
      rw [instrs_nil, List.getElem?_nil] at hi
      cases hi
    · intro pre l post hl
      cases pre <;> cases hl
  | label hl _ ih =>
    obtain ⟨room, hzero, hlast, hstep, hlabel⟩ := ih
    refine ⟨room, hzero, hlast, hstep, fun pre l post hsplit => ?_⟩
    cases pre with
    | nil =>
      cases hsplit
      rw [instrs_nil, List.length_nil, hzero]
      exact hl
    | cons i pre =>
      cases hsplit
      exact hlabel pre l post rfl
  | @instr R R₁ R' i items hi _ ih =>
    obtain ⟨room, hzero, hlast, hstep, hlabel⟩ := ih
    refine ⟨fun k => Nat.casesOn k R room, rfl, ?_, ?_, ?_⟩
    · rw [instrs_cons_instr, List.length_cons]
      exact hlast
    · intro k j hj
      cases k with
      | zero =>
        cases hj
        show Op.Shifts unit L R i.op (room 0)
        rw [hzero]
        exact hi
      | succ k => exact hstep k j hj
    · intro pre l post hsplit
      cases pre with
      | nil => cases hsplit
      | cons j pre =>
        cases hsplit
        exact hlabel pre l post rfl

/-! ## Placing registers leaves the stack alone -/

namespace Reg.Renaming

variable {mode : RegisterMode} {regs : List PhysReg} {f : Reg → Reg} {p : PhysReg}

/-- A register that does not come in stood there before. -/
theorem eq_of_eq_phys (h : Renaming mode regs f) (hp : p ∉ regs) (hs : p ∉ PhysReg.scratch)
    {r : Reg} (hr : f r = .phys p) : r = .phys p := by
  rcases h.phys_cases hr with hr | hr | ⟨-, hr⟩
  · exact hr
  · exact absurd hr hp
  · exact absurd hr hs

end Reg.Renaming

namespace Op

variable {src dst : Reg → Reg}

theorem def?_mapRegs {o : Op Label} {r : Reg} (h : (o.mapRegs src dst).def? = some r)
    (hra : dst .ra = .ra) : ∃ r', o.def? = some r' ∧ dst r' = r := by
  cases o with
  | alu | aluImm | shift | li | la | unary | load =>
    cases h
    exact ⟨_, rfl, rfl⟩
  | call | callReg =>
    cases h
    exact ⟨_, rfl, hra⟩
  | store | jump | jumpReg | branch | branchZero | ecall => cases h

theorem storeBase?_mapRegs {o : Op Label} {r : Reg}
    (h : (o.mapRegs src dst).storeBase? = some r) : ∃ r', o.storeBase? = some r' ∧ src r' = r := by
  cases o with
  | store =>
    cases h
    exact ⟨_, rfl, rfl⟩
  | alu | aluImm | shift | li | la | unary | load | call | callReg | jump | jumpReg | branch
  | branchZero | ecall => cases h

theorem flow_mapRegs (o : Op Label) : (o.mapRegs src dst).flow = o.flow := by
  cases o <;> rfl

variable {mode : RegisterMode} {regs : List PhysReg} {unit : String} {L : List (List Nat)}
  {R R' : List Nat} {o : Op Label}

theorem Shifts.mapRegs (h : o.Shifts unit L R R') (hsrc : Reg.Renaming mode regs src)
    (hdst : Reg.Renaming mode regs dst) (hsp : .sp ∉ regs) (hfp : .fp ∉ regs) :
    (o.mapRegs src dst).Shifts unit L R R' := by
  cases h with
  | reserve words =>
    show Shifts unit L R (.addi (dst .sp) (src .sp) _) _
    rw [hdst.phys, hsrc.phys]
    exact .reserve words
  | giveBack words =>
    show Shifts unit L _ (.addi (dst .sp) (src .sp) _) _
    rw [hdst.phys, hsrc.phys]
    exact .giveBack words
  | pass r hk =>
    show Shifts unit L _ (.sw (src r) (src .sp) _) _
    rw [hsrc.phys]
    exact .pass (src r) hk
  | other hoff ht =>
    refine .other ⟨fun hd => ?_, fun hd => ?_, fun hd => ?_⟩ (by rwa [flow_mapRegs])
    · obtain ⟨r, hr, heq⟩ := def?_mapRegs hd (hdst.phys _)
      exact hoff.1 (hr.trans (congrArg some (hdst.eq_of_eq_phys hsp (by decide) heq)))
    · obtain ⟨r, hr, heq⟩ := def?_mapRegs hd (hdst.phys _)
      exact hoff.2.1 (hr.trans (congrArg some (hdst.eq_of_eq_phys hfp (by decide) heq)))
    · obtain ⟨r, hr, heq⟩ := storeBase?_mapRegs hd
      exact hoff.2.2 (hr.trans (congrArg some (hsrc.eq_of_eq_phys hsp (by decide) heq)))

/-- Moves of spilled temporaries have nothing to do with the stack pointer. -/
theorem SpillMove.shifts (h : o.SpillMove) : o.Shifts unit L R R := by
  have hscratch : ∀ q ∈ PhysReg.scratch, Reg.phys q ≠ .sp ∧ Reg.phys q ≠ .fp := by decide
  cases h with
  | @reload p hp offset =>
    exact .other ⟨fun hd => (hscratch p hp).1 (Option.some.inj hd),
      fun hd => (hscratch p hp).2 (Option.some.inj hd), nofun⟩ nofun
  | spill offset => exact .other ⟨nofun, nofun, nofun⟩ nofun

end Op

namespace Along

variable {mode : RegisterMode} {regs : List PhysReg} {place : Item → List Item} {unit : String}
  {L : List (List Nat)} {R R' : List Nat}

theorem spillMoves {is : List Instr} (h : ∀ i ∈ is, i.op.SpillMove) :
    Along unit L R (is.map .instr) R := by
  induction is with
  | nil => exact .nil R
  | cons i is ih =>
    rw [List.forall_mem_cons] at h
    exact .instr h.1.shifts (ih h.2)

/-- Placing registers does not change the reservations along a stream. -/
theorem flatMap_place {items : List Item} (h : Along unit L R items R')
    (hp : Body.Placing mode regs place) (hregs : ∀ p ∈ regs, p ∈ PhysReg.allocatable) :
    Along unit L R (items.flatMap place) R' := by
  have hsp : .sp ∉ regs := fun hm => absurd (hregs _ hm) (by decide)
  have hfp : .fp ∉ regs := fun hm => absurd (hregs _ hm) (by decide)
  induction h with
  | nil R => exact .nil R
  | label hl _ ih =>
    rw [List.flatMap_cons, hp.label]
    exact .label hl ih
  | @instr R R₁ R' i items hi _ ih =>
    obtain ⟨src, dst, before, after, hsrc, hdst, hplace, hmoves⟩ := hp.instr i
    rw [List.flatMap_cons, hplace, List.append_assoc]
    have hbefore : Along unit L R (before.map .instr) R :=
      spillMoves fun j hj => (hmoves j (List.mem_append_left _ hj)).2
    have hafter : Along unit L R₁ (after.map .instr) R₁ :=
      spillMoves fun j hj => (hmoves j (List.mem_append_right _ hj)).2
    exact hbefore.append (.instr (hi.mapRegs hsrc hdst hsp hfp) (hafter.append ih))

end Along

end ChocoRV
