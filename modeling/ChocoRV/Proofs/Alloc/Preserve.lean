import Mathlib
import ChocoRV.Proofs.Alloc.Surround

/-!
# Register allocation preserves behaviour

A stream and what allocation makes of it behave the same inside any program that neither looks at
the registers and frame words that temporaries are given nor jumps into the middle of the stream.
-/

namespace ChocoRV

open Assembly Image

namespace Allocation

/-! ## The program around a stream -/

/-- A stream between its entry and the code after it. -/
def program (entry : Label) (items suffix : List Item) (data : List Datum) : Assembly :=
  ⟨.label entry :: (items ++ suffix), data⟩

/-- What allocation relies on: the registers that it hands out and `fp` belong to it alone, the
stream reads no temporary before writing it, control enters the stream at its beginning only, and
code addresses are never computed with. -/
structure Enclosed (entry : Label) (items suffix : List Item) (data : List Datum)
    (pool : List PhysReg) : Prop where
  names : (program entry items suffix data).defs.Nodup
  direct : ∀ i ∈ instrs (items ++ suffix), i.op.Direct
  data : ∀ i ∈ instrs (items ++ suffix), ∀ rd l, i.op = .la rd l →
    l.name ∈ (data.filterMap Datum.label?).map Label.name
  phys : ∀ i ∈ instrs (items ++ suffix), ∀ p, .phys p ∈ i.op.regs → ¬ Assignment.Reserved pool p
  frame : ∀ i ∈ instrs (items ++ suffix), i.op.def? ≠ some .fp
  entry : (Liveness.ofItems items).liveIn.getD 0 ∅ = ∅
  virts : ∀ i ∈ instrs suffix, i.op.virts = []
  apart : ∀ i ∈ instrs suffix, ∀ l ∈ i.op.flow.target?, l.name ∉ (labels items).map Label.name

variable {entry : Label} {items suffix : List Item} {data : List Datum} {pool : List PhysReg}

theorem instrs_program (entry : Label) (items suffix : List Item) (data : List Datum) :
    instrs (program entry items suffix data).text = instrs items ++ instrs suffix := by
  rw [program, instrs_cons_label, instrs_append]

/-- Nothing is live at the entry, so control may come back to it. -/
theorem Enclosed.surrounded (e : Enclosed entry items suffix data pool) :
    Surrounded [.label entry] items suffix data pool fun _ => True where
  names := e.names
  harmless {k i} _ hi := by
    have hmem : i ∈ instrs (items ++ suffix) := by
      rw [instrs_append]
      exact List.mem_of_getElem? hi
    exact ⟨e.direct i hmem, e.data i hmem, e.phys i hmem, e.frame i hmem⟩
  virts := e.virts
  apart {k i} _ hi hout := by
    have hle : (instrs items).length ≤ k := by
      rw [instrs_cons_label, instrs_nil, List.length_nil] at hout
      omega
    rw [instrs_cons_label, instrs_nil, List.nil_append, List.getElem?_append_right hle] at hi
    exact e.apart i (List.mem_of_getElem? hi)
  entry := .inl e.entry

/-! ## Runs -/

theorem label?_program {img : Image} {i : State} {items : List Item}
    (hnames : (program entry items suffix data).defs.Nodup)
    (h : load (program entry items suffix data) = .ok (img, i)) :
    img.label? entry.name = some textBase := by
  have hfind : find _ entry.name = .ok (pcOf (instrs []).length) := find_text hnames rfl
  rw [Image.label?, labels_of_load h]
  exact find_eq_ok_iff.mp hfind

end Allocation

/-- Run from a label, the program exits under some budget: with this code, this output and in this
state. -/
def Image.Exits (img : Image) (entry : String) (s : State) (code : Int32) (out : String)
    (s' : State) : Prop :=
  ∃ limit steps, img.run entry limit s = (.ok ⟨code, out, steps⟩, s')

theorem Image.exits_iff {img : Image} {entry : String} {addr : Addr} {s s' : State} {code : Int32}
    {out : String} (h : img.label? entry = some addr) :
    img.Exits entry s code out s' ↔ Ends img (enter addr s) code s' ∧ out = s'.stdout := by
  simp only [Exits, run, h]
  constructor
  · rintro ⟨limit, steps, hrun⟩
    obtain ⟨n, -, hs, hx, hout⟩ := exits_of_runSteps hrun
    exact ⟨⟨n, hs, hx⟩, hout⟩
  · rintro ⟨hends, rfl⟩
    exact ends_iff.mp hends

/-- Register allocation preserves behaviour. A program around a stream and the same program around
the allocated stream, run from the same state, exit under some budget with the same codes and the
same output, and then agree on all but the registers and frame words that temporaries are given. The
frame words must be at valid addresses, and the run over temporaries must not touch them. -/
theorem allocation_preserves_behaviour {entry : Label} {items suffix : List Item}
    {data : List Datum} {pool : List PhysReg} {base : Int32} {f : String} {alloc : Allocation}
    {img₁ : Image} {i₁ : State} (hpool : pool.Nodup) (hsub : ∀ p ∈ pool, p ∈ PhysReg.allocatable)
    (halloc : Allocation.allocate items pool base f = .ok alloc)
    (henclosed : Allocation.Enclosed entry items suffix data pool)
    (hload : load (Allocation.program entry items suffix data) = .ok (img₁, i₁))
    (hfits : (Allocation.program entry alloc.items suffix data).Fits) (s : State)
    (hvalid : alloc.assignment.ValidSlots (s.reg .fp))
    (huntouched : ∀ addr ∈ img₁.label? entry.name,
      alloc.assignment.Untouched (s.reg .fp) img₁ (enter addr s)) :
    ∃ img₂ i₂, load (Allocation.program entry alloc.items suffix data) = .ok (img₂, i₂) ∧
      ∀ code out,
        ((∃ s₁, img₁.Exits entry.name s code out s₁) ↔ ∃ s₂, img₂.Exits entry.name s code out s₂) ∧
        ∀ s₁ s₂, img₁.Exits entry.name s code out s₁ → img₂.Exits entry.name s code out s₂ →
          alloc.assignment.Agree pool (s.reg .fp) (fun _ => False) s₁ s₂ := by
  have loc := Allocation.locates_of_allocate hpool hsub halloc
  obtain ⟨-, -, -, hitems⟩ := Allocation.allocate_eq_ok halloc
  rw [hitems] at hfits ⊢
  have hsurrounded := henclosed.surrounded
  obtain ⟨⟨img₂, i₂⟩, hload₂⟩ :
      ∃ x, load (Allocation.program entry (alloc.assignment.apply items) suffix data) = .ok x :=
    (hsurrounded.load_apply alloc.assignment).mpr ⟨_, hload⟩
  refine ⟨img₂, i₂, hload₂, ?_⟩
  have hprogram : Allocation.program entry (alloc.assignment.apply items) suffix data =
      ⟨alloc.assignment.apply (Allocation.program entry items suffix data).text, data⟩ :=
    congrArg (Assembly.mk · data) (hsurrounded.apply_text alloc.assignment)
  have hentry₁ := Allocation.label?_program henclosed.names hload
  have hentry₂ := Allocation.label?_program
    (by rw [hprogram]; exact (Assignment.defs_apply _ _).symm ▸ henclosed.names) hload₂
  rw [hprogram] at hfits hload₂
  have sim := Assignment.simulation loc.wellPlaced hvalid (hsurrounded.placed loc) henclosed.names
    hfits hload hload₂
  -- The two runs start in the same state, in which no temporary is live.
  have hstart : alloc.assignment.Related pool (s.reg .fp)
      (Allocation.program entry items suffix data).text
      (Allocation.LiveAt [.label entry] items) (enter textBase s) (enter textBase s) := by
    refine .here 0 (Nat.zero_le _) ⟨fun _ _ => rfl, fun _ _ => rfl, rfl, rfl, ?_, ?_⟩ rfl rfl
    · rw [enter, State.reg_goto, State.reg_setReg_of_ne _ _ (by decide),
        State.reg_setReg_of_ne _ _ (by decide)]
    · intro v hv
      have hlive : v ∈ (Liveness.ofItems items).liveIn.getD 0 ∅ := hv.2
      rw [henclosed.entry] at hlive
      exact absurd hlive Std.ExtTreeSet.not_mem_empty
  have hstays : Assignment.Stays (fun _ => True) img₁ (enter textBase s) :=
    fun _ _ _ _ _ _ _ => trivial
  have hrel := And.intro hstart (And.intro (huntouched _ hentry₁) hstays)
  intro code out
  simp only [exits_iff hentry₁, exits_iff hentry₂]
  refine ⟨⟨?_, ?_⟩, ?_⟩
  · rintro ⟨s₁, hends, rfl⟩
    obtain ⟨s₂, hends₂, hagree⟩ := sim.ends hrel hends
    exact ⟨s₂, hends₂, hagree.stdout.symm⟩
  · rintro ⟨s₂, hends, rfl⟩
    obtain ⟨s₁, hends₁, hagree⟩ := sim.ends_of_ends hrel hends
    exact ⟨s₁, hends₁, hagree.stdout⟩
  · rintro s₁ s₂ ⟨hends₁, -⟩ ⟨hends₂, -⟩
    obtain ⟨s₂', hends₂', hagree⟩ := sim.ends hrel hends₁
    obtain ⟨-, rfl⟩ := hends₂.unique hends₂'
    exact hagree

/-! ## A loop with more temporaries than registers -/

/-- Run for as long as the program does, checking every operation before it is performed. -/
def Image.checked (img : Image) (ok : State → Op Addr → Bool) : Nat → State → Bool
  | 0, _ => false
  | fuel + 1, s =>
    match img.fetch s.pc with
    | none => true
    | some op =>
      ok s op &&
        match s.exec op with
        | .running s' => img.checked ok fuel s'
        | _ => true

theorem Image.ok_of_checked {img : Image} {ok : State → Op Addr → Bool} {fuel n : Nat}
    {s s' : State} {op : Op Addr} (h : img.checked ok fuel s = true) (hs : Steps img n s s')
    (hf : img.fetch s'.pc = some op) : ok s' op = true := by
  induction hs generalizing fuel with
  | refl s =>
    cases fuel with
    | zero => exact nomatch h
    | succ fuel =>
      simp only [checked, hf, Bool.and_eq_true] at h
      exact h.1
  | step hf' he _ ih =>
    cases fuel with
    | zero => exact nomatch h
    | succ fuel =>
      simp only [checked, hf', he, Bool.and_eq_true] at h
      exact ih h.2 hf

/-- Adds 10 three times: a counter, a sum and an addend are live at once. -/
def countdown : List Item :=
  [.op (.li (.virt 0) 3), .op (.li (.virt 1) 0), .op (.li (.virt 2) 10),
   .label ⟨"f$L0", false⟩,
   .op (.add (.virt 1) (.virt 1) (.virt 2)),
   .op (.addi (.virt 0) (.virt 0) (-1)),
   .op (.bnez (.virt 0) ⟨"f$L0", false⟩),
   .op (.mv .a0 (.virt 1))]

/-- Exit with the code in `a0`. -/
def exitWithA0 : List Item := [.op (.li .a7 17), .op .ecall]

/-- A state with a frame at 0x10000. -/
def framed : State := ⟨textBase, Registers.zeros.set .fp 65536, .empty, 0, ""⟩

/-- Neither a load nor a store, and if a system call, one that exits. -/
def leavesMemory (s : State) : Op Addr → Bool
  | .load .. | .store .. => false
  | .ecall => s.reg .a7 == 17
  | _ => true

theorem not_touches_of_leavesMemory {s : State} {op : Op Addr} (h : leavesMemory s op = true)
    (a : Addr) : ¬ s.Touches op a := by
  cases op with
  | load | store => exact nomatch h
  | ecall =>
    rintro ⟨hprint, -⟩
    rw [show s.reg .a7 = 17 from beq_iff_eq.mp h] at hprint
    exact nomatch hprint
  | _ => exact id

theorem countdown_enclosed :
    Allocation.Enclosed (.global "f") countdown exitWithA0 [] [.s1] where
  names := by decide
  direct := by simp [countdown, exitWithA0, Op.Direct]
  data := by simp [countdown, exitWithA0]
  phys := by
    simp [countdown, exitWithA0, Op.regs, Op.def?, Op.uses, Assignment.Reserved, PhysReg.scratch]
  frame := by decide
  entry := by decide +kernel
  virts := by decide
  apart := by decide

/-- With one register for its three temporaries, two of them live in the frame. The loop still ends
with 30 as its exit code. -/
theorem countdown_preserved :
    ∃ alloc img₁ i₁ img₂ i₂,
      Allocation.allocate countdown [.s1] (-8) "f" = .ok alloc ∧ alloc.spillSlots = 2 ∧
      load (Allocation.program (.global "f") countdown exitWithA0 []) = .ok (img₁, i₁) ∧
      load (Allocation.program (.global "f") alloc.items exitWithA0 []) = .ok (img₂, i₂) ∧
      (∃ s₁, img₁.Exits "f" framed 30 "" s₁) ∧ ∃ s₂, img₂.Exits "f" framed 30 "" s₂ := by
  have halloc : (Allocation.allocate countdown [.s1] (-8) "f").toOption.any (fun alloc =>
      alloc.spillSlots == 2 && (instrs alloc.items).length ≤ 20 &&
        alloc.assignment.toList.all fun e => e.2 == .reg .s1 || e.2 == .spill (-8) ||
          e.2 == .spill (-12)) = true := by decide +kernel
  have hload : (load (Allocation.program (.global "f") countdown exitWithA0 [])).toOption.any
      (fun r => r.1.checked leavesMemory 20 (enter textBase framed) &&
        (r.1.run "f" 20 framed).1.toOption == some ⟨30, "", 15⟩) = true := by decide +kernel
  obtain ⟨alloc, ha, halloc⟩ := exists_ok_of_any halloc
  obtain ⟨⟨img₁, i₁⟩, hl, hload⟩ := exists_ok_of_any hload
  simp only [Bool.and_eq_true, beq_iff_eq, decide_eq_true_eq, List.all_eq_true, Bool.or_eq_true]
    at halloc hload
  obtain ⟨⟨hspills, hshort⟩, hlocs⟩ := halloc
  obtain ⟨hchecked, hrun⟩ := hload
  have hvalid : alloc.assignment.ValidSlots (framed.reg .fp) := by
    intro v o ho
    rcases hlocs _ (Std.ExtTreeMap.mem_toList_iff_getElem?_eq_some.mpr ho) with (h | h) | h
    · cases h
    · cases h
      decide
    · cases h
      decide
  have hfits : (Allocation.program (.global "f") alloc.items exitWithA0 []).Fits := by
    refine ⟨?_, fun e he => absurd he List.not_mem_nil⟩
    have hlen : (instrs exitWithA0).length = 2 := rfl
    have ht : textBase.toNat = 4194304 := rfl
    have hd : dataBase.toNat = 268435456 := rfl
    rw [Allocation.instrs_program, List.length_append, hlen, ht, hd]
    omega
  have huntouched : ∀ addr ∈ img₁.label? (Label.global "f").name,
      alloc.assignment.Untouched (framed.reg .fp) img₁ (enter addr framed) := by
    intro addr haddr
    rw [Allocation.label?_program countdown_enclosed.names hl] at haddr
    cases haddr
    intro n s' hs op a hf htouch
    exact absurd htouch (not_touches_of_leavesMemory (ok_of_checked hchecked hs hf) a)
  obtain ⟨img₂, i₂, hload₂, hsame⟩ := allocation_preserves_behaviour (by decide) (by decide) ha
    countdown_enclosed hl hfits framed hvalid huntouched
  have hexits : ∃ s₁, img₁.Exits "f" framed 30 "" s₁ := by
    refine ⟨(img₁.run "f" 20 framed).2, 20, 15, ?_⟩
    exact Prod.ext (toOption_eq_some_iff.mp hrun) rfl
  exact ⟨alloc, img₁, i₁, img₂, i₂, ha, hspills, hl, hload₂, hexits, (hsame 30 "").1.mp hexits⟩

end ChocoRV
