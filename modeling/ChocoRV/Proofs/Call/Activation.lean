import Mathlib
import ChocoRV.Proofs.Call.Frames
import ChocoRV.Proofs.Call.Registers

/-!
# Activations

A function that has been entered runs its own instructions, those of support routines, and whole
activations of other functions. `Image.Runs` describes such runs, `FuncCode.Kept` says that what the
prologue stored is still in its place, and `FuncCode.returns` that the epilogue then gives it back.
A register that calls keep and that the body of a function does not write is the same all along a
run (`Image.Runs.keeps`): by induction, since an activation on the way gives back what it writes.
-/

namespace ChocoRV

open Assembly Image

/-- A function as code: a frame around a body, entered and left at one label each. -/
structure FuncCode where
  entry : Label
  frame : Frame
  body : List Item
  exit : Label

namespace FuncCode

variable (f : FuncCode)

def enter : List Instr := instrs f.frame.prologue

def inner : List Instr := instrs f.body

def leave : List Instr := instrs (f.frame.epilogue f.exit)

def code : List Instr := f.enter ++ f.inner ++ f.leave

/-- The address of the exit label if the function is entered at `pc`. -/
def exitAt (pc : Addr) : Addr := past pc (f.enter ++ f.inner).length

/-- The frame is that of a function, it saves different registers of those that calls keep, and the
body writes none of them but these. -/
structure Saves : Prop where
  func : f.frame.isTopLevel = false
  kept : ∀ r ∈ f.frame.saved, r ∈ PhysReg.allocatable
  nodup : f.frame.saved.Nodup
  written : ∀ i ∈ f.inner, ∀ r ∈ PhysReg.allocatable, i.op.def? = some (.phys r) → r ∈ f.frame.saved

/-- In `s'` the frame pointer is as the prologue has set it when it was entered in `s`, and the
words with the frame pointer of the caller, the return address and the saved registers are as the
prologue has written them. -/
structure Kept (s s' : State) : Prop where
  fp : s'.reg .fp = s.reg .sp
  words : ∀ p ∈ f.frame.returned, s'.memory.readWord (s.addrOf .sp p.2) = s.reg (.phys p.1)

/-- The function that was entered in `s` and came to its exit label in `s₂` has returned in `s₃`. -/
structure Returned (s s₂ s₃ : State) : Prop where
  pc : s₃.pc = (s.reg .ra).toUInt32
  sp : s₃.reg .sp = s.reg .sp
  fp : s₃.reg .fp = s.reg .fp
  saved : ∀ r ∈ f.frame.saved, s₃.reg (.phys r) = s.reg (.phys r)
  other : ∀ r, r ∉ [.sp, .fp, .ra] → r ∉ f.frame.saved → s₃.reg (.phys r) = s₂.reg (.phys r)

variable {f}

/-- **Functions return.** From its exit label a function goes back to the caller, if what the
prologue has set and written is still there. -/
theorem returns {img : Image} {s s₁ s₂ : State} (hf : f.Saves) (hcode : img.Finds s.pc f.code)
    (henter : Steps img f.enter.length s s₁) (hexit : s₂.pc = f.exitAt s.pc) (hkept : f.Kept s s₂) :
    ∃ s₃, Steps img f.leave.length s₂ s₃ ∧ f.Returned s s₂ s₃ := by
  obtain ⟨hcode, hleave⟩ := finds_append.mp hcode
  obtain ⟨hprologue, -⟩ := finds_append.mp hcode
  -- The words that the epilogue loads are some of those that the prologue could store to.
  have hvalid : RegSlots.Valid s₂ .fp f.frame.returned := by
    rw [RegSlots.valid_congr hkept.fp]
    have hstored := ((Frame.steps_prologue_iff hf.func hf.kept hprologue).mp henter).1
    exact fun p hp => hstored p (Frame.returned_subset_stored hp)
  rw [FuncCode.exitAt] at hexit
  rw [← hexit] at hleave
  obtain ⟨s₃, hs₃, hback⟩ := Frame.steps_epilogue hf.func hf.kept hf.nodup hleave hvalid
  have hword : ∀ p ∈ f.frame.returned,
      s₂.memory.readWord (s₂.addrOf .fp p.2) = s.reg (.phys p.1) := by
    intro p hp
    have haddr : s₂.addrOf .fp p.2 = s.addrOf .sp p.2 := by
      rw [State.addrOf, hkept.fp, State.addrOf]
    rw [haddr, hkept.words p hp]
  refine ⟨s₃, hs₃, ?_, hback.sp.trans hkept.fp, ?_, fun r hr => ?_, fun r => hback.other⟩
  · rw [hback.pc]
    exact congrArg Int32.toUInt32 (hword (.ra, Frame.savedRaOffset)
      (List.mem_cons_of_mem _ List.mem_cons_self))
  · exact hback.fp.trans (hword (.fp, Frame.savedFpOffset) List.mem_cons_self)
  · obtain ⟨k, hk⟩ := List.mem_iff_getElem?.mp hr
    have hmem : (r, f.frame.saveSlot k) ∈ f.frame.kept := Frame.mem_kept_iff.mpr ⟨k, hk, rfl⟩
    rw [hback.saved hmem]
    exact hword (r, f.frame.saveSlot k) (List.mem_cons_of_mem _ (List.mem_cons_of_mem _ hmem))

/-- The prologue changes the stack pointer and the frame pointer only. -/
theorem Saves.reg_entered {img : Image} {s s₁ : State} (hf : f.Saves)
    (hcode : img.Finds s.pc f.code) (henter : Steps img f.enter.length s s₁) {r : PhysReg}
    (hsp : r ≠ .sp) (hfp : r ≠ .fp) : s₁.reg (.phys r) = s.reg (.phys r) := by
  have hprologue := (finds_append.mp (finds_append.mp hcode).1).1
  rw [((Frame.steps_prologue_iff hf.func hf.kept hprologue).mp henter).2]
  exact Frame.reg_reserved_of_ne _ _ (fun e => hsp (Reg.phys.inj e)) fun e => hfp (Reg.phys.inj e)

/-- A function gives back a register that calls keep if it has saved it or its body leaves it
alone. -/
theorem Returned.reg_eq {img : Image} {s s₁ s₂ s₃ : State} (hback : f.Returned s s₂ s₃)
    (hf : f.Saves) (hcode : img.Finds s.pc f.code) (henter : Steps img f.enter.length s s₁)
    {r : PhysReg} (hr : r ∈ PhysReg.allocatable)
    (hbody : (∀ i ∈ f.inner, i.op.def? ≠ some (.phys r)) → s₂.reg (.phys r) = s₁.reg (.phys r)) :
    s₃.reg (.phys r) = s.reg (.phys r) := by
  have hspecial : ∀ q ∈ PhysReg.allocatable, q ∉ [PhysReg.sp, .fp, .ra] ∧ q ≠ .sp ∧ q ≠ .fp := by
    decide
  obtain ⟨hother, hsp, hfp⟩ := hspecial r hr
  by_cases hsaved : r ∈ f.frame.saved
  · exact hback.saved r hsaved
  · have hunwritten : ∀ i ∈ f.inner, i.op.def? ≠ some (.phys r) := fun i hi hdef =>
      hsaved (hf.written i hi r hr hdef)
    rw [hback.other r hother hsaved, hbody hunwritten, hf.reg_entered hcode henter hsp hfp]

end FuncCode

namespace Image

/-- A step at an instruction of these items. -/
def StepOf (img : Image) (items : List Item) (s s' : State) : Prop :=
  ∃ i ∈ instrs items, ∃ op, img.fetch s.pc = some op ∧
    i.op.resolve (fun l => find img.labels l.name) = .ok op ∧ s.exec op = .running s'

/-- What happens while a body runs: steps of its own instructions and of those of the support
routines, and activations of functions that come to their exit labels with what their prologues have
set and written still there. -/
inductive Runs (img : Image) (funcs : FuncCode → Prop) (support : List Item) :
    List Item → State → State → Prop
  | refl (body : List Item) (s : State) : Runs img funcs support body s s
  | step {body : List Item} {s s₁ s₂ : State} (h : Runs img funcs support body s s₁)
      (hstep : img.StepOf (body ++ support) s₁ s₂) : Runs img funcs support body s s₂
  | call {body : List Item} {g : FuncCode} {s s₁ s₂ s₃ s₄ : State}
      (h : Runs img funcs support body s s₁) (hg : funcs g) (hcode : img.Finds s₁.pc g.code)
      (henter : Steps img g.enter.length s₁ s₂) (hrun : Runs img funcs support g.body s₂ s₃)
      (hexit : s₃.pc = g.exitAt s₁.pc) (hkept : g.Kept s₁ s₃)
      (hleave : Steps img g.leave.length s₃ s₄) : Runs img funcs support body s s₄

variable {img : Image} {funcs : FuncCode → Prop} {support body : List Item}

/-- A step leaves alone the registers that none of the instructions writes. -/
theorem StepOf.keeps {s s' : State} {r : PhysReg} (h : img.StepOf body s s')
    (hr : ∀ i ∈ instrs body, i.op.def? ≠ some (.phys r)) (ha0 : r ≠ .a0) :
    s'.reg (.phys r) = s.reg (.phys r) := by
  obtain ⟨i, hi, op, -, hres, he⟩ := h
  refine State.reg_of_exec he ?_ fun e => ha0 (Reg.phys.inj e)
  rw [Op.def?_resolve hres]
  exact hr i hi

/-- **Calls keep registers.** A register that calls keep and that the body does not write is the
same all along its run. -/
theorem Runs.keeps {s s' : State} (h : Runs img funcs support body s s')
    (hfuncs : ∀ g, funcs g → g.Saves)
    (hsupport : ∀ i ∈ instrs support, ∀ r ∈ PhysReg.allocatable, i.op.def? ≠ some (.phys r)) :
    ∀ r ∈ PhysReg.allocatable, (∀ i ∈ instrs body, i.op.def? ≠ some (.phys r)) →
      s'.reg (.phys r) = s.reg (.phys r) := by
  have ha0 : ∀ r ∈ PhysReg.allocatable, r ≠ .a0 := by decide
  induction h with
  | refl => exact fun _ _ _ => rfl
  | step _ hstep ih =>
    intro r hr hbody
    refine (hstep.keeps (fun i hi => ?_) (ha0 r hr)).trans (ih r hr hbody)
    rw [instrs_append] at hi
    exact (List.mem_append.mp hi).elim (hbody i) fun hi => hsupport i hi r hr
  | @call body g s s₁ s₂ s₃ s₄ _ hg hcode henter _ hexit hkept hleave ih ihg =>
    intro r hr hbody
    refine Eq.trans ?_ (ih r hr hbody)
    obtain ⟨s₄', hs₄', hback⟩ := FuncCode.returns (hfuncs g hg) hcode henter hexit hkept
    rw [hleave.unique hs₄']
    exact hback.reg_eq (hfuncs g hg) hcode henter hr (ihg r hr)

end Image

end ChocoRV
