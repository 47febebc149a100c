import Mathlib
import ChocoRV.Proofs.Call.Units

/-!
# Observed calls

Units and calls found by compiling, loading and running a program: what has been computed of one
(`ObservedUnit.ofProgram`, `ObservedCall.ofRun`) is a fact about the program and about the steps of
the machine (`ObservedUnit.isUnit_of_ofProgram`, `ObservedCall.isCall_of_ofRun`).
-/

namespace ChocoRV

open Assembly Image

variable {p : Program} {settings : CodegenSettings}

/-! ## Units -/

/-- A unit of a program that has been compiled and loaded, and the state in which the program
starts. -/
structure ObservedUnit where
  assembly : Assembly
  table : SymbolTable
  bodies : List Body
  image : Image
  loaded : State
  unit : (Option Nat × Draft.Result Unit) × Body
  start : State

namespace ObservedUnit

def func (c : ObservedUnit) : FuncCode := .ofUnit c.table c.unit.1.1 c.unit.2

/-- Compile and load a program and take its `k`-th unit. -/
def ofProgram (p : Program) (settings : CodegenSettings) (k : Nat) : Option ObservedUnit := do
  let a ← (compile p settings).toOption
  let table ← (SymbolTable.ofProgram p).toOption
  let bodies ← ((Function.programDrafts p settings.comments table).mapM fun ud =>
    Function.bodyOf settings table ud.1 ud.2).toOption
  let loaded ← (load a).toOption
  let unit ← ((Function.programDrafts p settings.comments table).zip bodies)[k]?
  let main ← loaded.1.label? Function.main
  return ⟨a, table, bodies, loaded.1, loaded.2, unit, enter main loaded.2⟩

/-- The unit is a function, the names of the program are all different and its addresses do not wrap
around. -/
def Proper (c : ObservedUnit) : Prop :=
  c.unit.1.1.isSome = true ∧ c.assembly.defs.Nodup ∧
    textBase.toNat + 4 * c.image.code.size ≤ UInt32.size

instance (c : ObservedUnit) : Decidable c.Proper := inferInstanceAs (Decidable (_ ∧ _ ∧ _))

/-- What has been observed is so. -/
structure IsUnit (p : Program) (settings : CodegenSettings) (c : ObservedUnit) : Prop where
  compiles : compile p settings = .ok c.assembly
  units : ∃ payload, CompiledAs p settings c.assembly c.table c.bodies payload
  loads : load c.assembly = .ok (c.image, c.loaded)
  unit : c.unit ∈ (Function.programDrafts p settings.comments c.table).zip c.bodies

theorem isUnit_of_ofProgram {c : ObservedUnit} {k : Nat} (h : ofProgram p settings k = some c) :
    c.IsUnit p settings := by
  simp only [ofProgram, Option.bind_eq_bind, Option.bind_eq_some_iff, toOption_eq_some_iff] at h
  obtain ⟨a, ha, table, ht, bodies, hb, ⟨img, s₀⟩, hl, unit, hu, main, -, hc⟩ := h
  cases hc
  have hunits : ∃ payload, CompiledAs p settings a table bodies payload := by
    obtain ⟨table', bodies', payload, hc⟩ := compile_eq_ok ha
    obtain rfl : table = table' := Except.ok.inj (ht.symm.trans hc.symbols)
    obtain rfl : bodies = bodies' := Except.ok.inj (hb.symm.trans (mapM_eq_ok_iff.mpr hc.made))
    exact ⟨payload, hc⟩
  exact ⟨ha, hunits, hl, List.mem_of_getElem? hu⟩

namespace IsUnit

variable {c : ObservedUnit}

theorem func_mem (h : c.IsUnit p settings) (hp : c.Proper) :
    ∃ id, ((some id, c.unit.1.2), c.unit.2) ∈
      (Function.programDrafts p settings.comments c.table).zip c.bodies ∧
      c.func = .ofUnit c.table (some id) c.unit.2 := by
  obtain ⟨id, hid⟩ := Option.isSome_iff_exists.mp hp.1
  refine ⟨id, ?_, ?_⟩
  · rw [← hid]
    exact h.unit
  · rw [← hid]
    rfl

theorem isFunc (h : c.IsUnit p settings) (hp : c.Proper) :
    Function.IsFunc p settings.comments c.table c.bodies c.func := by
  obtain ⟨id, hmem, hfunc⟩ := h.func_mem hp
  exact ⟨id, _, _, hmem, hfunc⟩

theorem finds (h : c.IsUnit p settings) (hp : c.Proper) {entry : Addr}
    (hentry : c.image.label? c.func.entry.name = some entry) : c.image.Finds entry c.func.code := by
  obtain ⟨payload, hunits⟩ := h.units
  obtain ⟨pc, hfinds, hlabel⟩ := hunits.stands ⟨_, _, _, h.unit, rfl⟩ h.loads hp.2.2
  obtain rfl : pc = entry :=
    Option.some.inj ((find_eq_ok_iff.mp (hlabel hp.2.1)).symm.trans hentry)
  exact hfinds

end IsUnit

end ObservedUnit

/-! ## Calls -/

/-- A call as a run of a program shows it: the states in which a unit is entered, in which its
prologue is done, in which it comes to its exit label and in which it has returned. -/
structure ObservedCall extends ObservedUnit where
  entered : State
  inside : State
  /-- The steps from the end of the prologue to the exit label. -/
  length : Nat
  leaving : State
  returned : State

namespace ObservedCall

/-- Run a program up to a call of its `k`-th unit, after `before` steps, and on to the exit label,
`within` steps after the prologue. -/
def ofRun (p : Program) (settings : CodegenSettings) (k before within : Nat) :
    Option ObservedCall := do
  let c ← ObservedUnit.ofProgram p settings k
  let s ← c.image.after before c.start
  let s₁ ← c.image.after c.func.enter.length s
  let s₂ ← c.image.after within s₁
  let s₃ ← c.image.after c.func.leave.length s₂
  return ⟨c, s, s₁, within, s₂, s₃⟩

/-- The call is that of a function, and from its entry to its exit label its frame stays intact. -/
def Intact (c : ObservedCall) : Prop :=
  c.Proper ∧ c.image.label? c.func.entry.name = some c.entered.pc ∧
    c.leaving.pc = c.func.exitAt c.entered.pc ∧ c.leaving.reg .fp = c.entered.reg .sp ∧
    ∀ p ∈ c.func.frame.returned,
      c.leaving.memory.readWord (c.entered.addrOf .sp p.2) = c.entered.reg (.phys p.1)

instance (c : ObservedCall) : Decidable c.Intact := inferInstanceAs (Decidable (_ ∧ _ ∧ _ ∧ _ ∧ _))

variable {c : ObservedCall}

/-- What has been observed is so. -/
structure IsCall (p : Program) (settings : CodegenSettings) (c : ObservedCall) : Prop
    extends c.toObservedUnit.IsUnit p settings where
  enters : Steps c.image c.func.enter.length c.entered c.inside
  runs : Steps c.image c.length c.inside c.leaving
  returns : Steps c.image c.func.leave.length c.leaving c.returned

theorem isCall_of_ofRun {k before within : Nat} (h : ofRun p settings k before within = some c) :
    c.IsCall p settings := by
  simp only [ofRun, Option.bind_eq_bind, Option.bind_eq_some_iff] at h
  obtain ⟨u, hu, s, -, s₁, hs₁, s₂, hs₂, s₃, hs₃, hc⟩ := h
  cases hc
  exact ⟨ObservedUnit.isUnit_of_ofProgram hu, steps_of_after hs₁, steps_of_after hs₂,
    steps_of_after hs₃⟩

end ObservedCall

namespace Image

/-- The state after `n` steps, if all of them are at instructions of these items. -/
def afterIn (img : Image) (items : List Item) : Nat → State → Option State
  | 0, s => some s
  | n + 1, s =>
    (img.fetch s.pc).bind fun op =>
      if (instrs items).any fun i =>
          (i.op.resolve fun l => find img.labels l.name).toOption == some op then
        match s.exec op with
        | .running t => afterIn img items n t
        | .exited .. | .faulted .. => none
      else none

theorem runs_of_afterIn {img : Image} {funcs : FuncCode → Prop} {support body : List Item} {n : Nat}
    {s₀ s s' : State} (h : img.afterIn body n s = some s') (hs : Runs img funcs support body s₀ s) :
    Steps img n s s' ∧ Runs img funcs support body s₀ s' := by
  induction n generalizing s with
  | zero =>
    cases h
    exact ⟨.refl s', hs⟩
  | succ n ih =>
    obtain ⟨op, hf, h⟩ := Option.bind_eq_some_iff.mp h
    split at h
    · rename_i hany
      obtain ⟨i, hi, hres⟩ := List.any_eq_true.mp hany
      have hres := toOption_eq_some_iff.mp (beq_iff_eq.mp hres)
      have hmem : i ∈ instrs (body ++ support) := by
        rw [instrs_append]
        exact List.mem_append_left _ hi
      cases he : s.exec op with
      | running t =>
        rw [he] at h
        obtain ⟨hsteps, hruns⟩ := ih h (hs.step ⟨i, hmem, op, hf, hres, he⟩)
        exact ⟨.step hf he hsteps, hruns⟩
      | exited code t =>
        rw [he] at h
        cases h
      | faulted f t =>
        rw [he] at h
        cases h
    · cases h

end Image

end ChocoRV
