import Mathlib
import ChocoRV.Proofs.Call.Observed

/-!
# Registers survive calls

Temporaries are given registers that calls keep, so no code has to save them around a call: each
function saves those that it writes. `registers_survive_calls` says that this is so for every
compiled program, and what follows for its runs. A function gives back what it has saved as soon as
its own frame is intact; for the other registers the frames of all functions that it calls have to
be intact as well, as `saved_word_overwritten` shows.
-/

namespace ChocoRV

open Assembly Image

/-- What a compiled program does with the registers that calls keep: `units` are its units, `funcs`
the functions among them and `support` is the code of the support routines. -/
structure RegistersSurvive (mode : RegisterMode) (a : Assembly) (units funcs : FuncCode → Prop)
    (support : List Item) : Prop where
  /-- What the body of a function writes is stored by the prologue and loaded by the epilogue, to
  and from one word of the frame. -/
  saved {f : FuncCode} (hf : funcs f) : ∀ i ∈ f.inner, ∀ r ∈ PhysReg.allocatable,
    i.op.def? = some (.phys r) →
      ∃ n, ⟨.sw (.phys r) .fp n, none⟩ ∈ f.enter ∧ ⟨.lw (.phys r) .fp n, none⟩ ∈ f.leave
  /-- No body writes the frame pointer. -/
  framePointer {f : FuncCode} (hf : units f) : ∀ i ∈ f.inner, i.op.def? ≠ some .fp
  /-- The scratch registers occur in the allocating mode only. -/
  scratch : ∀ i ∈ instrs a.text, ∀ r ∈ PhysReg.scratch, .phys r ∈ i.op.regs → mode = .virtual
  /-- No support routine writes a register that calls keep. -/
  routines : ∀ i ∈ instrs support, ∀ r ∈ PhysReg.calleeSaved, i.op.def? ≠ some (.phys r)
  /-- A function whose frame is intact at its exit label returns to its caller, with the stack
  pointer, the frame pointer and the registers that it saves as they were on entry and the result as
  it was at the exit label. If the frames of all functions that it called were intact as well, then
  all registers that calls keep are as they were on entry. -/
  returns {f : FuncCode} (hf : funcs f) {img : Image} {s₀ : State} (hload : load a = .ok (img, s₀))
    {s s₁ s₂ : State} {n : Nat} (hcode : img.Finds s.pc f.code)
    (henter : Steps img f.enter.length s s₁) (hrun : Steps img n s₁ s₂)
    (hexit : s₂.pc = f.exitAt s.pc) (hkept : f.Kept s s₂) :
    ∃ s₃, Steps img f.leave.length s₂ s₃ ∧ f.Returned s s₂ s₃ ∧ s₃.reg .a0 = s₂.reg .a0 ∧
      (img.Runs funcs support f.body s₁ s₂ →
        ∀ r ∈ PhysReg.allocatable, s₃.reg (.phys r) = s.reg (.phys r))
  /-- Where the code of a unit stands in memory. -/
  stands {f : FuncCode} (hf : units f) {img : Image} {s₀ : State} (hload : load a = .ok (img, s₀))
    (himg : img.Unwrapped) :
    ∃ pc, img.Finds pc f.code ∧ (a.defs.Nodup → find img.labels f.entry.name = .ok pc)

namespace FuncCode

variable {f : FuncCode}

theorem Saves.stored_and_loaded (hf : f.Saves) {i : Instr} (hi : i ∈ f.inner) {r : PhysReg}
    (hr : r ∈ PhysReg.allocatable) (hdef : i.op.def? = some (.phys r)) :
    ∃ n, ⟨.sw (.phys r) .fp n, none⟩ ∈ f.enter ∧ ⟨.lw (.phys r) .fp n, none⟩ ∈ f.leave := by
  obtain ⟨k, hk⟩ := List.mem_iff_getElem?.mp (hf.written i hi r hr hdef)
  have hmem : (r, f.frame.saveSlot k) ∈ f.frame.kept := Frame.mem_kept_iff.mpr ⟨k, hk, rfl⟩
  refine ⟨f.frame.saveSlot k, ?_, ?_⟩
  · rw [enter, Frame.instrs_prologue hf.func]
    iterate 4 refine List.mem_cons_of_mem _ ?_
    exact List.mem_map.mpr ⟨_, List.mem_append_right _ hmem, rfl⟩
  · rw [leave, Frame.instrs_epilogue hf.func]
    exact List.mem_append_left _ (List.mem_map.mpr ⟨_, List.mem_append_left _ hmem, rfl⟩)

end FuncCode

/-- **Registers survive calls**, in every program that compiles. -/
theorem registers_survive_calls {p : Program} {settings : CodegenSettings} {a : Assembly}
    (h : compile p settings = .ok a) :
    ∃ table bodies payload, CompiledAs p settings a table bodies payload ∧
      RegistersSurvive settings.registers a
        (Function.IsUnit p settings.comments table bodies)
        (Function.IsFunc p settings.comments table bodies)
        (Routine.items (Routine.messages (Function.constants p settings.comments table)).1
          payload) := by
  obtain ⟨table, bodies, payload, hc⟩ := compile_eq_ok h
  have hroutines {m : Routine.Messages} {payload : Int32} {i : Instr}
      (hi : i ∈ instrs (Routine.items m payload)) {r : PhysReg} (hr : r ∈ PhysReg.calleeSaved) :
      i.op.def? ≠ some (.phys r) := by
    have hother : ∀ q ∈ PhysReg.calleeSaved, q ∉ Routine.registers := by decide
    intro hdef
    refine hother r hr (Routine.modest_items m payload i hi r ?_)
    exact List.mem_append_left _ (Option.mem_toList.mpr hdef)
  have hsub : PhysReg.allocatable ⊆ PhysReg.calleeSaved := by decide
  refine ⟨table, bodies, payload, hc, ?_⟩
  constructor
  case saved => exact fun hf i hi r hr => (hc.saves hf).stored_and_loaded hi hr
  case framePointer =>
    rintro f ⟨u, d, b, hb, rfl⟩ i hi
    exact ((hc.named hb).2.2 i hi).2
  case scratch => exact fun i hi r hr => hc.virtual_of_scratch hi hr
  case routines => exact fun i hi r hr => hroutines hi hr
  case returns =>
    intro f hf img s₀ _ s s₁ s₂ n hcode henter _ hexit hkept
    obtain ⟨s₃, hs₃, hback⟩ := FuncCode.returns (hc.saves hf) hcode henter hexit hkept
    have ha0 : .a0 ∉ f.frame.saved := fun hm => absurd ((hc.saves hf).kept _ hm) (by decide)
    refine ⟨s₃, hs₃, hback, hback.other .a0 (by decide) ha0, fun hrun r hr => ?_⟩
    refine hback.reg_eq (hc.saves hf) hcode henter hr ?_
    exact hrun.keeps (fun g hg => hc.saves hg) (fun i hi q hq => hroutines hi (hsub hq)) r hr
  case stands => exact fun hf => hc.stands hf

/-- The function `g` adds one to its argument; with one register for temporaries its sum is
spilled. -/
def addOne : Program :=
  let int (n : Int32) : Expr := .int ⟨{}, .int⟩ n
  let add (l r : Expr) : Expr := .binary ⟨{}, .int⟩ l .add r
  { decls := [.func {} "g" [⟨"x", .int⟩] .int []
      [.ret {} (some (add (.name ⟨{}, .int⟩ "x") (int 1)))]]
    body := [.expr {} (add (int 1) (.call ⟨{}, .int⟩ "g" [int 20]))] }

theorem addOne_registers_survive :
    ∃ a table bodies payload img s₀ f s s₁ s₂ s₃,
      compile addOne ⟨.virtual, false, 1⟩ = .ok a ∧
      RegistersSurvive .virtual a (Function.IsUnit addOne false table bodies)
        (Function.IsFunc addOne false table bodies)
        (Routine.items (Routine.messages (Function.constants addOne false table)).1 payload) ∧
      load a = .ok (img, s₀) ∧ Function.IsFunc addOne false table bodies f ∧
      img.Finds s.pc f.code ∧ Steps img f.enter.length s s₁ ∧
      img.Runs (Function.IsFunc addOne false table bodies)
        (Routine.items (Routine.messages (Function.constants addOne false table)).1 payload) f.body
        s₁ s₂ ∧
      s₂.pc = f.exitAt s.pc ∧ f.Kept s s₂ ∧ Steps img f.leave.length s₂ s₃ ∧ f.Returned s s₂ s₃ ∧
      ∀ r ∈ PhysReg.allocatable, s₃.reg (.phys r) = s.reg (.phys r) := by
  have hcheck : (ObservedCall.ofRun addOne ⟨.virtual, false, 1⟩ 1 11 9).any (fun c =>
      decide (c.Intact ∧ (c.image.afterIn c.func.body c.length c.inside).isSome)) = true := by
    decide +kernel
  cases hrun : ObservedCall.ofRun addOne ⟨.virtual, false, 1⟩ 1 11 9 with
  | none =>
    rw [hrun] at hcheck
    cases hcheck
  | some c =>
    rw [hrun] at hcheck
    obtain ⟨hi, hown⟩ := of_decide_eq_true hcheck
    have hcall := ObservedCall.isCall_of_ofRun hrun
    obtain ⟨table, bodies, payload, hc, hsurvive⟩ := registers_survive_calls hcall.compiles
    obtain ⟨_, hunits⟩ := hcall.units
    obtain ⟨rfl, rfl⟩ := hc.unique hunits
    have ⟨hproper, hentry, hexit, hfp, hwords⟩ := hi
    obtain ⟨s₂, hs₂⟩ := Option.isSome_iff_exists.mp hown
    obtain ⟨hsteps, hruns⟩ := runs_of_afterIn hs₂ (.refl c.func.body c.inside)
    obtain rfl := hsteps.unique hcall.runs
    obtain ⟨s₃, hs₃, hback, -, hall⟩ := hsurvive.returns (hcall.isFunc hproper) hcall.loads
      (hcall.finds hproper hentry) hcall.enters hcall.runs hexit ⟨hfp, hwords⟩
    exact ⟨c.assembly, c.table, c.bodies, payload, c.image, c.loaded, c.func, c.entered, c.inside,
      c.leaving, s₃, hcall.compiles, hsurvive, hcall.loads, hcall.isFunc hproper,
        hcall.finds hproper hentry,
      hcall.enters, hruns, hexit, ⟨hfp, hwords⟩, hs₃, hback, hall hruns⟩

/-- The functions `f` and `g` are called while `1`, `2` and `3` are held in registers. The body of
`g` stores `100` to an address made up by the program, at which its frame keeps the second register;
`f` only calls `g`. -/
def strayStore : Program :=
  let int (n : Int32) : Expr := .int ⟨{}, .int⟩ n
  let add (l r : Expr) : Expr := .binary ⟨{}, .int⟩ l .add r
  let call (f : String) : Expr := .call ⟨{}, .int⟩ f []
  let word : Expr := .index ⟨{}, .int⟩ (.int ⟨{}, .list .int⟩ 2147483580) (int 0)
  { decls := [
      .func {} "g" [] .int [] [.assign {} [word] (int 100), .ret {} (some (int 0))],
      .func {} "f" [] .int [] [.expr {} (call "g"), .ret {} (some (int 0))]]
    body := [.expr {} (.call ⟨{}, .none⟩ "print"
      [add (int 1) (add (int 2) (add (int 3) (call "f")))])] }

/-- One frame that is intact is not enough: `f` comes to its exit label with its own frame intact,
and returns with another value in `s2` than on entry. -/
theorem saved_word_overwritten :
    ∃ a table bodies payload img s₀ f s s₁ n s₂ s₃,
      compile strayStore ⟨.physical, false, 11⟩ = .ok a ∧
      CompiledAs strayStore ⟨.physical, false, 11⟩ a table bodies payload ∧
      load a = .ok (img, s₀) ∧ Function.IsFunc strayStore false table bodies f ∧
      img.Finds s.pc f.code ∧ Steps img f.enter.length s s₁ ∧ Steps img n s₁ s₂ ∧
      s₂.pc = f.exitAt s.pc ∧ f.Kept s s₂ ∧ Steps img f.leave.length s₂ s₃ ∧
      s₃.reg (.phys .s2) ≠ s.reg (.phys .s2) := by
  have hcheck : (ObservedCall.ofRun strayStore ⟨.physical, false, 11⟩ 2 9 31).any (fun c =>
      decide (c.Intact ∧ c.returned.reg (.phys .s2) ≠ c.entered.reg (.phys .s2))) = true := by
    decide +kernel
  cases hrun : ObservedCall.ofRun strayStore ⟨.physical, false, 11⟩ 2 9 31 with
  | none =>
    rw [hrun] at hcheck
    cases hcheck
  | some c =>
    rw [hrun] at hcheck
    obtain ⟨hi, hlost⟩ := of_decide_eq_true hcheck
    have hcall := ObservedCall.isCall_of_ofRun hrun
    obtain ⟨payload, hunits⟩ := hcall.units
    have ⟨hproper, hentry, hexit, hfp, hwords⟩ := hi
    exact ⟨c.assembly, c.table, c.bodies, payload, c.image, c.loaded, c.func, c.entered, c.inside,
      c.length, c.leaving, c.returned, hcall.compiles, hunits, hcall.loads, hcall.isFunc hproper,
      hcall.finds hproper hentry, hcall.enters, hcall.runs, hexit, ⟨hfp, hwords⟩,
        hcall.returns, hlost⟩

end ChocoRV
