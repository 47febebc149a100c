import Mathlib
import ChocoRV.Proofs.Call.Activation

/-!
# The functions of a program

The units of a compiled program as functions, where they stand when the program is loaded, and that
they keep to the rules for registers.
-/

namespace ChocoRV

open Assembly Image

/-- A unit with its frame around its body. -/
def FuncCode.ofUnit (table : SymbolTable) (u : Option Nat) (b : Body) : FuncCode :=
  { entry := Function.entryOf table u
    frame := Function.frameWith table u b
    body := b.items
    exit := .nth (Function.entryOf table u).name 0 }

theorem FuncCode.instrs_wrap (table : SymbolTable) (u : Option Nat) (b : Body) :
    instrs (Function.wrap table u b) = (ofUnit table u b).code := by
  rw [Function.wrap, instrs_append, List.cons_append, instrs_cons_label, instrs_append]
  rfl

namespace Function

variable (p : Program) (comments : Bool) (table : SymbolTable) (bodies : List Body)

/-- A unit of a program whose units have these bodies. -/
def IsUnit (f : FuncCode) : Prop :=
  ∃ u d b, ((u, d), b) ∈ (programDrafts p comments table).zip bodies ∧ f = .ofUnit table u b

/-- A unit other than the top level. -/
def IsFunc (f : FuncCode) : Prop :=
  ∃ id d b, ((some id, d), b) ∈ (programDrafts p comments table).zip bodies ∧
    f = .ofUnit table (some id) b

end Function

namespace Frame

variable {f : Frame}

theorem plain_of_mem_homed {p : PhysReg × Int32} (h : p ∈ f.homed) : p.1.plain = true := by
  have hargs : ∀ r ∈ PhysReg.args, r.plain = true := by decide
  exact hargs _ (mem_args_of_mem_homed h)

/-- A frame names registers that no temporary is given, and those it saves. -/
theorem plain_or_saved {exit : Label} {i : Instr}
    (h : i ∈ instrs f.prologue ∨ i ∈ instrs (f.epilogue exit)) {p : PhysReg}
    (hp : .phys p ∈ i.op.regs) : p.plain = true ∨ p ∈ f.saved := by
  -- The instructions apart from the stores and loads of saved registers name fixed ones.
  have hfixed {is : List Instr} (his : is.all (·.op.regs.all fun r => r.phys?.any (·.plain)) = true)
      (hi : i ∈ is) : p.plain = true ∨ p ∈ f.saved := by
    have := List.all_eq_true.mp (List.all_eq_true.mp his i hi) _ hp
    exact .inl this
  cases htop : f.isTopLevel with
  | true =>
    rcases h with h | h
    · rw [prologue, htop] at h
      exact hfixed rfl h
    · rw [epilogue, htop] at h
      exact hfixed rfl h
  | false =>
    rcases h with h | h
    · rw [instrs_prologue htop] at h
      change i ∈ [_, _, _, _] ++ RegSlots.stores .fp (f.homed ++ f.kept) at h
      rcases List.mem_append.mp h with h | h
      · exact hfixed rfl h
      · obtain ⟨q, hq, rfl⟩ := List.mem_map.mp h
        rcases List.mem_pair.mp hp with hp | hp
        · cases hp
          exact .inl rfl
        · cases hp
          exact (List.mem_append.mp hq).imp plain_of_mem_homed mem_saved_of_mem_kept
    · rw [instrs_epilogue htop] at h
      rcases List.mem_append.mp h with h | h
      · obtain ⟨q, hq, rfl⟩ := List.mem_map.mp h
        rcases List.mem_pair.mp hp with hp | hp
        · cases hp
          rcases List.mem_append.mp hq with hq | hq
          · exact .inr (mem_saved_of_mem_kept hq)
          · rw [List.mem_singleton.mp hq]
            exact .inl rfl
        · cases hp
          exact .inl rfl
      · exact hfixed rfl h

end Frame

namespace CompiledAs

variable {p : Program} {settings : CodegenSettings} {a : Assembly} {table : SymbolTable}
  {bodies : List Body} {payload : Int32}

variable (h : CompiledAs p settings a table bodies payload)

include h

/-- A program has one symbol table and one list of bodies. -/
theorem unique {a' : Assembly}
    {table' : SymbolTable} {bodies' : List Body} {payload' : Int32}
    (h' : CompiledAs p settings a' table' bodies' payload') : table = table' ∧
    bodies = bodies' := by
  obtain rfl : table = table' := Except.ok.inj (h.symbols.symm.trans h'.symbols)
  exact ⟨rfl, Except.ok.inj ((mapM_eq_ok_iff.mpr h.made).symm.trans (mapM_eq_ok_iff.mpr h'.made))⟩

/-- What the body of a unit names. -/
theorem named {u : Option Nat}
    {d : Draft.Result Unit} {b : Body}
    (hb : ((u, d), b) ∈ (Function.programDrafts p settings.comments table).zip bodies) :
    (∀ r ∈ b.saved, r ∈ PhysReg.allocatable) ∧ b.saved.Nodup ∧
      ∀ i ∈ instrs b.items, i.op.Named settings.registers b.saved := by
  obtain ⟨-, hbody, pool, hd⟩ := h.body_eq_ok hb
  dsimp only at hbody hd
  rw [hd] at hbody
  exact Function.named_of_bodyOf hbody

/-- The functions of a program save what they write. -/
theorem saves {f : FuncCode}
    (hf : Function.IsFunc p settings.comments table bodies f) : f.Saves := by
  obtain ⟨id, d, b, hb, rfl⟩ := hf
  obtain ⟨hsaved, hnodup, hnamed⟩ := h.named hb
  exact ⟨rfl, hsaved, hnodup, fun i hi r hr => (hnamed i hi).saved_of_def hr⟩

/-- The scratch registers occur in bodies only. -/
theorem body_of_scratch {i : Instr}
    (hi : i ∈ instrs a.text) {r : PhysReg} (hr : r ∈ PhysReg.scratch)
    (hregs : .phys r ∈ i.op.regs) :
    ∃ u d b, ((u, d), b) ∈ (Function.programDrafts p settings.comments table).zip bodies ∧
      i ∈ instrs b.items := by
  have hother : ∀ q ∈ PhysReg.scratch, q.plain = false ∧ q ∉ PhysReg.allocatable ∧
    q ∉ Routine.registers := by decide
  obtain ⟨hplain, hallocatable, hroutine⟩ := hother r hr
  rw [h.text, instrs_append, ← List.map_uncurry_zip_eq_zipWith] at hi
  rcases List.mem_append.mp hi with hi | hi
  · obtain ⟨items, hitems, hi⟩ := List.mem_flatten.mp (mem_instrs.mp hi)
    obtain ⟨⟨⟨u, d⟩, b⟩, hb, rfl⟩ := List.mem_map.mp hitems
    obtain ⟨hsaved, -, -⟩ := h.named hb
    have hcode : i ∈ (FuncCode.ofUnit table u b).code := by
      rw [← FuncCode.instrs_wrap]
      exact mem_instrs.mpr hi
    have hframe : ¬ (i ∈ instrs (Function.frameWith table u b).prologue ∨
        i ∈ instrs ((Function.frameWith table u b).epilogue
          (.nth (Function.entryOf table u).name 0))) := by
      intro hi
      rcases Frame.plain_or_saved hi hregs with hp | hs
      · rw [hplain] at hp
        cases hp
      · exact hallocatable (hsaved r hs)
    rcases List.mem_append.mp hcode with hi | hi
    · rcases List.mem_append.mp hi with hi | hi
      · exact absurd (.inl hi) hframe
      · exact ⟨u, d, b, hb, hi⟩
    · exact absurd (.inr hi) hframe
  · exact absurd (Routine.modest_items _ _ i hi r hregs) hroutine

/-- The scratch registers occur in the allocating mode only. -/
theorem virtual_of_scratch {i : Instr}
    (hi : i ∈ instrs a.text) {r : PhysReg} (hr : r ∈ PhysReg.scratch)
    (hregs : .phys r ∈ i.op.regs) :
    settings.registers = .virtual := by
  obtain ⟨u, d, b, hb, hi⟩ := h.body_of_scratch hi hr hregs
  obtain ⟨hsaved, -, hnamed⟩ := h.named hb
  exact (hnamed i hi).virtual_of_scratch hsaved hr hregs

/-- The code of a unit is a part of the text, before the routines. -/
theorem text_routines
    {ud : Option Nat × Draft.Result Unit} {b : Body}
    (hb : (ud, b) ∈ (Function.programDrafts p settings.comments table).zip bodies) :
    ∃ pre post, a.text = pre ++ (Function.wrap table ud.1 b ++ (post ++
      Routine.items (Routine.messages (Function.constants p settings.comments table)).1
        payload)) := by
  obtain ⟨before, after, hsplit⟩ := List.append_of_mem hb
  have htext := h.text
  rw [← List.map_uncurry_zip_eq_zipWith, hsplit, List.map_append, List.map_cons,
    List.flatten_append, List.flatten_cons] at htext
  rw [List.append_assoc, List.append_assoc] at htext
  exact ⟨_, _, htext⟩

theorem text_split
    {ud : Option Nat × Draft.Result Unit} {b : Body}
    (hb : (ud, b) ∈ (Function.programDrafts p settings.comments table).zip bodies) :
    ∃ pre post, a.text = pre ++ (Function.wrap table ud.1 b ++ post) := by
  obtain ⟨pre, post, htext⟩ := h.text_routines hb
  exact ⟨pre, _, htext⟩

/-- **Where units stand.** In a loaded program whose addresses do not wrap around each unit stands
at some address, which its label names if the names of the program are all different. -/
theorem stands {f : FuncCode}
    (hf : Function.IsUnit p settings.comments table bodies f) {img : Image} {s : State}
    (hload : load a = .ok (img, s)) (himg : img.Unwrapped) :
    ∃ pc, img.Finds pc f.code ∧ (a.defs.Nodup → find img.labels f.entry.name = .ok pc) := by
  obtain ⟨u, d, b, hb, rfl⟩ := hf
  obtain ⟨pre, post, htext⟩ := h.text_split hb
  dsimp only at htext
  refine ⟨pcOf (instrs pre).length, ?_, fun hnames => ?_⟩
  · have hcode := codeAt_of_load hload
    rw [htext, instrs_append, instrs_append, codeAt_append, codeAt_append, Nat.zero_add,
      FuncCode.instrs_wrap] at hcode
    exact finds_of_codeAt himg hcode.2.1
  · rw [labels_of_load hload]
    exact find_text hnames htext

end CompiledAs

end ChocoRV
