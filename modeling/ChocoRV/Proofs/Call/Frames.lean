import Mathlib
import ChocoRV.Frame
import ChocoRV.Proofs.Machine.Straight

/-!
# Frames as code

The prologue of a function stores registers around the stack pointer of the caller, which becomes
the frame pointer; the epilogue loads them from there. `Frame.steps_prologue_iff` says when the
prologue runs to its end and in which state, `Frame.steps_epilogue` what the epilogue gives back.
-/

namespace ChocoRV

open Assembly Image

variable {s : State}

namespace RegSlots

@[simp] theorem write_nil (s : State) (base : Reg) (m : Memory) : write s base [] m = m := rfl

theorem write_cons (s : State) (base : Reg) (p : PhysReg × Int32) (ps : RegSlots) (m : Memory) :
    write s base (p :: ps) m =
      write s base ps (m.writeWord (s.addrOf base p.2) (s.reg (.phys p.1))) := rfl

/-- What is written depends on the base and on the registers only. -/
theorem write_congr {s' : State} {base base' : Reg} {ps : RegSlots} (m : Memory)
    (hbase : s'.reg base' = s.reg base) (hregs : ∀ p ∈ ps, s'.reg (.phys p.1) = s.reg (.phys p.1)) :
    write s' base' ps m = write s base ps m := by
  induction ps generalizing m with
  | nil => rw [write_nil, write_nil]
  | cons p ps ih =>
    rw [List.forall_mem_cons] at hregs
    have hp : s'.addrOf base' p.2 = s.addrOf base p.2 :=
      congrArg (fun w => Int32.toUInt32 (w + p.2)) hbase
    rw [write_cons, hp, hregs.1, ih _ hregs.2, write_cons]

theorem valid_congr {s' : State} {base base' : Reg} {ps : RegSlots}
    (hbase : s'.reg base' = s.reg base) : Valid s' base' ps ↔ Valid s base ps := by
  simp only [Valid, State.addrOf, hbase]

end RegSlots

namespace Frame

variable (f : Frame)

/-- The argument words that arrive in registers, and where they are stored. -/
def homed : RegSlots := (PhysReg.args.take f.args).zipIdx.map fun e => (e.1, paramOffset e.2)

/-- The saved registers, and where they are kept. -/
def kept : RegSlots := f.saved.zipIdx.map fun e => (e.1, f.saveSlot e.2)

/-- The registers that the prologue stores for the epilogue to load. -/
def returned : RegSlots := (.fp, savedFpOffset) :: (.ra, savedRaOffset) :: f.kept

/-- All that the prologue stores, as offsets from the stack pointer of the caller. -/
def stored : RegSlots := (.fp, savedFpOffset) :: (.ra, savedRaOffset) :: (f.homed ++ f.kept)

variable {f}

theorem map_fst_kept : f.kept.map (·.1) = f.saved := by
  rw [kept, List.map_map]
  exact List.zipIdx_map_fst 0 f.saved

theorem mem_kept_iff {r : PhysReg} {n : Int32} :
    (r, n) ∈ f.kept ↔ ∃ k, f.saved[k]? = some r ∧ n = f.saveSlot k := by
  simp only [kept, List.mem_map, Prod.mk.injEq, Prod.exists, List.mem_zipIdx_iff_getElem?]
  constructor
  · rintro ⟨_, k, hk, rfl, rfl⟩
    exact ⟨k, hk, rfl⟩
  · rintro ⟨k, hk, rfl⟩
    exact ⟨r, k, hk, rfl, rfl⟩

theorem mem_saved_of_mem_kept {p : PhysReg × Int32} (h : p ∈ f.kept) : p.1 ∈ f.saved := by
  rw [← map_fst_kept]
  exact List.mem_map_of_mem h

theorem mem_args_of_mem_homed {p : PhysReg × Int32} (h : p ∈ f.homed) : p.1 ∈ PhysReg.args := by
  obtain ⟨e, he, rfl⟩ := List.mem_map.mp h
  exact List.mem_of_mem_take (List.fst_mem_of_mem_zipIdx he)

theorem returned_subset_stored : f.returned ⊆ f.stored :=
  List.cons_subset_cons _ (List.cons_subset_cons _ (List.subset_append_right _ _))

/-! ## The prologue -/

theorem instrs_map_op {α : Type} (g : α → Op Label) (xs : List α) :
    instrs (xs.map fun x => .op (g x)) = xs.map fun x => ⟨g x, none⟩ := by
  rw [instrs, List.filterMap_map, ← List.filterMap_eq_map]
  rfl

theorem instrs_prologue (htop : f.isTopLevel = false) :
    instrs f.prologue = ⟨.addi .sp .sp (-f.size), some "reserve frame"⟩ ::
      ⟨.sw .fp .sp (f.size + savedFpOffset), some "save caller fp"⟩ ::
      ⟨.sw .ra .sp (f.size + savedRaOffset), some "save return address"⟩ ::
      ⟨.addi .fp .sp f.size, some "new fp"⟩ :: RegSlots.stores .fp (f.homed ++ f.kept) := by
  simp only [prologue, htop, Bool.false_eq_true, if_false, instrs_append, instrs_cons_instr,
    instrs_map_op, RegSlots.stores, homed, kept, List.map_append, List.map_map,
    Function.comp_def, List.cons_append, List.nil_append]

/-- The state once the frame is reserved: the frame pointer is the stack pointer of the caller, and
below it are the frame pointer of the caller and the return address. -/
def reserved (f : Frame) (s : State) : State :=
  { (s.setReg .sp (s.reg .sp - f.size)).setReg .fp (s.reg .sp) with
    memory := (s.memory.writeWord (s.addrOf .sp savedFpOffset) (s.reg .fp)).writeWord
      (s.addrOf .sp savedRaOffset) (s.reg .ra)
    pc := past s.pc 4 }

/-- The state once the prologue is done. -/
def entered (f : Frame) (s : State) : State :=
  { f.reserved s with
    memory := RegSlots.write s .sp f.stored s.memory
    pc := past s.pc (instrs f.prologue).length }

theorem memory_entered (f : Frame) (s : State) :
    (f.entered s).memory = RegSlots.write s .sp f.stored s.memory := by
  rw [entered]

theorem reg_reserved_fp (f : Frame) (s : State) : (f.reserved s).reg .fp = s.reg .sp := by
  show ((s.setReg .sp (s.reg .sp - f.size)).setReg .fp (s.reg .sp)).reg .fp = s.reg .sp
  exact State.reg_setReg_self _ _ (by decide)

theorem reg_reserved_of_ne (f : Frame) (s : State) {r : Reg} (hsp : r ≠ .sp) (hfp : r ≠ .fp) :
    (f.reserved s).reg r = s.reg r :=
  (State.reg_setReg_of_ne _ _ hfp).trans (State.reg_setReg_of_ne _ _ hsp)

variable {img : Image}

/-- The first four instructions reserve the frame. -/
theorem steps_reserve_iff {s' : State} {is : List Instr} {n : Nat}
    (h : img.Finds s.pc (⟨.addi .sp .sp (-f.size), some "reserve frame"⟩ ::
      ⟨.sw .fp .sp (f.size + savedFpOffset), some "save caller fp"⟩ ::
      ⟨.sw .ra .sp (f.size + savedRaOffset), some "save return address"⟩ ::
      ⟨.addi .fp .sp f.size, some "new fp"⟩ :: is)) : Steps img (n + 1 + 1 + 1 + 1) s s' ↔
      State.nullPage ≤ s.addrOf .sp savedFpOffset ∧ State.nullPage ≤ s.addrOf .sp savedRaOffset ∧
        Steps img n (f.reserved s) s' := by
  obtain ⟨⟨op₁, hf₁, hres₁⟩, ⟨op₂, hf₂, hres₂⟩, ⟨op₃, hf₃, hres₃⟩, ⟨op₄, hf₄, hres₄⟩, -⟩ := h
  cases hres₁
  cases hres₂
  cases hres₃
  cases hres₄
  -- One state for each instruction; the offsets are chosen to make up for the new stack pointer.
  obtain ⟨s₁, hs₁⟩ : ∃ t, t = s.put .sp (s.reg .sp + -f.size) := ⟨_, rfl⟩
  have he₁ : s.exec (.addi .sp .sp (-f.size)) = .running s₁ := by rw [hs₁]; rfl
  have hpc₁ : s₁.pc = s.pc + 4 := by rw [hs₁, State.pc_put]
  have hsp₁ : s₁.reg .sp = s.reg .sp + -f.size := by rw [hs₁, State.reg_put_self _ _ (by decide)]
  have hfp₁ : s₁.reg .fp = s.reg .fp := by rw [hs₁, State.reg_put_of_ne _ _ (by decide)]
  have hra₁ : s₁.reg .ra = s.reg .ra := by rw [hs₁, State.reg_put_of_ne _ _ (by decide)]
  have haddr₁ (n : Int32) : s₁.addrOf .sp (f.size + n) = s.addrOf .sp n := by
    have hsum : s.reg .sp + -f.size + (f.size + n) = s.reg .sp + n := by grind
    rw [State.addrOf, hsp₁, hsum, State.addrOf]
  obtain ⟨s₂, hs₂⟩ : ∃ t : State, t = { s₁ with
      memory := s₁.memory.writeWord (s₁.addrOf .sp (f.size + savedFpOffset)) (s₁.reg .fp)
      pc := s₁.pc + 4 } := ⟨_, rfl⟩
  have hpc₂ : s₂.pc = s₁.pc + 4 := by rw [hs₂]
  have hregs₂ : s₂.regs = s₁.regs := by rw [hs₂]
  have haddr₂ (n : Int32) : s₂.addrOf .sp n = s₁.addrOf .sp n := by
    rw [State.addrOf, State.reg, hregs₂]
    rfl
  obtain ⟨s₃, hs₃⟩ : ∃ t : State, t = { s₂ with
      memory := s₂.memory.writeWord (s₂.addrOf .sp (f.size + savedRaOffset)) (s₂.reg .ra)
      pc := s₂.pc + 4 } := ⟨_, rfl⟩
  have hpc₃ : s₃.pc = s₂.pc + 4 := by rw [hs₃]
  have hsp₃ : s₃.reg .sp + f.size = s.reg .sp := by
    have hsum : s.reg .sp + -f.size + f.size = s.reg .sp := by grind
    rw [State.reg, hs₃, hregs₂]
    exact (congrArg (· + f.size) hsp₁).trans hsum
  have he₄ : s₃.exec (.addi .fp .sp f.size) = .running (s₃.put .fp (s.reg .sp)) := by
    rw [← hsp₃]
    rfl
  have hreserved : s₃.put .fp (s.reg .sp) = f.reserved s := by
    have hra₂ : s₂.reg .ra = s.reg .ra := by
      rw [State.reg, hregs₂]
      exact hra₁
    have hmem₂ : s₂.memory = s.memory.writeWord (s.addrOf .sp savedFpOffset) (s.reg .fp) := by
      rw [hs₂, haddr₁, hfp₁, hs₁, State.memory_put]
    have hregs₁ : s₁.regs = s.regs.set .sp (s.reg .sp - f.size) := by
      rw [hs₁, Int32.sub_eq_add_neg]
      rfl
    have hpc : s.pc + 4 + 4 + 4 + 4 = past s.pc 4 := by
      simp only [← past_one, past_past]
    rw [hs₃, haddr₂, haddr₁, hra₂, hmem₂, State.put, hregs₂, hregs₁, hpc₂, hpc₁, hpc, hs₂, hs₁]
    rfl
  rw [← hpc₁] at hf₂ hf₃ hf₄
  rw [← hpc₂] at hf₃ hf₄
  rw [← hpc₃] at hf₄
  rw [steps_running_iff hf₁ he₁, steps_sw_iff hf₂, ← hs₂, steps_sw_iff hf₃, ← hs₃,
    steps_running_iff hf₄ he₄, hreserved, haddr₂, haddr₁, haddr₁]

/-- **The prologue** runs to its end exactly if the words it stores to are at valid addresses. -/
theorem steps_prologue_iff {s' : State} (htop : f.isTopLevel = false)
    (hsaved : ∀ r ∈ f.saved, r ∈ PhysReg.allocatable) (h : img.Finds s.pc (instrs f.prologue)) :
    Steps img (instrs f.prologue).length s s' ↔
      RegSlots.Valid s .sp f.stored ∧ s' = f.entered s := by
  have hlen : (instrs f.prologue).length = (f.homed ++ f.kept).length + 1 + 1 + 1 + 1 := by
    simp only [instrs_prologue htop, List.length_cons, RegSlots.length_stores]
  have hother : ∀ r ∈ PhysReg.args ++ PhysReg.allocatable, r ≠ .sp ∧ r ≠ .fp := by decide
  have hregs : ∀ p ∈ f.homed ++ f.kept, (f.reserved s).reg (.phys p.1) = s.reg (.phys p.1) := by
    intro p hp
    have hp : p.1 ∈ PhysReg.args ++ PhysReg.allocatable := by
      rcases List.mem_append.mp hp with hp | hp
      · exact List.mem_append_left _ (mem_args_of_mem_homed hp)
      · exact List.mem_append_right _ (hsaved _ (mem_saved_of_mem_kept hp))
    obtain ⟨hsp, hfp⟩ := hother _ hp
    exact reg_reserved_of_ne f s (fun e => hsp (Reg.phys.inj e)) fun e => hfp (Reg.phys.inj e)
  have hfp := reg_reserved_fp f s
  have hpc : past (f.reserved s).pc (f.homed ++ f.kept).length =
      past s.pc ((f.homed ++ f.kept).length + 1 + 1 + 1 + 1) := by
    rw [reserved, past_past]
    congr 1
    omega
  rw [instrs_prologue htop] at h
  have hstores : img.Finds (f.reserved s).pc (RegSlots.stores .fp (f.homed ++ f.kept)) := by
    have hrest := h.2.2.2.2
    simp only [← past_one, past_past] at hrest
    exact hrest
  rw [hlen, steps_reserve_iff h, steps_stores_iff hstores, RegSlots.valid_congr hfp,
    RegSlots.write_congr _ hfp hregs, hpc, entered, hlen, RegSlots.Valid, RegSlots.Valid, stored,
    List.forall_mem_cons, List.forall_mem_cons, RegSlots.write_cons, RegSlots.write_cons, and_assoc,
    and_assoc]
  exact Iff.rfl

/-! ## The epilogue -/

theorem instrs_epilogue (htop : f.isTopLevel = false) (exit : Label) :
    instrs (f.epilogue exit) = RegSlots.loads .fp (f.kept ++ [(.ra, savedRaOffset)]) ++
      [⟨.mv .sp .fp, none⟩, ⟨.lw .fp .sp savedFpOffset, none⟩, ⟨.jumpReg .ra, none⟩] := by
  simp only [epilogue, htop, Bool.false_eq_true, if_false, instrs_append, instrs_cons_label,
    instrs_cons_instr, instrs_nil, instrs_map_op, RegSlots.loads, kept, List.map_append,
      List.map_map,
    List.map_cons, List.map_nil, Function.comp_def, List.cons_append, List.nil_append,
    List.append_assoc]

/-- What the epilogue gives back: it goes to the return address, the stack pointer becomes the frame
pointer, and saved registers come from their words. -/
structure GivesBack (f : Frame) (s s' : State) : Prop where
  pc : s'.pc = (s.memory.readWord (s.addrOf .fp savedRaOffset)).toUInt32
  sp : s'.reg .sp = s.reg .fp
  fp : s'.reg .fp = s.memory.readWord (s.addrOf .fp savedFpOffset)
  saved {r : PhysReg} {n : Int32} (h : (r, n) ∈ f.kept) :
    s'.reg (.phys r) = s.memory.readWord (s.addrOf .fp n)
  other {r : PhysReg} (h : r ∉ [.sp, .fp, .ra]) (hs : r ∉ f.saved) :
    s'.reg (.phys r) = s.reg (.phys r)

/-- The last three instructions leave the frame. -/
theorem steps_leave {is : List Instr}
    (h : img.Finds s.pc (⟨.mv .sp .fp, none⟩ :: ⟨.lw .fp .sp savedFpOffset, none⟩ ::
      ⟨.jumpReg .ra, none⟩ :: is)) (hvalid : State.nullPage ≤ s.addrOf .fp savedFpOffset) :
    ∃ s', Steps img 3 s s' ∧ s'.pc = (s.reg .ra).toUInt32 ∧ s'.reg .sp = s.reg .fp ∧
      s'.reg .fp = s.memory.readWord (s.addrOf .fp savedFpOffset) ∧
      ∀ r : PhysReg, r ≠ .sp → r ≠ .fp → s'.reg (.phys r) = s.reg (.phys r) := by
  obtain ⟨⟨op₁, hf₁, hres₁⟩, ⟨op₂, hf₂, hres₂⟩, ⟨op₃, hf₃, hres₃⟩, -⟩ := h
  cases hres₁
  cases hres₂
  cases hres₃
  let s₁ := s.put .sp (s.reg .fp)
  let s₂ := s₁.put .fp (s₁.memory.readWord (s₁.addrOf .sp savedFpOffset))
  have hsp : s₁.reg .sp = s.reg .fp := State.reg_put_self _ _ (by decide)
  have haddr : s₁.addrOf .sp savedFpOffset = s.addrOf .fp savedFpOffset := by
    rw [State.addrOf, hsp, State.addrOf]
  have hkeep (r : PhysReg) (hsp : r ≠ .sp) (hfp : r ≠ .fp) : s₂.reg (.phys r) = s.reg (.phys r) :=
    (State.reg_put_of_ne s₁ _ fun e => hfp (Reg.phys.inj e)).trans
      (State.reg_put_of_ne s _ fun e => hsp (Reg.phys.inj e))
  have hfp : s₂.reg .fp = s₁.memory.readWord (s₁.addrOf .sp savedFpOffset) :=
    State.reg_put_self _ _ (by decide)
  rw [← haddr] at hvalid ⊢
  refine ⟨s₂.goto (s₂.reg .ra).toUInt32, .step hf₁ rfl (.step hf₂ (State.exec_lw hvalid)
    (.step hf₃ rfl (.refl _))), ?_, ?_, hfp, hkeep⟩
  · exact congrArg Int32.toUInt32 (hkeep .ra (by decide) (by decide))
  · exact (State.reg_put_of_ne s₁ _ (by decide)).trans hsp

/-- **The epilogue** runs to its end if the words it loads are at valid addresses. -/
theorem steps_epilogue {exit : Label} (htop : f.isTopLevel = false)
    (hsaved : ∀ r ∈ f.saved, r ∈ PhysReg.allocatable) (hnodup : f.saved.Nodup)
    (h : img.Finds s.pc (instrs (f.epilogue exit))) (hvalid : RegSlots.Valid s .fp f.returned) :
    ∃ s', Steps img (instrs (f.epilogue exit)).length s s' ∧ f.GivesBack s s' := by
  -- The loads leave the frame pointer alone, and each goes to a register of its own.
  let ps : RegSlots := f.kept ++ [(.ra, savedRaOffset)]
  have hfst : ps.map (·.1) = f.saved ++ [.ra] := by
    rw [List.map_append, map_fst_kept]
    rfl
  have hspecial : ∀ r ∈ PhysReg.allocatable ++ [PhysReg.ra], r ≠ .sp ∧ r ≠ .fp ∧ r ≠ .zero := by
    decide
  have hloads : ∀ p ∈ ps, p.1 ≠ .sp ∧ p.1 ≠ .fp ∧ p.1 ≠ .zero := by
    intro p hp
    have hmem : p.1 ∈ f.saved ++ [PhysReg.ra] := hfst ▸ List.mem_map_of_mem hp
    refine hspecial _ ?_
    rcases List.mem_append.mp hmem with hp | hp
    · exact List.mem_append_left _ (hsaved _ hp)
    · exact List.mem_append_right _ hp
  have hregs : (ps.map (·.1)).Nodup := by
    rw [hfst]
    refine hnodup.append (List.nodup_singleton _) ?_
    intro r hr hra
    rw [List.mem_singleton.mp hra] at hr
    exact absurd (hsaved _ hr) (by decide)
  have hbase : ∀ p ∈ ps, Reg.phys p.1 ≠ .fp := fun p hp e => (hloads p hp).2.1 (Reg.phys.inj e)
  have hvalids : RegSlots.Valid s .fp ps := by
    intro p hp
    refine hvalid p ?_
    rcases List.mem_append.mp hp with hp | hp
    · exact List.mem_cons_of_mem _ (List.mem_cons_of_mem _ hp)
    · rw [List.mem_singleton.mp hp]
      exact List.mem_cons_of_mem _ List.mem_cons_self
  rw [instrs_epilogue htop] at h ⊢
  obtain ⟨hcode, hleave⟩ := finds_append.mp h
  obtain ⟨hmemory, hpc⟩ := State.loaded_frame s .fp ps
  rw [RegSlots.length_loads, ← hpc] at hleave
  have hfp : (s.loaded .fp ps).reg .fp = s.reg .fp :=
    State.reg_loaded_of_not_mem fun p hp => (hbase p hp).symm
  have hword {r : PhysReg} {n : Int32} (hr : (r, n) ∈ ps) :
      (s.loaded .fp ps).reg (.phys r) = s.memory.readWord (s.addrOf .fp n) :=
    State.reg_loaded_of_mem hbase (fun p hp => (hloads p hp).2.2) hregs hr
  have haddr : (s.loaded .fp ps).addrOf .fp savedFpOffset = s.addrOf .fp savedFpOffset := by
    rw [State.addrOf, hfp, State.addrOf]
  have hvalid' : State.nullPage ≤ (s.loaded .fp ps).addrOf .fp savedFpOffset := by
    rw [haddr]
    exact hvalid (.fp, savedFpOffset) List.mem_cons_self
  obtain ⟨s', hs', hpc', hsp', hfp', hkeep⟩ := steps_leave hleave hvalid'
  refine ⟨s', ?_, ?_, hsp'.trans hfp, ?_, fun {r n} hr => ?_, fun {r} hr hs => ?_⟩
  · rw [List.length_append, RegSlots.length_loads]
    exact (steps_loads hcode hbase hvalids).trans hs'
  · rw [hpc', hword (List.mem_append_right _ (List.mem_singleton_self _))]
  · rw [hfp', haddr, hmemory]
  · have hmem : (r, n) ∈ ps := List.mem_append_left _ hr
    rw [hkeep r (hloads _ hmem).1 (hloads _ hmem).2.1, hword hmem]
  · simp only [List.mem_cons, List.not_mem_nil, or_false, not_or] at hr
    rw [hkeep r hr.1 hr.2.1]
    refine State.reg_loaded_of_not_mem fun p hp e => ?_
    have hmem : p.1 ∈ f.saved ++ [PhysReg.ra] := hfst ▸ List.mem_map_of_mem hp
    rw [← Reg.phys.inj e, List.mem_append, List.mem_singleton] at hmem
    exact hmem.elim hs hr.2.2

end Frame

end ChocoRV
