import Mathlib
import ChocoRV.Proofs.Link
import ChocoRV.Proofs.Stack.Balance

/-!
# Which registers code names

A draft names registers that no temporary is ever given, and does not write the frame pointer
(`Traced.plain`). A body also names the registers that its frame saves and, in the allocating mode,
the scratch registers (`Function.named_of_bodyOf`). The support routines name caller-saved registers
only (`Routine.modest_items`). An operation changes the register it is said to write and, as a
system call, `a0` (`State.reg_of_exec`).
-/

namespace ChocoRV

open Assembly

/-! ## What an operation changes -/

theorem Op.def?_resolve {σ τ ε : Type} {g : τ → Except ε σ} {o : Op τ} {op : Op σ}
    (h : o.resolve g = .ok op) : op.def? = o.def? := by
  cases o with
  | la rd t | jump t | call t | branch c a b t | branchZero c a t =>
    simp only [resolve] at h
    cases hg : g t with
    | error e =>
      rw [hg] at h
      cases h
    | ok a =>
      rw [hg] at h
      cases h
      rfl
  | alu | aluImm | shift | li | unary | load | store | callReg | jumpReg | ecall =>
    cases h
    rfl

theorem State.reg_of_exec {s s' : State} {op : Op Addr} {r : Reg} (h : s.exec op = .running s')
    (hdef : op.def? ≠ some r) (ha0 : r ≠ .a0) : s'.reg r = s.reg r := by
  have hne {rd : Reg} (hrd : op.def? = some rd) : r ≠ rd := fun e => hdef (e ▸ hrd)
  cases op with
  | alu op rd a b | aluImm op rd a n | shift op rd a k | li rd n | la rd t | unary op rd a =>
    cases h
    exact reg_put_of_ne s _ (hne rfl)
  | load w rd base n =>
    simp only [exec, access] at h
    split at h
    · cases h
    · cases w <;> cases h <;> exact reg_put_of_ne s _ (hne rfl)
  | store w src base n =>
    simp only [exec, access] at h
    split at h
    · cases h
    · cases w <;> cases h <;> rfl
  | call t | callReg a =>
    cases h
    exact reg_setReg_of_ne s _ (hne rfl)
  | jump t | jumpReg a =>
    cases h
    rfl
  | branch c a b t | branchZero c a t =>
    simp only [exec] at h
    split at h <;> cases h <;> rfl
  | ecall =>
    simp only [exec, syscall, access] at h
    split at h
    case h_2 => split at h <;> cases h; rfl
    case h_4 =>
      cases h
      exact reg_put_of_ne s _ ha0
    all_goals cases h
    all_goals rfl

/-! ## Drafts -/

theorem WordValue.regs_load (v : WordValue) (r : Reg) : (v.load r).regs = [r] := by
  cases v <;> rfl

/-- Operations that name no register for temporaries and do not write the frame pointer. -/
def Op.Plain (o : Op Label) : Prop :=
  (∀ p : PhysReg, .phys p ∈ o.regs → p.plain = true) ∧ o.def? ≠ some .fp

theorem Op.Allowed.plain {env : Env} {σ : Draft.Scene} {o : Op Label} (h : o.Allowed env σ) :
    o.Plain := by
  constructor
  · intro p hp
    rcases List.mem_append.mp hp with hp | hp
    · exact (h.writes _ (Option.mem_toList.mp hp)).1
    · exact h.reads _ hp
  · intro hfp
    exact (h.writes _ hfp).2 rfl

/-- What drafts name. -/
theorem Traced.plain {env : Env} {E : Prop} {σ σ' : Draft.Scene} {s s' : Draft.State}
    {evs : List Event} (h : Traced env E σ s evs s' σ') :
    ∀ i, .item (.instr i) ∈ evs → i.op.Plain := by
  induction h with
  | nil | fresh | intern => exact fun i hi => absurd hi List.not_mem_nil
  | append _ _ ih₁ ih₂ => exact fun i hi => (List.mem_append.mp hi).elim (ih₁ i) (ih₂ i)
  | instr h =>
    intro i hi
    cases List.mem_singleton.mp hi
    exact h.allowed.plain
  | take | release | label =>
    intro i hi
    cases List.mem_singleton.mp hi
  | drop _ _ ih => exact ih
  | @literal _ s lit type =>
    intro i hi
    cases List.mem_singleton.mp hi
    refine ⟨fun p hp => ?_, ?_⟩
    · rw [WordValue.regs_load] at hp
      cases List.mem_singleton.mp hp
      rfl
    · intro hfp
      cases hv : (s.pool.literal lit type).1 <;> rw [hv] at hfp <;> cases hfp

/-! ## Bodies -/

/-- Operations that name, beside registers that no temporary is given, only those in `saved` and in
the allocating mode the scratch registers, and do not write the frame pointer. -/
def Op.Named (mode : RegisterMode) (saved : List PhysReg) (o : Op Label) : Prop :=
  (∀ p : PhysReg, .phys p ∈ o.regs →
    p.plain = true ∨ p ∈ saved ∨ mode = .virtual ∧ p ∈ PhysReg.scratch) ∧ o.def? ≠ some .fp

namespace Op

variable {mode : RegisterMode} {saved : List PhysReg} {src dst : Reg → Reg} {o : Op Label}

theorem uses_mapRegs (src dst : Reg → Reg) (o : Op Label) :
    (o.mapRegs src dst).uses = o.uses.map src := by
  cases o <;> rfl

theorem Plain.mapRegs (h : o.Plain) (hsrc : Reg.Renaming mode saved src)
    (hdst : Reg.Renaming mode saved dst) (hsaved : ∀ p ∈ saved, p ∈ PhysReg.allocatable) :
    (o.mapRegs src dst).Named mode saved := by
  constructor
  · intro p hp
    rcases List.mem_append.mp hp with hp | hp
    · obtain ⟨r, hr, heq⟩ := def?_mapRegs (Option.mem_toList.mp hp) (hdst.phys _)
      rcases hdst.phys_cases heq with rfl | hp
      · exact .inl (h.1 p (List.mem_append_left _ (Option.mem_toList.mpr hr)))
      · exact .inr hp
    · rw [uses_mapRegs] at hp
      obtain ⟨r, hr, heq⟩ := List.mem_map.mp hp
      rcases hsrc.phys_cases heq with rfl | hp
      · exact .inl (h.1 p (List.mem_append_right _ hr))
      · exact .inr hp
  · intro hfp
    obtain ⟨r, hr, heq⟩ := def?_mapRegs hfp (hdst.phys _)
    rcases hdst.phys_cases heq with rfl | hp | ⟨-, hp⟩
    · exact h.2 hr
    · exact absurd (hsaved _ hp) (by decide)
    · exact absurd hp (by decide)

theorem SpillMove.named (h : o.SpillMove) (hmode : mode = .virtual) : o.Named mode saved := by
  cases h with
  | @reload q hq offset =>
    have hscratch : ∀ q ∈ PhysReg.scratch, q ≠ .fp := by decide
    refine ⟨fun p hp => ?_, fun hfp => ?_⟩
    · rcases List.mem_pair.mp hp with hp | hp
      · cases hp
        exact .inr (.inr ⟨hmode, hq⟩)
      · cases hp
        exact .inl rfl
    · cases hfp
      exact hscratch _ hq rfl
  | spill offset =>
    refine ⟨fun p hp => ?_, fun hfp => nomatch hfp⟩
    rcases List.mem_pair.mp hp with hp | hp
    · cases hp
      exact .inl rfl
    · cases hp
      exact .inr (.inr ⟨hmode, by decide⟩)

/-- A register that calls keep is written only if it is saved. -/
theorem Named.saved_of_def (h : o.Named mode saved) {p : PhysReg} (hp : p ∈ PhysReg.allocatable)
    (hdef : o.def? = some (.phys p)) : p ∈ saved := by
  have hother : ∀ q ∈ PhysReg.allocatable, q.plain = false ∧ q ∉ PhysReg.scratch := by decide
  rcases h.1 p (List.mem_append_left _ (Option.mem_toList.mpr hdef)) with hplain | hsaved | ⟨-, hs⟩
  · rw [(hother p hp).1] at hplain
    cases hplain
  · exact hsaved
  · exact absurd hs (hother p hp).2

/-- The scratch registers are named in the allocating mode only. -/
theorem Named.virtual_of_scratch (h : o.Named mode saved)
    (hsaved : ∀ p ∈ saved, p ∈ PhysReg.allocatable) {p : PhysReg} (hp : p ∈ PhysReg.scratch)
    (hregs : .phys p ∈ o.regs) : mode = .virtual := by
  have hother : ∀ q ∈ PhysReg.scratch, q.plain = false ∧ q ∉ PhysReg.allocatable := by decide
  rcases h.1 p hregs with hplain | hmem | ⟨hmode, -⟩
  · rw [(hother p hp).1] at hplain
    cases hplain
  · exact absurd (hsaved p hmem) (hother p hp).2
  · exact hmode

end Op

/-- What a body names. -/
theorem Body.Placing.named {mode : RegisterMode} {saved : List PhysReg} {place : Item → List Item}
    {items : List Item} (h : Placing mode saved place)
    (hsaved : ∀ p ∈ saved, p ∈ PhysReg.allocatable) (hplain : ∀ i ∈ instrs items, i.op.Plain) :
    ∀ i ∈ instrs (items.flatMap place), i.op.Named mode saved := by
  intro i hi
  obtain ⟨x, hx, hi⟩ := List.mem_flatMap.mp (mem_instrs.mp hi)
  cases x with
  | label l =>
    rw [h.label] at hi
    cases List.mem_singleton.mp hi
  | instr j =>
    obtain ⟨src, dst, before, after, hsrc, hdst, hplace, hmoves⟩ := h.instr j
    have hmove {k : Instr} (hk : k ∈ before ++ after) : k.op.Named mode saved :=
      (hmoves k hk).2.named (hmoves k hk).1
    rw [hplace, List.mem_append, List.mem_cons] at hi
    rcases hi with hi | hi | hi
    · obtain ⟨k, hk, heq⟩ := List.mem_map.mp hi
      cases heq
      exact hmove (List.mem_append_left _ hk)
    · cases hi
      exact (hplain j (mem_instrs.mpr hx)).mapRegs hsrc hdst hsaved
    · obtain ⟨k, hk, heq⟩ := List.mem_map.mp hi
      cases heq
      exact hmove (List.mem_append_right _ hk)

/-- **What the body of a unit names**, and that the registers its frame saves are different ones of
the pool. -/
theorem Function.named_of_bodyOf {settings : CodegenSettings} {table : SymbolTable}
    {body : List Stmt} {pool : ConstantPool} {u : Option Nat} {b : Body}
    (h : bodyOf settings table u (draftOf table settings.comments body pool u) = .ok b) :
    (∀ p ∈ b.saved, p ∈ PhysReg.allocatable) ∧ b.saved.Nodup ∧
      ∀ i ∈ instrs b.items, i.op.Named settings.registers b.saved := by
  have htraced := draftOf_traced (Body.ofDraft_labels h).1
  obtain ⟨place, hplacing, hitems, hpool, hnodup⟩ := Body.placing_of_ofDraft htraced.nested h
  have hsaved : ∀ p ∈ b.saved, p ∈ PhysReg.allocatable := fun p hp =>
    settings.pool_subset p (hpool p hp)
  refine ⟨hsaved, hnodup, ?_⟩
  rw [hitems]
  exact hplacing.named hsaved fun i hi =>
    htraced.plain i (Body.mem_draftItems.mp (mem_instrs.mp hi))

/-! ## Routines -/

namespace Routine

/-- The registers that routines are made with. -/
def registers : List PhysReg := [.zero, .ra, .sp, .t0, .t1, .t2, .t3, .t4, .a0, .a1, .a2, .a7]

/-- Code that names these and nothing else. -/
def Modest (items : List Item) : Prop :=
  ∀ i ∈ instrs items, ∀ r ∈ i.op.regs, ∃ p ∈ registers, r = .phys p

theorem modest_of_all {items : List Item}
    (h : (instrs items).all (·.op.regs.all (registers.map Reg.phys).contains) = true) :
    Modest items := by
  intro i hi r hr
  have hmem := List.all_eq_true.mp (List.all_eq_true.mp h i hi) _ hr
  obtain ⟨p, hp, heq⟩ := List.mem_map.mp (List.contains_iff_mem.mp hmem)
  exact ⟨p, hp, heq.symm⟩

/-- **The support routines** name caller-saved registers, the stack pointer and `zero` only. -/
theorem named_items (m : Messages) (payload : Int32) : Modest (items m payload) :=
  forall_items (fun _ _ _ _ => modest_of_all rfl) (modest_of_all rfl)
    (modest_of_all (by decide +kernel))

theorem modest_items (m : Messages) (payload : Int32) : ∀ i ∈ instrs (items m payload),
    ∀ p, .phys p ∈ i.op.regs → p ∈ registers := by
  intro i hi p hp
  obtain ⟨q, hq, heq⟩ := named_items m payload i hi _ hp
  cases heq
  exact hq

end Routine

end ChocoRV
