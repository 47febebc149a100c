import Mathlib
import ChocoRV.Proofs.Alloc.Reload
import ChocoRV.Proofs.Machine.Simulation

/-!
# One instruction over locations

What an instruction does to the temporaries, the instructions that come of it do to their locations:
loads bring spilled operands into scratch registers, the operation itself reads and writes registers
that hold the same values, and a store takes a spilled result to the frame.
-/

namespace ChocoRV

open Assembly Image

/-- Neither a call nor a jump to an address in a register. -/
def Op.Direct {τ : Type} : Op τ → Prop
  | .call _ | .callReg _ | .jumpReg _ => False
  | _ => True

namespace Assignment

variable {asg : Assignment} {pool : List PhysReg} {frame : Int32} {live after : Nat → Prop}
variable {s₁ s₂ : State} {img : Image} {j : Nat}

/-- An operation may be carried out over locations, between instructions before which the
temporaries `live` and `after` are live: what it reads is live, what is live after it was so before
or is written by it, and a result shares its location with nothing that stays live. -/
structure Covers (asg : Assignment) (pool : List PhysReg) (o : Op Label)
    (live after : Nat → Prop) : Prop where
  uses : ∀ v ∈ o.virtUses, live v
  placed {v : Nat} (h : o.virtDef? = some v) : ∃ loc, asg[v]? = some loc
  kept (v : Nat) (h : after v) : live v ∨ o.virtDef? = some v
  apart {v t : Nat} (h : after v) (ht : o.virtDef? = some t) (hne : v ≠ t) : asg[v]? ≠ asg[t]?
  phys {p : PhysReg} (h : .phys p ∈ o.regs) : ¬ Reserved pool p
  frame : o.def? ≠ some .fp
  direct : o.Direct

/-! ## Loading operands -/

variable {s : State}

/-- The second program writes to scratch registers. -/
theorem Agree.of_differs (h : asg.Agree pool frame live s₁ s₂) (w : asg.WellPlaced pool)
    {rs : List Reg} (hrs : ∀ r ∈ rs, ∃ p ∈ PhysReg.scratch, r = .phys p)
    (hdiffers : s₂.Differs rs s) : asg.Agree pool frame live s₁ s where
  regs q hq := by
    rw [hdiffers.regs, h.regs q hq]
    intro hmem
    obtain ⟨p, hp, heq⟩ := hrs _ hmem
    exact ne_of_reserved (.inr hp) hq heq
  memory a ha := by rw [hdiffers.memory, h.memory a ha]
  brk := hdiffers.brk.trans h.brk
  stdout := hdiffers.stdout.trans h.stdout
  frame := h.frame
  temps v hv := by
    obtain ⟨loc, hloc, hval⟩ := h.temps v hv
    refine ⟨loc, hloc, ?_⟩
    have hpassing : rs.all Reg.isPassing = true := by
      rw [List.all_eq_true]
      intro r hr
      obtain ⟨p, hp, rfl⟩ := hrs r hr
      have hall : ∀ p ∈ PhysReg.scratch, (Reg.phys p).isPassing = true := by decide
      exact hall p hp
    rw [← hval, ← read_of_some hloc, ← read_of_some hloc, read_of_differs w hpassing hdiffers]

theorem Agree.read_eq_reg (h : asg.Agree pool frame live s₁ s₂) {v : Nat} (hv : live v) :
    asg.read s₂ (.virt v) = s₁.reg (.virt v) := by
  obtain ⟨loc, hloc, hval⟩ := h.temps v hv
  rw [read_of_some hloc, hval]

/-- Several spilled temporaries are loaded, each into a scratch register of its own. -/
theorem reload_steps (w : asg.WellPlaced pool) (hvalid : asg.ValidSlots frame)
    (hfit : img.Unwrapped) {entries : List (Nat × PhysReg)} (h : asg.Agree pool frame live s₁ s₂)
    (hcode : img.CodeAt j (instrs (entries.map asg.reloadItem))) (hpc : s₂.pc = pcOf j)
    (hentries : ∀ e ∈ entries, live e.1 ∧ (asg.spillOf? e.1).isSome ∧ e.2 ∈ PhysReg.scratch)
    (hnodup : (entries.map (·.2)).Nodup) :
    ∃ s, Steps img entries.length s₂ s ∧ asg.Agree pool frame live s₁ s ∧
      s.pc = pcOf (j + entries.length) ∧
      ∀ e ∈ entries, s.reg (.phys e.2) = s₁.reg (.virt e.1) := by
  have hholds : img.Holds (fun _ => True) j (entries.map asg.reloadItem ++ []) := by
    rw [List.append_nil]
    refine holds_of_codeAt hcode fun l hl => ?_
    obtain ⟨e, -, he⟩ := List.mem_map.mp hl
    cases he
  obtain ⟨s, hw, hpc', hdiffers, hloaded, -⟩ :=
    walk_reloads w hfit hvalid (fun _ _ => trivial) hholds hpc
    (h.fp_eq w) (fun e he => (hentries e he).2) hnodup
  refine ⟨s, hw.steps, h.of_differs w (fun r hr => ?_) hdiffers, hpc', fun e he => ?_⟩
  · obtain ⟨e, he, rfl⟩ := List.mem_map.mp hr
    exact ⟨e.2, (hentries e he).2.2, rfl⟩
  · rw [hloaded e he, h.read_eq_reg (hentries e he).1]

/-- After the loads, every operand of the operation has its value. -/
theorem reg_source {o : Op Label} (c : asg.Covers pool o live after)
    (h : asg.Agree pool frame live s₁ s)
    (hloaded : ∀ e ∈ asg.reloads o, s.reg (.phys e.2) = s₁.reg (.virt e.1)) {r : Reg}
    (hr : r ∈ o.uses) : s.reg (asg.source (asg.reloads o) r) = s₁.reg r := by
  cases r with
  | phys p => exact h.regs p (c.phys (List.mem_append_right _ hr))
  | virt v =>
    have hv : v ∈ o.virtUses := Op.mem_virtUses_iff.mpr hr
    obtain ⟨loc, hloc, hval⟩ := h.temps v (c.uses v hv)
    cases loc with
    | reg p =>
      simp only [source, hloc]
      exact hval
    | spill off =>
      obtain ⟨p, hp, hsource⟩ := source_of_spill hv hloc
      rw [hsource, hloaded (v, p) hp]

/-! ## Storing results -/

/-- After an operation that writes a register, the store that may follow it takes the result to its
location. -/
theorem write_back (w : asg.WellPlaced pool) (hvalid : asg.ValidSlots frame) (hfit : img.Unwrapped)
    {o : Op Label} {rd : Reg} (c : asg.Covers pool o live after)
    (h : asg.Agree pool frame live s₁ s) (hdef : o.def? = some rd) (hpc : s.pc = pcOf j)
    (hcode : img.CodeAt (j + 1) (instrs (asg.spillItems o))) (x : Int32) :
    ∃ n s', Steps img n (s.put (asg.target rd) x) s' ∧
      asg.Agree pool frame after (s₁.put rd x) s' ∧
      s'.pc = pcOf (j + 1 + (instrs (asg.spillItems o)).length) := by
  have hnext : (s.put (asg.target rd) x).pc = pcOf (j + 1) := by
    rw [State.pc_put, hpc, pcOf_add_four]
  cases rd with
  | phys p =>
    have hnone : o.virtDef? = none := by rw [Op.virtDef?, hdef]; rfl
    have hp : ¬ Reserved pool p := c.phys (List.mem_append_left _ (Option.mem_toList.mpr hdef))
    have hfp : p ≠ .fp := by
      rintro rfl
      exact c.frame hdef
    have hafter (v : Nat) (hv : after v) : live v := by
      rcases c.kept v hv with hl | hd
      · exact hl
      · rw [hnone] at hd
        cases hd
    rw [spillItems, hnone]
    exact ⟨0, _, .refl _, (h.put_phys w hp hfp x).mono hafter, hnext⟩
  | virt t =>
    have ht : o.virtDef? = some t := Op.virtDef?_eq_some_iff.mpr hdef
    have hkept (v : Nat) (hv : after v) : live v ∨ v = t := by
      refine (c.kept v hv).imp_right fun hd => ?_
      exact (Option.some.inj (ht.symm.trans hd)).symm
    have hapart (v : Nat) (hv : after v) (hne : v ≠ t) : asg[v]? ≠ asg[t]? := c.apart hv ht hne
    obtain ⟨loc, hloc⟩ := c.placed ht
    cases loc with
    | reg p =>
      have hspill : asg.spillOf? t = none := by rw [spillOf?, hloc]
      have htarget : asg.target (.virt t) = .phys p := by rw [target, hloc]
      rw [spillItems, ht]
      simp only [hspill]
      rw [htarget] at hnext ⊢
      exact ⟨0, _, .refl _, h.put_reg w hloc hkept hapart x, hnext⟩
    | spill off =>
      have hspill : asg.spillOf? t = some off := spillOf?_eq_some_iff.mpr hloc
      have htarget : asg.target (.virt t) = .t5 := by rw [target, hloc]
      rw [spillItems, ht] at hcode ⊢
      simp only [hspill] at hcode ⊢
      rw [htarget] at hnext ⊢
      obtain ⟨⟨op, hop, hres⟩, -⟩ := codeAt_cons.mp hcode
      cases hres
      have hf := hfit.fetch_of_getElem? hop
      rw [← hnext] at hf
      have h' : asg.Agree pool frame live s₁ (s.put .t5 x) := h.of_differs w
        (fun r hr => ⟨.t5, by decide, List.mem_singleton.mp hr⟩) (.put List.mem_cons_self s x)
      have haddr : State.nullPage ≤ (s.put .t5 x).addrOf .fp off := by
        rw [h'.addrOf_fp w]
        exact hvalid t off hloc
      refine ⟨1, _, .one hf ?_, h'.put_spill w hloc hkept hapart x (pcOf (j + 1 + 1)), rfl⟩
      rw [State.exec]
      simp only [State.access_of_le haddr]
      rw [h'.addrOf_fp w, State.reg_put_self _ _ (by decide), hnext, pcOf_add_four]

/-! ## The operation itself -/

section Exec

variable {img₁ img₂ : Image}

/-- Where the two programs go on after an operation: both with what comes next, or both at a label
that the operation names. -/
def Moves (img₁ img₂ : Image) (o : Op Label) (next₁ next₂ a₁ a₂ : Addr) : Prop :=
  (o.flow.falls = true ∧ a₁ = next₁ ∧ a₂ = next₂) ∨
    ∃ l, o.flow.target? = some l ∧ find img₁.labels l.name = .ok a₁ ∧
      find img₂.labels l.name = .ok a₂

/-- From `s` the second program does what came of a step of the first one. -/
def Answers (asg : Assignment) (pool : List PhysReg) (frame : Int32) (after : Nat → Prop)
    (img₂ : Image) (moves : Addr → Addr → Prop) (s : State) : StepResult → Prop
  | .running s₁ => ∃ n s₂, Steps img₂ (n + 1) s s₂ ∧ asg.Agree pool frame after s₁ s₂ ∧
      moves s₁.pc s₂.pc
  | .exited code s₁ => ∃ s₂, Ends img₂ s code s₂ ∧ asg.Agree pool frame (fun _ => False) s₁ s₂
  | .faulted _ _ => ∃ n s₂ f, Steps img₂ n s s₂ ∧ FaultsAt img₂ s₂ f

variable {moves : Addr → Addr → Prop}

theorem Answers.of_steps {s' : State} {r : StepResult} {m : Nat} (hs : Steps img₂ m s s')
    (h : asg.Answers pool frame after img₂ moves s' r) :
    asg.Answers pool frame after img₂ moves s r := by
  cases r with
  | running s₁ =>
    obtain ⟨n, s₂, hn, ha, hm⟩ := h
    exact ⟨m + n, s₂, hs.trans hn, ha, hm⟩
  | exited code s₁ =>
    obtain ⟨s₂, ⟨n, hn, hx⟩, ha⟩ := h
    exact ⟨s₂, ⟨m + n, hs.trans hn, hx⟩, ha⟩
  | faulted f s₁ =>
    obtain ⟨n, s₂, f', hn, hx⟩ := h
    exact ⟨m + n, s₂, f', hs.trans hn, hx⟩

/-- An access to an address that is not valid faults in both programs. -/
theorem Answers.access {op : Op Addr} {a : Addr} {f₁ f₂ : State → StepResult}
    (hf : img₂.fetch s.pc = some op) (he : s.exec op = s.access a f₂)
    (h : State.nullPage ≤ a → s.exec op = f₂ s →
      asg.Answers pool frame after img₂ moves s (f₁ s₁)) :
    asg.Answers pool frame after img₂ moves s (s₁.access a f₁) := by
  by_cases hlow : a < State.nullPage
  · rw [State.access_of_lt hlow] at he ⊢
    exact ⟨0, s, _, .refl s, .fault hf he⟩
  · have hle := UInt32.not_lt.mp hlow
    rw [State.access_of_le hle] at he ⊢
    exact h hle he

/-- Both programs print the same text. -/
theorem Agree.cstring_eq (h : asg.Agree pool frame live s₁ s₂) {a : Addr}
    (ha : ∀ k ≤ (s₁.memory.bytesFrom UInt32.size a).length,
      ¬ asg.Slots frame (a + UInt32.ofNat k)) : s₂.memory.cstring a = s₁.memory.cstring a := by
  have hbytes := Memory.bytesFrom_congr fun k hk => (h.memory _ (ha k hk)).symm
  rw [Memory.cstring, Memory.cstring, hbytes]

/-- A system call does the same in both programs. -/
theorem syscall_answers (w : asg.WellPlaced pool) (h : asg.Agree pool frame live s₁ s)
    (hf : img₂.fetch s.pc = some .ecall) (hafter : ∀ v, after v → live v)
    (hmoves : moves (s₁.pc + 4) (s.pc + 4))
    (htouch : ∀ a, s₁.Touches .ecall a → ¬ asg.Slots frame a) :
    asg.Answers pool frame after img₂ moves s s₁.syscall := by
  have ha0 : s.reg .a0 = s₁.reg .a0 := h.regs .a0 w.a0_not_reserved
  have ha7 : s.reg .a7 = s₁.reg .a7 := h.regs .a7 w.a7_not_reserved
  have hprint {text : String} (he : s.exec .ecall = .running (s.print text)) :
      asg.Answers pool frame after img₂ moves s (.running (s₁.print text)) :=
    ⟨0, _, .one hf he, (h.print text).mono hafter, hmoves⟩
  have hexit {code : Int32} (he : s.exec .ecall = .exited code s) :
      asg.Answers pool frame after img₂ moves s (.exited code s₁) :=
    ⟨s, ⟨0, .refl s, .exit hf he⟩, h.mono fun _ hv => hv.elim⟩
  have he : s.exec .ecall = s.syscall := rfl
  simp only [State.syscall, ha7, ha0, h.brk] at he ⊢
  cases hn : Syscall.ofNumber? (s₁.reg .a7) with
  | none => exact ⟨0, s, _, .refl s, .fault hf (he.trans (by rw [hn]))⟩
  | some call =>
    rw [hn] at he
    cases call with
    | printInt | printChar => exact hprint he
    | printString =>
      refine .access hf he fun hle he => hprint (he.trans ?_)
      rw [h.cstring_eq fun k hk => htouch _ ⟨hn, hle, k, hk, rfl⟩]
    | sbrk =>
      have hput := (h.put_phys w w.a0_not_reserved (by decide) s₁.brk.toInt32).mono hafter
      exact ⟨0, _, .one hf he, ⟨hput.regs, hput.memory, rfl, hput.stdout, hput.frame, hput.temps⟩,
        hmoves⟩
    | exit | exitCode => exact hexit he

/-- An operation whose operands have been brought into registers does the same in both programs. -/
theorem exec_answers (w : asg.WellPlaced pool) (hvalid : asg.ValidSlots frame)
    (hfit : img₂.Unwrapped) {o : Op Label} {op₁ op₂ : Op Addr} {src : Reg → Reg}
    (c : asg.Covers pool o live after) (h : asg.Agree pool frame live s₁ s)
    (hsrc : ∀ r ∈ o.uses, s.reg (src r) = s₁.reg r) (hpc : s.pc = pcOf j)
    (hres₁ : o.resolve (fun l => find img₁.labels l.name) = .ok op₁)
    (hop₂ : img₂.code[j]? = some op₂)
    (hres₂ : (o.mapRegs src asg.target).resolve (fun l => find img₂.labels l.name) = .ok op₂)
    (hspill : img₂.CodeAt (j + 1) (instrs (asg.spillItems o)))
    (hla : ∀ rd l, o = .la rd l → find img₁.labels l.name = find img₂.labels l.name)
    (htouch : ∀ a, s₁.Touches op₁ a → ¬ asg.Slots frame a) : asg.Answers pool frame after img₂
      (Moves img₁ img₂ o (s₁.pc + 4) (pcOf (j + 1 + (instrs (asg.spillItems o)).length))) s
      (s₁.exec op₁) := by
  have hf : img₂.fetch s.pc = some op₂ := hpc ▸ hfit.fetch_of_getElem? hop₂
  have hwrite {rd : Reg} (x : Int32) (hdef : o.def? = some rd) (hflow : o.flow = .next)
      (he : s.exec op₂ = .running (s.put (asg.target rd) x)) :
      asg.Answers pool frame after img₂
        (Moves img₁ img₂ o (s₁.pc + 4) (pcOf (j + 1 + (instrs (asg.spillItems o)).length))) s
        (.running (s₁.put rd x)) := by
    obtain ⟨n, s', hs, ha, hpc'⟩ := write_back w hvalid hfit c h hdef hpc hspill x
    refine ⟨n, s', .step hf he hs, ha, .inl ⟨?_, rfl, hpc'⟩⟩
    rw [hflow]
    rfl
  have hafter (hdef : o.virtDef? = none) (v : Nat) (hv : after v) : live v := by
    rcases c.kept v hv with hl | hd
    · exact hl
    · rw [hdef] at hd
      cases hd
  have hnext (hdef : o.virtDef? = none) :
      pcOf (j + 1 + (instrs (asg.spillItems o)).length) = s.pc + 4 := by
    rw [spillItems, hdef, hpc, pcOf_add_four]
    rfl
  -- A branch goes to its label in both programs, or on in both.
  have hbranch {x : Bool} {l : Label} {a₁ a₂ : Addr} (ha₁ : find img₁.labels l.name = .ok a₁)
      (ha₂ : find img₂.labels l.name = .ok a₂) (hflow : o.flow = .branch l) (hdef :
        o.virtDef? = none)
      (he : s.exec op₂ = .running (if x then s.goto a₂ else s.skip)) :
      asg.Answers pool frame after img₂
        (Moves img₁ img₂ o (s₁.pc + 4) (pcOf (j + 1 + (instrs (asg.spillItems o)).length))) s
        (.running (if x then s₁.goto a₁ else s₁.skip)) := by
    cases x with
    | true =>
      exact ⟨0, _, .one hf he, (h.goto a₁ a₂).mono (hafter hdef),
        .inr ⟨l, by rw [hflow]; rfl, ha₁, ha₂⟩⟩
    | false =>
      exact ⟨0, _, .one hf he, (h.goto _ _).mono (hafter hdef),
        .inl ⟨by rw [hflow]; rfl, rfl, (hnext hdef).symm⟩⟩
  cases o with
  | alu | aluImm | shift | unary | li =>
    cases hres₁
    cases hres₂
    exact hwrite _ rfl rfl (by simp_all [Op.uses, State.exec])
  | la rd l =>
    obtain ⟨a₁, ha₁, rfl⟩ := map_eq_ok_iff.mp hres₁
    obtain ⟨a₂, ha₂, rfl⟩ := map_eq_ok_iff.mp hres₂
    have heq : a₁ = a₂ := Except.ok.inj (ha₁.symm.trans ((hla rd l rfl).trans ha₂))
    subst heq
    exact hwrite _ rfl rfl rfl
  | load wd rd a n =>
    cases hres₁
    cases hres₂
    have he := s.exec_load wd (asg.target rd) (src a) n
    rw [State.addrOf, hsrc a (by simp [Op.uses])] at he
    rw [State.exec_load]
    refine .access hf he fun hle he => hwrite _ rfl rfl (he.trans ?_)
    exact congrArg (fun x => StepResult.running (s.put _ x))
      (Memory.read_congr_width fun b hb => h.memory b (htouch b ⟨hle, hb⟩))
  | store wd a base n =>
    cases hres₁
    cases hres₂
    have he := s.exec_store wd (src a) (src base) n
    rw [State.addrOf, hsrc base (by simp [Op.uses]), hsrc a (by simp [Op.uses])] at he
    rw [State.exec_store]
    refine .access hf he fun hle he => ⟨0, _, .one hf he, ?_, .inl ⟨rfl, rfl, (hnext rfl).symm⟩⟩
    exact (h.write w (fun b hb => htouch b ⟨hle, hb⟩) _ _ _).mono (hafter rfl)
  | jump l =>
    obtain ⟨a₁, ha₁, rfl⟩ := map_eq_ok_iff.mp hres₁
    obtain ⟨a₂, ha₂, rfl⟩ := map_eq_ok_iff.mp hres₂
    exact ⟨0, _, .one hf rfl, (h.goto a₁ a₂).mono (hafter rfl), .inr ⟨l, rfl, ha₁, ha₂⟩⟩
  | call | callReg | jumpReg => exact c.direct.elim
  | branch cmp a b l =>
    obtain ⟨a₁, ha₁, rfl⟩ := map_eq_ok_iff.mp hres₁
    obtain ⟨a₂, ha₂, rfl⟩ := map_eq_ok_iff.mp hres₂
    refine hbranch ha₁ ha₂ rfl rfl ?_
    rw [State.exec, hsrc a (by simp [Op.uses]), hsrc b (by simp [Op.uses])]
  | branchZero cmp a l =>
    obtain ⟨a₁, ha₁, rfl⟩ := map_eq_ok_iff.mp hres₁
    obtain ⟨a₂, ha₂, rfl⟩ := map_eq_ok_iff.mp hres₂
    refine hbranch ha₁ ha₂ rfl rfl ?_
    rw [State.exec, hsrc a (by simp [Op.uses])]
  | ecall =>
    cases hres₁
    cases hres₂
    exact syscall_answers w h hf (hafter rfl) (.inl ⟨rfl, rfl, (hnext rfl).symm⟩) htouch

/-- The instructions that come of one, from its first load to its last store. -/
theorem expand_answers (w : asg.WellPlaced pool) (hvalid : asg.ValidSlots frame)
    (hfit : img₂.Unwrapped) {i : Instr} {op₁ : Op Addr} (c : asg.Covers pool i.op live after)
    (h : asg.Agree pool frame live s₁ s) (hpc : s.pc = pcOf j)
    (hres₁ : i.op.resolve (fun l => find img₁.labels l.name) = .ok op₁)
    (hcode : img₂.CodeAt j (asg.expand i))
    (hla : ∀ rd l, i.op = .la rd l → find img₁.labels l.name = find img₂.labels l.name)
    (htouch : ∀ a, s₁.Touches op₁ a → ¬ asg.Slots frame a) : asg.Answers pool frame after img₂
      (Moves img₁ img₂ i.op (s₁.pc + 4) (pcOf (j + (asg.expand i).length))) s (s₁.exec op₁) := by
  have hexpand : asg.expand i = instrs ((asg.reloads i.op).map asg.reloadItem) ++
      ({ i with op := i.op.mapRegs (asg.source (asg.reloads i.op)) asg.target } ::
        instrs (asg.spillItems i.op)) := by
    rw [expand, applyInstr, instrs_append, instrs_cons_instr]
  rw [hexpand, codeAt_append, asg.length_instrs_reloads] at hcode
  obtain ⟨hloads, hrest⟩ := hcode
  obtain ⟨⟨op₂, hop₂, hres₂⟩, hspill⟩ := codeAt_cons.mp hrest
  have hentries : ∀ e ∈ asg.reloads i.op,
      live e.1 ∧ (asg.spillOf? e.1).isSome ∧ e.2 ∈ PhysReg.scratch := fun e he =>
    ⟨c.uses e.1 (of_mem_reloads he).1, (of_mem_reloads he).2⟩
  obtain ⟨s', hs, hagree, hpc', hloaded⟩ :=
    reload_steps w hvalid hfit h hloads hpc hentries (asg.nodup_reloads i.op)
  have hend : j + (asg.expand i).length =
      j + (asg.reloads i.op).length + 1 + (instrs (asg.spillItems i.op)).length := by
    rw [hexpand, List.length_append, List.length_cons, asg.length_instrs_reloads]
    omega
  rw [hend]
  exact .of_steps hs (exec_answers w hvalid hfit c hagree
    (fun r hr => reg_source c hagree hloaded hr) hpc' hres₁ hop₂ hres₂ hspill hla htouch)

end Exec

end Assignment

end ChocoRV
