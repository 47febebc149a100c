import Mathlib
import ChocoRV.Proofs.Alloc.Reload

/-!
# Instructions over locations, one by one

Where temporaries live in registers and frame words, an instruction is carried out in up to four
steps: loads bring spilled operands into scratch registers, the operation follows, and a store takes
a spilled result to the frame. The lemmas here say what such a group of steps does to a state, for
the kinds of instructions that expressions are made of: one that writes a plain register, one that
writes a temporary, a branch, a load into a temporary and a store.
-/

namespace ChocoRV

open Assembly Image

namespace Assignment

variable {asg : Assignment} {pool : List PhysReg} {s : State}

/-- A temporary has got a word, and memory is as before but for the frame words of temporaries. -/
structure Delivers (asg : Assignment) (frame : Int32) (v : Nat) (x : Int32) (s s' : State) :
    Prop where
  value : asg.read s' (.virt v) = x
  memory : ∀ b, ¬ asg.Slots frame b → s'.memory.read b = s.memory.read b
  brk : s'.brk = s.brk
  stdout : s'.stdout = s.stdout

/-! ## Operands -/

/-- The program is before these items of a unit, at instruction `k`; the frame begins at `frame`. -/
structure Stands (asg : Assignment) (img : Image) (inside : Nat → Prop) (frame : Int32) (k : Nat)
    (items : List Item) (s : State) : Prop where
  pc : s.pc = pcOf k
  code : img.Holds inside k (asg.apply items)
  frame : s.reg .fp = frame

variable {img : Image} {inside : Nat → Prop} {clear : Addr → Prop} {frame : Int32} {k : Nat}
variable {rest : List Item}

namespace Stands

variable (w : asg.WellPlaced pool) (hfit : img.Unwrapped) (hvalid : asg.ValidSlots frame)
  (hslots : ∀ b, asg.Slots frame b → clear b)

include w hfit hvalid hslots

/-- The operands of an instruction are loaded. -/
theorem operands {i : Instr} (h : asg.Stands img inside frame k (.instr i :: rest) s)
    (huses : i.op.uses.all Reg.isSteady = true) :
    ∃ n t, Walk img (Safe img inside clear) n s t ∧ t.pc = pcOf (k + n) ∧ s.Differs [.t5, .t6] t ∧
      (∀ r ∈ i.op.uses, t.reg (asg.source (asg.reloads i.op) r) = asg.read s r) ∧
      img.Holds inside (k + n) (.instr ⟨i.op.mapRegs (asg.source (asg.reloads i.op)) asg.target,
        i.comment⟩ :: (asg.spillItems i.op ++ asg.apply rest)) ∧
      k + (asg.expand i).length = k + n + 1 + (instrs (asg.spillItems i.op)).length := by
  obtain ⟨hpc, hcode, hfp⟩ := h
  have happly : asg.apply (.instr i :: rest) = (asg.reloads i.op).map asg.reloadItem ++
      .instr ⟨i.op.mapRegs (asg.source (asg.reloads i.op)) asg.target, i.comment⟩ ::
        (asg.spillItems i.op ++ asg.apply rest) := by
    show asg.applyInstr i ++ asg.apply rest = _
    rw [applyInstr, List.append_assoc]
    rfl
  rw [happly] at hcode
  obtain ⟨t, hw, htpc, hdiffers, hloaded, hrest⟩ := walk_reloads w hfit hvalid hslots hcode hpc hfp
    (fun e he => (of_mem_reloads he).2) (asg.nodup_reloads i.op)
  have hscratch : s.Differs [.t5, .t6] t := by
    refine hdiffers.mono fun r hr => ?_
    obtain ⟨e, he, rfl⟩ := List.mem_map.mp hr
    have hall : ∀ p ∈ PhysReg.scratch, Reg.phys p ∈ [Reg.t5, .t6] := by decide
    exact hall e.2 (of_mem_reloads he).2.2
  refine ⟨_, t, hw, htpc, hscratch, fun r hr => reg_source_of_loaded w hscratch hloaded huses hr,
    hrest, ?_⟩
  rw [expand, applyInstr, instrs_append, List.length_append, asg.length_instrs_reloads,
    instrs_cons_instr, List.length_cons]
  omega

variable {c : Option String}

/-- An operation that writes a plain register. -/
theorem put {o : Op Label} {p : PhysReg} {x : Int32}
    (h : asg.Stands img inside frame k (.instr ⟨o, c⟩ :: rest) s)
    (huses : o.uses.all Reg.isSteady = true) (hdef : o.def? = some (.phys p))
    (hp : p ∉ [PhysReg.zero, .fp]) (hexec : ∀ (t : State) (src : Reg → Reg), t.memory = s.memory →
      (∀ r ∈ o.uses, t.reg (src r) = asg.read s r) →
      ∃ op, (o.mapRegs src asg.target).resolve (fun l => find img.labels l.name) = .ok op ∧
        t.exec op = .running (t.put (.phys p) x) ∧ ∀ a, t.Touches op a → clear a) :
    ∃ n s', Walk img (Safe img inside clear) n s s' ∧
      asg.Stands img inside frame (k + (asg.expand ⟨o, c⟩).length) rest s' ∧
      s.Differs [.phys p, .t5, .t6] s' ∧ s'.reg (.phys p) = x := by
  obtain ⟨n, t, hw, hpc, hdiffers, hreads, hcode, hlen⟩ := h.operands w hfit hvalid hslots huses
  obtain ⟨⟨⟨op, hop, hres⟩, hin⟩, hrest⟩ := hcode
  -- The operation in the program is the one that the lemma is about.
  obtain ⟨op', hres', he, htouch⟩ := hexec t _ hdiffers.memory hreads
  cases hres.symm.trans hres'
  have hspill : asg.spillItems o = [] := by
    rw [spillItems, Op.virtDef?, hdef]
    rfl
  rw [hspill] at hlen hrest
  rw [hlen]
  -- The result stays in the register, and the frame pointer is another one.
  have hne : Reg.phys p ≠ .zero ∧ Reg.fp ≠ .phys p := by
    rw [List.mem_pair, not_or] at hp
    exact ⟨fun h => hp.1 (Reg.phys.inj h), fun h => hp.2 (Reg.phys.inj h).symm⟩
  refine ⟨n + 1, t.put (.phys p) x, hw.trans (Holds.walk_one hfit hpc hop hin htouch he),
    ⟨?_, hrest, ?_⟩, ?_, t.reg_put_self x hne.1⟩
  · rw [State.pc_put, hpc, pcOf_add_four]
    rfl
  · rw [t.reg_put_of_ne x hne.2, hdiffers.regs _ (by decide), h.frame]
  · exact (hdiffers.mono (List.subset_cons_self _ _)).trans (.put List.mem_cons_self t x)

/-- A branch, which goes to an address or on. -/
theorem branch {o : Op Label} {a : Addr} {x : Bool}
    (h : asg.Stands img inside frame k (.instr ⟨o, c⟩ :: rest) s)
    (huses : o.uses.all Reg.isSteady = true) (hdef : o.def? = none)
    (hexec : ∀ (t : State) (src : Reg → Reg), (∀ r ∈ o.uses, t.reg (src r) = asg.read s r) →
      ∃ op, (o.mapRegs src asg.target).resolve (fun l => find img.labels l.name) = .ok op ∧
        t.exec op = .running (if x then t.goto a else t.skip) ∧ ∀ a, ¬ t.Touches op a) :
    ∃ n s', Walk img (Safe img inside clear) n s s' ∧ s.Differs [.t5, .t6] s' ∧
      (x = true → s'.pc = a) ∧
      (x = false → asg.Stands img inside frame (k + (asg.expand ⟨o, c⟩).length) rest s') := by
  obtain ⟨n, t, hw, hpc, hdiffers, hreads, hcode, hlen⟩ := h.operands w hfit hvalid hslots huses
  obtain ⟨⟨⟨op, hop, hres⟩, hin⟩, hrest⟩ := hcode
  obtain ⟨op', hres', he, htouch⟩ := hexec t _ hreads
  cases hres.symm.trans hres'
  have hspill : asg.spillItems o = [] := by
    rw [spillItems, Op.virtDef?, hdef]
    rfl
  rw [hspill] at hlen hrest
  rw [hlen]
  have hstep : Walk img (Safe img inside clear) 1 t _ :=
    Holds.walk_one hfit hpc hop hin (fun a ha => absurd ha (htouch a)) he
  cases x with
  | true => exact ⟨n + 1, t.goto a, hw.trans hstep, hdiffers.trans (.goto t a),
      fun _ => rfl, by simp⟩
  | false =>
    refine ⟨n + 1, t.skip, hw.trans hstep, hdiffers.trans (.goto t _), by simp, fun _ =>
      ⟨?_, hrest, ?_⟩⟩
    · rw [State.skip_eq_goto]
      show t.pc + 4 = _
      rw [hpc, pcOf_add_four]
      rfl
    · exact (hdiffers.regs _ (by decide)).trans h.frame

/-- The result of an operation is taken to the location of its temporary. -/
theorem writeBack {o : Op Label} {v j : Nat} {t : State} (hdef : o.def? = some (.virt v))
    (hcode : img.Holds inside j (asg.spillItems o ++ asg.apply rest)) (hpc : t.pc + 4 = pcOf j)
    (hfp : t.reg .fp = frame) (x : Int32) :
    ∃ n s', Walk img (Safe img inside clear) n (t.put (asg.target (.virt v)) x) s' ∧
      asg.Stands img inside frame (j + (instrs (asg.spillItems o)).length) rest s' ∧
      asg.Delivers frame v x t s' := by
  have hvirt : o.virtDef? = some v := Op.virtDef?_eq_some_iff.mpr hdef
  -- A temporary that is not spilled is in its place.
  have hplain {r : Reg} (htarget : asg.target (.virt v) = r) (hzero : r ≠ .zero) (hne : Reg.fp ≠ r)
      (hspill : asg.spillItems o = []) (hread : asg.read (t.put r x) (.virt v) =
        (t.put r x).reg r) :
      ∃ n s', Walk img (Safe img inside clear) n (t.put (asg.target (.virt v)) x) s' ∧
        asg.Stands img inside frame (j + (instrs (asg.spillItems o)).length) rest s' ∧
        asg.Delivers frame v x t s' := by
    rw [hspill] at hcode ⊢
    rw [htarget]
    exact ⟨0, _, .refl _, ⟨hpc, hcode, (t.reg_put_of_ne x hne).trans hfp⟩,
      hread.trans (t.reg_put_self x hzero), fun _ _ => rfl, rfl, rfl⟩
  cases hloc : asg[v]? with
  | none =>
    refine hplain (r := .virt v) ?_ (by simp) (by simp) ?_ (read_of_none hloc _)
    · rw [target, hloc]
    · simp only [spillItems, hvirt, spillOf?, hloc]
  | some loc =>
    cases loc with
    | reg p =>
      have hall : ∀ p ∈ PhysReg.allocatable, Reg.phys p ≠ .zero ∧ Reg.fp ≠ .phys p := by decide
      obtain ⟨hzero, hne⟩ := hall p (w.allocatable p (w.reg hloc))
      refine hplain (r := .phys p) ?_ hzero hne ?_ (read_of_some hloc _)
      · rw [target, hloc]
      · simp only [spillItems, hvirt, spillOf?, hloc]
    | spill off =>
      -- The result is in a scratch register and goes to the frame from there.
      have htarget : asg.target (.virt v) = .t5 := by rw [target, hloc]
      have hspill : asg.spillItems o =
          [.noted (.sw .t5 .fp off) ("spill " ++ (Reg.virt v).text)] := by
        simp only [spillItems, hvirt, spillOf?, hloc]
      rw [hspill] at hcode ⊢
      rw [htarget]
      have hfp' : (t.put .t5 x).reg .fp = frame := (t.reg_put_of_ne x (by decide)).trans hfp
      have haddr : (t.put .t5 x).addrOf .fp off = (frame + off).toUInt32 := by
        rw [State.addrOf, hfp']
      have hw : Walk img (Safe img inside clear) 1 (t.put .t5 x) _ :=
        hcode.walk_sw hfit (haddr ▸ hvalid v off hloc)
          (fun b hb => hslots b ⟨v, off, hloc, haddr ▸ hb⟩) hpc
      refine ⟨1, _, hw, ⟨?_, hcode.2, hfp'⟩, ?_, fun b hb => ?_, rfl, rfl⟩
      · show t.pc + 4 + 4 = _
        rw [hpc, pcOf_add_four]
        rfl
      · rw [read_of_some hloc]
        exact (Memory.readWord_writeWord_self ..).trans (t.reg_put_self x (by decide))
      · exact Memory.read_writeWord_of_not_inWord _ _ _ fun hb' => hb ⟨v, off, hloc, haddr ▸ hb'⟩

/-- An operation that writes a temporary. -/
theorem result {o : Op Label} {v : Nat} {x : Int32}
    (h : asg.Stands img inside frame k (.instr ⟨o, c⟩ :: rest) s)
    (huses : o.uses.all Reg.isSteady = true) (hdef : o.def? = some (.virt v))
    (hexec : ∀ (t : State) (src : Reg → Reg), t.memory = s.memory →
      (∀ r ∈ o.uses, t.reg (src r) = asg.read s r) →
      ∃ op, (o.mapRegs src asg.target).resolve (fun l => find img.labels l.name) = .ok op ∧
        t.exec op = .running (t.put (asg.target (.virt v)) x) ∧ ∀ a, t.Touches op a → clear a) :
    ∃ n s', Walk img (Safe img inside clear) n s s' ∧
      asg.Stands img inside frame (k + (asg.expand ⟨o, c⟩).length) rest s' ∧
      asg.Delivers frame v x s s' := by
  obtain ⟨n, t, hw, hpc, hdiffers, hreads, hcode, hlen⟩ := h.operands w hfit hvalid hslots huses
  obtain ⟨⟨⟨op, hop, hres⟩, hin⟩, hrest⟩ := hcode
  obtain ⟨op', hres', he, htouch⟩ := hexec t _ hdiffers.memory hreads
  cases hres.symm.trans hres'
  have hstep : Walk img (Safe img inside clear) 1 t _ := Holds.walk_one hfit hpc hop hin htouch he
  obtain ⟨m, s', hback, hstands, hd⟩ := writeBack w hfit hvalid hslots hdef hrest
    (by rw [hpc, pcOf_add_four]) ((hdiffers.regs _ (by decide)).trans h.frame) x
  rw [← hlen] at hstands
  exact ⟨_, s', hw.trans (hstep.trans hback), hstands, hd.value,
    fun b hb => by rw [hd.memory b hb, hdiffers.memory], hd.brk.trans hdiffers.brk,
    hd.stdout.trans hdiffers.stdout⟩

/-- A load of a word into a temporary. -/
theorem load {v : Nat} {base : Reg} {off : Int32} {a : Addr}
    (h : asg.Stands img inside frame k (.instr ⟨.lw (.virt v) base off, c⟩ :: rest) s)
    (hbase : base.isSteady = true) (ha : (asg.read s base + off).toUInt32 = a)
    (hnull : State.nullPage ≤ a) (hclear : ∀ b, Addr.InWord a b → clear b) :
    ∃ n s', Walk img (Safe img inside clear) n s s' ∧
      asg.Stands img inside frame (k + (asg.expand ⟨.lw (.virt v) base off, c⟩).length) rest s' ∧
      asg.Delivers frame v (s.memory.readWord a) s s' := by
  refine h.result w hfit hvalid hslots
    (List.all_eq_true.mpr fun r hr => List.mem_singleton.mp hr ▸ hbase) rfl
    fun t src hmemory hreads => ⟨_, rfl, ?_, ?_⟩
  · have haddr : t.addrOf (src base) off = a := by
      rw [State.addrOf, hreads base List.mem_cons_self, ha]
    simp only [State.exec, haddr]
    rw [State.access_of_le hnull, hmemory]
  · rintro b ⟨-, hb⟩
    rw [State.addrOf, hreads base List.mem_cons_self, ha] at hb
    exact hclear b hb

/-- A store of a word. -/
theorem store {src base : Reg} {off : Int32} {a : Addr}
    (h : asg.Stands img inside frame k (.instr ⟨.sw src base off, c⟩ :: rest) s)
    (huses : [base, src].all Reg.isSteady = true) (ha : (asg.read s base + off).toUInt32 = a)
    (hnull : State.nullPage ≤ a) (hclear : ∀ b, Addr.InWord a b → clear b) :
    ∃ n s', Walk img (Safe img inside clear) n s s' ∧
      asg.Stands img inside frame (k + (asg.expand ⟨.sw src base off, c⟩).length) rest s' ∧
      s'.memory = s.memory.writeWord a (asg.read s src) ∧ s'.stdout = s.stdout ∧ s'.brk = s.brk ∧
      ∀ q ∉ [Reg.t5, .t6], s'.reg q = s.reg q := by
  obtain ⟨n, t, hw, hpc, hdiffers, hreads, hcode, hlen⟩ := h.operands w hfit hvalid hslots huses
  have haddr : t.addrOf (asg.source (asg.reloads (.sw src base off)) base) off = a := by
    rw [State.addrOf, hreads base List.mem_cons_self, ha]
  have hvalue := hreads src (List.mem_cons_of_mem _ List.mem_cons_self)
  have hstore : Walk img (Safe img inside clear) 1 t _ :=
    hcode.walk_sw hfit (haddr ▸ hnull) (fun b hb => hclear b (haddr ▸ hb)) hpc
  rw [haddr, hdiffers.memory, hvalue] at hstore
  refine ⟨_, _, hw.trans hstore, ⟨?_, ?_, (hdiffers.regs _ (by decide)).trans h.frame⟩, rfl,
    hdiffers.stdout, hdiffers.brk, hdiffers.regs⟩
  · show t.pc + 4 = _
    rw [hlen, hpc, pcOf_add_four]
    rfl
  · rw [hlen]
    exact hcode.2

end Stands

end Assignment

end ChocoRV
