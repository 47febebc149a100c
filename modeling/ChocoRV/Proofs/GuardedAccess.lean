import Mathlib
import ChocoRV.Proofs.Alloc.Operands
import ChocoRV.Proofs.ErrorExits
import ChocoRV.Proofs.Machine.Sequence

/-!
# Guarded accesses

An access to an element is guarded by a check of the index, and for a list by one of the reference
before it. `Image.ChecksNone` and `Image.ChecksIndex` say what the two do, in both directions: what
passes, and how the program ends on all else. They hold of the code wherever it stands in a program
whose error exits end it, with temporaries in registers or in the frame.
-/

namespace ChocoRV

open Assembly Image

/-! ## Steps of an access -/

namespace Assignment.Stands

variable {asg : Assignment} {pool : List PhysReg} {img : Image} {inside : Nat → Prop}
  {clear : Addr → Prop} {frame : Int32} {k v i : Nat} {rest : List Item} {s : State}
  {c c' : Option String} (w : asg.WellPlaced pool) (hfit : img.Unwrapped)
  (hvalid : asg.ValidSlots frame) (hslots : ∀ b, asg.Slots frame b → clear b)

include w hfit hvalid hslots

/-- A load into a plain register. -/
theorem fetch {width : Width} {p : PhysReg} {base : Reg} {off : Int32} {a : Addr}
    (h : asg.Stands img inside frame k (.instr ⟨.load width (.phys p) base off, c⟩ :: rest) s)
    (hbase : base.isSteady = true) (hp : p ∉ [PhysReg.zero, .fp])
    (ha : (asg.read s base + off).toUInt32 = a) (hnull : State.nullPage ≤ a)
    (hclear : ∀ b, width.Bytes a b → clear b) :
    ∃ n s', Walk img (Safe img inside clear) n s s' ∧
      asg.Stands img inside frame
        (k + (asg.expand ⟨.load width (.phys p) base off, c⟩).length) rest s' ∧
      s.Differs [.phys p, .t5, .t6] s' ∧ s'.reg (.phys p) = width.read s.memory a := by
  refine h.put w hfit hvalid hslots
    (List.all_eq_true.mpr fun r hr => List.mem_singleton.mp hr ▸ hbase) rfl hp
    fun t src hmemory hreads => ⟨_, rfl, ?_, ?_⟩
  · have haddr : t.addrOf (src base) off = a := by
      rw [State.addrOf, hreads base List.mem_cons_self, ha]
    simp only [State.exec, haddr]
    rw [State.access_of_le hnull, ← hmemory]
    cases width <;> rfl
  · rintro b ⟨-, hb⟩
    rw [State.addrOf, hreads base List.mem_cons_self, ha] at hb
    exact hclear b hb

/-- The index is compared with the length. -/
theorem bounds {width : Width} {n : Nat} {a : Addr}
    (h : asg.Stands img inside frame k (.instr ⟨.lw .t0 (.virt v) Object.sizeOffset, c⟩ ::
      .instr ⟨.bgeu (.virt i) .t0 Routine.errorOob, c'⟩ :: rest) s)
    (hseq : s.memory.SequenceAt width (asg.read s (.virt v)) n)
    (hclear : ∀ b, Addr.InWord (asg.read s (.virt v) + Object.sizeOffset).toUInt32 b → clear b)
    (hl : find img.labels Routine.errorOob.name = .ok a) :
    ∃ m s', Walk img (Safe img inside clear) m s s' ∧ s.Differs [.t0, .t5, .t6] s' ∧
      (¬ InRange (asg.read s (.virt i)) n → s'.pc = a) ∧
      (InRange (asg.read s (.virt i)) n →
        asg.Stands img inside frame
          (k + (asg.expand ⟨.lw .t0 (.virt v) Object.sizeOffset, c⟩).length +
          (asg.expand ⟨.bgeu (.virt i) .t0 Routine.errorOob, c'⟩).length) rest s') := by
  obtain ⟨m₁, s₁, hw₁, hstands₁, hdiffers₁, hlength⟩ := h.fetch w hfit hvalid hslots
    rfl (by decide) rfl hseq.size_valid hclear
  have hlength : s₁.reg .t0 = Int32.ofNat n := hlength.trans hseq.size
  have hindex := read_of_differs w (by decide) hdiffers₁ i
  obtain ⟨m₂, s₂, hw₂, hdiffers₂, htaken, hon⟩ := hstands₁.branch w hfit hvalid hslots (a := a)
    (x := Cmp.eval .geu (asg.read s (.virt i)) (Int32.ofNat n)) rfl rfl fun t src hreads => by
      have hi := hreads (.virt i) List.mem_cons_self
      have ht0 : t.reg (src .t0) = s₁.reg .t0 :=
        hreads .t0 (List.mem_cons_of_mem _ List.mem_cons_self)
      refine ⟨.branch .geu (src (.virt i)) (src .t0) a, ?_, ?_, fun _ => id⟩
      · show (find img.labels Routine.errorOob.name).map _ = _
        rw [hl]
        rfl
      · rw [State.exec, hi, ht0, hindex, hlength]
  refine ⟨_, s₂, hw₁.trans hw₂, hdiffers₁.trans (hdiffers₂.mono (List.subset_cons_self _ _)),
    fun hout => htaken ((geu_length_iff hseq.length).mpr hout), fun hin => hon ?_⟩
  exact Bool.eq_false_iff.mpr fun htrue => (geu_length_iff hseq.length).mp htrue hin

/-- The address of an element of a list. -/
theorem elementAddr
    (h : asg.Stands img inside frame k (.instr ⟨.slli .t0 (.virt i) Op.wordShift, c⟩ ::
      .instr ⟨.add .t0 (.virt v) .t0, c'⟩ :: rest) s) :
    ∃ m s', Walk img (Safe img inside clear) m s s' ∧ s.Differs [.t0, .t5, .t6] s' ∧
      s'.reg .t0 = asg.read s (.virt v) + ShiftOp.eval .slli (asg.read s (.virt i)) Op.wordShift ∧
      asg.Stands img inside frame (k + (asg.expand ⟨.slli .t0 (.virt i) Op.wordShift, c⟩).length +
        (asg.expand ⟨.add .t0 (.virt v) .t0, c'⟩).length) rest s' := by
  obtain ⟨m₁, s₁, hw₁, hstands₁, hdiffers₁, hshift⟩ := h.put w hfit hvalid hslots
    (x := ShiftOp.eval .slli (asg.read s (.virt i)) Op.wordShift) rfl rfl (by decide)
    fun t src _ hreads => by
      refine ⟨_, rfl, ?_, fun _ => False.elim⟩
      rw [State.exec, hreads (.virt i) List.mem_cons_self]
      rfl
  have hseq := read_of_differs w (by decide) hdiffers₁ v
  obtain ⟨m₂, s₂, hw₂, hstands₂, hdiffers₂, hsum⟩ := hstands₁.put w hfit hvalid hslots
    (x := asg.read s (.virt v) + s₁.reg .t0) rfl rfl (by decide) fun t src _ hreads => by
      have ht0 : t.reg (src .t0) = s₁.reg .t0 :=
        hreads .t0 (List.mem_cons_of_mem _ List.mem_cons_self)
      refine ⟨_, rfl, ?_, fun _ => False.elim⟩
      rw [State.exec, hreads (.virt v) List.mem_cons_self, ht0, hseq]
      rfl
  exact ⟨_, s₂, hw₁.trans hw₂, hdiffers₁.trans hdiffers₂, hsum.trans (by rw [hshift]), hstands₂⟩

end Assignment.Stands

/-! ## Guarded accesses -/

namespace Assignment

/-- How many instructions items become. -/
def size (asg : Assignment) (items : List Item) : Nat := (instrs (asg.apply items)).length

/-- The places of the instructions that items become from `k` on. -/
def Own (asg : Assignment) (k : Nat) (items : List Item) (j : Nat) : Prop :=
  k ≤ j ∧ j < k + asg.size items

/-- The bytes of spilled temporaries and those of the size word of a sequence at `q`. -/
def GuardBytes (asg : Assignment) (frame q : Int32) (b : Addr) : Prop :=
  asg.Slots frame b ∨ Addr.InWord (q + Object.sizeOffset).toUInt32 b

variable (asg : Assignment)

@[simp] theorem size_nil : asg.size [] = 0 := rfl

@[simp] theorem size_append (xs ys : List Item) :
    asg.size (xs ++ ys) = asg.size xs + asg.size ys := by
  rw [size, size, size, instrs_apply, instrs_apply, instrs_apply, instrs_append,
    List.flatMap_append, List.length_append]

@[simp] theorem size_cons_instr (i : Instr) (items : List Item) :
    asg.size (.instr i :: items) = (asg.expand i).length + asg.size items := by
  rw [size, size, instrs_apply, instrs_apply, instrs_cons_instr, List.flatMap_cons,
    List.length_append]

end Assignment

namespace Image

/-- From `s` the program goes to an error exit. Until it is there it carries out operations in
`inside` only and touches bytes in `clear` only, and neither memory nor what has been printed
changes. At the exit it prints the text at `message` and a line feed and ends with the code. -/
def Fails (img : Image) (inside : Nat → Prop) (clear : Addr → Prop) (name : Label) (code : Int32)
    (message : Addr) (s : State) : Prop :=
  (∃ n t, Walk img (Safe img inside clear) n s t ∧ img.label? name.name = some t.pc ∧
    t.memory = s.memory ∧ t.stdout = s.stdout) ∧
  (State.nullPage ≤ message → ∃ t, Ends img s code t ∧ t.memory = s.memory ∧
    t.stdout = s.stdout ++ (s.memory.cstring message ++ "\n"))

theorem EndsAt.fails {img : Image} {payload : Int32} {e : ErrorExit} (h : img.EndsAt payload e)
    {inside : Nat → Prop} {clear : Addr → Prop} {n : Nat} {s t : State} {rs : List Reg}
    (hw : Walk img (Safe img inside clear) n s t) (hdiffers : s.Differs rs t)
    (hpc : img.label? e.name.name = some t.pc) :
    img.Fails inside clear e.name e.code (img.messageAt payload e.message) s := by
  obtain ⟨addr, haddr, hends⟩ := h
  cases hpc.symm.trans haddr
  refine ⟨⟨n, t, hw, hpc, hdiffers.memory, hdiffers.stdout⟩, fun hvalid => ?_⟩
  obtain ⟨t', ⟨j, hs, hx⟩, hm, hout⟩ := hends t rfl hvalid
  exact ⟨t', ⟨_, hw.steps.trans hs, hx⟩, hm.trans hdiffers.memory,
    hout.trans (by rw [hdiffers.stdout, hdiffers.memory])⟩

/-- The items at `k` let references pass but for the one that is zero: this ends the program. -/
structure ChecksNone (img : Image) (asg : Assignment) (message : Addr) (k : Nat)
    (items : List Item) (v : Nat) : Prop where
  isNone {s : State} (hpc : s.pc = pcOf k) (hslots : asg.ValidSlots (s.reg .fp))
    (h : asg.read s (.virt v) = 0) :
    img.Fails (asg.Own k items) (asg.Slots (s.reg .fp)) Routine.errorNone 4 message s
  isSome {s : State} (hpc : s.pc = pcOf k) (hslots : asg.ValidSlots (s.reg .fp))
    (h : asg.read s (.virt v) ≠ 0) :
    ∃ n s', Walk img (Safe img (asg.Own k items) (asg.Slots (s.reg .fp))) n s s' ∧
      s'.pc = pcOf (k + asg.size items) ∧ s.Differs [.t5, .t6] s'

/-- The items at `k` let an index pass that is in range, and do to the element what `Does` says.
They touch the size word, the element, which lies within the payload, and spilled temporaries. An
index that is out of range ends the program before an element is touched. -/
structure ChecksIndex (img : Image) (asg : Assignment) (message : Addr) (w : Width) (k : Nat)
    (items : List Item) (v i : Nat) (Does : Addr → State → State → Prop) : Prop where
  inRange {s : State} {n : Nat} (hpc : s.pc = pcOf k) (hslots : asg.ValidSlots (s.reg .fp))
    (hseq : s.memory.SequenceAt w (asg.read s (.virt v)) n) (h : InRange (asg.read s (.virt i)) n) :
    ∃ e : Addr, e.toNat = (asg.read s (.virt v)).toUInt32.toNat +
        w.size * (asg.read s (.virt i)).toInt.toNat ∧
      (∀ b, w.Bytes e b → (asg.read s (.virt v)).toUInt32.toNat ≤ b.toNat ∧
        b.toNat < (asg.read s (.virt v)).toUInt32.toNat + w.size * n) ∧
      ∃ j s', Walk img (Safe img (asg.Own k items) fun b =>
          asg.GuardBytes (s.reg .fp) (asg.read s (.virt v)) b ∨ w.Bytes e b) j s s' ∧
        s'.pc = pcOf (k + asg.size items) ∧ Does e s s'
  outOfRange {s : State} {n : Nat} (hpc : s.pc = pcOf k) (hslots : asg.ValidSlots (s.reg .fp))
    (hseq : s.memory.SequenceAt w (asg.read s (.virt v)) n) (h :
      ¬ InRange (asg.read s (.virt i)) n) :
    img.Fails (asg.Own k items) (asg.GuardBytes (s.reg .fp) (asg.read s (.virt v)))
      Routine.errorOob 3
      message s

end Image

/-- After the guard, items that do something to the element. -/
def Assignment.Accesses (asg : Assignment) (img : Image) (w : Width) (items : List Item) (v i : Nat)
    (Does : Addr → State → State → Prop) : Prop :=
  ∀ ⦃inside : Nat → Prop⦄ ⦃clear : Addr → Prop⦄ ⦃k n : Nat⦄ ⦃s t : State⦄,
    asg.ValidSlots (s.reg .fp) → (∀ b, asg.Slots (s.reg .fp) b → clear b) →
    s.memory.SequenceAt w (asg.read s (.virt v)) n → InRange (asg.read s (.virt i)) n →
    (∀ b, w.Bytes (w.elementAt (asg.read s (.virt v)) (asg.read s (.virt i)).toInt.toNat) b →
      clear b) →
    s.Differs [.t0, .t5, .t6] t → asg.Stands img inside (s.reg .fp) k items t →
    ∃ j s', Walk img (Safe img inside clear) j t s' ∧ s'.pc = pcOf (k + asg.size items) ∧
      Does (w.elementAt (asg.read s (.virt v)) (asg.read s (.virt i)).toInt.toNat) s s'

/-- The items of the bounds check. -/
def Env.boundsItems (env : Env) (v i : Nat) : List Item :=
  [.instr ⟨.lw .t0 (.virt v) Object.sizeOffset, if env.comments then some "length" else none⟩,
    .op (.bgeu (.virt i) .t0 Routine.errorOob)]

section Guards

variable {asg : Assignment} {pool : List PhysReg} {img : Image} {inside : Nat → Prop}
  {m : Routine.Messages} {payload : Int32} {k v i : Nat}

/-- Items over locations, with the places that are their own. -/
theorem Image.Holds.own {items : List Item} (h : img.Holds inside k (asg.apply items)) :
    img.Holds (asg.Own k items) k (asg.apply items) :=
  h.within fun _ hle hlt => ⟨hle, hlt⟩

theorem Image.Holds.checksNone {c : Option String} (w : asg.WellPlaced pool) (hfit : img.Unwrapped)
    (hexit : img.EndsAt payload (.onNone m))
    (h : img.Holds inside k (asg.apply [.instr ⟨.beqz (.virt v) Routine.errorNone, c⟩])) :
    img.ChecksNone asg (img.messageAt payload m.onNone) k
      [.instr ⟨.beqz (.virt v) Routine.errorNone, c⟩] v := by
  obtain ⟨a, ha, -⟩ := id hexit
  have hl : find img.labels Routine.errorNone.name = .ok a := find_eq_ok_iff.mpr ha
  -- The branch is taken if the reference is zero.
  have hbranch {s : State} (hpc : s.pc = pcOf k) (hslots : asg.ValidSlots (s.reg .fp)) :=
    Assignment.Stands.branch (o := .beqz (.virt v) Routine.errorNone) (a := a)
      (x := asg.read s (.virt v) == 0) w hfit hslots (fun _ hb => hb) ⟨hpc, h.own, rfl⟩ rfl rfl
      fun t src hreads => by
        refine ⟨.branchZero .eq (src (.virt v)) a, ?_, ?_, fun _ => id⟩
        · show (find img.labels Routine.errorNone.name).map _ = _
          rw [hl]
          rfl
        · rw [State.exec, hreads (.virt v) List.mem_cons_self]
          rfl
  refine ⟨fun {s} hpc hslots hzero => ?_, fun {s} hpc hslots hne => ?_⟩
  · obtain ⟨n, s', hw, hdiffers, htaken, -⟩ := hbranch hpc hslots
    exact hexit.fails hw hdiffers (htaken (beq_iff_eq.mpr hzero) ▸ ha)
  · obtain ⟨n, s', hw, hdiffers, -, hon⟩ := hbranch hpc hslots
    refine ⟨n, s', hw, ?_, hdiffers⟩
    rw [(hon (beq_eq_false_iff_ne.mpr hne)).pc, asg.size_cons_instr]
    rfl

/-- A guarded access: the guard, and what comes after it. -/
theorem Image.Holds.checksIndex {width : Width} {env : Env} {items : List Item}
    {Does : Addr → State → State → Prop} (w : asg.WellPlaced pool) (hfit : img.Unwrapped)
    (hexit : img.EndsAt payload (.bounds m))
    (h : img.Holds inside k (asg.apply (env.boundsItems v i ++ items)))
    (haccess : asg.Accesses img width items v i Does) :
    img.ChecksIndex asg (img.messageAt payload m.bounds) width k (env.boundsItems v i ++ items) v i
      Does := by
  obtain ⟨a, ha, -⟩ := id hexit
  have hl : find img.labels Routine.errorOob.name = .ok a := find_eq_ok_iff.mpr ha
  refine ⟨fun {s n} hpc hslots hseq hin => ?_, fun {s n} hpc hslots hseq hout => ?_⟩
  -- The index passes, and the access begins where the guard ends.
  · refine ⟨_, (hseq.toNat_elementAt hin).1, fun b hb => hseq.element_inside hin hb, ?_⟩
    have hclear : ∀ b, asg.GuardBytes (s.reg .fp) (asg.read s (.virt v)) b →
      (asg.GuardBytes (s.reg .fp)
        (asg.read s (.virt v)) b ∨ width.Bytes (width.elementAt (asg.read s (.virt v))
          (asg.read s (.virt i)).toInt.toNat) b) := fun _ => .inl
    obtain ⟨j, t, hw, hdiffers, -, hon⟩ := Assignment.Stands.bounds w hfit hslots
      (fun b hb => hclear b (.inl hb)) ⟨hpc, h.own, rfl⟩ hseq (fun b hb => hclear b (.inr hb)) hl
    obtain ⟨j', s', hw', hpc', hdoes⟩ := haccess hslots (fun b hb => hclear b (.inl hb)) hseq hin
      (fun _ => .inr) hdiffers (hon hin)
    refine ⟨_, s', hw.trans hw', ?_, hdoes⟩
    rw [hpc', asg.size_append, Env.boundsItems, asg.size_cons_instr, Item.op, asg.size_cons_instr,
      asg.size_nil, Nat.add_zero, ← Nat.add_assoc, ← Nat.add_assoc]
  -- The guard has read the size word and goes to the exit.
  · have hclear : ∀ b, asg.Slots (s.reg .fp) b →
        asg.GuardBytes (s.reg .fp) (asg.read s (.virt v)) b :=
      fun _ => .inl
    obtain ⟨j, t, hw, hdiffers, htaken, -⟩ := Assignment.Stands.bounds w hfit hslots hclear
      ⟨hpc, h.own, rfl⟩ hseq (fun _ => .inr) hl
    exact hexit.fails hw hdiffers (htaken hout ▸ ha)

/-! ## Reads and stores of elements -/

/-- The items that let `t0` point to an element of a list. -/
def elementItems (v i : Nat) : List Item :=
  [.op (.slli .t0 (.virt i) Op.wordShift), .op (.add .t0 (.virt v) .t0)]

/-- An element of a list is read into the temporary of the list. -/
theorem Assignment.WellPlaced.accesses_read (w : asg.WellPlaced pool) (hfit : img.Unwrapped)
    (v i : Nat) :
    asg.Accesses img .word (elementItems v i ++ [.op (.lw (.virt v) .t0 0)]) v i fun e s s' =>
      asg.Delivers (s.reg .fp) v (s.memory.readWord e) s s' := by
  intro inside clear k n s t hvalid hslots hseq hin hclear hdiffers h
  -- The operands are those from before the guard, which has only used `t0` and scratch registers.
  obtain ⟨j₁, t₁, hw₁, hdiffers₁, haddr, h₁⟩ := h.elementAddr w hfit hvalid hslots
  rw [read_of_differs w (by decide) hdiffers, read_of_differs w (by decide) hdiffers] at haddr
  obtain ⟨j₂, t₂, hw₂, h₂, hd⟩ := h₁.load w hfit hvalid hslots rfl
    (by rw [show asg.read t₁ .t0 = t₁.reg .t0 from rfl, haddr, hseq.word_addr hin])
    (hseq.element_valid hin) hclear
  have hall := hdiffers.trans hdiffers₁
  refine ⟨_, t₂, hw₁.trans hw₂, ?_, ?_⟩
  · rw [h₂.pc]
    simp [elementItems, Item.op, Nat.add_assoc]
  · rw [hall.memory] at hd
    exact ⟨hd.value, fun b hb => (hd.memory b hb).trans (by rw [hall.memory]),
      hd.brk.trans hall.brk, hd.stdout.trans hall.stdout⟩

/-- An element of a list gets the word of a temporary. -/
theorem Assignment.WellPlaced.accesses_store (w : asg.WellPlaced pool) (hfit : img.Unwrapped)
    (r v i : Nat) :
    asg.Accesses img .word (elementItems v i ++ [.op (.sw (.virt r) .t0 0)]) v i fun e s s' =>
      s'.memory = s.memory.writeWord e (asg.read s (.virt r)) ∧ s'.stdout = s.stdout ∧
        s'.brk = s.brk := by
  intro inside clear k n s t hvalid hslots hseq hin hclear hdiffers h
  obtain ⟨j₁, t₁, hw₁, hdiffers₁, haddr, h₁⟩ := h.elementAddr w hfit hvalid hslots
  have hall := hdiffers.trans hdiffers₁
  rw [read_of_differs w (by decide) hdiffers, read_of_differs w (by decide) hdiffers] at haddr
  obtain ⟨j₂, t₂, hw₂, h₂, hmemory, hstdout, hbrk, -⟩ := h₁.store w hfit hvalid hslots rfl
    (by rw [show asg.read t₁ .t0 = t₁.reg .t0 from rfl, haddr, hseq.word_addr hin])
    (hseq.element_valid hin) hclear
  refine ⟨_, t₂, hw₁.trans hw₂, ?_, ?_, hstdout.trans hall.stdout, hbrk.trans hall.brk⟩
  · rw [h₂.pc]
    simp [elementItems, Item.op, Nat.add_assoc]
  · rw [hmemory, hall.memory, read_of_differs w (by decide) hall]

/-- A byte of a string is read into `a0`. -/
theorem Assignment.WellPlaced.accesses_byte (w : asg.WellPlaced pool) (hfit : img.Unwrapped)
    (v i : Nat) :
    asg.Accesses img .byte [.op (.add .t0 (.virt v) (.virt i)), .op (.lbu .a0 .t0 0)] v i
      fun e s s' =>
      s'.reg .a0 = (s.memory.read e).toUInt32.toInt32 ∧ s.Differs [.a0, .t0, .t5, .t6] s' := by
  intro inside clear k n s t hvalid hslots hseq hin hclear hdiffers h
  obtain ⟨j₁, t₁, hw₁, h₁, hdiffers₁, haddr⟩ := h.put w hfit hvalid hslots
    (x := asg.read s (.virt v) + asg.read s (.virt i)) rfl rfl (by decide) fun t' src _ hreads => by
      refine ⟨_, rfl, ?_, fun _ => False.elim⟩
      rw [State.exec, hreads (.virt v) List.mem_cons_self,
        hreads (.virt i) (List.mem_cons_of_mem _ List.mem_cons_self),
        read_of_differs w (by decide) hdiffers, read_of_differs w (by decide) hdiffers]
      rfl
  obtain ⟨j₂, t₂, hw₂, h₂, hdiffers₂, hbyte⟩ := h₁.fetch w hfit hvalid hslots rfl (by decide)
    (by rw [show asg.read t₁ .t0 = t₁.reg .t0 from rfl, haddr, hseq.byte_addr hin])
    (hseq.element_valid hin) hclear
  have hall := hdiffers.trans hdiffers₁
  refine ⟨_, t₂, hw₁.trans hw₂, ?_, ?_, ?_⟩
  · rw [h₂.pc]
    simp [Item.op, Nat.add_assoc]
  · rw [hall.memory] at hbyte
    exact hbyte
  · exact (hall.mono (by decide)).trans (hdiffers₂.mono (by decide))

end Guards

end ChocoRV
