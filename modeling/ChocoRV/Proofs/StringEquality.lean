import Mathlib
import ChocoRV.Proofs.IndexGuards
import ChocoRV.Proofs.Routine.Loops

/-!
# String equality

The routine that compares strings first compares their lengths, and then byte by byte until two of
them differ or none is left. So it decides equality of the byte sequences, whatever bytes they
consist of. A comparison in a program calls it, wherever the temporaries of its operands are, and
turns the answer around for `!=`.
-/

namespace ChocoRV

open Assembly Image

/-! ## Strings in memory -/

/-- A string of these bytes: they begin where the reference points, and their number is in the size
word. -/
structure Memory.StringAt (m : Memory) (q : Int32) (bytes : List UInt8) : Prop where
  sequence : m.SequenceAt .byte q bytes.length
  payload : m.elements .byte q.toUInt32 bytes.length = bytes.map (·.toUInt32.toInt32)

/-- Strings of one length are equal if their elements are. -/
theorem Memory.StringAt.elements_eq_iff {m : Memory} {q q' : Int32} {bytes bytes' : List UInt8}
    (h : m.StringAt q bytes) (h' : m.StringAt q' bytes') (hlength : bytes.length = bytes'.length) :
    m.elements .byte q.toUInt32 bytes.length = m.elements .byte q'.toUInt32 bytes.length ↔
      bytes = bytes' := by
  rw [h.payload, hlength, h'.payload]
  exact (List.map_injective_iff.mpr toInt32_toUInt32_injective).eq_iff

/-! ## The routine -/

namespace Routine

/-- The answer to a comparison. -/
def answerItems (n : Int32) : List Item := [.op (.li .a0 n), .op (.jumpReg .ra)]

/-- Compare bytes until `t0` is zero. -/
def compareLoop : List Item :=
  .label (loc streql 0) :: .op (.beqz .t0 (loc streql 1)) ::
    .op (.lbu .t2 .a0 0) :: .op (.lbu .t3 .a1 0) :: .op (.bne .t2 .t3 (loc streql 2)) ::
      .op (.addi .a0 .a0 1) :: .op (.addi .a1 .a1 1) :: .op (.addi .t0 .t0 (-1)) ::
        .op (.jump (loc streql 0)) ::
          (.label (loc streql 1) :: (answerItems 1 ++ .label (loc streql 2) :: answerItems 0))

/-- All that the routine changes. -/
def compareRegs : List Reg := [.a0, .a1, .t0, .t1, .t2, .t3]

end Routine

/-- The routine has gone back with an answer and changed nothing else. -/
structure State.Answers (s : State) (answer : Bool) (s' : State) : Prop extends
    s.Differs Routine.compareRegs s' where
  pc : s'.pc = (s.reg .ra).toUInt32
  value : s'.reg .a0 = boolWord answer

theorem State.Answers.of_differs {s t s' : State} {answer : Bool} (h : t.Answers answer s')
    (hdiffers : s.Differs Routine.compareRegs t) : s.Answers answer s' :=
  ⟨hdiffers.trans h.toDiffers, by rw [h.pc, hdiffers.regs .ra (by decide)], h.value⟩

namespace Image.At

variable {img : Image} {inside : Nat → Prop} {k n : Nat} {s : State} {rest : List Item}

/-- An answer is put in `a0`, and the routine goes back. -/
theorem answers (himg : img.Unwrapped) {answer : Bool}
    (h : img.At inside k (Routine.answerItems (boolWord answer) ++ rest) s) :
    ∃ s', img.Comes inside s s' ∧ s.Answers answer s' := by
  obtain ⟨hc, hat⟩ := h.perform himg rfl trivial
  refine ⟨_, hc.trans (hat.ret himg), ?_, by simp, by simp⟩
  exact (State.Differs.put (by decide) s _).trans (.goto _ _)

/-- One turn of the loop ends the comparison at bytes that differ, or goes on with those after
them. -/
theorem compareTurn (himg : img.Unwrapped) (h : img.At inside k Routine.compareLoop s)
    (hcount : s.reg .t0 ≠ 0) (hleft : State.nullPage ≤ (s.reg .a0).toUInt32)
    (hright : State.nullPage ≤ (s.reg .a1).toUInt32) :
    (Width.byte.read s.memory (s.reg .a0).toUInt32 ≠ Width.byte.read s.memory (s.reg .a1).toUInt32 →
      ∃ s', img.Comes inside s s' ∧ s.Answers false s') ∧
    (Width.byte.read s.memory (s.reg .a0).toUInt32 = Width.byte.read s.memory (s.reg .a1).toUInt32 →
      ∃ s', img.Comes inside s s' ∧ img.At inside k Routine.compareLoop s' ∧
        s.Differs Routine.compareRegs s' ∧ s'.reg .a0 = s.reg .a0 + 1 ∧ s'.reg .a1 = s.reg .a1 + 1 ∧
        s'.reg .t0 = s.reg .t0 + -1) := by
  obtain ⟨htop, -, -, -, -, -, -, -, -, -, hrest⟩ := h.code
  obtain ⟨-, hdiffer, hno⟩ := holds_append.mp hrest
  let loads : List Instr := [⟨.lbu .t2 .a0 0, none⟩, ⟨.lbu .t3 .a1 0, none⟩]
  let next : List Instr := [⟨.addi .a0 .a0 1, none⟩, ⟨.addi .a1 .a1 1, none⟩,
    ⟨.addi .t0 .t0 (-1), none⟩]
  obtain ⟨hc₁, h₁⟩ := h.label.skipZero himg (beq_eq_false_iff_ne.mpr hcount)
  obtain ⟨hc₂, h₂⟩ := h₁.straight himg loads rfl (by simp [loads, hleft, hright])
  obtain ⟨t, htdef⟩ : ∃ t, t = img.performs loads s.skip := ⟨_, rfl⟩
  rw [← htdef] at hc₂ h₂
  have ht2 : t.reg .t2 = Width.byte.read s.memory (s.reg .a0).toUInt32 := by simp [htdef, loads]
  have ht3 : t.reg .t3 = Width.byte.read s.memory (s.reg .a1).toUInt32 := by simp [htdef, loads]
  have ht : s.Differs Routine.compareRegs t := by
    refine ⟨?_, by simp [htdef, loads], by simp [htdef], by simp [htdef]⟩
    rw [htdef]
    exact keeps_performs (by simp [loads, Routine.compareRegs]) s.skip
  refine ⟨fun hbyte => ?_, fun hbyte => ?_⟩
  · have hc₃ := h₂.branch himg hdiffer (bne_iff_ne.mpr (by rwa [ht2, ht3]))
    have hat : img.At inside _ (Routine.answerItems (boolWord false) ++ []) (t.goto _) := ⟨hno, rfl⟩
    obtain ⟨s', hc₄, hanswers⟩ := hat.answers himg
    exact ⟨s', hc₁.trans (hc₂.trans (hc₃.trans hc₄)), hanswers.of_differs (ht.trans (.goto t _))⟩
  · obtain ⟨hc₃, h₃⟩ := h₂.skip himg (bne_eq_false_iff_eq.mpr (by rw [ht2, ht3, hbyte]))
    obtain ⟨hc₄, h₄⟩ := h₃.straight himg next rfl (by simp [next])
    have hnext : t.Differs Routine.compareRegs (img.performs next t.skip) := by
      refine ⟨?_, by simp [next], by simp, by simp⟩
      exact keeps_performs (by simp [next, Routine.compareRegs]) t.skip
    refine ⟨_, hc₁.trans (hc₂.trans (hc₃.trans (hc₄.trans (h₄.jump himg htop)))), ⟨h.code, rfl⟩,
      ht.trans (hnext.trans (.goto _ _)), ?_, ?_, ?_⟩ <;> simp [next, htdef, loads]

/-- The loop compares `n` bytes. -/
theorem compares (himg : img.Unwrapped) (h : img.At inside k Routine.compareLoop s) {answer : Bool}
    (hn : n < 4294967296) (hcount : s.reg .t0 = Int32.ofNat n)
    (hleft : Width.byte.Valid (s.reg .a0).toUInt32 n)
    (hright : Width.byte.Valid (s.reg .a1).toUInt32 n)
    (hanswer : answer = true ↔ s.memory.elements .byte (s.reg .a0).toUInt32 n =
      s.memory.elements .byte (s.reg .a1).toUInt32 n) :
    ∃ s', img.Comes inside s s' ∧ s.Answers answer s' := by
  induction n generalizing s with
  | zero =>
    -- No byte is left.
    obtain ⟨-, -, -, -, -, -, -, -, -, hequal, hrest⟩ := h.code
    obtain rfl : answer = true := hanswer.mpr rfl
    have hc := h.label.branchZero himg hequal (beq_iff_eq.mpr hcount)
    have hat : img.At inside _ (Routine.answerItems (boolWord true) ++ _) (s.goto _) := ⟨hrest, rfl⟩
    obtain ⟨s', hc', hanswers⟩ := hat.answers himg
    exact ⟨s', hc.trans hc', hanswers.of_differs (.goto s _)⟩
  | succ n ih =>
    rw [Memory.elements_succ, Memory.elements_succ, List.cons_eq_cons] at hanswer
    obtain ⟨hends, hgoes⟩ := h.compareTurn himg (hcount ▸ ofNat_succ_ne_zero hn) hleft.first
      hright.first
    by_cases hbyte : Width.byte.read s.memory (s.reg .a0).toUInt32 =
        Width.byte.read s.memory (s.reg .a1).toUInt32
    · obtain ⟨t, hc, hat, hdiffers, ht0, ht1, htcount⟩ := hgoes hbyte
      have hleft' : (t.reg .a0).toUInt32 = (s.reg .a0).toUInt32 + UInt32.ofNat Width.byte.size := by
        rw [ht0]
        rfl
      have hright' : (t.reg .a1).toUInt32 = (s.reg .a1).toUInt32 +
          UInt32.ofNat Width.byte.size := by
        rw [ht1]
        rfl
      obtain ⟨s', hc', hanswers⟩ :=
        ih hat (by omega) (by rw [htcount, hcount, ofNat_succ_add_neg_one])
        (hleft' ▸ hleft.others) (hright' ▸ hright.others)
        (by rw [hleft', hright', hdiffers.memory, hanswer, and_iff_right hbyte])
      exact ⟨s', hc.trans hc', hanswers.of_differs hdiffers⟩
    · obtain rfl : answer = false := Bool.eq_false_iff.mpr fun he => hbyte (hanswer.mp he).1
      exact hends hbyte

end Image.At

section Routine

variable {img : Image} {inside : Nat → Prop} {k : Nat} {s : State} {bytes bytes' : List UInt8}

/-- The size words differ if the lengths do. -/
theorem ofNat_eq_ofNat_iff {m n : Nat} (hm : m < 2147483648) (hn : n < 2147483648) :
    Int32.ofNat m = Int32.ofNat n ↔ m = n := by
  rw [← Int32.toInt_inj, Int32.toInt_ofNat_of_lt hm, Int32.toInt_ofNat_of_lt hn, Int.natCast_inj]

/-- A string has valid bytes. -/
theorem Memory.StringAt.valid {m : Memory} {q : Int32} (h : m.StringAt q bytes) :
    Width.byte.Valid q.toUInt32 bytes.length :=
  .of_le (Nat.le_trans (Nat.le_add_right _ 4) h.sequence.header) h.sequence.payload

/-- From its label the routine decides whether two strings are equal. -/
theorem Image.Holds.streql (himg : img.Unwrapped) (h : img.Holds inside k Routine.streqlItems)
    (hpc : s.pc = pcOf k) (hleft : s.memory.StringAt (s.reg .a0) bytes)
    (hright : s.memory.StringAt (s.reg .a1) bytes') :
    ∃ s', img.Comes inside s s' ∧ s.Answers (decide (bytes = bytes')) s' := by
  let sizes : List Instr := [⟨.lw .t0 .a0 Object.sizeOffset, none⟩,
    ⟨.lw .t1 .a1 Object.sizeOffset, none⟩]
  have hat : img.At inside k (.label Routine.streql :: (sizes.map .instr ++
      .op (.bne .t0 .t1 (Routine.loc Routine.streql 2)) :: Routine.compareLoop)) s := ⟨h, hpc⟩
  obtain ⟨hc₁, h₁⟩ := hat.label.straight himg sizes rfl (by
    simp [sizes, hleft.sequence.size_valid, hright.sequence.size_valid, -Int32.toUInt32_add])
  obtain ⟨t, htdef⟩ : ∃ t, t = img.performs sizes s := ⟨_, rfl⟩
  rw [← htdef] at hc₁ h₁
  have ht0 : t.reg .t0 = Int32.ofNat bytes.length := by
    simp [htdef, sizes, Width.read, hleft.sequence.size, -Int32.toUInt32_add]
  have ht1 : t.reg .t1 = Int32.ofNat bytes'.length := by
    simp [htdef, sizes, Width.read, hright.sequence.size, -Int32.toUInt32_add]
  have ht : s.Differs Routine.compareRegs t := by
    refine ⟨?_, by simp [htdef, sizes], by simp [htdef], by simp [htdef]⟩
    rw [htdef]
    exact keeps_performs (by simp [sizes, Routine.compareRegs]) s
  have hlength := hleft.sequence.length
  have hlength' := hright.sequence.length
  by_cases hne : bytes.length = bytes'.length
  · obtain ⟨hc₂, h₂⟩ := h₁.skip himg (bne_eq_false_iff_eq.mpr (by rw [ht0, ht1, hne]))
    have ha0 : t.skip.reg .a0 = s.reg .a0 := by simp [htdef, sizes]
    have ha1 : t.skip.reg .a1 = s.reg .a1 := by simp [htdef, sizes]
    have hm : t.skip.memory = s.memory := by simp [htdef, sizes]
    have hanswer : decide (bytes = bytes') = true ↔
        t.skip.memory.elements .byte (t.skip.reg .a0).toUInt32 bytes.length =
          t.skip.memory.elements .byte (t.skip.reg .a1).toUInt32 bytes.length := by
      rw [ha0, ha1, hm, decide_eq_true_iff, hleft.elements_eq_iff hright hne]
    obtain ⟨s', hc₃, hanswers⟩ := h₂.compares himg (by omega) ht0 (ha0 ▸ hleft.valid)
      (ha1 ▸ hne ▸ hright.valid) hanswer
    exact ⟨s', hc₁.trans (hc₂.trans hc₃), hanswers.of_differs (ht.trans (.goto t _))⟩
  · obtain ⟨-, -, -, -, -, -, -, -, -, -, hrest⟩ := h₁.code.2
    obtain ⟨-, hdiffer, hno⟩ := holds_append.mp hrest
    have hc₂ := h₁.branch himg hdiffer (bne_iff_ne.mpr (by
      rw [ht0, ht1, ne_eq, ofNat_eq_ofNat_iff hlength hlength']
      exact hne))
    have hat : img.At inside _ (Routine.answerItems (boolWord false) ++ []) (t.goto _) := ⟨hno, rfl⟩
    obtain ⟨s', hc₃, hanswers⟩ := hat.answers himg
    rw [decide_eq_false fun he => hne (congrArg List.length he)]
    exact ⟨s', hc₁.trans (hc₂.trans hc₃), hanswers.of_differs (ht.trans (.goto t _))⟩

end Routine

/-! ## Comparisons in programs -/

/-- The items of a comparison of the strings in two temporaries; the answer takes the place of the
first one. -/
def compareItems (l r : Nat) (negated : Bool) : List Item :=
  .op (.mv .a0 (.virt l)) :: .op (.mv .a1 (.virt r)) :: .op (.call Routine.streql) ::
    .op (.mv (.virt l) .a0) :: if negated then [.op (.xori (.virt l) (.virt l) 1)] else []

/-- The items at `k` compare the strings in two temporaries. -/
def Image.ComparesStrings (img : Image) (asg : Assignment) (k : Nat) (items : List Item) (l r : Nat)
    (negated : Bool) : Prop :=
  ∀ (s : State) (bytes bytes' : List UInt8), s.pc = pcOf k → asg.ValidSlots (s.reg .fp) →
    s.memory.StringAt (asg.read s (.virt l)) bytes →
      s.memory.StringAt (asg.read s (.virt r)) bytes' →
    ∃ n s', Steps img n s s' ∧ s'.pc = pcOf (k + asg.size items) ∧
      asg.Delivers (s.reg .fp) l (boolWord (decide (bytes = bytes') != negated)) s s'

namespace Env

open Draft

variable {env : Env} {st st' : Draft.State} {items : List Item} {u : Unit} {result : Reg}

theorem writes_callRoutine_iff {routine : Label} {l r : Nat} :
    (callRoutine routine (.virt l) (.virt r)).Writes st items st' u ↔
      st' = st ∧ items = [.op (.mv .a0 (.virt l)), .op (.mv .a1 (.virt r)), .op (.call routine),
        .op (.mv (.virt l) .a0)] := by
  rw [callRoutine, writes_emit_bind_iff]
  simp only [writes_emit_bind_iff, writes_emit_iff]
  constructor
  · rintro ⟨_, ⟨_, ⟨_, ⟨rfl, rfl⟩, rfl⟩, rfl⟩, rfl⟩
    exact ⟨rfl, rfl⟩
  · rintro ⟨rfl, rfl⟩
    exact ⟨_, ⟨_, ⟨_, ⟨rfl, rfl⟩, rfl⟩, rfl⟩, rfl⟩

/-- The operator of a comparison for equality or, negated, for the contrary. -/
def compareOp : Bool → BinOp
  | false => .eq
  | true => .ne

theorem writes_applyOp_compare {info : ExprInfo} {left right : ValueType} {l r : Nat}
    {negated : Bool} (hstr : left.isStr = true)
    (h : (env.applyOp info (compareOp negated) left right (.virt l) (.virt r)).Writes st
    items st' u) :
    st' = st ∧ items = compareItems l r negated := by
  cases negated with
  | false =>
    rw [compareOp, applyOp, if_pos hstr] at h
    exact writes_callRoutine_iff.mp h
  | true =>
    rw [compareOp, applyOp, if_pos hstr] at h
    obtain ⟨_, _, _, _, hcall, hxor, rfl⟩ := writes_bind_iff.mp h
    obtain ⟨rfl, rfl⟩ := writes_callRoutine_iff.mp hcall
    obtain ⟨rfl, rfl⟩ := writes_emit_iff.mp hxor
    exact ⟨rfl, rfl⟩

/-- The code of a comparison of strings: that of the operands, and then the comparison. -/
theorem writes_stringComparison {info : ExprInfo} {left right : Expr} {negated : Bool}
    (hstr : left.type.isStr = true)
    (h : (env.expr (.binary info left (compareOp negated) right)).Writes st items st' result) :
    ∃ l r leftItems rightItems st₁ st₂, (env.expr left).Writes st leftItems st₁ (.virt l) ∧
      (env.expr right).Writes st₁ rightItems st₂ (.virt r) ∧
      (∀ i ∈ instrs rightItems, i.op.def? ≠ some (.virt l)) ∧
      items = leftItems ++ (rightItems ++ compareItems l r negated) ∧ result = .virt l := by
  have hexpr : env.expr (.binary info left (compareOp negated) right) = (do
      let l ← env.expr left
      let r ← env.expr right
      env.applyOp info (compareOp negated) left.type right.type l r
      release r
      return l : Draft .virtual Reg) := by
    cases negated <;> rw [compareOp, expr] <;> rintro ⟨⟩
  rw [hexpr] at h
  obtain ⟨leftItems, st₁, _, _, hleft, hrest, rfl⟩ := writes_bind_iff.mp h
  obtain ⟨l, rfl, hl⟩ := writes_expr_virt hleft
  obtain ⟨rightItems, st₂, _, _, hright, happly, rfl⟩ := writes_bind_iff.mp hrest
  obtain ⟨r, rfl, -⟩ := writes_expr_virt hright
  obtain ⟨_, _, _, _, hcompare, hrelease, rfl⟩ := writes_bind_iff.mp happly
  obtain ⟨rfl, rfl⟩ := writes_applyOp_compare hstr hcompare
  have hpure := writes_release_bind_iff.mp hrelease
  obtain ⟨-, rfl, rfl⟩ := writes_pure_iff.mp hpure
  exact ⟨l, r, leftItems, rightItems, st₁, _, hleft, hright, writes_expr_keeps hright hl,
    by rw [List.append_nil], rfl⟩

end Env

section Compiled

variable {asg : Assignment} {pool : List PhysReg} {img : Image} {inside : Nat → Prop} {k : Nat}

/-- A word of a Boolean is turned around. -/
theorem xor_boolWord (b : Bool) : ImmOp.eval .xori (boolWord b) 1 = boolWord (!b) := by
  cases b <;> decide

/-- A call of the routine comes back with the answer. -/
theorem Assignment.Stands.callsStreql (himg : img.Unwrapped) {frame : Int32} {j : Nat}
    {rest : List Item} {s : State} {bytes bytes' : List UInt8}
    (hroutine : img.Holds (fun _ => True) j Routine.streqlItems)
    (h : asg.Stands img (fun _ => True) frame k (.op (.call Routine.streql) :: rest) s)
    (hleft : s.memory.StringAt (s.reg .a0) bytes) (hright : s.memory.StringAt (s.reg .a1) bytes') :
    ∃ s', img.Comes (fun _ => True) s s' ∧ asg.Stands img (fun _ => True) frame (k + 1) rest s' ∧
      s.Differs (.ra :: Routine.compareRegs) s' ∧
      s'.reg .a0 = boolWord (decide (bytes = bytes')) := by
  have hat : img.At (fun _ => True) k (.op (.call Routine.streql) :: asg.apply rest) s :=
    ⟨h.code, h.pc⟩
  let t := (s.setReg .ra (pcOf (k + 1)).toInt32).goto (pcOf j)
  have hcall : img.Comes (fun _ => True) s t := hat.call himg hroutine.1
  have hd : s.Differs (.ra :: Routine.compareRegs) t :=
    ⟨fun q hq => s.reg_setReg_of_ne _ fun e => hq (e ▸ List.mem_cons_self), rfl, rfl, rfl⟩
  have hra : t.reg .ra = (pcOf (k + 1)).toInt32 := by
    show (s.setReg .ra _).reg .ra = _
    exact s.reg_setReg_self _ (by decide)
  have hkept {q : Reg} (hq : q ≠ .ra) : t.reg q = s.reg q := s.reg_setReg_of_ne _ hq
  obtain ⟨s', hc, hanswers⟩ := hroutine.streql (s := t) himg rfl
    (by rw [hkept (by decide)]; exact hleft) (by rw [hkept (by decide)]; exact hright)
  have hd' : s.Differs (.ra :: Routine.compareRegs) s' :=
    hd.trans (hanswers.toDiffers.mono (List.subset_cons_self _ _))
  refine ⟨s', hcall.trans hc, ⟨?_, hat.code.2, ?_⟩, hd', hanswers.value⟩
  · rw [hanswers.pc, hra]
    rfl
  · rw [hd'.regs .fp (by decide), h.frame]

/-- The code of a comparison calls the routine with both strings, wherever the temporaries are. -/
theorem Image.Holds.comparesStrings (w : asg.WellPlaced pool) (himg : img.Unwrapped) {j l r : Nat}
    {negated : Bool} (hroutine : img.Holds (fun _ => True) j Routine.streqlItems)
    (h : img.Holds (fun _ => True) k (asg.apply (compareItems l r negated))) :
    img.ComparesStrings asg k (compareItems l r negated) l r negated := by
  intro s bytes bytes' hpc hvalid hleft hright
  have hslots : ∀ b, asg.Slots (s.reg .fp) b → (fun _ : Addr => True) b := fun _ _ => trivial
  have hstands : asg.Stands img (fun _ => True) (s.reg .fp) k (compareItems l r negated) s :=
    ⟨hpc, h, rfl⟩
  -- The references are passed.
  obtain ⟨n₁, s₁, hw₁, h₁, hd₁, ha0₁⟩ := hstands.put w himg hvalid hslots (p := .a0)
    (x := asg.read s (.virt l)) rfl rfl (by decide) fun t src _ hreads =>
      ⟨_, rfl, by rw [State.exec, hreads _ List.mem_cons_self]; rfl, fun _ => False.elim⟩
  have hr₁ : asg.read s₁ (.virt r) = asg.read s (.virt r) :=
    Assignment.read_of_differs w (by decide) hd₁ r
  obtain ⟨n₂, s₂, hw₂, h₂, hd₂, ha1₂⟩ := h₁.put w himg hvalid hslots (p := .a1)
    (x := asg.read s (.virt r)) rfl rfl (by decide) fun t src _ hreads =>
      ⟨_, rfl, by rw [State.exec, hreads _ List.mem_cons_self, hr₁]; rfl, fun _ => False.elim⟩
  have hd : s.Differs [.a0, .a1, .t5, .t6] s₂ := (hd₁.mono (by decide)).trans (hd₂.mono (by decide))
  obtain ⟨s₃, ⟨n₃, hw₃⟩, h₃, hd₃, ha0₃⟩ := h₂.callsStreql himg hroutine
    (by rwa [hd₂.regs _ (by decide), ha0₁, hd.memory]) (by rwa [ha1₂, hd.memory])
  -- The answer goes to the first temporary.
  obtain ⟨n₄, s₄, hw₄, h₄, hdel⟩ := h₃.result w himg hvalid hslots (v := l)
    (x := boolWord (decide (bytes = bytes'))) rfl rfl fun t src _ hreads => by
      have hread : t.reg (src .a0) = boolWord (decide (bytes = bytes')) :=
        (hreads .a0 List.mem_cons_self).trans ha0₃
      exact ⟨_, rfl, by rw [State.exec, hread]; rfl, fun _ => False.elim⟩
  have hdel' : asg.Delivers (s.reg .fp) l (boolWord (decide (bytes = bytes'))) s s₄ :=
    ⟨hdel.value, fun b hb => (hdel.memory b hb).trans (by rw [hd₃.memory, hd.memory]),
      hdel.brk.trans (hd₃.brk.trans hd.brk), hdel.stdout.trans (hd₃.stdout.trans hd.stdout)⟩
  have hsteps := (hw₁.trans (hw₂.trans (hw₃.trans hw₄))).steps
  have hcall : (asg.expand ⟨.call Routine.streql, none⟩).length = 1 := rfl
  cases negated with
  | false =>
    refine ⟨_, s₄, hsteps, ?_, by rwa [Bool.bne_false]⟩
    rw [h₄.pc]
    simp [compareItems, Item.op, hcall, Nat.add_assoc]
  | true =>
    obtain ⟨n₅, s₅, hw₅, h₅, hdel₅⟩ := h₄.result w himg hvalid hslots (v := l)
      (x := boolWord (!decide (bytes = bytes'))) rfl rfl fun t src _ hreads => by
        have hread : t.reg (src (.virt l)) = boolWord (decide (bytes = bytes')) :=
          (hreads _ List.mem_cons_self).trans hdel.value
        exact ⟨_, rfl, by rw [State.exec, hread, ← xor_boolWord], fun _ => False.elim⟩
    refine ⟨_, s₅, hsteps.trans hw₅.steps, ?_, ?_⟩
    · rw [h₅.pc]
      simp [compareItems, Item.op, hcall, Nat.add_assoc]
    · rw [Bool.bne_true]
      exact ⟨hdel₅.value, fun b hb => (hdel₅.memory b hb).trans (hdel'.memory b hb),
        hdel₅.brk.trans hdel'.brk,
        hdel₅.stdout.trans hdel'.stdout⟩

/-- The comparisons of strings in code that begins at instruction `k` of a program: they evaluate
the first operand and then the second one, which leaves the first as it is, and then compare. -/
def Image.Compares (img : Image) (asg : Assignment) (k : Nat) (items : List Item) : Prop :=
  ∀ (env : Env) (st st' : Draft.State) (info : ExprInfo) (left right : Expr) (negated :
    Bool) (result : Reg),
    left.type.isStr = true →
    (env.expr (.binary info left (Env.compareOp negated) right)).Writes st items st' result →
    ∃ l r leftItems rightItems compare st₁ st₂, items = leftItems ++ (rightItems ++ compare) ∧
      (env.expr left).Writes st leftItems st₁ (.virt l) ∧
      (env.expr right).Writes st₁ rightItems st₂ (.virt r) ∧
      (∀ i ∈ instrs rightItems, i.op.def? ≠ some (.virt l)) ∧ result = .virt l ∧
      img.ComparesStrings asg (k + asg.size leftItems + asg.size rightItems) compare l r negated

/-- Code with comparisons compares, wherever it stands. -/
theorem Image.CodeAt.compares (w : asg.WellPlaced pool) (himg : img.Unwrapped) {j : Nat}
    {items : List Item} (hroutine : img.Holds (fun _ => True) j Routine.streqlItems)
    (h : img.CodeAt k (instrs (asg.apply items))) : img.Compares asg k items := by
  intro env st st' info left right negated result hstr hwrites
  obtain ⟨l, r, leftItems, rightItems, st₁, st₂, hleft, hright, hkept, rfl, hresult⟩ :=
    Env.writes_stringComparison hstr hwrites
  refine ⟨l, r, leftItems, rightItems, _, st₁, st₂, rfl, hleft, hright, hkept, hresult, ?_⟩
  rw [Assignment.apply_append, Assignment.apply_append, instrs_append, instrs_append, codeAt_append,
    codeAt_append] at h
  -- A comparison has no labels.
  have hnone : Assembly.labels (compareItems l r negated) = [] := by cases negated <;> rfl
  exact Holds.comparesStrings w himg hroutine (h.2.2.holds hnone)

end Compiled

/-- **String equality.** In a compiled program the routine decides whether two strings have the same
bytes, and changes nothing but its answer and registers that callers save. So every comparison of
strings in every unit is equality of their bytes, or its negation. -/
theorem string_equality {p : Program} {settings : CodegenSettings} {a : Assembly} {img : Image}
    {init : State} (hcompile : compile p settings = .ok a) (hload : load a = .ok (img, init))
    (himg : img.Unwrapped) :
    (∀ (s : State) bytes bytes', img.label? Routine.streql.name = some s.pc →
      s.memory.StringAt (s.reg .a0) bytes → s.memory.StringAt (s.reg .a1) bytes' →
      ∃ n s', Steps img n s s' ∧ s.Answers (decide (bytes = bytes')) s') ∧
    ∃ table bodies payload, CompiledAs p settings a table bodies payload ∧
      ∀ ud b, (ud, b) ∈ (Function.programDrafts p settings.comments table).zip bodies →
        ∃ start, img.CodeAt start (instrs b.items) ∧
          (∃ asg : Assignment, asg.WellPlaced settings.pool ∧
            b.items = asg.apply (Body.draftItems ud.2.events)) ∧
          ∀ asg : Assignment, asg.WellPlaced settings.pool →
            b.items = asg.apply (Body.draftItems ud.2.events) →
            ∀ pre items post, Body.draftItems ud.2.events = pre ++ (items ++ post) →
              img.Compares asg (start + asg.size pre) items := by
  obtain ⟨table, bodies, payload, hc⟩ := compile_eq_ok hcompile
  obtain ⟨j, hroutine⟩ : ∃ j, img.Holds (fun _ => True) j Routine.streqlItems :=
    hc.holds_routine hload (by simp [Routine.parts])
  refine ⟨fun s bytes bytes' hpc hleft hright => ?_, table, bodies, payload, hc, fun ud b hb => ?_⟩
  · have hpc' : s.pc = pcOf j := Option.some.inj (hpc.symm.trans (find_eq_ok_iff.mp hroutine.1))
    obtain ⟨s', hcomes, hanswers⟩ := hroutine.streql himg hpc' hleft hright
    obtain ⟨n, hsteps⟩ := hcomes.steps
    exact ⟨n, s', hsteps, hanswers⟩
  · obtain ⟨start, hbody, hplaced, hparts⟩ := hc.body_stands hload hb
    refine ⟨start, hbody, hplaced, fun asg w hitems pre items post hsplit => ?_⟩
    exact (hparts hitems hsplit).compares w himg hroutine

/-- A program that compares two strings and does nothing else. -/
def comparisonAlone : Program :=
  { body := [.expr {} (.binary ⟨{}, .bool⟩ (.str ⟨{}, .str⟩ "hi") .ne (.str ⟨{}, .str⟩ "h"))] }

/-- The strings `hi` and `h` in memory. -/
def hiAndH : Memory :=
  ((Memory.empty.writeWord 805306364 2).writeBytes 805306368 [104, 105]).writeWord 1073741820 1
    |>.writeBytes 1073741824 [104]

theorem hiAndH_strings :
    hiAndH.StringAt 805306368 [104, 105] ∧ hiAndH.StringAt 1073741824 [104] :=
  ⟨⟨⟨by decide +kernel, by decide, by decide, by decide⟩, by decide +kernel⟩,
    ⟨⟨by decide +kernel, by decide, by decide, by decide⟩, by decide +kernel⟩⟩

/-- With `hi` in `s1` and `h` in `s2`, the program finds that they are not equal, and so does the
routine. -/
theorem hi_ne_h :
    ∃ (a : Assembly) (img : Image) (init : State) (k : Nat),
      compile comparisonAlone ⟨.physical, false, 4⟩ = .ok a ∧ load a = .ok (img, init) ∧
      (∃ (s : State) (n : Nat) (s' : State), img.label? Routine.streql.name = some s.pc ∧
        s.memory.StringAt (s.reg .a0) [104, 105] ∧ s.memory.StringAt (s.reg .a1) [104] ∧
        Steps img n s s' ∧ s'.pc = (s.reg .ra).toUInt32 ∧ s'.reg .a0 = 0) ∧
      ∃ (s : State) (n : Nat) (s' : State), s.pc = pcOf k ∧
        s.memory.StringAt (s.reg (.phys .s1)) [104, 105] ∧
        s.memory.StringAt (s.reg (.phys .s2)) [104] ∧
        Steps img n s s' ∧ s'.reg (.phys .s1) = 1 := by
  have hcheck : comparisonAlone.loadsWith ⟨.physical, false, 4⟩ (fun _ img _ =>
      (img.label? Routine.streql.name).isSome) = true := by decide +kernel
  obtain ⟨a, img, init, hcompile, hload, himg, hlabel⟩ := Program.exists_loaded hcheck
  obtain ⟨pc, hpc⟩ := Option.isSome_iff_exists.mp hlabel
  obtain ⟨hroutine, table, bodies, payload, hc, hunits⟩ := string_equality hcompile hload himg
  obtain ⟨hleft, hright, ⟨_, hwrites⟩, hw, ud, b, hb, hplaced, hitems⟩ := hc.of_evaluatesAlone
    (e := fun l r => .binary ⟨{}, .bool⟩ l (Env.compareOp true) r) (l := .str ⟨{}, .str⟩ "hi")
    (r := .str ⟨{}, .str⟩ "h") (by decide +kernel)
  obtain ⟨start, -, -, hunit⟩ := hunits ud b hb
  obtain ⟨l, r, leftItems, rightItems, compare, st₁, st₂, -, ⟨_, hl, -⟩, ⟨_, hr, -⟩, -, -,
      hcompares⟩ :=
    hunit _ hw hplaced _ _ _ hitems _ _ _ _ _ _ true _ rfl hwrites
  obtain ⟨-, rfl, hzeroth⟩ := (Draft.yields_of_value hleft).unique hl
  obtain ⟨-, -, hfirst⟩ := (Draft.yields_of_value hright).unique hr
  rw [← Reg.virt.inj hzeroth, ← Reg.virt.inj hfirst] at hcompares
  obtain ⟨k, hcompares⟩ : ∃ k, img.ComparesStrings (.ofRegisters [.s1, .s2]) k compare 0 1 true :=
    ⟨_, hcompares⟩
  obtain ⟨hhi, hh⟩ := hiAndH_strings
  refine ⟨a, img, init, k, hcompile, hload, ?_, ?_⟩
  · obtain ⟨s, rfl, hm, -, (ha0 : s.reg .a0 = 805306368), (ha1 : s.reg .a1 = 1073741824)⟩ :=
      init.exists_with_regs pc hiAndH
        [(.a0, 805306368), (.a1, 1073741824)] (by decide) (by decide)
    rw [← ha0, ← hm] at hhi
    rw [← ha1, ← hm] at hh
    obtain ⟨n, s', hsteps, hanswers⟩ := hroutine s _ _ hpc hhi hh
    exact ⟨s, n, s', hpc, hhi, hh, hsteps, hanswers.pc, hanswers.value⟩
  · obtain ⟨s, hs, hm, -, (hs1 : s.reg (.phys .s1) = 805306368),
        (hs2 : s.reg (.phys .s2) = 1073741824)⟩ := init.exists_with_regs (pcOf k) hiAndH
        [(.phys .s1, 805306368), (.phys .s2, 1073741824)] (by decide) (by decide)
    rw [← hs1, ← hm] at hhi
    rw [← hs2, ← hm] at hh
    have hslots : (Assignment.ofRegisters [.s1, .s2]).ValidSlots (s.reg .fp) :=
      fun _ _ h => absurd h Assignment.ofRegisters_ne_spill
    obtain ⟨n, s', hsteps, -, hdel⟩ := hcompares s _ _ hs hslots hhi hh
    exact ⟨s, n, s', hs, hhi, hh, hsteps, hdel.value⟩

end ChocoRV
