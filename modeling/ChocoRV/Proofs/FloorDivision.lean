import Mathlib
import ChocoRV.Draft.Function
import ChocoRV.Proofs.Machine.Straight
import ChocoRV.Proofs.Operator

/-!
# Division rounds down

The machine cuts quotients off, and the source rounds them down. The code of `//` corrects a
quotient by the sign of the remainder against that of the divisor, and the code of `%` corrects the
remainder in the same way. Both are right for all words, whichever registers hold the operands: the
smallest word divided by -1 wraps around as a word does. A divisor of zero goes to the error exit
before anything is computed.
-/

namespace ChocoRV

open Assembly Image

/-! ## Rounding in the integers -/

theorem floor_div_eq_fdiv (a b : Int) : ⌊(a : ℚ) / b⌋ = a.fdiv b := by
  have hnat (a : Int) (n : Nat) : ⌊(a : ℚ) / (n : Int)⌋ = a.fdiv n := by
    rw [Int.cast_natCast, Rat.floor_intCast_div_natCast,
      Int.fdiv_eq_ediv_of_nonneg a (Int.natCast_nonneg n)]
  obtain ⟨n, rfl | rfl⟩ := b.eq_nat_or_neg
  · exact hnat a n
  · rw [Int.cast_neg, div_neg, ← neg_div, ← Int.cast_neg, hnat, ← Int.neg_fdiv_neg, neg_neg]

/-- A remainder of rounding down is on the side of the divisor, and nearer to zero. -/
theorem fmod_bounds (a : Int) {b : Int} (hb : b ≠ 0) :
    (0 ≤ a.fmod b ∧ a.fmod b < b) ∨ (b < a.fmod b ∧ a.fmod b ≤ 0) := by
  rcases lt_or_gt_of_ne hb with hneg | hpos
  · have hnonneg := Int.fmod_nonneg_of_pos (-a) (Int.neg_pos_of_neg hneg)
    have hlt := Int.fmod_lt_of_pos (-a) (Int.neg_pos_of_neg hneg)
    rw [Int.neg_fmod_neg] at hnonneg hlt
    exact .inr ⟨by omega, by omega⟩
  · exact .inl ⟨Int.fmod_nonneg_of_pos a hpos, Int.fmod_lt_of_pos a hpos⟩

/-- The remainder of two words is a word. -/
theorem toInt_ofInt_fmod (a : Int32) {b : Int32} (hb : b ≠ 0) :
    (Int32.ofInt (a.toInt.fmod b.toInt)).toInt = a.toInt.fmod b.toInt := by
  have hbounds := fmod_bounds a.toInt (toInt_ne_zero hb)
  have hmin : -2147483648 ≤ b.toInt := b.minValue_le_toInt
  have hmax : b.toInt ≤ 2147483647 := b.toInt_le
  exact Int32.toInt_ofInt_of_le (by omega) (by omega)

/-! ## Straight code -/

/-- The machine carries out operations that compute words, one after the other. -/
theorem Image.Finds.walk_computeAll {img : Image} {Q : State → Prop} {os : List (Op Label)}
    {s : State} (h : img.Finds s.pc (os.map (⟨·, none⟩))) (hos : ∀ o ∈ os, o.computes = true)
    (hq : ∀ j < os.length, ∀ t : State, t.pc = past s.pc j → Q t) :
    Walk img Q os.length s (os.foldl State.compute s) ∧
      (os.foldl State.compute s).pc = past s.pc os.length := by
  induction os generalizing s with
  | nil => exact ⟨.refl s, (UInt32.add_zero _).symm⟩
  | cons o os ih =>
    rw [List.forall_mem_cons] at hos
    obtain ⟨⟨op, hf, hres⟩, h⟩ := h
    have hone : s.exec op = .running (s.compute o) ∧ (s.compute o).pc = s.pc + 4 := by
      cases o with
      | alu | aluImm | shift | li | unary =>
        cases hres
        exact ⟨rfl, rfl⟩
      | _ => exact absurd hos.1 Bool.false_ne_true
    have hpast (j : Nat) : past (s.compute o).pc j = past s.pc (j + 1) := by
      rw [hone.2, ← past_one, past_past, Nat.add_comm]
    rw [← hone.2] at h
    obtain ⟨hw, hpc⟩ := ih h hos.2 fun j hj t ht =>
      hq (j + 1) (Nat.succ_lt_succ hj) t (ht.trans (hpast j))
    exact ⟨.step (hq 0 (Nat.succ_pos _) s (UInt32.add_zero _).symm) hf hone.1 hw,
      hpc.trans (hpast _)⟩

/-! ## Division -/

/-- The instructions by which an operator combines two registers into the first. -/
def Env.opInstrs (env : Env) (info : ExprInfo) (op : BinOp) (left right : ValueType) (l r : Reg)
    (ds : Draft.State) : List Instr :=
  instrs (Body.draftItems (env.applyOp info op left right l r ds).events)

/-- The instructions of a division: a check of the divisor, and then steps that compute words. -/
theorem Env.opInstrs_of_divides (env : Env) (info : ExprInfo) {op : BinOp} (h : op.divides = true)
    (left right : ValueType) (l r : Reg) (ds : Draft.State) :
    env.opInstrs info op left right l r ds =
      ⟨.beqz r Routine.errorDiv, if env.comments then some "divisor zero?" else none⟩ ::
        (op.steps l r).map (⟨·, none⟩) := by
  cases op with
  | floorDiv | mod => rfl
  | _ => exact absurd h (by decide)

/-- From `s` the program divides register `l` by register `r` with these instructions. If the
divisor is zero, it goes to the error exit at once. Otherwise it stays within the instructions up to
their end and leaves a word in `l` that stands in the relation `Q` to dividend and divisor. The
divisor stays, and only `l` and three further registers may differ. -/
def Image.Divides (img : Image) (s : State) (is : List Instr) (l r : Reg)
    (Q : Int → Int → Int32 → Prop) : Prop :=
  ∃ fail, find img.labels Routine.errorDiv.name = .ok fail ∧
    (s.reg r = 0 → Steps img 1 s (s.goto fail)) ∧
    (s.reg r ≠ 0 → ∃ s', Walk img (fun t => ∃ j < is.length, t.pc = past s.pc j) is.length s s' ∧
      s'.pc = past s.pc is.length ∧ Q (s.reg l).toInt (s.reg r).toInt (s'.reg l) ∧
      s'.reg r = s.reg r ∧ s.Differs [l, .t0, .t1, .t2] s')

/-- A division leaves what its steps make of the two words. -/
theorem Image.divides_of_finds {img : Image} {s : State} {env : Env} {info : ExprInfo} {op : BinOp}
    {left right : ValueType} {l r : Reg} {ds : Draft.State} {Q : Int → Int → Int32 → Prop}
    (hop : op.divides = true) (hne : l ≠ r) (hl : l ∉ [Reg.zero, .t0, .t1, .t2])
    (hr : r ∉ [Reg.zero, .t0, .t1, .t2])
    (h : img.Finds s.pc (env.opInstrs info op left right l r ds))
    (hQ : ∀ a b : Int32, b ≠ 0 → Q a.toInt b.toInt (op.onWords a b)) :
    img.Divides s (env.opInstrs info op left right l r ds) l r Q := by
  rw [env.opInstrs_of_divides info hop] at h ⊢
  obtain ⟨⟨check, hf, hres⟩, hsteps⟩ := h
  obtain ⟨fail, hfail, rfl⟩ := map_eq_ok_iff.mp hres
  have hexec : s.exec (.branchZero .eq r fail) =
      .running (if s.reg r == 0 then s.goto fail else s.skip) := rfl
  refine ⟨fail, hfail, fun hzero => .one hf ?_, fun hzero => ?_⟩
  · rw [hexec, if_pos (beq_iff_eq.mpr hzero)]
  · rw [if_neg (by simpa using hzero)] at hexec
    obtain ⟨hw, hpc⟩ := Finds.walk_computeAll (s := s.skip)
      (Q := fun t => ∃ j < (op.steps l r).length + 1, t.pc = past s.pc j) hsteps
      (op.computes_steps l r) fun j hj t ht =>
        ⟨j + 1, Nat.succ_lt_succ hj, by rw [ht, Nat.add_comm, ← past_past]; rfl⟩
    have hdiffers : s.Differs [l, .t0, .t1, .t2] ((op.steps l r).foldl State.compute s.skip) := by
      refine (State.Differs.goto s _).trans (.computeAll (fun o ho rd hrd => ?_) _)
      cases op with
      | floorDiv | mod =>
        simp only [BinOp.steps, List.mem_cons, List.not_mem_nil, or_false] at ho
        rcases ho with rfl | rfl | rfl | rfl | rfl | rfl | rfl <;> cases hrd <;> simp
      | _ => exact absurd hop (by decide)
    rw [List.length_cons, List.length_map]
    refine ⟨_, .step ⟨0, Nat.succ_pos _, (UInt32.add_zero _).symm⟩ hf hexec hw, ?_, ?_,
      hdiffers.regs r fun hmem => ?_, hdiffers⟩
    · rw [hpc, Nat.add_comm, ← past_past]
      rfl
    · have hreg : ((op.steps l r).foldl State.compute s.skip).reg l =
          op.onWords (s.reg l) (s.reg r) := BinOp.reg_steps hl hr fun _ => hzero
      rw [hreg]
      exact hQ _ _ hzero
    · rcases List.mem_cons.mp hmem with heq | hmem
      · exact hne heq.symm
      · exact hr (List.mem_cons_of_mem _ hmem)

/-- **Division and remainder round down on all words.** Whatever two registers hold the operands,
other than the ones that the code uses on the way, the code of `//` leaves the quotient rounded
down, cut to 32 bits, and that of `%` leaves the remainder which goes with it: it is zero or has the
sign of the divisor, and is nearer to zero. Both go to the error exit if and only if the divisor is
zero. -/
theorem division_rounds_down (env : Env) (info : ExprInfo) (left right : ValueType)
    (ds : Draft.State) (img : Image) (s : State) {l r : Reg} (hne : l ≠ r)
    (hl : l ∉ [Reg.zero, .t0, .t1, .t2]) (hr : r ∉ [Reg.zero, .t0, .t1, .t2]) :
    (img.Finds s.pc (env.opInstrs info .floorDiv left right l r ds) →
      img.Divides s (env.opInstrs info .floorDiv left right l r ds) l r fun a b w =>
        w = Int32.ofInt ⌊(a : ℚ) / b⌋) ∧
    (img.Finds s.pc (env.opInstrs info .mod left right l r ds) →
      img.Divides s (env.opInstrs info .mod left right l r ds) l r fun a b w =>
        a = ⌊(a : ℚ) / b⌋ * b + w.toInt ∧ (w = 0 ∨ w.toInt.sign = b.sign) ∧ |w.toInt| < |b|) := by
  refine ⟨fun h => divides_of_finds rfl hne hl hr h fun a b hb => ?_,
    fun h => divides_of_finds rfl hne hl hr h fun a b hb => ?_⟩
  · rw [floor_div_eq_fdiv, ofInt_fdiv hb]
    rfl
  · have hw : BinOp.onWords .mod a b = Int32.ofInt (a.toInt.fmod b.toInt) := (ofInt_fmod hb).symm
    have hint : (BinOp.onWords .mod a b).toInt = a.toInt.fmod b.toInt := by
      rw [hw, toInt_ofInt_fmod a hb]
    have hbounds := fmod_bounds a.toInt (toInt_ne_zero hb)
    have hsum := Int.mul_fdiv_add_fmod a.toInt b.toInt
    rw [floor_div_eq_fdiv, ← Int32.toInt_inj, hint, Int32.toInt_zero]
    refine ⟨by rw [mul_comm, hsum], ?_, ?_⟩
    · rcases hbounds with ⟨hnonneg, hlt⟩ | ⟨hlt, hnonpos⟩
      · rcases hnonneg.eq_or_lt with hzero | hpos
        · exact .inl hzero.symm
        · exact .inr (by rw [Int.sign_eq_one_of_pos hpos, Int.sign_eq_one_of_pos (hpos.trans hlt)])
      · rcases hnonpos.eq_or_lt with hzero | hneg
        · exact .inl hzero
        · exact .inr (by rw [Int.sign_eq_neg_one_of_neg hneg,
            Int.sign_eq_neg_one_of_neg (hlt.trans hneg)])
    · rcases hbounds with ⟨hnonneg, hlt⟩ | ⟨hlt, hnonpos⟩
      · rwa [abs_of_nonneg hnonneg, abs_of_nonneg (hnonneg.trans hlt.le)]
      · rw [abs_of_nonpos hnonpos, abs_of_nonpos (hlt.le.trans hnonpos)]
        exact neg_lt_neg hlt

/-- The code of a division of `s1` by `s2`. -/
def loneDivision (op : BinOp) : List Instr :=
  (Function.topLevelEnv {} true).opInstrs ⟨{}, .int⟩ op .int .int (.phys .s1) (.phys .s2)
    (Function.start {})

/-- The smallest word by -1 wraps around to itself, and -7 leaves 1 when it is divided by 2. -/
theorem loneDivision_rounds_down :
    (∃ img s s', img.Finds s.pc (loneDivision .floorDiv) ∧ s.reg (.phys .s1) = Int32.minValue ∧
      s.reg (.phys .s2) = -1 ∧ Steps img 8 s s' ∧ s'.reg (.phys .s1) = Int32.minValue) ∧
    ∃ img s s', img.Finds s.pc (loneDivision .mod) ∧ s.reg (.phys .s1) = -7 ∧
      s.reg (.phys .s2) = 2 ∧ Steps img 8 s s' ∧ s'.reg (.phys .s1) = 1 := by
  have hfinds : ∀ op ∈ [BinOp.floorDiv, .mod],
      ((load ⟨(loneDivision op).map .instr ++ [.label Routine.errorDiv], []⟩).toOption.any fun r =>
        decide (r.1.Finds textBase (loneDivision op))) = true := by decide +kernel
  -- Code stands at the beginning of a program, and the registers hold two words.
  have hstate : ∀ op ∈ [BinOp.floorDiv, .mod], ∀ a b : Int32, ∃ (img : Image) (s : State),
      img.Finds s.pc (loneDivision op) ∧ s.reg (.phys .s1) = a ∧ s.reg (.phys .s2) = b := by
    intro op hop a b
    obtain ⟨⟨img, s⟩, -, h⟩ := exists_ok_of_any (hfinds op hop)
    obtain ⟨t, ht, -, -, ha, hb⟩ := s.exists_with_regs textBase s.memory
      [(.phys .s1, a), (.phys .s2, b)] (by simp) (by simp)
    exact ⟨img, t, ht ▸ of_decide_eq_true h, ha, hb⟩
  have hdown (img : Image) (s : State) := @division_rounds_down (Function.topLevelEnv {} true)
    ⟨{}, .int⟩ .int .int (Function.start {}) img s (.phys .s1) (.phys .s2) (by decide) (by decide)
    (by decide)
  constructor
  · obtain ⟨img, s, h, ha, hb⟩ := hstate .floorDiv (by decide) Int32.minValue (-1)
    obtain ⟨-, -, -, hdiv⟩ := (hdown img s).1 h
    obtain ⟨s', hw, -, hq, -⟩ := hdiv (by rw [hb]; decide)
    refine ⟨img, s, s', h, ha, hb, hw.steps, ?_⟩
    rw [hq, floor_div_eq_fdiv, ha, hb]
    decide
  · obtain ⟨img, s, h, ha, hb⟩ := hstate .mod (by decide) (-7) 2
    obtain ⟨-, -, -, hdiv⟩ := (hdown img s).2 h
    obtain ⟨s', hw, -, ⟨hq, -⟩, -⟩ := hdiv (by rw [hb]; decide)
    refine ⟨img, s, s', h, ha, hb, hw.steps, ?_⟩
    have hrest : (s'.reg (.phys .s1)).toInt = (-7 : Int) - (-7 : Int).fdiv 2 * 2 := by
      rw [floor_div_eq_fdiv, ha, hb] at hq
      exact eq_sub_of_add_eq' hq.symm
    exact Int32.toInt_inj.mp hrest

end ChocoRV
