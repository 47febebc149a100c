import Mathlib
import ChocoRV.Source.Program
import ChocoRV.Proofs.Machine.Walk

/-!
# Operators on words

What the operators of the source mean, computed with the operations that the machine has. Division
is the hard part: the machine cuts quotients off, so where the remainder is not zero and its sign is
not that of the divisor, the quotient is one too large and the remainder lacks one divisor.
-/

namespace ChocoRV

/-! ## Rounding -/

/-- The remainder of the truncated quotient shows that it has to be rounded down. -/
def roundsDown (r b : Int32) : Bool := (r ^^^ b < 0) && r != 0

theorem lt_zero_iff_msb (a : Int32) : decide (a < 0) = a.toBitVec.msb := by
  rw [BitVec.msb_eq_toInt, Int32.toInt_toBitVec]
  exact decide_eq_decide.mpr Int32.lt_iff_toInt_lt

/-- Two words differ in sign if their exclusive or is negative. -/
theorem xor_lt_zero (a b : Int32) : a ^^^ b < 0 ↔ (a.toInt < 0 ↔ ¬ b.toInt < 0) := by
  have hmsb := BitVec.msb_xor (x := a.toBitVec) (y := b.toBitVec)
  rw [← Int32.toBitVec_xor, ← lt_zero_iff_msb, ← lt_zero_iff_msb, ← lt_zero_iff_msb] at hmsb
  have ha : a < 0 ↔ a.toInt < 0 := Int32.lt_iff_toInt_lt
  have hb : b < 0 ↔ b.toInt < 0 := Int32.lt_iff_toInt_lt
  rw [← ha, ← hb, ← decide_eq_true_iff (p := a ^^^ b < 0), hmsb]
  by_cases h : a < 0 <;> by_cases h' : b < 0 <;> simp [h, h']

/-- The quotient rounded down, from the quotient cut off. -/
theorem fdiv_eq_tdiv_sub {a b : Int} (hb : b ≠ 0) :
    a.fdiv b = a.tdiv b - if a.tmod b ≠ 0 ∧ (a.tmod b < 0 ↔ ¬ b < 0) then 1 else 0 := by
  have hdvd : b ∣ a ↔ a.tmod b = 0 := Int.dvd_iff_tmod_eq_zero
  rw [Int.fdiv_eq_tdiv]
  by_cases hd : b ∣ a
  · rw [if_pos hd, if_neg (fun h => h.1 (hdvd.mp hd))]
  have hr : a.tmod b ≠ 0 := mt hdvd.mpr hd
  rw [if_neg hd]
  rcases Int.le_total 0 a with ha | ha
  · -- The remainder is positive as well.
    have hpos : 0 ≤ a.tmod b := Int.tmod_nonneg b ha
    rw [if_pos ha]
    by_cases hb' : 0 ≤ b
    · rw [if_pos hb', if_neg (by omega)]
    · rw [if_neg hb', if_pos (by omega)]
  · have hneg : 0 ≤ (-a).tmod b := Int.tmod_nonneg b (by omega)
    rw [Int.neg_tmod] at hneg
    have ha' : ¬ 0 ≤ a := by
      intro h
      obtain rfl : a = 0 := by omega
      exact hd (dvd_zero b)
    rw [if_neg ha']
    by_cases hb' : 0 ≤ b
    · rw [if_pos hb', Int.sign_eq_one_of_pos (by omega), if_pos (by omega)]
    · rw [if_neg hb', Int.sign_eq_neg_one_of_neg (by omega), if_neg (by omega)]
      rfl

theorem roundsDown_iff (a b : Int32) :
    roundsDown (a % b) b = true ↔
      a.toInt.tmod b.toInt ≠ 0 ∧ (a.toInt.tmod b.toInt < 0 ↔ ¬ b.toInt < 0) := by
  rw [roundsDown, Bool.and_eq_true, decide_eq_true_iff, bne_iff_ne, xor_lt_zero, Int32.toInt_mod,
    and_comm]
  refine and_congr_left' (not_congr ?_)
  rw [← Int32.toInt_inj, Int32.toInt_mod]
  rfl

theorem toInt_ne_zero {b : Int32} (hb : b ≠ 0) : b.toInt ≠ 0 :=
  fun h => hb (Int32.toInt_inj.mp h)

/-- Cutting a quotient to 32 bits is what division of words does. -/
theorem ofInt_tdiv_toInt (a b : Int32) : Int32.ofInt (a.toInt.tdiv b.toInt) = a / b := by
  rw [Int32.ofInt_tdiv a.minValue_le_toInt a.toInt_le b.minValue_le_toInt b.toInt_le,
    Int32.ofInt_toInt, Int32.ofInt_toInt]

theorem ofInt_fdiv {a b : Int32} (hb : b ≠ 0) :
    Int32.ofInt (a.toInt.fdiv b.toInt) = a / b - boolWord (roundsDown (a % b) b) := by
  rw [fdiv_eq_tdiv_sub (toInt_ne_zero hb), Int32.ofInt_sub, ofInt_tdiv_toInt]
  have hround := roundsDown_iff a b
  cases h : roundsDown (a % b) b with
  | true =>
    rw [if_pos (hround.mp h)]
    rfl
  | false =>
    rw [if_neg (mt hround.mpr (by simp [h]))]
    rfl

theorem ofInt_fmod {a b : Int32} (hb : b ≠ 0) :
    Int32.ofInt (a.toInt.fmod b.toInt) = a % b + boolWord (roundsDown (a % b) b) * b := by
  have hf := Int.fmod_def a.toInt b.toInt
  have ht := Int.tmod_def a.toInt b.toInt
  rw [fdiv_eq_tdiv_sub (toInt_ne_zero hb)] at hf
  have hround := roundsDown_iff a b
  cases h : roundsDown (a % b) b with
  | true =>
    rw [if_pos (hround.mp h)] at hf
    have hsum : a.toInt.fmod b.toInt = a.toInt.tmod b.toInt + b.toInt := by
      linear_combination hf - ht
    rw [hsum, Int32.ofInt_add, ← Int32.toInt_mod, Int32.ofInt_toInt, Int32.ofInt_toInt,
      boolWord_true, Int32.one_mul]
  | false =>
    rw [if_neg (mt hround.mpr (by simp [h])), Int.sub_zero] at hf
    rw [hf, ← ht, ← Int32.toInt_mod, Int32.ofInt_toInt, boolWord_false, Int32.zero_mul,
      Int32.add_zero]

/-! ## Comparing -/

theorem boolWord_and (a b : Bool) : boolWord a &&& boolWord b = boolWord (a && b) := by
  cases a <;> cases b <;> rfl

theorem boolWord_not (b : Bool) : boolWord b ^^^ 1 = boolWord !b := by
  cases b <;> rfl

/-- Two words are equal if their difference is zero. -/
theorem sub_beq_zero (a b : Int32) : (a - b == 0) = (a == b) := by
  rw [Bool.eq_iff_iff, beq_iff_eq, beq_iff_eq, Int32.sub_eq_iff_eq_add, Int32.zero_add]

/-! ## Operators -/

namespace BinOp

/-- The right operand must not be zero. -/
def divides (op : BinOp) : Bool := op = .floorDiv || op = .mod

/-- The word that an operator makes of the words of its operands, where both of them are read. -/
def onWords (op : BinOp) (a b : Int32) : Int32 :=
  match op with
  | .add => a + b
  | .sub => a - b
  | .mul => a * b
  | .floorDiv => a / b - boolWord (roundsDown (a % b) b)
  | .mod => a % b + boolWord (roundsDown (a % b) b) * b
  | .lt => boolWord (a < b)
  | .le => boolWord !(b < a)
  | .gt => boolWord (b < a)
  | .ge => boolWord !(a < b)
  | .eq => boolWord (a == b)
  | .ne => boolWord (a != b)
  | .is | .and | .or => a

/-- The steps by which an operator combines two operands into the first. -/
def steps (op : BinOp) (l r : Reg) : List (Op Label) :=
  match op with
  | .add => [.add l l r]
  | .sub => [.sub l l r]
  | .mul => [.mul l l r]
  | .floorDiv =>
    [.div .t0 l r, .rem .t1 l r, .snez .t2 .t1, .xor .t1 .t1 r, .slt .t1 .t1 .zero,
      .and .t1 .t1 .t2, .sub l .t0 .t1]
  | .mod =>
    [.rem .t0 l r, .snez .t2 .t0, .xor .t1 .t0 r, .slt .t1 .t1 .zero, .and .t1 .t1 .t2,
      .mul .t1 .t1 r, .add l .t0 .t1]
  | .eq => [.sub l l r, .seqz l l]
  | .ne => [.sub l l r, .snez l l]
  | .lt => [.slt l l r]
  | .gt => [.slt l r l]
  | .le => [.slt l r l, .xori l l 1]
  | .ge => [.slt l l r, .xori l l 1]
  | .is | .and | .or => []

variable {op : BinOp} {s : State}

theorem computes_steps (op : BinOp) (l r : Reg) : ∀ o ∈ op.steps l r, o.computes = true := by
  cases op <;> simp [steps, Op.computes]

/-- The steps of an operator compute its result, in any registers but those that they use on the
way. -/
theorem reg_steps {l r : Reg} (hl : l ∉ [Reg.zero, .t0, .t1, .t2])
    (hr : r ∉ [Reg.zero, .t0, .t1, .t2]) (hdiv : op.divides = true → s.reg r ≠ 0) :
    ((op.steps l r).foldl State.compute s).reg l = op.onWords (s.reg l) (s.reg r) := by
  simp only [List.mem_cons, List.not_mem_nil, or_false, not_or] at hl hr
  obtain ⟨hl, hl₀, hl₁, hl₂⟩ := hl
  obtain ⟨-, hr₀, hr₁, hr₂⟩ := hr
  cases op with
  | floorDiv =>
    have hzero := hdiv rfl
    simp [steps, onWords, State.compute, State.reg_put, AluOp.eval, UnaryOp.eval, hzero,
      hl, hl₀, hr₀, hr₁, hr₂, boolWord_and, roundsDown]
  | mod =>
    have hzero := hdiv rfl
    simp [steps, onWords, State.compute, State.reg_put, AluOp.eval, UnaryOp.eval, hzero,
      hl, hr₀, hr₁, hr₂, boolWord_and, roundsDown]
  | eq | ne =>
    simp [steps, onWords, State.compute, State.reg_put, AluOp.eval, UnaryOp.eval, hl,
      sub_beq_zero, bne]
  | le | ge =>
    simp [steps, onWords, State.compute, State.reg_put, AluOp.eval, ImmOp.eval, hl, boolWord_not]
  | add | sub | mul | lt | gt | is | and | or =>
    simp [steps, onWords, State.compute, State.reg_put, AluOp.eval, hl]

end BinOp

end ChocoRV
