import Mathlib
import ChocoRV.Routine.Code
import ChocoRV.Proofs.Machine.Block

/-!
# The loops of the routines

The loop that copies elements comes to an end with `Memory.copy` done, whatever the two places are,
and the loop that clears words with `Memory.clear`. Each is proved by induction on the number of
turns: the first turn leads back to the top with one less to do.
-/

namespace ChocoRV

open Assembly Image

/-- All of the `n` elements from `a` on are at valid addresses. -/
def Width.Valid (w : Width) (a : Addr) (n : Nat) : Prop :=
  ∀ i < n, State.nullPage ≤ a + UInt32.ofNat (w.size * i)

namespace Width.Valid

variable {w : Width} {a : Addr} {n : Nat}

theorem of_le (h : State.nullPage.toNat ≤ a.toNat) (ha : a.toNat + w.size * n ≤ UInt32.size) :
    w.Valid a n := by
  intro i hi
  rw [UInt32.le_iff_toNat_le, (Memory.element_within ha hi).1]
  omega

theorem first (h : w.Valid a (n + 1)) : State.nullPage ≤ a := by
  have h0 := h 0 (Nat.succ_pos n)
  rwa [Nat.mul_zero, show UInt32.ofNat 0 = 0 from rfl, UInt32.add_zero] at h0

theorem others (h : w.Valid a (n + 1)) : w.Valid (a + UInt32.ofNat w.size) n := by
  intro i hi
  have hnext := h (i + 1) (by omega)
  rwa [Nat.mul_succ, Nat.add_comm, Addr.add_ofNat_add] at hnext

end Width.Valid

/-- A count goes down to the number before. -/
theorem ofNat_succ_add_neg_one (n : Nat) : Int32.ofNat (n + 1) + -1 = Int32.ofNat n := by
  rw [Int32.ofNat_add, Int32.add_assoc]
  exact Int32.add_zero _

theorem ofNat_succ_ne_zero {n : Nat} (h : n + 1 < 4294967296) : Int32.ofNat (n + 1) ≠ 0 := by
  intro e
  have hn : (Int32.ofNat (n + 1)).toUInt32.toNat = n + 1 := toNat_ofNat_word h
  rw [e] at hn
  exact Nat.succ_ne_zero n hn.symm

/-- With the width as a number. -/
theorem Routine.copyLoop_eq (routine : Label) (n : Nat) (w : Width) (src dst count : Reg) :
    copyLoop routine n w src dst count =
      [.label (loc routine n), .op (.beqz count (loc routine (n + 1))), .op (.load w .t3 src 0),
        .op (.store w .t3 dst 0), .op (.addi src src (Int32.ofNat w.size)),
        .op (.addi dst dst (Int32.ofNat w.size)), .op (.addi count count (-1)),
        .op (.jump (loc routine n)), .label (loc routine (n + 1))] := by
  cases w <;> rfl

namespace Image.At

variable {img : Image} {inside : Nat → Prop} {k : Nat} {rest : List Item} {s : State}

/-- A loop counts down to zero: an invariant that says how many turns remain, and that one turn
takes to the next number, holds at the end with none. -/
theorem counted (himg : img.Unwrapped) {top done : Label} {count : Reg} (body : List Instr)
    (Inv : Nat → State → Prop) {n : Nat}
    (h : img.At inside k (.label top :: .op (.beqz count done) ::
      (body.map Item.instr ++ .op (.jump top) :: .label done :: rest)) s)
    (hbody : body.all (·.op.straight) = true) (hn : n < 4294967296) (hinv : Inv n s)
    (hcount : ∀ r t, Inv r t → t.reg count = Int32.ofNat r)
    (hgoto : ∀ r t a, Inv r t → Inv r (t.goto a))
    (hturn : ∀ r t, Inv (r + 1) t → img.Allows body t ∧ Inv r (img.performs body t)) :
    ∃ s', img.Comes inside s s' ∧ img.At inside (k + 1 + body.length + 1) rest s' ∧ Inv 0 s' := by
  have hcode := h.code
  have htop : find img.labels top.name = .ok (pcOf k) := hcode.1
  have hend := (holds_append.mp hcode.2.2).2
  rw [instrs_map_instr] at hend
  induction n generalizing s with
  | zero =>
    have hzero : ZeroCmp.eval .eq (s.reg count) = true := by
      rw [hcount 0 s hinv]
      rfl
    exact ⟨_, h.label.branchZero himg hend.2.1 hzero, ⟨hend.2.2, rfl⟩, hgoto 0 s _ hinv⟩
  | succ n ih =>
    have hmore : ZeroCmp.eval .eq (s.reg count) = false := by
      rw [hcount (n + 1) s hinv]
      exact beq_eq_false_iff_ne.mpr (ofNat_succ_ne_zero hn)
    obtain ⟨hc₁, h₁⟩ := h.label.skipZero himg hmore
    obtain ⟨hallows, hinv'⟩ := hturn n s.skip (hgoto _ s _ hinv)
    obtain ⟨hc₂, h₂⟩ := h₁.straight himg body hbody hallows
    obtain ⟨s', hc₄, h₄, hinv₀⟩ := ih ⟨hcode, rfl⟩ (by omega) (hgoto n _ (pcOf k) hinv')
    exact ⟨s', hc₁.trans (hc₂.trans ((h₂.jump himg htop).trans hc₄)), h₄, hinv₀⟩

end Image.At

/-- One turn of the loop that copies. -/
def Routine.copyTurn (w : Width) (src dst count : Reg) : List Instr :=
  [⟨.load w .t3 src 0, none⟩, ⟨.store w .t3 dst 0, none⟩,
    ⟨.addi src src (Int32.ofNat w.size), none⟩, ⟨.addi dst dst (Int32.ofNat w.size), none⟩,
      ⟨.addi count count (-1), none⟩]

/-- The loop that copies has `r` turns before it, and will then have come to the memory `final` with
`last` in the register for the target. -/
structure State.Copies (s₀ : State) (w : Width) (src dst count : Reg) (final : Memory)
    (last : Int32) (r : Nat) (s : State) : Prop where
  turns : s.reg count = Int32.ofNat r
  source : w.Valid (s.reg src).toUInt32 r
  target : w.Valid (s.reg dst).toUInt32 r
  memory : s.memory.copy w r (s.reg src).toUInt32 (s.reg dst).toUInt32 = final
  last : s.reg dst + Int32.ofNat (w.size * r) = last
  regs : s₀.Preserves [.t3, src, dst, count] s
  brk : s.brk = s₀.brk
  stdout : s.stdout = s₀.stdout

variable {img : Image}

/-- One turn, with registers that are different. -/
theorem State.Copies.turn {s₀ s : State} {w : Width} {src dst count : Reg} {final : Memory}
    {last : Int32} {r : Nat} (hregs : [Reg.zero, .t3, src, dst, count].Nodup)
    (h : s₀.Copies w src dst count final last (r + 1) s) :
    img.Allows (Routine.copyTurn w src dst count) s ∧
      s₀.Copies w src dst count final last r
        (img.performs (Routine.copyTurn w src dst count) s) := by
  simp only [List.nodup_cons, List.mem_cons, not_or, List.not_mem_nil, not_false_eq_true, and_true,
    List.nodup_nil] at hregs
  obtain ⟨⟨-, hs₀, hd₀, hc₀⟩, ⟨hs, hd, hc⟩, ⟨hsd, hsc⟩, hdc⟩ := hregs
  rw [eq_comm] at hs₀ hd₀ hc₀ hs hd hc
  let t := img.performs (Routine.copyTurn w src dst count) s
  have hmemory : t.memory =
      w.write s.memory (s.reg dst).toUInt32 (w.read s.memory (s.reg src).toUInt32) := by
    simp [t, Routine.copyTurn, hd]
  have hsrc : t.reg src = s.reg src + Int32.ofNat w.size := by
    simp [t, Routine.copyTurn, hs, hs₀, hd₀, hc₀, hsd, hsc]
  have hdst : t.reg dst = s.reg dst + Int32.ofNat w.size := by
    simp [t, Routine.copyTurn, hd, hs₀, hd₀, hc₀, Ne.symm hsd, hdc]
  have hcount : t.reg count = s.reg count + -1 := by
    simp [t, Routine.copyTurn, hc, hs₀, hd₀, hc₀, Ne.symm hsc, Ne.symm hdc]
  refine ⟨?_, ?_, ?_, ?_, ?_, ?_, ?_, ?_, ?_⟩
  · simp [Routine.copyTurn, hd, h.source.first, h.target.first]
  · rw [hcount, h.turns, ofNat_succ_add_neg_one]
  · rw [hsrc]
    exact h.source.others
  · rw [hdst]
    exact h.target.others
  · rw [hsrc, hdst, hmemory]
    exact h.memory
  · rw [hdst, Int32.add_assoc, ← Int32.ofNat_add, Nat.add_comm, ← Nat.mul_succ]
    exact h.last
  · exact h.regs.trans (Image.keeps_performs (by simp [Routine.copyTurn]) s)
  · exact (Image.brk_performs _ s).trans h.brk
  · exact (Image.stdout_performs _ s).trans h.stdout

/-- The loop that copies. -/
theorem Image.At.copies {inside : Nat → Prop} {k : Nat} {rest : List Item} {s : State}
    (himg : img.Unwrapped) {routine : Label} {j n : Nat} {w : Width} {src dst count : Reg}
    (hregs : [Reg.zero, .t3, src, dst, count].Nodup)
    (h : img.At inside k (Routine.copyLoop routine j w src dst count ++ rest) s)
    (hcount : s.reg count = Int32.ofNat n) (hn : n < 4294967296)
    (hsrc : w.Valid (s.reg src).toUInt32 n) (hdst : w.Valid (s.reg dst).toUInt32 n) :
    ∃ s', img.Comes inside s s' ∧ img.At inside (k + 7) rest s' ∧
      s'.memory = s.memory.copy w n (s.reg src).toUInt32 (s.reg dst).toUInt32 ∧
      s'.reg dst = s.reg dst + Int32.ofNat (w.size * n) ∧
      s.Preserves [.t3, src, dst, count] s' ∧ s'.brk = s.brk ∧ s'.stdout = s.stdout := by
  rw [Routine.copyLoop_eq] at h
  obtain ⟨s', hcomes, hat, hdone⟩ := h.counted himg (Routine.copyTurn w src dst count)
    (s.Copies w src dst count (s.memory.copy w n (s.reg src).toUInt32 (s.reg dst).toUInt32)
      (s.reg dst + Int32.ofNat (w.size * n)))
    rfl hn ⟨hcount, hsrc, hdst, rfl, rfl, fun _ _ => rfl, rfl, rfl⟩ (fun _ _ h => h.turns)
    (fun _ _ _ h => ⟨h.turns, h.source, h.target, h.memory, h.last, h.regs, h.brk, h.stdout⟩)
    fun _ _ h => h.turn hregs
  have hlast := hdone.last
  rw [Nat.mul_zero, show Int32.ofNat 0 = 0 from rfl, Int32.add_zero] at hlast
  exact ⟨s', hcomes, hat, hdone.memory, hlast, hdone.regs, hdone.brk, hdone.stdout⟩

/-- One turn of the loop that clears. -/
def Routine.clearTurn : List Instr :=
  [⟨.sw .zero .t1 0, none⟩, ⟨.addi .t1 .t1 4, none⟩, ⟨.addi .t2 .t2 (-1), none⟩]

/-- The loop that clears has `r` turns before it, and will then have come to the memory `final`. -/
structure State.Clears (s₀ : State) (final : Memory) (r : Nat) (s : State) : Prop where
  turns : s.reg .t2 = Int32.ofNat r
  target : Width.word.Valid (s.reg .t1).toUInt32 r
  memory : s.memory.clear r (s.reg .t1).toUInt32 = final
  regs : s₀.Preserves [.t1, .t2] s
  brk : s.brk = s₀.brk
  stdout : s.stdout = s₀.stdout

theorem State.Clears.turn {s₀ s : State} {final : Memory} {r : Nat} (h : s₀.Clears final (r + 1) s)
    : img.Allows Routine.clearTurn s ∧ s₀.Clears final r (img.performs Routine.clearTurn s) := by
  let t := img.performs Routine.clearTurn s
  have hmemory : t.memory = s.memory.writeWord (s.reg .t1).toUInt32 0 := by
    simp [t, Routine.clearTurn, Width.write]
  have ht1 : t.reg .t1 = s.reg .t1 + 4 := by
    simp [t, Routine.clearTurn]
  have ht2 : t.reg .t2 = s.reg .t2 + -1 := by
    simp [t, Routine.clearTurn]
  refine ⟨?_, ?_, ?_, ?_, ?_, ?_, ?_⟩
  · simp [Routine.clearTurn, h.target.first]
  · rw [ht2, h.turns, ofNat_succ_add_neg_one]
  · rw [ht1]
    exact h.target.others
  · rw [ht1, hmemory]
    exact h.memory
  · exact h.regs.trans (Image.keeps_performs (by simp [Routine.clearTurn]) s)
  · exact (Image.brk_performs _ s).trans h.brk
  · exact (Image.stdout_performs _ s).trans h.stdout

/-- The loop that clears. -/
theorem Image.At.clears {inside : Nat → Prop} {k : Nat} {rest : List Item} {s : State}
    (himg : img.Unwrapped) {top done : Label} {n : Nat}
    (h : img.At inside k (.label top :: .op (.beqz .t2 done) ::
      (Routine.clearTurn.map Item.instr ++ .op (.jump top) :: .label done :: rest)) s)
    (hcount : s.reg .t2 = Int32.ofNat n) (hn : n < 4294967296)
    (hvalid : Width.word.Valid (s.reg .t1).toUInt32 n) :
    ∃ s', img.Comes inside s s' ∧ img.At inside (k + 5) rest s' ∧
      s'.memory = s.memory.clear n (s.reg .t1).toUInt32 ∧
      s.Preserves [.t1, .t2] s' ∧ s'.brk = s.brk ∧ s'.stdout = s.stdout := by
  obtain ⟨s', hcomes, hat, hdone⟩ := h.counted himg Routine.clearTurn
    (s.Clears (s.memory.clear n (s.reg .t1).toUInt32)) rfl hn
    ⟨hcount, hvalid, rfl, fun _ _ => rfl, rfl, rfl⟩ (fun _ _ h => h.turns)
    (fun _ _ _ h => ⟨h.turns, h.target, h.memory, h.regs, h.brk, h.stdout⟩) fun _ _ h => h.turn
  exact ⟨s', hcomes, hat, hdone.memory, hdone.regs, hdone.brk, hdone.stdout⟩

end ChocoRV
