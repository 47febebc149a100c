import Mathlib
import ChocoRV.Text.Utf8

/-!
# Texts and their bytes

The bytes of a text are read back as the same text. A character is read byte by byte: its first byte
announces how many are to come and in which range the next one is, and each further byte adds six
bits. Only the character with number zero has a zero byte, so a text up to its first zero byte is
what comes before that character.
-/

namespace ChocoRV.Utf8

/-! ## The bytes of a character -/

theorem toNat_ofNat_byte {n : Nat} (h : n < 256) : (UInt8.ofNat n).toNat = n :=
    UInt8.toNat_ofNat_of_lt' h

theorem first_one {n : Nat} (h : n ≤ 127) : first (UInt8.ofNat n) = .done (Char.ofNat n) := by
  have hb : (UInt8.ofNat n).toNat = n := toNat_ofNat_byte (by omega)
  rw [first, if_pos (UInt8.lt_iff_toNat_lt.mpr (by rw [hb]; exact Nat.lt_succ_of_le h)), hb]

/-- The first of two bytes. -/
theorem first_two {n : Nat} (hl : 2 ≤ n) (hh : n < 32) :
    first (UInt8.ofNat (n + 192)) = .more ⟨1, 0x80, 0xBF, n⟩ := by
  interval_cases n <;> rfl

/-- The first of three bytes. -/
theorem first_three {n : Nat} (h : n < 16) :
    first (UInt8.ofNat (n + 224)) =
      .more ⟨2, if n = 0 then 0xA0 else 0x80, if n = 13 then 0x9F else 0xBF, n⟩ := by
  interval_cases n <;> rfl

/-- The first of four bytes. -/
theorem first_four {n : Nat} (h : n < 5) :
    first (UInt8.ofNat (n + 240)) =
      .more ⟨3, if n = 0 then 0x90 else 0x80, if n = 4 then 0x8F else 0xBF, n⟩ := by
  interval_cases n <;> rfl

theorem decodeFrom_more {b : UInt8} {p : Pending} (h : first b = .more p) (bs : List UInt8) :
    decodeFrom none (b :: bs) = decodeFrom (some p) bs := by
  show (start b).1 ++ decodeFrom (start b).2 bs = _
  rw [start, h]
  rfl

variable {low high : UInt8} {bits n : Nat}

/-- A further byte in its range adds six bits. -/
theorem resume_eq (owed : Nat) (hn : n < 64) (hl : low.toNat ≤ n + 128)
    (hh : n + 128 ≤ high.toNat) :
    resume ⟨owed, low, high, bits⟩ (UInt8.ofNat (n + 128)) =
      if owed ≤ 1 then ([Char.ofNat (bits * 64 + n)], none)
      else ([], some ⟨owed - 1, 0x80, 0xBF, bits * 64 + n⟩) := by
  have hb : (UInt8.ofNat (n + 128)).toNat = n + 128 := toNat_ofNat_byte (by omega)
  have hrange : (low ≤ UInt8.ofNat (n + 128) && UInt8.ofNat (n + 128) ≤ high) = true := by
    rw [Bool.and_eq_true, decide_eq_true_iff, decide_eq_true_iff, UInt8.le_iff_toNat_le,
      UInt8.le_iff_toNat_le, hb]
    exact ⟨hl, hh⟩
  rw [resume, if_pos hrange, hb, Nat.add_sub_cancel]

theorem decodeFrom_last (hn : n < 64) (hl : low.toNat ≤ n + 128) (hh : n + 128 ≤ high.toNat)
    (bs : List UInt8) :
    decodeFrom (some ⟨1, low, high, bits⟩) (UInt8.ofNat (n + 128) :: bs) =
      Char.ofNat (bits * 64 + n) :: decodeFrom none bs := by
  show (resume _ _).1 ++ decodeFrom (resume _ _).2 bs = _
  rw [resume_eq 1 hn hl hh]
  rfl

theorem decodeFrom_next (owed : Nat) (hn : n < 64) (hl : low.toNat ≤ n + 128)
    (hh : n + 128 ≤ high.toNat) (bs : List UInt8) :
    decodeFrom (some ⟨owed + 2, low, high, bits⟩) (UInt8.ofNat (n + 128) :: bs) =
      decodeFrom (some ⟨owed + 1, 0x80, 0xBF, bits * 64 + n⟩) bs := by
  show (resume _ _).1 ++ decodeFrom (resume _ _).2 bs = _
  rw [resume_eq (owed + 2) hn hl hh]
  rfl

/-- The bytes of a character are read as the character. -/
theorem decodeFrom_encodeChar (c : Char) (bs : List UInt8) :
    decodeFrom none (String.utf8EncodeChar c ++ bs) = c :: decodeFrom none bs := by
  have hchar : Char.ofNat c.val.toNat = c := Char.ofNat_toNat c
  -- A character is no surrogate, and there is a last one.
  have hvalid : c.val.toNat < 55296 ∨ 57343 < c.val.toNat ∧ c.val.toNat < 1114112 := c.valid
  rw [String.utf8EncodeChar]
  generalize c.val.toNat = v at hchar hvalid ⊢
  split
  · rename_i h1
    show (start _).1 ++ decodeFrom (start _).2 bs = _
    rw [start, first_one h1, hchar]
    rfl
  -- A middle byte is in the widest range.
  have hrange {n : Nat} (hn : n < 64) : (0x80 : UInt8).toNat ≤ n + 128 ∧
      n + 128 ≤ (0xBF : UInt8).toNat :=
    ⟨Nat.le_add_left _ _, Nat.add_le_add_right (Nat.le_of_lt_succ hn) 128⟩
  have h0 : v % 64 < 64 := Nat.mod_lt _ (by decide)
  have h6 : v / 64 % 64 < 64 := Nat.mod_lt _ (by decide)
  have h12 : v / 4096 % 64 < 64 := Nat.mod_lt _ (by decide)
  split
  · rename_i h1 h2
    have hlead : v / 64 % 32 = v / 64 := Nat.mod_eq_of_lt (by omega)
    rw [hlead]
    show decodeFrom none (_ :: _ :: bs) = _
    rw [decodeFrom_more (first_two (by omega) (by omega)),
      decodeFrom_last h0 (hrange h0).1 (hrange h0).2, Nat.div_add_mod', hchar]
  split
  · rename_i h1 h2 h3
    have hlead : v / 4096 % 16 = v / 4096 := Nat.mod_eq_of_lt (by omega)
    have hbits : (v / 4096 * 64 + v / 64 % 64) * 64 + v % 64 = v := by omega
    -- No overlong form and no surrogate.
    have hlow : (if v / 4096 = 0 then (0xA0 : UInt8) else 0x80).toNat ≤ v / 64 % 64 + 128 := by
      split
      · show 160 ≤ _
        omega
      · exact (hrange h6).1
    have hhigh : v / 64 % 64 + 128 ≤ (if v / 4096 = 13 then (0x9F : UInt8) else 0xBF).toNat := by
      split
      · show _ ≤ 159
        omega
      · exact (hrange h6).2
    rw [hlead]
    show decodeFrom none (_ :: _ :: _ :: bs) = _
    rw [decodeFrom_more (first_three (by omega)), decodeFrom_next 0 h6 hlow hhigh,
      decodeFrom_last h0 (hrange h0).1 (hrange h0).2, hbits, hchar]
  · rename_i h1 h2 h3
    have hlead : v / 262144 % 8 = v / 262144 := Nat.mod_eq_of_lt (by omega)
    have hbits : ((v / 262144 * 64 + v / 4096 % 64) * 64 + v / 64 % 64) * 64 + v % 64 = v := by
      omega
    -- No overlong form and nothing beyond the last character.
    have hlow : (if v / 262144 = 0 then (0x90 : UInt8) else 0x80).toNat ≤ v / 4096 % 64 + 128 := by
      split
      · show 144 ≤ _
        omega
      · exact (hrange h12).1
    have hhigh : v / 4096 % 64 + 128 ≤ (if v / 262144 = 4 then (0x8F : UInt8) else 0xBF).toNat := by
      split
      · show _ ≤ 143
        omega
      · exact (hrange h12).2
    rw [hlead]
    show decodeFrom none (_ :: _ :: _ :: _ :: bs) = _
    rw [decodeFrom_more (first_four (by omega)), decodeFrom_next 1 h12 hlow hhigh,
      decodeFrom_next 0 h6 (hrange h6).1 (hrange h6).2,
        decodeFrom_last h0 (hrange h0).1 (hrange h0).2, hbits,
      hchar]

/-! ## Texts -/

/-- The bytes of a text are read as the text. -/
theorem decodeLossy_encode (text : String) : decodeLossy (encode text) = text := by
  have hchars (cs : List Char) : decodeFrom none (cs.flatMap String.utf8EncodeChar) = cs := by
    induction cs with
    | nil => rfl
    | cons c cs ih => rw [List.flatMap_cons, decodeFrom_encodeChar, ih]
  rw [decodeLossy, encode, hchars, String.ofList_toList]

/-- The character whose number is zero. -/
def nul : Char := Char.ofNat 0

/-- No other character has a zero byte. -/
theorem ne_zero_of_mem_encodeChar {c : Char} (hc : c ≠ nul) {b : UInt8}
    (hb : b ∈ String.utf8EncodeChar c) : b ≠ 0 := by
  have hpos : c.val.toNat ≠ 0 := fun h =>
    hc ((Char.ofNat_toNat c).symm.trans (congrArg Char.ofNat h))
  have hne {n : Nat} (hn : n % 256 ≠ 0) : UInt8.ofNat n ≠ 0 := fun h => hn (by
    rw [← UInt8.toNat_ofNat', h]
    rfl)
  rw [String.utf8EncodeChar] at hb
  generalize c.val.toNat = v at hpos hb
  split at hb
  · rw [List.mem_singleton.mp hb]
    exact hne (by omega)
  split at hb
  · simp only [List.mem_cons, List.not_mem_nil, or_false] at hb
    rcases hb with rfl | rfl <;> exact hne (by omega)
  split at hb
  · simp only [List.mem_cons, List.not_mem_nil, or_false] at hb
    rcases hb with rfl | rfl | rfl <;> exact hne (by omega)
  · simp only [List.mem_cons, List.not_mem_nil, or_false] at hb
    rcases hb with rfl | rfl | rfl | rfl <;> exact hne (by omega)

/-- A text up to its first character with number zero. -/
def beforeNul (text : String) : String := String.ofList (text.toList.takeWhile (· != nul))

theorem beforeNul_eq_self {text : String} (h : nul ∉ text.toList) : beforeNul text = text := by
  have hall : ∀ c ∈ text.toList, (c != nul) = true := fun c hc => bne_iff_ne.mpr fun e => h (e ▸ hc)
  rw [beforeNul, List.takeWhile_eq_self_iff.mpr hall, String.ofList_toList]

/-- Nothing is left out of a text if and only if it has no such character. -/
theorem beforeNul_eq_self_iff {text : String} : beforeNul text = text ↔ nul ∉ text.toList := by
  refine ⟨fun h hmem => ?_, beforeNul_eq_self⟩
  rw [← h, beforeNul, String.toList_ofList] at hmem
  have hne : (nul != nul) = true := List.mem_takeWhile_imp (p := (· != nul)) hmem
  exact bne_iff_ne.mp hne rfl

/-- The bytes of a text up to the first zero byte. -/
theorem takeWhile_encode (text : String) :
    (encode text ++ [0]).takeWhile (· != 0) = encode (beforeNul text) := by
  rw [encode, encode, beforeNul, String.toList_ofList]
  induction text.toList with
  | nil => rfl
  | cons c cs ih =>
    by_cases hc : c = nul
    · subst hc
      rfl
    · rw [List.takeWhile_cons_of_pos (p := (· != nul)) (bne_iff_ne.mpr hc), List.flatMap_cons,
        List.flatMap_cons, List.append_assoc, List.takeWhile_append_of_pos, ih]
      exact fun b hb => bne_iff_ne.mpr (ne_zero_of_mem_encodeChar hc hb)

end ChocoRV.Utf8
