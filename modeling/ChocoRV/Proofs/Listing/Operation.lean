import Mathlib
import ChocoRV.Asm.Listing

/-!
# Reading operations back

A reader for the text of one operation. The words of a text are what stands between blanks; the
first one is the mnemonic, which says what operands follow (`Listing.Form`), and a comma ends every
operand but the last. `Listing.readOp_text` says that the reader gives back the operation that has
been written, also with blanks after it. What text does not show is whether a label that an
operation aims at is global, so labels are read as private ones (`Op.bare`).
-/

namespace ChocoRV

namespace Op

variable {τ σ : Type}

/-- Change the destination, where there is one. -/
def mapTarget (f : τ → σ) : Op τ → Op σ
  | .alu op rd a b => .alu op rd a b
  | .aluImm op rd a n => .aluImm op rd a n
  | .shift op rd a k => .shift op rd a k
  | .li rd n => .li rd n
  | .la rd t => .la rd (f t)
  | .unary op rd a => .unary op rd a
  | .load w rd a n => .load w rd a n
  | .store w s a n => .store w s a n
  | .jump t => .jump (f t)
  | .call t => .call (f t)
  | .callReg a => .callReg a
  | .jumpReg a => .jumpReg a
  | .branch c a b t => .branch c a b (f t)
  | .branchZero c a t => .branchZero c a (f t)
  | .ecall => .ecall

end Op

/-- The label as a place that uses it shows it. -/
def Label.bare (l : Label) : Label := ⟨l.name, false⟩

/-- The operation without what its text does not show. -/
def Op.bare (o : Op Label) : Op Label := o.mapTarget Label.bare

namespace Listing

/-! ## Words -/

/-- The parts of a text between blanks. -/
def words (cs : List Char) : List (List Char) := (cs.splitOn ' ').filter (!·.isEmpty)

theorem words_append_blank (xs ys : List Char) :
    words (xs ++ ' ' :: ys) = words xs ++ words ys := by
  unfold words
  rw [List.splitOn_append_cons_self, List.filter_append]

theorem words_nil : words [] = [] := by
  unfold words
  rw [List.splitOn_nil]
  rfl

variable {w : List Char}

theorem words_of_not_mem (h : ' ' ∉ w) (hne : w ≠ []) : words w = [w] := by
  unfold words
  rw [List.splitOn_eq_singleton h]
  simp [hne]

/-- Blanks at the end make no words. -/
theorem words_pad (xs : List Char) (k : Nat) : words (xs ++ List.replicate k ' ') = words xs := by
  induction k generalizing xs with
  | zero => rw [List.replicate_zero, List.append_nil]
  | succ k ih =>
    have hblank : words (List.replicate k ' ') = [] := by
      have := ih []
      rwa [List.nil_append, words_nil] at this
    rw [List.replicate_succ, words_append_blank, hblank, List.append_nil]

/-- A word that can stand as an operand: no blank, comma, comment sign or line end is in it. -/
structure Solid (w : List Char) : Prop where
  nonempty : w ≠ []
  clean : ∀ c ∈ w, c ∉ [' ', ',', '#', '\n']

theorem Solid.not_mem (h : Solid w) {c : Char} (hc : c ∈ [' ', ',', '#', '\n']) : c ∉ w :=
  fun hw => h.clean c hw hc

-- By way of `List.all`: there are too many characters to go through all of them.
instance (w : List Char) : Decidable (Solid w) :=
  decidable_of_iff (w ≠ [] ∧ w.all (fun c => decide (c ∉ [' ', ',', '#', '\n'])) = true)
    ⟨fun h => ⟨h.1, fun c hc => of_decide_eq_true (List.all_eq_true.mp h.2 c hc)⟩,
      fun h => ⟨h.nonempty, List.all_eq_true.mpr fun c hc => decide_eq_true (h.clean c hc)⟩⟩

/-- The words of a text without the commas that end them. -/
def operands (cs : List Char) : List (List Char) := (words cs).map (·.takeWhile (· != ','))

theorem operands_append_blank (xs ys : List Char) :
    operands (xs ++ ' ' :: ys) = operands xs ++ operands ys := by
  unfold operands
  rw [words_append_blank, List.map_append]

theorem takeWhile_of_solid (h : Solid w) (rest : List Char) :
    (w ++ rest).takeWhile (· != ',') = w ++ rest.takeWhile (· != ',') := by
  refine List.takeWhile_append_of_pos fun c hc => ?_
  rw [bne_iff_ne]
  rintro rfl
  exact h.not_mem (by decide) hc

theorem operands_of_solid (h : Solid w) : operands w = [w] := by
  have htake := takeWhile_of_solid h []
  rw [List.append_nil] at htake
  unfold operands
  rw [words_of_not_mem (h.not_mem (by decide)) h.nonempty, List.map_singleton, htake]
  simp

theorem operands_comma (h : Solid w) : operands (w ++ [',']) = [w] := by
  have hblank : ' ' ∉ w ++ [','] := by
    simp [h.not_mem (c := ' ') (by decide)]
  unfold operands
  rw [words_of_not_mem hblank (by simp), List.map_singleton, takeWhile_of_solid h]
  simp

/-- Operands with commas between them are read back. -/
theorem operands_intercalate : ∀ {ws : List (List Char)}, (∀ w ∈ ws, Solid w) →
    operands ([',', ' '].intercalate ws) = ws
  | [], _ => by
    unfold operands
    rw [List.intercalate_nil, words_nil, List.map_nil]
  | [w], h => by
    rw [List.intercalate_singleton]
    exact operands_of_solid (h w List.mem_cons_self)
  | w :: w' :: ws, h => by
    obtain ⟨hw, hws⟩ := List.forall_mem_cons.mp h
    have hcons : [',', ' '].intercalate (w :: w' :: ws) =
        (w ++ [',']) ++ ' ' :: [',', ' '].intercalate (w' :: ws) := by
      rw [List.intercalate_cons_cons, List.append_assoc, List.append_assoc]
      rfl
    rw [hcons, operands_append_blank, operands_comma hw, operands_intercalate hws]
    rfl

/-! ## Numbers, registers and addresses -/

def natOf (cs : List Char) : Nat := Nat.ofDigitChars 10 cs 0

def intOf : List Char → Int
  | '-' :: cs => -natOf cs
  | cs => natOf cs

def wordOf (cs : List Char) : Int32 := Int32.ofInt (intOf cs)

theorem natOf_toString (n : Nat) : natOf (toString n).toList = n := by
  rw [Nat.toString_eq_ofList_toDigits, String.toList_ofList]
  exact Nat.ofDigitChars_ten_toDigits

theorem isDigit_of_mem_toString {n : Nat} {c : Char} (h : c ∈ (toString n).toList) :
    c.isDigit = true := by
  rw [Nat.toString_eq_ofList_toDigits, String.toList_ofList] at h
  exact Nat.isDigit_of_mem_toDigits (by decide) (by decide) h

theorem intOf_of_not_minus {cs : List Char} (h : '-' ∉ cs) : intOf cs = natOf cs := by
  unfold intOf
  split
  · exact absurd List.mem_cons_self h
  · rfl

theorem intOf_toString (n : Int) : intOf (toString n).toList = n := by
  cases n with
  | ofNat m =>
    show intOf (toString m).toList = _
    rw [intOf_of_not_minus fun h => absurd (isDigit_of_mem_toString h) (by decide), natOf_toString]
    rfl
  | negSucc m =>
    have hminus : (toString (Int.negSucc m)).toList = '-' :: (toString (m + 1)).toList := by
      show ("-" ++ toString (m + 1)).toList = _
      rw [String.toList_append]
      rfl
    rw [hminus, intOf, natOf_toString]
    rfl

theorem wordOf_toString (n : Int32) : wordOf (toString n.toInt).toList = n := by
  rw [wordOf, intOf_toString, Int32.ofInt_toInt]

theorem toString_nat_ne_nil (n : Nat) : (toString n).toList ≠ [] := by
  rw [Nat.toString_eq_ofList_toDigits, String.toList_ofList]
  exact Nat.toDigits_ne_nil

/-- The characters of a number. -/
theorem mem_toString_int {n : Int} {c : Char} (h : c ∈ (toString n).toList) :
    c = '-' ∨ c.isDigit = true := by
  cases n with
  | ofNat m => exact .inr (isDigit_of_mem_toString h)
  | negSucc m =>
    have h : c ∈ ("-" ++ toString (m + 1)).toList := h
    rw [String.toList_append] at h
    rcases List.mem_append.mp h with h | h
    · exact .inl (List.mem_singleton.mp h)
    · exact .inr (isDigit_of_mem_toString h)

def regOf? (cs : List Char) : Option Reg :=
  (PhysReg.all.find? (·.name.toList == cs)).map .phys

/-- The names of registers are different, and each of them is one word. -/
theorem regOf?_name (r : PhysReg) :
    regOf? r.name.toList = some (.phys r) ∧ Solid r.name.toList := by
  have hall : ∀ r ∈ PhysReg.all, regOf? r.name.toList = some (.phys r) ∧ Solid r.name.toList := by
    decide +kernel
  refine hall r ?_
  cases r <;> decide

/-- An address is an offset and a register in brackets. -/
def addressOf? (cs : List Char) : Option (Int32 × Reg) :=
  (regOf? ((cs.dropWhile (· != '(')).drop 1).dropLast).map (wordOf (cs.takeWhile (· != '(')), ·)

theorem addressOf?_text (n : Int32) (r : PhysReg) :
    addressOf? (toString n.toInt ++ "(" ++ r.name ++ ")").toList = some (n, .phys r) := by
  have hopen : ∀ c ∈ (toString n.toInt).toList, (c != '(') = true := by
    intro c hc
    rw [bne_iff_ne]
    rintro rfl
    rcases mem_toString_int hc with h | h
    · exact absurd h (by decide)
    · exact absurd h (by decide)
  have htext : (toString n.toInt ++ "(" ++ r.name ++ ")").toList =
      (toString n.toInt).toList ++ '(' :: (r.name.toList ++ [')']) := by
    rw [String.toList_append, String.toList_append, String.toList_append, List.append_assoc,
      List.append_assoc]
    rfl
  rw [htext, addressOf?, List.takeWhile_append_of_pos hopen, List.dropWhile_append_of_pos hopen]
  simp [(regOf?_name r).1, -Int.toString_eq_repr, wordOf_toString]

/-! ## Forms -/

/-- What a mnemonic says about an operation. -/
inductive Form where
  | alu (op : AluOp)
  | aluImm (op : ImmOp)
  | shift (op : ShiftOp)
  | li
  | la
  | unary (op : UnaryOp)
  | load (width : Width)
  | store (width : Width)
  | jump
  | call
  | callReg
  | jumpReg
  | branch (cmp : Cmp)
  | branchZero (cmp : ZeroCmp)
  | ecall
deriving DecidableEq

namespace Form

def of {τ : Type} : Op τ → Form
  | .alu op .. => .alu op
  | .aluImm op .. => .aluImm op
  | .shift op .. => .shift op
  | .li .. => .li
  | .la .. => .la
  | .unary op .. => .unary op
  | .load w .. => .load w
  | .store w .. => .store w
  | .jump _ => .jump
  | .call _ => .call
  | .callReg _ => .callReg
  | .jumpReg _ => .jumpReg
  | .branch c .. => .branch c
  | .branchZero c .. => .branchZero c
  | .ecall => .ecall

def mnemonic : Form → String
  | .alu op => op.mnemonic
  | .aluImm op => op.mnemonic
  | .shift op => op.mnemonic
  | .li => "li"
  | .la => "la"
  | .unary op => op.mnemonic
  | .load w => w.loadMnemonic
  | .store w => w.storeMnemonic
  | .jump => "j"
  | .call => "jal"
  | .callReg => "jalr"
  | .jumpReg => "jr"
  | .branch c => c.mnemonic
  | .branchZero c => c.mnemonic
  | .ecall => "ecall"

theorem mnemonic_of {τ : Type} (o : Op τ) : (of o).mnemonic = o.mnemonic := by
  cases o <;> rfl

def all : List Form :=
  [AluOp.add, .sub, .mul, .div, .rem, .and, .or, .xor, .sll, .slt, .sltu].map alu ++
    [ImmOp.addi, .andi, .xori, .slti].map aluImm ++ [ShiftOp.slli, .srai].map shift ++
    [UnaryOp.mv, .seqz, .snez].map unary ++ [Width.byte, .word].map load ++
    [Width.byte, .word].map store ++ [Cmp.eq, .ne, .lt, .ge, .ltu, .geu].map branch ++
    [ZeroCmp.eq, .ne].map branchZero ++ [li, la, jump, call, callReg, jumpReg, ecall]

def ofMnemonic? (cs : List Char) : Option Form := all.find? (·.mnemonic.toList == cs)

/-- Mnemonics are different, and each of them is one word that does not begin with a dot. -/
theorem mnemonic_spec (f : Form) : ofMnemonic? f.mnemonic.toList = some f ∧
    Solid f.mnemonic.toList ∧ f.mnemonic.toList.head? ≠ some '.' := by
  have hall : ∀ f ∈ all, ofMnemonic? f.mnemonic.toList = some f ∧ Solid f.mnemonic.toList ∧
      f.mnemonic.toList.head? ≠ some '.' := by
    decide +kernel
  refine hall f ?_
  cases f with
  | alu op | aluImm op | shift op | unary op | load op | store op | branch op | branchZero op =>
    cases op <;> decide
  | li | la | jump | call | callReg | jumpReg | ecall => decide

def labelOf (cs : List Char) : Label := ⟨String.ofList cs, false⟩

/-- The amount of a shift. -/
def amountOf (cs : List Char) : Fin 32 := ⟨natOf cs % 32, Nat.mod_lt _ (by decide)⟩

theorem amountOf_toString (k : Fin 32) : amountOf (toString k.val).toList = k := by
  apply Fin.ext
  show natOf (toString k.val).toList % 32 = k.val
  rw [natOf_toString, Nat.mod_eq_of_lt k.isLt]

/-- The operation of a form with the operands that are written. -/
def read? : Form → List (List Char) → Option (Op Label)
  | .alu op, [rd, a, b] => return .alu op (← regOf? rd) (← regOf? a) (← regOf? b)
  | .aluImm op, [rd, a, n] => return .aluImm op (← regOf? rd) (← regOf? a) (wordOf n)
  | .shift op, [rd, a, k] => return .shift op (← regOf? rd) (← regOf? a) (amountOf k)
  | .li, [rd, n] => return .li (← regOf? rd) (wordOf n)
  | .la, [rd, t] => return .la (← regOf? rd) (labelOf t)
  | .unary op, [rd, a] => return .unary op (← regOf? rd) (← regOf? a)
  | .load w, [rd, m] => do
    let (offset, base) ← addressOf? m
    return .load w (← regOf? rd) base offset
  | .store w, [src, m] => do
    let (offset, base) ← addressOf? m
    return .store w (← regOf? src) base offset
  | .jump, [t] => some (.jump (labelOf t))
  | .call, [t] => some (.call (labelOf t))
  | .callReg, [a] => return .callReg (← regOf? a)
  | .jumpReg, [a] => return .jumpReg (← regOf? a)
  | .branch c, [a, b, t] => return .branch c (← regOf? a) (← regOf? b) (labelOf t)
  | .branchZero c, [a, t] => return .branchZero c (← regOf? a) (labelOf t)
  | .ecall, [] => some .ecall
  | _, _ => none

end Form

/-- The operation of a text. -/
def readOp? (cs : List Char) : Option (Op Label) :=
  match operands cs with
  | [] => none
  | m :: args => (Form.ofMnemonic? m).bind (·.read? args)

end Listing

/-! ## What is written can be read -/

/-- A label that can be read back: its name is one word that cannot be taken for a number. Names of
letters, digits, underscores, dots and dollars that do not begin with a digit are such. -/
structure Label.Legible (l : Label) : Prop where
  solid : Listing.Solid l.name.toList
  head : ∀ c ∈ l.name.toList.head?, c.isDigit = false ∧ c ≠ '-'

instance (l : Label) : Decidable l.Legible :=
  decidable_of_iff (Listing.Solid l.name.toList ∧
      l.name.toList.head?.all (fun c => !c.isDigit && c != '-') = true)
    ⟨fun h => ⟨h.1, fun c hc => by simpa [Option.mem_def.mp hc] using h.2⟩,
      fun h => ⟨h.solid, by
        cases hc : l.name.toList.head? with
        | none => rfl
        | some c => simpa using h.head c hc⟩⟩

/-- The label that an operation aims at can be read back. -/
def Op.Legible (o : Op Label) : Prop := ∀ t ∈ o.target?, t.Legible

namespace Listing

theorem solid_toString_int (n : Int) : Solid (toString n).toList where
  nonempty := by
    cases n with
    | ofNat m => exact toString_nat_ne_nil m
    | negSucc m =>
      show ("-" ++ toString (m + 1)).toList ≠ []
      simp
  clean c hc hbad := by
    rcases mem_toString_int hc with rfl | hdigit
    · exact absurd hbad (by decide)
    · simp only [List.mem_cons, List.not_mem_nil, or_false] at hbad
      rcases hbad with rfl | rfl | rfl | rfl <;> exact absurd hdigit (by decide)

theorem solid_address (n : Int32) (r : PhysReg) :
    Solid (toString n.toInt ++ "(" ++ r.name ++ ")").toList where
  nonempty := by simp
  clean c hc hbad := by
    rw [String.toList_append, String.toList_append, String.toList_append] at hc
    simp only [List.mem_append] at hc
    rcases hc with ((hc | hc) | hc) | hc
    · exact (solid_toString_int n.toInt).clean c hc hbad
    · cases List.mem_singleton.mp hc
      exact absurd hbad (by decide)
    · exact (regOf?_name r).2.clean c hc hbad
    · cases List.mem_singleton.mp hc
      exact absurd hbad (by decide)

/-- The registers of an operation without temporaries. -/
theorem exists_phys {o : Op Label} (hv : o.hasVirt = false) {r : Reg}
    (hr : r ∈ o.def? ∨ r ∈ o.uses) : ∃ p, r = .phys p := by
  obtain ⟨hdef, huses⟩ := Bool.or_eq_false_iff.mp hv
  have hvirt : r.isVirt = false := by
    rcases hr with hr | hr
    · rw [Option.mem_def.mp hr] at hdef
      exact hdef
    · simpa using List.any_eq_false.mp huses r hr
  cases r with
  | phys p => exact ⟨p, rfl⟩
  | virt n => cases hvirt

/-- The operands of an operation without temporaries are words. -/
theorem solid_operandTexts {o : Op Label} (hv : o.hasVirt = false) (ht : o.Legible) :
    ∀ w ∈ o.operandTexts Label.name, Solid w.toList := by
  have hreg : ∀ r, r ∈ o.def? ∨ r ∈ o.uses → Solid r.text.toList ∧
      ∀ n : Int32, Solid (toString n.toInt ++ "(" ++ r.text ++ ")").toList := by
    intro r hr
    obtain ⟨p, rfl⟩ := exists_phys hv hr
    exact ⟨(regOf?_name p).2, fun n => solid_address n p⟩
  have hlabel : ∀ t ∈ o.target?, Solid t.name.toList := fun t h => (ht t h).solid
  have hamount (k : Fin 32) : Solid (toString k.val).toList := solid_toString_int k.val
  cases o <;> simp_all [Op.def?, Op.uses, Op.target?, Op.operandTexts, solid_toString_int,
    -Int.toString_eq_repr, -Nat.toString_eq_repr, -String.toList_append]

theorem labelOf_name (t : Label) : Form.labelOf t.name.toList = t.bare := by
  rw [Form.labelOf, String.ofList_toList]
  rfl

/-- The form of an operation without temporaries reads its operands back. -/
theorem read?_operandTexts {o : Op Label} (hv : o.hasVirt = false) :
    (Form.of o).read? ((o.operandTexts Label.name).map String.toList) = some o.bare := by
  have hreg : ∀ r, r ∈ o.def? ∨ r ∈ o.uses → regOf? r.text.toList = some r ∧
      ∀ n : Int32, addressOf? (toString n.toInt ++ "(" ++ r.text ++ ")").toList = some (n, r) := by
    intro r hr
    obtain ⟨p, rfl⟩ := exists_phys hv hr
    exact ⟨(regOf?_name p).1, fun n => addressOf?_text n p⟩
  -- The form of each operation is known, so its reader opens to the readers of the operands.
  cases o <;> simp_all [Op.def?, Op.uses, Op.operandTexts, Form.of, Form.read?, Op.bare,
    Op.mapTarget, wordOf_toString, Form.amountOf_toString, labelOf_name, -Int.toString_eq_repr,
      -Nat.toString_eq_repr,
    -String.toList_append]

/-- The mnemonic of an operation can be read, and it is one word that does not begin with a dot. -/
theorem mnemonic_spec (o : Op Label) : Form.ofMnemonic? o.mnemonic.toList = some (Form.of o) ∧
    Solid o.mnemonic.toList ∧ o.mnemonic.toList.head? ≠ some '.' := by
  rw [← Form.mnemonic_of]
  exact Form.mnemonic_spec _

/-- The text of an operation is its mnemonic, with its operands after it, if there are any. -/
theorem toList_text (o : Op Label) : (o.text Label.name).toList = o.mnemonic.toList ∧
      o.operandTexts Label.name = [] ∨
    (o.text Label.name).toList = o.mnemonic.toList ++ ' ' ::
      [',', ' '].intercalate ((o.operandTexts Label.name).map String.toList) := by
  unfold Op.text
  split
  · rename_i hnil
    exact .inl ⟨rfl, hnil⟩
  · refine .inr ?_
    rw [String.toList_append, String.toList_append, String.toList_intercalate, List.append_assoc]
    rfl

variable {o : Op Label}

theorem operands_text (hv : o.hasVirt = false) (ht : o.Legible) :
    operands (o.text Label.name).toList =
      o.mnemonic.toList :: (o.operandTexts Label.name).map String.toList := by
  have hm := (mnemonic_spec o).2.1
  have hws : ∀ w ∈ (o.operandTexts Label.name).map String.toList, Solid w :=
    List.forall_mem_map.mpr (solid_operandTexts hv ht)
  rcases toList_text o with ⟨htext, hnil⟩ | htext
  · rw [htext, hnil, operands_of_solid hm]
    rfl
  · rw [htext, operands_append_blank, operands_of_solid hm, operands_intercalate hws]
    rfl

/-- An operation without temporaries is read back, whatever number of blanks comes after it. -/
theorem readOp?_text (hv : o.hasVirt = false) (ht : o.Legible) (k : Nat) :
    readOp? ((o.text Label.name).toList ++ List.replicate k ' ') = some o.bare := by
  have hpad : operands ((o.text Label.name).toList ++ List.replicate k ' ') =
      operands (o.text Label.name).toList := by
    unfold operands
    rw [words_pad]
  unfold readOp?
  rw [hpad, operands_text hv ht]
  show (Form.ofMnemonic? o.mnemonic.toList).bind _ = _
  rw [(mnemonic_spec o).1, Option.bind_some, read?_operandTexts hv]

theorem mem_of_mem_intercalate {c : Char} : ∀ {ws : List (List Char)},
    c ∈ [',', ' '].intercalate ws → c ∈ [',', ' '] ∨ ∃ w ∈ ws, c ∈ w
  | [], h => by
    rw [List.intercalate_nil] at h
    cases h
  | [w], h => by
    rw [List.intercalate_singleton] at h
    exact .inr ⟨w, List.mem_cons_self, h⟩
  | w :: w' :: ws, h => by
    rw [List.intercalate_cons_cons, List.mem_append, List.mem_append] at h
    rcases h with (h | h) | h
    · exact .inr ⟨w, List.mem_cons_self, h⟩
    · exact .inl h
    · rcases mem_of_mem_intercalate h with h | ⟨v, hv, h⟩
      · exact .inl h
      · exact .inr ⟨v, List.mem_cons_of_mem _ hv, h⟩

/-- No comment sign and no line end is in the text of an operation, and it begins with no dot. -/
theorem text_clean (hv : o.hasVirt = false) (ht : o.Legible) :
    (∀ c ∈ (o.text Label.name).toList, c ∉ ['#', '\n']) ∧
      (o.text Label.name).toList.head? ≠ some '.' := by
  obtain ⟨-, hm, hdot⟩ := mnemonic_spec o
  have solid {w : List Char} (hw : Solid w) {c : Char} (hc : c ∈ w) : c ∉ ['#', '\n'] := by
    intro hbad
    rcases List.mem_pair.mp hbad with rfl | rfl
    · exact hw.not_mem (by decide) hc
    · exact hw.not_mem (by decide) hc
  rcases toList_text o with ⟨htext, -⟩ | htext
  · rw [htext]
    exact ⟨fun c hc => solid hm hc, hdot⟩
  · rw [htext]
    refine ⟨fun c hc => ?_, ?_⟩
    · rcases List.mem_append.mp hc with hc | hc
      · exact solid hm hc
      rcases List.mem_cons.mp hc with rfl | hc
      · decide
      rcases mem_of_mem_intercalate hc with hc | ⟨w, hw, hc⟩
      · rcases List.mem_pair.mp hc with rfl | rfl
        · decide
        · decide
      · obtain ⟨text, hmem, rfl⟩ := List.mem_map.mp hw
        exact solid (solid_operandTexts hv ht text hmem) hc
    · rw [List.head?_append_of_ne_nil _ hm.nonempty]
      exact hdot

end Listing

end ChocoRV
