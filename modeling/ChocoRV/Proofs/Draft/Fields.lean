import Mathlib
import ChocoRV.Draft.Function
import ChocoRV.Proofs.Symbol.Closed

/-!
# Operands of twelve bits

The encoding of an instruction has twelve bits for a constant operand and for the offset of a load
or a store. An operation is `Op.Encodable` if its operand fits. Most operands of drafted code are
small constants. Those that grow with the program are offsets of variables and attributes, places of
methods, numbers of argument words and numbers of list elements:

- `SymbolTable.Compact` bounds what a table hands out,
- `Expr.displaysWithin` and `Stmt.displaysWithin` bound the list displays of the code itself.
-/

namespace ChocoRV

/-! ## Operands -/

/-- A number of twelve bits, one of them the sign. -/
def Short (n : Int32) : Prop := -2048 ≤ n.toInt ∧ n.toInt ≤ 2047

instance (n : Int32) : Decidable (Short n) := inferInstanceAs (Decidable (_ ∧ _))

theorem short_ofInt {n : Int} (hlow : -2048 ≤ n) (hhigh : n ≤ 2047) : Short (Int32.ofInt n) := by
  have h : (Int32.ofInt n).toInt = n := Int32.toInt_ofInt_of_le (by omega) (by omega)
  exact ⟨by omega, by omega⟩

theorem slotOffset_eq_ofInt (k : Nat) : Object.slotOffset k = Int32.ofInt (4 * k) := by
  rw [Object.slotOffset_eq, ← Int32.ofInt_eq_ofNat]
  rfl

theorem short_slotOffset {k : Nat} (h : k ≤ 511) : Short (Object.slotOffset k) := by
  rw [slotOffset_eq_ofInt]
  exact short_ofInt (by omega) (by omega)

theorem short_neg_slotOffset {k : Nat} (h : k ≤ 512) : Short (-Object.slotOffset k) := by
  rw [slotOffset_eq_ofInt, ← Int32.ofInt_neg]
  exact short_ofInt (by omega) (by omega)

namespace Frame

theorem short_paramOffset {k : Nat} (h : k ≤ 511) : Short (paramOffset k) := short_slotOffset h

theorem localOffset_eq_ofInt (k : Nat) : localOffset k = Int32.ofInt (-(4 * (3 + k : Nat))) := by
  have hk : Int32.ofNat k = Int32.ofInt k := Int32.ofInt_eq_ofNat.symm
  have h3 : Int32.ofInt 3 = 3 := rfl
  have h4 : Int32.ofInt 4 = 4 := rfl
  rw [localOffset, hk]
  push_cast
  rw [Int32.ofInt_neg, Int32.ofInt_mul, Int32.ofInt_add, h3, h4]
  grind

theorem short_localOffset {k : Nat} (h : k ≤ 509) : Short (localOffset k) := by
  rw [localOffset_eq_ofInt]
  exact short_ofInt (by omega) (by omega)

end Frame

namespace Op

variable {τ : Type}

/-- The operand that has twelve bits in an encoded instruction. -/
def field? : Op τ → Option Int32
  | .aluImm _ _ _ n | .load _ _ _ n | .store _ _ _ n => some n
  | _ => none

/-- The operand of twelve bits, if there is one, fits. -/
def Encodable (o : Op τ) : Prop := ∀ n ∈ o.field?, Short n

instance (o : Op τ) : Decidable o.Encodable :=
  inferInstanceAs (Decidable (∀ n ∈ o.field?, Short n))

theorem encodable_of_eq_none {o : Op τ} (h : o.field? = none) : o.Encodable := by
  intro n hn
  rw [h] at hn
  cases hn

variable {n : Int32}

theorem encodable_iff_of_eq_some {o : Op τ} (h : o.field? = some n) : o.Encodable ↔ Short n := by
  simp [Encodable, h]

variable {rd a : Reg}

@[simp] theorem encodable_alu {op : AluOp} {b : Reg} : (alu op rd a b : Op τ).Encodable :=
  encodable_of_eq_none rfl

@[simp] theorem encodable_aluImm {op : ImmOp} :
    (aluImm op rd a n : Op τ).Encodable ↔ Short n := encodable_iff_of_eq_some rfl

@[simp] theorem encodable_shift {op : ShiftOp} {k : Fin 32} :
    (shift op rd a k : Op τ).Encodable := encodable_of_eq_none rfl

@[simp] theorem encodable_li : (li rd n : Op τ).Encodable :=
  encodable_of_eq_none rfl

@[simp] theorem encodable_la {t : τ} : (la rd t).Encodable := encodable_of_eq_none rfl

@[simp] theorem encodable_unary {op : UnaryOp} : (unary op rd a : Op τ).Encodable :=
  encodable_of_eq_none rfl

@[simp] theorem encodable_load {w : Width} {base : Reg} :
    (load w rd base n : Op τ).Encodable ↔ Short n := encodable_iff_of_eq_some rfl

@[simp] theorem encodable_store {w : Width} {src base : Reg} :
    (store w src base n : Op τ).Encodable ↔ Short n := encodable_iff_of_eq_some rfl

@[simp] theorem encodable_jump {t : τ} : (jump t).Encodable := encodable_of_eq_none rfl

@[simp] theorem encodable_call {t : τ} : (call t).Encodable := encodable_of_eq_none rfl

@[simp] theorem encodable_callReg : (callReg a : Op τ).Encodable :=
  encodable_of_eq_none rfl

@[simp] theorem encodable_jumpReg : (jumpReg a : Op τ).Encodable :=
  encodable_of_eq_none rfl

@[simp] theorem encodable_branch {c : Cmp} {b : Reg} {t : τ} : (branch c a b t).Encodable :=
  encodable_of_eq_none rfl

@[simp] theorem encodable_branchZero {c : ZeroCmp} {t : τ} :
    (branchZero c a t).Encodable := encodable_of_eq_none rfl

@[simp] theorem encodable_ecall : (ecall : Op τ).Encodable := encodable_of_eq_none rfl

/-- Other registers in the place of the operands do not matter. -/
@[simp] theorem encodable_mapRegs {o : Op τ} {src dst : Reg → Reg} :
    (o.mapRegs src dst).Encodable ↔ o.Encodable := by
  have h : (o.mapRegs src dst).field? = o.field? := by cases o <;> rfl
  rw [Encodable, Encodable, h]

end Op

/-- The constants that drafted code and routines use. -/
@[simp] theorem short_named :
    Short 0 ∧ Short 1 ∧ Short Object.wordSize ∧ Short Object.sizeOffset ∧
      Short Object.dispatchTableOffset ∧ Short Object.tagOffset := by
  decide

/-! ## List displays -/

mutual

/-- Every list display in the expression has at most `n` elements. -/
def Expr.displaysWithin (n : Nat) : Expr → Bool
  | .int .. | .bool .. | .str .. | .none _ | .name .. => true
  | .binary _ left _ right => left.displaysWithin n && right.displaysWithin n
  | .unary _ _ e => e.displaysWithin n
  | .cond _ test onTrue onFalse =>
    test.displaysWithin n && onTrue.displaysWithin n && onFalse.displaysWithin n
  | .call _ _ args => Expr.allDisplaysWithin n args
  | .methodCall _ object _ args => object.displaysWithin n && Expr.allDisplaysWithin n args
  | .member _ object _ => object.displaysWithin n
  | .index _ seq idx => seq.displaysWithin n && idx.displaysWithin n
  | .list _ elements => elements.length ≤ n && Expr.allDisplaysWithin n elements

/-- The same of several expressions. -/
def Expr.allDisplaysWithin (n : Nat) : List Expr → Bool
  | [] => true
  | e :: es => e.displaysWithin n && Expr.allDisplaysWithin n es

end

mutual

/-- Every list display in the statement has at most `n` elements. -/
def Stmt.displaysWithin (n : Nat) : Stmt → Bool
  | .expr _ e => e.displaysWithin n
  | .assign _ targets value => Expr.allDisplaysWithin n targets && value.displaysWithin n
  | .ifElse _ test onTrue onFalse =>
    test.displaysWithin n && Stmt.allDisplaysWithin n onTrue && Stmt.allDisplaysWithin n onFalse
  | .whileLoop _ test body => test.displaysWithin n && Stmt.allDisplaysWithin n body
  | .forEach _ _ seq body => seq.displaysWithin n && Stmt.allDisplaysWithin n body
  | .ret _ value => value.all (·.displaysWithin n)
  | .pass _ => true

/-- The same of several statements. -/
def Stmt.allDisplaysWithin (n : Nat) : List Stmt → Bool
  | [] => true
  | s :: ss => s.displaysWithin n && Stmt.allDisplaysWithin n ss

end

/-! ## Tables -/

/-- What a table hands out as an operand is short, and calls have few words. -/
structure SymbolTable.Compact (t : SymbolTable) : Prop where
  stack {scope : Nat} {name : String} {v : StackVar}
    (h : t.lookup? scope name = some (.stack v)) : Short v.offset
  attr {scope : Nat} {name : String} {a : Attribute}
    (h : t.lookup? scope name = some (.attr a)) : Short a.offset
  args (id : Nat) : (t.func id).argCount ≤ 511
  methods (id : Nat) : (t.cls id).methods.length ≤ 512

namespace Env

variable {env : Env}

/-- A variable of a frame has a short offset. -/
theorem short_of_resolve (ht : env.table.Compact) {name : String} {span : Span} {v : StackVar}
    (h : env.resolve name span = .ok (.stack v)) : Short v.offset :=
  ht.stack (SymbolTable.lookup_eq_ok_iff.mp h)

/-- An attribute has a short offset. -/
theorem short_of_attrOf (ht : env.table.Compact) {object : Expr} {attr : String} {span : Span}
    {a : Attribute} (h : env.attrOf object attr span = .ok a) : Short a.offset := by
  obtain ⟨c, -, h⟩ := bind_eq_ok_iff.mp h
  cases hattr : env.table.attrOf c attr with
  | error e =>
    rw [hattr] at h
    cases h
  | ok b =>
    rw [hattr] at h
    cases h
    obtain ⟨sym, hsym, hattr⟩ := bind_eq_ok_iff.mp hattr
    cases sym with
    | attr b =>
      cases hattr
      exact ht.attr (SymbolTable.lookup_eq_ok_iff.mp hsym)
    | cls | func | global | stack => cases hattr

/-- The place of a method in its dispatch table. -/
theorem slot_lt_of_method? {c : ClassInfo} {name : String} {slot : Nat} {m : Method}
    (h : c.method? name = some (slot, m)) : slot < c.methods.length := by
  obtain ⟨k, -, h⟩ := Option.bind_eq_some_iff.mp h
  obtain ⟨m', hm, h⟩ := Option.map_eq_some_iff.mp h
  cases h
  exact (List.getElem?_eq_some_iff.mp hm).1

/-- A method that a call names has one of the places of its class, and few parameters. -/
theorem bounds_of_methodOf (ht : env.table.Compact) {object : Expr} {method : String} {span : Span}
    {slot : Nat} {params : List TypedVar}
    (h : env.methodOf object method span = .ok (slot, params)) :
    slot ≤ 511 ∧ 1 + params.length ≤ 511 := by
  obtain ⟨c, hc, h⟩ := bind_eq_ok_iff.mp h
  have hcls : ∃ id, c = env.table.cls id := by
    cases htype : object.type with
    | list t =>
      rw [htype] at hc
      cases hc
    | named name =>
      rw [htype] at hc
      obtain ⟨sym, -, hc⟩ := bind_eq_ok_iff.mp hc
      cases sym with
      | cls id =>
        cases hc
        exact ⟨id, rfl⟩
      | func | attr | global | stack => cases hc
  obtain ⟨id, rfl⟩ := hcls
  cases hm : (env.table.cls id).method? method with
  | none =>
    rw [hm] at h
    cases h
  | some found =>
    obtain ⟨k, m⟩ := found
    rw [hm] at h
    cases h
    have hslot := slot_lt_of_method? hm
    have hmethods := ht.methods id
    refine ⟨by omega, ?_⟩
    cases m.func with
    | none => simp
    | some f =>
      have hargs := ht.args f
      rw [FuncInfo.argCount] at hargs
      simp only [List.length_drop]
      omega

end Env

end ChocoRV
