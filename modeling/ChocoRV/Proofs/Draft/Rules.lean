import Mathlib
import ChocoRV.Proofs.Draft.Fields
import ChocoRV.Proofs.Draft.Unbroken
import ChocoRV.Proofs.Draft.Yields
import ChocoRV.Proofs.Operand

/-!
# The rules of drafting

Every draft of an expression, a statement or a function is put together from a few kinds of steps.
`Draft.Drawn` has one rule for each of them. The rules carry along what is open at a place of the
code (`Draft.Scene`) and say what every step keeps to:

* temporaries are taken and released like a stack; an instruction reads only temporaries that have
  been written on every way to it, and writes only temporaries that are held;
* instructions leave alone the registers that temporaries are given, and never write `fp`;
* the stack pointer is moved only to make room for the words of a call and to give it back, and what
  is stored through it goes to the innermost room;
* a label is placed once, and whatever jumps to it comes with the same room open and has written at
  least what counts as written there;
* a jump, a branch or an address aims at a label that the draft places itself, at a constant of the
  pool, or at one of the labels that code in this place can know of (`Env.Reaches`);
* operands can be encoded, if the program is small (`E`);
* no error is about a static chain, if the code belongs to a unit of a program.

What holds of every draft is shown by induction on these rules.
-/

namespace ChocoRV

/-! ## Operands and targets -/

/-- Registers that neither stand for temporaries nor are kept free for reloading them. -/
def PhysReg.plain : PhysReg → Bool
  | .s1 | .s2 | .s3 | .s4 | .s5 | .s6 | .s7 | .s8 | .s9 | .s10 | .s11 | .t5 | .t6 => false
  | _ => true

/-- The registers that drafts name. -/
@[simp] theorem PhysReg.plain_named :
    PhysReg.zero.plain ∧ PhysReg.ra.plain ∧ PhysReg.sp.plain ∧ PhysReg.fp.plain ∧
      PhysReg.t0.plain ∧ PhysReg.t1.plain ∧ PhysReg.t2.plain ∧ PhysReg.a0.plain ∧
      PhysReg.a1.plain ∧ PhysReg.a2.plain := by
  decide

variable {t : Nat}

namespace Reg

/-- An operand that code may read while the temporaries `H` may be read. -/
def Readable (H : List Nat) : Reg → Prop
  | .phys p => p.plain = true
  | .virt t => t ∈ H

/-- An operand that code may write while the temporaries `H` are held. -/
def Writable (H : List Nat) : Reg → Prop
  | .phys p => p.plain = true ∧ p ≠ .fp
  | .virt t => t ∈ H

variable {H H' : List Nat}

@[simp] theorem readable_virt : (Reg.virt t).Readable H ↔ t ∈ H := Iff.rfl

@[simp] theorem writable_virt : (Reg.virt t).Writable H ↔ t ∈ H := Iff.rfl

@[simp] theorem readable_phys {p : PhysReg} : (Reg.phys p).Readable H ↔ p.plain = true := Iff.rfl

@[simp] theorem writable_phys {p : PhysReg} :
    (Reg.phys p).Writable H ↔ p.plain = true ∧ p ≠ .fp := Iff.rfl

theorem Readable.mono {r : Reg} (h : r.Readable H) (hsub : H ⊆ H') : r.Readable H' := by
  cases r with
  | phys p => exact h
  | virt t => exact hsub h

/-- One more temporary takes nothing away. -/
theorem Readable.push {r : Reg} (h : r.Readable H) : r.Readable (t :: H) :=
  h.mono (List.subset_cons_self t H)

end Reg

/-- The error routines that checks branch to. -/
def Routine.errors : List Label := [errorNone, errorDiv, errorOob]

@[simp] theorem Routine.mem_errors :
    errorNone ∈ errors ∧ errorDiv ∈ errors ∧ errorOob ∈ errors := by
  decide

/-- The labels outside a draft that its code may aim at. -/
inductive Env.Reaches (env : Env) : Label → Prop
  | error {l : Label} (h : l ∈ [Routine.errorNone, Routine.errorDiv, Routine.errorOob]) :
      Reaches env l
  | routine {l : Label} (h : l ∈ [Routine.alloc, Routine.alloc2, Routine.strChar, Routine.strcat,
      Routine.listconcat, Routine.streql]) : Reaches env l
  | prototype {l : Label} (h : l ∈ [Routine.listPrototype, Routine.intPrototype]) : Reaches env l
  | bool (b : Bool) : Reaches env (ConstantPool.boolLabel b)
  | exit : Reaches env env.exit
  | global {name : String} {span : Span} {g : GlobalVar}
      (h : env.resolve name span = .ok (.global g)) : Reaches env g.label
  | func {name : String} {span : Span} {id : Nat} (h : env.resolve name span = .ok (.func id)) :
      Reaches env (env.table.func id).label
  | cls {name : String} {span : Span} {id : Nat} (h : env.resolve name span = .ok (.cls id)) :
      Reaches env (env.table.cls id).prototype

namespace Op

variable {τ : Type}

/-- The register from which the address of a store is counted. -/
def storeBase? : Op τ → Option Reg
  | .store _ _ base _ => some base
  | _ => none

/-- The operation moves neither the stack pointer nor the frame pointer and stores nothing through
the stack pointer. -/
def OffStack (o : Op τ) : Prop :=
  o.def? ≠ some .sp ∧ o.def? ≠ some .fp ∧ o.storeBase? ≠ some .sp

end Op

/-- Loading a literal into a register mentions no temporary. -/
theorem WordValue.not_mem_virts_load {p : PhysReg} (v : WordValue) :
    t ∉ (v.load (.phys p)).virts := by
  cases v <;> simp [load, Op.mem_virts_iff, Op.regs, Op.def?, Op.uses]

/-! ## What is open at a place -/

variable {b : Bool} {l : Label}

namespace Draft

/-- The temporaries that are held, the last one taken first, each with whether it has been written
on every way to the place, and the rooms that are made for words of calls, the innermost first. -/
structure Context where
  temps : List (Nat × Bool) := []
  rooms : List Nat := []

namespace Context

variable (κ : Context)

def held : List Nat := κ.temps.map (·.1)

/-- The temporaries that have been written. -/
def filled : List Nat := (κ.temps.filter (·.2)).map (·.1)

def push (t : Nat) (written : Bool) : Context := { κ with temps := (t, written) :: κ.temps }

@[simp] theorem held_push : (κ.push t b).held = t :: κ.held := rfl

@[simp] theorem filled_push_true : (κ.push t true).filled = t :: κ.filled := rfl

@[simp] theorem filled_push_false : (κ.push t false).filled = κ.filled := rfl

@[simp] theorem rooms_push : (κ.push t b).rooms = κ.rooms := rfl

theorem filled_subset_held : κ.filled ⊆ κ.held := List.map_subset _ (List.filter_subset_self _)

/-- From `κ` on, the temporary `t?` may have been written, and nothing is lost by knowing less. -/
structure Becomes (t? : Option Nat) (κ' : Context) : Prop where
  held : κ'.held = κ.held
  filled : κ'.filled ⊆ t?.toList ++ κ.filled
  rooms : κ'.rooms = κ.rooms

variable {κ}

theorem Becomes.same {t? : Option Nat} : κ.Becomes t? κ := ⟨rfl, List.subset_append_right _ _, rfl⟩

theorem Becomes.fill : (κ.push t b).Becomes (some t) (κ.push t true) :=
  ⟨rfl, by cases b <;> simp, rfl⟩

/-- Where `κ` is open, code may jump to the label: it is an error routine, or one of `Λ` where the
same rooms are open and no more has been written. -/
def Meets (κ : Context) (Λ : List (Label × Option Context)) (l : Label) : Prop :=
  l ∈ Routine.errors ∨ ∃ κ', (l, some κ') ∈ Λ ∧ κ'.filled ⊆ κ.filled ∧ κ'.rooms = κ.rooms

theorem meets_of_error {Λ : List (Label × Option Context)} (h : l ∈ Routine.errors) :
    κ.Meets Λ l := .inl h

@[simp] theorem meets_cons {Λ : List (Label × Option Context)} {κ' : Context} {m : Label} :
    κ.Meets ((m, some κ') :: Λ) l ↔
      (l = m ∧ κ'.filled ⊆ κ.filled ∧ κ'.rooms = κ.rooms) ∨ κ.Meets Λ l := by
  simp only [Meets, List.mem_cons, Prod.mk.injEq, Option.some.injEq]
  aesop

end Context

/-- The rooms after room for `words` has been made, if there are any. -/
def reserved (words : Nat) (rooms : List Nat) : List Nat :=
    if 0 < words then words :: rooms else rooms

theorem reserved_of_pos {words : Nat} {rooms : List Nat} (h : 0 < words) :
    reserved words rooms = words :: rooms := if_pos h

/-- What is open at a place, the labels that code there may aim at, each with what is open where it
is placed unless it is the label of a constant, and those of them that are still to be placed. -/
structure Scene where
  context : Context := {}
  labels : List (Label × Option Context) := []
  owed : List Label := []

namespace Scene

variable (σ : Scene)

@[simp] abbrev held : List Nat := σ.context.held

@[simp] abbrev filled : List Nat := σ.context.filled

@[simp] abbrev rooms : List Nat := σ.context.rooms

abbrev push (t : Nat) (written : Bool) : Scene := { σ with context := σ.context.push t written }

/-- Within a loop that has `κ` open at its head: the label of its end is still to be placed. -/
abbrev inLoop (κ : Context) (top done : Label) : Scene :=
  ⟨κ, (done, some κ) :: (top, some κ) :: σ.labels, done :: σ.owed⟩

/-- Where the code of a unit begins. -/
abbrev unit (env : Env) : Scene := { labels := [(env.exit, some {})] }

/-- The place is one for a statement: no room is made, and the code knows where the function is
left. -/
structure ForStmt (env : Env) : Prop where
  exit : (env.exit, some {}) ∈ σ.labels
  rooms : σ.rooms = []

theorem forStmt_unit {env : Env} : (unit env).ForStmt env := ⟨.head _, rfl⟩

abbrev reserve (words : Nat) : Scene :=
  { σ with context := { σ.context with rooms := reserved words σ.context.rooms } }

/-- A new label, at which `κ` will be open. -/
abbrev declare (l : Label) (κ : Context) : Scene :=
  { σ with labels := (l, some κ) :: σ.labels, owed := l :: σ.owed }

end Scene

end Draft

/-! ## Operations -/

variable {o : Op Label}

namespace Op

open Draft (Context Scene)

/-- An operation off the stack that code may contain. -/
structure Fits (env : Env) (E : Prop) (σ : Scene) (o : Op Label) : Prop where
  reads : ∀ r ∈ o.uses, r.Readable σ.filled
  writes : ∀ r ∈ o.def?, r.Writable σ.held ∧ r ≠ .sp
  stores : o.storeBase? ≠ some .sp
  aims : ∀ l ∈ o.target?, (∃ κ, (l, κ) ∈ σ.labels) ∨ env.Reaches l
  flows : ∀ l ∈ o.flow.target?, σ.context.Meets σ.labels l
  short : E → o.Encodable

/-- What an operation does to what is open. -/
inductive Steps (env : Env) (E : Prop) (σ : Scene) : Op Label → Context → Prop
  | plain {o : Op Label} {κ : Context} (h : o.Fits env E σ) (hκ : σ.context.Becomes o.virtDef? κ) :
      Steps env E σ o κ
  | reserve (words : Nat) :
      Steps env E σ (.addi .sp .sp (-Object.slotOffset words))
        { σ.context with rooms := words :: σ.rooms }
  | giveBack (words : Nat) {rooms : List Nat} (h : σ.rooms = words :: rooms)
      (hshort : E → words ≤ 511) :
      Steps env E σ (.addi .sp .sp (Object.slotOffset words)) { σ.context with rooms := rooms }
  | pass {words k : Nat} {rooms : List Nat} {src : Reg} (h : σ.rooms = words :: rooms)
      (hk : k < words) (hr : src.Readable σ.filled) :
      Steps env E σ (.sw src .sp (Object.slotOffset k)) σ.context

/-- What an operation of a draft may mention. -/
structure Allowed (env : Env) (σ : Scene) (o : Op Label) : Prop where
  reads : ∀ r ∈ o.uses, r.Readable σ.filled
  writes : ∀ r ∈ o.def?, r.Writable σ.held
  aims : ∀ l ∈ o.target?, (∃ κ, (l, κ) ∈ σ.labels) ∨ env.Reaches l

variable {env : Env} {E : Prop} {σ : Scene}

namespace Steps

variable {o : Op Label} {κ : Context}

theorem allowed (h : o.Steps env E σ κ) : o.Allowed env σ := by
  cases h with
  | plain h => exact ⟨h.reads, fun r hr => (h.writes r hr).1, h.aims⟩
  | reserve | giveBack =>
    refine ⟨fun r hr => ?_, fun r hr => ?_, nofun⟩
    · cases List.mem_singleton.mp hr
      simp
    · cases hr
      simp
  | pass _ _ hr =>
    refine ⟨fun r hmem => ?_, nofun, nofun⟩
    rcases List.mem_pair.mp hmem with rfl | rfl
    · simp
    · exact hr

theorem held_eq (h : o.Steps env E σ κ) : κ.held = σ.held := by
  cases h with
  | plain _ hκ => exact hκ.held
  | reserve | giveBack | pass => rfl

theorem filled_subset (h : o.Steps env E σ κ) : κ.filled ⊆ o.virtDef?.toList ++ σ.filled := by
  cases h with
  | plain _ hκ => exact hκ.filled
  | reserve | giveBack | pass => exact List.subset_append_right _ _

theorem flows (h : o.Steps env E σ κ) : ∀ l ∈ o.flow.target?, σ.context.Meets σ.labels l := by
  cases h with
  | plain h => exact h.flows
  | reserve | giveBack | pass => exact nofun

end Steps

/-- Only temporaries that are held occur. -/
theorem Allowed.held (h : o.Allowed env σ) : ∀ t ∈ o.virts, t ∈ σ.held := by
  intro t ht
  rcases List.mem_append.mp (mem_virts_iff.mp ht) with hd | hu
  · exact h.writes _ (Option.mem_toList.mp hd)
  · exact σ.context.filled_subset_held (h.reads _ hu)

theorem fits_iff : o.Fits env E σ ↔ (∀ r ∈ o.uses, r.Readable σ.filled) ∧
      (∀ r ∈ o.def?, r.Writable σ.held ∧ r ≠ .sp) ∧ o.storeBase? ≠ some .sp ∧
      (∀ l ∈ o.target?, (∃ κ, (l, κ) ∈ σ.labels) ∨ env.Reaches l) ∧
      (∀ l ∈ o.flow.target?, σ.context.Meets σ.labels l) ∧ (E → o.Encodable) :=
  ⟨fun h => ⟨h.1, h.2, h.3, h.4, h.5, h.6⟩, fun ⟨h₁, h₂, h₃, h₄, h₅, h₆⟩ =>
    ⟨h₁, h₂, h₃, h₄, h₅, h₆⟩⟩

/-- The same of an operation whose operands are known and that goes on with the next one. -/
theorem fits_iff_of_eq (reads : List Reg) (writes base : Option Reg) (aims : Option Label)
    (hr : o.uses = reads) (hw : o.def? = writes) (hb : o.storeBase? = base) (ha : o.target? = aims)
    (hf : o.flow.target? = none) : o.Fits env E σ ↔ (∀ r ∈ reads, r.Readable σ.filled) ∧
      (∀ r ∈ writes, r.Writable σ.held ∧ r ≠ .sp) ∧ base ≠ some .sp ∧
      (∀ l ∈ aims, (∃ κ, (l, κ) ∈ σ.labels) ∨ env.Reaches l) ∧ (E → o.Encodable) := by
  rw [fits_iff, hr, hw, hb, ha, hf]
  simp

variable {rd a : Reg}

@[simp] theorem fits_alu {op : AluOp} {b : Reg} : (Op.alu op rd a b).Fits env E σ ↔
      (a.Readable σ.filled ∧ b.Readable σ.filled) ∧ rd.Writable σ.held ∧ rd ≠ .sp := by
  rw [fits_iff_of_eq [a, b] (some rd) none none rfl rfl rfl rfl rfl]
  simp

@[simp] theorem fits_aluImm {op : ImmOp} {n : Int32} : (Op.aluImm op rd a n).Fits env E σ ↔
      a.Readable σ.filled ∧ (rd.Writable σ.held ∧ rd ≠ .sp) ∧ (E → Short n) := by
  rw [fits_iff_of_eq [a] (some rd) none none rfl rfl rfl rfl rfl]
  simp

@[simp] theorem fits_shift {op : ShiftOp} {k : Fin 32} :
    (Op.shift op rd a k).Fits env E σ ↔ a.Readable σ.filled ∧ rd.Writable σ.held ∧ rd ≠ .sp := by
  rw [fits_iff_of_eq [a] (some rd) none none rfl rfl rfl rfl rfl]
  simp

@[simp] theorem fits_li {n : Int32} :
    (Op.li rd n).Fits env E σ ↔ rd.Writable σ.held ∧ rd ≠ .sp := by
  rw [fits_iff_of_eq [] (some rd) none none rfl rfl rfl rfl rfl]
  simp

@[simp] theorem fits_la : (Op.la rd l).Fits env E σ ↔
      (rd.Writable σ.held ∧ rd ≠ .sp) ∧ ((∃ κ, (l, κ) ∈ σ.labels) ∨ env.Reaches l) := by
  rw [fits_iff_of_eq [] (some rd) none (some l) rfl rfl rfl rfl rfl]
  simp

@[simp] theorem fits_unary {op : UnaryOp} :
    (Op.unary op rd a).Fits env E σ ↔ a.Readable σ.filled ∧ rd.Writable σ.held ∧ rd ≠ .sp := by
  rw [fits_iff_of_eq [a] (some rd) none none rfl rfl rfl rfl rfl]
  simp

@[simp] theorem fits_load {w : Width} {base : Reg} {n : Int32} :
    (Op.load w rd base n).Fits env E σ ↔
      base.Readable σ.filled ∧ (rd.Writable σ.held ∧ rd ≠ .sp) ∧ (E → Short n) := by
  rw [fits_iff_of_eq [base] (some rd) none none rfl rfl rfl rfl rfl]
  simp

@[simp] theorem fits_store {w : Width} {src base : Reg} {n : Int32} :
    (Op.store w src base n).Fits env E σ ↔
      (base.Readable σ.filled ∧ src.Readable σ.filled) ∧ base ≠ .sp ∧ (E → Short n) := by
  rw [fits_iff_of_eq [base, src] none (some base) none rfl rfl rfl rfl rfl]
  simp

@[simp] theorem fits_call :
    (Op.call l).Fits env E σ ↔ (∃ κ, (l, κ) ∈ σ.labels) ∨ env.Reaches l := by
  rw [fits_iff_of_eq [] (some .ra) none (some l) rfl rfl rfl rfl rfl]
  simp

@[simp] theorem fits_callReg : (Op.callReg a).Fits env E σ ↔ a.Readable σ.filled := by
  rw [fits_iff_of_eq [a] (some .ra) none none rfl rfl rfl rfl rfl]
  simp

/-- An operation that only reads and goes to `l`. What may be jumped to may be aimed at. -/
theorem fits_iff_of_flow (reads : List Reg) (hr : o.uses = reads) (ht : o.target? = some l)
    (hf : o.flow.target? = some l) (hd : o.def? = none) (hs : o.storeBase? = none)
    (he : o.field? = none) :
    o.Fits env E σ ↔ (∀ r ∈ reads, r.Readable σ.filled) ∧ σ.context.Meets σ.labels l := by
  have haims (h : σ.context.Meets σ.labels l) : (∃ κ, (l, κ) ∈ σ.labels) ∨ env.Reaches l :=
    h.elim (fun h => .inr (.error h)) fun ⟨κ, h, _⟩ => .inl ⟨κ, h⟩
  rw [fits_iff, hr, ht, hf, hd, hs]
  constructor
  · exact fun ⟨hr, _, _, _, hm, _⟩ => ⟨hr, hm l rfl⟩
  · rintro ⟨hr, hm⟩
    refine ⟨hr, nofun, nofun, ?_, ?_, fun _ => encodable_of_eq_none he⟩
    · rintro _ ⟨⟩
      exact haims hm
    · rintro _ ⟨⟩
      exact hm

@[simp] theorem fits_jump : (Op.jump l).Fits env E σ ↔ σ.context.Meets σ.labels l := by
  rw [fits_iff_of_flow [] rfl rfl rfl rfl rfl rfl]
  simp

@[simp] theorem fits_branch {c : Cmp} {b : Reg} : (Op.branch c a b l).Fits env E σ ↔
      (a.Readable σ.filled ∧ b.Readable σ.filled) ∧ σ.context.Meets σ.labels l := by
  rw [fits_iff_of_flow [a, b] rfl rfl rfl rfl rfl rfl]
  simp

@[simp] theorem fits_branchZero {c : ZeroCmp} :
    (Op.branchZero c a l).Fits env E σ ↔ a.Readable σ.filled ∧ σ.context.Meets σ.labels l := by
  rw [fits_iff_of_flow [a] rfl rfl rfl rfl rfl rfl]
  simp

end Op

/-! ## Drafts -/

namespace Draft

variable {α β : Type}

/-- `x` is made of steps that keep to the rules. It begins at a place where `σ` is open and ends
with a value `a` at one where `σ'` is, such that `Q a σ'`. -/
inductive Drawn (env : Env) (E : Prop) :
    {α : Type} → Scene → Draft .virtual α → (α → Scene → Prop) → Prop
  | pure {α : Type} {σ : Scene} {Q : α → Scene → Prop} (a : α) (h : Q a σ) :
      Drawn env E σ (Pure.pure a) Q
  | bind {α β : Type} {σ : Scene} {x : Draft .virtual α} {f : α → Draft .virtual β}
    {Q : α → Scene → Prop}
      {R : β → Scene → Prop} (hx : Drawn env E σ x Q)
      (hf : ∀ a σ', Q a σ' → Drawn env E σ' (f a) R) : Drawn env E σ (x >>= f) R
  | fail {α : Type} {σ : Scene} {Q : α → Scene → Prop} {e : CompileError}
      (h : env.InUnit → Unbroken (.error e : Except CompileError α)) :
      Drawn env E σ (Draft.fail e) Q
  | ofExcept {α : Type} {σ : Scene} {x : Except CompileError α} (h : Unbroken x) :
      Drawn env E σ (Draft.ofExcept x) fun a σ' => x = .ok a ∧ σ' = σ
  | record {σ : Scene} {i : Instr} {κ : Context} (h : i.op.Steps env E σ κ) :
      Drawn env E σ (Draft.record (.item (.instr i))) fun _ σ' => σ' = { σ with context := κ }
  | take {σ : Scene} (what : String) (span : Span) :
      Drawn env E σ (Draft.take what span) fun r σ' => ∃ t, r = .virt t ∧ σ' = σ.push t false
  | release {σ : Scene} {κ : Context} {t : Nat} {b : Bool} (h : σ.context = κ.push t b) :
      Drawn env E σ (Draft.release (.virt t)) fun _ σ' => σ' = { σ with context := κ }
  | label {σ : Scene} (κ : Context) : Drawn env E σ env.label fun l σ' => σ' = σ.declare l κ
  | place {σ : Scene} {l : Label} {κ : Context} (hl : (l, some κ) ∈ σ.labels)
      (hκ : σ.context.Becomes none κ) (before after : List Label)
      (ho : σ.owed = before ++ l :: after) :
      Drawn env E σ (Draft.place l) fun _ σ' =>
        σ' = { σ with context := κ, owed := before ++ after }
  /-- Labels that have been made on the way need not be known afterwards. -/
  | drop {α : Type} {σ : Scene} {x : Draft .virtual α} {κ : Context}
    {Λ Λ' : List (Label × Option Context)}
      {owed : List Label} (h : Drawn env E σ x fun _ σ' => σ' = ⟨κ, Λ', owed⟩) (hΛ : Λ ⊆ Λ') :
      Drawn env E σ x fun _ σ' => σ' = ⟨κ, Λ, owed⟩
  /-- The label of a constant that has joined the pool. -/
  | intern {σ : Scene} (c : Constant) :
      Drawn env E σ (Draft.intern c) fun l σ' => σ' = { σ with labels := (l, none) :: σ.labels }
  | loadLiteral {σ : Scene} (lit : Literal) (type : ValueType) :
      Drawn env E σ (Draft.loadLiteral .t0 lit type) fun _ σ' => σ' = σ

/-- A draft that ends where it began, as far as the rules go. -/
abbrev Restores (env : Env) (E : Prop) (σ : Scene) (x : Draft .virtual α) : Prop :=
  Drawn env E σ x fun _ σ' => σ' = σ

/-- A draft whose value is one more temporary, which holds it. -/
abbrev Delivers (env : Env) (E : Prop) (σ : Scene) (x : Draft .virtual Reg) : Prop :=
  Drawn env E σ x fun r σ' => ∃ t, r = .virt t ∧ σ' = σ.push t true

namespace Drawn

variable {env : Env} {E : Prop} {σ τ : Scene} {κ : Context} {Q : α → Scene → Prop}
  {R : β → Scene → Prop}

variable {comment : Option String}

/-- An instruction after which the same temporaries count as written. -/
theorem emit (h : o.Fits env E σ) : Restores env E σ (Draft.record (.item (.instr ⟨o, comment⟩))) :=
  .record (.plain h .same)

/-- An instruction that writes the temporary taken last. -/
theorem fill (hσ : σ.context = κ.push t b) (h : o.Fits env E σ) (hd : o.virtDef? = some t) :
    Drawn env E σ (Draft.record (.item (.instr ⟨o, comment⟩)))
      fun _ σ' => σ' = { σ with context := κ.push t true } := by
  refine .record (.plain h ?_)
  rw [hσ, hd]
  exact .fill

/-- An instruction that writes the temporary taken before the last one. -/
theorem fillUnder {v : Nat} (hσ : σ.context = (κ.push t b).push v true) (h : o.Fits env E σ)
    (hd : o.virtDef? = some t) : Drawn env E σ (Draft.record (.item (.instr ⟨o, comment⟩)))
      fun _ σ' => σ' = { σ with context := (κ.push t true).push v true } := by
  refine .record (.plain h ?_)
  rw [hσ]
  exact ⟨rfl, by cases b <;> simp [hd], rfl⟩

/-- Go on after a part that ends where `τ` is open, whatever its value. -/
theorem seq {x : Draft .virtual α} {f : α → Draft .virtual β}
    (hx : Drawn env E σ x fun _ σ' => σ' = τ) (hf : ∀ a, Drawn env E τ (f a) R) :
    Drawn env E σ (x >>= f) R := by
  refine .bind hx ?_
  rintro a _ rfl
  exact hf a

/-- Go on with the temporary that a part has left. -/
theorem temp {x : Draft .virtual Reg} {f : Reg → Draft .virtual β}
    (hx : Drawn env E σ x fun r σ' => ∃ t, r = .virt t ∧ σ' = σ.push t b)
    (hf : ∀ t, Drawn env E (σ.push t b) (f (.virt t)) R) : Drawn env E σ (x >>= f) R := by
  refine .bind hx ?_
  rintro _ _ ⟨t, rfl, rfl⟩
  exact hf t

/-- Go on with a value that has been computed. -/
theorem given {x : Except CompileError α} {f : α → Draft .virtual β} (hx : Unbroken x)
    (hf : ∀ a, x = .ok a → Drawn env E σ (f a) R) : Drawn env E σ (Draft.ofExcept x >>= f) R := by
  refine .bind (.ofExcept hx) ?_
  rintro a _ ⟨ha, rfl⟩
  exact hf a ha

/-- Go on with a new label, at which `κ` will be open. -/
theorem fresh (κ : Context) {f : Label → Draft .virtual β}
    (hf : ∀ l, Drawn env E (σ.declare l κ) (f l) R) :
    Drawn env E σ (env.label >>= f) R := by
  refine .bind (.label κ) ?_
  rintro l _ rfl
  exact hf l

/-- Go on with the label of a constant. -/
theorem constant {c : Constant} {f : Label → Draft .virtual β}
    (hf : ∀ l, Drawn env E { σ with labels := (l, none) :: σ.labels } (f l) R) :
    Drawn env E σ (Draft.intern c >>= f) R := by
  refine .bind (.intern c) ?_
  rintro l _ rfl
  exact hf l

/-- Place the label made last. -/
theorem placeLast {owed : List Label} (ho : σ.owed = l :: owed) (hl : (l, some κ) ∈ σ.labels)
    (hκ : σ.context.Becomes none κ) :
    Drawn env E σ (Draft.place l) fun _ σ' => σ' = { σ with context := κ, owed := owed } :=
  .place hl hκ [] owed ho

/-- Place the label made before the last one. -/
theorem placeFirst {m : Label} {owed : List Label} (ho : σ.owed = m :: l :: owed)
    (hl : (l, some κ) ∈ σ.labels) (hκ : σ.context.Becomes none κ) :
    Drawn env E σ (Draft.place l) fun _ σ' => σ' = { σ with context := κ, owed := m :: owed } :=
  .place hl hκ [m] owed ho

theorem ite {c : Prop} [Decidable c] {x y : Draft .virtual α} (hx : Drawn env E σ x Q)
    (hy : Drawn env E σ y Q) : Drawn env E σ (if c then x else y) Q := by
  split
  · exact hx
  · exact hy

/-- A part that only one branch has, and what follows it in both. -/
theorem iteThen {c : Prop} [Decidable c] {x : Draft .virtual Unit} {k : Unit → Draft .virtual α}
    (hx : Restores env E σ x) (hk : ∀ u, Drawn env E σ (k u) Q) :
    Drawn env E σ (if c then x >>= k else k ()) Q :=
  .ite (.seq hx hk) (hk ())

theorem forM {γ : Type} {f : γ → Draft .virtual PUnit} :
    ∀ {cs : List γ}, (∀ c ∈ cs, Restores env E σ (f c)) → Restores env E σ (cs.forM f)
  | [], _ => .pure _ rfl
  | c :: _, hf => .seq (hf c (List.mem_cons_self ..)) fun _ =>
    forM fun c' hc' => hf c' (List.mem_cons_of_mem c hc')

end Drawn

end Draft

end ChocoRV
