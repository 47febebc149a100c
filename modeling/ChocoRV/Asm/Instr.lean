import ChocoRV.Asm.Register

/-!
# Instructions

The operations of the target that the code generator uses, grouped by the operands they take, so
that an operation cannot be written with operands it does not have. The destination of a jump or
a branch is a parameter `τ`: assembly names it by a label, loaded code by an address.

`Op.def?`, `Op.uses` and `Op.flow` describe what an operation writes, reads and where control goes
next; they are all that liveness and register allocation know about it.
-/

namespace ChocoRV

/-- Operations on two registers. -/
inductive AluOp where
  | add | sub | mul | div | rem | and | or | xor | sll | slt | sltu
deriving DecidableEq, Repr, Inhabited

/-- Operations on a register and a constant. -/
inductive ImmOp where
  | addi | andi | xori | slti
deriving DecidableEq, Repr, Inhabited

/-- Shifts by a constant amount. -/
inductive ShiftOp where
  | slli | srai
deriving DecidableEq, Repr, Inhabited

/-- Operations on one register. -/
inductive UnaryOp where
  | mv | seqz | snez
deriving DecidableEq, Repr, Inhabited

/-- What a load or a store moves. -/
inductive Width where
  | byte | word
deriving DecidableEq, Repr, Inhabited

/-- Comparisons of two registers that a branch can make. -/
inductive Cmp where
  | eq | ne | lt | ge | ltu | geu
deriving DecidableEq, Repr, Inhabited

/-- Comparisons with zero that a branch can make. -/
inductive ZeroCmp where
  | eq | ne
deriving DecidableEq, Repr, Inhabited

/-- One operation, with destinations of type `τ`. -/
inductive Op (τ : Type) where
  | alu (op : AluOp) (rd rs1 rs2 : Reg)
  | aluImm (op : ImmOp) (rd rs : Reg) (imm : Int32)
  | shift (op : ShiftOp) (rd rs : Reg) (amount : Fin 32)
  | li (rd : Reg) (imm : Int32)
  | la (rd : Reg) (target : τ)
  | unary (op : UnaryOp) (rd rs : Reg)
  /-- The byte or word at `base + offset` goes to `rd`; a byte is extended by zeros. -/
  | load (width : Width) (rd base : Reg) (offset : Int32)
  /-- The low byte or the word in `src` goes to `base + offset`. -/
  | store (width : Width) (src base : Reg) (offset : Int32)
  | jump (target : τ)
  /-- A call; the return address goes to `ra`. -/
  | call (target : τ)
  /-- A call of the address in `rs`; the return address goes to `ra`. -/
  | callReg (rs : Reg)
  | jumpReg (rs : Reg)
  | branch (cmp : Cmp) (rs1 rs2 : Reg) (target : τ)
  | branchZero (cmp : ZeroCmp) (rs : Reg) (target : τ)
  | ecall
deriving DecidableEq, Repr, Inhabited

/-- How control leaves an operation. -/
inductive Flow (τ : Type) where
  /-- With the next instruction; calls and system calls come back there. -/
  | next
  | jump (target : τ)
  /-- With the next instruction or at the target. -/
  | branch (target : τ)
  /-- Out of the function. -/
  | exit
deriving DecidableEq, Repr, Inhabited

namespace AluOp

def mnemonic : AluOp → String
  | .add => "add"
  | .sub => "sub"
  | .mul => "mul"
  | .div => "div"
  | .rem => "rem"
  | .and => "and"
  | .or => "or"
  | .xor => "xor"
  | .sll => "sll"
  | .slt => "slt"
  | .sltu => "sltu"

end AluOp

namespace ImmOp

def mnemonic : ImmOp → String
  | .addi => "addi"
  | .andi => "andi"
  | .xori => "xori"
  | .slti => "slti"

end ImmOp

namespace ShiftOp

def mnemonic : ShiftOp → String
  | .slli => "slli"
  | .srai => "srai"

end ShiftOp

namespace UnaryOp

def mnemonic : UnaryOp → String
  | .mv => "mv"
  | .seqz => "seqz"
  | .snez => "snez"

end UnaryOp

namespace Width

def loadMnemonic : Width → String
  | .byte => "lbu"
  | .word => "lw"

def storeMnemonic : Width → String
  | .byte => "sb"
  | .word => "sw"

end Width

namespace Cmp

def mnemonic : Cmp → String
  | .eq => "beq"
  | .ne => "bne"
  | .lt => "blt"
  | .ge => "bge"
  | .ltu => "bltu"
  | .geu => "bgeu"

end Cmp

namespace ZeroCmp

def mnemonic : ZeroCmp → String
  | .eq => "beqz"
  | .ne => "bnez"

end ZeroCmp

namespace Op

variable {τ : Type}

/-! ## Spelling -/

abbrev add (rd rs1 rs2 : Reg) : Op τ := .alu .add rd rs1 rs2

abbrev sub (rd rs1 rs2 : Reg) : Op τ := .alu .sub rd rs1 rs2

abbrev mul (rd rs1 rs2 : Reg) : Op τ := .alu .mul rd rs1 rs2

abbrev div (rd rs1 rs2 : Reg) : Op τ := .alu .div rd rs1 rs2

abbrev rem (rd rs1 rs2 : Reg) : Op τ := .alu .rem rd rs1 rs2

abbrev and (rd rs1 rs2 : Reg) : Op τ := .alu .and rd rs1 rs2

abbrev xor (rd rs1 rs2 : Reg) : Op τ := .alu .xor rd rs1 rs2

abbrev slt (rd rs1 rs2 : Reg) : Op τ := .alu .slt rd rs1 rs2

/-- The negation of `rs`: zero less `rs`. -/
abbrev neg (rd rs : Reg) : Op τ := .alu .sub rd .zero rs

abbrev addi (rd rs : Reg) (imm : Int32) : Op τ := .aluImm .addi rd rs imm

abbrev xori (rd rs : Reg) (imm : Int32) : Op τ := .aluImm .xori rd rs imm

/-- The shift amount of a constant: its low five bits. -/
def shiftAmount (imm : Int32) : Fin 32 :=
  ⟨imm.toUInt32.toNat % 32, Nat.mod_lt _ (by decide)⟩

/-- The shift between a count of words and one of bytes. -/
def wordShift : Fin 32 := ⟨2, by decide⟩

abbrev slli (rd rs : Reg) (amount : Fin 32) : Op τ := .shift .slli rd rs amount

abbrev srai (rd rs : Reg) (amount : Fin 32) : Op τ := .shift .srai rd rs amount

abbrev mv (rd rs : Reg) : Op τ := .unary .mv rd rs

abbrev seqz (rd rs : Reg) : Op τ := .unary .seqz rd rs

abbrev snez (rd rs : Reg) : Op τ := .unary .snez rd rs

abbrev lw (rd base : Reg) (offset : Int32) : Op τ := .load .word rd base offset

abbrev lbu (rd base : Reg) (offset : Int32) : Op τ := .load .byte rd base offset

abbrev sw (src base : Reg) (offset : Int32) : Op τ := .store .word src base offset

abbrev sb (src base : Reg) (offset : Int32) : Op τ := .store .byte src base offset

abbrev beq (rs1 rs2 : Reg) (target : τ) : Op τ := .branch .eq rs1 rs2 target

abbrev bne (rs1 rs2 : Reg) (target : τ) : Op τ := .branch .ne rs1 rs2 target

abbrev bge (rs1 rs2 : Reg) (target : τ) : Op τ := .branch .ge rs1 rs2 target

abbrev bgeu (rs1 rs2 : Reg) (target : τ) : Op τ := .branch .geu rs1 rs2 target

abbrev beqz (rs : Reg) (target : τ) : Op τ := .branchZero .eq rs target

abbrev bnez (rs : Reg) (target : τ) : Op τ := .branchZero .ne rs target

/-! ## Operands -/

/-- The register that is written. -/
def def? : Op τ → Option Reg
  | .alu _ rd _ _ | .aluImm _ rd _ _ | .shift _ rd _ _ | .li rd _ | .la rd _ | .unary _ rd _
  | .load _ rd _ _ => some rd
  | .call _ | .callReg _ => some .ra
  | .store .. | .jump _ | .jumpReg _ | .branch .. | .branchZero .. | .ecall => none

/-- The registers that are read, in operand order; a store reads its base first. -/
def uses : Op τ → List Reg
  | .alu _ _ a b => [a, b]
  | .aluImm _ _ a _ | .shift _ _ a _ | .unary _ _ a | .load _ _ a _ => [a]
  | .store _ src base _ => [base, src]
  | .callReg a | .jumpReg a => [a]
  | .branch _ a b _ => [a, b]
  | .branchZero _ a _ => [a]
  | .li .. | .la .. | .jump _ | .call _ | .ecall => []

/-- The constant operand. -/
def imm? : Op τ → Option Int32
  | .aluImm _ _ _ n | .li _ n | .load _ _ _ n | .store _ _ _ n => some n
  | .shift _ _ _ k => some (Int32.ofNat k.val)
  | _ => none

/-- The destination or the address operand. -/
def target? : Op τ → Option τ
  | .la _ t | .jump t | .call t | .branch _ _ _ t | .branchZero _ _ t => some t
  | _ => none

def flow : Op τ → Flow τ
  | .jump t => .jump t
  | .branch _ _ _ t | .branchZero _ _ t => .branch t
  | .jumpReg _ => .exit
  | _ => .next

/-- Some operand is a temporary. -/
def hasVirt (o : Op τ) : Bool :=
  o.def?.any Reg.isVirt || o.uses.any Reg.isVirt

/-- Change the registers that are read by `src` and the one that is written by `dst`. -/
def mapRegs (src dst : Reg → Reg) : Op τ → Op τ
  | .alu op rd a b => .alu op (dst rd) (src a) (src b)
  | .aluImm op rd a n => .aluImm op (dst rd) (src a) n
  | .shift op rd a k => .shift op (dst rd) (src a) k
  | .li rd n => .li (dst rd) n
  | .la rd t => .la (dst rd) t
  | .unary op rd a => .unary op (dst rd) (src a)
  | .load w rd a n => .load w (dst rd) (src a) n
  | .store w s a n => .store w (src s) (src a) n
  | .jump t => .jump t
  | .call t => .call t
  | .callReg a => .callReg (src a)
  | .jumpReg a => .jumpReg (src a)
  | .branch c a b t => .branch c (src a) (src b) t
  | .branchZero c a t => .branchZero c (src a) t
  | .ecall => .ecall

/-- Replace the destination, where there is one, by what `f` finds for it. -/
def resolve {σ ε : Type} (f : τ → Except ε σ) : Op τ → Except ε (Op σ)
  | .alu op rd a b => .ok (.alu op rd a b)
  | .aluImm op rd a n => .ok (.aluImm op rd a n)
  | .shift op rd a k => .ok (.shift op rd a k)
  | .li rd n => .ok (.li rd n)
  | .la rd t => (f t).map (.la rd ·)
  | .unary op rd a => .ok (.unary op rd a)
  | .load w rd a n => .ok (.load w rd a n)
  | .store w s a n => .ok (.store w s a n)
  | .jump t => (f t).map .jump
  | .call t => (f t).map .call
  | .callReg a => .ok (.callReg a)
  | .jumpReg a => .ok (.jumpReg a)
  | .branch c a b t => (f t).map (.branch c a b ·)
  | .branchZero c a t => (f t).map (.branchZero c a ·)
  | .ecall => .ok .ecall

/-! ## Text -/

def mnemonic : Op τ → String
  | .alu op .. => op.mnemonic
  | .aluImm op .. => op.mnemonic
  | .shift op .. => op.mnemonic
  | .li .. => "li"
  | .la .. => "la"
  | .unary op .. => op.mnemonic
  | .load w .. => w.loadMnemonic
  | .store w .. => w.storeMnemonic
  | .jump _ => "j"
  | .call _ => "jal"
  | .callReg _ => "jalr"
  | .jumpReg _ => "jr"
  | .branch c .. => c.mnemonic
  | .branchZero c .. => c.mnemonic
  | .ecall => "ecall"

/-- The operands as assembly text has them: addresses as `offset(base)`, all else in order. -/
def operandTexts (name : τ → String) : Op τ → List String
  | .alu _ rd a b => [rd.text, a.text, b.text]
  | .aluImm _ rd a n => [rd.text, a.text, toString n.toInt]
  | .shift _ rd a k => [rd.text, a.text, toString k.val]
  | .li rd n => [rd.text, toString n.toInt]
  | .la rd t => [rd.text, name t]
  | .unary _ rd a => [rd.text, a.text]
  | .load _ rd a n => [rd.text, toString n.toInt ++ "(" ++ a.text ++ ")"]
  | .store _ s a n => [s.text, toString n.toInt ++ "(" ++ a.text ++ ")"]
  | .jump t | .call t => [name t]
  | .callReg a | .jumpReg a => [a.text]
  | .branch _ a b t => [a.text, b.text, name t]
  | .branchZero _ a t => [a.text, name t]
  | .ecall => []

/-- The operation as one line of assembly. -/
def text (name : τ → String) (o : Op τ) : String :=
  match o.operandTexts name with
  | [] => o.mnemonic
  | operands => o.mnemonic ++ " " ++ ", ".intercalate operands

end Op

end ChocoRV
