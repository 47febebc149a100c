import ChocoRV.Asm.Instr

/-!
# Assembly programs

Labels, the items of the text and data segments, and a whole program of both.
-/

namespace ChocoRV

/-- A symbolic address. Labels are told apart by name alone; `isGlobal` says whether the name is
visible outside the unit that defines it. -/
structure Label where
  name : String
  isGlobal : Bool
deriving DecidableEq, Repr, Inhabited

namespace Label

abbrev global (name : String) : Label := ⟨name, true⟩

/-- The `n`-th label private to the unit called `unit`. -/
def nth (unit : String) (n : Nat) : Label := ⟨unit ++ "$L" ++ toString n, false⟩

end Label

/-- An operation of assembly text with the comment that explains it, if any. -/
structure Instr where
  op : Op Label
  comment : Option String := none
deriving DecidableEq, Repr, Inhabited

namespace Instr

/-- The line of assembly, comment left out. -/
def text (i : Instr) : String := i.op.text Label.name

end Instr

/-- An entry of the text segment. -/
inductive Item where
  | label (l : Label)
  | instr (i : Instr)
deriving DecidableEq, Repr, Inhabited

namespace Item

/-- An operation without a comment. -/
abbrev op (o : Op Label) : Item := .instr ⟨o, none⟩

/-- An operation with a comment. -/
abbrev noted (o : Op Label) (comment : String) : Item := .instr ⟨o, some comment⟩

def instr? : Item → Option Instr
  | .label _ => none
  | .instr i => some i

def label? : Item → Option Label
  | .label l => some l
  | .instr _ => none

end Item

/-- An entry of the data segment. -/
inductive Datum where
  | label (l : Label)
  | word (value : Int32)
  /-- A word that holds the address of a label. -/
  | address (l : Label)
  /-- The bytes of a text and a zero byte after them. -/
  | ascii (text : String)
  /-- Room up to the next word boundary. -/
  | align
deriving DecidableEq, Repr, Inhabited

/-- A program in assembly form. -/
structure Assembly where
  text : List Item := []
  data : List Datum := []
deriving DecidableEq, Repr, Inhabited

namespace Assembly

/-- The instructions in order; they are numbered without the labels between them. -/
def instrs (items : List Item) : List Instr := items.filterMap Item.instr?

def labels (items : List Item) : List Label := items.filterMap Item.label?

end Assembly

end ChocoRV
