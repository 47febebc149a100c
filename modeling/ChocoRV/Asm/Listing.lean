import ChocoRV.Asm.Program
import ChocoRV.Diagnostic

/-!
# Assembly listings

The text form of a program: the data segment, then the text segment, one entry a line. A listing
exists only for programs whose instructions name no temporary.
-/

namespace ChocoRV

namespace Listing

/-- Two lower-case hexadecimal digits. -/
def hexByte (n : Nat) : List Char :=
  [Nat.digitChar (n / 16 % 16), Nat.digitChar (n % 16)]

/-- How a character stands between the quotes of a string directive. -/
def escapeChar (c : Char) : List Char :=
  if c == '"' then ['\\', '"']
  else if c == '\\' then ['\\', '\\']
  else if c == '\n' then ['\\', 'n']
  else if c == '\t' then ['\\', 't']
  else if c.toNat < 0x20 || c.toNat == 0x7f then '\\' :: 'x' :: hexByte c.toNat
  else [c]

def escape (text : String) : String :=
  String.ofList (text.toList.flatMap escapeChar)

/-- The column, counted from the start of the operation, at which a comment begins. -/
def commentColumn : Nat := 32

/-- Blanks after `s` up to `width` characters; a longer text stays as it is. -/
def padRight (width : Nat) (s : String) : String :=
  s ++ String.ofList (List.replicate (width - s.length) ' ')

def datumLines : Datum → List String
  | .label l => (if l.isGlobal then ["  .globl " ++ l.name] else []) ++ [l.name ++ ":"]
  | .word w => ["  .word " ++ toString w.toInt]
  | .address l => ["  .word " ++ l.name]
  | .ascii text => ["  .string \"" ++ escape text ++ "\""]
  | .align => ["  .align 2"]

def instrLine (i : Instr) : String :=
  match i.comment with
  | some c => "  " ++ padRight commentColumn i.text ++ "# " ++ c
  | none => "  " ++ i.text

/-- A global label has an empty line before it. -/
def itemLines : Item → Except CompileError (List String)
  | .label l => .ok ((if l.isGlobal then ["", "  .globl " ++ l.name] else []) ++ [l.name ++ ":"])
  | .instr i => if i.op.hasVirt then .error (.virtualRegister i.text) else .ok [instrLine i]

/-- The lines of the whole listing. -/
def lines (a : Assembly) : Except CompileError (List String) := do
  let text ← a.text.mapM itemLines
  return "  .data" :: a.data.flatMap datumLines ++ "" :: "  .text" :: text.flatten

end Listing

namespace Assembly

/-- The listing; every line ends with a line feed. -/
def render (a : Assembly) : Except CompileError String := do
  let lines ← Listing.lines a
  return String.join (lines.map (· ++ "\n"))

end Assembly

end ChocoRV
