/-!
# UTF-8

The bytes of a text, and the text of bytes that need not be well formed: every longest run of bytes
that could start a character and does not finish one becomes one replacement character.
-/

namespace ChocoRV.Utf8

/-- The bytes of a text. -/
def encode (text : String) : List UInt8 := text.toList.flatMap String.utf8EncodeChar

/-- Stands for bytes that are no character. -/
def replacement : Char := '�'

/-- A character of which some bytes have been read. -/
structure Pending where
  /-- How many bytes are still to come. -/
  owed : Nat
  /-- The range of the next one. -/
  low : UInt8
  high : UInt8
  /-- The bits of the code point so far. -/
  bits : Nat
deriving DecidableEq, Repr

/-- What the first byte of a character announces. The ranges of the second byte leave out overlong
forms, surrogates and what lies beyond the last code point. -/
inductive First where
  | done (c : Char)
  | more (p : Pending)
  | invalid

def first (b : UInt8) : First :=
  if b < 0x80 then .done (Char.ofNat b.toNat)
  else if b < 0xC2 then .invalid
  else if b < 0xE0 then .more ⟨1, 0x80, 0xBF, b.toNat - 0xC0⟩
  else if b == 0xE0 then .more ⟨2, 0xA0, 0xBF, 0⟩
  else if b == 0xED then .more ⟨2, 0x80, 0x9F, 0xD⟩
  else if b < 0xF0 then .more ⟨2, 0x80, 0xBF, b.toNat - 0xE0⟩
  else if b == 0xF0 then .more ⟨3, 0x90, 0xBF, 0⟩
  else if b < 0xF4 then .more ⟨3, 0x80, 0xBF, b.toNat - 0xF0⟩
  else if b == 0xF4 then .more ⟨3, 0x80, 0x8F, 4⟩
  else .invalid

/-- A byte between characters: the characters it completes, and the one it starts. -/
def start (b : UInt8) : List Char × Option Pending :=
  match first b with
  | .done c => ([c], none)
  | .more p => ([], some p)
  | .invalid => ([replacement], none)

/-- A byte inside a character. One that does not belong there ends the character and counts as
the first byte of the next. -/
def resume (p : Pending) (b : UInt8) : List Char × Option Pending :=
  if p.low ≤ b && b ≤ p.high then
    let bits := p.bits * 64 + (b.toNat - 0x80)
    if p.owed ≤ 1 then ([Char.ofNat bits], none) else ([], some ⟨p.owed - 1, 0x80, 0xBF, bits⟩)
  else
    let (cs, next) := start b
    (replacement :: cs, next)

/-- The characters of the bytes, after those of a character that has been started. -/
def decodeFrom : Option Pending → List UInt8 → List Char
  | none, [] => []
  | some _, [] => [replacement]
  | state, b :: bs =>
    let (cs, next) := match state with
      | none => start b
      | some p => resume p b
    cs ++ decodeFrom next bs

def decodeLossy (bytes : List UInt8) : String := String.ofList (decodeFrom none bytes)

end ChocoRV.Utf8
