import ChocoRV.Json.Basic

/-!
# Reading JSON

`RawJson.parse?` accepts exactly the texts of the JSON grammar. `RawJson.value?` turns a syntax tree
into the value it stands for; it refuses what nests too deep, numbers beyond the range of doubles
and escapes for half a surrogate pair.
-/

namespace ChocoRV

namespace RawJson

/-- The blanks that may stand between tokens. -/
def isBlank (c : Char) : Bool := c == ' ' || c == '\t' || c == '\n' || c == '\r'

def skipBlanks (cs : List Char) : List Char := cs.dropWhile isBlank

def hexValue? (c : Char) : Option Nat :=
  if '0' ≤ c && c ≤ '9' then some (c.toNat - '0'.toNat)
  else if 'a' ≤ c && c ≤ 'f' then some (c.toNat - 'a'.toNat + 10)
  else if 'A' ≤ c && c ≤ 'F' then some (c.toNat - 'A'.toNat + 10)
  else none

def isHex (c : Char) : Bool := (hexValue? c).isSome

/-- The characters that may follow a backslash, `u` apart. -/
def isSimpleEscape (c : Char) : Bool :=
  c == '"' || c == '\\' || c == '/' || c == 'b' || c == 'f' || c == 'n' || c == 'r' || c == 't'

/-- Read up to the closing quote; `acc` holds what was read, last character first. -/
def stringBody (acc : List Char) : List Char → Option (List Char × List Char)
  | [] => none
  | '"' :: rest => some (acc.reverse, rest)
  | '\\' :: 'u' :: a :: b :: c :: d :: rest =>
    if isHex a && isHex b && isHex c && isHex d then
      stringBody (d :: c :: b :: a :: 'u' :: '\\' :: acc) rest
    else none
  | '\\' :: c :: rest => if isSimpleEscape c then stringBody (c :: '\\' :: acc) rest else none
  | c :: rest => if c.toNat < 0x20 || c == '\\' then none else stringBody (c :: acc) rest

def takeDigits (cs : List Char) : List Char × List Char :=
  (cs.takeWhile Char.isDigit, cs.dropWhile Char.isDigit)

/-- The digits before the point: a zero alone, or digits that start with another one. -/
def wholePart : List Char → Option (List Char × List Char)
  | '0' :: rest => some (['0'], rest)
  | cs =>
    match takeDigits cs with
    | ([], _) => none
    | (ds, rest) => some (ds, rest)

/-- A point and the digits after it, if there is a point. -/
def fracPart : List Char → Option (List Char × List Char)
  | '.' :: cs =>
    match takeDigits cs with
    | ([], _) => none
    | (ds, rest) => some (ds, rest)
  | cs => some ([], cs)

def expSign : List Char → Bool × List Char
  | '-' :: cs => (true, cs)
  | '+' :: cs => (false, cs)
  | cs => (false, cs)

/-- An exponent, if there is one. -/
def expPart : List Char → Option (Option (Bool × List Char) × List Char)
  | c :: cs =>
    if c == 'e' || c == 'E' then
      let (neg, cs) := expSign cs
      match takeDigits cs with
      | ([], _) => none
      | (ds, rest) => some (some (neg, ds), rest)
    else some (none, c :: cs)
  | [] => some (none, [])

def unsignedNumber (neg : Bool) (cs : List Char) : Option (JsonNumber × List Char) := do
  let (whole, cs) ← wholePart cs
  let (frac, cs) ← fracPart cs
  let (exp, cs) ← expPart cs
  return (⟨neg, whole, frac, exp⟩, cs)

def number : List Char → Option (JsonNumber × List Char)
  | '-' :: cs => unsignedNumber true cs
  | cs => unsignedNumber false cs

mutual

/-- Read a value; `fuel` bounds the tokens. -/
def value : Nat → List Char → Option (RawJson × List Char)
  | 0, _ => none
  | fuel + 1, cs =>
    match skipBlanks cs with
    | 'n' :: 'u' :: 'l' :: 'l' :: rest => some (.null, rest)
    | 't' :: 'r' :: 'u' :: 'e' :: rest => some (.bool true, rest)
    | 'f' :: 'a' :: 'l' :: 's' :: 'e' :: rest => some (.bool false, rest)
    | '"' :: rest => (stringBody [] rest).map fun (raw, rest) => (.str raw, rest)
    | '[' :: rest =>
      match skipBlanks rest with
      | ']' :: rest => some (.arr [], rest)
      | rest => items fuel [] rest
    | '{' :: rest =>
      match skipBlanks rest with
      | '}' :: rest => some (.obj [], rest)
      | rest => members fuel [] rest
    | rest => (number rest).map fun (n, rest) => (.num n, rest)

/-- Read the items of an array up to its end; `acc` holds those read so far, the last one first. -/
def items : Nat → List RawJson → List Char → Option (RawJson × List Char)
  | 0, _, _ => none
  | fuel + 1, acc, cs =>
    match value fuel cs with
    | none => none
    | some (item, rest) =>
      match skipBlanks rest with
      | ',' :: rest => items fuel (item :: acc) rest
      | ']' :: rest => some (.arr (item :: acc).reverse, rest)
      | _ => none

/-- Read the members of an object up to its end. -/
def members : Nat → List (List Char × RawJson) → List Char → Option (RawJson × List Char)
  | 0, _, _ => none
  | fuel + 1, acc, cs =>
    match skipBlanks cs with
    | '"' :: rest =>
      match stringBody [] rest with
      | none => none
      | some (name, rest) =>
        match skipBlanks rest with
        | ':' :: rest =>
          match value fuel rest with
          | none => none
          | some (item, rest) =>
            match skipBlanks rest with
            | ',' :: rest => members fuel ((name, item) :: acc) rest
            | '}' :: rest => some (.obj ((name, item) :: acc).reverse, rest)
            | _ => none
        | _ => none
    | _ => none

end

/-- The syntax tree of a text that is one JSON value and blanks around it. -/
def parse? (text : String) : Option RawJson :=
  let cs := text.toList
  match value (2 * cs.length + 2) cs with
  | some (v, rest) => if (skipBlanks rest).isEmpty then some v else none
  | none => none

/-! ## Values -/

def hex4 (a b c d : Char) : Nat :=
  (((hexValue? a).getD 0 * 16 + (hexValue? b).getD 0) * 16 + (hexValue? c).getD 0) * 16 +
    (hexValue? d).getD 0

def simpleEscape (c : Char) : Char :=
  if c == 'b' then '\x08'
  else if c == 'f' then '\x0c'
  else if c == 'n' then '\n'
  else if c == 'r' then '\r'
  else if c == 't' then '\t'
  else c

/-- The first half of a surrogate pair. -/
def isHighSurrogate (n : Nat) : Bool := 0xD800 ≤ n && n < 0xDC00

/-- The second half of a surrogate pair. -/
def isLowSurrogate (n : Nat) : Bool := 0xDC00 ≤ n && n < 0xE000

/-- Replace the escapes of a string; half of a surrogate pair stands for nothing. -/
def unescape (acc : List Char) : List Char → Option String
  | [] => some (String.ofList acc.reverse)
  | '\\' :: 'u' :: a :: b :: c :: d :: rest =>
    let n := hex4 a b c d
    if isHighSurrogate n then
      match rest with
      | '\\' :: 'u' :: a' :: b' :: c' :: d' :: rest =>
        let n' := hex4 a' b' c' d'
        if isLowSurrogate n' then
          unescape (Char.ofNat (0x10000 + (n - 0xD800) * 0x400 + (n' - 0xDC00)) :: acc) rest
        else none
      | _ => none
    else if isLowSurrogate n then none
    else unescape (Char.ofNat n :: acc) rest
  | '\\' :: c :: rest => unescape (simpleEscape c :: acc) rest
  | c :: rest => unescape (c :: acc) rest
termination_by structural cs => cs

mutual

/-- The value of a syntax tree that nests at most `depth` arrays and objects. -/
def value? : Nat → RawJson → Option Json
  | _, .null => some .null
  | _, .bool b => some (.bool b)
  | _, .num n =>
    if n.isFinite then
      match n.int? with
      | some i => some (.int i)
      | none => some (.real n)
    else none
  | _, .str raw => (unescape [] raw).map .str
  | 0, .arr _ => none
  | 0, .obj _ => none
  | depth + 1, .arr items => (values? depth items).map .arr
  | depth + 1, .obj members => (memberValues? depth members).map .obj

def values? : Nat → List RawJson → Option (List Json)
  | _, [] => some []
  | depth, item :: rest =>
    match value? depth item, values? depth rest with
    | some v, some vs => some (v :: vs)
    | _, _ => none

def memberValues? : Nat → List (List Char × RawJson) → Option (List (String × Json))
  | _, [] => some []
  | depth, (name, item) :: rest =>
    match unescape [] name, value? depth item, memberValues? depth rest with
    | some n, some v, some vs => some ((n, v) :: vs)
    | _, _, _ => none

end

/-- How many arrays and objects a text may nest. -/
def maxDepth : Nat := 127

end RawJson

namespace Json

/-- The value of a JSON text. -/
def parse? (text : String) : Option Json :=
  (RawJson.parse? text).bind (RawJson.value? RawJson.maxDepth)

end Json

end ChocoRV
