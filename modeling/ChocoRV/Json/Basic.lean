/-!
# JSON values

`RawJson` is the syntax tree of a text, with strings and numbers as they are spelled; `Json` is the
value that the text stands for. Objects keep the order of their members and every repetition of a
name, since readers decide what a repeated member means.
-/

namespace ChocoRV

/-- A number as it is spelled: sign, digits before the point, digits after it and exponent.
No digits after the point means that there is no point. -/
structure JsonNumber where
  neg : Bool
  whole : List Char
  frac : List Char
  /-- Whether the exponent is negative, and its digits. -/
  exp : Option (Bool × List Char)
deriving DecidableEq, Repr, Inhabited

/-- A value of a JSON text. -/
inductive Json where
  | null
  | bool (b : Bool)
  | int (n : Int)
  /-- A number that is not written as an integer. -/
  | real (n : JsonNumber)
  | str (s : String)
  | arr (items : List Json)
  | obj (members : List (String × Json))
deriving Inhabited

/-- The syntax tree of a JSON text. A string is what stands between its quotes. -/
inductive RawJson where
  | null
  | bool (b : Bool)
  | num (n : JsonNumber)
  | str (raw : List Char)
  | arr (items : List RawJson)
  | obj (members : List (List Char × RawJson))
deriving Inhabited

namespace JsonNumber

def digitsValue (ds : List Char) : Nat := ds.foldl (fun n c => n * 10 + (c.toNat - 48)) 0

/-- The largest value that 64 bits hold. -/
def maxSignificand : Nat := UInt64.size - 1

/-- Read digits before the point: those that still fit 64 bits, and how many were left out. -/
def takeWhole : Nat → List Char → Nat × Nat
  | sig, [] => (sig, 0)
  | sig, c :: cs =>
    let next := sig * 10 + (c.toNat - 48)
    if maxSignificand < next then (sig, cs.length + 1) else takeWhole next cs

/-- Read digits after the point while they fit 64 bits, and count them. -/
def takeFrac : Nat → Nat → List Char → Nat × Nat
  | sig, k, [] => (sig, k)
  | sig, k, c :: cs =>
    let next := sig * 10 + (c.toNat - 48)
    if maxSignificand < next then (sig, k) else takeFrac next (k + 1) cs

/-- The leading digits as a whole number, and the power of ten it is to be scaled by. -/
def scaled (n : JsonNumber) : Nat × Int :=
  let (sig, dropped) := takeWhole 0 n.whole
  let (sig, places) := takeFrac sig 0 n.frac
  let exp : Int := match n.exp with
    | some (true, ds) => -(digitsValue ds : Int)
    | some (false, ds) => digitsValue ds
    | none => 0
  (sig, (dropped : Int) - places + exp)

/-- The double-precision number nearest to a natural number; of two, the one whose last bit is
even. -/
def roundToDouble (n : Nat) : Nat :=
  let unit := Nat.pow 2 (n.log2 - 52)
  let low := n / unit
  let rest := n % unit
  let up := unit < 2 * rest || (unit == 2 * rest && low % 2 == 1)
  (if up then low + 1 else low) * unit

/-- The least number too large for a double-precision number: half a unit in the last place above
the largest one. -/
def doubleLimit : Nat := Nat.pow 2 1024 - Nat.pow 2 970

/-- The number does not exceed the range of a double-precision number, computed in such numbers. -/
def isFinite (n : JsonNumber) : Bool :=
  match n.scaled with
  | (sig, .ofNat e) =>
    sig == 0 || (e ≤ 308 && roundToDouble sig * roundToDouble (Nat.pow 10 e) < doubleLimit)
  | (_, .negSucc _) => true

/-- The value of a number that is written as an integer; zero with a sign is not one. -/
def int? (n : JsonNumber) : Option Int :=
  match n.frac, n.exp with
  | [], none =>
    let v := digitsValue n.whole
    if n.neg then (if v = 0 then none else some (-(v : Int))) else some v
  | _, _ => none

end JsonNumber

namespace Json

/-- The values of all members of that name. -/
def membersNamed (name : String) (members : List (String × Json)) : List Json :=
  (members.filter (·.1 == name)).map (·.2)

/-- The value of the first member of that name. -/
def field? (name : String) : Json → Option Json
  | .obj members => members.lookup name
  | _ => none

def string? : Json → Option String
  | .str s => some s
  | _ => none

def int? : Json → Option Int
  | .int n => some n
  | _ => none

def nat? : Json → Option Nat
  | .int (.ofNat n) => some n
  | _ => none

def bool? : Json → Option Bool
  | .bool b => some b
  | _ => none

def items? : Json → Option (List Json)
  | .arr items => some items
  | _ => none

/-- A value, or null for none. -/
def ofOption {α : Type} (f : α → Json) : Option α → Json
  | some a => f a
  | none => .null

def ofNat (n : Nat) : Json := .int n

end Json

end ChocoRV
