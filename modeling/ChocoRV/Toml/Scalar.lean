import ChocoRV.Json.Parser

/-!
# Strings, numbers and dates of TOML

Readers for the values that hold no other values. A reader takes the characters that are left and
gives back what it read and the characters after it, or nothing if the text is not of its form.
-/

namespace ChocoRV.Toml

/-! ## Blanks and line ends -/

def isBlank (c : Char) : Bool := c == ' ' || c == '\t'

def skipBlanks (cs : List Char) : List Char := cs.dropWhile isBlank

/-- What follows a line end; a carriage return alone is none. -/
def newline? : List Char → Option (List Char)
  | '\n' :: cs => some cs
  | '\r' :: '\n' :: cs => some cs
  | _ => none

/-- The characters of comments: all but the controls, tabs apart. -/
def isCommentChar (c : Char) : Bool := c == '\t' || (0x20 ≤ c.toNat && c.toNat != 0x7f)

/-! ## Strings -/

/-- The characters that stand for themselves in a string with escapes. -/
def isBasicChar (c : Char) : Bool := isCommentChar c && c != '"' && c != '\\'

/-- The characters of a string without escapes. -/
def isLiteralChar (c : Char) : Bool := isCommentChar c && c != '\''

def simpleEscape? (c : Char) : Option Char :=
  if c == 'b' then some '\x08'
  else if c == 't' then some '\t'
  else if c == 'n' then some '\n'
  else if c == 'f' then some '\x0c'
  else if c == 'r' then some '\r'
  else if c == '"' || c == '\\' then some c
  else none

/-- The character whose number hexadecimal digits spell. -/
def hexChar? (digits : List Char) : Option Char :=
  if digits.all RawJson.isHex then
    let n := digits.foldl (fun n c => n * 16 + (RawJson.hexValue? c).getD 0) 0
    if n.isValidChar then some (Char.ofNat n) else none
  else none

/-- The rest of a string with escapes; `acc` holds what was read, last character first. -/
def basicString (acc : List Char) : List Char → Option (String × List Char)
  | [] => none
  | '"' :: cs => some (String.ofList acc.reverse, cs)
  | '\\' :: 'u' :: a :: b :: c :: d :: cs =>
    match hexChar? [a, b, c, d] with
    | some x => basicString (x :: acc) cs
    | none => none
  | '\\' :: 'U' :: a :: b :: c :: d :: e :: f :: g :: h :: cs =>
    match hexChar? [a, b, c, d, e, f, g, h] with
    | some x => basicString (x :: acc) cs
    | none => none
  | '\\' :: c :: cs =>
    match simpleEscape? c with
    | some x => basicString (x :: acc) cs
    | none => none
  | c :: cs => if isBasicChar c then basicString (c :: acc) cs else none
termination_by structural cs => cs

/-- The rest of a string without escapes. -/
def literalString (cs : List Char) : Option (String × List Char) :=
  match cs.dropWhile isLiteralChar with
  | '\'' :: rest => some (String.ofList (cs.takeWhile isLiteralChar), rest)
  | _ => none

/-- The quotes after the three that may end a string over several lines: up to two of them still
belong to it. -/
def closing (quote : Char) (acc : List Char) : List Char → String × List Char
  | a :: b :: cs =>
    if a == quote && b == quote then (String.ofList (quote :: quote :: acc).reverse, cs)
    else if a == quote then (String.ofList (quote :: acc).reverse, b :: cs)
    else (String.ofList acc.reverse, a :: b :: cs)
  | [a] =>
    if a == quote then (String.ofList (quote :: acc).reverse, [])
    else (String.ofList acc.reverse, [a])
  | [] => (String.ofList acc.reverse, [])

/-- The rest of a string with escapes over several lines. After a backslash at the end of a line
all blanks and line ends are left out; `skip` says that this is going on. -/
def basicLines (skip : Bool) (acc : List Char) : List Char → Option (String × List Char)
  | [] => none
  | '"' :: '"' :: '"' :: cs => some (closing '"' acc cs)
  | '\n' :: cs => basicLines skip (if skip then acc else '\n' :: acc) cs
  | '\r' :: '\n' :: cs => basicLines skip (if skip then acc else '\n' :: acc) cs
  | '\\' :: 'u' :: a :: b :: c :: d :: cs =>
    match hexChar? [a, b, c, d] with
    | some x => basicLines false (x :: acc) cs
    | none => none
  | '\\' :: 'U' :: a :: b :: c :: d :: e :: f :: g :: h :: cs =>
    match hexChar? [a, b, c, d, e, f, g, h] with
    | some x => basicLines false (x :: acc) cs
    | none => none
  | '\\' :: c :: cs =>
    match simpleEscape? c with
    | some x => basicLines false (x :: acc) cs
    | none =>
      match newline? (skipBlanks (c :: cs)) with
      | some _ => basicLines true acc cs
      | none => none
  | c :: cs =>
    if skip && isBlank c then basicLines true acc cs
    else if isBasicChar c || c == '"' then basicLines false (c :: acc) cs
    else none
termination_by structural cs => cs

/-- The rest of a string without escapes over several lines. -/
def literalLines (acc : List Char) : List Char → Option (String × List Char)
  | [] => none
  | '\'' :: '\'' :: '\'' :: cs => some (closing '\'' acc cs)
  | '\n' :: cs => literalLines ('\n' :: acc) cs
  | '\r' :: '\n' :: cs => literalLines ('\n' :: acc) cs
  | c :: cs => if isLiteralChar c || c == '\'' then literalLines (c :: acc) cs else none
termination_by structural cs => cs

/-- A line end right after the opening quotes does not count. -/
def skipNewline (cs : List Char) : List Char := (newline? cs).getD cs

/-- A string in any of the four forms. -/
def string? : List Char → Option (String × List Char)
  | '"' :: '"' :: '"' :: cs => basicLines false [] (skipNewline cs)
  | '"' :: cs => basicString [] cs
  | '\'' :: '\'' :: '\'' :: cs => literalLines [] (skipNewline cs)
  | '\'' :: cs => literalString cs
  | _ => none

/-! ## Numbers -/

/-- Underscores stand between digits only. -/
def grouped (afterDigit : Bool) : List Char → Bool
  | [] => afterDigit
  | '_' :: cs => afterDigit && grouped false cs
  | _ :: cs => grouped true cs

/-- The longest run of digits and underscores, underscores left out. -/
def digits? (isDigit : Char → Bool) (cs : List Char) : Option (List Char × List Char) :=
  let run := cs.takeWhile fun c => isDigit c || c == '_'
  if grouped false run then
    some (run.filter (· != '_'), cs.dropWhile fun c => isDigit c || c == '_')
  else none

/-- The number that digits of a base spell. -/
def digitsValue (base : Nat) (ds : List Char) : Nat :=
  ds.foldl (fun n c => n * base + (RawJson.hexValue? c).getD 0) 0

/-- A number that fits 64 bits with a sign. -/
def int64? (neg : Bool) (n : Nat) : Option Int :=
  let v : Int := if neg then -(n : Int) else n
  if Int64.minValue.toInt ≤ v && v ≤ Int64.maxValue.toInt then some v else none

/-- A whole number after the mark of its base. -/
def based? (base : Nat) (isDigit : Char → Bool) (cs : List Char) : Option (Int × List Char) := do
  let (ds, rest) ← digits? isDigit cs
  return (← int64? false (digitsValue base ds), rest)

/-- An optional sign: whether it is a minus, and what follows. -/
def sign : List Char → Bool × List Char
  | '-' :: cs => (true, cs)
  | '+' :: cs => (false, cs)
  | cs => (false, cs)

/-- Digits before the point or the exponent: no zero before others. -/
def whole? (cs : List Char) : Option (List Char × List Char) :=
  match digits? Char.isDigit cs with
  | some ('0' :: _ :: _, _) => none
  | r => r

/-- A point and the digits after it; no digits if there is no point. -/
def fraction? : List Char → Option (List Char × List Char)
  | '.' :: cs => digits? Char.isDigit cs
  | cs => some ([], cs)

/-- An exponent, if there is one. -/
def exponent? : List Char → Option (Option Int × List Char)
  | c :: cs =>
    if c == 'e' || c == 'E' then do
      let (neg, cs) := sign cs
      let (ds, rest) ← digits? Char.isDigit cs
      let n : Int := digitsValue 10 ds
      return (some (if neg then -n else n), rest)
    else some (none, c :: cs)
  | [] => some (none, [])

/-- The number `digits * 10 ^ exp` is too large for a double. -/
def overflows (ds : List Char) (exp : Int) : Bool :=
  let ds := ds.dropWhile (· == '0')
  let magnitude := (ds.length : Int) + exp
  if ds.isEmpty || magnitude < 300 then false
  else if 320 < magnitude then true
  else
    match exp with
    | .ofNat e => JsonNumber.doubleLimit ≤ digitsValue 10 ds * Nat.pow 10 e
    | .negSucc e => JsonNumber.doubleLimit * Nat.pow 10 (e + 1) ≤ digitsValue 10 ds

/-- What a number with a sign is. -/
inductive Number where
  | int (n : Int)
  | float

/-- A number in decimal. One with a point or an exponent is a float; positive floats must not
overflow. -/
def decimal? (cs : List Char) : Option (Number × List Char) := do
  let (neg, cs) := sign cs
  let (whole, afterWhole) ← whole? cs
  let (frac, cs) ← fraction? afterWhole
  let (exp, rest) ← exponent? cs
  if frac.isEmpty && exp.isNone then
    return (.int (← int64? neg (digitsValue 10 whole)), rest)
  else if !neg && overflows (whole ++ frac) (exp.getD 0 - frac.length) then none
  else return (.float, rest)

/-- A number that has a name. -/
def special? (cs : List Char) : Option (Number × List Char) :=
  match (sign cs).2 with
  | 'i' :: 'n' :: 'f' :: rest => some (.float, rest)
  | 'n' :: 'a' :: 'n' :: rest => some (.float, rest)
  | _ => none

def number? : List Char → Option (Number × List Char)
  | '0' :: 'x' :: cs => (based? 16 RawJson.isHex cs).map fun (n, rest) => (.int n, rest)
  | '0' :: 'o' :: cs =>
    (based? 8 (fun c => '0' ≤ c && c ≤ '7') cs).map fun (n, rest) => (.int n, rest)
  | '0' :: 'b' :: cs =>
    (based? 2 (fun c => c == '0' || c == '1') cs).map fun (n, rest) => (.int n, rest)
  | cs => (special? cs).or (decimal? cs)

/-! ## Dates and times -/

/-- A number of exactly so many digits. -/
def fixed? (width : Nat) (cs : List Char) : Option (Nat × List Char) :=
  let ds := cs.take width
  if ds.length == width && ds.all Char.isDigit then some (digitsValue 10 ds, cs.drop width)
  else none

/-- A number of two digits within bounds. -/
def two? (low high : Nat) (cs : List Char) : Option (Nat × List Char) :=
  match fixed? 2 cs with
  | some (n, rest) => if low ≤ n && n ≤ high then some (n, rest) else none
  | none => none

def exactly? (c : Char) : List Char → Option (List Char)
  | a :: cs => if a == c then some cs else none
  | [] => none

def isLeapYear (y : Nat) : Bool := y % 4 == 0 && (y % 100 != 0 || y % 400 == 0)

def daysInMonth (y m : Nat) : Nat :=
  if m == 2 then (if isLeapYear y then 29 else 28)
  else if m == 4 || m == 6 || m == 9 || m == 11 then 30
  else 31

/-- What follows a date. -/
def date? (cs : List Char) : Option (List Char) := do
  let (y, cs) ← fixed? 4 cs
  let cs ← exactly? '-' cs
  let (m, cs) ← two? 1 12 cs
  let cs ← exactly? '-' cs
  let (d, cs) ← two? 1 31 cs
  if d ≤ daysInMonth y m then some cs else none

/-- What follows a fraction of a second, if there is one. -/
def skipFraction (cs : List Char) : List Char :=
  match cs with
  | '.' :: c :: rest => if c.isDigit then rest.dropWhile Char.isDigit else cs
  | _ => cs

/-- What follows a time of day; seconds go up to a leap second. -/
def time? (cs : List Char) : Option (List Char) := do
  let (_, cs) ← two? 0 23 cs
  let cs ← exactly? ':' cs
  let (_, cs) ← two? 0 59 cs
  let cs ← exactly? ':' cs
  let (_, cs) ← two? 0 60 cs
  return skipFraction cs

/-- What follows the distance from the zero meridian's time. -/
def offset? : List Char → Option (List Char)
  | c :: cs =>
    if c == 'Z' || c == 'z' then some cs
    else if c == '+' || c == '-' then do
      let (_, cs) ← two? 0 23 cs
      let cs ← exactly? ':' cs
      let (_, cs) ← two? 0 59 cs
      return cs
    else none
  | [] => none

/-- What follows the time after a date, if there is one. -/
def skipTime (cs : List Char) : List Char :=
  match cs with
  | c :: rest =>
    if c == 'T' || c == 't' || c == ' ' then
      match time? rest with
      | some after => (offset? after).getD after
      | none => cs
    else cs
  | [] => cs

/-- What follows a date, a time or both. -/
def datetime? (cs : List Char) : Option (List Char) :=
  match date? cs with
  | some rest => some (skipTime rest)
  | none => time? cs

end ChocoRV.Toml
