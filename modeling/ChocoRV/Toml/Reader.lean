import ChocoRV.Toml.Basic
import ChocoRV.Toml.Scalar

/-!
# Reading TOML

The statements of a document: keys, values and table headers. Whether the statements fit together
is not looked at here.
-/

namespace ChocoRV.Toml

/-- A key has fewer parts than this, and values nest less deep. -/
def depthLimit : Nat := 80

/-- The characters of a part of a key without quotes. -/
def isBareChar (c : Char) : Bool := c.isAlphanum || c == '-' || c == '_'

/-- One part of a key. -/
def keyPart? : List Char → Option (String × List Char)
  | '"' :: cs => basicString [] cs
  | '\'' :: cs => literalString cs
  | cs =>
    match cs.takeWhile isBareChar with
    | [] => none
    | part => some (String.ofList part, cs.dropWhile isBareChar)

/-- The parts of a key with blanks around each; `fuel` bounds their number. -/
def keyParts? : Nat → List Char → Option (TomlKey × List Char)
  | 0, _ => none
  | fuel + 1, cs => do
    let (part, cs) ← keyPart? (skipBlanks cs)
    match skipBlanks cs with
    | '.' :: cs =>
      let (parts, rest) ← keyParts? fuel cs
      return (part :: parts, rest)
    | rest => return ([part], rest)

def key? (cs : List Char) : Option (TomlKey × List Char) := keyParts? (depthLimit - 1) cs

/-- Skip blanks, line ends and comments; `inComment` says that a comment is going on. -/
def skipGap : Bool → List Char → List Char
  | _, [] => []
  | _, '\n' :: cs => skipGap false cs
  | _, '\r' :: '\n' :: cs => skipGap false cs
  | true, c :: cs => if isCommentChar c then skipGap true cs else c :: cs
  | false, c :: cs =>
    if isBlank c then skipGap false cs
    else if c == '#' then skipGap true cs
    else c :: cs
termination_by structural _ cs => cs

/-- What follows a line that may end with a comment; the end of the text ends a line too. -/
def lineEnd? (cs : List Char) : Option (List Char) :=
  let afterComment := match skipBlanks cs with
    | '#' :: cs => cs.dropWhile isCommentChar
    | cs => cs
  match afterComment with
  | [] => some []
  | cs => newline? cs

/-- A value that starts with a digit or a sign, or a named number. -/
def numeric? (cs : List Char) : Option (TomlTerm × List Char) :=
  match datetime? cs with
  | some rest => some (.datetime, rest)
  | none =>
    match number? cs with
    | some (.int n, rest) => some (.int n, rest)
    | some (.float, rest) => some (.float, rest)
    | none => none

mutual

/-- A value inside `depth` others; `fuel` bounds the values and pairs. -/
def term? : Nat → Nat → List Char → Option (TomlTerm × List Char)
  | 0, _, _ => none
  | fuel + 1, depth, cs =>
    match cs with
    | '"' :: _ | '\'' :: _ => (string? cs).map fun (s, rest) => (.str s, rest)
    | '[' :: cs => if depth + 1 < depthLimit then items? fuel (depth + 1) [] cs else none
    | '{' :: cs =>
      if depth + 1 < depthLimit then
        match skipBlanks cs with
        | '}' :: rest => some (.inline [], rest)
        | cs => pairs? fuel (depth + 1) [] cs
      else none
    | 't' :: 'r' :: 'u' :: 'e' :: rest => some (.bool true, rest)
    | 'f' :: 'a' :: 'l' :: 's' :: 'e' :: rest => some (.bool false, rest)
    | cs => numeric? cs

/-- The items of an array up to its end; a comma may follow the last one. -/
def items? : Nat → Nat → List TomlTerm → List Char → Option (TomlTerm × List Char)
  | 0, _, _, _ => none
  | fuel + 1, depth, acc, cs =>
    match skipGap false cs with
    | ']' :: rest => some (.arr acc.reverse, rest)
    | cs =>
      match term? fuel depth cs with
      | none => none
      | some (item, cs) =>
        match skipGap false cs with
        | ',' :: cs => items? fuel depth (item :: acc) cs
        | ']' :: rest => some (.arr (item :: acc).reverse, rest)
        | _ => none

/-- The pairs of an inline table up to its end; all on one line, no comma after the last one. -/
def pairs? : Nat → Nat → List (TomlKey × TomlTerm) → List Char → Option (TomlTerm × List Char)
  | 0, _, _, _ => none
  | fuel + 1, depth, acc, cs =>
    match key? cs with
    | some (key, '=' :: cs) =>
      match term? fuel depth (skipBlanks cs) with
      | none => none
      | some (value, cs) =>
        match skipBlanks cs with
        | ',' :: cs => pairs? fuel depth ((key, value) :: acc) cs
        | '}' :: rest => some (.inline ((key, value) :: acc).reverse, rest)
        | _ => none
    | _ => none

end

/-- A statement and the end of its line. -/
def statement? : List Char → Option (TomlStatement × List Char)
  | '[' :: '[' :: cs =>
    match key? cs with
    | some (key, ']' :: ']' :: cs) => (lineEnd? cs).map (.nextTable key, ·)
    | _ => none
  | '[' :: cs =>
    match key? cs with
    | some (key, ']' :: cs) => (lineEnd? cs).map (.table key, ·)
    | _ => none
  | cs =>
    match key? cs with
    | some (key, '=' :: cs) =>
      match term? (2 * cs.length + 2) 0 (skipBlanks cs) with
      | some (value, cs) => (lineEnd? cs).map (.pair key value, ·)
      | none => none
    | _ => none

/-- The statements of a text; `fuel` bounds the lines. -/
def statements? : Nat → List TomlStatement → List Char → Option (List TomlStatement)
  | 0, _, _ => none
  | fuel + 1, acc, cs =>
    match skipBlanks cs with
    | [] => some acc.reverse
    | cs =>
      match lineEnd? cs with
      | some rest => statements? fuel acc rest
      | none =>
        match statement? cs with
        | some (s, rest) => statements? fuel (s :: acc) rest
        | none => none

/-- The statements of a document; a byte order mark may stand before them. -/
def readStatements? (text : String) : Option (List TomlStatement) :=
  let cs := match text.toList with
    | '\ufeff' :: cs => cs
    | cs => cs
  statements? (cs.length + 1) [] cs

end ChocoRV.Toml
