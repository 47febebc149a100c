import ChocoRV.Json.Basic

/-!
# Writing JSON

The compact text of a value: no blanks, and only the characters escaped that have to be.
-/

namespace ChocoRV

namespace JsonNumber

def text (n : JsonNumber) : String :=
  (if n.neg then "-" else "") ++ String.ofList n.whole ++
    (if n.frac.isEmpty then "" else "." ++ String.ofList n.frac) ++
    match n.exp with
    | some (neg, ds) => (if neg then "e-" else "e") ++ String.ofList ds
    | none => ""

end JsonNumber

namespace Json

/-- The letter after the backslash, for the characters that have an escape of their own. -/
def shortEscape? (c : Char) : Option Char :=
  if c == '"' then some '"'
  else if c == '\\' then some '\\'
  else if c == '\x08' then some 'b'
  else if c == '\t' then some 't'
  else if c == '\n' then some 'n'
  else if c == '\x0c' then some 'f'
  else if c == '\r' then some 'r'
  else none

/-- A character below the blank, as an escape of four hexadecimal digits. -/
def escapeControl (c : Char) : List Char :=
  ['\\', 'u', '0', '0', Nat.digitChar (c.toNat / 16), Nat.digitChar (c.toNat % 16)]

def escapeChar (c : Char) : List Char :=
  match shortEscape? c with
  | some e => ['\\', e]
  | none => if c.toNat < 0x20 then escapeControl c else [c]

/-- What stands between the quotes of a string. -/
def escape (s : String) : List Char := s.toList.flatMap escapeChar

def quote (raw : List Char) : String := "\"" ++ String.ofList raw ++ "\""

mutual

def render : Json → String
  | .null => "null"
  | .bool true => "true"
  | .bool false => "false"
  | .int n => toString n
  | .real n => n.text
  | .str s => quote (escape s)
  | .arr items => "[" ++ ",".intercalate (renderItems items) ++ "]"
  | .obj members => "\x7b" ++ ",".intercalate (renderMembers members) ++ "\x7d"

def renderItems : List Json → List String
  | [] => []
  | v :: rest => render v :: renderItems rest

def renderMembers : List (String × Json) → List String
  | [] => []
  | (name, v) :: rest => (quote (escape name) ++ ":" ++ render v) :: renderMembers rest

end

end Json

namespace RawJson

mutual

/-- The text of a syntax tree, with strings and numbers as they were spelled. -/
def render : RawJson → String
  | .null => "null"
  | .bool true => "true"
  | .bool false => "false"
  | .num n => n.text
  | .str raw => Json.quote raw
  | .arr items => "[" ++ ",".intercalate (renderItems items) ++ "]"
  | .obj members => "\x7b" ++ ",".intercalate (renderMembers members) ++ "\x7d"

def renderItems : List RawJson → List String
  | [] => []
  | v :: rest => render v :: renderItems rest

def renderMembers : List (List Char × RawJson) → List String
  | [] => []
  | (name, v) :: rest => (Json.quote name ++ ":" ++ render v) :: renderMembers rest

end

end RawJson

end ChocoRV
