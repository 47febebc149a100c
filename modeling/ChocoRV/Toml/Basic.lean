/-!
# TOML values

`Toml` is what a document stands for. `TomlTerm` is a value as it is written, in which an inline
table is still a list of dotted keys, and `TomlStatement` is one line of a document.
-/

namespace ChocoRV

/-- A value of a TOML document. Nothing here depends on the value of a float or a date. -/
inductive Toml where
  | str (s : String)
  | int (n : Int)
  | float
  | bool (b : Bool)
  | datetime
  | arr (items : List Toml)
  | table (entries : List (String × Toml))
deriving Inhabited

/-- A key with dots between its parts. -/
abbrev TomlKey := List String

/-- A value as it is written. -/
inductive TomlTerm where
  | str (s : String)
  | int (n : Int)
  | float
  | bool (b : Bool)
  | datetime
  | arr (items : List TomlTerm)
  | inline (pairs : List (TomlKey × TomlTerm))
deriving Inhabited

/-- One line of a document. -/
inductive TomlStatement where
  | pair (key : TomlKey) (value : TomlTerm)
  /-- The header of a table. -/
  | table (key : TomlKey)
  /-- The header of the next table in an array of tables. -/
  | nextTable (key : TomlKey)
deriving Inhabited

namespace Toml

/-- The entry of that name. -/
def field? (name : String) (entries : List (String × Toml)) : Option Toml := entries.lookup name

end Toml

end ChocoRV
