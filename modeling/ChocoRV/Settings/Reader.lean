import ChocoRV.Settings.Basic
import ChocoRV.Toml.Document

/-!
# Reading settings

Settings come from a TOML document. What a document does not mention has its default, and entries
of other names do not count. A group of settings can also be an array that lists its values in
order, and a choice can be a table whose one entry, left empty, names it.
-/

namespace ChocoRV

namespace Toml

def nat? : Toml → Option Nat
  | .int (.ofNat n) => some n
  | _ => none

def bool? : Toml → Option Bool
  | .bool b => some b
  | _ => none

/-- A value without contents. -/
def isEmpty : Toml → Bool
  | .arr [] => true
  | .table [] => true
  | _ => false

/-- The values of a group of settings: by name in a table, by place in an array. A date is a group
that names none of them. -/
def group? (names : List String) : Toml → Option (List (Option Toml))
  | .table entries => some (names.map fun name => field? name entries)
  | .arr items => some (names.zipIdx.map fun (_, k) => items[k]?)
  | .datetime => some (names.map fun _ => none)
  | _ => none

/-- Read a value if there is one. -/
def readD {α : Type} (read : Toml → Option α) (default : α) : Option Toml → Option α
  | some v => read v
  | none => some default

end Toml

namespace RegisterMode

def ofToml? : Toml → Option RegisterMode
  | .str s => ofName? s
  | .table [(name, v)] => if v.isEmpty then ofName? name else none
  | _ => none

end RegisterMode

namespace CodegenSettings

def ofToml? (v : Toml) : Option CodegenSettings := do
  let d : CodegenSettings := {}
  match ← v.group? ["registers", "comments", "pool_size"] with
  | [registers, comments, poolSize] =>
    return {
      registers := ← Toml.readD RegisterMode.ofToml? d.registers registers
      comments := ← Toml.readD Toml.bool? d.comments comments
      poolSize := ← Toml.readD Toml.nat? d.poolSize poolSize }
  | _ => none

end CodegenSettings

namespace RunSettings

def ofToml? (v : Toml) : Option RunSettings := do
  let d : RunSettings := {}
  match ← v.group? ["max_steps"] with
  | [maxSteps] => return { maxSteps := ← Toml.readD Toml.nat? d.maxSteps maxSteps }
  | _ => none

end RunSettings

namespace Settings

def ofEntries? (entries : List (String × Toml)) : Option Settings := do
  let codegen ← Toml.readD CodegenSettings.ofToml? {} (Toml.field? "codegen" entries)
  let run ← Toml.readD RunSettings.ofToml? {} (Toml.field? "run" entries)
  return { codegen, run }

/-- The settings in a text. -/
def parse? (text : String) : Option Settings := (Toml.parse? text).bind ofEntries?

end Settings

end ChocoRV
