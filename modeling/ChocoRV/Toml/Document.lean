import ChocoRV.Toml.Reader

/-!
# TOML documents

The statements of a document are entered one after the other. A table that a header has defined is
closed: neither another header nor a dotted key may define it again. A table that only stands on
the way to another one can still get a header of its own, and one that a dotted key has made can
only be extended by dotted keys beside it.
-/

namespace ChocoRV.Toml

/-- How a table came into being. -/
inductive Making where
  /-- By a header. -/
  | header
  /-- On the way to the table of a header. -/
  | implied
  /-- By a dotted key. -/
  | dotted
deriving DecidableEq, Repr, Inhabited

/-- A document in the making. -/
inductive Node where
  | value (v : Toml)
  | table (how : Making) (entries : List (String × Node))
  /-- An array of tables: the last table, then those before it, the latest first. -/
  | tables (last : List (String × Node)) (before : List (List (String × Node)))
deriving Inhabited

abbrev Entries := List (String × Node)

/-- Change the entry of a name, or make one. -/
def Entries.alter (es : Entries) (name : String) (f : Option Node → Option Node) : Option Entries :=
  match es with
  | [] => (f none).map fun node => [(name, node)]
  | (n, node) :: rest =>
    if n == name then (f (some node)).map fun node => (n, node) :: rest
    else (Entries.alter rest name f).map ((n, node) :: ·)

/-- Change the table that a key leads to. Tables that are missing on the way are made; `made` says
how. A dotted key does not lead into a table that a header has defined. -/
def Entries.within (made : Making) (f : Making → Entries → Option Entries) :
    TomlKey → Making → Entries → Option Entries
  | [], how, es => f how es
  | name :: key, _, es =>
    es.alter name fun
      | none => (Entries.within made f key made []).map (.table made)
      | some (.value _) => none
      | some (.table how sub) =>
        if made == .dotted && how == .header then none
        else (Entries.within made f key how sub).map (.table how)
      | some (.tables last before) =>
        (Entries.within made f key .header last).map (.tables · before)

/-- Enter a value under a dotted key that is still free. -/
def Entries.addPair (key : TomlKey) (v : Toml) (es : Entries) : Option Entries :=
  let path := key.dropLast
  let name := key.getLastD ""
  let add (how : Making) (sub : Entries) : Option Entries :=
    if (how == .dotted) == path.isEmpty then none
    else sub.alter name fun
      | none => some (.value v)
      | some _ => none
  Entries.within .dotted add path .header es

/-- Enter the header of a table. -/
def Entries.addTable (key : TomlKey) (es : Entries) : Option Entries :=
  let add (_ : Making) (sub : Entries) : Option Entries :=
    sub.alter (key.getLastD "") fun
      | none => some (.table .header [])
      | some (.table .implied sub) => some (.table .header sub)
      | some _ => none
  Entries.within .implied add key.dropLast .header es

/-- Enter the header of one more table of an array. -/
def Entries.addNextTable (key : TomlKey) (es : Entries) : Option Entries :=
  let add (_ : Making) (sub : Entries) : Option Entries :=
    sub.alter (key.getLastD "") fun
      | none => some (.tables [] [])
      | some (.tables last before) => some (.tables [] (last :: before))
      | some _ => none
  Entries.within .implied add key.dropLast .header es

mutual

/-- The value that a node stands for. -/
def Node.toToml : Node → Toml
  | .value v => v
  | .table _ es => .table (entriesToToml es)
  | .tables last before => .arr (tablesToToml before ++ [.table (entriesToToml last)])

def entriesToToml : List (String × Node) → List (String × Toml)
  | [] => []
  | (name, node) :: rest => (name, node.toToml) :: entriesToToml rest

/-- The tables in the order in which they were entered. -/
def tablesToToml : List (List (String × Node)) → List Toml
  | [] => []
  | es :: rest => tablesToToml rest ++ [.table (entriesToToml es)]

end

mutual

/-- The value of a term; the keys of an inline table have to fit together. -/
def ofTerm? : TomlTerm → Option Toml
  | .str s => some (.str s)
  | .int n => some (.int n)
  | .float => some .float
  | .bool b => some (.bool b)
  | .datetime => some .datetime
  | .arr items => (ofTerms? items).map .arr
  | .inline pairs => (ofPairs? [] pairs).map fun es => .table (entriesToToml es)

def ofTerms? : List TomlTerm → Option (List Toml)
  | [] => some []
  | t :: rest =>
    match ofTerm? t, ofTerms? rest with
    | some v, some vs => some (v :: vs)
    | _, _ => none

/-- Enter the pairs of an inline table. -/
def ofPairs? : Entries → List (TomlKey × TomlTerm) → Option Entries
  | es, [] => some es
  | es, (key, t) :: rest =>
    match ofTerm? t with
    | none => none
    | some v =>
      match es.addPair key v with
      | none => none
      | some es => ofPairs? es rest

end

/-- Enter a statement; `current` is the key of the last header. -/
def addStatement (current : TomlKey) (es : Entries) : TomlStatement → Option (TomlKey × Entries)
  | .pair key t =>
    match ofTerm? t with
    | none => none
    | some v =>
      (Entries.within .implied (fun _ sub => sub.addPair key v) current .header es).map (current, ·)
  | .table key => (es.addTable key).map (key, ·)
  | .nextTable key => (es.addNextTable key).map (key, ·)

/-- Enter statements in order. -/
def addStatements (current : TomlKey) (es : Entries) : List TomlStatement → Option Entries
  | [] => some es
  | s :: rest =>
    match addStatement current es s with
    | some (current, es) => addStatements current es rest
    | none => none

/-- The entries of the document that a text holds. -/
def parse? (text : String) : Option (List (String × Toml)) :=
  (readStatements? text).bind fun ss => (addStatements [] [] ss).map entriesToToml

end ChocoRV.Toml
