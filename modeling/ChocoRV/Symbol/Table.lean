import Std.Data.ExtTreeMap
import ChocoRV.Source.Program
import ChocoRV.Asm.Program
import ChocoRV.Diagnostic

/-!
# Symbol tables

What the names of a program stand for. Functions, classes and scopes are numbered in the order in
which they are entered and refer to each other by number. A scope has a parent with a lower number,
so that looking a name up from a scope outward comes to an end.
-/

namespace ChocoRV

/-- An attribute of a class. -/
structure Attribute where
  name : String
  type : ValueType
  index : Nat
  /-- The byte offset from the object reference. -/
  offset : Int32
  init : Literal
deriving DecidableEq, Repr, Inhabited

/-- A variable of the top level. -/
structure GlobalVar where
  name : String
  type : ValueType
  label : Label
  init : Literal
deriving DecidableEq, Repr, Inhabited

inductive VarKind where
  | param | localVar
deriving DecidableEq, Repr, Inhabited

/-- A variable in the frame of a function. -/
structure StackVar where
  name : String
  type : ValueType
  /-- The function whose frame holds the variable. -/
  func : Nat
  kind : VarKind
  /-- The offset from `fp` of that frame. -/
  offset : Int32
deriving DecidableEq, Repr, Inhabited

/-- What a name stands for; classes and functions are given by number. -/
inductive Symbol where
  | cls (id : Nat)
  | func (id : Nat)
  | attr (a : Attribute)
  | global (g : GlobalVar)
  | stack (v : StackVar)
deriving DecidableEq, Repr, Inhabited

/-- An entry of a dispatch table. -/
structure Method where
  name : String
  label : Label
  /-- The function behind it; none for the constructor that every object has. -/
  func : Option Nat
deriving DecidableEq, Repr, Inhabited

structure ClassInfo where
  name : String
  tag : Int32
  superClass : Option Nat
  /-- Attributes, inherited ones first. -/
  attrs : List Attribute
  /-- Methods, inherited ones first; one that is overridden keeps its place. -/
  methods : List Method
  prototype : Label
  dispatchTable : Label
  /-- The scope of the members that the class itself defines. -/
  scope : Nat
deriving Inhabited

namespace ClassInfo

/-- The place of a method in the dispatch table, and its entry. -/
def method? (c : ClassInfo) (name : String) : Option (Nat × Method) :=
  (c.methods.findIdx? (·.name == name)).bind fun k => c.methods[k]?.map (k, ·)

end ClassInfo

/-- A local variable with its initial value. -/
structure LocalVar where
  name : String
  type : ValueType
  init : Literal
deriving DecidableEq, Repr, Inhabited

structure FuncInfo where
  /-- The name with the names of what encloses the function before it. -/
  name : String
  label : Label
  /-- How many functions enclose it. -/
  depth : Nat
  parent : Option Nat
  params : List TypedVar
  locals : List LocalVar
  result : ValueType
  body : List Stmt
  scope : Nat
  span : Span
  /-- The function is a support routine and has no body to compile. -/
  builtin : Bool
deriving Inhabited

namespace FuncInfo

/-- A nested function gets the frame of the function around it as an extra first argument. -/
def hasStaticLink (f : FuncInfo) : Bool := 0 < f.depth

/-- The number of words that a caller passes. -/
def argCount (f : FuncInfo) : Nat := f.params.length + if f.hasStaticLink then 1 else 0

end FuncInfo

/-- The names that a scope defines. -/
abbrev Entries := Std.ExtTreeMap String Symbol

structure Scope where
  parent : Option Nat
  entries : Entries
deriving Inhabited

structure SymbolTable where
  funcs : Array FuncInfo := #[]
  classes : Array ClassInfo := #[]
  scopes : Array Scope := #[]
  /-- Global variables in the order of their declarations. -/
  globals : List GlobalVar := []
deriving Inhabited

namespace SymbolTable

/-- The scope of the top level is the first one. -/
def globalScope : Nat := 0

def func (t : SymbolTable) (id : Nat) : FuncInfo := t.funcs.getD id default

def cls (t : SymbolTable) (id : Nat) : ClassInfo := t.classes.getD id default

/-- What a name stands for in one scope alone. -/
def entry? (t : SymbolTable) (scope : Nat) (name : String) : Option Symbol :=
  (t.scopes[scope]?).bind (·.entries[name]?)

def parent? (t : SymbolTable) (scope : Nat) : Option Nat := (t.scopes[scope]?).bind (·.parent)

/-- Look a name up from a scope outward, through at most `fuel` scopes. -/
def lookupWithin (t : SymbolTable) (name : String) : Nat → Nat → Option Symbol
  | 0, _ => none
  | fuel + 1, scope =>
    match t.entry? scope name with
    | some sym => some sym
    | none => (t.parent? scope).bind (t.lookupWithin name fuel)

/-- What a name stands for in a scope or the nearest one around it that defines it. A parent has a
lower number, so no more scopes than the number of this one lie around it. -/
def lookup? (t : SymbolTable) (scope : Nat) (name : String) : Option Symbol :=
  t.lookupWithin name (scope + 1) scope

/-- As `lookup?`, with the error for a name that nothing defines. -/
def lookup (t : SymbolTable) (scope : Nat) (name : String) (span : Span := {}) :
    Except CompileError Symbol :=
  match t.lookup? scope name with
  | some sym => .ok sym
  | none => .error (.unresolved name span)

def classNamed (t : SymbolTable) (name : String) : Except CompileError ClassInfo := do
  match ← t.lookup globalScope name with
  | .cls id => return t.cls id
  | _ => throw (.invalidProgram ("'" ++ name ++ "' is not a class"))

/-- The class that describes values of a type. -/
def classOf (t : SymbolTable) : ValueType → Except CompileError ClassInfo
  | .named name => t.classNamed name
  | .list _ => .error (.invalidProgram "lists have no class descriptor")

def attrOf (t : SymbolTable) (c : ClassInfo) (name : String) : Except CompileError Attribute := do
  match ← t.lookup c.scope name with
  | .attr a => return a
  | _ => throw (.invalidProgram ("'" ++ c.name ++ "." ++ name ++ "' is not an attribute"))

/-- The functions that have a body to compile, in the order of their numbers. -/
def compiled (t : SymbolTable) : List Nat :=
  (List.range t.funcs.size).filter fun id => !(t.func id).builtin

end SymbolTable

end ChocoRV
