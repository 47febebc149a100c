import ChocoRV.Frame
import ChocoRV.Routine.Basic

/-!
# Building symbol tables

The predefined classes and functions come first, then the global variables, then functions and
classes in the order of the program, each with all that is nested in it.
-/

namespace ChocoRV

namespace SymbolTable

def addScope (t : SymbolTable) (parent : Option Nat) : SymbolTable :=
  { t with scopes := t.scopes.push ⟨parent, ∅⟩ }

/-- Let a name stand for something in one scope, whatever it stood for there before. -/
def define (t : SymbolTable) (scope : Nat) (name : String) (sym : Symbol) : SymbolTable :=
  { t with
    scopes := t.scopes.modify scope fun s => { s with entries := s.entries.insert name sym } }

/-! ## Classes -/

/-- Enter a class with what it inherits. -/
def addClass (t : SymbolTable) (name : String) (tag : Int32) (superClass : Option Nat) :
    SymbolTable :=
  let inherited := superClass.map t.cls
  let info : ClassInfo :=
    { name, tag, superClass
      attrs := (inherited.map (·.attrs)).getD []
      methods := (inherited.map (·.methods)).getD []
      prototype := .global ("$" ++ name ++ "$prototype")
      dispatchTable := .global ("$" ++ name ++ "$dispatchTable")
      scope := t.scopes.size }
  let id := t.classes.size
  let t := { t.addScope (inherited.map ClassInfo.scope) with classes := t.classes.push info }
  t.define globalScope name (.cls id)

/-- Give a class one more attribute. -/
def addAttr (t : SymbolTable) (id : Nat) (var : TypedVar) (init : Literal) : SymbolTable :=
  let c := t.cls id
  let index := c.attrs.length
  let a : Attribute :=
    { name := var.name, type := var.type, index, offset := Object.slotOffset index, init }
  let t := { t with classes := t.classes.modify id fun c => { c with attrs := c.attrs ++ [a] } }
  t.define c.scope var.name (.attr a)

/-- Put a method in place of the one of its name, or after all others. -/
def putMethod (methods : List Method) (m : Method) : List Method :=
  if methods.any (·.name == m.name) then
    methods.map fun old => if old.name == m.name then m else old
  else methods ++ [m]

/-- Give a class a method, which is function `func`. -/
def addMethod (t : SymbolTable) (id : Nat) (name : String) (func : Nat) : SymbolTable :=
  let m : Method := { name, label := (t.func func).label, func := some func }
  let scope := (t.cls id).scope
  let t := { t with
    classes := t.classes.modify id fun c => { c with methods := putMethod c.methods m } }
  t.define scope name (.func func)

/-! ## Functions -/

/-- Where a function stands: its qualified name, the function and the scope around it, and its
nesting depth. -/
structure Site where
  name : String
  parent : Option Nat
  outer : Nat
  depth : Nat

/-- Functions of the program have labels of their own kind, apart from support routines. -/
def userLabel (qualified : String) : Label := .global ("$" ++ qualified)

/-- The parameters of function `id`; a static link comes before them. -/
def paramEntries (id depth : Nat) (params : List TypedVar) (entries : Entries) :
    Entries :=
  let first := if 0 < depth then 1 else 0
  params.zipIdx.foldl
    (fun entries (p, k) =>
      entries.insert p.name
        (.stack ⟨p.name, p.type, id, .param, Frame.paramOffset (first + k)⟩))
    entries

/-- The names and the local variables that the declarations of function `id` bring, in order. -/
def localEntries (t : SymbolTable) (id : Nat) (name : String) :
    List Decl → Entries × List LocalVar →
      Except CompileError (Entries × List LocalVar)
  | [], acc => .ok acc
  | .var _ v init :: rest, (entries, locals) =>
    let sym : Symbol := .stack ⟨v.name, v.type, id, .localVar, Frame.localOffset locals.length⟩
    t.localEntries id name rest (entries.insert v.name sym, locals ++ [⟨v.name, v.type, init⟩])
  | .global span g :: rest, (entries, locals) =>
    match t.entry? globalScope g with
    | some (.global var) => t.localEntries id name rest (entries.insert g (.global var), locals)
    | _ => .error (.unresolved g span)
  | .cls _ c _ _ :: _, _ =>
    .error (.invalidProgram ("class '" ++ c ++ "' nested in function '" ++ name ++ "'"))
  | .nonlocal .. :: rest, acc | .func .. :: rest, acc => t.localEntries id name rest acc

/-- Enter a function without those nested in it. Its number is the number of functions before it,
its scope the number of scopes before it. -/
def openFunction (t : SymbolTable) (site : Site) (span : Span) (params : List TypedVar)
    (result : ValueType) (decls : List Decl) (body : List Stmt) :
    Except CompileError SymbolTable := do
  let id := t.funcs.size
  let (entries, locals) ←
    t.localEntries id site.name decls (paramEntries id site.depth params ∅, [])
  let info : FuncInfo :=
    { name := site.name, label := userLabel site.name, depth := site.depth, parent := site.parent
      params, locals, result, body, scope := t.scopes.size, span, builtin := false }
  return { t with
    funcs := t.funcs.push info
    scopes := t.scopes.push ⟨some site.outer, entries⟩ }

mutual

/-- Enter a function among the declarations of function `id`, with all that is nested in it. -/
def addNestedDecl (t : SymbolTable) (id : Nat) : Decl → Except CompileError SymbolTable
  | .func span name params result decls body => do
    let f := t.func id
    let nested := t.funcs.size
    let site : Site := ⟨f.name ++ "." ++ name, some id, f.scope, f.depth + 1⟩
    let t ← t.openFunction site span params result decls body
    let t ← t.addNested nested decls
    return t.define f.scope name (.func nested)
  | _ => .ok t

/-- Enter all functions among the declarations of function `id`. -/
def addNested (t : SymbolTable) (id : Nat) : List Decl → Except CompileError SymbolTable
  | [] => .ok t
  | d :: rest => do
    let t ← t.addNestedDecl id d
    t.addNested id rest

end

/-- Enter a function of the top level or of a class, with all that is nested in it. -/
def addFunction (t : SymbolTable) (qualified : String) (span : Span) (params : List TypedVar)
    (result : ValueType) (decls : List Decl) (body : List Stmt) :
    Except CompileError SymbolTable := do
  let id := t.funcs.size
  let t ← t.openFunction ⟨qualified, none, globalScope, 0⟩ span params result decls body
  t.addNested id decls

/-! ## Programs -/

/-- What a declaration is called in messages. -/
def declText : Decl → String
  | .var .. => "variable definition"
  | .func .. => "function definition"
  | .cls .. => "class definition"
  | .global .. => "global declaration"
  | .nonlocal .. => "nonlocal declaration"

/-- The attributes among the declarations of class `id`. -/
def addAttrs (t : SymbolTable) (id : Nat) : List Decl → SymbolTable
  | [] => t
  | .var _ v init :: rest => (t.addAttr id v init).addAttrs id rest
  | _ :: rest => t.addAttrs id rest

/-- The methods among the declarations of class `id`; what is neither attribute nor method has no
place in a class. -/
def addMethods (t : SymbolTable) (id : Nat) (className : String) :
    List Decl → Except CompileError SymbolTable
  | [] => .ok t
  | .var .. :: rest => t.addMethods id className rest
  | .func span name params result decls body :: rest => do
    let func := t.funcs.size
    let t ← t.addFunction (className ++ "." ++ name) span params result decls body
    (t.addMethod id name func).addMethods id className rest
  | d :: _ =>
    .error (.invalidProgram ("unexpected " ++ declText d ++ " in class '" ++ className ++ "'"))

/-- The tag of the next class of the program. -/
def nextTag (t : SymbolTable) : Int32 :=
  Object.firstUserTag +
    Int32.ofNat (t.classes.toList.countP fun c => Object.firstUserTag ≤ c.tag)

/-- Enter a class of the program with its members. -/
def addUserClass (t : SymbolTable) (name superName : String) (decls : List Decl) :
    Except CompileError SymbolTable :=
  match t.entry? globalScope superName with
  | some (.cls superId) =>
    let id := t.classes.size
    ((t.addClass name t.nextTag (some superId)).addAttrs id decls).addMethods id name decls
  | _ =>
    .error (.invalidProgram
      ("class '" ++ name ++ "' extends unknown class '" ++ superName ++ "'"))

/-- Enter a support routine that programs can call by name. -/
def addBuiltin (t : SymbolTable) (name : String) (result : ValueType) : SymbolTable :=
  let info : FuncInfo :=
    { name, label := .global name, depth := 0, parent := none
      params := [⟨"arg", .object⟩], locals := [], result, body := []
      scope := t.scopes.size, span := {}, builtin := true }
  let id := t.funcs.size
  let t := { t.addScope (some globalScope) with funcs := t.funcs.push info }
  t.define globalScope name (.func id)

/-- A predefined class whose objects hold one value. -/
def addBoxClass (t : SymbolTable) (name : String) (tag : Int32) (init : Literal) (object : Nat) :
    SymbolTable :=
  let id := t.classes.size
  let t := t.addClass name tag (some object)
  match Object.builtinAttr? name with
  | some attr => t.addAttr id ⟨attr, .named name⟩ init
  | none => t

/-- The table of a program without declarations. Every class inherits the constructor of objects. -/
def predefined : SymbolTable :=
  let t : SymbolTable := ({} : SymbolTable).addScope none
  let object := t.classes.size
  let t := t.addClass "object" Object.objectTag none
  let init : Method := { name := "__init__", label := Routine.objectInit, func := none }
  let t := { t with classes := t.classes.modify object fun c => { c with methods := [init] } }
  let t := t.addBoxClass "int" Object.intTag (.int 0) object
  let t := t.addBoxClass "bool" Object.boolTag (.bool false) object
  let t := t.addBoxClass "str" Object.strTag (.str "") object
  (t.addBuiltin "print" .none).addBuiltin "len" .int

def addGlobal (t : SymbolTable) (v : TypedVar) (init : Literal) : SymbolTable :=
  let g : GlobalVar := ⟨v.name, v.type, .global ("$" ++ v.name), init⟩
  let t := { t with globals := t.globals ++ [g] }
  t.define globalScope v.name (.global g)

/-- The global variables among the declarations of a program. -/
def addGlobals (t : SymbolTable) : List Decl → SymbolTable
  | [] => t
  | .var _ v init :: rest => (t.addGlobal v init).addGlobals rest
  | _ :: rest => t.addGlobals rest

/-- The functions and classes among the declarations of a program. -/
def addDecls (t : SymbolTable) : List Decl → Except CompileError SymbolTable
  | [] => .ok t
  | .var .. :: rest => t.addDecls rest
  | .func span name params result decls body :: rest => do
    let id := t.funcs.size
    let t ← t.addFunction name span params result decls body
    (t.define globalScope name (.func id)).addDecls rest
  | .cls _ name superName decls :: rest => do
    let t ← t.addUserClass name superName decls
    t.addDecls rest
  | .global _ name :: _ | .nonlocal _ name :: _ =>
    .error (.invalidProgram ("'" ++ name ++ "' declared global/nonlocal at top level"))

/-- The symbol table of a program. -/
def ofProgram (p : Program) : Except CompileError SymbolTable :=
  (predefined.addGlobals p.decls).addDecls p.decls

end SymbolTable

end ChocoRV
