import ChocoRV.Source.Program
import ChocoRV.Json.Parser

/-!
# Programs from their JSON form

A node may be written as an object or, expressions apart, as an array: the name of its form, then
its members in order. Members that a node does not have are ignored, members that it has may not be
repeated. A span and the lists of declarations and statements may be left out; in an array only
members at the end can be.

Inside a node the form may be given by its number instead of its name. Operators, and the forms of
literals written as objects, are chosen by name only. The members of the program object itself that
are unknown are not read at all, so that their values are not restricted beyond the grammar.
-/

namespace ChocoRV

/-- The members of a node in the order in which its form declares them; `none` where one is left
out. -/
structure NodeFields where
  /-- The node was written as an array. -/
  positional : Bool
  values : List (Option Json)

namespace NodeFields

/-- The one member of that name, if there is one; a repeated one is refused. -/
def pick (members : List (String × Json)) (name : String) : Option (Option Json) :=
  match Json.membersNamed name members with
  | [] => some none
  | [v] => some (some v)
  | _ => none

def ofMembers? (members : List (String × Json)) (names : List String) : Option NodeFields :=
  (names.mapM (pick members)).map (⟨false, ·⟩)

def ofItems? (items : List Json) (names : List String) : Option NodeFields :=
  if items.length ≤ names.length then
    some ⟨true, items.map some ++ List.replicate (names.length - items.length) none⟩
  else none

def get (f : NodeFields) (k : Nat) : Option Json := (f.values.getD k none)

/-- A member that has to be there. -/
def required {α : Type} (f : NodeFields) (k : Nat) (read : Json → Option α) : Option α :=
  (f.get k).bind read

/-- A member that may be left out. -/
def withDefault {α : Type} (f : NodeFields) (k : Nat) (default : α) (read : Json → Option α) :
    Option α :=
  match f.get k with
  | some j => read j
  | none => some default

/-- A member that may be null and, in an object, may be left out. -/
def optional {α : Type} (f : NodeFields) (k : Nat) (read : Json → Option α) : Option (Option α) :=
  match f.get k with
  | some .null => some none
  | some j => (read j).map some
  | none => if f.positional then none else some none

end NodeFields

namespace Json

/-- The number of a form, given by name or, where `byNumber` allows it, by number. -/
def kind? (byNumber : Bool) (kinds : List String) : Json → Option Nat
  | .str s => kinds.idxOf? s
  | .int (.ofNat n) => if byNumber && n < kinds.length then some n else none
  | _ => none

/-- The form of a node and its members; `fields` gives their names for each form. -/
def node? (byNumber : Bool) (kinds : List String) (fields : Nat → List String) :
    Json → Option (Nat × NodeFields)
  | .obj members => do
    let tag ← NodeFields.pick members "kind"
    let k ← tag.bind (kind? byNumber kinds)
    let f ← NodeFields.ofMembers? members (fields k)
    return (k, f)
  | .arr (tag :: items) => do
    let k ← kind? byNumber kinds tag
    let f ← NodeFields.ofItems? items (fields k)
    return (k, f)
  | _ => none

/-- One of several names: the name, or an object with the name as its only member and nothing in
it. -/
def choice? : Json → Option String
  | .str s => some s
  | .obj [(s, .null)] | .obj [(s, .obj [])] => some s
  | _ => none

/-- A node without forms: an object, or an array of exactly its members. -/
def record? (names : List String) : Json → Option NodeFields
  | .obj members => NodeFields.ofMembers? members names
  | .arr items => NodeFields.ofItems? items names
  | _ => none

def int32? : Json → Option Int32
  | .int n =>
    if Int32.minValue.toInt ≤ n ∧ n ≤ Int32.maxValue.toInt then some (Int32.ofInt n) else none
  | _ => none

def uint32? : Json → Option UInt32
  | .int (.ofNat n) => if n < UInt32.size then some (UInt32.ofNat n) else none
  | _ => none

/-- Read every item of an array. -/
def list? {α : Type} (read : Json → Option α) : Json → Option (List α)
  | .arr items => items.mapM read
  | _ => none

end Json

namespace Span

def ofJson? : Json → Option Span
  | .arr [a, b, c, d] => do
    return ⟨← a.uint32?, ← b.uint32?, ← c.uint32?, ← d.uint32?⟩
  | _ => none

end Span

namespace ValueType

def kinds : List String := ["ClassValueType", "ListValueType"]

def fields : Nat → List String
  | 0 => ["className"]
  | _ => ["elementType"]

/-- Read a type that nests fewer than `fuel` nodes. -/
def ofJson? (byNumber : Bool) : Nat → Json → Option ValueType
  | 0, _ => Option.none
  | fuel + 1, j =>
    match j.node? byNumber kinds fields with
    | some (0, f) => (f.required 0 Json.string?).map .named
    | some (_, f) => (f.required 0 (ofJson? true fuel)).map .list
    | Option.none => Option.none

end ValueType

/-- Fuel for reading a value: no value that is read nests deeper. -/
def decodeFuel : Nat := RawJson.maxDepth + 1

namespace TypedVar

def ofJson? (j : Json) : Option TypedVar := do
  let f ← j.record? ["name", "type"]
  return ⟨← f.required 0 Json.string?, ← f.required 1 (ValueType.ofJson? true decodeFuel)⟩

end TypedVar

namespace Literal

def kinds : List String := ["Int", "Bool", "Str", "None"]

/-- The value of a literal of form `k`; only the literal for nothing may leave it out or have null
there. -/
def ofParts? (k : Nat) (value : Option Json) : Option Literal :=
  match k, value with
  | 0, some j => j.int32?.map .int
  | 1, some j => j.bool?.map .bool
  | 2, some j => j.string?.map .str
  | 3, Option.none | 3, some .null => some .none
  | _, _ => Option.none

/-- A literal is an object that names its form, or an array of its form and its value. -/
def ofJson? : Json → Option Literal
  | .obj members => do
    let tag ← NodeFields.pick members "kind"
    let k ← (tag.bind Json.choice?).bind kinds.idxOf?
    let value ← NodeFields.pick members "value"
    ofParts? k value
  | .arr [tag, value] => do
    let k ← tag.kind? true kinds
    ofParts? k (some value)
  | _ => Option.none

end Literal

/-- An operator, chosen by its symbol. -/
def Json.operator? {α : Type} (all : List α) (symbol : α → String) (j : Json) : Option α :=
  j.choice?.bind fun s => all.find? (symbol · == s)

namespace Expr

/-- The members of each form, by number. -/
def fields : Nat → List String
  | 0 | 1 | 2 => ["value"]
  | 4 => ["name"]
  | 5 => ["left", "operator", "right"]
  | 6 => ["operator", "operand"]
  | 7 => ["condition", "thenExpr", "elseExpr"]
  | 8 => ["function", "args"]
  | 9 => ["object", "method", "args"]
  | 10 => ["object", "member"]
  | 11 => ["list", "index"]
  | 12 => ["elements"]
  | _ => []

/-- Read an expression of form `k`, its subexpressions by `sub`. -/
def ofFields? (sub : Json → Option Expr) (info : ExprInfo) (f : NodeFields) : Nat → Option Expr
  | 0 => return .int info (← f.required 0 Json.int32?)
  | 1 => return .bool info (← f.required 0 Json.bool?)
  | 2 => return .str info (← f.required 0 Json.string?)
  | 3 => return .none info
  | 4 => return .name info (← f.required 0 Json.string?)
  | 5 => do
    let left ← f.required 0 sub
    let op ← f.required 1 (Json.operator? BinOp.all BinOp.symbol)
    let right ← f.required 2 sub
    return .binary info left op right
  | 6 => do
    let op ← f.required 0 (Json.operator? UnOp.all UnOp.symbol)
    let operand ← f.required 1 sub
    return .unary info op operand
  | 7 => return .cond info (← f.required 0 sub) (← f.required 1 sub) (← f.required 2 sub)
  | 8 => return .call info (← f.required 0 Json.string?) (← f.required 1 (Json.list? sub))
  | 9 => do
    let object ← f.required 0 sub
    let method ← f.required 1 Json.string?
    let args ← f.required 2 (Json.list? sub)
    return .methodCall info object method args
  | 10 => return .member info (← f.required 0 sub) (← f.required 1 Json.string?)
  | 11 => return .index info (← f.required 0 sub) (← f.required 1 sub)
  | 12 => return .list info (← f.required 0 (Json.list? sub))
  | _ => Option.none

/-- Read an expression, which has to be an object. Its type and place stand beside the members of
its form. -/
def ofJson? (byNumber : Bool) : Nat → Json → Option Expr
  | 0, _ => Option.none
  | fuel + 1, j =>
    match j with
    | .obj members => do
      let common ← NodeFields.ofMembers? members ["span", "inferredType"]
      let span ← common.withDefault 0 {} Span.ofJson?
      let type ← common.required 1 (ValueType.ofJson? byNumber decodeFuel)
      let (k, f) ← j.node? true kinds fields
      ofFields? (ofJson? true fuel) ⟨span, type⟩ f k
    | _ => Option.none

/-- Read an expression inside another node. -/
def ofNested? : Json → Option Expr := ofJson? true decodeFuel

end Expr

namespace Stmt

def kinds : List String :=
  ["ExprStmt", "AssignStmt", "IfStmt", "WhileStmt", "ForStmt", "ReturnStmt", "PassStmt"]

def fields : Nat → List String
  | 0 => ["span", "expr"]
  | 1 => ["span", "targets", "value"]
  | 2 => ["span", "condition", "thenBody", "elseBody"]
  | 3 => ["span", "condition", "body"]
  | 4 => ["span", "identifier", "iterable", "body"]
  | 5 => ["span", "value"]
  | _ => ["span"]

def ofFields? (sub : Json → Option Stmt) (span : Span) (f : NodeFields) : Nat → Option Stmt
  | 0 => return .expr span (← f.required 1 Expr.ofNested?)
  | 1 => do
    let targets ← f.required 1 (Json.list? Expr.ofNested?)
    let value ← f.required 2 Expr.ofNested?
    return .assign span targets value
  | 2 => do
    let test ← f.required 1 Expr.ofNested?
    let onTrue ← f.required 2 (Json.list? sub)
    let onFalse ← f.withDefault 3 [] (Json.list? sub)
    return .ifElse span test onTrue onFalse
  | 3 => do
    let test ← f.required 1 Expr.ofNested?
    let body ← f.required 2 (Json.list? sub)
    return .whileLoop span test body
  | 4 => do
    let var ← f.required 1 Json.string?
    let seq ← f.required 2 Expr.ofNested?
    let body ← f.required 3 (Json.list? sub)
    return .forEach span var seq body
  | 5 => return .ret span (← f.optional 1 Expr.ofNested?)
  | _ => return .pass span

def ofJson? (byNumber : Bool) : Nat → Json → Option Stmt
  | 0, _ => none
  | fuel + 1, j => do
    let (k, f) ← j.node? byNumber kinds fields
    let span ← f.withDefault 0 {} Span.ofJson?
    ofFields? (ofJson? true fuel) span f k

end Stmt

namespace Decl

def kinds : List String := ["VarDef", "FuncDef", "ClassDef", "GlobalDecl", "NonLocalDecl"]

def fields : Nat → List String
  | 0 => ["span", "var", "value"]
  | 1 => ["span", "name", "params", "returnType", "declarations", "statements"]
  | 2 => ["span", "name", "superClass", "declarations"]
  | _ => ["span", "name"]

def ofFields? (sub : Json → Option Decl) (span : Span) (f : NodeFields) : Nat → Option Decl
  | 0 => return .var span (← f.required 1 TypedVar.ofJson?) (← f.required 2 Literal.ofJson?)
  | 1 => do
    let name ← f.required 1 Json.string?
    let params ← f.withDefault 2 [] (Json.list? TypedVar.ofJson?)
    let result ← f.required 3 (ValueType.ofJson? true decodeFuel)
    let decls ← f.withDefault 4 [] (Json.list? sub)
    let body ← f.withDefault 5 [] (Json.list? (Stmt.ofJson? true decodeFuel))
    return .func span name params result decls body
  | 2 => do
    let name ← f.required 1 Json.string?
    let superName ← f.required 2 Json.string?
    let decls ← f.withDefault 3 [] (Json.list? sub)
    return .cls span name superName decls
  | 3 => return .global span (← f.required 1 Json.string?)
  | _ => return .nonlocal span (← f.required 1 Json.string?)

def ofJson? (byNumber : Bool) : Nat → Json → Option Decl
  | 0, _ => none
  | fuel + 1, j => do
    let (k, f) ← j.node? byNumber kinds fields
    let span ← f.withDefault 0 {} Span.ofJson?
    ofFields? (ofJson? true fuel) span f k

end Decl

/-- Read every item of a list that is a text of its own. -/
def RawJson.list? {α : Type} (read : Json → Option α) (raw : RawJson) : Option (List α) :=
  (raw.value? RawJson.maxDepth).bind (Json.list? read)

namespace Program

/-- Read the declarations and statements of a program. -/
def ofParts? (decls body : Option Json) : Option Program := do
  let decls ← match decls with
    | some j => j.list? (Decl.ofJson? false decodeFuel)
    | none => some []
  let body ← match body with
    | some j => j.list? (Stmt.ofJson? false decodeFuel)
    | none => some []
  return ⟨decls, body⟩

/-- The value of the one member of that name, which lies one level down. -/
def member? (members : List (List Char × RawJson)) (name : String) : Option (Option Json) :=
  match members.filter fun m => RawJson.unescape [] m.1 == some name with
  | [] => some none
  | [m] => (RawJson.value? (RawJson.maxDepth - 1) m.2).map some
  | _ => none

/-- A program from the syntax tree of its text. The names of members are read, unknown members
themselves are not. -/
def ofRaw? : RawJson → Option Program
  | .obj members => do
    if members.all fun m => (RawJson.unescape [] m.1).isSome then
      let decls ← member? members "declarations"
      let body ← member? members "statements"
      ofParts? decls body
    else none
  | raw => do
    match ← RawJson.value? RawJson.maxDepth raw with
    | .arr [] => ofParts? none none
    | .arr [decls] => ofParts? (some decls) none
    | .arr [decls, body] => ofParts? (some decls) (some body)
    | _ => none

/-- A program from its JSON text. -/
def parse? (text : String) : Option Program := (RawJson.parse? text).bind ofRaw?

end Program

end ChocoRV
