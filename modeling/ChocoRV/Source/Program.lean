import ChocoRV.Source.Span

/-!
# Typed ChocoPy programs

The tree that code is generated from: declarations, statements and expressions of a
program that has already been type checked, so that every expression carries its static type.
-/

namespace ChocoRV

/-- The static type of a value. -/
inductive ValueType where
  /-- A class, by name; the predefined classes are classes like any other. -/
  | named (name : String)
  /-- A list with elements of one type. -/
  | list (element : ValueType)
deriving DecidableEq, Repr, Inhabited

namespace ValueType

def int : ValueType := .named "int"

def bool : ValueType := .named "bool"

def str : ValueType := .named "str"

def object : ValueType := .named "object"

/-- The type of the literal for nothing. -/
def none : ValueType := .named "<None>"

/-- The type of the empty list display. -/
def empty : ValueType := .named "<Empty>"

/-- The type wrapped in `n` lists. -/
def nested : Nat → ValueType → ValueType
  | 0, t => t
  | n + 1, t => .list (nested n t)

def className? : ValueType → Option String
  | .named c => some c
  | .list _ => Option.none

def element? : ValueType → Option ValueType
  | .named _ => Option.none
  | .list t => some t

def isInt (t : ValueType) : Bool := t == int

def isBool (t : ValueType) : Bool := t == bool

def isStr (t : ValueType) : Bool := t == str

/-- Integers and booleans are held as plain words; every other value is a reference. -/
def isUnboxed (t : ValueType) : Bool := t.isInt || t.isBool

/-- Lists, and the empty list display, whose element type is not known yet. -/
def isList : ValueType → Bool
  | .list _ => true
  | t => t == empty

end ValueType

/-- A variable with its declared type. -/
structure TypedVar where
  name : String
  type : ValueType
deriving DecidableEq, Repr, Inhabited

/-- The initial value of a variable or an attribute. -/
inductive Literal where
  | int (value : Int32)
  | bool (value : Bool)
  | str (value : String)
  | none
deriving DecidableEq, Repr, Inhabited

inductive BinOp where
  | add | sub | mul | floorDiv | mod
  | eq | ne | lt | le | gt | ge
  | is
  | and | or
deriving DecidableEq, Repr, Inhabited

namespace BinOp

/-- The operators in the order in which they are numbered. -/
def all : List BinOp :=
  [.add, .sub, .mul, .floorDiv, .mod, .eq, .ne, .lt, .le, .gt, .ge, .is, .and, .or]

def symbol : BinOp → String
  | .add => "+"
  | .sub => "-"
  | .mul => "*"
  | .floorDiv => "//"
  | .mod => "%"
  | .eq => "=="
  | .ne => "!="
  | .lt => "<"
  | .le => "<="
  | .gt => ">"
  | .ge => ">="
  | .is => "is"
  | .and => "and"
  | .or => "or"

end BinOp

inductive UnOp where
  | neg | not
deriving DecidableEq, Repr, Inhabited

namespace UnOp

def all : List UnOp := [.neg, .not]

def symbol : UnOp → String
  | .neg => "-"
  | .not => "not"

end UnOp

/-- What every expression carries beside its form: its place and its static type. -/
structure ExprInfo where
  span : Span
  type : ValueType
deriving DecidableEq, Repr, Inhabited

/-- An expression of a typed program. -/
inductive Expr where
  | int (info : ExprInfo) (value : Int32)
  | bool (info : ExprInfo) (value : Bool)
  | str (info : ExprInfo) (value : String)
  | none (info : ExprInfo)
  | name (info : ExprInfo) (name : String)
  | binary (info : ExprInfo) (left : Expr) (op : BinOp) (right : Expr)
  | unary (info : ExprInfo) (op : UnOp) (operand : Expr)
  | cond (info : ExprInfo) (test onTrue onFalse : Expr)
  /-- A call of a function or of a class by its name. -/
  | call (info : ExprInfo) (function : String) (args : List Expr)
  | methodCall (info : ExprInfo) (object : Expr) (method : String) (args : List Expr)
  | member (info : ExprInfo) (object : Expr) (attr : String)
  | index (info : ExprInfo) (seq idx : Expr)
  | list (info : ExprInfo) (elements : List Expr)
deriving Inhabited

namespace Expr

def info : Expr → ExprInfo
  | .int i _ | .bool i _ | .str i _ | .none i | .name i _ | .binary i .. | .unary i ..
  | .cond i .. | .call i .. | .methodCall i .. | .member i .. | .index i .. | .list i _ => i

def span (e : Expr) : Span := e.info.span

def type (e : Expr) : ValueType := e.info.type

/-- The same expression at another place; the places inside it stay. -/
def withSpan (s : Span) : Expr → Expr
  | .int i v => .int { i with span := s } v
  | .bool i v => .bool { i with span := s } v
  | .str i v => .str { i with span := s } v
  | .none i => .none { i with span := s }
  | .name i n => .name { i with span := s } n
  | .binary i l op r => .binary { i with span := s } l op r
  | .unary i op e => .unary { i with span := s } op e
  | .cond i c t f => .cond { i with span := s } c t f
  | .call i f as => .call { i with span := s } f as
  | .methodCall i o m as => .methodCall { i with span := s } o m as
  | .member i o a => .member { i with span := s } o a
  | .index i l k => .index { i with span := s } l k
  | .list i es => .list { i with span := s } es

/-- The names of the expression forms, in the order in which they are numbered. -/
def kinds : List String :=
  ["IntegerLiteral", "BooleanLiteral", "StringLiteral", "NoneLiteral", "Identifier",
    "BinaryExpr", "UnaryExpr", "IfExpr", "CallExpr", "MethodCallExpr", "MemberExpr", "IndexExpr",
    "ListExpr"]

/-- The name of the expression's form, used in messages. -/
def kind : Expr → String
  | .int .. => "IntegerLiteral"
  | .bool .. => "BooleanLiteral"
  | .str .. => "StringLiteral"
  | .none .. => "NoneLiteral"
  | .name .. => "Identifier"
  | .binary .. => "BinaryExpr"
  | .unary .. => "UnaryExpr"
  | .cond .. => "IfExpr"
  | .call .. => "CallExpr"
  | .methodCall .. => "MethodCallExpr"
  | .member .. => "MemberExpr"
  | .index .. => "IndexExpr"
  | .list .. => "ListExpr"

/-- The operator of a binary expression. -/
def binOp? : Expr → Option BinOp
  | .binary _ _ op _ => some op
  | _ => Option.none

end Expr

/-- A statement. -/
inductive Stmt where
  | expr (span : Span) (value : Expr)
  /-- The value is computed once and stored in each target, left to right. -/
  | assign (span : Span) (targets : List Expr) (value : Expr)
  | ifElse (span : Span) (test : Expr) (onTrue onFalse : List Stmt)
  | whileLoop (span : Span) (test : Expr) (body : List Stmt)
  | forEach (span : Span) (var : String) (seq : Expr) (body : List Stmt)
  | ret (span : Span) (value : Option Expr)
  | pass (span : Span)
deriving Inhabited

namespace Stmt

def span : Stmt → Span
  | .expr s _ | .assign s .. | .ifElse s .. | .whileLoop s .. | .forEach s .. | .ret s _
  | .pass s => s

end Stmt

/-- A declaration at the top level, in a class or in a function. -/
inductive Decl where
  | var (span : Span) (var : TypedVar) (value : Literal)
  | func (span : Span) (name : String) (params : List TypedVar) (result : ValueType)
      (decls : List Decl) (body : List Stmt)
  | cls (span : Span) (name superName : String) (decls : List Decl)
  | global (span : Span) (name : String)
  | nonlocal (span : Span) (name : String)
deriving Inhabited

/-- A program: its global declarations, then its top-level statements. -/
structure Program where
  decls : List Decl := []
  body : List Stmt := []
deriving Inhabited

end ChocoRV
