import ChocoRV.Source.Program
import ChocoRV.Json.Printer

/-!
# The JSON form of programs

Every node is an object; its member `kind` names the form of the node. All members are written, also
those that a reader may leave out.
-/

namespace ChocoRV

namespace Span

def toJson (s : Span) : Json :=
  .arr [.ofNat s.line.toNat, .ofNat s.col.toNat, .ofNat s.endLine.toNat, .ofNat s.endCol.toNat]

end Span

/-- A node of form `kind`. -/
def Json.node (kind : String) (members : List (String × Json)) : Json :=
  .obj (("kind", .str kind) :: members)

namespace ValueType

def toJson : ValueType → Json
  | .named c => .node "ClassValueType" [("className", .str c)]
  | .list t => .node "ListValueType" [("elementType", t.toJson)]

end ValueType

namespace TypedVar

def toJson (v : TypedVar) : Json := .obj [("name", .str v.name), ("type", v.type.toJson)]

end TypedVar

namespace Literal

def toJson : Literal → Json
  | .int n => .node "Int" [("value", .int n.toInt)]
  | .bool b => .node "Bool" [("value", .bool b)]
  | .str s => .node "Str" [("value", .str s)]
  | .none => .node "None" []

end Literal

namespace Expr

/-- The members that every expression has, then those of its form. -/
def withInfo (i : ExprInfo) (kind : String) (members : List (String × Json)) : Json :=
  .obj (("span", i.span.toJson) :: ("inferredType", i.type.toJson) ::
    ("kind", .str kind) :: members)

mutual

def toJson : Expr → Json
  | .int i v => withInfo i "IntegerLiteral" [("value", .int v.toInt)]
  | .bool i v => withInfo i "BooleanLiteral" [("value", .bool v)]
  | .str i v => withInfo i "StringLiteral" [("value", .str v)]
  | .none i => withInfo i "NoneLiteral" []
  | .name i n => withInfo i "Identifier" [("name", .str n)]
  | .binary i l op r =>
    withInfo i "BinaryExpr"
      [("left", l.toJson), ("operator", .str op.symbol), ("right", r.toJson)]
  | .unary i op e => withInfo i "UnaryExpr" [("operator", .str op.symbol), ("operand", e.toJson)]
  | .cond i c t f =>
    withInfo i "IfExpr"
      [("condition", c.toJson), ("thenExpr", t.toJson), ("elseExpr", f.toJson)]
  | .call i f as => withInfo i "CallExpr" [("function", .str f), ("args", .arr (listToJson as))]
  | .methodCall i o m as =>
    withInfo i "MethodCallExpr"
      [("object", o.toJson), ("method", .str m), ("args", .arr (listToJson as))]
  | .member i o a => withInfo i "MemberExpr" [("object", o.toJson), ("member", .str a)]
  | .index i l k => withInfo i "IndexExpr" [("list", l.toJson), ("index", k.toJson)]
  | .list i es => withInfo i "ListExpr" [("elements", .arr (listToJson es))]

def listToJson : List Expr → List Json
  | [] => []
  | e :: es => e.toJson :: listToJson es

end

end Expr

namespace Stmt

mutual

def toJson : Stmt → Json
  | .expr s e => .node "ExprStmt" [("span", s.toJson), ("expr", e.toJson)]
  | .assign s ts v =>
    .node "AssignStmt"
      [("span", s.toJson), ("targets", .arr (Expr.listToJson ts)), ("value", v.toJson)]
  | .ifElse s c t f =>
    .node "IfStmt"
      [("span", s.toJson), ("condition", c.toJson), ("thenBody", .arr (listToJson t)),
        ("elseBody", .arr (listToJson f))]
  | .whileLoop s c b =>
    .node "WhileStmt"
      [("span", s.toJson), ("condition", c.toJson), ("body", .arr (listToJson b))]
  | .forEach s x e b =>
    .node "ForStmt"
      [("span", s.toJson), ("identifier", .str x), ("iterable", e.toJson),
        ("body", .arr (listToJson b))]
  | .ret s v => .node "ReturnStmt" [("span", s.toJson), ("value", Json.ofOption Expr.toJson v)]
  | .pass s => .node "PassStmt" [("span", s.toJson)]

def listToJson : List Stmt → List Json
  | [] => []
  | s :: ss => s.toJson :: listToJson ss

end

end Stmt

namespace Decl

mutual

def toJson : Decl → Json
  | .var s v l => .node "VarDef" [("span", s.toJson), ("var", v.toJson), ("value", l.toJson)]
  | .func s n ps r ds b =>
    .node "FuncDef"
      [("span", s.toJson), ("name", .str n), ("params", .arr (ps.map TypedVar.toJson)),
        ("returnType", r.toJson), ("declarations", .arr (listToJson ds)),
        ("statements", .arr (Stmt.listToJson b))]
  | .cls s n sup ds =>
    .node "ClassDef"
      [("span", s.toJson), ("name", .str n), ("superClass", .str sup),
        ("declarations", .arr (listToJson ds))]
  | .global s n => .node "GlobalDecl" [("span", s.toJson), ("name", .str n)]
  | .nonlocal s n => .node "NonLocalDecl" [("span", s.toJson), ("name", .str n)]

def listToJson : List Decl → List Json
  | [] => []
  | d :: ds => d.toJson :: listToJson ds

end

end Decl

namespace Program

def toJson (p : Program) : Json :=
  .obj [("declarations", .arr (Decl.listToJson p.decls)),
    ("statements", .arr (Stmt.listToJson p.body))]

end Program

end ChocoRV
