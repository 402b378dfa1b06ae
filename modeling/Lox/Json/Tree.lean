import Lox.Json
import Lox.Stmt

/-!
# Trees as JSON documents

`Expr.toJson` and `Stmt.toJson` write a tree as a document: each node is an
object with its kind as the only key, and tokens that a node keeps are
objects with type, lexeme and line.
-/

namespace Lox

/-- A token of a tree. -/
def Token.toJson (t : Token) : Json :=
  .object [("token_type", .text t.kind.name), ("lexeme", .text t.lexeme),
    ("line", .count t.line)]

/-- A symbol of a tree as a token. -/
def Symbol.toJson (s : Symbol) (line : Nat) : Json :=
  Token.toJson ⟨.symbol s, line⟩

/-- A keyword of a tree as a token. -/
def Keyword.toJson (k : Keyword) (line : Nat) : Json :=
  Token.toJson ⟨.keyword k, line⟩

/-- A name as a token. -/
def Ident.toJson (x : Ident) : Json :=
  Token.toJson ⟨.identifier x.name, x.line⟩

/-- A node of a given kind. -/
def Json.node (kind : String) (content : Json) : Json :=
  .object [(kind, content)]

/-- A document that may be absent. -/
def Json.optional : Option Json → Json
  | none => .null
  | some document => document

/-- The document of a literal. -/
def Literal.toJson : Literal → Json
  | nil => .text "Nil"
  | bool value => .text (if value then "True" else "False")
  | number value => .node "Number" (.number value)
  | string content => .node "Str" (.text content)

/-- A variable occurrence. -/
def Ref.toJson (ref : Ref) : Json :=
  .node "Variable" (.object [("id", .count ref.id),
    ("name", Ident.toJson ⟨ref.name, ref.line⟩)])

namespace Expr

mutual

/-- The document of an expression. -/
def toJson : Expr → Json
  | literal value => .node "Literal" value.toJson
  | group inner => .node "Grouping" (toJson inner)
  | unary op line right =>
    .node "Unary" (.object [("operator", op.symbol.toJson line),
      ("right", toJson right)])
  | binary left op line right =>
    .node "Binary" (.object [("left", toJson left),
      ("operator", op.symbol.toJson line), ("right", toJson right)])
  | logical left op line right =>
    .node "Logical" (.object [("left", toJson left),
      ("operator", op.keyword.toJson line), ("right", toJson right)])
  | .variable ref => ref.toJson
  | assign target value =>
    .node "Assign" (.object [("id", .count target.id),
      ("name", Ident.toJson ⟨target.name, target.line⟩),
      ("value", toJson value)])
  | call callee line arguments =>
    .node "Call" (.object [("callee", toJson callee),
      ("paren", Symbol.rightParen.toJson line),
      ("arguments", .array (toJsonAll arguments))])
  | get object name =>
    .node "Get" (.object [("object", toJson object), ("name", name.toJson)])
  | set object name value =>
    .node "Set" (.object [("object", toJson object), ("name", name.toJson),
      ("value", toJson value)])
  | .this id line =>
    .node "This" (.object [("id", .count id),
      ("keyword", Keyword.kwThis.toJson line)])
  | super id line method =>
    .node "Super" (.object [("id", .count id),
      ("keyword", Keyword.kwSuper.toJson line), ("method", method.toJson)])

/-- The documents of several expressions. -/
def toJsonAll : List Expr → List Json
  | [] => []
  | e :: rest => toJson e :: toJsonAll rest

end

end Expr

/-- The document of a kind of function. -/
def FunctionKind.toJson : FunctionKind → Json
  | function => .text "Function"
  | method => .text "Method"
  | getter => .text "Getter"
  | static => .text "Static"

mutual

/-- The document of a statement. -/
def Stmt.toJson : Stmt → Json
  | .expression e => .node "Expression" e.toJson
  | .print e => .node "Print" e.toJson
  | .var name initializer =>
    .node "Var" (.object [("name", name.toJson),
      ("initializer", .optional (initializer.map Expr.toJson))])
  | .block body => .node "Block" (.array (Stmt.toJsonAll body))
  | .ifElse condition thenBranch none =>
    .node "If" (.object [("condition", condition.toJson),
      ("then_branch", thenBranch.toJson), ("else_branch", .null)])
  | .ifElse condition thenBranch (some elseBranch) =>
    .node "If" (.object [("condition", condition.toJson),
      ("then_branch", thenBranch.toJson),
      ("else_branch", elseBranch.toJson)])
  | .while condition body =>
    .node "While" (.object [("condition", condition.toJson),
      ("body", body.toJson)])
  | .function declaration => .node "Function" declaration.toJson
  | .return line value =>
    .node "Return" (.object [("keyword", Keyword.kwReturn.toJson line),
      ("value", .optional (value.map Expr.toJson))])
  | .class declaration => .node "Class" declaration.toJson

/-- The documents of several statements. -/
def Stmt.toJsonAll : List Stmt → List Json
  | [] => []
  | s :: rest => s.toJson :: Stmt.toJsonAll rest

/-- The document of a function declaration. -/
def FunctionDecl.toJson : FunctionDecl → Json
  | ⟨name, params, body, kind⟩ =>
    .object [("name", name.toJson), ("params", .array (params.map Ident.toJson)),
      ("body", .array (Stmt.toJsonAll body)), ("kind", kind.toJson)]

/-- The documents of the members of a class. -/
def FunctionDecl.toJsonAll : List FunctionDecl → List Json
  | [] => []
  | f :: rest => f.toJson :: FunctionDecl.toJsonAll rest

/-- The document of a class declaration. -/
def ClassDecl.toJson : ClassDecl → Json
  | ⟨name, superclass, methods⟩ =>
    .object [("name", name.toJson),
      ("superclass", .optional (superclass.map Ref.toJson)),
      ("methods", .array (FunctionDecl.toJsonAll methods))]

end

end Lox
