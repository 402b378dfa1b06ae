import Lox.Expr

/-!
# The printed form of an expression

`Expr.print` writes an expression with every operator in front of its
operands and parentheses around each application, so that grouping shows
without knowledge of precedence: `-123 * (45.67)` becomes
`(* (- 123.0) (group 45.67))`.
-/

namespace Lox

/-- A literal in the printed form; a string stands without quotes. -/
def Literal.print : Literal → String
  | nil => "nil"
  | bool value => if value then "true" else "false"
  | number value => Number.treeText value
  | string content => content

namespace Expr

mutual

/-- The operator-first form of an expression. -/
def print : Expr → String
  | literal value => value.print
  | group inner => "(group " ++ print inner ++ ")"
  | unary op _ right => "(" ++ op.symbol.lexeme ++ " " ++ print right ++ ")"
  | binary left op _ right =>
    "(" ++ op.symbol.lexeme ++ " " ++ print left ++ " " ++ print right ++ ")"
  | logical left op _ right =>
    "(" ++ op.keyword.lexeme ++ " " ++ print left ++ " " ++ print right ++ ")"
  | .variable ref => ref.name
  | assign target value => "(= " ++ target.name ++ " " ++ print value ++ ")"
  | call callee _ arguments =>
    "(call " ++ print callee ++ printAll arguments ++ ")"
  | get object name => "(. " ++ print object ++ " " ++ name.name ++ ")"
  | set object name value =>
    "(set " ++ print object ++ " " ++ name.name ++ " " ++ print value ++ ")"
  | .this _ _ => "this"
  | super _ _ method => "(super " ++ method.name ++ ")"

/-- The arguments of a call, each after a space. -/
def printAll : List Expr → String
  | [] => ""
  | argument :: rest => " " ++ print argument ++ printAll rest

end

end Expr

end Lox
