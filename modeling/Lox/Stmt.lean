import Lox.Expr

/-!
# Statements

The tree of a program.  A `for` loop has no node of its own: it is written
with blocks and `while`.  Functions, methods, getters and static methods
share one kind of declaration.
-/

namespace Lox

/-- How a function is declared: with `fun`, or in a class with a parameter
list, without one, or with `class` in front. -/
inductive FunctionKind where
  | function
  | method
  | getter
  | static
  deriving Repr, DecidableEq

mutual

/-- A statement. -/
inductive Stmt where
  | expression (e : Expr)
  | print (e : Expr)
  | var (name : Ident) (initializer : Option Expr)
  | block (body : List Stmt)
  | ifElse (condition : Expr) (thenBranch : Stmt) (elseBranch : Option Stmt)
  | while (condition : Expr) (body : Stmt)
  | function (declaration : FunctionDecl)
  | return (line : Nat) (value : Option Expr)
  | class (declaration : ClassDecl)

/-- A function, method, getter or static method. -/
structure FunctionDecl where
  name : Ident
  params : List Ident
  body : List Stmt
  kind : FunctionKind

/-- A class: its name, the name of its superclass and its members in the
order of the source. -/
structure ClassDecl where
  name : Ident
  superclass : Option Ref
  methods : List FunctionDecl

end

instance : Inhabited Stmt := ⟨.block []⟩

/-- The name of the method that runs when a class is called. -/
def initializerName : String := "init"

/-- Whether the declaration is that of an initializer: a method with a
parameter list and the name `init`. -/
def FunctionDecl.isInitializer (f : FunctionDecl) : Bool :=
  f.kind == .method && f.name.name == initializerName

end Lox
