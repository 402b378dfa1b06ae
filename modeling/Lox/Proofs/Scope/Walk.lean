import Lox.Proofs.Induction
import Lox.Scope.Resolve

/-!
# The walk by structure

The walk over a program works through a list of actions.  For proofs about
trees it is given here once more, by recursion over the tree, and the two are
proved equal (`walk_statement`).  A list of actions can be cut anywhere
(`walk_append`), which is why the result for a tree does not depend on what
is left to do behind it.
-/

namespace Lox.Scope

/-! ## Actions one after another -/

@[simp] theorem walk_nil (st : State) : walk [] st = st := by
  rw [walk]

theorem walk_cons (a : Action) (rest : List Action) (st : State) :
    walk (a :: rest) st = walk ((visit st a).1 ++ rest) (visit st a).2 := by
  rw [walk]

/-- A list of actions can be cut anywhere. -/
theorem walk_append (actions rest : List Action) (st : State) :
    walk (actions ++ rest) st = walk rest (walk actions st) := by
  fun_induction walk actions st with
  | case1 st => rfl
  | case2 st a actions visited ih =>
    rw [List.cons_append, walk_cons, ← List.append_assoc]
    exact ih

theorem walk_single (a : Action) (st : State) :
    walk [a] st = walk (visit st a).1 (visit st a).2 := by
  rw [walk_cons, List.append_nil]

/-- One action after another. -/
theorem walk_cons_cons (a b : Action) (rest : List Action) (st : State) :
    walk (a :: b :: rest) st = walk (b :: rest) (walk [a] st) :=
  walk_append [a] (b :: rest) st

/-! ## The walk over a tree -/

mutual

/-- The state after an expression. -/
def walkExpr : Expr → State → State
  | .literal _, st => st
  | .group inner, st => walkExpr inner st
  | .unary _ _ right, st => walkExpr right st
  | .binary left _ _ right, st => walkExpr right (walkExpr left st)
  | .logical left _ _ right, st => walkExpr right (walkExpr left st)
  | .variable ref, st => st.read ref
  | .assign target value, st => (walkExpr value st).bind target.id target.name
  | .call callee _ arguments, st => walkExprs arguments (walkExpr callee st)
  | .get object _, st => walkExpr object st
  | .set object _ value, st => walkExpr object (walkExpr value st)
  | .this id line, st => st.readThis id line
  | .super id line _, st => st.readSuper id line

/-- The state after some expressions. -/
def walkExprs : List Expr → State → State
  | [], st => st
  | e :: rest, st => walkExprs rest (walkExpr e st)

end

/-- The state after an optional expression. -/
def walkOption : Option Expr → State → State
  | none, st => st
  | some e, st => walkExpr e st

mutual

/-- The state after a statement. -/
def walkStmt : Stmt → State → State
  | .expression e, st => walkExpr e st
  | .print e, st => walkExpr e st
  | .var x initializer, st => (walkOption initializer (st.declare x)).define x
  | .block body, st => (walkStmts body (st.enter [])).leave
  | .ifElse condition thenBranch none, st =>
    walkStmt thenBranch (walkExpr condition st)
  | .ifElse condition thenBranch (some elseBranch), st =>
    walkStmt elseBranch (walkStmt thenBranch (walkExpr condition st))
  | .while condition body, st => walkStmt body (walkExpr condition st)
  | .function f, st =>
    walkRoutine f .function ((st.declare f.name).define f.name)
  | .return line value, st =>
    walkOption value (st.checkReturn line value.isSome)
  | .class c, st => walkClass c st

/-- The state after some statements. -/
def walkStmts : List Stmt → State → State
  | [], st => st
  | s :: rest, st => walkStmts rest (walkStmt s st)

/-- The state after the parameters and the body of a function. -/
def walkRoutine : FunctionDecl → Body → State → State
  | ⟨_, params, statements, _⟩, body, st =>
    let inner := (({ st with body := body } : State).enter []).parameters params
    { (walkStmts statements inner).leave with body := st.body }

/-- The state after the members of a class. -/
def walkMembers : List FunctionDecl → State → State
  | [], st => st
  | f :: rest, st => walkMembers rest (walkRoutine f (.ofMember f) st)

/-- The state after a class. -/
def walkClass : ClassDecl → State → State
  | ⟨name, none, methods⟩, st =>
    let inner := (({ st with context := .base } : State).declare name).define
      name
    { (walkMembers methods (inner.enter [Keyword.kwThis.lexeme])).leave with
      context := st.context }
  | ⟨name, some parent, methods⟩, st =>
    let inner := (({ st with context := .derived } : State).declare name).define
      name
    let inner := (inner.reportIf (parent.name == name.name) parent.line
      parent.name .inheritsItself).read parent
    let inner := (inner.enter [Keyword.kwSuper.lexeme]).enter
      [Keyword.kwThis.lexeme]
    { (walkMembers methods inner).leave.leave with context := st.context }

end

/-! ## The two are the same -/

theorem walk_expressions {list : List Expr}
    (h : ∀ e ∈ list, ∀ st, walk [.expression e] st = walkExpr e st)
    (st : State) : walk [.expressions list] st = walkExprs list st := by
  induction list generalizing st with
  | nil => rw [walk_single, visit, walk_nil, walkExprs]
  | cons e rest ih =>
    obtain ⟨he, hrest⟩ := List.forall_mem_cons.1 h
    rw [walk_single, visit, walk_cons_cons, he, ih hrest, walkExprs]

theorem walk_expression (e : Expr) (st : State) :
    walk [.expression e] st = walkExpr e st := by
  induction e generalizing st with
  | literal | occurrence | this | super =>
    simp only [walk_single, visit, visitExpr, walk_nil, walkExpr]
  | group inner ih | unary op line inner ih | get inner name ih =>
    rw [walk_single, visit, visitExpr, ih, walkExpr]
  | binary left op line right ihleft ihright
  | logical left op line right ihleft ihright =>
    rw [walk_single, visit, visitExpr, walk_cons_cons, ihleft, ihright,
      walkExpr]
  | assign target value ih =>
    rw [walk_single, visit, visitExpr, walk_cons_cons, ih, walk_single, visit,
      walk_nil, walkExpr]
  | call callee line arguments ihcallee iharguments =>
    rw [walk_single, visit, visitExpr, walk_cons_cons, ihcallee,
      walk_expressions iharguments, walkExpr]
  | set object name value ihobject ihvalue =>
    rw [walk_single, visit, visitExpr, walk_cons_cons, ihvalue, ihobject,
      walkExpr]

theorem walk_optional (e : Option Expr) (st : State) :
    walk (optional e) st = walkOption e st := by
  cases e with
  | none => rw [optional, walk_nil, walkOption]
  | some e => rw [optional, walk_expression, walkOption]

theorem walk_statements {body : List Stmt}
    (h : ∀ s ∈ body, ∀ st, walk [.statement s] st = walkStmt s st)
    (st : State) : walk [.statements body] st = walkStmts body st := by
  induction body generalizing st with
  | nil => rw [walk_single, visit, walk_nil, walkStmts]
  | cons s rest ih =>
    obtain ⟨hs, hrest⟩ := List.forall_mem_cons.1 h
    rw [walk_single, visit, walk_cons_cons, hs, ih hrest, walkStmts]

theorem walk_routine {f : FunctionDecl}
    (h : ∀ s ∈ f.body, ∀ st, walk [.statement s] st = walkStmt s st)
    (body : Body) (st : State) :
    walk [.routine f body] st = walkRoutine f body st := by
  obtain ⟨name, params, statements, kind⟩ := f
  rw [walk_single, visit, walk_cons_cons, walk_statements h, walk_cons_cons,
    walk_single, visit, walk_nil, walk_single, visit, walk_nil, walkRoutine]

theorem walk_members {list : List FunctionDecl}
    (h : ∀ f ∈ list, ∀ s ∈ f.body, ∀ st,
      walk [.statement s] st = walkStmt s st) (st : State) :
    walk [.members list] st = walkMembers list st := by
  induction list generalizing st with
  | nil => rw [walk_single, visit, walk_nil, walkMembers]
  | cons f rest ih =>
    obtain ⟨hf, hrest⟩ := List.forall_mem_cons.1 h
    rw [walk_single, visit, walk_cons_cons, walk_routine hf, ih hrest,
      walkMembers]

theorem walk_class {c : ClassDecl}
    (h : ∀ f ∈ c.methods, ∀ s ∈ f.body, ∀ st,
      walk [.statement s] st = walkStmt s st) (st : State) :
    walk (visitClass st c) st = walkClass c st := by
  obtain ⟨name, superclass, methods⟩ := c
  cases superclass with
  | none =>
    simp only [visitClass, walk_cons_cons, walk_members h]
    simp only [walk_single, visit, walk_nil, walkClass]
  | some parent =>
    simp only [visitClass, walk_cons_cons, walk_members h]
    simp only [walk_single, visit, walk_nil, walkClass]

theorem walk_statement (s : Stmt) (st : State) :
    walk [.statement s] st = walkStmt s st := by
  induction s generalizing st with
  | expression e | print e =>
    rw [walk_single, visit, visitStmt, walk_expression, walkStmt]
  | var x initializer =>
    rw [walk_single, visit, visitStmt, List.cons_append, walk_cons,
      walk_append, walk_append, walk_optional, walk_single, visit, walk_nil,
      walkStmt]
    simp only [visit, walk_nil]
  | block body ih =>
    simp only [walk_single (.statement _), visit, visitStmt, walk_cons_cons,
      walk_statements ih]
    simp only [walk_single, visit, walk_nil, walkStmt]
  | ifElse condition thenBranch elseBranch ihthen ihelse =>
    cases elseBranch with
    | none =>
      rw [walk_single, visit, visitStmt, walk_cons_cons, walk_expression,
        ihthen, walkStmt]
    | some elseBranch =>
      rw [walk_single, visit, visitStmt, walk_cons_cons, walk_expression,
        walk_cons_cons, ihthen, ihelse elseBranch rfl, walkStmt]
  | loop condition body ih =>
    rw [walk_single, visit, visitStmt, walk_cons_cons, walk_expression, ih,
      walkStmt]
  | function f ih =>
    simp only [walk_single (.statement _), visit, visitStmt, walk_cons_cons,
      walk_routine ih]
    simp only [walk_single, visit, walk_nil, walkStmt]
  | giveBack line value =>
    rw [walk_single, visit, visitStmt, walk_optional, walkStmt]
  | cls c ih =>
    rw [walk_single, visit, visitStmt, walk_class ih, walkStmt]

/-- The scope rules walk over the statements of a program in order. -/
theorem resolve_eq (program : List Stmt) (distances : Distances) :
    resolve program distances =
      ⟨(walkStmts program (.start distances)).distances,
        (walkStmts program (.start distances)).reports.reverse⟩ := by
  unfold resolve
  rw [walk_statements fun s _ => walk_statement s]

theorem walkStmts_append (first second : List Stmt) (st : State) :
    walkStmts (first ++ second) st =
      walkStmts second (walkStmts first st) := by
  induction first generalizing st with
  | nil => rw [List.nil_append, walkStmts]
  | cons s rest ih => rw [List.cons_append, walkStmts, walkStmts, ih]

end Lox.Scope
