import Lox.Diagnostic
import Lox.Scope.Distances
import Lox.Stmt
import Lox.Table

/-!
# The scope rules

One walk over a program that follows its scopes.  Every block, every function
and every class opens a scope; the top level has none, because globals are
looked up by name when the program runs.  The walk records the distance of
each occurrence that some scope holds, and reports names declared twice,
variables read in their own initializer, and `return`, `this`, `super` and
superclasses out of place.  It does not stop at the first report.

The walk works through a list of actions.  Visiting a statement or an
expression replaces it by actions on its parts; the other actions change the
state.  The weight of the list falls with every action, so the walk ends.
-/

namespace Lox.Scope

/-- Whose code the walk is in. -/
inductive Body where
  | program
  | function
  | method
  | initializer
  | getter
  | static
  deriving Repr, DecidableEq

/-- Whether the walk is in a class, and in one with a superclass. -/
inductive ClassContext where
  | outside
  | base
  | derived
  deriving Repr, DecidableEq

/-- The state of the walk. -/
structure State where
  /-- The open scopes, innermost first.  A name maps to `true` once its
  declaration is complete. -/
  scopes : List (Table Bool)
  body : Body
  context : ClassContext
  distances : Distances
  /-- The reports so far, newest first. -/
  reports : List Diagnostic

namespace State

/-- Reports a fault at a lexeme. -/
def report (st : State) (line : Nat) (lexeme : String) (f : ScopeFault) :
    State :=
  { st with reports := .scope line (.lexeme lexeme) f :: st.reports }

/-- Reports a fault at a lexeme if a condition holds. -/
def reportIf (st : State) (condition : Bool) (line : Nat) (lexeme : String)
    (f : ScopeFault) : State :=
  if condition then st.report line lexeme f else st

/-- Opens a scope with some names in it. -/
def enter (st : State) (names : List String) : State :=
  let scope := Table.empty.insertAll (names.map fun name => (name, true))
  { st with scopes := scope :: st.scopes }

/-- Closes the innermost scope. -/
def leave (st : State) : State :=
  { st with scopes := st.scopes.tail }

/-- Starts the declaration of a name in the innermost scope, where it must be
new.  A name declared twice keeps its first state. -/
def declare (st : State) (x : Ident) : State :=
  match st.scopes with
  | [] => st
  | scope :: outer =>
    if scope.contains x.name then st.report x.line x.name .duplicate
    else { st with scopes := scope.insert x.name false :: outer }

/-- Completes the declaration of a name. -/
def define (st : State) (x : Ident) : State :=
  match st.scopes with
  | [] => st
  | scope :: outer => { st with scopes := scope.insert x.name true :: outer }

/-- Declares the parameters of a function one after the other. -/
def parameters (st : State) (params : List Ident) : State :=
  params.foldl (fun st x => (st.declare x).define x) st

/-- How many scopes lie inside the innermost one that holds a name. -/
def distance? (st : State) (name : String) : Option Nat :=
  st.scopes.findIdx? fun scope => scope.contains name

/-- Records the distance of an occurrence, unless the name is global. -/
def bind (st : State) (id : Nat) (name : String) : State :=
  match st.distance? name with
  | some distance => { st with distances := st.distances.record id distance }
  | none => st

/-- Whether the innermost scope holds a name whose declaration is not
complete. -/
def isOpen (st : State) (name : String) : Bool :=
  match st.scopes with
  | [] => false
  | scope :: _ => scope.find? name == some false

/-- An occurrence of a variable. -/
def read (st : State) (ref : Ref) : State :=
  (st.reportIf (st.isOpen ref.name) ref.line ref.name .ownInitializer).bind
    ref.id ref.name

/-- An occurrence of `this`. -/
def readThis (st : State) (id line : Nat) : State :=
  if st.context = .outside then
    st.report line Keyword.kwThis.lexeme .thisOutside
  else st.bind id Keyword.kwThis.lexeme

/-- The rule that an occurrence of `super` breaks. -/
def superFault? (st : State) : Option ScopeFault :=
  match st.context with
  | .outside => some .superOutside
  | .base => some .superWithoutSuperclass
  | .derived => if st.body = .static then some .superInStatic else none

/-- An occurrence of `super`. -/
def readSuper (st : State) (id line : Nat) : State :=
  let st := match st.superFault? with
    | some f => st.report line Keyword.kwSuper.lexeme f
    | none => st
  st.bind id Keyword.kwSuper.lexeme

/-- A `return` on `line`, with a value or without. -/
def checkReturn (st : State) (line : Nat) (hasValue : Bool) : State :=
  let lexeme := Keyword.kwReturn.lexeme
  (st.reportIf (st.body = .program) line lexeme .returnOutside).reportIf
    (hasValue && st.body = .initializer) line lexeme .returnFromInitializer

end State

/-- What is left to do in the walk. -/
inductive Action where
  | statement (s : Stmt)
  | statements (body : List Stmt)
  | expression (e : Expr)
  | expressions (list : List Expr)
  | routine (f : FunctionDecl) (body : Body)
  | members (list : List FunctionDecl)
  | enter (names : List String)
  | leave
  | declare (x : Ident)
  | define (x : Ident)
  | bind (id : Nat) (name : String)
  | inherit (parent : Ref) (name : String)
  | setBody (body : Body)
  | setContext (context : ClassContext)

/-- Whose code a member of a class is. -/
def Body.ofMember (f : FunctionDecl) : Body :=
  match f.kind with
  | .static => .static
  | .getter => .getter
  | _ => if f.isInitializer then .initializer else .method

/-- The actions for an optional expression. -/
def optional : Option Expr → List Action
  | none => []
  | some e => [.expression e]

/-- The actions that visit an expression, and the state after what the
expression does itself. -/
def visitExpr (st : State) : Expr → List Action × State
  | .literal _ => ([], st)
  | .group inner => ([.expression inner], st)
  | .unary _ _ right => ([.expression right], st)
  | .binary left _ _ right => ([.expression left, .expression right], st)
  | .logical left _ _ right => ([.expression left, .expression right], st)
  | .variable ref => ([], st.read ref)
  | .assign target value =>
    ([.expression value, .bind target.id target.name], st)
  | .call callee _ arguments =>
    ([.expression callee, .expressions arguments], st)
  | .get object _ => ([.expression object], st)
  | .set object _ value => ([.expression value, .expression object], st)
  | .this id line => ([], st.readThis id line)
  | .super id line _ => ([], st.readSuper id line)

/-- The actions that visit a class.  Its name can be seen in its own methods;
`super` and `this` have a scope each around all of them. -/
def visitClass (st : State) : ClassDecl → List Action
  | ⟨name, none, methods⟩ =>
    [.setContext .base, .declare name, .define name,
      .enter [Keyword.kwThis.lexeme], .members methods, .leave,
      .setContext st.context]
  | ⟨name, some parent, methods⟩ =>
    [.setContext .derived, .declare name, .define name,
      .inherit parent name.name,
      .enter [Keyword.kwSuper.lexeme], .enter [Keyword.kwThis.lexeme],
      .members methods, .leave, .leave, .setContext st.context]

/-- The actions that visit a statement, and the state after what the
statement does itself. -/
def visitStmt (st : State) : Stmt → List Action × State
  | .expression e => ([.expression e], st)
  | .print e => ([.expression e], st)
  | .var x initializer =>
    (.declare x :: optional initializer ++ [.define x], st)
  | .block body => ([.enter [], .statements body, .leave], st)
  | .ifElse condition thenBranch none =>
    ([.expression condition, .statement thenBranch], st)
  | .ifElse condition thenBranch (some elseBranch) =>
    ([.expression condition, .statement thenBranch, .statement elseBranch], st)
  | .while condition body => ([.expression condition, .statement body], st)
  | .function f =>
    ([.declare f.name, .define f.name, .routine f .function], st)
  | .return line value =>
    (optional value, st.checkReturn line value.isSome)
  | .class c => (visitClass st c, st)

/-- Does one action: the actions it is replaced by, and the state after it. -/
def visit (st : State) : Action → List Action × State
  | .statement s => visitStmt st s
  | .statements [] => ([], st)
  | .statements (s :: rest) => ([.statement s, .statements rest], st)
  | .expression e => visitExpr st e
  | .expressions [] => ([], st)
  | .expressions (e :: rest) => ([.expression e, .expressions rest], st)
  | .routine ⟨_, params, statements, _⟩ body =>
    ([.statements statements, .leave, .setBody st.body],
      (({ st with body := body } : State).enter []).parameters params)
  | .members [] => ([], st)
  | .members (f :: rest) => ([.routine f (.ofMember f), .members rest], st)
  | .enter names => ([], st.enter names)
  | .leave => ([], st.leave)
  | .declare x => ([], st.declare x)
  | .define x => ([], st.define x)
  | .bind id name => ([], st.bind id name)
  | .inherit parent name =>
    ([], (st.reportIf (parent.name == name) parent.line parent.name
      .inheritsItself).read parent)
  | .setBody body => ([], { st with body := body })
  | .setContext context => ([], { st with context := context })

/-! ## The walk ends -/

/-- A bound on the actions that an action leads to. -/
noncomputable def Action.weight : Action → Nat
  | statement s => 16 * sizeOf s
  | statements body => 16 * sizeOf body
  | expression e => 16 * sizeOf e
  | expressions list => 16 * sizeOf list
  | routine f _ => 16 * sizeOf f
  | members list => 16 * sizeOf list
  | _ => 1

/-- The weight of a list of actions. -/
noncomputable def weight : List Action → Nat
  | [] => 0
  | a :: rest => a.weight + weight rest

theorem weight_append (actions rest : List Action) :
    weight (actions ++ rest) = weight actions + weight rest := by
  induction actions with
  | nil => simp [weight]
  | cons a actions ih => simp [weight, ih]; omega

theorem weight_visitExpr_lt (st : State) (e : Expr) :
    weight (visitExpr st e).1 < 16 * sizeOf e := by
  cases e <;> simp [visitExpr, weight, Action.weight] <;> omega

theorem weight_optional_le (e : Option Expr) :
    weight (optional e) ≤ 16 * sizeOf e := by
  cases e with
  | none => simp [optional, weight]
  | some e =>
    simp only [optional, weight, Action.weight, Option.some.sizeOf_spec]
    omega

theorem weight_visitClass_lt (st : State) (c : ClassDecl) :
    weight (visitClass st c) < 16 * sizeOf c := by
  obtain ⟨name, superclass, methods⟩ := c
  cases superclass <;> simp [visitClass, weight, Action.weight] <;> omega

theorem weight_visitStmt_lt (st : State) (s : Stmt) :
    weight (visitStmt st s).1 < 16 * sizeOf s := by
  cases s with
  | var x initializer =>
    have := weight_optional_le initializer
    simp [visitStmt, weight, weight_append, Action.weight]
    omega
  | ifElse condition thenBranch elseBranch =>
    cases elseBranch <;> simp [visitStmt, weight, Action.weight] <;> omega
  | «return» line value =>
    have := weight_optional_le value
    simp [visitStmt]
    omega
  | «class» c =>
    have := weight_visitClass_lt st c
    simp [visitStmt]
    omega
  | _ => simp [visitStmt, weight, Action.weight] <;> omega

/-- An action is replaced by actions of less weight. -/
theorem weight_visit_lt (st : State) (a : Action) :
    weight (visit st a).1 < a.weight := by
  cases a with
  | statement s => exact weight_visitStmt_lt st s
  | expression e => exact weight_visitExpr_lt st e
  | statements body =>
    cases body with
    | nil => simp [visit, weight, Action.weight]
    | cons s rest => simp [visit, weight, Action.weight]; omega
  | expressions list =>
    cases list with
    | nil => simp [visit, weight, Action.weight]
    | cons e rest => simp [visit, weight, Action.weight]; omega
  | members list =>
    cases list with
    | nil => simp [visit, weight, Action.weight]
    | cons f rest => simp [visit, weight, Action.weight]; omega
  | routine f body =>
    obtain ⟨name, params, statements, kind⟩ := f
    simp [visit, weight, Action.weight]
    omega
  | _ => simp [visit, weight, Action.weight]

/-- Works through a list of actions. -/
def walk (actions : List Action) (st : State) : State :=
  match actions with
  | [] => st
  | a :: rest =>
    let visited := visit st a
    walk (visited.1 ++ rest) visited.2
termination_by weight actions
decreasing_by
  have := weight_visit_lt st a
  simp only [weight_append, weight]
  omega

/-! ## A program -/

/-- The state at the start of a program. -/
def State.start (distances : Distances) : State :=
  ⟨[], .program, .outside, distances, []⟩

/-- What the scope rules give for a program: the distance table with the new
entries, and all reports. -/
structure Resolved where
  distances : Distances
  diagnostics : List Diagnostic

/-- Applies the scope rules to a program.  Entries go into the given table,
also when there are reports. -/
def resolve (program : List Stmt) (distances : Distances) : Resolved :=
  let st := walk [.statements program] (.start distances)
  ⟨st.distances, st.reports.reverse⟩

end Lox.Scope
