import Lox.Expr.Parser
import Lox.Stmt

/-!
# Reading a program

Statements and declarations are read by a machine like the one for
expressions.  Its stack has two parts.  `Nest` is the chain of open lists of
declarations, the program itself outermost, then blocks and function bodies.
The `Frame`s above it are the `if`, `while` and `for` statements of the
declaration that is being read.

A fault ends the innermost declaration: it is noted, the frames are dropped,
tokens are skipped up to a likely start of a statement, and reading goes on
in the innermost open list.

`potential` bounds the steps that are left, and `potential_lt_of_step` shows
that every step lowers it, so that `Stmt.readFrom` ends on every token list.
-/

namespace Lox.Stmt

/-! ## Parts without nesting -/

/-- A variable declaration, from behind `var`. -/
def readVar : Reader Stmt := do
  let name ← Reader.name .variableName
  let initializer ← (do
    if ← Reader.accept .equal then
      let e ← Expr.read
      return some e
    else return none)
  Reader.expect .semicolon .variableEnd
  return .var name initializer

/-- An expression statement. -/
def readExpression : Reader Stmt := do
  let e ← Expr.read
  Reader.expect .semicolon .expressionEnd
  return .expression e

/-- A `print` statement, from behind its keyword. -/
def readPrint : Reader Stmt := do
  let e ← Expr.read
  Reader.expect .semicolon .printEnd
  return .print e

/-- An expression, unless the symbol `s` comes next. -/
def readUnless (s : Symbol) : Reader (Option Expr) := do
  if ← Reader.ahead s then return none
  else
    let e ← Expr.read
    return some e

/-- A `return` statement, from behind its keyword on `line`. -/
def readReturn (line : Nat) : Reader Stmt := do
  let value ← readUnless .semicolon
  Reader.expect .semicolon .returnEnd
  return .return line value

/-- A condition in parentheses. -/
def readCondition (opening closing : ParseFault) : Reader Expr := do
  Reader.expect .leftParen opening
  let e ← Expr.read
  Reader.expect .rightParen closing
  return e

/-- The clauses of a `for` loop. -/
structure ForClauses where
  initializer : Option Stmt
  condition : Option Expr
  increment : Option Expr

/-- The first clause of a `for` loop with its semicolon. -/
def readForInitializer : Reader (Option Stmt) := do
  if ← Reader.accept .semicolon then return none
  else if ← Reader.acceptKeyword .kwVar then
    let s ← readVar
    return some s
  else
    let s ← readExpression
    return some s

/-- The clauses of a `for` loop with their parentheses. -/
def readForClauses : Reader ForClauses := do
  Reader.expect .leftParen .forOpen
  let initializer ← readForInitializer
  let condition ← readUnless .semicolon
  Reader.expect .semicolon .forConditionEnd
  let increment ← readUnless .rightParen
  Reader.expect .rightParen .forClose
  return ⟨initializer, condition, increment⟩

/-- The loop that a `for` statement stands for: the increment runs after the
body, the initializer before the loop and in a block around it. -/
def ForClauses.loop (clauses : ForClauses) (body : Stmt) : Stmt :=
  let body := match clauses.increment with
    | some increment => .block [body, .expression increment]
    | none => body
  let loop := .while (clauses.condition.getD (.literal (.bool true))) body
  match clauses.initializer with
  | some initializer => .block [initializer, loop]
  | none => loop

/-- Everything of a function declaration before its body. -/
structure Header where
  name : Ident
  params : List Ident
  kind : FunctionKind

/-- One or more parameters; the earlier ones are kept newest first. -/
def readParams (earlier : List Ident) (c : Cursor) :
    EStateM.Result Diagnostic Cursor (List Ident) :=
  match _h : c.rest with
  | ⟨.identifier x, line⟩ :: ⟨.symbol .comma, _⟩ :: rest =>
    readParams (⟨x, line⟩ :: earlier)
      ((c.noteIf (maxArity ≤ earlier.length) .tooManyParameters).moveTo rest)
  | ⟨.identifier x, line⟩ :: rest =>
    .ok (⟨x, line⟩ :: earlier).reverse
      ((c.noteIf (maxArity ≤ earlier.length) .tooManyParameters).moveTo rest)
  | _ =>
    let c := c.noteIf (maxArity ≤ earlier.length) .tooManyParameters
    .error (c.fault .parameterName) c
termination_by c.rest.length
decreasing_by simp only [_h, Cursor.rest_moveTo, List.length_cons]; omega

/-- The word for what is declared. -/
def routine : FunctionKind → Routine
  | .function => .function
  | _ => .method

/-- A parameter list with its parentheses. -/
def readParamList (routine : Routine) : Reader (List Ident) := do
  Reader.expect .leftParen (.parametersOpen routine)
  let params ← (do
    if ← Reader.ahead .rightParen then return []
    else readParams [])
  Reader.expect .rightParen .parametersClose
  return params

/-- A function declaration up to the brace that opens its body.  A method
without a parameter list is a getter. -/
def readHeader (kind : FunctionKind) : Reader Header := do
  let name ← Reader.name (.routineName (routine kind))
  let header ← (do
    if kind = .method ∧ (← Reader.ahead .leftParen) = false then
      return ⟨name, [], .getter⟩
    else
      let params ← readParamList (routine kind)
      return ⟨name, params, kind⟩)
  Reader.expect .leftBrace (.bodyOpen (routine kind))
  return header

/-- Everything of a class declaration before its members. -/
structure ClassHead where
  name : Ident
  superclass : Option Ref

/-- A class declaration, from behind `class` up to the brace that opens its
body. -/
def readClassHead : Reader ClassHead := do
  let name ← Reader.name .className
  let superclass ← (do
    if ← Reader.accept .less then
      let parent ← Reader.name .superclassName
      let id ← Reader.freshId
      return some ⟨id, parent.name, parent.line⟩
    else return none)
  Reader.expect .leftBrace .classOpen
  return ⟨name, superclass⟩

/-! ## Recovery -/

/-- The keywords that are likely to start a statement. -/
def startsStatement : Token.Kind → Bool
  | .keyword .kwClass => true
  | .keyword .kwFun => true
  | .keyword .kwVar => true
  | .keyword .kwFor => true
  | .keyword .kwIf => true
  | .keyword .kwWhile => true
  | .keyword .kwPrint => true
  | .keyword .kwReturn => true
  | _ => false

/-- Whether a token ends a statement. -/
def isSemicolon : Token.Kind → Bool
  | .symbol .semicolon => true
  | _ => false

/-- Skips tokens behind a skipped token: up to one that is likely to start a
statement, or to behind a semicolon. -/
def skipAfter (skipped : Token) : List Token → List Token
  | [] => []
  | t :: rest =>
    if isSemicolon skipped.kind || startsStatement t.kind then t :: rest
    else skipAfter t rest

/-- The tokens at which reading goes on after a fault.  At least one token is
skipped if there is one. -/
def synchronize : List Token → List Token
  | [] => []
  | t :: rest => skipAfter t rest

/-! ## The machine -/

/-- A statement that waits for a statement inside it. -/
inductive Frame where
  | thenBranch (condition : Expr)
  | elseBranch (condition : Expr) (thenBranch : Stmt)
  | whileBody (condition : Expr)
  | forBody (clauses : ForClauses)

/-- Whose body is being read: that of a function, or that of a member of a
class, whose earlier members are kept newest first. -/
inductive Owner where
  | function
  | member (head : ClassHead) (earlier : List FunctionDecl)

/-- The open lists of declarations, innermost first.  Each keeps what it
holds newest first; a block also keeps the statements that wait for it. -/
inductive Nest where
  | program (done : List Stmt)
  | block (done : List Stmt) (frames : List Frame) (outer : Nest)
  | body (owner : Owner) (header : Header) (done : List Stmt) (outer : Nest)

/-- Adds a declaration to the innermost open list. -/
def Nest.add (s : Stmt) : Nest → Nest
  | program done => .program (s :: done)
  | block done frames outer => .block (s :: done) frames outer
  | body owner header done outer => .body owner header (s :: done) outer

/-- What the machine does next. -/
inductive Control where
  /-- Read a declaration, or close the innermost list. -/
  | items
  | declaration
  | statement
  /-- Read a member, or close the class. -/
  | members (head : ClassHead) (earlier : List FunctionDecl)
  | built (s : Stmt)

/-- The result of one step. -/
inductive Step where
  | next (control : Control) (frames : List Frame) (nest : Nest) (c : Cursor)
  | done (statements : List Stmt) (c : Cursor)

/-- Notes a fault and goes on in the innermost list. -/
def recover (d : Diagnostic) (nest : Nest) (c : Cursor) : Step :=
  .next .items [] nest ((c.note d).moveTo (synchronize c.rest))

/-- Reads a part without nesting and goes on with it, or recovers. -/
def Step.andThen {α : Type} (p : Reader α) (nest : Nest) (c : Cursor)
    (go : α → Cursor → Step) : Step :=
  match p c with
  | .ok a c' => go a c'
  | .error d c' => recover d nest c'

/-- Whether a token closes a list of declarations. -/
def isRightBrace : Token.Kind → Bool
  | .symbol .rightBrace => true
  | _ => false

/-- Closes the innermost list at its brace.  A program has no brace: there
the token is read as a declaration. -/
def closeList (nest : Nest) (rest : List Token) (c : Cursor) : Step :=
  match nest with
  | .program _ => .next .declaration [] nest c
  | .block done frames outer =>
    .next (.built (.block done.reverse)) frames outer (c.moveTo rest)
  | .body owner header done outer =>
    let f : FunctionDecl :=
      ⟨header.name, header.params, done.reverse, header.kind⟩
    match owner with
    | .function => .next (.built (.function f)) [] outer (c.moveTo rest)
    | .member head earlier =>
      .next (.members head (f :: earlier)) [] outer (c.moveTo rest)

/-- Ends the innermost list at the end of the source.  Only the program may
end there. -/
def endList (nest : Nest) (c : Cursor) : Step :=
  match nest with
  | .program done => .done done.reverse c
  | .block _ _ outer => recover (c.fault .blockClose) outer c
  | .body _ _ _ outer => recover (c.fault .blockClose) outer c

/-- Reads a declaration or closes the innermost list. -/
def readItem (nest : Nest) (c : Cursor) : Step :=
  match c.rest with
  | [] => endList nest c
  | t :: rest =>
    if isRightBrace t.kind then closeList nest rest c
    else .next .declaration [] nest c

/-- Reads a declaration. -/
def readDeclaration (frames : List Frame) (nest : Nest) (c : Cursor) : Step :=
  match c.rest with
  | ⟨.keyword .kwClass, _⟩ :: rest =>
    Step.andThen readClassHead nest (c.moveTo rest) fun head c =>
      .next (.members head []) [] nest c
  | ⟨.keyword .kwFun, _⟩ :: rest =>
    Step.andThen (readHeader .function) nest (c.moveTo rest) fun header c =>
      .next .items [] (.body .function header [] nest) c
  | ⟨.keyword .kwVar, _⟩ :: rest =>
    Step.andThen readVar nest (c.moveTo rest) fun s c =>
      .next (.built s) frames nest c
  | _ => .next .statement frames nest c

/-- Reads a statement. -/
def readStatement (frames : List Frame) (nest : Nest) (c : Cursor) : Step :=
  match c.rest with
  | ⟨.keyword .kwFor, _⟩ :: rest =>
    Step.andThen readForClauses nest (c.moveTo rest) fun clauses c =>
      .next .statement (.forBody clauses :: frames) nest c
  | ⟨.keyword .kwIf, _⟩ :: rest =>
    Step.andThen (readCondition .ifOpen .ifClose) nest (c.moveTo rest)
      fun condition c =>
        .next .statement (.thenBranch condition :: frames) nest c
  | ⟨.keyword .kwWhile, _⟩ :: rest =>
    Step.andThen (readCondition .whileOpen .whileClose) nest (c.moveTo rest)
      fun condition c =>
        .next .statement (.whileBody condition :: frames) nest c
  | ⟨.keyword .kwReturn, line⟩ :: rest =>
    Step.andThen (readReturn line) nest (c.moveTo rest) fun s c =>
      .next (.built s) frames nest c
  | ⟨.symbol .leftBrace, _⟩ :: rest =>
    .next .items [] (.block [] frames nest) (c.moveTo rest)
  | ⟨.keyword .kwPrint, _⟩ :: rest =>
    Step.andThen readPrint nest (c.moveTo rest) fun s c =>
      .next (.built s) frames nest c
  | _ =>
    Step.andThen readExpression nest c fun s c =>
      .next (.built s) frames nest c

/-- Reads a member of a class or closes the class. -/
def readMember (head : ClassHead) (earlier : List FunctionDecl) (nest : Nest)
    (c : Cursor) : Step :=
  match c.rest with
  | [] => recover (c.fault .classClose) nest c
  | ⟨.symbol .rightBrace, _⟩ :: rest =>
    .next (.built (.class ⟨head.name, head.superclass, earlier.reverse⟩)) []
      nest (c.moveTo rest)
  | ⟨.keyword .kwClass, _⟩ :: rest =>
    Step.andThen (readHeader .static) nest (c.moveTo rest) fun header c =>
      .next .items [] (.body (.member head earlier) header [] nest) c
  | _ =>
    Step.andThen (readHeader .method) nest c fun header c =>
      .next .items [] (.body (.member head earlier) header [] nest) c

/-- Hands a finished statement to the statement that waits for it, or else to
the innermost list. -/
def resume (s : Stmt) (frames : List Frame) (nest : Nest) (c : Cursor) : Step :=
  match frames with
  | [] => .next .items [] (nest.add s) c
  | .thenBranch condition :: frames =>
    match c.rest with
    | ⟨.keyword .kwElse, _⟩ :: rest =>
      .next .statement (.elseBranch condition s :: frames) nest (c.moveTo rest)
    | _ => .next (.built (.ifElse condition s none)) frames nest c
  | .elseBranch condition thenBranch :: frames =>
    .next (.built (.ifElse condition thenBranch (some s))) frames nest c
  | .whileBody condition :: frames =>
    .next (.built (.while condition s)) frames nest c
  | .forBody clauses :: frames =>
    .next (.built (clauses.loop s)) frames nest c

/-- One step of the machine. -/
def step (control : Control) (frames : List Frame) (nest : Nest) (c : Cursor) :
    Step :=
  match control with
  | .items => readItem nest c
  | .declaration => readDeclaration frames nest c
  | .statement => readStatement frames nest c
  | .members head earlier => readMember head earlier nest c
  | .built s => resume s frames nest c

/-! ## What reading a part does to the cursor -/

/-- A relation that holds along all parts without nesting: reading an expression
and reading parameters keep to it besides. -/
structure Passage (R : Cursor → Cursor → Prop) : Prop
    extends Cursor.Passage R where
  read : Expr.read.Along R
  params : Reader.Along R (readParams [])

namespace Passage

variable {R : Cursor → Cursor → Prop} (h : Passage R)

include h

theorem readUnless (s : Symbol) : (readUnless s).Along R :=
  h.bind (h.ahead s) fun _ =>
    .ite (h.pure _) (h.bind h.read fun _ => h.pure _)

theorem readVar : readVar.Along R :=
  h.bind (h.name _) fun _ =>
    h.bind (h.bind (h.accept _) fun _ =>
      .ite (h.bind h.read fun _ => h.pure _) (h.pure _)) fun _ =>
    h.bind (h.expect _ _) fun _ => h.pure _

theorem readExpression : readExpression.Along R :=
  h.bind h.read fun _ => h.bind (h.expect _ _) fun _ => h.pure _

theorem readPrint : readPrint.Along R :=
  h.bind h.read fun _ => h.bind (h.expect _ _) fun _ => h.pure _

theorem readReturn (line : Nat) : (readReturn line).Along R :=
  h.bind (h.readUnless _) fun _ =>
    h.bind (h.expect _ _) fun _ => h.pure _

theorem readCondition (opening closing : ParseFault) :
    (readCondition opening closing).Along R :=
  h.bind (h.expect _ _) fun _ =>
    h.bind h.read fun _ => h.bind (h.expect _ _) fun _ => h.pure _

theorem readForInitializer : readForInitializer.Along R :=
  h.bind (h.accept _) fun _ =>
    .ite (h.pure _) (h.bind (h.acceptKeyword _) fun _ =>
      .ite (h.bind h.readVar fun _ => h.pure _)
        (h.bind h.readExpression fun _ => h.pure _))

theorem readForClauses : readForClauses.Along R :=
  h.bind (h.expect _ _) fun _ =>
    h.bind h.readForInitializer fun _ =>
      h.bind (h.readUnless _) fun _ =>
        h.bind (h.expect _ _) fun _ =>
          h.bind (h.readUnless _) fun _ =>
            h.bind (h.expect _ _) fun _ => h.pure _

theorem readParamList (routine : Routine) : (readParamList routine).Along R :=
  h.bind (h.expect _ _) fun _ =>
    h.bind (h.bind (h.ahead _) fun _ => .ite (h.pure _) h.params) fun _ =>
      h.bind (h.expect _ _) fun _ => h.pure _

theorem readHeader (kind : FunctionKind) : (readHeader kind).Along R :=
  h.bind (h.name _) fun _ =>
    h.bind (h.bind (h.ahead _) fun _ =>
      .ite (h.pure _) (h.bind (h.readParamList _) fun _ => h.pure _)) fun _ =>
    h.bind (h.expect _ _) fun _ => h.pure _

theorem readClassHead : readClassHead.Along R :=
  h.bind (h.name _) fun _ =>
    h.bind (h.bind (h.accept _) fun _ =>
      .ite (h.bind (h.name _) fun _ =>
        h.bind h.freshId fun _ => h.pure _) (h.pure _)) fun _ =>
    h.bind (h.expect _ _) fun _ => h.pure _

end Passage

/-! ## Readers of parts use tokens up -/

theorem shrinks_readParams (earlier : List Ident) :
    Reader.Along Cursor.Shrinks (readParams earlier) := by
  intro c
  fun_induction readParams earlier c with
  | case1 earlier c x line _ rest hrest ih =>
    simp only [Cursor.Shrinks, Cursor.rest_moveTo] at ih ⊢
    simp only [hrest, List.length_cons]
    omega
  | case2 earlier c x line rest _ hrest =>
    simp [Cursor.Shrinks, Reader.reached, hrest]
  | case3 earlier c noted => simp [Cursor.Shrinks, Reader.reached, noted]

theorem passage_shrinks : Passage Cursor.Shrinks :=
  ⟨Cursor.passage_shrinks, Expr.consumes_read.1, shrinks_readParams []⟩

theorem consumes_readExpression : readExpression.Consumes :=
  Expr.consumes_read.bind fun _ =>
    passage_shrinks.bind (passage_shrinks.expect _ _) fun _ =>
      passage_shrinks.pure _

theorem consumes_readHeader (kind : FunctionKind) :
    (readHeader kind).Consumes :=
  have h := passage_shrinks
  (Reader.consumes_name _).bind fun _ =>
    h.bind (h.bind (h.ahead _) fun _ =>
      .ite (h.pure _) (h.bind (h.readParamList _) fun _ => h.pure _)) fun _ =>
    h.bind (h.expect _ _) fun _ => h.pure _

/-! ## Every step makes progress -/

theorem length_skipAfter_le (skipped : Token) (tokens : List Token) :
    (skipAfter skipped tokens).length ≤ tokens.length := by
  induction tokens generalizing skipped with
  | nil => simp [skipAfter]
  | cons t rest ih =>
    unfold skipAfter
    split
    · simp
    · have := ih t; simp; omega

theorem length_synchronize_lt {tokens : List Token} (h : tokens ≠ []) :
    (synchronize tokens).length < tokens.length := by
  cases tokens with
  | nil => exact absurd rfl h
  | cons t rest =>
    have := length_skipAfter_le t rest
    simp only [synchronize, List.length_cons]
    omega

/-- The steps that can be taken before a token is read. -/
def Control.weight (c : Cursor) : Control → Nat
  | items => if c.rest = [] then 0 else 4
  | declaration => 3
  | statement => 2
  | members _ _ => 2
  | built _ => 5

/-- The steps that closing the open lists takes. -/
def Nest.weight : Nest → Nat
  | program _ => 0
  | block _ frames outer => 2 + 2 * frames.length + outer.weight
  | body _ _ _ outer => 2 + outer.weight

/-- A bound on the steps that are left. -/
def potential (control : Control) (frames : List Frame) (nest : Nest)
    (c : Cursor) : Nat :=
  8 * c.rest.length + control.weight c + 2 * frames.length + nest.weight

theorem Nest.weight_add (s : Stmt) (nest : Nest) :
    (nest.add s).weight = nest.weight := by
  cases nest <;> rfl

theorem Control.weight_items_le (c : Cursor) : Control.items.weight c ≤ 4 := by
  simp only [Control.weight]
  split <;> omega

/-- The step ends the reading or leaves a potential below `bound`. -/
def Step.Below (bound : Nat) : Step → Prop
  | .next control frames nest c => potential control frames nest c < bound
  | .done _ _ => True

theorem below_recover {d : Diagnostic} {nest : Nest} {c : Cursor} {bound : Nat}
    (h : 8 * c.rest.length + nest.weight < bound) :
    (recover d nest c).Below bound := by
  simp only [recover, Step.Below, potential, Control.weight,
    Cursor.rest_moveTo, List.length_nil]
  by_cases hrest : c.rest = []
  · simp only [hrest, List.length_nil] at h
    simp [hrest, synchronize]
    omega
  · have := length_synchronize_lt hrest
    by_cases hs : synchronize c.rest = [] <;> simp [hs] <;> omega

theorem below_andThen {α : Type} {p : Reader α} {nest : Nest}
    {c : Cursor} {go : α → Cursor → Step} {bound : Nat}
    (hp : p.Along Cursor.Shrinks) (hb : 8 * c.rest.length + nest.weight < bound)
    (hgo : ∀ a c', p c = .ok a c' → c'.rest.length ≤ c.rest.length →
      (go a c').Below bound) :
    (Step.andThen p nest c go).Below bound := by
  have h := hp c
  unfold Step.andThen
  cases hc : p c with
  | ok a c' => rw [hc] at h; exact hgo a c' hc h
  | error d c' =>
    rw [hc] at h
    simp only [Cursor.Shrinks, Reader.reached] at h
    exact below_recover (by omega)

theorem below_closeList {nest : Nest} {rest : List Token} {c : Cursor}
    {frames : List Frame} {t : Token} (hrest : c.rest = t :: rest) :
    (closeList nest rest c).Below (potential .items frames nest c) := by
  cases nest with
  | program done =>
    simp [closeList, Step.Below, potential, Control.weight, Nest.weight, hrest]
    omega
  | block done frames outer =>
    simp [closeList, Step.Below, potential, Control.weight, Nest.weight, hrest]
    omega
  | body owner header done outer =>
    cases owner <;>
      simp [closeList, Step.Below, potential, Control.weight, Nest.weight,
        hrest] <;> omega

theorem below_endList {nest : Nest} {c : Cursor} {frames : List Frame} :
    (endList nest c).Below (potential .items frames nest c) := by
  cases nest with
  | program => trivial
  | block _ _ outer =>
    exact below_recover (by simp only [potential, Nest.weight]; omega)
  | body _ _ _ outer =>
    exact below_recover (by simp only [potential, Nest.weight]; omega)

theorem below_readItem (nest : Nest) (c : Cursor) (frames : List Frame) :
    (readItem nest c).Below (potential .items frames nest c) := by
  unfold readItem
  split
  · exact below_endList
  · next hrest =>
    split
    · exact below_closeList hrest
    · simp [Step.Below, potential, Control.weight, hrest]
      omega

theorem below_readDeclaration (frames : List Frame) (nest : Nest) (c : Cursor) :
    (readDeclaration frames nest c).Below
      (potential .declaration frames nest c) := by
  unfold readDeclaration
  split
  · next hrest =>
    refine below_andThen passage_shrinks.readClassHead ?_ fun _ c' _ h => ?_
    · simp [potential, Control.weight, hrest]; omega
    · simp only [Cursor.rest_moveTo] at h
      simp [Step.Below, potential, Control.weight, hrest]; omega
  · next hrest =>
    refine below_andThen (passage_shrinks.readHeader _) ?_ fun _ c' _ h => ?_
    · simp [potential, Control.weight, hrest]; omega
    · have := Control.weight_items_le c'
      simp only [Cursor.rest_moveTo] at h
      simp only [Step.Below, potential, hrest, Nest.weight, List.length_nil,
        List.length_cons]
      omega
  · next hrest =>
    refine below_andThen passage_shrinks.readVar ?_ fun _ c' _ h => ?_
    · simp [potential, Control.weight, hrest]; omega
    · simp only [Cursor.rest_moveTo] at h
      simp [Step.Below, potential, Control.weight, hrest]; omega
  · simp [Step.Below, potential, Control.weight]

theorem below_readStatement (frames : List Frame) (nest : Nest) (c : Cursor) :
    (readStatement frames nest c).Below
      (potential .statement frames nest c) := by
  unfold readStatement
  split
  · next hrest =>
    refine below_andThen passage_shrinks.readForClauses ?_ fun _ c' _ h => ?_
    · simp [potential, Control.weight, hrest]; omega
    · simp only [Cursor.rest_moveTo] at h
      simp [Step.Below, potential, Control.weight, hrest]; omega
  · next hrest =>
    refine below_andThen (passage_shrinks.readCondition _ _) ?_
      fun _ c' _ h => ?_
    · simp [potential, Control.weight, hrest]; omega
    · simp only [Cursor.rest_moveTo] at h
      simp [Step.Below, potential, Control.weight, hrest]; omega
  · next hrest =>
    refine below_andThen (passage_shrinks.readCondition _ _) ?_
      fun _ c' _ h => ?_
    · simp [potential, Control.weight, hrest]; omega
    · simp only [Cursor.rest_moveTo] at h
      simp [Step.Below, potential, Control.weight, hrest]; omega
  · next hrest =>
    refine below_andThen (passage_shrinks.readReturn _) ?_ fun _ c' _ h => ?_
    · simp [potential, Control.weight, hrest]; omega
    · simp only [Cursor.rest_moveTo] at h
      simp [Step.Below, potential, Control.weight, hrest]; omega
  · next rest hrest =>
    have := Control.weight_items_le (c.moveTo rest)
    simp only [Step.Below, potential, hrest, Nest.weight, List.length_nil,
      List.length_cons, Cursor.rest_moveTo]
    omega
  · next hrest =>
    refine below_andThen passage_shrinks.readPrint ?_ fun _ c' _ h => ?_
    · simp [potential, Control.weight, hrest]; omega
    · simp only [Cursor.rest_moveTo] at h
      simp [Step.Below, potential, Control.weight, hrest]; omega
  · refine below_andThen passage_shrinks.readExpression ?_ fun a c' hok _ => ?_
    · simp [potential, Control.weight]; omega
    · have := consumes_readExpression.2 c a c' hok
      simp [Step.Below, potential, Control.weight]; omega

theorem below_readMember (head : ClassHead) (earlier : List FunctionDecl)
    (frames : List Frame) (nest : Nest) (c : Cursor) :
    (readMember head earlier nest c).Below
      (potential (.members head earlier) frames nest c) := by
  unfold readMember
  split
  · exact below_recover (by simp [potential, Control.weight]; omega)
  · next hrest =>
    simp [Step.Below, potential, Control.weight, hrest]; omega
  · next hrest =>
    refine below_andThen (passage_shrinks.readHeader _) ?_ fun _ c' _ h => ?_
    · simp [potential, Control.weight, hrest]; omega
    · have := Control.weight_items_le c'
      simp only [Cursor.rest_moveTo] at h
      simp only [Step.Below, potential, hrest, Nest.weight, List.length_nil,
        List.length_cons]
      omega
  · refine below_andThen (passage_shrinks.readHeader _) ?_ fun a c' hok _ => ?_
    · simp [potential, Control.weight]; omega
    · have := Control.weight_items_le c'
      have := (consumes_readHeader _).2 c a c' hok
      simp only [Step.Below, potential, Nest.weight, List.length_nil]
      omega

theorem below_resume (s : Stmt) (frames : List Frame) (nest : Nest)
    (c : Cursor) :
    (resume s frames nest c).Below (potential (.built s) frames nest c) := by
  unfold resume
  split
  · have := Control.weight_items_le c
    simp only [Step.Below, potential, Nest.weight_add, Control.weight]
    simp only [Control.weight] at this
    omega
  · split
    · next hrest =>
      simp [Step.Below, potential, Control.weight, hrest]; omega
    · simp [Step.Below, potential, Control.weight]
  · simp [Step.Below, potential, Control.weight]
  · simp [Step.Below, potential, Control.weight]
  · simp [Step.Below, potential, Control.weight]

theorem below_step (control : Control) (frames : List Frame) (nest : Nest)
    (c : Cursor) :
    (step control frames nest c).Below (potential control frames nest c) := by
  cases control with
  | items => exact below_readItem nest c frames
  | declaration => exact below_readDeclaration frames nest c
  | statement => exact below_readStatement frames nest c
  | members head earlier => exact below_readMember head earlier frames nest c
  | built s => exact below_resume s frames nest c

/-- Every step that does not end the reading lowers the potential. -/
theorem potential_lt_of_step {control control' : Control}
    {frames frames' : List Frame} {nest nest' : Nest} {c c' : Cursor}
    (h : step control frames nest c = .next control' frames' nest' c') :
    potential control' frames' nest' c' < potential control frames nest c := by
  have := below_step control frames nest c
  rwa [h] at this

/-! ## Reading -/

/-- Runs the machine to its end. -/
def readFrom (control : Control) (frames : List Frame) (nest : Nest)
    (c : Cursor) : List Stmt × Cursor :=
  match _h : step control frames nest c with
  | .next control' frames' nest' c' => readFrom control' frames' nest' c'
  | .done statements c' => (statements, c')
termination_by potential control frames nest c
decreasing_by exact potential_lt_of_step _h

/-- What reading a source as a program gives: the declarations that could be
read, all diagnostics, and the first id that is still free. -/
structure Parsed where
  statements : List Stmt
  diagnostics : List Diagnostic
  nextId : Nat

/-- Reads a scanned source as a program. -/
def parse (scan : Token.Scan) (firstId : Nat) : Parsed :=
  let (statements, c) := readFrom .items [] (.program []) (.start scan firstId)
  ⟨statements, c.diagnostics, c.nextId⟩

end Lox.Stmt
