import Lox.Expr.Parser
import Lox.Proofs.Indexed.Slice

/-!
# Reading an expression by index

The machine that reads an expression, on a slice of tokens: each of its
functions looks at the slice entry by entry, in the order of the grammar, and
takes operators and names from the token before the index.  It panics where
an index is out of range, and also if the token it has taken is not of the kind
that the construct keeps: an operator that has no meaning, or a name that is
none.

Each function mirrors that of the machine on a cursor, and so does the whole
reader (`mirrors_readExpr`).
-/

namespace Lox.Indexed

open Lox.Expr (Control Frame Level Operator)

/-- What a step of the machine leads to. -/
inductive ExprStep where
  | next (control : Control) (stack : List Frame)
  | done (e : Expr)

namespace ExprStep

/-- Goes on with an expression that suffixes may follow. -/
def primary (e : Expr) (stack : List Frame) : ExprStep :=
  .next (.built e) (.suffix :: stack)

end ExprStep

/-- A primary expression. -/
def readPrimary (stack : List Frame) : Reader ExprStep := do
  if ← Reader.accept (isKeyword .kwFalse) then
    return .primary (.literal (.bool false)) stack
  else if ← Reader.accept (isKeyword .kwTrue) then
    return .primary (.literal (.bool true)) stack
  else if ← Reader.accept (isKeyword .kwNil) then
    return .primary (.literal .nil) stack
  else match ← Reader.peek with
  | .token ⟨.number _ value, _⟩ =>
    let _ ← Reader.advance
    return .primary (.literal (.number value)) stack
  | .token ⟨.string content, _⟩ =>
    let _ ← Reader.advance
    return .primary (.literal (.string content)) stack
  | _ =>
    if ← Reader.accept (isKeyword .kwThis) then
      let id ← Reader.freshId
      let keyword ← Reader.previous
      return .primary (.this id keyword.line) stack
    else if ← Reader.accept (isKeyword .kwSuper) then
      let keyword ← Reader.previous
      let _ ← Reader.expect (isSymbol .dot) .superDot
      let method ← Reader.name .superMethodName
      let id ← Reader.freshId
      return .primary (.super id keyword.line method) stack
    else if ← Reader.accept isName then
      let id ← Reader.freshId
      let entry ← Reader.previous
      let name ← Reader.ofOption entry.ident?
      return .primary (.variable ⟨id, name.name, name.line⟩) stack
    else if ← Reader.accept (isSymbol .leftParen) then
      return .next (.read .assignment) (.group :: .suffix :: stack)
    else Reader.fail .expression

/-- The unary operator that the entry writes. -/
def Entry.unaryOp? : Entry → Option UnaryOp
  | token t => Expr.unaryOp? t.kind
  | sourceEnd _ => none

/-- The binary operator that a token writes. -/
def binaryOp? (kind : Token.Kind) : Option BinaryOp :=
  match Operator.ofKind? kind with
  | some (.binary op) => some op
  | _ => none

/-- The logical operator that a token writes. -/
def logicalOp? (kind : Token.Kind) : Option LogicalOp :=
  match Operator.ofKind? kind with
  | some (.logical op) => some op
  | _ => none

/-- The operator that the entry writes at a level.  The first two levels build
logical expressions, the others binary ones. -/
def Entry.operator? (l : Level) : Entry → Option Operator
  | sourceEnd _ => none
  | token t =>
    match l with
    | .or | .and => (logicalOp? t.kind).map .logical
    | _ => (binaryOp? t.kind).map .binary

/-- The operand of the unary operator that has been taken. -/
def readUnary (stack : List Frame) : Reader ExprStep := do
  let entry ← Reader.previous
  let op ← Reader.ofOption entry.unaryOp?
  return .next (.read .operand) (.unary op entry.line :: stack)

/-- An operand: a unary operator and its operand, or a primary expression. -/
def readOperand (stack : List Frame) : Reader ExprStep := do
  if ← Reader.accept (isSymbol .bang) then readUnary stack
  else if ← Reader.accept (isSymbol .minus) then readUnary stack
  else readPrimary stack

/-- Goes on behind an expression that a suffix may follow. -/
def afterSuffix (e : Expr) (stack : List Frame) : Reader ExprStep := do
  if ← Reader.accept (isSymbol .leftParen) then
    if ← Reader.check (isSymbol .rightParen) then
      let paren ← Reader.expect (isSymbol .rightParen) .argumentsClose
      return .primary (.call e paren.line []) stack
    else return .next (.read .assignment) (.argument e [] :: stack)
  else if ← Reader.accept (isSymbol .dot) then
    let name ← Reader.name .propertyName
    return .primary (.get e name) stack
  else return .next (.built e) stack

/-- Goes on behind the newest of some arguments. -/
def afterArgument (callee : Expr) (arguments : List Expr)
    (stack : List Frame) : Reader ExprStep := do
  if ← Reader.accept (isSymbol .comma) then
    Reader.noteIf (maxArity ≤ arguments.length) .tooManyArguments
    return .next (.read .assignment) (.argument callee arguments :: stack)
  else
    let paren ← Reader.expect (isSymbol .rightParen) .argumentsClose
    return .primary (.call callee paren.line arguments.reverse) stack

/-- Whether a token writes an operator of the level. -/
def writes : Level → Token.Kind → Bool
  | .or => isKeyword .kwOr
  | .and => isKeyword .kwAnd
  | .equality => fun kind => isSymbol .bangEqual kind || isSymbol .equalEqual kind
  | .comparison => fun kind =>
    isSymbol .greater kind || isSymbol .greaterEqual kind ||
      isSymbol .less kind || isSymbol .lessEqual kind
  | .term => fun kind => isSymbol .minus kind || isSymbol .plus kind
  | .factor => fun kind => isSymbol .star kind || isSymbol .slash kind

/-- Takes an operator of the level if it comes next.  A logical operator is
looked back at. -/
def takeOperator (l : Level) : Reader (Option Entry) :=
  let lookBack (keyword : Keyword) : Reader (Option Entry) := do
    if ← Reader.accept (isKeyword keyword) then
      let entry ← Reader.previous
      return some entry
    else return none
  match l with
  | .or => lookBack .kwOr
  | .and => lookBack .kwAnd
  | l => do
    if ← Reader.check (writes l) then
      let entry ← Reader.advance
      return some entry
    else return none

/-- Goes on behind an operand of a level. -/
def afterOperand (e : Expr) (l : Level) (stack : List Frame) :
    Reader ExprStep := do
  match ← takeOperator l with
  | some entry =>
    let op ← Reader.ofOption (entry.operator? l)
    return .next (.read l.operandRank) (.right l e op entry.line :: stack)
  | none => return .next (.built e) stack

/-- Builds an assignment, or notes that there is nothing to assign to. -/
def assignTo (target value : Expr) (line : Nat) (stack : List Frame) :
    Reader ExprStep := do
  match target with
  | .variable ref =>
    let id ← Reader.freshId
    return .next (.built (.assign ⟨id, ref.name, ref.line⟩ value)) stack
  | .get object name => return .next (.built (.set object name value)) stack
  | _ =>
    Reader.note (.parse line (.lexeme Symbol.equal.lexeme) .assignmentTarget)
    return .next (.built target) stack

/-- Hands a finished expression to the construct that waits for it. -/
def resumeExpr (e : Expr) (frame : Frame) (stack : List Frame) :
    Reader ExprStep := do
  match frame with
  | .assignment =>
    if ← Reader.accept (isSymbol .equal) then
      let equals ← Reader.previous
      return .next (.read .assignment) (.value e equals.line :: stack)
    else return .next (.built e) stack
  | .value target line => assignTo target e line stack
  | .left l => afterOperand e l stack
  | .right l left op line =>
    return .next (.built (op.apply left line e)) (.left l :: stack)
  | .unary op line => return .next (.built (.unary op line e)) stack
  | .suffix => afterSuffix e stack
  | .argument callee earlier => afterArgument callee (e :: earlier) stack
  | .group =>
    let _ ← Reader.expect (isSymbol .rightParen) .groupClose
    return .next (.built (.group e)) stack

/-- One step of the machine. -/
def stepExpr (control : Control) (stack : List Frame) : Reader ExprStep :=
  match control, stack with
  | .read .assignment, stack =>
    return .next (.read (.level .or)) (.assignment :: stack)
  | .read (.level l), stack =>
    return .next (.read l.operandRank) (.left l :: stack)
  | .read .operand, stack => readOperand stack
  | .built e, frame :: stack => resumeExpr e frame stack
  | .built e, [] => return .done e

/-- Runs the machine.  Too few steps count as a panic. -/
def readExprFrom : (steps : Nat) → Control → List Frame → Reader Expr
  | 0, _, _ => Reader.panics
  | steps + 1, control, stack => do
    match ← stepExpr control stack with
    | .next control' stack' => readExprFrom steps control' stack'
    | .done e => return e

/-- Reads one expression.  The steps are enough for the entries that are
left. -/
def readExpr : Reader Expr := fun s =>
  readExprFrom (20 * (s.entries.size - s.current)) (.read .assignment) [] s

/-! ## Mirrors -/

/-- The same step as a result. -/
def stepResult : Expr.Step → EStateM.Result Diagnostic Cursor ExprStep
  | .next control stack c => .ok (.next control stack) c
  | .done e c => .ok (.done e) c
  | .stop d c => .error d c

section

variable {whole : List Token}

/-- What a step does where the machine on a cursor gets to a result. -/
theorem mirrors_step_iff {p : Reader ExprStep} {q : Cursor → Expr.Step} :
    Mirrors whole p (fun c => stepResult (q c)) ↔
      ∀ rest endLine nextId noted, rest <:+ whole →
        (Lox.Reader.reached (stepResult (q ⟨rest, endLine, nextId, noted⟩))).rest
          <:+ whole ∧
        p (slice whole ⟨rest, endLine, nextId, noted⟩) =
          some (place whole (stepResult (q ⟨rest, endLine, nextId, noted⟩))) :=
  ⟨fun h rest endLine nextId noted hrest => h ⟨rest, endLine, nextId, noted⟩ hrest,
    fun h c hc => h c.rest c.endLine c.nextId c.noted hc⟩

variable {t : Token} {rest : List Token} {endLine nextId : Nat}
  {noted : List Diagnostic}

/-! ### Operands -/

/-- The name behind `super`. -/
theorem mirrors_super (stack : List Frame) {line : Nat}
    (h : ⟨.keyword .kwSuper, line⟩ :: rest <:+ whole) :
    let c : Cursor := ⟨⟨.keyword .kwSuper, line⟩ :: rest, endLine, nextId, noted⟩
    (Lox.Reader.reached (stepResult (Expr.readOperand stack c))).rest <:+ whole ∧
      readOperand stack (slice whole c) =
        some (place whole (stepResult (Expr.readOperand stack c))) := by
  intro c
  have htail := suffix_tail h
  simp only [c, readOperand, readPrimary, accept_ite h, peek_bind h,
    previous_bind h, isSymbol, isKeyword, reduceCtorEq, decide_false,
    decide_true, Bool.false_eq_true, if_false, if_true, Expr.readOperand,
    Expr.unaryOp?]
  split
  · have hdot := suffix_tail htail
    rw [expect_bind htail rfl, name_bind hdot, freshId_bind]
    exact ⟨suffix_tail hdot, rfl⟩
  · next hname =>
    have hdot := suffix_tail htail
    rw [expect_bind htail rfl, name_bind_lacks hdot (lacks_name hname)]
    exact ⟨hdot, rfl⟩
  · next _ hdot =>
    rw [expect_bind_lacks htail (lacks_symbol hdot)]
    exact ⟨htail, rfl⟩

theorem mirrors_readOperand (stack : List Frame) :
    Mirrors whole (readOperand stack)
      (fun c => stepResult (Expr.readOperand stack c)) := by
  rw [mirrors_step_iff]
  intro rest endLine nextId noted h
  cases rest with
  | nil =>
    refine ⟨h, ?_⟩
    have hpeek (q : Entry → Reader ExprStep) :
        (Reader.peek >>= q) (slice whole ⟨[], endLine, nextId, noted⟩) = _ :=
      Reader.bind_ok (peek_nil rfl)
    simp only [readOperand, readPrimary, accept_ite_lacks h (lacks_nil _), hpeek,
      fail_at h]
    rfl
  | cons t rest =>
    obtain ⟨kind, line⟩ := t
    have htail := suffix_tail h
    -- The machine on a cursor tells the kinds apart at once, the one on a slice
    -- asks for one after the other.
    cases kind with
    | number | string | identifier =>
      refine ⟨htail, ?_⟩
      simp only [readOperand, readPrimary, accept_ite h, peek_bind h,
        advance_bind h, freshId_bind, previous_bind h, Entry.ident?,
        ofOption_bind, isSymbol, isKeyword, isName, Bool.false_eq_true, if_false,
        if_true]
      rfl
    | keyword k =>
      cases k with
      | kwFalse | kwTrue | kwNil | kwThis =>
        refine ⟨htail, ?_⟩
        simp only [readOperand, readPrimary, accept_ite h, peek_bind h,
          freshId_bind, previous_bind h, isSymbol, isKeyword, reduceCtorEq,
          decide_false, decide_true, Bool.false_eq_true, if_false, if_true]
        rfl
      | kwSuper => exact mirrors_super stack h
      | _ =>
        refine ⟨h, ?_⟩
        simp only [readOperand, readPrimary, accept_ite h, peek_bind h, isSymbol,
          isKeyword, isName, reduceCtorEq, decide_false, Bool.false_eq_true,
          if_false, fail_at h]
        rfl
    | symbol s =>
      cases s with
      | bang | minus | leftParen =>
        refine ⟨htail, ?_⟩
        simp only [readOperand, readPrimary, readUnary, accept_ite h, peek_bind h,
          previous_bind h, Entry.unaryOp?, Expr.unaryOp?, ofOption_bind, isSymbol,
          isKeyword, isName, reduceCtorEq, decide_false, decide_true,
          Bool.false_eq_true, if_false, if_true]
        rfl
      | _ =>
        refine ⟨h, ?_⟩
        simp only [readOperand, readPrimary, accept_ite h, peek_bind h, isSymbol,
          isKeyword, isName, reduceCtorEq, decide_false, Bool.false_eq_true,
          if_false, fail_at h]
        rfl

/-! ### What follows an operand -/

theorem mirrors_afterSuffix (e : Expr) (stack : List Frame) :
    Mirrors whole (afterSuffix e stack)
      (fun c => stepResult (Expr.afterSuffix e stack c)) := by
  rw [mirrors_step_iff]
  intro rest endLine nextId noted h
  simp only [Expr.afterSuffix, afterSuffix]
  split
  · have htail := suffix_tail h
    have hparen : isSymbol .rightParen (.symbol .rightParen) = true := rfl
    simp only [accept_ite h, check_ite htail, expect_bind htail hparen, isSymbol,
      decide_true, if_true]
    exact ⟨suffix_tail htail, rfl⟩
  · next hopen =>
    have htail := suffix_tail h
    simp only [accept_ite h, check_ite_lacks htail (lacks_symbol hopen), isSymbol,
      decide_true, if_true]
    exact ⟨htail, rfl⟩
  · have htail := suffix_tail h
    simp only [accept_ite h, name_bind htail, isSymbol, reduceCtorEq, decide_false,
      decide_true, Bool.false_eq_true, if_false, if_true]
    exact ⟨suffix_tail htail, rfl⟩
  · next hname =>
    have htail := suffix_tail h
    simp only [accept_ite h, name_bind_lacks htail (lacks_name hname), isSymbol,
      reduceCtorEq, decide_false, decide_true, Bool.false_eq_true, if_false,
      if_true]
    exact ⟨htail, rfl⟩
  · next _ hopen _ hdot =>
    simp only [accept_ite_lacks h (lacks_symbol hopen),
      accept_ite_lacks h (lacks_symbol hdot)]
    exact ⟨h, rfl⟩

theorem mirrors_afterArgument (callee : Expr) (arguments : List Expr)
    (stack : List Frame) :
    Mirrors whole (afterArgument callee arguments stack)
      (fun c => stepResult (Expr.afterArgument callee arguments stack c)) := by
  rw [mirrors_step_iff]
  intro rest endLine nextId noted h
  simp only [Expr.afterArgument, afterArgument]
  split
  · have htail := suffix_tail h
    simp only [accept_ite h, noteIf_bind htail, isSymbol, decide_true, if_true]
    refine ⟨?_, rfl⟩
    simp only [stepResult, Lox.Reader.reached, Cursor.rest_noteIf,
      Cursor.rest_moveTo]
    exact htail
  · have hparen : isSymbol .rightParen (.symbol .rightParen) = true := rfl
    simp only [accept_ite h, expect_bind h hparen, isSymbol, reduceCtorEq,
      decide_false, Bool.false_eq_true, if_false]
    exact ⟨suffix_tail h, rfl⟩
  · next hcomma hparen =>
    simp only [accept_ite_lacks h (lacks_symbol hcomma),
      expect_bind_lacks h (lacks_symbol hparen)]
    exact ⟨h, rfl⟩

/-- A token is an operator of a level exactly if it is one of those that the
level asks for. -/
theorem writes_iff (l : Level) (kind : Token.Kind) :
    writes l kind = (l.operator? kind).isSome := by
  cases kind with
  | symbol s => cases l <;> cases s <;> rfl
  | keyword k => cases l <;> cases k <;> rfl
  | _ => cases l <;> rfl

/-- An operator of a level is of the kind that the level builds. -/
theorem operator?_of_level {l : Level} {op : Operator}
    (h : l.operator? t.kind = some op) :
    (Entry.token t).operator? l = some op := by
  unfold Level.operator? at h
  split at h
  · next op' hop =>
    split at h
    · next hlevel =>
      cases h
      subst hlevel
      cases op with
      | logical op =>
        have hkind : logicalOp? t.kind = some op := by rw [logicalOp?, hop]
        cases op <;> simp only [Entry.operator?, Operator.level, hkind, Option.map_some]
      | binary op =>
        have hkind : binaryOp? t.kind = some op := by rw [binaryOp?, hop]
        cases op <;> simp only [Entry.operator?, Operator.level, hkind, Option.map_some]
    · cases h
  · cases h

theorem takeOperator_cons (l : Level) (h : t :: rest <:+ whole) :
    takeOperator l (slice whole ⟨t :: rest, endLine, nextId, noted⟩) =
      if (l.operator? t.kind).isSome then
        some (.ok (some (.token t)) (slice whole ⟨rest, endLine, nextId, noted⟩))
      else some (.ok none (slice whole ⟨t :: rest, endLine, nextId, noted⟩)) := by
  rw [← writes_iff]
  cases l with
  | or | and =>
    simp only [takeOperator, accept_ite h, previous_bind h, writes]
    rfl
  | _ =>
    simp only [takeOperator, check_ite h, advance_bind h]
    rfl

theorem takeOperator_nil (l : Level) (h : [] <:+ whole) :
    takeOperator l (slice whole ⟨[], endLine, nextId, noted⟩) =
      some (.ok none (slice whole ⟨[], endLine, nextId, noted⟩)) := by
  cases l with
  | or | and =>
    simp only [takeOperator, accept_ite_lacks h (lacks_nil _)]
    rfl
  | _ =>
    simp only [takeOperator, check_ite_lacks h (lacks_nil _)]
    rfl

theorem mirrors_afterOperand (e : Expr) (l : Level) (stack : List Frame) :
    Mirrors whole (afterOperand e l stack)
      (fun c => stepResult (Expr.resume e (.left l) stack c)) := by
  rw [mirrors_step_iff]
  intro rest endLine nextId noted h
  cases rest with
  | nil => exact ⟨h, Reader.bind_ok (takeOperator_nil l h)⟩
  | cons t rest =>
    have htake : takeOperator l (slice whole ⟨t :: rest, endLine, nextId, noted⟩) =
        _ := takeOperator_cons l h
    simp only [Expr.resume]
    cases hop : l.operator? t.kind with
    | none =>
      rw [hop] at htake
      exact ⟨h, Reader.bind_ok htake⟩
    | some op =>
      rw [hop] at htake
      have hentry := operator?_of_level hop
      refine ⟨suffix_tail h, (Reader.bind_ok htake).trans ?_⟩
      simp only [hentry, ofOption_bind]
      rfl

theorem mirrors_assignTo (target value : Expr) (line : Nat)
    (stack : List Frame) :
    Mirrors whole (assignTo target value line stack)
      (fun c => stepResult (Expr.assignTo target value line stack c)) := by
  intro c h
  cases target <;> exact ⟨h, rfl⟩

theorem mirrors_resumeExpr (e : Expr) (frame : Frame) (stack : List Frame) :
    Mirrors whole (resumeExpr e frame stack)
      (fun c => stepResult (Expr.resume e frame stack c)) := by
  cases frame with
  | value target line => exact mirrors_assignTo target e line stack
  | left l => exact mirrors_afterOperand e l stack
  | right | unary => exact fun _ h => ⟨h, rfl⟩
  | suffix => exact mirrors_afterSuffix e stack
  | argument callee earlier => exact mirrors_afterArgument callee (e :: earlier) stack
  | assignment =>
    rw [mirrors_step_iff]
    intro rest endLine nextId noted h
    simp only [Expr.resume, resumeExpr]
    split
    · simp only [accept_ite h, previous_bind h, isSymbol, decide_true, if_true]
      exact ⟨suffix_tail h, rfl⟩
    · next hequal =>
      simp only [accept_ite_lacks h (lacks_symbol hequal)]
      exact ⟨h, rfl⟩
  | group =>
    rw [mirrors_step_iff]
    intro rest endLine nextId noted h
    simp only [Expr.resume, resumeExpr]
    split
    · have hparen : isSymbol .rightParen (.symbol .rightParen) = true := rfl
      simp only [expect_bind h hparen]
      exact ⟨suffix_tail h, rfl⟩
    · next hparen =>
      simp only [expect_bind_lacks h (lacks_symbol hparen)]
      exact ⟨h, rfl⟩

theorem mirrors_stepExpr (control : Control) (stack : List Frame) :
    Mirrors whole (stepExpr control stack)
      (fun c => stepResult (Expr.step control stack c)) := by
  cases control with
  | read rank =>
    cases rank with
    | operand => exact mirrors_readOperand stack
    | _ => exact fun _ h => ⟨h, rfl⟩
  | built e =>
    cases stack with
    | nil => exact fun _ h => ⟨h, rfl⟩
    | cons frame stack => exact mirrors_resumeExpr e frame stack

/-! ## Reading -/

/-- With steps for all that is left to do, the machines run to the same end. -/
theorem readExprFrom_eq {control : Control} {stack : List Frame} {c : Cursor}
    (h : c.rest <:+ whole) {steps : Nat}
    (hsteps : Expr.potential control stack c < steps) :
    (Lox.Reader.reached (Expr.readFrom control stack c)).rest <:+ whole ∧
      readExprFrom steps control stack (slice whole c) =
        some (place whole (Expr.readFrom control stack c)) := by
  fun_induction Expr.readFrom control stack c generalizing steps with
  | case1 control stack c control' stack' c' hstep ih =>
    obtain ⟨hreached, hrun⟩ := mirrors_stepExpr control stack c h
    simp only [hstep] at hreached hrun
    obtain ⟨steps, rfl⟩ : ∃ n, steps = n + 1 := ⟨steps - 1, by omega⟩
    have hlt := Expr.potential_lt_of_step hstep
    have henough : Expr.potential control' stack' c' < steps := by omega
    obtain ⟨hsuffix, hrest⟩ := ih hreached henough
    exact ⟨hsuffix, (Reader.bind_ok hrun).trans hrest⟩
  | case2 control stack c e c' hstep =>
    obtain ⟨hreached, hrun⟩ := mirrors_stepExpr control stack c h
    simp only [hstep] at hreached hrun
    obtain ⟨steps, rfl⟩ : ∃ n, steps = n + 1 := ⟨steps - 1, by omega⟩
    exact ⟨hreached, Reader.bind_ok hrun⟩
  | case3 control stack c d c' hstep =>
    obtain ⟨hreached, hrun⟩ := mirrors_stepExpr control stack c h
    simp only [hstep] at hreached hrun
    obtain ⟨steps, rfl⟩ : ∃ n, steps = n + 1 := ⟨steps - 1, by omega⟩
    exact ⟨hreached, Reader.bind_error hrun⟩

/-- Reading an expression by index does what reading it from a list does. -/
theorem mirrors_readExpr : Mirrors whole readExpr Expr.read := by
  intro c h
  refine readExprFrom_eq h ?_
  have hlength := h.length_le
  simp only [Expr.potential, Expr.Control.weight, Expr.Rank.weight,
    Expr.stackWeight, slice, List.size_toArray, List.length_append,
    List.length_map, List.length_singleton]
  omega

end

end Lox.Indexed
