import Lox.Cursor

/-!
# Reading an expression

The grammar of expressions, loosest first: assignment, six levels of
left-associative operators, unary operators, calls and property accesses, and
at the innermost level literals, names and parentheses.

An expression is read without recursion on its nesting.  The reader is a
machine with an explicit stack: its `Control` says whether an expression of
some rank is to be read next or has just been built, and each `Frame` on the
stack is a construct that waits for one of its parts.  Every step uses up a
token, opens a frame for a tighter rank or closes a frame; `potential` counts
these and `potential_lt_of_step` shows that it falls, so that `Expr.readFrom`
ends on every token list.
-/

namespace Lox.Expr

/-! ## Operators and their levels -/

/-- The levels of operators between two operands, loosest first. -/
inductive Level where
  | or
  | and
  | equality
  | comparison
  | term
  | factor
  deriving Repr, DecidableEq

/-- The next tighter level; below the last come the unary operators. -/
def Level.tighter : Level → Option Level
  | or => some and
  | and => some equality
  | equality => some comparison
  | comparison => some term
  | term => some factor
  | factor => none

/-- An operator between two operands. -/
inductive Operator where
  | logical (op : LogicalOp)
  | binary (op : BinaryOp)
  deriving Repr, DecidableEq

/-- The level at which an operator binds. -/
def Operator.level : Operator → Level
  | logical .or => .or
  | logical .and => .and
  | binary .equal => .equality
  | binary .notEqual => .equality
  | binary .less => .comparison
  | binary .lessEqual => .comparison
  | binary .greater => .comparison
  | binary .greaterEqual => .comparison
  | binary .add => .term
  | binary .subtract => .term
  | binary .multiply => .factor
  | binary .divide => .factor

/-- The operator that a token writes between two operands. -/
def Operator.ofKind? : Token.Kind → Option Operator
  | .keyword .kwOr => some (.logical .or)
  | .keyword .kwAnd => some (.logical .and)
  | .symbol .equalEqual => some (.binary .equal)
  | .symbol .bangEqual => some (.binary .notEqual)
  | .symbol .less => some (.binary .less)
  | .symbol .lessEqual => some (.binary .lessEqual)
  | .symbol .greater => some (.binary .greater)
  | .symbol .greaterEqual => some (.binary .greaterEqual)
  | .symbol .plus => some (.binary .add)
  | .symbol .minus => some (.binary .subtract)
  | .symbol .star => some (.binary .multiply)
  | .symbol .slash => some (.binary .divide)
  | _ => none

/-- The operator of level `l` that a token writes. -/
def Level.operator? (l : Level) (kind : Token.Kind) : Option Operator :=
  match Operator.ofKind? kind with
  | some op => if op.level = l then some op else none
  | none => none

/-- The expression of an operator and its operands. -/
def Operator.apply (op : Operator) (left : Expr) (line : Nat) (right : Expr) :
    Expr :=
  match op with
  | logical op => .logical left op line right
  | binary op => .binary left op line right

/-- The operator that a token writes in front of an operand. -/
def unaryOp? : Token.Kind → Option UnaryOp
  | .symbol .bang => some .not
  | .symbol .minus => some .negate
  | _ => none

/-! ## The machine -/

/-- What is read next: an assignment, an operator level, or an operand with
its unary operators and suffixes. -/
inductive Rank where
  | assignment
  | level (l : Level)
  | operand
  deriving Repr, DecidableEq

/-- The rank of the operands of a level. -/
def Level.operandRank (l : Level) : Rank :=
  match l.tighter with
  | some tighter => .level tighter
  | none => .operand

/-- A construct that waits for an expression. -/
inductive Frame where
  /-- An expression that is an assignment if `=` follows. -/
  | assignment
  /-- The value assigned to `target`, behind a `=` on `line`. -/
  | value (target : Expr) (line : Nat)
  /-- An operand that is a left operand if an operator of level `l` follows. -/
  | left (l : Level)
  /-- The right operand of `op` on `line`. -/
  | right (l : Level) (left : Expr) (op : Operator) (line : Nat)
  /-- The operand of a unary operator. -/
  | unary (op : UnaryOp) (line : Nat)
  /-- An expression that arguments or a property name may follow. -/
  | suffix
  /-- An argument of a call; the earlier ones are kept newest first. -/
  | argument (callee : Expr) (earlier : List Expr)
  /-- The inside of parentheses. -/
  | group

/-- What the machine does next. -/
inductive Control where
  | read (rank : Rank)
  | built (e : Expr)

/-- The result of one step. -/
inductive Step where
  | next (control : Control) (stack : List Frame) (cursor : Cursor)
  | done (e : Expr) (cursor : Cursor)
  | stop (d : Diagnostic) (cursor : Cursor)

/-- Stops with a fault at the cursor. -/
def Step.fail (f : ParseFault) (c : Cursor) : Step :=
  .stop (c.fault f) c

/-- Reads an operand: a unary operator and its operand, or a primary
expression, which suffixes may follow. -/
def readOperand (stack : List Frame) (c : Cursor) : Step :=
  match c.rest with
  | [] => .fail .expression c
  | ⟨kind, line⟩ :: rest =>
    match unaryOp? kind with
    | some op => .next (.read .operand) (.unary op line :: stack) (c.moveTo rest)
    | none =>
      match kind with
      | .keyword .kwFalse =>
        .next (.built (.literal (.bool false))) (.suffix :: stack)
          (c.moveTo rest)
      | .keyword .kwTrue =>
        .next (.built (.literal (.bool true))) (.suffix :: stack)
          (c.moveTo rest)
      | .keyword .kwNil =>
        .next (.built (.literal .nil)) (.suffix :: stack) (c.moveTo rest)
      | .number _ value =>
        .next (.built (.literal (.number value))) (.suffix :: stack)
          (c.moveTo rest)
      | .string content =>
        .next (.built (.literal (.string content))) (.suffix :: stack)
          (c.moveTo rest)
      | .keyword .kwThis =>
        .next (.built (.this c.nextId line)) (.suffix :: stack)
          (c.moveTo rest).useId
      | .identifier x =>
        .next (.built (.variable ⟨c.nextId, x, line⟩)) (.suffix :: stack)
          (c.moveTo rest).useId
      | .keyword .kwSuper =>
        match rest with
        | ⟨.symbol .dot, _⟩ :: ⟨.identifier method, methodLine⟩ :: rest =>
          .next (.built (.super c.nextId line ⟨method, methodLine⟩))
            (.suffix :: stack) (c.moveTo rest).useId
        | ⟨.symbol .dot, _⟩ :: rest => .fail .superMethodName (c.moveTo rest)
        | _ => .fail .superDot (c.moveTo rest)
      | .symbol .leftParen =>
        .next (.read .assignment) (.group :: .suffix :: stack) (c.moveTo rest)
      | _ => .fail .expression c

/-- Goes on behind an expression that a suffix may follow. -/
def afterSuffix (e : Expr) (stack : List Frame) (c : Cursor) : Step :=
  match c.rest with
  | ⟨.symbol .leftParen, _⟩ :: ⟨.symbol .rightParen, line⟩ :: rest =>
    .next (.built (.call e line [])) (.suffix :: stack) (c.moveTo rest)
  | ⟨.symbol .leftParen, _⟩ :: rest =>
    .next (.read .assignment) (.argument e [] :: stack) (c.moveTo rest)
  | ⟨.symbol .dot, _⟩ :: ⟨.identifier x, line⟩ :: rest =>
    .next (.built (.get e ⟨x, line⟩)) (.suffix :: stack) (c.moveTo rest)
  | ⟨.symbol .dot, _⟩ :: rest => .fail .propertyName (c.moveTo rest)
  | _ => .next (.built e) stack c

/-- Goes on behind the newest of some arguments. -/
def afterArgument (callee : Expr) (arguments : List Expr) (stack : List Frame)
    (c : Cursor) : Step :=
  match c.rest with
  | ⟨.symbol .comma, _⟩ :: rest =>
    .next (.read .assignment) (.argument callee arguments :: stack)
      ((c.moveTo rest).noteIf (maxArity ≤ arguments.length) .tooManyArguments)
  | ⟨.symbol .rightParen, line⟩ :: rest =>
    .next (.built (.call callee line arguments.reverse)) (.suffix :: stack)
      (c.moveTo rest)
  | _ => .fail .argumentsClose c

/-- Builds an assignment.  Only a variable or a property can be assigned to;
anything else is noted, and the expression stays what it was. -/
def assignTo (target value : Expr) (line : Nat) (stack : List Frame)
    (c : Cursor) : Step :=
  match target with
  | .variable ref =>
    .next (.built (.assign ⟨c.nextId, ref.name, ref.line⟩ value)) stack c.useId
  | .get object name => .next (.built (.set object name value)) stack c
  | _ =>
    .next (.built target) stack
      (c.note (.parse line (.lexeme Symbol.equal.lexeme) .assignmentTarget))

/-- Hands a finished expression to the construct that waits for it. -/
def resume (e : Expr) (frame : Frame) (stack : List Frame) (c : Cursor) : Step :=
  match frame with
  | .assignment =>
    match c.rest with
    | ⟨.symbol .equal, line⟩ :: rest =>
      .next (.read .assignment) (.value e line :: stack) (c.moveTo rest)
    | _ => .next (.built e) stack c
  | .value target line => assignTo target e line stack c
  | .left l =>
    match c.rest with
    | [] => .next (.built e) stack c
    | ⟨kind, line⟩ :: rest =>
      match l.operator? kind with
      | some op =>
        .next (.read l.operandRank) (.right l e op line :: stack)
          (c.moveTo rest)
      | none => .next (.built e) stack c
  | .right l left op line =>
    .next (.built (op.apply left line e)) (.left l :: stack) c
  | .unary op line => .next (.built (.unary op line e)) stack c
  | .suffix => afterSuffix e stack c
  | .argument callee earlier => afterArgument callee (e :: earlier) stack c
  | .group =>
    match c.rest with
    | ⟨.symbol .rightParen, _⟩ :: rest =>
      .next (.built (.group e)) stack (c.moveTo rest)
    | _ => .fail .groupClose c

/-- One step of the machine. -/
def step (control : Control) (stack : List Frame) (c : Cursor) : Step :=
  match control, stack with
  | .read .assignment, stack =>
    .next (.read (.level .or)) (.assignment :: stack) c
  | .read (.level l), stack => .next (.read l.operandRank) (.left l :: stack) c
  | .read .operand, stack => readOperand stack c
  | .built e, frame :: stack => resume e frame stack c
  | .built e, [] => .done e c

/-! ## Every step makes progress -/

/-- The steps that can be taken from a rank before a token is read. -/
def Rank.weight : Rank → Nat
  | operand => 1
  | level .factor => 3
  | level .term => 5
  | level .comparison => 7
  | level .equality => 9
  | level .and => 11
  | level .or => 13
  | assignment => 15

/-- The weight of a control: that of the rank that is still to be read. -/
def Control.weight : Control → Nat
  | read rank => rank.weight
  | built _ => 0

/-- The weight of a frame: a right operand turns into a left one. -/
def Frame.weight : Frame → Nat
  | right _ _ _ _ => 2
  | _ => 1

/-- The weight of a whole stack. -/
def stackWeight : List Frame → Nat
  | [] => 0
  | frame :: stack => frame.weight + stackWeight stack

/-- A bound on the steps that are left. -/
def potential (control : Control) (stack : List Frame) (c : Cursor) : Nat :=
  20 * c.rest.length + control.weight + stackWeight stack

theorem Level.weight_operandRank (l : Level) :
    l.operandRank.weight + 2 = (Rank.level l).weight := by
  cases l <;> rfl

theorem Level.weight_operandRank_le (l : Level) :
    l.operandRank.weight ≤ 11 := by
  cases l <;> decide

/-- The step ends the reading or leaves a potential below `bound`. -/
def Step.Below (bound : Nat) : Step → Prop
  | .next control stack c => potential control stack c < bound
  | .done _ _ => True
  | .stop _ _ => True

theorem below_readOperand (stack : List Frame) (c : Cursor) :
    (readOperand stack c).Below (potential (.read .operand) stack c) := by
  unfold readOperand
  repeat' split
  all_goals simp [Step.Below, Step.fail, potential, Control.weight, Rank.weight,
    stackWeight, Frame.weight, *]
  all_goals omega

theorem below_left (e : Expr) (l : Level) (stack : List Frame) (c : Cursor) :
    (resume e (.left l) stack c).Below
      (potential (.built e) (.left l :: stack) c) := by
  have := l.weight_operandRank_le
  simp only [resume]
  repeat' split
  all_goals simp [Step.Below, potential, Control.weight, stackWeight,
    Frame.weight, *]
  all_goals omega

theorem below_resume (e : Expr) (frame : Frame) (stack : List Frame)
    (c : Cursor) :
    (resume e frame stack c).Below
      (potential (.built e) (frame :: stack) c) := by
  cases frame with
  | left l => exact below_left e l stack c
  | _ =>
    simp only [resume, afterSuffix, afterArgument, assignTo]
    repeat' split
    all_goals simp [Step.Below, Step.fail, potential, Control.weight,
      Rank.weight, stackWeight, Frame.weight, *]
    all_goals omega

theorem below_step (control : Control) (stack : List Frame) (c : Cursor) :
    (step control stack c).Below (potential control stack c) := by
  unfold step
  split
  · simp [Step.Below, potential, Control.weight, Rank.weight, stackWeight,
      Frame.weight]
    omega
  · next l =>
    have := l.weight_operandRank
    simp [Step.Below, potential, Control.weight, stackWeight, Frame.weight]
    omega
  · exact below_readOperand _ c
  · exact below_resume _ _ _ c
  · trivial

/-- Every step that does not end the reading lowers the potential. -/
theorem potential_lt_of_step {control control' : Control}
    {stack stack' : List Frame} {c c' : Cursor}
    (h : step control stack c = .next control' stack' c') :
    potential control' stack' c' < potential control stack c := by
  have := below_step control stack c
  rwa [h] at this

/-! ## Reading -/

/-- Runs the machine to its end. -/
def readFrom (control : Control) (stack : List Frame) (c : Cursor) :
    EStateM.Result Diagnostic Cursor Expr :=
  match _h : step control stack c with
  | .next control' stack' c' => readFrom control' stack' c'
  | .done e c' => .ok e c'
  | .stop d c' => .error d c'
termination_by potential control stack c
decreasing_by exact potential_lt_of_step _h

/-! ## Tokens are only used up -/

/-- Whether an expression is still to be read. -/
def Control.isRead : Control → Bool
  | read _ => true
  | built _ => false

/-- What a step leaves of the tokens: never more than there were, and less
whenever an expression comes out that was still to be read. -/
def Step.Consumes (control : Control) (c : Cursor) : Step → Prop
  | .next control' _ c' =>
    c'.rest.length ≤ c.rest.length
      ∧ (control.isRead → ¬ control'.isRead → c'.rest.length < c.rest.length)
  | .done _ c' => c'.rest.length ≤ c.rest.length ∧ ¬ control.isRead
  | .stop _ c' => c'.rest.length ≤ c.rest.length

theorem consumes_readOperand (stack : List Frame) (c : Cursor) (rank : Rank) :
    (readOperand stack c).Consumes (.read rank) c := by
  unfold readOperand
  repeat' split
  all_goals simp [Step.Consumes, Step.fail, Control.isRead, *]
  all_goals omega

theorem consumes_resume (e : Expr) (frame : Frame) (stack : List Frame)
    (c : Cursor) : (resume e frame stack c).Consumes (.built e) c := by
  cases frame <;> simp only [resume, afterSuffix, afterArgument, assignTo]
  all_goals repeat' split
  all_goals simp [Step.Consumes, Step.fail, Control.isRead, *]
  all_goals omega

theorem consumes_step (control : Control) (stack : List Frame) (c : Cursor) :
    (step control stack c).Consumes control c := by
  unfold step
  split
  · simp [Step.Consumes, Control.isRead]
  · simp [Step.Consumes, Control.isRead]
  · exact consumes_readOperand _ _ _
  · exact consumes_resume _ _ _ _
  · simp [Step.Consumes, Control.isRead]

/-- Reading on never gives tokens back, and uses one up if an expression was
still to be read. -/
theorem length_of_readFrom_ok {control : Control} {stack : List Frame}
    {c c' : Cursor} {e : Expr} (h : readFrom control stack c = .ok e c') :
    c'.rest.length ≤ c.rest.length
      ∧ (control.isRead → c'.rest.length < c.rest.length) := by
  fun_induction readFrom control stack c with
  | case1 control stack c control' stack' c'' hstep ih =>
    have hs := consumes_step control stack c
    simp only [hstep, Step.Consumes] at hs
    have := ih h
    refine ⟨by omega, fun hread => ?_⟩
    cases hc : control'.isRead with
    | true => have := this.2 hc; omega
    | false => have := hs.2 hread (by simp [hc]); omega
  | case2 control stack c e' c'' hstep =>
    have hs := consumes_step control stack c
    simp only [hstep, Step.Consumes] at hs
    cases h
    exact ⟨hs.1, fun hread => absurd hread hs.2⟩
  | case3 => cases h

theorem length_of_readFrom_error {control : Control} {stack : List Frame}
    {c c' : Cursor} {d : Diagnostic}
    (h : readFrom control stack c = .error d c') :
    c'.rest.length ≤ c.rest.length := by
  fun_induction readFrom control stack c with
  | case1 control stack c control' stack' c'' hstep ih =>
    have hs := consumes_step control stack c
    simp only [hstep, Step.Consumes] at hs
    have := ih h
    omega
  | case2 => cases h
  | case3 control stack c d' c'' hstep =>
    have hs := consumes_step control stack c
    simp only [hstep, Step.Consumes] at hs
    cases h
    exact hs

/-- Reads one expression. -/
def read : Reader Expr := fun c =>
  readFrom (.read .assignment) [] c

/-- Reading an expression uses up at least one token. -/
theorem consumes_read : Reader.Consumes read := by
  refine ⟨fun c => ?_, fun c e c' h => (length_of_readFrom_ok h).2 rfl⟩
  cases h : read c with
  | ok e c' => exact (length_of_readFrom_ok h).1
  | error d c' => exact length_of_readFrom_error h

/-- What reading a whole source as one expression gives: the expression or
all diagnostics, and the first id that is still free. -/
structure Parsed where
  result : Except (List Diagnostic) Expr
  nextId : Nat

/-- Reads a scanned source as exactly one expression. -/
def parse (scan : Token.Scan) (firstId : Nat) : Parsed :=
  match read (.start scan firstId) with
  | .error d c => ⟨.error (c.note d).diagnostics, c.nextId⟩
  | .ok e c =>
    let c := c.noteIf (!c.rest.isEmpty) .endOfExpression
    ⟨if c.noted.isEmpty then .ok e else .error c.diagnostics, c.nextId⟩

end Lox.Expr
