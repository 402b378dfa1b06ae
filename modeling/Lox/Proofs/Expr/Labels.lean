import Lox.Proofs.Expr.Relabel
import Lox.Proofs.Scope.Labels

/-!
# Reading an expression does not see labels

`Expr.Reads.relabel` says what becomes of the labels of an expression that can
be read.  Here the same is said of the reader, whether it finds a fault or not:
from a cursor with other labels it does the same, and what it gives, the fault
it stops with and the faults it notes have their labels changed
(`respects_read`).  The ids may be counted from elsewhere, so the labeling has
to change them to ones that are counted in the same way.
-/

namespace Lox

/-! ## Cursors -/

namespace Cursor

/-- The cursor with other labels. -/
def relabel (ρ : Labeling) (c : Cursor) : Cursor where
  rest := c.rest.map (Token.relabel ρ)
  endLine := ρ.line c.endLine
  nextId := ρ.id c.nextId
  noted := c.noted.map (Diagnostic.relabel ρ)

variable (ρ : Labeling) (c : Cursor)

theorem moveTo_relabel (rest : List Token) :
    (c.relabel ρ).moveTo (rest.map (Token.relabel ρ)) =
      (c.moveTo rest).relabel ρ := rfl

theorem note_relabel (d : Diagnostic) :
    (c.relabel ρ).note (d.relabel ρ) = (c.note d).relabel ρ := rfl

theorem fault_relabel (f : ParseFault) :
    (c.relabel ρ).fault f = (c.fault f).relabel ρ := by
  obtain ⟨rest, endLine, nextId, noted⟩ := c
  cases rest <;> rfl

theorem noteIf_relabel (condition : Bool) (f : ParseFault) :
    (c.relabel ρ).noteIf condition f = (c.noteIf condition f).relabel ρ := by
  cases condition with
  | false => rfl
  | true =>
    simp only [noteIf, if_true, fault_relabel]
    exact note_relabel ρ c (c.fault f)

variable {ρ} in
theorem useId_relabel (hρ : ρ.Steps 0) :
    (c.relabel ρ).useId = c.useId.relabel ρ := by
  simp only [useId, relabel, hρ c.nextId (Nat.zero_le _)]

end Cursor

/-! ## Readers -/

namespace Reader

variable {α β α' β' : Type} {ρ : Labeling}

/-- The result with other labels. -/
def relabelResult (ρ : Labeling) (f : α → α') :
    EStateM.Result Diagnostic Cursor α → EStateM.Result Diagnostic Cursor α'
  | .ok a c => .ok (f a) (c.relabel ρ)
  | .error d c => .error (d.relabel ρ) (c.relabel ρ)

/-- From a cursor with other labels the second reader gives what the first one
gives, with other labels. -/
def Respects (ρ : Labeling) (f : α → α') (p : Reader α) (q : Reader α') : Prop :=
  ∀ c : Cursor, q (c.relabel ρ) = relabelResult ρ f (p c)

theorem Respects.pure {f : α → α'} {a : α} {a' : α'} (h : a' = f a) :
    Respects ρ f (Pure.pure a) (Pure.pure a') := by
  rw [h]
  exact fun _ => rfl

theorem Respects.bind {f : α → α'} {g : β → β'} {p : Reader α} {p' : Reader α'}
    {q : α → Reader β} {q' : α' → Reader β'} (hp : Respects ρ f p p')
    (hq : ∀ a, Respects ρ g (q a) (q' (f a))) :
    Respects ρ g (p >>= q) (p' >>= q') := by
  intro c
  change EStateM.bind p' q' (c.relabel ρ) =
    relabelResult ρ g (EStateM.bind p q c)
  unfold EStateM.bind
  rw [hp c]
  cases p c with
  | ok a c' => exact hq a c'
  | error d c' => rfl

theorem Respects.ite {f : α → α'} {condition : Prop} [Decidable condition]
    {p q : Reader α} {p' q' : Reader α'} (hp : Respects ρ f p p')
    (hq : Respects ρ f q q') :
    Respects ρ f (if condition then p else q)
      (if condition then p' else q') := by
  split <;> assumption

theorem respects_accept (s : Symbol) : Respects ρ id (accept s) (accept s) := by
  rintro ⟨rest, endLine, nextId, noted⟩
  cases rest with
  | nil => rfl
  | cons t rest =>
    obtain ⟨kind, line⟩ := t
    cases kind with
    | symbol t =>
      simp only [accept, Cursor.relabel, List.map_cons, Token.relabel]
      split <;> rfl
    | _ => rfl

theorem respects_ahead (s : Symbol) : Respects ρ id (ahead s) (ahead s) := by
  rintro ⟨rest, endLine, nextId, noted⟩
  cases rest with
  | nil => rfl
  | cons t rest =>
    obtain ⟨kind, line⟩ := t
    cases kind <;> rfl

theorem respects_expect (s : Symbol) (f : ParseFault) :
    Respects ρ id (expect s f) (expect s f) := by
  rintro ⟨rest, endLine, nextId, noted⟩
  cases rest with
  | nil => rfl
  | cons t rest =>
    obtain ⟨kind, line⟩ := t
    cases kind with
    | symbol t =>
      simp only [expect, Cursor.relabel, List.map_cons, Token.relabel]
      split <;> rfl
    | _ => rfl

theorem respects_acceptKeyword (k : Keyword) :
    Respects ρ id (acceptKeyword k) (acceptKeyword k) := by
  rintro ⟨rest, endLine, nextId, noted⟩
  cases rest with
  | nil => rfl
  | cons t rest =>
    obtain ⟨kind, line⟩ := t
    cases kind with
    | keyword t =>
      simp only [acceptKeyword, Cursor.relabel, List.map_cons, Token.relabel]
      split <;> rfl
    | _ => rfl

theorem respects_freshId (hρ : ρ.Steps 0) :
    Respects ρ ρ.id freshId freshId := by
  intro c
  simp only [freshId, relabelResult, Cursor.useId_relabel c hρ]
  rfl

theorem respects_name (f : ParseFault) :
    Respects ρ (Ident.relabel ρ) (name f) (name f) := by
  rintro ⟨rest, endLine, nextId, noted⟩
  cases rest with
  | nil => rfl
  | cons t rest =>
    obtain ⟨kind, line⟩ := t
    cases kind <;> rfl

end Reader

/-! ## The machine for expressions -/

namespace Expr

/-- The construct with other labels. -/
def Frame.relabel (ρ : Labeling) : Frame → Frame
  | .assignment => .assignment
  | .value target line => .value (target.relabel ρ) (ρ.line line)
  | .left l => .left l
  | .right l first op line => .right l (first.relabel ρ) op (ρ.line line)
  | .unary op line => .unary op (ρ.line line)
  | .suffix => .suffix
  | .argument callee earlier =>
    .argument (callee.relabel ρ) (earlier.map (Expr.relabel ρ))
  | .group => .group

/-- What is done next with other labels. -/
def Control.relabel (ρ : Labeling) : Control → Control
  | .read rank => .read rank
  | .built e => .built (e.relabel ρ)

/-- The step with other labels. -/
def Step.relabel (ρ : Labeling) : Step → Step
  | .next control stack c =>
    .next (control.relabel ρ) (stack.map (Frame.relabel ρ)) (c.relabel ρ)
  | .done e c => .done (e.relabel ρ) (c.relabel ρ)
  | .stop d c => .stop (d.relabel ρ) (c.relabel ρ)

variable {ρ : Labeling}

/-- An occurrence takes the next id. -/
theorem next_useId_relabel (hρ : ρ.Steps 0) (e : Expr) (stack : List Frame)
    (c : Cursor) (rest : List Token) :
    Step.next (.built (e.relabel ρ)) (.suffix :: stack.map (Frame.relabel ρ))
        ((c.relabel ρ).moveTo (rest.map (Token.relabel ρ))).useId =
      (Step.next (.built e) (.suffix :: stack) (c.moveTo rest).useId).relabel
        ρ := by
  rw [Cursor.moveTo_relabel, Cursor.useId_relabel _ hρ]
  rfl

theorem readOperand_relabel (hρ : ρ.Steps 0) (stack : List Frame) (c : Cursor) :
    readOperand (stack.map (Frame.relabel ρ)) (c.relabel ρ) =
      (readOperand stack c).relabel ρ := by
  obtain ⟨rest, endLine, nextId, noted⟩ := c
  cases rest with
  | nil => rfl
  | cons t rest =>
    obtain ⟨kind, line⟩ := t
    simp only [readOperand, Cursor.relabel, List.map_cons, Token.relabel]
    cases unaryOp? kind with
    | some op => rfl
    | none =>
      cases kind with
      | number | string =>
        simp only [Step.relabel, Control.relabel, Expr.relabel]
        rfl
      | identifier x =>
        have hnext := next_useId_relabel hρ (.variable ⟨nextId, x, line⟩) stack
          ⟨⟨.identifier x, line⟩ :: rest, endLine, nextId, noted⟩ rest
        rw [Expr.relabel] at hnext
        exact hnext
      | symbol s => cases s <;> rfl
      | keyword k =>
        cases k with
        | kwFalse | kwTrue | kwNil =>
          simp only [Step.relabel, Control.relabel, Expr.relabel]
          rfl
        | kwThis =>
          have hnext := next_useId_relabel hρ (.this nextId line) stack
            ⟨⟨.keyword .kwThis, line⟩ :: rest, endLine, nextId, noted⟩ rest
          rw [Expr.relabel] at hnext
          exact hnext
        | kwSuper =>
          rcases rest with _ | ⟨⟨kind, l⟩, rest⟩
          · rfl
          · cases kind with
            | symbol s =>
              cases s with
              | dot =>
                rcases rest with _ | ⟨⟨kind, l'⟩, rest⟩
                · rfl
                · cases kind with
                  | identifier x =>
                    have hnext := next_useId_relabel hρ
                      (.super nextId line ⟨x, l'⟩) stack
                      ⟨⟨.keyword .kwSuper, line⟩ :: ⟨.symbol .dot, l⟩ ::
                        ⟨.identifier x, l'⟩ :: rest, endLine, nextId, noted⟩
                      rest
                    rw [Expr.relabel] at hnext
                    exact hnext
                  | _ => rfl
              | _ => rfl
            | _ => rfl
        | _ => rfl

theorem afterSuffix_relabel (e : Expr) (stack : List Frame) (c : Cursor) :
    afterSuffix (e.relabel ρ) (stack.map (Frame.relabel ρ)) (c.relabel ρ) =
      (afterSuffix e stack c).relabel ρ := by
  obtain ⟨rest, endLine, nextId, noted⟩ := c
  rcases rest with _ | ⟨⟨kind, line⟩, rest⟩
  · rfl
  · cases kind with
    | symbol s =>
      cases s with
      | leftParen =>
        rcases rest with _ | ⟨⟨kind, _⟩, rest⟩
        · rfl
        · cases kind with
          | symbol s =>
            cases s with
            | rightParen =>
              simp only [afterSuffix, Step.relabel, Control.relabel,
                Expr.relabel, Expr.relabelAll]
              rfl
            | _ => rfl
          | _ => rfl
      | dot =>
        rcases rest with _ | ⟨⟨kind, _⟩, rest⟩
        · rfl
        · cases kind with
          | identifier x =>
            simp only [afterSuffix, Step.relabel, Control.relabel, Expr.relabel]
            rfl
          | _ => rfl
      | _ => rfl
    | _ => rfl

theorem afterArgument_relabel (callee : Expr) (arguments : List Expr)
    (stack : List Frame) (c : Cursor) :
    afterArgument (callee.relabel ρ) (arguments.map (Expr.relabel ρ))
        (stack.map (Frame.relabel ρ)) (c.relabel ρ) =
      (afterArgument callee arguments stack c).relabel ρ := by
  obtain ⟨rest, endLine, nextId, noted⟩ := c
  rcases rest with _ | ⟨⟨kind, line⟩, rest⟩
  · rfl
  · cases kind with
    | symbol s =>
      cases s with
      | comma =>
        have hnote := Cursor.noteIf_relabel ρ
          (Cursor.moveTo ⟨⟨.symbol .comma, line⟩ :: rest, endLine, nextId, noted⟩
            rest) (maxArity ≤ arguments.length) .tooManyArguments
        simp only [afterArgument, Step.relabel, ← hnote]
        simp only [Cursor.relabel, List.map_cons, Token.relabel,
          List.length_map]
        rfl
      | rightParen =>
        simp only [afterArgument, Step.relabel, Control.relabel, Expr.relabel,
          Expr.relabelAll_eq_map, List.map_reverse]
        rfl
      | _ => rfl
    | _ => rfl

theorem assignTo_relabel (hρ : ρ.Steps 0) (target value : Expr) (line : Nat)
    (stack : List Frame) (c : Cursor) :
    assignTo (target.relabel ρ) (value.relabel ρ) (ρ.line line)
        (stack.map (Frame.relabel ρ)) (c.relabel ρ) =
      (assignTo target value line stack c).relabel ρ := by
  cases target with
  | «variable» ref =>
    simp only [Expr.relabel, assignTo, Step.relabel, Control.relabel,
      Cursor.useId_relabel c hρ]
    rfl
  | get object name =>
    simp only [Expr.relabel, assignTo, Step.relabel, Control.relabel]
  | _ =>
    simp only [Expr.relabel, assignTo, Step.relabel, Control.relabel]
    rfl

theorem resume_relabel (hρ : ρ.Steps 0) (e : Expr) (frame : Frame)
    (stack : List Frame) (c : Cursor) :
    resume (e.relabel ρ) (frame.relabel ρ) (stack.map (Frame.relabel ρ))
        (c.relabel ρ) =
      (resume e frame stack c).relabel ρ := by
  cases frame with
  | assignment =>
    obtain ⟨rest, endLine, nextId, noted⟩ := c
    rcases rest with _ | ⟨⟨kind, line⟩, rest⟩
    · rfl
    · cases kind with
      | symbol s => cases s <;> rfl
      | _ => rfl
  | value target line => exact assignTo_relabel hρ target e line stack c
  | left l =>
    obtain ⟨rest, endLine, nextId, noted⟩ := c
    rcases rest with _ | ⟨⟨kind, line⟩, rest⟩
    · rfl
    · simp only [Frame.relabel, resume, Cursor.relabel, List.map_cons,
        Token.relabel]
      cases l.operator? kind <;> rfl
  | right l first op line =>
    simp only [Frame.relabel, resume, Step.relabel, Control.relabel,
      relabel_apply]
    rfl
  | unary op line =>
    simp only [Frame.relabel, resume, Step.relabel, Control.relabel,
      Expr.relabel]
  | suffix => exact afterSuffix_relabel e stack c
  | argument callee earlier =>
    exact afterArgument_relabel callee (e :: earlier) stack c
  | group =>
    obtain ⟨rest, endLine, nextId, noted⟩ := c
    rcases rest with _ | ⟨⟨kind, line⟩, rest⟩
    · rfl
    · cases kind with
      | symbol s =>
        cases s with
        | rightParen =>
          simp only [Frame.relabel, resume, Step.relabel, Control.relabel,
            Expr.relabel]
          rfl
        | _ => rfl
      | _ => rfl

theorem step_relabel (hρ : ρ.Steps 0) (control : Control) (stack : List Frame)
    (c : Cursor) :
    step (control.relabel ρ) (stack.map (Frame.relabel ρ)) (c.relabel ρ) =
      (step control stack c).relabel ρ := by
  cases control with
  | read rank =>
    cases rank with
    | assignment | level => rfl
    | operand => exact readOperand_relabel hρ stack c
  | built e =>
    cases stack with
    | nil => rfl
    | cons frame stack => exact resume_relabel hρ e frame stack c

/-- Reading on from other labels gives the same with other labels. -/
theorem readFrom_relabel (hρ : ρ.Steps 0) (control : Control)
    (stack : List Frame) (c : Cursor) :
    readFrom (control.relabel ρ) (stack.map (Frame.relabel ρ)) (c.relabel ρ) =
      Reader.relabelResult ρ (Expr.relabel ρ) (readFrom control stack c) := by
  fun_induction readFrom control stack c with
  | case1 control stack c control' stack' c' hstep ih =>
    have hstep' := step_relabel hρ control stack c
    rw [hstep] at hstep'
    rw [readFrom_next hstep', ih]
  | case2 control stack c e c' hstep =>
    have hstep' := step_relabel hρ control stack c
    rw [hstep] at hstep'
    rw [readFrom_done hstep']
    rfl
  | case3 control stack c d c' hstep =>
    have hstep' := step_relabel hρ control stack c
    rw [hstep] at hstep'
    rw [readFrom_stop hstep']
    rfl

theorem respects_read (hρ : ρ.Steps 0) :
    Reader.Respects ρ (Expr.relabel ρ) read read :=
  fun c => readFrom_relabel hρ (.read .assignment) [] c

end Expr

end Lox
