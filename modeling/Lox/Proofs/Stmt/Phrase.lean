import Lox.Proofs.Stmt.Parts

/-!
# The phrases of a program

`Reads n phrase tokens n'` says what the reader of programs reads when it
finds no fault: the tokens, the tree they are read as, and the ids that are
used up on the way.  Lists of declarations and of members grow at their end,
as they do in the reader.

An `else` belongs to the nearest `if` that has none.  A statement is *open*
if an `else` behind it would be read as a part of it; the flag of a phrase
says so, and the branch before an `else` must not be open.
-/

namespace Lox.Stmt

/-- What is read: declarations, one declaration, a statement, or the members
of a class.  The flag says whether an `else` could still be added. -/
inductive Phrase where
  | declarations (list : List Stmt)
  | declaration (isOpen : Bool) (s : Stmt)
  | statement (isOpen : Bool) (s : Stmt)
  | members (list : List FunctionDecl)

/-- The header of a member: that of a method or getter, or `class` and that
of a static method. -/
inductive ReadsMemberHeader : Header → List Token → Prop where
  | method {header w} (h : ReadsHeader .method header w) :
      ReadsMemberHeader header w
  | static {header w l} (h : ReadsHeader .static header w) :
      ReadsMemberHeader header (⟨.keyword .kwClass, l⟩ :: w)

/-- The declaration that a header and a body make. -/
def Header.withBody (header : Header) (body : List Stmt) : FunctionDecl :=
  ⟨header.name, header.params, body, header.kind⟩

/-- The phrase is read from the tokens, with the ids from the first number up
to the second. -/
inductive Reads : Nat → Phrase → List Token → Nat → Prop where
  | nil {n} : Reads n (.declarations []) [] n
  | snoc {n list w n' o s w' n''} (earlier : Reads n (.declarations list) w n')
      (last : Reads n' (.declaration o s) w' n'') :
      Reads n (.declarations (list ++ [s])) (w ++ w') n''
  | statement {n o s w n'} (inner : Reads n (.statement o s) w n') :
      Reads n (.declaration o s) w n'
  | var {n s w n' l} (h : ReadsVar n s w n') :
      Reads n (.declaration false s) (⟨.keyword .kwVar, l⟩ :: w) n'
  | function {n header w list w' n' l l'} (head : ReadsHeader .function header w)
      (body : Reads n (.declarations list) w' n') :
      Reads n (.declaration false (.function (header.withBody list)))
        (⟨.keyword .kwFun, l⟩ :: (w ++ (w' ++ [⟨.symbol .rightBrace, l'⟩]))) n'
  | class {n head w n' list w' n'' l l'} (h : ReadsClassHead n head w n')
      (members : Reads n' (.members list) w' n'') :
      Reads n (.declaration false (.class ⟨head.name, head.superclass, list⟩))
        (⟨.keyword .kwClass, l⟩ :: (w ++ (w' ++ [⟨.symbol .rightBrace, l'⟩])))
        n''
  | noMember {n} : Reads n (.members []) [] n
  | member {n list w n' header w₁ body w₂ n'' l}
      (earlier : Reads n (.members list) w n')
      (head : ReadsMemberHeader header w₁)
      (inner : Reads n' (.declarations body) w₂ n'') :
      Reads n (.members (list ++ [header.withBody body]))
        (w ++ (w₁ ++ (w₂ ++ [⟨.symbol .rightBrace, l⟩]))) n''
  | expression {n s w n'} (h : ReadsExpression .expression n s w n') :
      Reads n (.statement false s) w n'
  | print {n s w n' l} (h : ReadsExpression .print n s w n') :
      Reads n (.statement false s) (⟨.keyword .kwPrint, l⟩ :: w) n'
  | return {n line s w n'} (h : ReadsReturn line n s w n') :
      Reads n (.statement false s) (⟨.keyword .kwReturn, line⟩ :: w) n'
  | block {n list w n' l l'} (body : Reads n (.declarations list) w n') :
      Reads n (.statement false (.block list))
        (⟨.symbol .leftBrace, l⟩ :: (w ++ [⟨.symbol .rightBrace, l'⟩])) n'
  | ifThen {n condition w n₁ o s w' n₂ l}
      (h : ReadsCondition n condition w n₁)
      (thenBranch : Reads n₁ (.statement o s) w' n₂) :
      Reads n (.statement true (.ifElse condition s none))
        (⟨.keyword .kwIf, l⟩ :: (w ++ w')) n₂
  | ifElse {n condition w n₁ s w₁ n₂ o s' w₂ n₃ l l'}
      (h : ReadsCondition n condition w n₁)
      (thenBranch : Reads n₁ (.statement false s) w₁ n₂)
      (elseBranch : Reads n₂ (.statement o s') w₂ n₃) :
      Reads n (.statement o (.ifElse condition s (some s')))
        (⟨.keyword .kwIf, l⟩ ::
          (w ++ (w₁ ++ ⟨.keyword .kwElse, l'⟩ :: w₂))) n₃
  | while {n condition w n₁ o s w' n₂ l} (h : ReadsCondition n condition w n₁)
      (body : Reads n₁ (.statement o s) w' n₂) :
      Reads n (.statement o (.while condition s))
        (⟨.keyword .kwWhile, l⟩ :: (w ++ w')) n₂
  | for {n clauses w n₁ o s w' n₂ l} (h : ReadsForClauses n clauses w n₁)
      (body : Reads n₁ (.statement o s) w' n₂) :
      Reads n (.statement o (clauses.loop s))
        (⟨.keyword .kwFor, l⟩ :: (w ++ w')) n₂

/-! ## Where a phrase starts -/

/-- Whether a token can start a statement that is no declaration. -/
def startsPlain (kind : Token.Kind) : Bool :=
  match kind with
  | .keyword .kwFor => true
  | .keyword .kwIf => true
  | .keyword .kwWhile => true
  | .keyword .kwPrint => true
  | .keyword .kwReturn => true
  | .symbol .leftBrace => true
  | _ => Expr.startsExpr kind

/-- Whether a token can start a declaration. -/
def startsDeclaration (kind : Token.Kind) : Bool :=
  match kind with
  | .keyword .kwClass => true
  | .keyword .kwFun => true
  | .keyword .kwVar => true
  | _ => startsPlain kind

theorem startsPlain_of_startsExpr {kind : Token.Kind}
    (h : Expr.startsExpr kind = true) : startsPlain kind = true := by
  unfold startsPlain
  split <;> first | rfl | exact h

theorem startsDeclaration_of_startsPlain {kind : Token.Kind}
    (h : startsPlain kind = true) : startsDeclaration kind = true := by
  unfold startsDeclaration
  split <;> first | rfl | exact h

theorem ReadsExpression.head {build : Expr → Stmt} {n n' : Nat} {s : Stmt}
    {w : List Token} (h : ReadsExpression build n s w n') :
    ∃ t w', w = t :: w' ∧ Expr.startsExpr t.kind = true := by
  cases h with
  | intro h =>
    obtain ⟨t, w', rfl, ht⟩ := h.head
    exact ⟨t, _, rfl, ht⟩

/-- The phrase is a list, or it is not empty and its first token can start
it. -/
def Phrase.Starts (w : List Token) : Phrase → Prop
  | .statement _ _ => ∃ t w', w = t :: w' ∧ startsPlain t.kind = true
  | .declaration _ _ => ∃ t w', w = t :: w' ∧ startsDeclaration t.kind = true
  | .declarations _ | .members _ => True

theorem Reads.starts {n n' : Nat} {phrase : Phrase} {w : List Token}
    (h : Reads n phrase w n') : phrase.Starts w := by
  induction h with
  | nil | snoc | noMember | member => trivial
  | var | function | «class» | print | «return» | block | ifThen | ifElse
  | «while» | «for» => exact ⟨_, _, rfl, rfl⟩
  | expression h =>
    obtain ⟨t, w', rfl, ht⟩ := h.head
    exact ⟨t, w', rfl, startsPlain_of_startsExpr ht⟩
  | statement inner ih =>
    obtain ⟨t, w', rfl, ht⟩ := ih
    exact ⟨t, w', rfl, startsDeclaration_of_startsPlain ht⟩

/-- Whether `else` comes next. -/
def elseComes (rest : List Token) : Prop :=
  Reader.keywordComes .kwElse rest

theorem not_elseComes_of_starts {t : Token} {rest : List Token}
    (h : startsDeclaration t.kind = true) : ¬ elseComes (t :: rest) := by
  rintro ⟨l, rest', heq⟩
  cases heq
  cases h

theorem isRightBrace_of_starts {kind : Token.Kind}
    (h : startsDeclaration kind = true) : isRightBrace kind = false := by
  cases hbrace : isRightBrace kind with
  | false => rfl
  | true =>
    unfold isRightBrace at hbrace
    split at hbrace
    · cases h
    · cases hbrace

theorem not_elseComes_symbol (s : Symbol) (l : Nat) (rest : List Token) :
    ¬ elseComes (⟨.symbol s, l⟩ :: rest) := by
  rintro ⟨l', rest', heq⟩
  cases heq

/-- Declarations can be read one list after another. -/
theorem Reads.append {n n' n'' : Nat} {list list' : List Stmt}
    {w w' : List Token} (h : Reads n (.declarations list) w n')
    (h' : Reads n' (.declarations list') w' n'') :
    Reads n (.declarations (list ++ list')) (w ++ w') n'' := by
  generalize hphrase : Phrase.declarations list' = phrase at h'
  induction h' generalizing list' with
  | nil =>
    cases hphrase
    rw [List.append_nil, List.append_nil]
    exact h
  | snoc earlier last ih =>
    cases hphrase
    rw [← List.append_assoc, ← List.append_assoc]
    exact .snoc (ih h rfl) last
  | _ => cases hphrase

end Lox.Stmt
