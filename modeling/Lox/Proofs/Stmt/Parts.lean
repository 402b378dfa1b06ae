import Lox.Proofs.Expr.Reading
import Lox.Stmt.Parser

/-!
# The parts of a statement

Readers of the parts of a statement that hold no statements themselves: a
variable declaration behind its keyword, the clauses of a `for` loop, the
header of a function, the head of a class.  For each there is a relation that
says which tokens it reads without a fault and as what, with the ids used up
on the way, and a proof that the reader follows it.

Every part ends in a token of its own, so a reader that follows its relation
does so whatever comes behind.  `Reader.Follows` says this once for all of
them: what the relation allows is read, and what is read without a fault is
what the relation allows.
-/

namespace Lox

/-! ## Readers -/

namespace Reader

/-- The reader reads what the relation allows, and without a fault nothing
else.  The numbers are the first free id before and after. -/
structure Follows {α : Type} (p : Reader α)
    (R : Nat → α → List Token → Nat → Prop) : Prop where
  run : ∀ {n a w n'}, R n a w n' → ∀ rest endLine noted,
    p ⟨w ++ rest, endLine, n, noted⟩ = .ok a ⟨rest, endLine, n', noted⟩
  inv : ∀ {c a c'}, p c = .ok a c' → c'.noted = [] →
    c.noted = [] ∧ ∃ w, c.rest = w ++ c'.rest ∧ R c.nextId a w c'.nextId

variable {α β : Type} {c c' : Cursor}

theorem bind_eq_ok {p : Reader α} {q : α → Reader β} {b : β} :
    (p >>= q) c = .ok b c' ↔ ∃ a c₁, p c = .ok a c₁ ∧ q a c₁ = .ok b c' := by
  change EStateM.bind p q c = .ok b c' ↔ _
  unfold EStateM.bind
  cases p c with
  | error d c₁ => simp
  | ok a c₁ =>
    constructor
    · intro h
      exact ⟨a, c₁, rfl, h⟩
    · rintro ⟨a', c', h, hq⟩
      cases h
      exact hq

theorem pure_eq_ok {a b : α} :
    (pure a : Reader α) c = .ok b c' ↔ a = b ∧ c = c' := by
  change EStateM.Result.ok a c = .ok b c' ↔ _
  simp

theorem expect_eq_ok {s : Symbol} {f : ParseFault} :
    expect s f c = .ok () c' ↔
      ∃ l rest, c.rest = ⟨.symbol s, l⟩ :: rest ∧ c' = c.moveTo rest := by
  unfold expect
  split
  · next t l rest hrest =>
    split
    · next ht =>
      subst ht
      constructor
      · rintro h
        cases h
        exact ⟨l, rest, hrest, rfl⟩
      · rintro ⟨l', rest', h, rfl⟩
        rw [hrest] at h
        cases h
        rfl
    · next ht => simp [hrest, ht]
  · next hrest =>
    simp only [reduceCtorEq, false_iff]
    rintro ⟨l, rest, h, -⟩
    exact hrest _ _ _ h

theorem expect_bind_eq_ok {s : Symbol} {f : ParseFault} {q : Unit → Reader β}
    {b : β} :
    (expect s f >>= q) c = .ok b c' ↔
      ∃ l rest, c.rest = ⟨.symbol s, l⟩ :: rest ∧
        q () (c.moveTo rest) = .ok b c' := by
  rw [bind_eq_ok]
  constructor
  · rintro ⟨⟨⟩, c₁, hexpect, h⟩
    obtain ⟨l, rest, hrest, rfl⟩ := expect_eq_ok.1 hexpect
    exact ⟨l, rest, hrest, h⟩
  · rintro ⟨l, rest, hrest, h⟩
    exact ⟨(), _, expect_eq_ok.2 ⟨l, rest, hrest, rfl⟩, h⟩

theorem name_eq_ok {f : ParseFault} {x : Ident} :
    name f c = .ok x c' ↔
      ∃ rest, c.rest = ⟨.identifier x.name, x.line⟩ :: rest ∧
        c' = c.moveTo rest := by
  unfold name
  split
  · next y l rest hrest =>
    rcases x with ⟨x, line⟩
    simp only [EStateM.Result.ok.injEq, Ident.mk.injEq, hrest, List.cons.injEq,
      Token.mk.injEq, Token.Kind.identifier.injEq]
    constructor
    · rintro ⟨⟨rfl, rfl⟩, rfl⟩
      exact ⟨rest, ⟨⟨rfl, rfl⟩, rfl⟩, rfl⟩
    · rintro ⟨rest', ⟨⟨rfl, rfl⟩, rfl⟩, rfl⟩
      exact ⟨⟨rfl, rfl⟩, rfl⟩
  · next hrest =>
    simp only [reduceCtorEq, false_iff]
    rintro ⟨rest, h, -⟩
    exact hrest _ _ _ h

/-- Whether the symbol `s` comes next. -/
def comes (s : Symbol) (rest : List Token) : Prop :=
  ∃ l rest', rest = ⟨.symbol s, l⟩ :: rest'

theorem comes_cons {s : Symbol} {t : Token} {rest : List Token} :
    comes s (t :: rest) ↔ t.kind = .symbol s := by
  constructor
  · rintro ⟨l, rest', h⟩
    cases h
    rfl
  · intro h
    rcases t with ⟨kind, l⟩
    cases h
    exact ⟨l, rest, rfl⟩

theorem accept_eq_true {s : Symbol} :
    accept s c = .ok true c' ↔
      ∃ l rest, c.rest = ⟨.symbol s, l⟩ :: rest ∧ c' = c.moveTo rest := by
  unfold accept
  split
  · next t l rest hrest =>
    split
    · next ht =>
      subst ht
      constructor
      · rintro h
        cases h
        exact ⟨l, rest, hrest, rfl⟩
      · rintro ⟨l', rest', h, rfl⟩
        rw [hrest] at h
        cases h
        rfl
    · next ht => simp [hrest, ht]
  · next hrest =>
    simp only [EStateM.Result.ok.injEq, Bool.false_eq_true, false_and,
      false_iff]
    rintro ⟨l, rest, h, -⟩
    exact hrest _ _ _ h

theorem accept_eq_false {s : Symbol} :
    accept s c = .ok false c' ↔ ¬ comes s c.rest ∧ c' = c := by
  unfold accept
  split
  · next t l rest hrest =>
    rw [hrest, comes_cons]
    split
    · next ht => simp [ht]
    · next ht => simpa [ht] using eq_comm
  · next hrest =>
    have hnot : ¬ comes s c.rest := by
      rintro ⟨l, rest, h⟩
      exact hrest _ _ _ h
    simpa [hnot] using eq_comm

theorem ahead_eq_ok {s : Symbol} {b : Bool} :
    ahead s c = .ok b c' ↔ (b = true ↔ comes s c.rest) ∧ c' = c := by
  unfold ahead
  split
  · next t l rest hrest =>
    rw [hrest, comes_cons]
    cases b <;> simp [eq_comm]
  · next hrest =>
    have hnot : ¬ comes s c.rest := by
      rintro ⟨l, rest, h⟩
      exact hrest _ _ _ h
    cases b <;> simp [hnot, eq_comm]

/-- Whether the keyword `k` comes next. -/
def keywordComes (k : Keyword) (rest : List Token) : Prop :=
  ∃ l rest', rest = ⟨.keyword k, l⟩ :: rest'

theorem acceptKeyword_eq_true {k : Keyword} :
    acceptKeyword k c = .ok true c' ↔
      ∃ l rest, c.rest = ⟨.keyword k, l⟩ :: rest ∧ c' = c.moveTo rest := by
  unfold acceptKeyword
  split
  · next t l rest hrest =>
    split
    · next ht =>
      subst ht
      constructor
      · rintro h
        cases h
        exact ⟨l, rest, hrest, rfl⟩
      · rintro ⟨l', rest', h, rfl⟩
        rw [hrest] at h
        cases h
        rfl
    · next ht => simp [hrest, ht]
  · next hrest =>
    simp only [EStateM.Result.ok.injEq, Bool.false_eq_true, false_and,
      false_iff]
    rintro ⟨l, rest, h, -⟩
    exact hrest _ _ _ h

theorem acceptKeyword_eq_false {k : Keyword} :
    acceptKeyword k c = .ok false c' ↔ ¬ keywordComes k c.rest ∧ c' = c := by
  unfold acceptKeyword
  split
  · next t l rest hrest =>
    split
    · next ht =>
      have hcomes : keywordComes k c.rest := ⟨l, rest, ht ▸ hrest⟩
      simp [hcomes]
    · next ht =>
      have hnot : ¬ keywordComes k c.rest := by
        rintro ⟨l', rest', h⟩
        rw [hrest] at h
        cases h
        exact ht rfl
      simpa [hnot] using eq_comm
  · next hrest =>
    have hnot : ¬ keywordComes k c.rest := by
      rintro ⟨l, rest, h⟩
      exact hrest _ _ _ h
    simpa [hnot] using eq_comm

end Reader

namespace Stmt

/-! ## Expressions in statements -/

/-- A place that takes an expression or nothing. -/
inductive ReadsOption : Nat → Option Expr → List Token → Nat → Prop where
  | none {n} : ReadsOption n none [] n
  | some {n e w n'} (h : Expr.Reads n (.expr (.rank .assignment) e) w n') :
      ReadsOption n (some e) w n'

/-- A symbol that an expression can neither go on with nor start with. -/
def isDelimiter (s : Symbol) : Prop :=
  Expr.Rank.assignment.continues (.symbol s) = false ∧
    Expr.startsExpr (.symbol s) = false

theorem read_delimited {n n' : Nat} {e : Expr} {w : List Token} {s : Symbol}
    (h : Expr.Reads n (.expr (.rank .assignment) e) w n') (hs : isDelimiter s)
    (l : Nat) (rest : List Token) (endLine : Nat) (noted : List Diagnostic) :
    Expr.read ⟨w ++ ⟨.symbol s, l⟩ :: rest, endLine, n, noted⟩ =
      .ok e ⟨⟨.symbol s, l⟩ :: rest, endLine, n', noted⟩ :=
  Expr.read_of_reads h (Expr.Rank.stops_cons.2 hs.1) endLine noted

theorem not_comes_of_reads {n n' : Nat} {phrase : Expr.Phrase}
    {w : List Token} {s : Symbol} (h : Expr.Reads n phrase w n')
    (hs : isDelimiter s) (rest : List Token) :
    ¬ Reader.comes s (w ++ rest) := by
  obtain ⟨t, w', rfl, ht⟩ := h.head
  rw [List.cons_append, Reader.comes_cons]
  intro hkind
  rw [hkind, hs.2] at ht
  cases ht

theorem readUnless_run {n n' : Nat} {v : Option Expr} {w : List Token}
    {s : Symbol} (h : ReadsOption n v w n') (hs : isDelimiter s) (l : Nat)
    (rest : List Token) (endLine : Nat) (noted : List Diagnostic) :
    readUnless s ⟨w ++ ⟨.symbol s, l⟩ :: rest, endLine, n, noted⟩ =
      .ok v ⟨⟨.symbol s, l⟩ :: rest, endLine, n', noted⟩ := by
  unfold readUnless
  rw [Reader.bind_eq_ok]
  cases h with
  | none =>
    refine ⟨true, _, Reader.ahead_eq_ok.2 ⟨?_, rfl⟩, rfl⟩
    simp [Reader.comes_cons]
  | some h =>
    refine ⟨false, _, Reader.ahead_eq_ok.2 ⟨?_, rfl⟩, ?_⟩
    · simpa using not_comes_of_reads h hs _
    · simp only [Bool.false_eq_true, if_false]
      exact Reader.bind_eq_ok.2
        ⟨_, _, read_delimited h hs l rest endLine noted, rfl⟩

theorem readUnless_inv {s : Symbol} {c c' : Cursor} {v : Option Expr}
    (h : readUnless s c = .ok v c') (hnoted : c'.noted = []) :
    c.noted = [] ∧ ∃ w, c.rest = w ++ c'.rest ∧
      ReadsOption c.nextId v w c'.nextId := by
  obtain ⟨b, c₁, hb, h⟩ := Reader.bind_eq_ok.1 h
  obtain ⟨-, rfl⟩ := Reader.ahead_eq_ok.1 hb
  cases b with
  | true =>
    obtain ⟨rfl, rfl⟩ := Reader.pure_eq_ok.1 h
    exact ⟨hnoted, [], rfl, .none⟩
  | false =>
    obtain ⟨e, c₂, he, h⟩ := Reader.bind_eq_ok.1 h
    obtain ⟨rfl, rfl⟩ := Reader.pure_eq_ok.1 h
    obtain ⟨hnoted', w, hw, hreads⟩ := Expr.reads_of_read he hnoted
    exact ⟨hnoted', w, hw, .some hreads⟩

theorem isDelimiter_semicolon : isDelimiter .semicolon := ⟨rfl, rfl⟩

theorem isDelimiter_rightParen : isDelimiter .rightParen := ⟨rfl, rfl⟩

/-! ## Parts -/

/-- A variable declaration, from behind `var`. -/
inductive ReadsVar : Nat → Stmt → List Token → Nat → Prop where
  | plain {n x line l} :
      ReadsVar n (.var ⟨x, line⟩ none)
        [⟨.identifier x, line⟩, ⟨.symbol .semicolon, l⟩] n
  | initialized {n x line l e w n' l'}
      (value : Expr.Reads n (.expr (.rank .assignment) e) w n') :
      ReadsVar n (.var ⟨x, line⟩ (some e))
        (⟨.identifier x, line⟩ :: ⟨.symbol .equal, l⟩ ::
          (w ++ [⟨.symbol .semicolon, l'⟩])) n'

/-- An expression and its semicolon. -/
inductive ReadsExpression (build : Expr → Stmt) :
    Nat → Stmt → List Token → Nat → Prop where
  | intro {n e w n' l} (h : Expr.Reads n (.expr (.rank .assignment) e) w n') :
      ReadsExpression build n (build e) (w ++ [⟨.symbol .semicolon, l⟩]) n'

/-- A `return` statement on a line, from behind its keyword. -/
inductive ReadsReturn (line : Nat) : Nat → Stmt → List Token → Nat → Prop where
  | intro {n v w n' l} (h : ReadsOption n v w n') :
      ReadsReturn line n (.return line v) (w ++ [⟨.symbol .semicolon, l⟩]) n'

/-- A condition in parentheses. -/
inductive ReadsCondition : Nat → Expr → List Token → Nat → Prop where
  | intro {n e w n' l l'} (h : Expr.Reads n (.expr (.rank .assignment) e) w n') :
      ReadsCondition n e
        (⟨.symbol .leftParen, l⟩ :: (w ++ [⟨.symbol .rightParen, l'⟩])) n'

/-- The first clause of a `for` loop with its semicolon. -/
inductive ReadsForInitializer :
    Nat → Option Stmt → List Token → Nat → Prop where
  | none {n l} : ReadsForInitializer n none [⟨.symbol .semicolon, l⟩] n
  | var {n s w n' l} (h : ReadsVar n s w n') :
      ReadsForInitializer n (some s) (⟨.keyword .kwVar, l⟩ :: w) n'
  | expression {n s w n'} (h : ReadsExpression .expression n s w n') :
      ReadsForInitializer n (some s) w n'

/-- The clauses of a `for` loop with their parentheses. -/
inductive ReadsForClauses : Nat → ForClauses → List Token → Nat → Prop where
  | intro {n initializer w n₁ condition w₁ n₂ increment w₂ n₃ l l' l''}
      (first : ReadsForInitializer n initializer w n₁)
      (second : ReadsOption n₁ condition w₁ n₂)
      (third : ReadsOption n₂ increment w₂ n₃) :
      ReadsForClauses n ⟨initializer, condition, increment⟩
        (⟨.symbol .leftParen, l⟩ :: (w ++ (w₁ ++ ⟨.symbol .semicolon, l'⟩ ::
          (w₂ ++ [⟨.symbol .rightParen, l''⟩])))) n₃

/-- One or more parameters. -/
inductive ReadsParams : List Ident → List Token → Prop where
  | one {x line} : ReadsParams [⟨x, line⟩] [⟨.identifier x, line⟩]
  | more {x line l params w} (rest : ReadsParams params w) :
      ReadsParams (⟨x, line⟩ :: params)
        (⟨.identifier x, line⟩ :: ⟨.symbol .comma, l⟩ :: w)

/-- A function declaration up to the brace that opens its body. -/
inductive ReadsHeader (kind : FunctionKind) : Header → List Token → Prop where
  | getter {x line l} (h : kind = .method) :
      ReadsHeader kind ⟨⟨x, line⟩, [], .getter⟩
        [⟨.identifier x, line⟩, ⟨.symbol .leftBrace, l⟩]
  | empty {x line l l' l''} :
      ReadsHeader kind ⟨⟨x, line⟩, [], kind⟩
        [⟨.identifier x, line⟩, ⟨.symbol .leftParen, l⟩,
          ⟨.symbol .rightParen, l'⟩, ⟨.symbol .leftBrace, l''⟩]
  | params {x line l params w l' l''} (list : ReadsParams params w)
      (room : params.length ≤ maxArity) :
      ReadsHeader kind ⟨⟨x, line⟩, params, kind⟩
        (⟨.identifier x, line⟩ :: ⟨.symbol .leftParen, l⟩ ::
          (w ++ [⟨.symbol .rightParen, l'⟩, ⟨.symbol .leftBrace, l''⟩]))

/-- A class declaration, from behind `class` up to the brace that opens its
body. -/
inductive ReadsClassHead : Nat → ClassHead → List Token → Nat → Prop where
  | base {n x line l} :
      ReadsClassHead n ⟨⟨x, line⟩, none⟩
        [⟨.identifier x, line⟩, ⟨.symbol .leftBrace, l⟩] n
  | derived {n x line l parent line' l'} :
      ReadsClassHead n ⟨⟨x, line⟩, some ⟨n, parent, line'⟩⟩
        [⟨.identifier x, line⟩, ⟨.symbol .less, l⟩,
          ⟨.identifier parent, line'⟩, ⟨.symbol .leftBrace, l'⟩] (n + 1)

/-! ## Readers follow their parts -/

theorem name_run (f : ParseFault) (x : String) (l : Nat) (rest : List Token)
    (endLine n : Nat) (noted : List Diagnostic) :
    Reader.name f ⟨⟨.identifier x, l⟩ :: rest, endLine, n, noted⟩ =
      .ok ⟨x, l⟩ ⟨rest, endLine, n, noted⟩ :=
  Reader.name_eq_ok.2 ⟨rest, rfl, rfl⟩

/-- An expression and its semicolon, with any fault for a missing one. -/
theorem follows_expression (build : Expr → Stmt) (f : ParseFault) :
    Reader.Follows (do
      let e ← Expr.read
      Reader.expect .semicolon f
      return build e) (ReadsExpression build) := by
  constructor
  · rintro n a w n' ⟨h⟩ rest endLine noted
    rw [List.append_assoc]
    exact Reader.bind_eq_ok.2 ⟨_, _,
      read_delimited h isDelimiter_semicolon _ rest endLine noted,
      Reader.expect_bind_eq_ok.2 ⟨_, _, rfl, rfl⟩⟩
  · intro c a c' h hnoted
    obtain ⟨e, c₁, he, h⟩ := Reader.bind_eq_ok.1 h
    obtain ⟨l, rest, hrest, h⟩ := Reader.expect_bind_eq_ok.1 h
    obtain ⟨rfl, rfl⟩ := Reader.pure_eq_ok.1 h
    obtain ⟨hnoted', w, hw, hreads⟩ := Expr.reads_of_read he hnoted
    refine ⟨hnoted', _, ?_, .intro (l := l) hreads⟩
    rw [hw, hrest, List.append_assoc]
    rfl

theorem follows_readExpression :
    Reader.Follows readExpression (ReadsExpression .expression) :=
  follows_expression .expression .expressionEnd

theorem follows_readPrint :
    Reader.Follows readPrint (ReadsExpression .print) :=
  follows_expression .print .printEnd

theorem follows_readVar : Reader.Follows readVar ReadsVar := by
  constructor
  · rintro n a w n' h rest endLine noted
    cases h with
    | @plain x line l =>
      refine Reader.bind_eq_ok.2 ⟨_, _, name_run .., ?_⟩
      refine Reader.bind_eq_ok.2
        ⟨none, ⟨⟨.symbol .semicolon, l⟩ :: rest, endLine, n, noted⟩, ?_, ?_⟩
      · refine Reader.bind_eq_ok.2 ⟨false, _, Reader.accept_eq_false.2 ⟨?_, rfl⟩,
          rfl⟩
        simp [Reader.comes]
      · exact Reader.expect_bind_eq_ok.2 ⟨_, _, rfl, rfl⟩
    | @initialized x line l e w _ l' value =>
      rw [List.cons_append, List.cons_append, List.append_assoc]
      refine Reader.bind_eq_ok.2 ⟨_, _, name_run .., ?_⟩
      refine Reader.bind_eq_ok.2
        ⟨some e, ⟨⟨.symbol .semicolon, l'⟩ :: rest, endLine, n', noted⟩, ?_, ?_⟩
      · refine Reader.bind_eq_ok.2 ⟨true, _,
          Reader.accept_eq_true.2 ⟨_, _, rfl, rfl⟩, ?_⟩
        exact Reader.bind_eq_ok.2 ⟨_, _,
          read_delimited value isDelimiter_semicolon _ rest endLine noted, rfl⟩
      · exact Reader.expect_bind_eq_ok.2 ⟨_, _, rfl, rfl⟩
  · intro c a c' h hnoted
    obtain ⟨⟨x, line⟩, c₁, hname, h⟩ := Reader.bind_eq_ok.1 h
    obtain ⟨rest₁, hrest₁, rfl⟩ := Reader.name_eq_ok.1 hname
    obtain ⟨v, c₂, hv, h⟩ := Reader.bind_eq_ok.1 h
    obtain ⟨l, rest, hrest, h⟩ := Reader.expect_bind_eq_ok.1 h
    obtain ⟨rfl, rfl⟩ := Reader.pure_eq_ok.1 h
    obtain ⟨b, c₃, hb, hv⟩ := Reader.bind_eq_ok.1 hv
    cases b with
    | false =>
      obtain ⟨-, rfl⟩ := Reader.accept_eq_false.1 hb
      obtain ⟨rfl, rfl⟩ := Reader.pure_eq_ok.1 hv
      refine ⟨hnoted, _, ?_, .plain (l := l)⟩
      rw [hrest₁]
      rw [Cursor.rest_moveTo] at hrest
      rw [hrest]
      rfl
    | true =>
      obtain ⟨l', rest', hrest', rfl⟩ := Reader.accept_eq_true.1 hb
      obtain ⟨e, c₄, he, hv⟩ := Reader.bind_eq_ok.1 hv
      obtain ⟨rfl, rfl⟩ := Reader.pure_eq_ok.1 hv
      obtain ⟨hnoted', w, hw, hreads⟩ := Expr.reads_of_read he hnoted
      rw [Cursor.rest_moveTo] at hrest' hw
      refine ⟨hnoted', ⟨.identifier x, line⟩ :: ⟨.symbol .equal, l'⟩ ::
        (w ++ [⟨.symbol .semicolon, l⟩]), ?_, ?_⟩
      · rw [hrest₁, hrest', hw, hrest]
        simp
      · exact .initialized hreads

theorem follows_readReturn (line : Nat) :
    Reader.Follows (readReturn line) (ReadsReturn line) := by
  constructor
  · rintro n a w n' ⟨h⟩ rest endLine noted
    rw [List.append_assoc]
    exact Reader.bind_eq_ok.2 ⟨_, _,
      readUnless_run h isDelimiter_semicolon _ rest endLine noted,
      Reader.expect_bind_eq_ok.2 ⟨_, _, rfl, rfl⟩⟩
  · intro c a c' h hnoted
    obtain ⟨v, c₁, hv, h⟩ := Reader.bind_eq_ok.1 h
    obtain ⟨l, rest, hrest, h⟩ := Reader.expect_bind_eq_ok.1 h
    obtain ⟨rfl, rfl⟩ := Reader.pure_eq_ok.1 h
    obtain ⟨hnoted', w, hw, hreads⟩ := readUnless_inv hv hnoted
    refine ⟨hnoted', _, ?_, .intro (l := l) hreads⟩
    rw [hw, hrest, List.append_assoc]
    rfl

theorem follows_readCondition (opening closing : ParseFault) :
    Reader.Follows (readCondition opening closing) ReadsCondition := by
  constructor
  · rintro n a w n' ⟨h⟩ rest endLine noted
    rw [List.cons_append, List.append_assoc]
    exact Reader.expect_bind_eq_ok.2 ⟨_, _, rfl, Reader.bind_eq_ok.2 ⟨_, _,
      read_delimited h isDelimiter_rightParen _ rest endLine noted,
      Reader.expect_bind_eq_ok.2 ⟨_, _, rfl, rfl⟩⟩⟩
  · intro c a c' h hnoted
    obtain ⟨l, rest, hrest, h⟩ := Reader.expect_bind_eq_ok.1 h
    obtain ⟨e, c₁, he, h⟩ := Reader.bind_eq_ok.1 h
    obtain ⟨l', rest', hrest', h⟩ := Reader.expect_bind_eq_ok.1 h
    obtain ⟨rfl, rfl⟩ := Reader.pure_eq_ok.1 h
    obtain ⟨hnoted', w, hw, hreads⟩ := Expr.reads_of_read he hnoted
    rw [Cursor.rest_moveTo] at hw
    refine ⟨hnoted', ⟨.symbol .leftParen, l⟩ ::
      (w ++ [⟨.symbol .rightParen, l'⟩]), ?_, ?_⟩
    · rw [hrest, hw, hrest']
      simp
    · exact .intro hreads

theorem follows_readForInitializer :
    Reader.Follows readForInitializer ReadsForInitializer := by
  constructor
  · rintro n a w n' h rest endLine noted
    cases h with
    | none =>
      exact Reader.bind_eq_ok.2 ⟨true, _,
        Reader.accept_eq_true.2 ⟨_, _, rfl, rfl⟩, rfl⟩
    | var h =>
      rw [List.cons_append]
      refine Reader.bind_eq_ok.2 ⟨false, _,
        Reader.accept_eq_false.2 ⟨by simp [Reader.comes], rfl⟩, ?_⟩
      refine Reader.bind_eq_ok.2 ⟨true, _,
        Reader.acceptKeyword_eq_true.2 ⟨_, _, rfl, rfl⟩, ?_⟩
      exact Reader.bind_eq_ok.2 ⟨_, _,
        follows_readVar.run h rest endLine noted, rfl⟩
    | expression h =>
      have hrun := follows_readExpression.run h rest endLine noted
      cases h with
      | @intro e w _ l h =>
        refine Reader.bind_eq_ok.2 ⟨false, _, Reader.accept_eq_false.2
          ⟨?_, rfl⟩, Reader.bind_eq_ok.2 ⟨false, _,
            Reader.acceptKeyword_eq_false.2 ⟨?_, rfl⟩,
            Reader.bind_eq_ok.2 ⟨_, _, hrun, rfl⟩⟩⟩
        · rw [List.append_assoc]
          exact not_comes_of_reads h isDelimiter_semicolon _
        · obtain ⟨t, w', rfl, ht⟩ := h.head
          rintro ⟨l, rest', heq⟩
          cases heq
          cases ht
  · intro c a c' hread hnoted
    obtain ⟨b, c₁, hb, h⟩ := Reader.bind_eq_ok.1 hread
    cases b with
    | true =>
      obtain ⟨l, rest, hrest, rfl⟩ := Reader.accept_eq_true.1 hb
      obtain ⟨rfl, rfl⟩ := Reader.pure_eq_ok.1 h
      exact ⟨hnoted, [⟨.symbol .semicolon, l⟩], hrest, .none⟩
    | false =>
      obtain ⟨-, rfl⟩ := Reader.accept_eq_false.1 hb
      simp only [Bool.false_eq_true, if_false] at h
      obtain ⟨b, c₂, hb', hstmt⟩ := Reader.bind_eq_ok.1 h
      obtain ⟨s, c₃, hs, h⟩ : ∃ s c₃, (if b = true then readVar
          else readExpression) c₂ = .ok s c₃ ∧ some s = a ∧ c₃ = c' := by
        cases b <;> obtain ⟨s, c₃, hs, h⟩ := Reader.bind_eq_ok.1 hstmt <;>
          exact ⟨s, c₃, hs, Reader.pure_eq_ok.1 h⟩
      obtain ⟨rfl, rfl⟩ := h
      cases b with
      | true =>
        obtain ⟨l, rest, hrest, rfl⟩ := Reader.acceptKeyword_eq_true.1 hb'
        obtain ⟨hnoted', w, hw, hvar⟩ := follows_readVar.inv hs hnoted
        rw [Cursor.rest_moveTo] at hw
        refine ⟨hnoted', ⟨.keyword .kwVar, l⟩ :: w, ?_, .var hvar⟩
        rw [hrest, hw, List.cons_append]
      | false =>
        obtain ⟨-, rfl⟩ := Reader.acceptKeyword_eq_false.1 hb'
        obtain ⟨hnoted', w, hw, he⟩ := follows_readExpression.inv hs hnoted
        exact ⟨hnoted', w, hw, .expression he⟩

theorem follows_readForClauses :
    Reader.Follows readForClauses ReadsForClauses := by
  constructor
  · rintro n a w n' ⟨first, second, third⟩ rest endLine noted
    simp only [List.cons_append, List.append_assoc, List.nil_append]
    exact Reader.expect_bind_eq_ok.2 ⟨_, _, rfl, Reader.bind_eq_ok.2 ⟨_, _,
      follows_readForInitializer.run first _ endLine noted,
      Reader.bind_eq_ok.2 ⟨_, _,
        readUnless_run second isDelimiter_semicolon _ _ endLine noted,
        Reader.expect_bind_eq_ok.2 ⟨_, _, rfl, Reader.bind_eq_ok.2 ⟨_, _,
          readUnless_run third isDelimiter_rightParen _ rest endLine noted,
          Reader.expect_bind_eq_ok.2 ⟨_, _, rfl, rfl⟩⟩⟩⟩⟩⟩
  · intro c a c' h hnoted
    obtain ⟨l, rest, hrest, h⟩ := Reader.expect_bind_eq_ok.1 h
    obtain ⟨initializer, c₁, hfirst, h⟩ := Reader.bind_eq_ok.1 h
    obtain ⟨condition, c₂, hsecond, h⟩ := Reader.bind_eq_ok.1 h
    obtain ⟨l', rest', hrest', h⟩ := Reader.expect_bind_eq_ok.1 h
    obtain ⟨increment, c₃, hthird, h⟩ := Reader.bind_eq_ok.1 h
    obtain ⟨l'', rest'', hrest'', h⟩ := Reader.expect_bind_eq_ok.1 h
    obtain ⟨rfl, rfl⟩ := Reader.pure_eq_ok.1 h
    obtain ⟨hnoted₂, w₂, hw₂, third⟩ := readUnless_inv hthird hnoted
    obtain ⟨hnoted₁, w₁, hw₁, second⟩ := readUnless_inv hsecond hnoted₂
    obtain ⟨hnoted₀, w, hw, first⟩ :=
      follows_readForInitializer.inv hfirst hnoted₁
    rw [Cursor.rest_moveTo] at hw hw₂
    refine ⟨hnoted₀, ⟨.symbol .leftParen, l⟩ :: (w ++ (w₁ ++
      ⟨.symbol .semicolon, l'⟩ :: (w₂ ++ [⟨.symbol .rightParen, l''⟩]))), ?_,
      ?_⟩
    · rw [hrest, hw, hw₁, hrest', hw₂, hrest'']
      simp
    · exact .intro first second third

/-! ## Headers -/

theorem readParams_run {params earlier : List Ident} {w rest : List Token}
    (h : ReadsParams params w) (hrest : ¬ Reader.comes .comma rest)
    (room : earlier.length + params.length ≤ maxArity) (endLine n : Nat)
    (noted : List Diagnostic) :
    readParams earlier ⟨w ++ rest, endLine, n, noted⟩ =
      .ok (earlier.reverse ++ params) ⟨rest, endLine, n, noted⟩ := by
  have hroom : ∀ {earlier : List Ident} {c : Cursor} {k : Nat},
      earlier.length + (k + 1) ≤ maxArity →
      c.noteIf (maxArity ≤ earlier.length) .tooManyParameters = c := by
    intro earlier c k hlt
    have hnot : ¬ maxArity ≤ earlier.length := by omega
    simp [Cursor.noteIf, hnot]
  induction h generalizing earlier with
  | @one x line =>
    rw [List.length_singleton] at room
    unfold readParams
    split
    · next heq =>
      cases heq
      exact absurd ⟨_, _, rfl⟩ hrest
    · next heq =>
      cases heq
      rw [hroom (k := 0) room, List.reverse_cons]
      rfl
    · next h₂ h₁ => exact absurd rfl (h₁ _ _ _)
  | @more x line l params w more ih =>
    rw [List.length_cons] at room
    rw [readParams]
    simp only [List.cons_append]
    rw [hroom room]
    have hrun : readParams (⟨x, line⟩ :: earlier)
          ⟨w ++ rest, endLine, n, noted⟩ =
        .ok ((⟨x, line⟩ :: earlier).reverse ++ params)
          ⟨rest, endLine, n, noted⟩ := by
      apply ih
      rw [List.length_cons]
      omega
    rw [List.reverse_cons, List.append_assoc] at hrun
    exact hrun

theorem noted_noteIf_eq_nil {c : Cursor} {condition : Bool} {f : ParseFault}
    (h : (c.noteIf condition f).noted = []) :
    condition = false ∧ c.noted = [] := by
  unfold Cursor.noteIf at h
  split at h
  · cases h
  · next hfalse => exact ⟨by simpa using hfalse, h⟩

theorem readParams_inv {earlier list : List Ident} {c c' : Cursor}
    (h : readParams earlier c = .ok list c') (hnoted : c'.noted = []) :
    c.noted = [] ∧ ∃ params w, c.rest = w ++ c'.rest ∧ c'.nextId = c.nextId ∧
      list = earlier.reverse ++ params ∧ ReadsParams params w ∧
      earlier.length + params.length ≤ maxArity := by
  have hid : ∀ (c : Cursor) (b : Bool) (f : ParseFault),
      (c.noteIf b f).nextId = c.nextId := by
    intro c b f
    unfold Cursor.noteIf
    split <;> rfl
  fun_induction readParams earlier c with
  | case1 earlier c x line l rest hrest ih =>
    obtain ⟨hnoted', params, w, hw, hnext, hlist, hparams, hroom⟩ := ih h
    obtain ⟨-, hnoted''⟩ := noted_noteIf_eq_nil hnoted'
    rw [Cursor.rest_moveTo] at hw
    refine ⟨hnoted'', ⟨x, line⟩ :: params, ⟨.identifier x, line⟩ ::
      ⟨.symbol .comma, l⟩ :: w, ?_, ?_, ?_, .more hparams, ?_⟩
    · rw [hrest, hw]
      rfl
    · rw [hnext, Cursor.nextId_moveTo, hid]
    · simpa using hlist
    · simp only [List.length_cons] at hroom ⊢
      omega
  | case2 earlier c x line rest _ hrest =>
    cases h
    obtain ⟨hroom, hnoted''⟩ := noted_noteIf_eq_nil hnoted
    simp only [decide_eq_false_iff_not] at hroom
    refine ⟨hnoted'', [⟨x, line⟩], [⟨.identifier x, line⟩], hrest, ?_, ?_, .one,
      ?_⟩
    · rw [Cursor.nextId_moveTo, hid]
    · simp
    · simp only [List.length_singleton]
      omega
  | case3 => cases h

theorem readParamList_run {params : List Ident} {w : List Token}
    (h : w = [] ∧ params = [] ∨
      ReadsParams params w ∧ params.length ≤ maxArity)
    (routine : Routine) (l l' : Nat) (rest : List Token) (endLine n : Nat)
    (noted : List Diagnostic) :
    readParamList routine ⟨⟨.symbol .leftParen, l⟩ ::
        (w ++ ⟨.symbol .rightParen, l'⟩ :: rest), endLine, n, noted⟩ =
      .ok params ⟨rest, endLine, n, noted⟩ := by
  refine Reader.expect_bind_eq_ok.2 ⟨_, _, rfl, Reader.bind_eq_ok.2
    ⟨params, ⟨⟨.symbol .rightParen, l'⟩ :: rest, endLine, n, noted⟩, ?_,
      Reader.expect_bind_eq_ok.2 ⟨_, _, rfl, rfl⟩⟩⟩
  rcases h with (⟨rfl, rfl⟩ | ⟨hparams, hroom⟩)
  · exact Reader.bind_eq_ok.2 ⟨true, _,
      Reader.ahead_eq_ok.2 ⟨by simp [Reader.comes_cons], rfl⟩, rfl⟩
  · refine Reader.bind_eq_ok.2 ⟨false, _, Reader.ahead_eq_ok.2 ⟨?_, rfl⟩, ?_⟩
    · cases hparams <;> simp [Reader.comes_cons]
    · exact readParams_run hparams (by simp [Reader.comes_cons])
        (by simpa using hroom) endLine n noted

theorem readParamList_inv {routine : Routine} {c c' : Cursor}
    {params : List Ident} (h : readParamList routine c = .ok params c')
    (hnoted : c'.noted = []) :
    c.noted = [] ∧ c'.nextId = c.nextId ∧
      ∃ l w l', c.rest = ⟨.symbol .leftParen, l⟩ ::
          (w ++ ⟨.symbol .rightParen, l'⟩ :: c'.rest) ∧
        (w = [] ∧ params = [] ∨
          ReadsParams params w ∧ params.length ≤ maxArity) := by
  obtain ⟨l, rest, hrest, h⟩ := Reader.expect_bind_eq_ok.1 h
  obtain ⟨list, c₁, hlist, h⟩ := Reader.bind_eq_ok.1 h
  obtain ⟨l', rest', hrest', h⟩ := Reader.expect_bind_eq_ok.1 h
  obtain ⟨rfl, rfl⟩ := Reader.pure_eq_ok.1 h
  obtain ⟨b, c₂, hb, hlist⟩ := Reader.bind_eq_ok.1 hlist
  obtain ⟨-, rfl⟩ := Reader.ahead_eq_ok.1 hb
  cases b with
  | true =>
    obtain ⟨rfl, rfl⟩ := Reader.pure_eq_ok.1 hlist
    rw [Cursor.rest_moveTo] at hrest'
    subst hrest'
    exact ⟨hnoted, rfl, l, [], l', hrest, .inl ⟨rfl, rfl⟩⟩
  | false =>
    obtain ⟨hnoted', params, w, hw, hnext, hlist, hparams, hroom⟩ :=
      readParams_inv hlist hnoted
    rw [List.reverse_nil, List.nil_append] at hlist
    subst hlist
    rw [Cursor.rest_moveTo] at hw
    refine ⟨hnoted', hnext, l, w, l', ?_, .inr ⟨hparams, by simpa using hroom⟩⟩
    rw [hrest, hw, hrest']
    rfl

/-- The header of a function; it uses up no ids. -/
theorem follows_readHeader (kind : FunctionKind) :
    Reader.Follows (readHeader kind)
      (fun n header w n' => ReadsHeader kind header w ∧ n' = n) := by
  constructor
  · rintro n a w n' ⟨h, rfl⟩ rest endLine noted
    cases h with
    | @getter x line l hkind =>
      subst hkind
      refine Reader.bind_eq_ok.2 ⟨_, _, name_run .., Reader.bind_eq_ok.2
        ⟨_, ⟨⟨.symbol .leftBrace, l⟩ :: rest, endLine, n', noted⟩, ?_,
          Reader.expect_bind_eq_ok.2 ⟨_, _, rfl, rfl⟩⟩⟩
      exact Reader.bind_eq_ok.2 ⟨false, _,
        Reader.ahead_eq_ok.2 ⟨by simp [Reader.comes], rfl⟩, rfl⟩
    | @empty x line l l' l'' =>
      refine Reader.bind_eq_ok.2 ⟨_, _, name_run .., Reader.bind_eq_ok.2
        ⟨_, ⟨⟨.symbol .leftBrace, l''⟩ :: rest, endLine, n', noted⟩, ?_,
          Reader.expect_bind_eq_ok.2 ⟨_, _, rfl, rfl⟩⟩⟩
      refine Reader.bind_eq_ok.2 ⟨true, _,
        Reader.ahead_eq_ok.2 ⟨by simp [Reader.comes], rfl⟩, ?_⟩
      simp only [Bool.true_eq_false, and_false, if_false]
      exact Reader.bind_eq_ok.2 ⟨_, _, readParamList_run (w := [])
        (.inl ⟨rfl, rfl⟩) _ l l' _ endLine n' noted, rfl⟩
    | @params x line l params w l' l'' list room =>
      simp only [List.cons_append, List.append_assoc, List.nil_append]
      refine Reader.bind_eq_ok.2 ⟨_, _, name_run .., Reader.bind_eq_ok.2
        ⟨_, ⟨⟨.symbol .leftBrace, l''⟩ :: rest, endLine, n', noted⟩, ?_,
          Reader.expect_bind_eq_ok.2 ⟨_, _, rfl, rfl⟩⟩⟩
      refine Reader.bind_eq_ok.2 ⟨true, _,
        Reader.ahead_eq_ok.2 ⟨by simp [Reader.comes], rfl⟩, ?_⟩
      simp only [Bool.true_eq_false, and_false, if_false]
      exact Reader.bind_eq_ok.2 ⟨_, _, readParamList_run (.inr ⟨list, room⟩)
        _ l l' _ endLine n' noted, rfl⟩
  · intro c a c' hread hnoted
    obtain ⟨⟨x, line⟩, c₁, hname, h⟩ := Reader.bind_eq_ok.1 hread
    obtain ⟨rest₁, hrest₁, rfl⟩ := Reader.name_eq_ok.1 hname
    obtain ⟨header, c₂, hheader, hbrace⟩ := Reader.bind_eq_ok.1 h
    obtain ⟨l, rest, hrest, hpure⟩ := Reader.expect_bind_eq_ok.1 hbrace
    obtain ⟨rfl, rfl⟩ := Reader.pure_eq_ok.1 hpure
    obtain ⟨b, c₃, hb, hparams⟩ := Reader.bind_eq_ok.1 hheader
    obtain ⟨-, rfl⟩ := Reader.ahead_eq_ok.1 hb
    split at hparams
    · next hgetter =>
      obtain ⟨rfl, rfl⟩ := Reader.pure_eq_ok.1 hparams
      rw [Cursor.rest_moveTo] at hrest
      subst hrest
      exact ⟨hnoted, _, hrest₁, .getter hgetter.1, rfl⟩
    · obtain ⟨params, c₄, hlist, hpure⟩ := Reader.bind_eq_ok.1 hparams
      obtain ⟨rfl, rfl⟩ := Reader.pure_eq_ok.1 hpure
      obtain ⟨hnoted', hnext, l₁, w, l₂, hw, hshape⟩ :=
        readParamList_inv hlist hnoted
      rw [Cursor.rest_moveTo] at hw
      refine ⟨hnoted', ⟨.identifier x, line⟩ :: ⟨.symbol .leftParen, l₁⟩ ::
        (w ++ [⟨.symbol .rightParen, l₂⟩, ⟨.symbol .leftBrace, l⟩]), ?_, ?_,
        hnext⟩
      · rw [hrest₁, hw, hrest]
        simp
      · rcases hshape with (⟨rfl, rfl⟩ | ⟨hparams, hroom⟩)
        · exact .empty
        · exact .params hparams hroom

theorem follows_readClassHead :
    Reader.Follows readClassHead ReadsClassHead := by
  constructor
  · rintro n a w n' h rest endLine noted
    cases h with
    | @base x line l =>
      refine Reader.bind_eq_ok.2 ⟨_, _, name_run .., Reader.bind_eq_ok.2
        ⟨none, ⟨⟨.symbol .leftBrace, l⟩ :: rest, endLine, n, noted⟩, ?_,
          Reader.expect_bind_eq_ok.2 ⟨_, _, rfl, rfl⟩⟩⟩
      exact Reader.bind_eq_ok.2 ⟨false, _,
        Reader.accept_eq_false.2 ⟨by simp [Reader.comes], rfl⟩, rfl⟩
    | @derived x line l parent line' l' =>
      refine Reader.bind_eq_ok.2 ⟨_, _, name_run .., Reader.bind_eq_ok.2
        ⟨some ⟨n, parent, line'⟩,
          ⟨⟨.symbol .leftBrace, l'⟩ :: rest, endLine, n + 1, noted⟩, ?_,
          Reader.expect_bind_eq_ok.2 ⟨_, _, rfl, rfl⟩⟩⟩
      exact Reader.bind_eq_ok.2 ⟨true, _,
        Reader.accept_eq_true.2 ⟨_, _, rfl, rfl⟩,
        Reader.bind_eq_ok.2 ⟨_, _, name_run .., rfl⟩⟩
  · intro c a c' hread hnoted
    obtain ⟨⟨x, line⟩, c₁, hname, h⟩ := Reader.bind_eq_ok.1 hread
    obtain ⟨rest₁, hrest₁, rfl⟩ := Reader.name_eq_ok.1 hname
    obtain ⟨superclass, c₂, hsuper, hbrace⟩ := Reader.bind_eq_ok.1 h
    obtain ⟨l, rest, hrest, hpure⟩ := Reader.expect_bind_eq_ok.1 hbrace
    obtain ⟨rfl, rfl⟩ := Reader.pure_eq_ok.1 hpure
    obtain ⟨b, c₃, hb, hparent⟩ := Reader.bind_eq_ok.1 hsuper
    cases b with
    | false =>
      obtain ⟨-, rfl⟩ := Reader.accept_eq_false.1 hb
      obtain ⟨rfl, rfl⟩ := Reader.pure_eq_ok.1 hparent
      rw [Cursor.rest_moveTo] at hrest
      subst hrest
      exact ⟨hnoted, _, hrest₁, .base⟩
    | true =>
      obtain ⟨l', rest', hrest', rfl⟩ := Reader.accept_eq_true.1 hb
      obtain ⟨⟨parent, line'⟩, c₄, hname', hid⟩ := Reader.bind_eq_ok.1 hparent
      obtain ⟨rest₂, hrest₂, rfl⟩ := Reader.name_eq_ok.1 hname'
      obtain ⟨id, c₅, hfresh, hpure⟩ := Reader.bind_eq_ok.1 hid
      cases hfresh
      obtain ⟨rfl, rfl⟩ := Reader.pure_eq_ok.1 hpure
      simp only [Cursor.rest_moveTo, Cursor.rest_useId] at hrest hrest' hrest₂
      subst hrest hrest₂ hrest'
      exact ⟨hnoted, _, hrest₁, .derived⟩

end Stmt

end Lox
