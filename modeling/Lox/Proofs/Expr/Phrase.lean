import Lox.Expr.Parser

/-!
# The phrases of an expression

`Reads n phrase tokens n'` says what the reader of expressions reads when it
finds no fault: the tokens, the tree they are read as, and the ids that are
used up on the way, from `n` up to but not including `n'`.  It has one rule
for each way in which a tree is built and no cursor, stack or lookahead.

Two facts about the ends of a phrase follow.  `Reads.head` says how a phrase
starts.  `Rank.Stops` says that no token behind a phrase of a rank is read as
a part of it, which is all that a reader has to know of what follows.
-/

namespace Lox.Expr

/-! ## Phrases -/

/-- What a place of the grammar takes: an expression of a rank, or an
expression that arguments and property names may follow. -/
inductive Tier where
  | rank (r : Rank)
  | call

/-- What is read: an expression, or the arguments of a call. -/
inductive Phrase where
  | expr (t : Tier) (e : Expr)
  | arguments (list : List Expr)

/-- The literal that a token writes. -/
def literal? : Token.Kind → Option Literal
  | .keyword .kwFalse => some (.bool false)
  | .keyword .kwTrue => some (.bool true)
  | .keyword .kwNil => some .nil
  | .number _ value => some (.number value)
  | .string content => some (.string content)
  | _ => none

/-- The phrase is read from the tokens, with the ids from the first number up
to the second. -/
inductive Reads : Nat → Phrase → List Token → Nat → Prop where
  | literal {n kind line value} (h : literal? kind = some value) :
      Reads n (.expr .call (.literal value)) [⟨kind, line⟩] n
  | name {n x line} :
      Reads n (.expr .call (.variable ⟨n, x, line⟩))
        [⟨.identifier x, line⟩] (n + 1)
  | this {n line} :
      Reads n (.expr .call (.this n line)) [⟨.keyword .kwThis, line⟩] (n + 1)
  | super {n line l x methodLine} :
      Reads n (.expr .call (.super n line ⟨x, methodLine⟩))
        [⟨.keyword .kwSuper, line⟩, ⟨.symbol .dot, l⟩,
          ⟨.identifier x, methodLine⟩] (n + 1)
  | group {n e w n' l l'} (inner : Reads n (.expr (.rank .assignment) e) w n') :
      Reads n (.expr .call (.group e))
        (⟨.symbol .leftParen, l⟩ :: (w ++ [⟨.symbol .rightParen, l'⟩])) n'
  | callEmpty {n callee w n' l line}
      (head : Reads n (.expr .call callee) w n') :
      Reads n (.expr .call (.call callee line []))
        (w ++ [⟨.symbol .leftParen, l⟩, ⟨.symbol .rightParen, line⟩]) n'
  | call {n callee w n' list w' n'' l line}
      (head : Reads n (.expr .call callee) w n')
      (tail : Reads n' (.arguments list) w' n'') :
      Reads n (.expr .call (.call callee line list))
        (w ++ ⟨.symbol .leftParen, l⟩ ::
          (w' ++ [⟨.symbol .rightParen, line⟩])) n''
  | get {n object w n' l x line} (head : Reads n (.expr .call object) w n') :
      Reads n (.expr .call (.get object ⟨x, line⟩))
        (w ++ [⟨.symbol .dot, l⟩, ⟨.identifier x, line⟩]) n'
  | one {n e w n'} (only : Reads n (.expr (.rank .assignment) e) w n') :
      Reads n (.arguments [e]) w n'
  | more {n list w n' e w' n'' l} (earlier : Reads n (.arguments list) w n')
      (room : list.length < maxArity)
      (last : Reads n' (.expr (.rank .assignment) e) w' n'') :
      Reads n (.arguments (list ++ [e])) (w ++ ⟨.symbol .comma, l⟩ :: w') n''
  | operand {n e w n'} (inner : Reads n (.expr .call e) w n') :
      Reads n (.expr (.rank .operand) e) w n'
  | unary {n kind op line e w n'} (h : unaryOp? kind = some op)
      (inner : Reads n (.expr (.rank .operand) e) w n') :
      Reads n (.expr (.rank .operand) (.unary op line e))
        (⟨kind, line⟩ :: w) n'
  | level {n l e w n'} (inner : Reads n (.expr (.rank l.operandRank) e) w n') :
      Reads n (.expr (.rank (.level l)) e) w n'
  | operator {n l left w n' kind op line right w' n''}
      (first : Reads n (.expr (.rank (.level l)) left) w n')
      (h : l.operator? kind = some op)
      (second : Reads n' (.expr (.rank l.operandRank) right) w' n'') :
      Reads n (.expr (.rank (.level l)) (op.apply left line right))
        (w ++ ⟨kind, line⟩ :: w') n''
  | assignment {n e w n'} (inner : Reads n (.expr (.rank (.level .or)) e) w n') :
      Reads n (.expr (.rank .assignment) e) w n'
  | assign {n x line l value w n'}
      (inner : Reads (n + 1) (.expr (.rank .assignment) value) w n') :
      Reads n (.expr (.rank .assignment) (.assign ⟨n', x, line⟩ value))
        (⟨.identifier x, line⟩ :: ⟨.symbol .equal, l⟩ :: w) (n' + 1)
  | set {n object w n' x line l l' value w' n''}
      (head : Reads n (.expr .call object) w n')
      (inner : Reads n' (.expr (.rank .assignment) value) w' n'') :
      Reads n (.expr (.rank .assignment) (.set object ⟨x, line⟩ value))
        (w ++ ⟨.symbol .dot, l⟩ :: ⟨.identifier x, line⟩ ::
          ⟨.symbol .equal, l'⟩ :: w') n''

/-- An expression of the tightest kind is one of the loosest rank. -/
theorem Reads.of_call {n n' : Nat} {e : Expr} {w : List Token}
    (h : Reads n (.expr .call e) w n') :
    Reads n (.expr (.rank .assignment) e) w n' :=
  .assignment (.level (.level (.level (.level (.level (.level (.operand h)))))))

/-! ## Where a phrase starts -/

/-- Whether a token can start an expression. -/
def startsExpr (kind : Token.Kind) : Bool :=
  match kind with
  | .identifier _ => true
  | .keyword .kwThis => true
  | .keyword .kwSuper => true
  | .symbol .leftParen => true
  | _ => (unaryOp? kind).isSome || (literal? kind).isSome

theorem startsExpr_of_literal? {kind : Token.Kind} {value : Literal}
    (h : literal? kind = some value) : startsExpr kind = true := by
  unfold startsExpr
  split <;> first | rfl | simp [h]

theorem startsExpr_of_unaryOp? {kind : Token.Kind} {op : UnaryOp}
    (h : unaryOp? kind = some op) : startsExpr kind = true := by
  unfold startsExpr
  split <;> first | rfl | simp [h]

/-- A phrase is not empty, and its first token can start an expression. -/
theorem Reads.head {n n' : Nat} {phrase : Phrase} {w : List Token}
    (h : Reads n phrase w n') :
    ∃ t w', w = t :: w' ∧ startsExpr t.kind = true := by
  induction h with
  | literal h => exact ⟨_, _, rfl, startsExpr_of_literal? h⟩
  | name | this | super | group | assign => exact ⟨_, _, rfl, rfl⟩
  | unary h => exact ⟨_, _, rfl, startsExpr_of_unaryOp? h⟩
  | one _ ih | operand _ ih | level _ ih | assignment _ ih => exact ih
  | callEmpty _ ih | call _ _ ih | get _ ih | more _ _ _ ih | operator _ _ _ ih
  | set _ _ ih =>
    obtain ⟨t, w', rfl, ht⟩ := ih
    exact ⟨t, _, rfl, ht⟩

/-! ## What may stand behind a phrase -/

/-- How tightly a rank binds. -/
def Rank.tightness : Rank → Nat
  | assignment => 0
  | level .or => 1
  | level .and => 2
  | level .equality => 3
  | level .comparison => 4
  | level .term => 5
  | level .factor => 6
  | operand => 7

/-- Whether a token behind an expression of a rank is read as a part of it. -/
def Rank.continues (r : Rank) : Token.Kind → Bool
  | .symbol .leftParen => true
  | .symbol .dot => true
  | .symbol .equal => r.tightness == 0
  | kind =>
    match Operator.ofKind? kind with
    | some op => r.tightness ≤ (Rank.level op.level).tightness
    | none => false

/-- No token behind an expression of a rank is read as a part of it. -/
def Rank.Stops (r : Rank) (rest : List Token) : Prop :=
  ∀ t ∈ rest.head?, r.continues t.kind = false

theorem Level.tightness_operandRank (l : Level) :
    l.operandRank.tightness = (Rank.level l).tightness + 1 := by
  cases l <;> rfl

theorem Operator.ofKind?_of_operator? {l : Level} {kind : Token.Kind}
    {op : Operator} (h : l.operator? kind = some op) :
    Operator.ofKind? kind = some op ∧ op.level = l := by
  unfold Level.operator? at h
  split at h
  · split at h
    · next hop hl => cases h; exact ⟨hop, hl⟩
    · cases h
  · cases h

/-- The kind of token that writes an operator. -/
def Operator.kind : Operator → Token.Kind
  | logical op => .keyword op.keyword
  | binary op => .symbol op.symbol

theorem Operator.kind_eq_of_ofKind? {kind : Token.Kind} {op : Operator}
    (h : Operator.ofKind? kind = some op) : kind = op.kind := by
  unfold Operator.ofKind? at h
  split at h <;> cases h <;> rfl

theorem Operator.ofKind?_kind (op : Operator) :
    Operator.ofKind? op.kind = some op := by
  rcases op with (op | op) <;> cases op <;> rfl

theorem Operator.operator?_kind (op : Operator) :
    op.level.operator? op.kind = some op := by
  unfold Level.operator?
  rw [op.ofKind?_kind]
  simp

theorem Rank.Stops.mono {r r' : Rank} {rest : List Token}
    (h : r.Stops rest) (hle : r.tightness ≤ r'.tightness) : r'.Stops rest := by
  intro t ht
  have hr := h t ht
  unfold Rank.continues at hr ⊢
  split at hr
  · cases hr
  · cases hr
  · simp only [beq_eq_false_iff_ne] at hr ⊢
    omega
  · split at hr
    · simp only [decide_eq_false_iff_not] at hr ⊢
      omega
    · rfl

theorem Rank.stops_cons {r : Rank} {t : Token} {rest : List Token} :
    r.Stops (t :: rest) ↔ r.continues t.kind = false := by
  simp [Rank.Stops]

theorem Rank.continues_operator (r : Rank) {kind : Token.Kind} {op : Operator}
    (h : Operator.ofKind? kind = some op) :
    r.continues kind = decide (r.tightness ≤ (Rank.level op.level).tightness) := by
  unfold Rank.continues
  split
  · cases h
  · cases h
  · cases h
  · rw [h]

/-- An operator of a level does not continue an operand of that level. -/
theorem Level.stops_operator {l : Level} {kind : Token.Kind} {op : Operator}
    (h : l.operator? kind = some op) (line : Nat) (rest : List Token) :
    l.operandRank.Stops (⟨kind, line⟩ :: rest) := by
  obtain ⟨hkind, hlevel⟩ := Operator.ofKind?_of_operator? h
  rw [Rank.stops_cons, Rank.continues_operator _ hkind, hlevel,
    l.tightness_operandRank]
  simp

/-- Where an expression of a level stops, no operator of the level comes. -/
theorem Level.operator?_of_stops {l : Level} {t : Token} {rest : List Token}
    (h : (Rank.level l).Stops (t :: rest)) : l.operator? t.kind = none := by
  cases hop : l.operator? t.kind with
  | none => rfl
  | some op =>
    obtain ⟨hkind, hlevel⟩ := Operator.ofKind?_of_operator? hop
    rw [Rank.stops_cons, Rank.continues_operator _ hkind, hlevel] at h
    simp at h

end Lox.Expr
