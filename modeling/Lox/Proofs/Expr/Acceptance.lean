import Lox.Proofs.Expr.Reading
import Lox.Proofs.Grammar

/-!
# Expressions of the grammar

The phrases of an expression and the derivations of the grammar are the same.
A phrase that is read is derived, by induction over the reading
(`derived_of_reads`).  In the other direction the phrases are a reading of the
grammar that is closed under its productions, so that what is derived is read
(`derivable_expression_iff`).  A production repeats its operands in one row where
the phrases nest them to the left; both directions go from one to the other
one operand at a time.
-/

namespace Lox.Expr

open Grammar

variable {M : Nonterminal → List Token → Prop} {w : List Token}

/-! ## Expressions that are read are derived -/

/-- The nonterminal for the expressions of a rank. -/
def Rank.nonterminal : Rank → Nonterminal
  | .assignment => .assignment
  | .level .or => .logicOr
  | .level .and => .logicAnd
  | .level .equality => .equality
  | .level .comparison => .comparison
  | .level .term => .term
  | .level .factor => .factor
  | .operand => .unary

/-- The nonterminal for the expressions of a tier. -/
def Tier.nonterminal : Tier → Nonterminal
  | .rank r => r.nonterminal
  | .call => .call

/-- The right-hand side of an operator. -/
def Operator.rule : Operator → Rule
  | .logical op => .word op.keyword
  | .binary op => .sym op.symbol

/-- The operators of a level, in the order of the grammar. -/
def Level.operators : Level → List Operator
  | .or => [.logical .or]
  | .and => [.logical .and]
  | .equality => [.binary .notEqual, .binary .equal]
  | .comparison =>
    [.binary .greater, .binary .greaterEqual, .binary .less, .binary .lessEqual]
  | .term => [.binary .subtract, .binary .add]
  | .factor => [.binary .divide, .binary .multiply]

theorem Level.mem_operators {l : Level} {op : Operator} :
    op ∈ l.operators ↔ op.level = l := by
  cases l <;> rcases op with (op | op) <;> cases op <;> decide

theorem Level.rule_nonterminal (l : Level) :
    (Rank.level l).nonterminal.rule =
      .level l.operandRank.nonterminal (l.operators.map Operator.rule) := by
  cases l <;> rfl

theorem Operator.holds_rule {op : Operator} :
    op.rule.Holds M w ↔ ∃ line, w = [⟨op.kind, line⟩] := by
  cases op with
  | logical op => exact holds_word
  | binary op => exact holds_sym

/-- A token fits the operators of a level exactly if it writes one. -/
theorem Level.holds_operators {l : Level} :
    (Rule.any (l.operators.map Operator.rule)).Holds M w ↔
      ∃ kind line op, w = [⟨kind, line⟩] ∧ l.operator? kind = some op := by
  rw [holds_any]
  constructor
  · rintro ⟨r, hr, h⟩
    obtain ⟨op, hop, rfl⟩ := List.mem_map.1 hr
    obtain ⟨line, rfl⟩ := Operator.holds_rule.1 h
    obtain rfl := Level.mem_operators.1 hop
    exact ⟨_, line, op, rfl, op.operator?_kind⟩
  · rintro ⟨kind, line, op, rfl, h⟩
    obtain ⟨hkind, rfl⟩ := Operator.ofKind?_of_operator? h
    refine ⟨op.rule, List.mem_map.2 ⟨op, Level.mem_operators.2 rfl, rfl⟩,
      Operator.holds_rule.2 ⟨line, ?_⟩⟩
    rw [Operator.kind_eq_of_ofKind? hkind]

/-- The tokens of the phrase are derived.  Arguments are kept apart, so that
they can still be counted. -/
def Phrase.Derived (w : List Token) : Phrase → Prop
  | .expr t _ => Derivable t.nonterminal w
  | .arguments list => ∃ u ws, w = u ++ List.flatten ws ∧
    Derivable .expression u ∧ ws.length + 1 = list.length ∧
    list.length ≤ maxArity ∧
    ∀ v ∈ ws, (Rule.all [.sym .comma, .ref .expression]).Holds Derivable v

theorem derivable_expression {w : List Token} (h : Derivable .assignment w) :
    Derivable .expression w :=
  derivable_iff.2 h

theorem derivable_call_of_primary {w : List Token} (h : Derivable .primary w) :
    Derivable .call w :=
  derivable_iff.2 ⟨w, [], by rw [List.append_nil], h,
    holds_single.2 ⟨[], rfl, by simp⟩⟩

/-- What may follow a call can be added to it. -/
theorem derivable_call_suffix {u v : List Token} (hu : Derivable .call u)
    (hv : (Rule.any [.parens .arguments, .all [.sym .dot, .ident]]).Holds
      Derivable v) : Derivable .call (u ++ v) := by
  obtain ⟨p, q, rfl, hp, hq⟩ := derivable_iff.1 hu
  rw [List.append_assoc]
  exact derivable_iff.2 ⟨p, q ++ v, rfl, hp,
    holds_single.2 (holds_star_snoc (holds_single.1 hq) hv)⟩

theorem derivable_primary_of_literal? {kind : Token.Kind} {value : Literal}
    (h : literal? kind = some value) (line : Nat) :
    Derivable .primary [⟨kind, line⟩] := by
  refine derivable_iff.2 (holds_any.2 ?_)
  unfold literal? at h
  split at h
  · exact ⟨.word .kwFalse, by simp, holds_word.2 ⟨line, rfl⟩⟩
  · exact ⟨.word .kwTrue, by simp, holds_word.2 ⟨line, rfl⟩⟩
  · exact ⟨.word .kwNil, by simp, holds_word.2 ⟨line, rfl⟩⟩
  · exact ⟨.token .number, by simp, _, rfl, _, _, rfl⟩
  · exact ⟨.token .string, by simp, _, rfl, _, rfl⟩
  · cases h

/-- What is read is derived. -/
theorem derived_of_reads {n n' : Nat} {phrase : Phrase} {w : List Token}
    (h : Reads n phrase w n') : phrase.Derived w := by
  induction h with
  | literal h => exact derivable_call_of_primary (derivable_primary_of_literal? h _)
  | @name n x line =>
    refine derivable_call_of_primary (derivable_iff.2 (holds_any.2
      ⟨.ident, by simp, holds_ident.2 ⟨x, line, rfl⟩⟩))
  | @this n line =>
    exact derivable_call_of_primary (derivable_iff.2 (holds_any.2
      ⟨.word .kwThis, by simp, holds_word.2 ⟨line, rfl⟩⟩))
  | @super n line l x methodLine =>
    refine derivable_call_of_primary (derivable_iff.2 (holds_any.2
      ⟨.all [.word .kwSuper, .sym .dot, .ident], by simp, ?_⟩))
    exact holds_word_cons.2 ⟨line, _, rfl, holds_sym_cons.2 ⟨l, _, rfl,
      holds_single.2 (holds_ident.2 ⟨x, methodLine, rfl⟩)⟩⟩
  | @group n e w n' l l' inner ih =>
    refine derivable_call_of_primary (derivable_iff.2 (holds_any.2
      ⟨.all [.sym .leftParen, .ref .expression, .sym .rightParen],
        by simp, ?_⟩))
    exact holds_sym_cons.2 ⟨l, _, rfl, _, _, rfl, derivable_expression ih,
      holds_single.2 (holds_sym.2 ⟨l', rfl⟩)⟩
  | @callEmpty n callee w n' l line head ih =>
    refine derivable_call_suffix ih (holds_any.2
      ⟨.parens .arguments, by simp, ?_⟩)
    exact holds_sym_cons.2 ⟨l, _, rfl, [], _, rfl, .inl rfl,
      holds_single.2 (holds_sym.2 ⟨line, rfl⟩)⟩
  | @call n callee w n' list w' n'' l line head tail ihhead ihtail =>
    obtain ⟨u, ws, rfl, hu, hlength, hroom, hws⟩ := ihtail
    refine derivable_call_suffix ihhead (holds_any.2
      ⟨.parens .arguments, by simp, ?_⟩)
    refine holds_sym_cons.2 ⟨l, _, rfl, _, _, rfl, .inr ?_,
      holds_single.2 (holds_sym.2 ⟨line, rfl⟩)⟩
    exact derivable_iff.2 ⟨u, _, rfl, hu,
      holds_single.2 ⟨ws, rfl, by omega, hws⟩⟩
  | @get n object w n' l x line head ih =>
    refine derivable_call_suffix ih (holds_any.2
      ⟨.all [.sym .dot, .ident], by simp, ?_⟩)
    exact holds_sym_cons.2 ⟨l, _, rfl,
      holds_single.2 (holds_ident.2 ⟨x, line, rfl⟩)⟩
  | one only ih =>
    exact ⟨_, [], by simp, derivable_expression ih, rfl,
      by rw [List.length_singleton]; decide, by simp⟩
  | @more n list w n' e w' n'' l earlier room last ihearlier ihlast =>
    obtain ⟨u, ws, rfl, hu, hlength, hroom, hws⟩ := ihearlier
    refine ⟨u, ws ++ [⟨.symbol .comma, l⟩ :: w'], by simp, hu, by simp [hlength],
      by rw [List.length_append]; exact room, ?_⟩
    intro v hv
    rcases List.mem_append.1 hv with (hv | hv)
    · exact hws v hv
    · rw [List.mem_singleton.1 hv]
      exact holds_sym_cons.2 ⟨l, _, rfl,
        holds_single.2 (derivable_expression ihlast)⟩
  | operand inner ih =>
    exact derivable_iff.2 (holds_any.2 ⟨.ref .call, by simp, ih⟩)
  | @unary n kind op line e w n' h inner ih =>
    refine derivable_iff.2 (holds_any.2
      ⟨.all [.any [.sym .bang, .sym .minus], .ref .unary], by simp, ?_⟩)
    refine ⟨[⟨kind, line⟩], w, rfl, holds_any.2 ?_, holds_single.2 ih⟩
    unfold unaryOp? at h
    split at h
    · exact ⟨.sym .bang, by simp, holds_sym.2 ⟨line, rfl⟩⟩
    · exact ⟨.sym .minus, by simp, holds_sym.2 ⟨line, rfl⟩⟩
    · cases h
  | @level n l e w n' inner ih =>
    refine derivable_iff.2 ?_
    rw [Tier.nonterminal, l.rule_nonterminal]
    exact ⟨w, [], by rw [List.append_nil], ih,
      holds_single.2 ⟨[], rfl, by simp⟩⟩
  | @operator n l left w n' kind op line right w' n'' first h second
      ihfirst ihsecond =>
    have hfirst := derivable_iff.1 ihfirst
    rw [Tier.nonterminal, l.rule_nonterminal] at hfirst
    obtain ⟨u, v, rfl, hu, hv⟩ := hfirst
    refine derivable_iff.2 ?_
    rw [Tier.nonterminal, l.rule_nonterminal, List.append_assoc]
    refine ⟨u, _, rfl, hu, holds_single.2 (holds_star_snoc
      (holds_single.1 hv) ?_)⟩
    exact ⟨[_], w', rfl, Level.holds_operators.2 ⟨kind, line, op, rfl, h⟩,
      holds_single.2 ihsecond⟩
  | assignment inner ih =>
    exact derivable_iff.2 (holds_any.2 ⟨.ref .logicOr, by simp, ih⟩)
  | @assign n x line l value w n' inner ih =>
    refine derivable_iff.2 (.inl ⟨[], _, rfl, .inl rfl, ?_⟩)
    exact holds_ident_cons.2 ⟨x, line, _, rfl, holds_sym_cons.2
      ⟨l, _, rfl, holds_single.2 ih⟩⟩
  | @set n object w n' x line l l' value w' n'' head inner ihhead ihinner =>
    have hsplit : w ++ ⟨.symbol .dot, l⟩ :: ⟨.identifier x, line⟩ ::
          ⟨.symbol .equal, l'⟩ :: w' =
        (w ++ [⟨.symbol .dot, l⟩]) ++ ⟨.identifier x, line⟩ ::
          ⟨.symbol .equal, l'⟩ :: w' := by
      rw [List.append_assoc]
      rfl
    rw [hsplit]
    refine derivable_iff.2 (.inl ⟨_, _, rfl, .inr ⟨w, _, rfl, ihhead,
      holds_single.2 (holds_sym.2 ⟨l, rfl⟩)⟩, ?_⟩)
    exact holds_ident_cons.2 ⟨x, line, _, rfl, holds_sym_cons.2
      ⟨l', _, rfl, holds_single.2 ihinner⟩⟩

/-! ## Expressions that are derived are read -/

/-- The tokens are read as an expression of the tier, from any id on. -/
def ReadAt (t : Tier) (w : List Token) : Prop :=
  ∀ n, ∃ e n', Reads n (.expr t e) w n'

/-- How the phrases read the nonterminals of expressions. -/
def Means : Nonterminal → List Token → Prop
  | .expression => ReadAt (.rank .assignment)
  | .assignment => ReadAt (.rank .assignment)
  | .logicOr => ReadAt (.rank (.level .or))
  | .logicAnd => ReadAt (.rank (.level .and))
  | .equality => ReadAt (.rank (.level .equality))
  | .comparison => ReadAt (.rank (.level .comparison))
  | .term => ReadAt (.rank (.level .term))
  | .factor => ReadAt (.rank (.level .factor))
  | .unary => ReadAt (.rank .operand)
  | .call => ReadAt .call
  | .primary => ReadAt .call
  | .arguments => fun w => ∀ n, ∃ list n', Reads n (.arguments list) w n'
  | _ => fun _ => True

theorem means_nonterminal (r : Rank) : Means r.nonterminal = ReadAt (.rank r) := by
  rcases r with (_ | (_ | _ | _ | _ | _ | _) | _) <;> rfl

theorem readAt_level {l : Level}
    (h : (Rule.level l.operandRank.nonterminal
      (l.operators.map Operator.rule)).Holds Means w) :
    ReadAt (.rank (.level l)) w := by
  obtain ⟨u, v, rfl, hu, hv⟩ := h
  rw [holds_ref, means_nonterminal] at hu
  obtain ⟨ws, rfl, hws⟩ := holds_single.1 hv
  refine extend (k := 0) (P := fun _ => ReadAt (.rank (.level l))) ?_ ?_ hws
  · intro _ u v hu hv n
    obtain ⟨x, y, rfl, hx, hy⟩ := hv
    obtain ⟨kind, line, op, rfl, hop⟩ := Level.holds_operators.1 hx
    have hy := holds_single.1 hy
    rw [holds_ref, means_nonterminal] at hy
    obtain ⟨left, n₁, hleft⟩ := hu n
    obtain ⟨right, n₂, hright⟩ := hy n₁
    exact ⟨_, n₂, .operator hleft hop hright⟩
  · intro n
    obtain ⟨e, n', he⟩ := hu n
    exact ⟨e, n', .level he⟩

theorem readAt_suffix {u v : List Token} (hu : ReadAt .call u)
    (hv : (Rule.any [.parens .arguments, .all [.sym .dot, .ident]]).Holds
      Means v) : ReadAt .call (u ++ v) := by
  intro n
  obtain ⟨callee, n₁, hcallee⟩ := hu n
  rcases hv with (hv | hv | hv)
  · obtain ⟨l, x, rfl, y, z, rfl, hy, hz⟩ := holds_sym_cons.1 hv
    obtain ⟨l', rfl⟩ := holds_sym.1 (holds_single.1 hz)
    rcases hy with (rfl | hy)
    · exact ⟨_, n₁, .callEmpty hcallee⟩
    · obtain ⟨list, n₂, hlist⟩ := hy n₁
      exact ⟨_, n₂, .call hcallee hlist⟩
  · obtain ⟨l, x, rfl, hx⟩ := holds_sym_cons.1 hv
    obtain ⟨name, l', rfl⟩ := holds_ident.1 (holds_single.1 hx)
    exact ⟨_, n₁, .get hcallee⟩
  · cases hv

theorem readAt_call (h : Nonterminal.call.rule.Holds Means w) :
    ReadAt .call w := by
  obtain ⟨u, v, rfl, hu, hv⟩ := h
  obtain ⟨ws, rfl, hws⟩ := holds_single.1 hv
  exact extend (k := 0) (P := fun _ => ReadAt .call) readAt_suffix hu hws

theorem read_arguments (h : Nonterminal.arguments.rule.Holds Means w) (n : Nat) :
    ∃ list n', Reads n (.arguments list) w n' := by
  obtain ⟨u, v, rfl, hu, hv⟩ := h
  obtain ⟨ws, rfl, hlength, hws⟩ := holds_single.1 hv
  -- The count of the arguments so far says that there is room for the next.
  let P : Nat → List Token → Prop := fun k u => k ≤ maxArity →
    ∀ n, ∃ list n', list.length = k ∧ Reads n (.arguments list) u n'
  have hfirst : P 1 u := by
    intro _ n
    obtain ⟨e, n', he⟩ := hu n
    exact ⟨[e], n', rfl, .one he⟩
  have hall : P (1 + ws.length) (u ++ ws.flatten) := by
    refine extend ?_ hfirst hws
    intro k u v hu hv hk n
    obtain ⟨list, n₁, hlist, hreads⟩ := hu (by omega) n
    obtain ⟨l, x, rfl, hx⟩ := holds_sym_cons.1 hv
    obtain ⟨e, n₂, he⟩ := holds_single.1 hx n₁
    exact ⟨list ++ [e], n₂, by simp [hlist], .more hreads (by omega) he⟩
  have hroom : 1 + ws.length ≤ maxArity := by
    have : 0 < maxArity := by decide
    omega
  obtain ⟨list, n', -, hlist⟩ := hall hroom n
  exact ⟨list, n', hlist⟩

theorem readAt_primary (h : Nonterminal.primary.rule.Holds Means w) :
    ReadAt .call w := by
  intro n
  rcases h with (h | h | h | h | h | h | h | h | h | h)
  · obtain ⟨⟨kind, line⟩, rfl, spelling, value, rfl⟩ := h
    exact ⟨_, n, .literal rfl⟩
  · obtain ⟨⟨kind, line⟩, rfl, content, rfl⟩ := h
    exact ⟨_, n, .literal rfl⟩
  · obtain ⟨line, rfl⟩ := holds_word.1 h
    exact ⟨_, n, .literal rfl⟩
  · obtain ⟨line, rfl⟩ := holds_word.1 h
    exact ⟨_, n, .literal rfl⟩
  · obtain ⟨line, rfl⟩ := holds_word.1 h
    exact ⟨_, n, .literal rfl⟩
  · obtain ⟨line, rfl⟩ := holds_word.1 h
    exact ⟨_, n + 1, .this⟩
  · obtain ⟨x, line, rfl⟩ := holds_ident.1 h
    exact ⟨_, n + 1, .name⟩
  · obtain ⟨l, x, rfl, y, z, rfl, hy, hz⟩ := holds_sym_cons.1 h
    obtain ⟨l', rfl⟩ := holds_sym.1 (holds_single.1 hz)
    obtain ⟨e, n', he⟩ := hy n
    exact ⟨_, n', .group he⟩
  · obtain ⟨l, x, rfl, hx⟩ := holds_word_cons.1 h
    obtain ⟨l', y, rfl, hy⟩ := holds_sym_cons.1 hx
    obtain ⟨method, l'', rfl⟩ := holds_ident.1 (holds_single.1 hy)
    exact ⟨_, n + 1, .super⟩
  · cases h

theorem readAt_unary (h : Nonterminal.unary.rule.Holds Means w) :
    ReadAt (.rank .operand) w := by
  intro n
  rcases h with (⟨u, v, rfl, hu, hv⟩ | h | h)
  · obtain ⟨e, n', he⟩ := holds_single.1 hv n
    rcases hu with (hu | hu | hu)
    · obtain ⟨l, rfl⟩ := holds_sym.1 hu
      exact ⟨_, n', .unary rfl he⟩
    · obtain ⟨l, rfl⟩ := holds_sym.1 hu
      exact ⟨_, n', .unary rfl he⟩
    · cases hu
  · obtain ⟨e, n', he⟩ := h n
    exact ⟨e, n', .operand he⟩
  · cases h

theorem readAt_assignment (h : Nonterminal.assignment.rule.Holds Means w) :
    ReadAt (.rank .assignment) w := by
  intro n
  rcases h with (⟨u, v, rfl, hu, hv⟩ | h | h)
  · obtain ⟨x, line, y, rfl, hy⟩ := holds_ident_cons.1 hv
    obtain ⟨l, z, rfl, hz⟩ := holds_sym_cons.1 hy
    have hvalue : ReadAt (.rank .assignment) z := holds_single.1 hz
    rcases hu with (rfl | ⟨p, q, rfl, hp, hq⟩)
    · obtain ⟨e, n', he⟩ := hvalue (n + 1)
      exact ⟨_, n' + 1, .assign he⟩
    · obtain ⟨l', rfl⟩ := holds_sym.1 (holds_single.1 hq)
      obtain ⟨object, n₁, hobject⟩ := hp n
      obtain ⟨e, n₂, he⟩ := hvalue n₁
      rw [List.append_assoc]
      exact ⟨_, n₂, .set hobject he⟩
  · obtain ⟨e, n', he⟩ := h n
    exact ⟨e, n', .assignment he⟩
  · cases h

theorem means_closed (A : Nonterminal) (w : List Token)
    (h : A.rule.Holds Means w) : Means A w := by
  cases A with
  | expression => exact h
  | assignment => exact readAt_assignment h
  | logicOr => exact readAt_level (l := .or) h
  | logicAnd => exact readAt_level (l := .and) h
  | equality => exact readAt_level (l := .equality) h
  | comparison => exact readAt_level (l := .comparison) h
  | term => exact readAt_level (l := .term) h
  | factor => exact readAt_level (l := .factor) h
  | unary => exact readAt_unary h
  | call => exact readAt_call h
  | arguments => exact read_arguments h
  | primary => exact readAt_primary h
  | _ => trivial

/-- The expressions of the grammar are those that can be read. -/
theorem derivable_expression_iff :
    Derivable .expression w ↔
      ∀ n, ∃ e n', Reads n (.expr (.rank .assignment) e) w n' := by
  constructor
  · intro h
    exact holds_of_derives means_closed h
  · intro h
    obtain ⟨e, n', he⟩ := h 0
    exact derivable_expression (derived_of_reads he)

end Lox.Expr
