import Lox.Proofs.Expr.Reading
import Lox.Proofs.Expr.Relabel
import Lox.Proofs.Induction

/-!
# Expressions written out

`flatten` writes an expression out as tokens, in the order of the source.  It
puts in the parentheses, dots, commas and equal signs that the constructors
stand for and nothing else; in particular it adds no parentheses around an
operand.  So only some trees can be read back: those in which every part
binds at least as tightly as its place asks for.  `WellShaped` says so.

Reading and writing are inverse to each other.  A well-shaped expression is
read back from its tokens, up to its ids, and what is read is well shaped and
is written as the tokens it was read from, up to their lines and the spelling
of numbers.
-/

namespace Lox

/-- A kind without the spelling of a number. -/
def Token.Kind.bare : Token.Kind → Token.Kind
  | .number _ value => .number "" value
  | kind => kind

/-- A token without its line and the spelling of a number. -/
def Token.bare (t : Token) : Token.Kind :=
  t.kind.bare

/-- The kind of token that writes a literal. -/
def Literal.kind : Literal → Token.Kind
  | nil => .keyword .kwNil
  | bool false => .keyword .kwFalse
  | bool true => .keyword .kwTrue
  | number value => .number (Number.treeText value) value
  | string content => .string content

namespace Expr

/-! ## The tokens of a tree -/

mutual

/-- The tokens that write an expression.  Tokens whose line the tree does not
keep are put on line zero. -/
def flatten : Expr → List Token
  | .literal value => [⟨value.kind, 0⟩]
  | .group inner =>
    ⟨.symbol .leftParen, 0⟩ :: (flatten inner ++ [⟨.symbol .rightParen, 0⟩])
  | .unary op line right => ⟨.symbol op.symbol, line⟩ :: flatten right
  | .binary left op line right =>
    flatten left ++ ⟨.symbol op.symbol, line⟩ :: flatten right
  | .logical left op line right =>
    flatten left ++ ⟨.keyword op.keyword, line⟩ :: flatten right
  | .variable ref => [⟨.identifier ref.name, ref.line⟩]
  | .assign target value =>
    ⟨.identifier target.name, target.line⟩ :: ⟨.symbol .equal, 0⟩ ::
      flatten value
  | .call callee line arguments =>
    flatten callee ++ ⟨.symbol .leftParen, 0⟩ ::
      (flattenAll arguments ++ [⟨.symbol .rightParen, line⟩])
  | .get object name =>
    flatten object ++
      [⟨.symbol .dot, 0⟩, ⟨.identifier name.name, name.line⟩]
  | .set object name value =>
    flatten object ++ ⟨.symbol .dot, 0⟩ ::
      ⟨.identifier name.name, name.line⟩ :: ⟨.symbol .equal, 0⟩ ::
        flatten value
  | .this _ line => [⟨.keyword .kwThis, line⟩]
  | .super _ line method =>
    [⟨.keyword .kwSuper, line⟩, ⟨.symbol .dot, 0⟩,
      ⟨.identifier method.name, method.line⟩]

/-- The tokens that write arguments, with commas between them. -/
def flattenAll : List Expr → List Token
  | [] => []
  | [e] => flatten e
  | e :: rest => flatten e ++ ⟨.symbol .comma, 0⟩ :: flattenAll rest

end

theorem flattenAll_append_singleton {list : List Expr} (h : list ≠ [])
    (e : Expr) :
    flattenAll (list ++ [e]) =
      flattenAll list ++ ⟨.symbol .comma, 0⟩ :: flatten e := by
  induction list with
  | nil => exact absurd rfl h
  | cons first rest ih =>
    cases rest with
    | nil => simp [flattenAll]
    | cons second rest =>
      have := ih (List.cons_ne_nil _ _)
      simp only [List.cons_append] at this
      simp [flattenAll, this]

/-! ## Shapes -/

/-- How tightly a tier binds. -/
def Tier.tightness : Tier → Nat
  | rank r => r.tightness
  | call => 8

/-- How tightly an expression binds by the construct at its top. -/
def tightness : Expr → Nat
  | .assign _ _ => Rank.assignment.tightness
  | .set _ _ _ => Rank.assignment.tightness
  | .logical _ op _ _ => (Rank.level (Operator.logical op).level).tightness
  | .binary _ op _ _ => (Rank.level (Operator.binary op).level).tightness
  | .unary _ _ _ => Rank.operand.tightness
  | _ => Tier.call.tightness

mutual

/-- Every part of the expression binds as tightly as its place asks for.  The
left operand of an operator may be on the level of the operator, the right
one must bind tighter; what is called or accessed must bind tightest.  Calls
have at most `maxArity` arguments. -/
def WellShaped : Expr → Prop
  | .literal _ => True
  | .group inner => WellShaped inner
  | .unary _ _ right =>
    WellShaped right ∧ Rank.operand.tightness ≤ right.tightness
  | .binary left op _ right =>
    let level := (Rank.level (Operator.binary op).level).tightness
    (WellShaped left ∧ level ≤ left.tightness) ∧
      (WellShaped right ∧ level < right.tightness)
  | .logical left op _ right =>
    let level := (Rank.level (Operator.logical op).level).tightness
    (WellShaped left ∧ level ≤ left.tightness) ∧
      (WellShaped right ∧ level < right.tightness)
  | .variable _ => True
  | .assign _ value => WellShaped value
  | .call callee _ arguments =>
    (WellShaped callee ∧ Tier.call.tightness ≤ callee.tightness) ∧
      (AllWellShaped arguments ∧ arguments.length ≤ maxArity)
  | .get object _ =>
    WellShaped object ∧ Tier.call.tightness ≤ object.tightness
  | .set object _ value =>
    (WellShaped object ∧ Tier.call.tightness ≤ object.tightness) ∧
      WellShaped value
  | .this _ _ => True
  | .super _ _ _ => True

/-- Every expression of the list is well shaped. -/
def AllWellShaped : List Expr → Prop
  | [] => True
  | e :: rest => WellShaped e ∧ AllWellShaped rest

end

theorem allWellShaped_append_singleton {list : List Expr} {e : Expr} :
    AllWellShaped (list ++ [e]) ↔ AllWellShaped list ∧ WellShaped e := by
  induction list with
  | nil => simp [AllWellShaped]
  | cons first rest ih => simp [AllWellShaped, ih, and_assoc]

/-! ## What is read is well shaped -/

theorem kind_bare_of_literal? {kind : Token.Kind} {value : Literal}
    (h : literal? kind = some value) : value.kind.bare = kind.bare := by
  unfold literal? at h
  split at h <;> cases h <;> rfl

theorem kind_eq_of_unaryOp? {kind : Token.Kind} {op : UnaryOp}
    (h : unaryOp? kind = some op) : kind = .symbol op.symbol := by
  unfold unaryOp? at h
  split at h <;> cases h <;> rfl

theorem flatten_apply (op : Operator) (left right : Expr) (line : Nat) :
    (op.apply left line right).flatten =
      left.flatten ++ ⟨op.kind, line⟩ :: right.flatten := by
  cases op <;> simp only [Operator.apply, flatten, Operator.kind]

theorem tightness_apply (op : Operator) (left right : Expr) (line : Nat) :
    (op.apply left line right).tightness = (Rank.level op.level).tightness := by
  cases op <;> rfl

theorem wellShaped_apply {op : Operator} {left right : Expr} {line : Nat} :
    (op.apply left line right).WellShaped ↔
      (left.WellShaped ∧ (Rank.level op.level).tightness ≤ left.tightness) ∧
        (right.WellShaped ∧
          (Rank.level op.level).tightness < right.tightness) := by
  cases op <;> simp only [Operator.apply, WellShaped]

/-- The phrase is well shaped and is written as the tokens. -/
def Phrase.Written (w : List Token) : Phrase → Prop
  | .expr t e =>
    e.WellShaped ∧ t.tightness ≤ e.tightness ∧
      e.flatten.map Token.bare = w.map Token.bare
  | .arguments list =>
    list ≠ [] ∧ AllWellShaped list ∧ list.length ≤ maxArity ∧
      (flattenAll list).map Token.bare = w.map Token.bare

/-- What is read is well shaped and is written as it was read. -/
theorem written_of_reads {n n' : Nat} {phrase : Phrase} {w : List Token}
    (h : Reads n phrase w n') : phrase.Written w := by
  induction h with
  | literal h =>
    refine ⟨trivial, Nat.le_refl _, ?_⟩
    simp [flatten, Token.bare, kind_bare_of_literal? h]
  | name | this | super =>
    exact ⟨trivial, Nat.le_refl _, rfl⟩
  | group inner ih =>
    obtain ⟨hshape, -, hw⟩ := ih
    refine ⟨hshape, Nat.le_refl _, ?_⟩
    simp [flatten, hw, Token.bare]
  | callEmpty head ih =>
    obtain ⟨hshape, htight, hw⟩ := ih
    refine ⟨⟨⟨hshape, htight⟩, trivial, Nat.zero_le _⟩, Nat.le_refl _, ?_⟩
    simp [flatten, flattenAll, hw, Token.bare]
  | call head tail ihhead ihtail =>
    obtain ⟨hshape, htight, hw⟩ := ihhead
    obtain ⟨-, hlist, hlength, hw'⟩ := ihtail
    refine ⟨⟨⟨hshape, htight⟩, hlist, hlength⟩, Nat.le_refl _, ?_⟩
    simp [flatten, hw, hw', Token.bare]
  | get head ih =>
    obtain ⟨hshape, htight, hw⟩ := ih
    refine ⟨⟨hshape, htight⟩, Nat.le_refl _, ?_⟩
    simp [flatten, hw, Token.bare]
  | one only ih =>
    obtain ⟨hshape, -, hw⟩ := ih
    exact ⟨by simp, ⟨hshape, trivial⟩, by rw [List.length_singleton]; decide, hw⟩
  | more earlier room last ihearlier ihlast =>
    obtain ⟨hne, hlist, -, hw⟩ := ihearlier
    obtain ⟨hshape, -, hw'⟩ := ihlast
    refine ⟨by simp, allWellShaped_append_singleton.2 ⟨hlist, hshape⟩, ?_, ?_⟩
    · rw [List.length_append, List.length_singleton]
      exact room
    · rw [flattenAll_append_singleton hne]
      simp [hw, hw', Token.bare]
  | operand inner ih =>
    obtain ⟨hshape, htight, hw⟩ := ih
    exact ⟨hshape, Nat.le_trans (by decide) htight, hw⟩
  | unary h inner ih =>
    obtain ⟨hshape, htight, hw⟩ := ih
    refine ⟨⟨hshape, htight⟩, Nat.le_refl _, ?_⟩
    simp [flatten, hw, Token.bare, kind_eq_of_unaryOp? h]
  | @level n l e w n' inner ih =>
    obtain ⟨hshape, htight, hw⟩ := ih
    have hl := l.tightness_operandRank
    simp only [Tier.tightness] at htight ⊢
    exact ⟨hshape, by simp only [Tier.tightness]; omega, hw⟩
  | @operator n l left w n' kind op line right w' n'' first h second
      ihfirst ihsecond =>
    obtain ⟨hleft, htleft, hw⟩ := ihfirst
    obtain ⟨hright, htright, hw'⟩ := ihsecond
    obtain ⟨hkind, rfl⟩ := Operator.ofKind?_of_operator? h
    have hl := op.level.tightness_operandRank
    simp only [Tier.tightness] at htleft htright
    refine ⟨wellShaped_apply.2 ⟨⟨hleft, htleft⟩, hright, by omega⟩, ?_, ?_⟩
    · rw [tightness_apply]
      exact Nat.le_refl _
    · rw [flatten_apply]
      simp [hw, hw', Token.bare, Operator.kind_eq_of_ofKind? hkind]
  | assignment inner ih =>
    obtain ⟨hshape, -, hw⟩ := ih
    exact ⟨hshape, Nat.zero_le _, hw⟩
  | assign inner ih =>
    obtain ⟨hshape, -, hw⟩ := ih
    refine ⟨hshape, Nat.le_refl _, ?_⟩
    simp [flatten, hw, Token.bare]
  | set head inner ihhead ihinner =>
    obtain ⟨hobject, htight, hw⟩ := ihhead
    obtain ⟨hvalue, -, hw'⟩ := ihinner
    refine ⟨⟨⟨hobject, htight⟩, hvalue⟩, Nat.le_refl _, ?_⟩
    simp [flatten, hw, hw', Token.bare]

/-! ## What is well shaped is read back -/

/-- An expression is also one of the next looser tier. -/
theorem exists_within_looser {t : Tier} (h : 0 < t.tightness) :
    ∃ t', t'.tightness + 1 = t.tightness ∧ t.Within t' := by
  have hlevel : ∀ l : Level, ∃ t' : Tier,
      t'.tightness + 1 = l.operandRank.tightness ∧
        (Tier.rank l.operandRank).Within t' := by
    intro l
    exact ⟨.rank (.level l), l.tightness_operandRank.symm,
      fun _ _ _ _ => .level⟩
  cases t with
  | call => exact ⟨.rank .operand, rfl, fun _ _ _ _ => .operand⟩
  | rank r =>
    cases r with
    | assignment => exact absurd h (Nat.lt_irrefl 0)
    | operand => exact hlevel .factor
    | level l =>
      cases l with
      | or => exact ⟨.rank .assignment, rfl, fun _ _ _ _ => .assignment⟩
      | and => exact hlevel .or
      | equality => exact hlevel .and
      | comparison => exact hlevel .equality
      | term => exact hlevel .comparison
      | factor => exact hlevel .term

theorem Tier.eq_of_tightness_eq {t t' : Tier}
    (h : t.tightness = t'.tightness) : t = t' := by
  rcases t with ((_ | (_ | _ | _ | _ | _ | _) | _) | _) <;>
    rcases t' with ((_ | (_ | _ | _ | _ | _ | _) | _) | _) <;>
    first | rfl | cases h

/-- An expression of a tier is also one of every looser tier. -/
theorem Tier.within_of_tightness_le {t t' : Tier}
    (h : t'.tightness ≤ t.tightness) : t.Within t' := by
  obtain ⟨k, hk⟩ := Nat.exists_eq_add_of_le h
  induction k generalizing t with
  | zero =>
    obtain rfl := Tier.eq_of_tightness_eq hk
    exact .refl t
  | succ k ih =>
    obtain ⟨t₁, ht₁, hstep⟩ := exists_within_looser (t := t) (by omega)
    intro n e w n' hread
    exact ih (by omega) (by omega) _ _ _ _ (hstep _ _ _ _ hread)

/-- The tokens of the expression are read as it at a tier, up to ids. -/
def ReadBack (t : Tier) (e : Expr) : Prop :=
  ∀ n, ∃ e' n', Reads n (.expr t e') e.flatten n' ∧
    e'.relabel .noIds = e.relabel .noIds

theorem ReadBack.looser {t t' : Tier} {e : Expr} (h : ReadBack t e)
    (hle : t'.tightness ≤ t.tightness) : ReadBack t' e := by
  intro n
  obtain ⟨e', n', hread, heq⟩ := h n
  exact ⟨e', n', Tier.within_of_tightness_le hle _ _ _ _ hread, heq⟩

theorem readBack_arguments {list : List Expr}
    (h : ∀ a ∈ list, ReadBack (.rank .assignment) a) (hne : list ≠ [])
    (hlength : list.length ≤ maxArity) (n : Nat) :
    ∃ list' n', Reads n (.arguments list') (flattenAll list) n' ∧
      list'.length = list.length ∧
      list'.map (relabel .noIds) = list.map (relabel .noIds) := by
  -- Arguments are read from the left, so the last one is split off.
  obtain ⟨front, last, rfl⟩ : ∃ front last, list = front ++ [last] :=
    ⟨_, _, (List.dropLast_concat_getLast hne).symm⟩
  rw [List.length_append, List.length_singleton] at hlength
  by_cases hfront : front = []
  · subst hfront
    obtain ⟨e', n', hread, heq⟩ := h last (by simp) n
    exact ⟨[e'], n', .one hread, rfl, by simp [heq]⟩
  · obtain ⟨list', n₁, hlist, hlen, hmap⟩ := readBack_arguments
      (fun a ha => h a (List.mem_append_left _ ha)) hfront (by omega) n
    obtain ⟨e', n', hread, heq⟩ := h last (by simp) n₁
    refine ⟨list' ++ [e'], n', ?_, by simp [hlen], by simp [hmap, heq]⟩
    rw [flattenAll_append_singleton hfront]
    exact .more hlist (by omega) hread
termination_by list.length
decreasing_by simp_all

theorem literal?_kind (value : Literal) : literal? value.kind = some value := by
  cases value with
  | bool b => cases b <;> rfl
  | _ => rfl

theorem unaryOp?_symbol (op : UnaryOp) :
    unaryOp? (.symbol op.symbol) = some op := by
  cases op <;> rfl

/-- An operator between operands that are read back is read back. -/
theorem readBack_apply {op : Operator} {left right : Expr} {line : Nat}
    (hleft : ReadBack (.rank (.level op.level)) left)
    (hright : ReadBack (.rank op.level.operandRank) right) :
    ReadBack (.rank (.level op.level)) (op.apply left line right) := by
  intro n
  obtain ⟨left', n₁, hl, heql⟩ := hleft n
  obtain ⟨right', n₂, hr, heqr⟩ := hright n₁
  refine ⟨op.apply left' line right', n₂, ?_, ?_⟩
  · rw [flatten_apply]
    exact .operator hl op.operator?_kind hr
  · rw [relabel_apply, relabel_apply, heql, heqr]

theorem wellShaped_of_mem {list : List Expr} (h : AllWellShaped list) :
    ∀ e ∈ list, e.WellShaped := by
  induction list with
  | nil => simp
  | cons first rest ih =>
    obtain ⟨hfirst, hrest⟩ := h
    intro e he
    rcases List.mem_cons.1 he with (rfl | he)
    · exact hfirst
    · exact ih hrest e he

/-- The tier at which an expression is built by the construct at its top. -/
def topTier : Expr → Tier
  | .assign _ _ => .rank .assignment
  | .set _ _ _ => .rank .assignment
  | .logical _ op _ _ => .rank (.level (Operator.logical op).level)
  | .binary _ op _ _ => .rank (.level (Operator.binary op).level)
  | .unary _ _ _ => .rank .operand
  | _ => .call

theorem tightness_topTier (e : Expr) : e.topTier.tightness = e.tightness := by
  cases e <;> rfl

/-- A well-shaped expression is read back from its tokens. -/
theorem readBack_topTier {e : Expr} (h : e.WellShaped) :
    ReadBack e.topTier e := by
  -- A part is read back at its own tier, hence at the looser one of its place.
  have place : ∀ {e : Expr} {t : Tier}, ReadBack e.topTier e →
      t.tightness ≤ e.tightness → ReadBack t e := by
    intro e t he hle
    exact he.looser (e.tightness_topTier ▸ hle)
  have placeRight : ∀ {e : Expr} (op : Operator), ReadBack e.topTier e →
      (Rank.level op.level).tightness < e.tightness →
      ReadBack (.rank op.level.operandRank) e := by
    intro e op he hlt
    refine place he ?_
    rw [Tier.tightness, Level.tightness_operandRank]
    exact hlt
  induction e with
  | literal value =>
    intro n
    exact ⟨_, n, .literal (literal?_kind value), rfl⟩
  | occurrence ref => exact fun n => ⟨_, n + 1, .name, rfl⟩
  | this id line => exact fun n => ⟨_, n + 1, .this, rfl⟩
  | super id line method => exact fun n => ⟨_, n + 1, .super, rfl⟩
  | group inner ih =>
    intro n
    obtain ⟨e', n', hread, heq⟩ := place (t := .rank .assignment) (ih h)
      (Nat.zero_le _) n
    exact ⟨_, n', .group hread, by simp only [relabel, heq]⟩
  | unary op line right ih =>
    intro n
    obtain ⟨e', n', hread, heq⟩ := place (t := .rank .operand) (ih h.1) h.2 n
    exact ⟨_, n', .unary (unaryOp?_symbol op) hread,
      by simp only [relabel, heq]⟩
  | binary left op line right ihleft ihright =>
    obtain ⟨⟨hleft, htleft⟩, hright, htright⟩ := h
    exact readBack_apply (place (ihleft hleft) htleft)
      (placeRight (.binary op) (ihright hright) htright)
  | logical left op line right ihleft ihright =>
    obtain ⟨⟨hleft, htleft⟩, hright, htright⟩ := h
    exact readBack_apply (place (ihleft hleft) htleft)
      (placeRight (.logical op) (ihright hright) htright)
  | assign target value ih =>
    intro n
    obtain ⟨e', n', hread, heq⟩ := place (t := .rank .assignment) (ih h)
      (Nat.zero_le _) (n + 1)
    exact ⟨_, n' + 1, .assign hread, by simp only [relabel, heq]; rfl⟩
  | get object name ih =>
    intro n
    obtain ⟨e', n', hread, heq⟩ := place (t := .call) (ih h.1) h.2 n
    exact ⟨_, n', .get hread, by simp only [relabel, heq]⟩
  | set object name value ihobject ihvalue =>
    obtain ⟨⟨hobject, htight⟩, hvalue⟩ := h
    intro n
    obtain ⟨object', n₁, hread, heq⟩ :=
      place (t := .call) (ihobject hobject) htight n
    obtain ⟨value', n₂, hread', heq'⟩ := place (t := .rank .assignment)
      (ihvalue hvalue) (Nat.zero_le _) n₁
    exact ⟨_, n₂, .set hread hread', by simp only [relabel, heq, heq']⟩
  | call callee line arguments ihcallee iharguments =>
    obtain ⟨⟨hcallee, htight⟩, hall, hlength⟩ := h
    intro n
    obtain ⟨callee', n₁, hread, heq⟩ :=
      place (t := .call) (ihcallee hcallee) htight n
    by_cases hne : arguments = []
    · subst hne
      exact ⟨_, n₁, .callEmpty hread, by simp only [relabel, heq]⟩
    · have hback : ∀ a ∈ arguments, ReadBack (.rank .assignment) a := by
        intro a ha
        exact place (iharguments a ha (wellShaped_of_mem hall a ha))
          (Nat.zero_le _)
      obtain ⟨list', n₂, hlist, -, hmap⟩ :=
        readBack_arguments hback hne hlength n₁
      exact ⟨_, n₂, .call hread hlist, by simp [relabel, heq, hmap]⟩

/-! ## A whole source -/

/-- Reading is the inverse of writing.  A source that holds the tokens of a
well-shaped expression is read as that expression, up to its ids; and an
expression that a source is read as is well shaped and is written as the
tokens of the source, up to their lines and the spelling of numbers. -/
theorem parse_inverts_flatten :
    (∀ (e : Expr) (scan : Token.Scan) (firstId : Nat), e.WellShaped →
      scan.tokens = e.flatten →
      ∃ e', (parse scan firstId).result = .ok e' ∧
        e'.relabel .noIds = e.relabel .noIds) ∧
    (∀ (scan : Token.Scan) (firstId : Nat) (e : Expr),
      (parse scan firstId).result = .ok e →
      e.WellShaped ∧ e.flatten.map Token.bare = scan.tokens.map Token.bare) := by
  constructor
  · intro e scan firstId hshape htokens
    have hback : ReadBack (.rank .assignment) e :=
      (readBack_topTier hshape).looser (Nat.zero_le _)
    obtain ⟨e', n', hread, heq⟩ := hback firstId
    rw [← htokens] at hread
    exact ⟨e', by rw [parse_eq_iff.2 hread], heq⟩
  · intro scan firstId e h
    have hread := parse_eq_iff.1 (Parsed.eq_of_result h)
    obtain ⟨hshape, -, hw⟩ := written_of_reads hread
    exact ⟨hshape, hw⟩

/-- The tree of `a.b = !c or d("s", e = this)`. -/
def assignmentSample : Expr :=
  .set (.variable ⟨0, "a", 1⟩) ⟨"b", 1⟩
    (.logical (.unary .not 1 (.variable ⟨1, "c", 1⟩)) .or 1
      (.call (.variable ⟨2, "d", 1⟩) 1
        [.literal (.string "s"), .assign ⟨4, "e", 1⟩ (.this 3 1)]))

theorem parse_inverts_flatten_sample :
    ∃ e', (parse ⟨assignmentSample.flatten.map .token, 1⟩ 7).result = .ok e' ∧
      e'.relabel .noIds = assignmentSample.relabel .noIds ∧
      (e'.WellShaped ∧ e'.flatten.map Token.bare =
        assignmentSample.flatten.map Token.bare) := by
  have hshape : assignmentSample.WellShaped := by
    simp [assignmentSample, WellShaped, AllWellShaped, tightness,
      Rank.tightness, Tier.tightness, Operator.level, maxArity]
  obtain ⟨e', hparse, heq⟩ := parse_inverts_flatten.1 assignmentSample
    ⟨assignmentSample.flatten.map .token, 1⟩ 7 hshape rfl
  exact ⟨e', hparse, heq, parse_inverts_flatten.2 _ _ _ hparse⟩

end Expr

end Lox
