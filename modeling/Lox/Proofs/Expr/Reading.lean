import Lox.Proofs.Expr.Phrase

/-!
# The reader of expressions and its phrases

The machine that reads expressions and the rules of `Reads` agree.

* `runs_of_reads` runs the machine along a derivation.  It holds under any
  stack and for any tokens behind the phrase that do not continue it, so
  `read_of_reads` reads an expression wherever it stands.
* `Progress` is the converse, an invariant of the machine.  `Opened` says
  which tokens the frames of the stack have taken and which tier of
  expression the innermost one waits for; `keeps_step` shows that every step
  without a fault keeps it, so `reads_of_read` has a derivation for whatever
  comes out at the end.
-/

namespace Lox.Expr

/-! ## The machine follows the phrases -/

theorem readFrom_next {control control' : Control} {stack stack' : List Frame}
    {c c' : Cursor}
    (h : step control stack c = .next control' stack' c') :
    readFrom control stack c = readFrom control' stack' c' := by
  rw [readFrom]
  split
  · next h' => rw [h] at h'; cases h'; rfl
  · next h' => rw [h] at h'; cases h'
  · next h' => rw [h] at h'; cases h'

theorem readFrom_done {control : Control} {stack : List Frame}
    {c c' : Cursor} {e : Expr} (h : step control stack c = .done e c') :
    readFrom control stack c = .ok e c' := by
  rw [readFrom]
  split
  · next h' => rw [h] at h'; cases h'
  · next h' => rw [h] at h'; cases h'; rfl
  · next h' => rw [h] at h'; cases h'

theorem readFrom_stop {control : Control} {stack : List Frame}
    {c c' : Cursor} {d : Diagnostic} (h : step control stack c = .stop d c') :
    readFrom control stack c = .error d c' := by
  rw [readFrom]
  split
  · next h' => rw [h] at h'; cases h'
  · next h' => rw [h] at h'; cases h'
  · next h' => rw [h] at h'; cases h'; rfl

section Completeness

variable {e : Expr} {stack : List Frame} {rest : List Token}
  {endLine n : Nat} {noted : List Diagnostic}

theorem readFrom_left_of_stops {l : Level} (h : (Rank.level l).Stops rest) :
    readFrom (.built e) (.left l :: stack) ⟨rest, endLine, n, noted⟩ =
      readFrom (.built e) stack ⟨rest, endLine, n, noted⟩ := by
  apply readFrom_next
  cases rest with
  | nil => rfl
  | cons t rest => simp only [step, resume, Level.operator?_of_stops h]

theorem readFrom_suffix_of_stops (h : Rank.operand.Stops rest) :
    readFrom (.built e) (.suffix :: stack) ⟨rest, endLine, n, noted⟩ =
      readFrom (.built e) stack ⟨rest, endLine, n, noted⟩ := by
  apply readFrom_next
  simp only [step, resume, afterSuffix]
  split
  · simp [Rank.stops_cons, Rank.continues] at h
  · simp [Rank.stops_cons, Rank.continues] at h
  · simp [Rank.stops_cons, Rank.continues] at h
  · simp [Rank.stops_cons, Rank.continues] at h
  · rfl

theorem readFrom_assignment_of_stops (h : Rank.assignment.Stops rest) :
    readFrom (.built e) (.assignment :: stack) ⟨rest, endLine, n, noted⟩ =
      readFrom (.built e) stack ⟨rest, endLine, n, noted⟩ := by
  apply readFrom_next
  simp only [step, resume]
  split
  · simp [Rank.stops_cons, Rank.continues, Rank.tightness] at h
  · rfl

theorem stops_rightParen (r : Rank) (line : Nat) (rest : List Token) :
    r.Stops (⟨.symbol .rightParen, line⟩ :: rest) := by
  simp [Rank.stops_cons, Rank.continues, Operator.ofKind?]

theorem stops_comma (r : Rank) (line : Nat) (rest : List Token) :
    r.Stops (⟨.symbol .comma, line⟩ :: rest) := by
  simp [Rank.stops_cons, Rank.continues, Operator.ofKind?]

theorem readFrom_comma {callee : Expr} {earlier : List Expr} {line : Nat}
    (h : earlier.length + 1 < maxArity) :
    readFrom (.built e) (.argument callee earlier :: stack)
        ⟨⟨.symbol .comma, line⟩ :: rest, endLine, n, noted⟩ =
      readFrom (.read .assignment) (.argument callee (e :: earlier) :: stack)
        ⟨rest, endLine, n, noted⟩ := by
  apply readFrom_next
  have hroom : ¬ maxArity ≤ (e :: earlier).length := by
    rw [List.length_cons]
    omega
  simp only [step, resume, afterArgument, Cursor.noteIf, hroom, decide_false]
  rfl

/-- Arguments are read behind a parenthesis that does not close at once. -/
theorem readFrom_leftParen {line : Nat} {list : List Expr} {w : List Token}
    {n' n'' : Nat} (h : Reads n' (.arguments list) w n'') :
    readFrom (.built e) (.suffix :: stack)
        ⟨⟨.symbol .leftParen, line⟩ :: (w ++ rest), endLine, n, noted⟩ =
      readFrom (.read .assignment) (.argument e [] :: stack)
        ⟨w ++ rest, endLine, n, noted⟩ := by
  obtain ⟨⟨kind, l⟩, w', rfl, hstart⟩ := h.head
  apply readFrom_next
  simp only [step, resume, afterSuffix, List.cons_append]
  split
  · next heq => cases heq; cases hstart
  · next heq => cases heq; rfl
  · next heq => cases heq
  · next heq => cases heq
  · next hne _ _ => exact absurd rfl (hne _ _)

theorem step_literal {kind : Token.Kind} {value : Literal} {line : Nat}
    (h : literal? kind = some value) :
    step (.read .operand) stack ⟨⟨kind, line⟩ :: rest, endLine, n, noted⟩ =
      .next (.built (.literal value)) (.suffix :: stack)
        ⟨rest, endLine, n, noted⟩ := by
  unfold literal? at h
  split at h <;> cases h <;> rfl

theorem step_unary {kind : Token.Kind} {op : UnaryOp} {line : Nat}
    (h : unaryOp? kind = some op) :
    step (.read .operand) stack ⟨⟨kind, line⟩ :: rest, endLine, n, noted⟩ =
      .next (.read .operand) (.unary op line :: stack)
        ⟨rest, endLine, n, noted⟩ := by
  simp only [step, readOperand, h]
  rfl

theorem step_operator {l : Level} {kind : Token.Kind} {op : Operator}
    {line : Nat} (h : l.operator? kind = some op) :
    step (.built e) (.left l :: stack)
        ⟨⟨kind, line⟩ :: rest, endLine, n, noted⟩ =
      .next (.read l.operandRank) (.right l e op line :: stack)
        ⟨rest, endLine, n, noted⟩ := by
  simp only [step, resume, h]
  rfl

end Completeness

/-- The machine reads the phrase from the tokens, under any stack.  An
expression of a level is left with the frame that looks for another operator
of the level, an expression that suffixes may follow with the frame that
looks for them, and arguments with the frame that keeps the earlier ones. -/
def Phrase.Runs (n : Nat) (w : List Token) (n' : Nat) : Phrase → Prop
  | .expr (.rank (.level l)) e =>
    ∀ stack rest endLine noted, l.operandRank.Stops rest →
      readFrom (.read (.level l)) stack ⟨w ++ rest, endLine, n, noted⟩ =
        readFrom (.built e) (.left l :: stack) ⟨rest, endLine, n', noted⟩
  | .expr (.rank r) e =>
    ∀ stack rest endLine noted, r.Stops rest →
      readFrom (.read r) stack ⟨w ++ rest, endLine, n, noted⟩ =
        readFrom (.built e) stack ⟨rest, endLine, n', noted⟩
  | .expr .call e =>
    ∀ stack rest endLine noted,
      readFrom (.read .operand) stack ⟨w ++ rest, endLine, n, noted⟩ =
        readFrom (.built e) (.suffix :: stack) ⟨rest, endLine, n', noted⟩
  | .arguments list =>
    ∀ callee stack rest endLine noted, Rank.assignment.Stops rest →
      ∃ last earlier, list = (last :: earlier).reverse ∧
        readFrom (.read .assignment) (.argument callee [] :: stack)
            ⟨w ++ rest, endLine, n, noted⟩ =
          readFrom (.built last) (.argument callee earlier :: stack)
            ⟨rest, endLine, n', noted⟩

/-- An expression of any rank is read under any stack, as soon as it is read
in the form that its rank leaves behind. -/
theorem Phrase.Runs.read {n n' : Nat} {w rest : List Token} {r : Rank}
    {e : Expr} (h : (Phrase.expr (.rank r) e).Runs n w n')
    (hrest : r.Stops rest) (stack : List Frame) (endLine : Nat)
    (noted : List Diagnostic) :
    readFrom (.read r) stack ⟨w ++ rest, endLine, n, noted⟩ =
      readFrom (.built e) stack ⟨rest, endLine, n', noted⟩ := by
  cases r with
  | assignment => exact h stack rest endLine noted hrest
  | operand => exact h stack rest endLine noted hrest
  | level l =>
    have hoperand : l.operandRank.Stops rest :=
      hrest.mono (by rw [l.tightness_operandRank]; omega)
    rw [h stack rest endLine noted hoperand]
    exact readFrom_left_of_stops hrest

/-- A target is read on all levels before the `=` behind it is seen. -/
theorem readFrom_target {n n' : Nat} {w rest : List Token} {target : Expr}
    (h : (Phrase.expr .call target).Runs n w n') (line : Nat)
    (stack : List Frame) (endLine : Nat) (noted : List Diagnostic) :
    readFrom (.read .assignment) stack
        ⟨w ++ ⟨.symbol .equal, line⟩ :: rest, endLine, n, noted⟩ =
      readFrom (.read .assignment) (.value target line :: stack)
        ⟨rest, endLine, n', noted⟩ := by
  have hstops : ∀ l, (Rank.level l).Stops (⟨.symbol .equal, line⟩ :: rest) := by
    intro l
    cases l <;> simp [Rank.stops_cons, Rank.continues, Rank.tightness]
  have hoperand : Rank.operand.Stops (⟨.symbol .equal, line⟩ :: rest) :=
    (hstops .or).mono (by decide)
  -- One frame for the assignment and one for every level, then the operand.
  iterate 7 rw [readFrom_next rfl]
  simp only [Level.operandRank, Level.tighter]
  rw [h, readFrom_suffix_of_stops hoperand]
  iterate 6 rw [readFrom_left_of_stops (hstops _)]
  exact readFrom_next rfl

/-- The machine reads what has a derivation. -/
theorem runs_of_reads {n n' : Nat} {phrase : Phrase} {w : List Token}
    (h : Reads n phrase w n') : phrase.Runs n w n' := by
  induction h with
  | literal h =>
    intro stack rest endLine noted
    exact readFrom_next (step_literal h)
  | name =>
    intro stack rest endLine noted
    exact readFrom_next rfl
  | this =>
    intro stack rest endLine noted
    exact readFrom_next rfl
  | super =>
    intro stack rest endLine noted
    exact readFrom_next rfl
  | @group n e w n' l l' inner ih =>
    intro stack rest endLine noted
    have hclose := stops_rightParen .assignment l' rest
    calc readFrom (.read .operand) stack _
      _ = readFrom (.read .assignment) (.group :: .suffix :: stack)
            ⟨w ++ ⟨.symbol .rightParen, l'⟩ :: rest, endLine, n, noted⟩ := by
          rw [List.cons_append, List.append_assoc]
          exact readFrom_next rfl
      _ = readFrom (.built e) (.group :: .suffix :: stack)
            ⟨⟨.symbol .rightParen, l'⟩ :: rest, endLine, n', noted⟩ :=
          ih.read hclose ..
      _ = _ := readFrom_next rfl
  | callEmpty head ih =>
    intro stack rest endLine noted
    rw [List.append_assoc]
    exact (ih ..).trans (readFrom_next rfl)
  | @call n callee w n' list w' n'' l line head tail ihhead ihtail =>
    intro stack rest endLine noted
    have hclose := stops_rightParen .assignment line rest
    obtain ⟨last, earlier, rfl, harguments⟩ :=
      ihtail callee stack _ endLine noted hclose
    rw [List.append_assoc, ihhead, List.cons_append, List.append_assoc,
      List.singleton_append, readFrom_leftParen tail, harguments]
    exact readFrom_next rfl
  | get head ih =>
    intro stack rest endLine noted
    rw [List.append_assoc]
    exact (ih ..).trans (readFrom_next rfl)
  | one only ih =>
    intro callee stack rest endLine noted hrest
    exact ⟨_, [], rfl, ih.read hrest ..⟩
  | @more n list w n' e w' n'' l _ room last ihearlier ihlast =>
    intro callee stack rest endLine noted hrest
    have hcomma := stops_comma .assignment l (w' ++ rest)
    obtain ⟨before, earlier, rfl, harguments⟩ :=
      ihearlier callee stack _ endLine noted hcomma
    refine ⟨e, before :: earlier, by simp, ?_⟩
    rw [List.append_assoc, List.cons_append, harguments,
      readFrom_comma (by simpa using room)]
    exact ihlast.read hrest ..
  | operand inner ih =>
    intro stack rest endLine noted hrest
    exact (ih ..).trans (readFrom_suffix_of_stops hrest)
  | unary h inner ih =>
    intro stack rest endLine noted hrest
    rw [List.cons_append, readFrom_next (step_unary h), ih _ _ _ _ hrest]
    exact readFrom_next rfl
  | level inner ih =>
    intro stack rest endLine noted hrest
    exact (readFrom_next rfl).trans (ih.read hrest ..)
  | operator first h second ihfirst ihsecond =>
    intro stack rest endLine noted hrest
    rw [List.append_assoc, List.cons_append,
      ihfirst _ _ _ _ (Level.stops_operator h _ _),
      readFrom_next (step_operator h), ihsecond.read hrest]
    exact readFrom_next rfl
  | assignment inner ih =>
    intro stack rest endLine noted hrest
    have hlevel : (Rank.level .or).Stops rest := hrest.mono (Nat.zero_le _)
    rw [readFrom_next rfl, ih.read hlevel]
    exact readFrom_assignment_of_stops hrest
  | @assign n x line l value w n' inner ih =>
    intro stack rest endLine noted hrest
    have htarget : (Phrase.expr .call (.variable ⟨n, x, line⟩)).Runs n
        [⟨.identifier x, line⟩] (n + 1) :=
      fun _ _ _ _ => readFrom_next rfl
    refine (readFrom_target htarget l stack endLine noted).trans ?_
    exact (ih _ _ _ _ hrest).trans (readFrom_next rfl)
  | @set n object w n' x line l l' value w' n'' head inner ihhead ihinner =>
    intro stack rest endLine noted hrest
    have htarget : (Phrase.expr .call (.get object ⟨x, line⟩)).Runs n
        (w ++ [⟨.symbol .dot, l⟩, ⟨.identifier x, line⟩]) n' := by
      intro stack rest endLine noted
      rw [List.append_assoc]
      exact (ihhead ..).trans (readFrom_next rfl)
    have hsplit : (w ++ ⟨.symbol .dot, l⟩ :: ⟨.identifier x, line⟩ ::
        ⟨.symbol .equal, l'⟩ :: w') ++ rest =
        (w ++ [⟨.symbol .dot, l⟩, ⟨.identifier x, line⟩]) ++
          ⟨.symbol .equal, l'⟩ :: (w' ++ rest) := by
      simp
    rw [hsplit, readFrom_target htarget, ihinner _ _ _ _ hrest]
    exact readFrom_next rfl

/-- An expression is read from its tokens if nothing behind them continues
it. -/
theorem read_of_reads {n n' : Nat} {e : Expr} {w rest : List Token}
    (h : Reads n (.expr (.rank .assignment) e) w n')
    (hrest : Rank.assignment.Stops rest) (endLine : Nat)
    (noted : List Diagnostic) :
    read ⟨w ++ rest, endLine, n, noted⟩ = .ok e ⟨rest, endLine, n', noted⟩ :=
  ((runs_of_reads h).read hrest [] endLine noted).trans (readFrom_done rfl)

/-! ## The phrases follow the machine -/

/-- Every expression of one tier is one of another. -/
def Tier.Within (t t' : Tier) : Prop :=
  ∀ n e w n', Reads n (.expr t e) w n' → Reads n (.expr t' e) w n'

/-- The tier of expression that the innermost frame waits for.  The whole
machine waits for an assignment. -/
def awaits : List Frame → Tier
  | [] => .rank .assignment
  | .assignment :: _ => .rank (.level .or)
  | .value _ _ :: _ => .rank .assignment
  | .left l :: _ => .rank (.level l)
  | .right l _ _ _ :: _ => .rank l.operandRank
  | .unary _ _ :: _ => .rank .operand
  | .suffix :: _ => .call
  | .argument _ _ :: _ => .rank .assignment
  | .group :: _ => .rank .assignment

/-- The frames of a stack have been opened by reading the tokens, with the
ids from the first number up to the second.  What each frame gives when it
closes is what the frame outside it waits for. -/
inductive Opened : Nat → List Frame → List Token → Nat → Prop where
  | start {n} : Opened n [] [] n
  | assignment {n stack w n'} (outer : Opened n stack w n')
      (h : (Tier.rank .assignment).Within (awaits stack)) :
      Opened n (.assignment :: stack) w n'
  | value {n stack w n' target w' n'' line} (outer : Opened n stack w n')
      (h : (Tier.rank .assignment).Within (awaits stack))
      (read : Reads n' (.expr (.rank (.level .or)) target) w' n'') :
      Opened n (.value target line :: stack)
        (w ++ (w' ++ [⟨.symbol .equal, line⟩])) n''
  | left {n stack w n' l} (outer : Opened n stack w n')
      (h : (Tier.rank (.level l)).Within (awaits stack)) :
      Opened n (.left l :: stack) w n'
  | right {n stack w n' l left w' n'' kind op line}
      (outer : Opened n stack w n')
      (h : (Tier.rank (.level l)).Within (awaits stack))
      (read : Reads n' (.expr (.rank (.level l)) left) w' n'')
      (operator : l.operator? kind = some op) :
      Opened n (.right l left op line :: stack)
        (w ++ (w' ++ [⟨kind, line⟩])) n''
  | unary {n stack w n' kind op line} (outer : Opened n stack w n')
      (h : (Tier.rank .operand).Within (awaits stack))
      (operator : unaryOp? kind = some op) :
      Opened n (.unary op line :: stack) (w ++ [⟨kind, line⟩]) n'
  | suffix {n stack w n'} (outer : Opened n stack w n')
      (h : Tier.call.Within (awaits stack)) :
      Opened n (.suffix :: stack) w n'
  | firstArgument {n stack w n' callee w' n'' l} (outer : Opened n stack w n')
      (h : Tier.call.Within (awaits stack))
      (read : Reads n' (.expr .call callee) w' n'') :
      Opened n (.argument callee [] :: stack)
        (w ++ (w' ++ [⟨.symbol .leftParen, l⟩])) n''
  | argument {n stack w n₁ callee w₁ n₂ earlier w₂ n₃ l l'}
      (outer : Opened n stack w n₁) (h : Tier.call.Within (awaits stack))
      (read : Reads n₁ (.expr .call callee) w₁ n₂)
      (before : Reads n₂ (.arguments earlier.reverse) w₂ n₃)
      (room : earlier.length < maxArity) :
      Opened n (.argument callee earlier :: stack)
        (w ++ (w₁ ++ ⟨.symbol .leftParen, l⟩ ::
          (w₂ ++ [⟨.symbol .comma, l'⟩]))) n₃
  | group {n stack w n' l} (outer : Opened n stack w n')
      (h : Tier.call.Within (awaits stack)) :
      Opened n (.group :: stack) (w ++ [⟨.symbol .leftParen, l⟩]) n'

/-- What has been read when the machine is about to do something: the frames
have been opened, and an expression that is just built is one that the
innermost frame waits for. -/
inductive Progress (n : Nat) : Control → List Frame → List Token → Nat → Prop
  where
  | read {r stack w n'} (outer : Opened n stack w n')
      (h : (Tier.rank r).Within (awaits stack)) :
      Progress n (.read r) stack w n'
  | built {e stack w n' w' n''} (outer : Opened n stack w n')
      (h : Reads n' (.expr (awaits stack) e) w' n'') :
      Progress n (.built e) stack (w ++ w') n''

/-- Whether arguments and property names may follow an expression. -/
def isSuffixable : Expr → Bool
  | .unary _ _ _ => false
  | .binary _ _ _ _ => false
  | .logical _ _ _ _ => false
  | .assign _ _ => false
  | .set _ _ _ => false
  | _ => true

theorem isSuffixable_apply (op : Operator) (left right : Expr) (line : Nat) :
    (op.apply left line right).isSuffixable = false := by
  cases op <;> rfl

/-- An expression that suffixes may follow is of the tightest tier, in
whatever place it is read. -/
theorem Reads.call_of_isSuffixable {n n' : Nat} {t : Tier} {e : Expr}
    {w : List Token} (h : Reads n (.expr t e) w n')
    (he : e.isSuffixable = true) : Reads n (.expr .call e) w n' := by
  generalize hp : Phrase.expr t e = phrase at h
  induction h generalizing t with
  | literal h => cases hp; exact .literal h
  | name => cases hp; exact .name
  | this => cases hp; exact .this
  | super => cases hp; exact .super
  | group inner => cases hp; exact .group inner
  | callEmpty head => cases hp; exact .callEmpty head
  | call head tail => cases hp; exact .call head tail
  | get head => cases hp; exact .get head
  | one | more => cases hp
  | operand inner => cases hp; exact inner
  | unary | assign | set => cases hp; cases he
  | level _ ih | assignment _ ih => cases hp; exact ih rfl
  | operator => cases hp; rw [isSuffixable_apply] at he; cases he

theorem Reads.variable_inv {n n' : Nat} {t : Tier} {ref : Ref} {w : List Token}
    (h : Reads n (.expr t (.variable ref)) w n') :
    w = [⟨.identifier ref.name, ref.line⟩] ∧ n' = n + 1 := by
  cases h.call_of_isSuffixable rfl
  exact ⟨rfl, rfl⟩

theorem Reads.get_inv {n n' : Nat} {t : Tier} {object : Expr} {x : Ident}
    {w : List Token} (h : Reads n (.expr t (.get object x)) w n') :
    ∃ w' l, Reads n (.expr .call object) w' n' ∧
      w = w' ++ [⟨.symbol .dot, l⟩, ⟨.identifier x.name, x.line⟩] := by
  cases h.call_of_isSuffixable rfl with
  | get head => exact ⟨_, _, head, rfl⟩

/-- A step that notes no fault keeps the account of what has been read; the
last one gives an expression that all tokens together are read as. -/
def Step.Keeps (n : Nat) (w : List Token) (c : Cursor) : Step → Prop
  | .next control stack c' =>
    c'.noted = c.noted →
      ∃ w', c.rest = w' ++ c'.rest ∧ Progress n control stack (w ++ w') c'.nextId
  | .done e c' => c' = c ∧ Reads n (.expr (.rank .assignment) e) w c.nextId
  | .stop _ _ => True

section Soundness

variable {n n' : Nat} {w w' : List Token} {stack : List Frame} {c : Cursor}
  {e : Expr}

theorem Tier.Within.refl (t : Tier) : t.Within t :=
  fun _ _ _ _ h => h

/-- Handing on a finished expression keeps the account. -/
theorem keeps_built {t : Tier} (outer : Opened n stack w n')
    (h : Reads n' (.expr t e) w' c.nextId) (ht : t.Within (awaits stack)) :
    (Step.next (.built e) stack c).Keeps n (w ++ w') c := by
  intro _
  refine ⟨[], rfl, ?_⟩
  rw [List.append_nil]
  exact .built outer (ht _ _ _ _ h)

/-- An expression that is just built in the tightest tier keeps the account,
with the frame that looks for suffixes. -/
theorem keeps_suffix {rest : List Token} {c' : Cursor} (w₀ w' : List Token)
    (outer : Opened n stack w n') (ht : Tier.call.Within (awaits stack))
    (hrest : c.rest = w' ++ rest) (hc : c'.rest = rest)
    (h : Reads n' (.expr .call e) (w₀ ++ w') c'.nextId) :
    (Step.next (.built e) (.suffix :: stack) c').Keeps n (w ++ w₀) c := by
  intro _
  refine ⟨w', by rw [hrest, hc], ?_⟩
  rw [List.append_assoc]
  exact .built (.suffix outer ht) h

theorem keeps_readOperand (outer : Opened n stack w c.nextId)
    (h : (Tier.rank .operand).Within (awaits stack)) :
    (readOperand stack c).Keeps n w c := by
  have hcall : Tier.call.Within (awaits stack) :=
    fun n e w n' hr => h n e w n' (.operand hr)
  have hprimary : ∀ {e' : Expr} {w' rest : List Token} {c' : Cursor},
      Reads c.nextId (.expr .call e') w' c'.nextId → c.rest = w' ++ rest →
      c'.rest = rest →
      (Step.next (.built e') (.suffix :: stack) c').Keeps n w c := by
    intro e' w' rest c' hr hrest hc
    have := keeps_suffix [] w' outer hcall hrest hc hr
    rwa [List.append_nil] at this
  unfold readOperand
  split
  · trivial
  · next kind line rest hrest =>
    split
    · next op hop =>
      intro _
      exact ⟨[⟨kind, line⟩], hrest, .read (.unary outer h hop) (.refl _)⟩
    · split
      · exact hprimary (.literal rfl) hrest rfl
      · exact hprimary (.literal rfl) hrest rfl
      · exact hprimary (.literal rfl) hrest rfl
      · exact hprimary (.literal rfl) hrest rfl
      · exact hprimary (.literal rfl) hrest rfl
      · exact hprimary .this hrest rfl
      · exact hprimary .name hrest rfl
      · split
        · exact hprimary .super hrest rfl
        · trivial
        · trivial
      · intro _
        exact ⟨[⟨.symbol .leftParen, line⟩], hrest,
          .read (.group (.suffix outer hcall) (.refl _)) (.refl _)⟩
      · trivial

theorem keeps_afterSuffix (outer : Opened n stack w n')
    (ht : Tier.call.Within (awaits stack))
    (h : Reads n' (.expr .call e) w' c.nextId) :
    (afterSuffix e stack c).Keeps n (w ++ w') c := by
  unfold afterSuffix
  split
  · next hrest => exact keeps_suffix _ _ outer ht (by rw [hrest]; rfl) rfl (.callEmpty h)
  · next l rest _ hrest =>
    intro _
    refine ⟨[⟨.symbol .leftParen, l⟩], hrest, ?_⟩
    rw [List.append_assoc]
    exact .read (.firstArgument outer ht h) (.refl _)
  · next hrest => exact keeps_suffix _ _ outer ht (by rw [hrest]; rfl) rfl (.get h)
  · trivial
  · exact keeps_built outer h ht

theorem keeps_afterArgument {callee : Expr} {earlier : List Expr}
    (outer : Opened n (.argument callee earlier :: stack) w n')
    (h : Reads n' (.expr (.rank .assignment) e) w' c.nextId) :
    (afterArgument callee (e :: earlier) stack c).Keeps n (w ++ w') c := by
  -- Both forms of the frame give the arguments up to and including `e`.
  obtain ⟨w₀, n₁, w₁, n₂, w₂, l, outer, ht, hcallee, hlist, hw⟩ :
      ∃ w₀ n₁ w₁ n₂ w₂ l, Opened n stack w₀ n₁ ∧
        Tier.call.Within (awaits stack) ∧
        Reads n₁ (.expr .call callee) w₁ n₂ ∧
        Reads n₂ (.arguments (e :: earlier).reverse) w₂ c.nextId ∧
        w ++ w' = w₀ ++ (w₁ ++ ⟨.symbol .leftParen, l⟩ :: w₂) := by
    cases outer with
    | firstArgument outer ht hcallee =>
      exact ⟨_, _, _, _, _, _, outer, ht, hcallee, .one h, by simp; rfl⟩
    | @argument _ w₀ n₁ _ w₁ n₂ _ w₂ _ l l' outer ht hcallee before room =>
      have hlist : Reads n₂ (.arguments (e :: earlier).reverse)
          (w₂ ++ ⟨.symbol .comma, l'⟩ :: w') c.nextId := by
        rw [List.reverse_cons]
        exact .more before (by simpa using room) h
      exact ⟨_, _, _, _, _, _, outer, ht, hcallee, hlist, by simp; rfl⟩
  rw [hw]
  unfold afterArgument
  split
  · next l' rest hrest =>
    intro hnoted
    have hroom : (e :: earlier).length < maxArity := by
      apply Nat.lt_of_not_le
      intro hle
      rw [Cursor.noteIf, if_pos (decide_eq_true hle)] at hnoted
      simp [Cursor.note, Cursor.moveTo] at hnoted
    have hc : (c.moveTo rest).noteIf (maxArity ≤ (e :: earlier).length)
        .tooManyArguments = c.moveTo rest := by
      simp only [Cursor.noteIf, decide_eq_true_eq, Nat.not_le.2 hroom, if_false]
    rw [hc]
    refine ⟨[⟨.symbol .comma, l'⟩], hrest, ?_⟩
    have hopened : Opened n (.argument callee (e :: earlier) :: stack)
        (w₀ ++ (w₁ ++ ⟨.symbol .leftParen, l⟩ ::
          (w₂ ++ [⟨.symbol .comma, l'⟩]))) c.nextId :=
      .argument outer ht hcallee hlist hroom
    simp only [List.append_assoc, List.cons_append] at hopened ⊢
    exact .read hopened (.refl _)
  · next line rest hrest =>
    have hcall : Reads n₁ (.expr .call (.call callee line (e :: earlier).reverse))
        (w₁ ++ ⟨.symbol .leftParen, l⟩ ::
          (w₂ ++ [⟨.symbol .rightParen, line⟩])) c.nextId :=
      .call hcallee hlist
    refine keeps_suffix _ [⟨.symbol .rightParen, line⟩] outer ht hrest rfl ?_
    simpa using hcall
  · trivial

theorem keeps_assignTo {target : Expr} {line : Nat}
    (outer : Opened n (.value target line :: stack) w n')
    (h : Reads n' (.expr (.rank .assignment) e) w' c.nextId) :
    (assignTo target e line stack c).Keeps n (w ++ w') c := by
  cases outer with
  | value outer ht htarget =>
    unfold assignTo
    split
    · next ref =>
      obtain ⟨rfl, rfl⟩ := htarget.variable_inv
      intro _
      refine ⟨[], rfl, ?_⟩
      have hassign : Reads _ (.expr (.rank .assignment)
          (.assign ⟨c.nextId, ref.name, ref.line⟩ e))
          (⟨.identifier ref.name, ref.line⟩ :: ⟨.symbol .equal, line⟩ :: w')
          (c.nextId + 1) := .assign h
      have := Progress.built outer (ht _ _ _ _ hassign)
      simpa using this
    · next object name =>
      obtain ⟨w₁, l, hobject, rfl⟩ := htarget.get_inv
      intro _
      refine ⟨[], rfl, ?_⟩
      have hset : Reads _ (.expr (.rank .assignment) (.set object name e))
          (w₁ ++ ⟨.symbol .dot, l⟩ :: ⟨.identifier name.name, name.line⟩ ::
            ⟨.symbol .equal, line⟩ :: w') c.nextId := .set hobject h
      have := Progress.built outer (ht _ _ _ _ hset)
      simpa using this
    · intro hnoted
      simp [Cursor.note] at hnoted

/-- Handing a finished expression to the construct that waits for it keeps
the account. -/
theorem keeps_resume {frame : Frame} (outer : Opened n (frame :: stack) w n')
    (h : Reads n' (.expr (awaits (frame :: stack)) e) w' c.nextId) :
    (resume e frame stack c).Keeps n (w ++ w') c := by
  cases frame with
  | assignment =>
    cases outer with
    | assignment outer ht =>
      simp only [resume]
      split
      · next line rest hrest =>
        intro _
        refine ⟨[⟨.symbol .equal, line⟩], hrest, ?_⟩
        rw [List.append_assoc]
        exact .read (.value outer ht h) (.refl _)
      · exact keeps_built outer (.assignment h) ht
  | value target line => exact keeps_assignTo outer h
  | left l =>
    cases outer with
    | left outer ht =>
      simp only [resume]
      split
      · exact keeps_built outer h ht
      · next kind line rest hrest =>
        split
        · next op hop =>
          intro _
          refine ⟨[⟨kind, line⟩], hrest, ?_⟩
          rw [List.append_assoc]
          exact .read (.right outer ht h hop) (.refl _)
        · exact keeps_built outer h ht
  | right l left op line =>
    cases outer with
    | @right _ _ _ _ _ w₁ _ kind _ _ outer ht hleft hop =>
      have hread : Reads _ (.expr (.rank (.level l)) (op.apply left line e))
          (w₁ ++ ⟨kind, line⟩ :: w') c.nextId := .operator hleft hop h
      have := keeps_built (.left outer ht) hread (.refl _)
      simpa [resume] using this
  | unary op line =>
    cases outer with
    | @unary _ _ _ kind _ _ outer ht hop =>
      have hread : Reads _ (.expr (.rank .operand) (.unary op line e))
          (⟨kind, line⟩ :: w') c.nextId := .unary hop h
      have := keeps_built outer hread ht
      simpa [resume] using this
  | suffix =>
    cases outer with
    | suffix outer ht => exact keeps_afterSuffix outer ht h
  | argument callee earlier => exact keeps_afterArgument outer h
  | group =>
    cases outer with
    | @group _ _ _ l outer ht =>
      simp only [resume]
      split
      · next line rest hrest =>
        intro _
        refine ⟨[⟨.symbol .rightParen, line⟩], hrest, ?_⟩
        have hgroup : Reads _ (.expr .call (.group e)) (⟨.symbol .leftParen, l⟩ ::
            (w' ++ [⟨.symbol .rightParen, line⟩])) c.nextId := .group h
        have := Progress.built outer (ht _ _ _ _ hgroup)
        simpa using this
      · trivial

/-- Every step keeps the account of what has been read. -/
theorem keeps_step {control : Control} (h : Progress n control stack w c.nextId) :
    (step control stack c).Keeps n w c := by
  cases h with
  | @read r _ _ _ outer ht =>
    cases r with
    | assignment =>
      intro _
      refine ⟨[], rfl, ?_⟩
      rw [List.append_nil]
      exact .read (.assignment outer ht) (.refl _)
    | level l =>
      intro _
      refine ⟨[], rfl, ?_⟩
      rw [List.append_nil]
      exact .read (.left outer ht) fun _ _ _ _ => .level
    | operand => exact keeps_readOperand outer ht
  | built outer h =>
    cases stack with
    | nil => cases outer; exact ⟨rfl, h⟩
    | cons frame stack => exact keeps_resume outer h

end Soundness

/-- A step takes back no fault that has been noted. -/
def Step.Notes (c : Cursor) : Step → Prop
  | .next _ _ c' => c.noted <:+ c'.noted
  | .done _ c' => c.noted <:+ c'.noted
  | .stop _ _ => True

theorem notes_readOperand (stack : List Frame) (c : Cursor) :
    (readOperand stack c).Notes c := by
  unfold readOperand
  repeat' split
  all_goals simp [Step.Notes, Step.fail]

theorem notes_resume (e : Expr) (frame : Frame) (stack : List Frame)
    (c : Cursor) : (resume e frame stack c).Notes c := by
  cases frame with
  | argument callee earlier =>
    simp only [resume, afterArgument]
    split
    · next rest _ =>
      show (c.moveTo rest).noted <:+ _
      exact Cursor.suffix_noted_noteIf _ _ _
    · exact List.suffix_refl _
    · trivial
  | _ =>
    simp only [resume, afterSuffix, assignTo]
    repeat' split
    all_goals simp [Step.Notes, Step.fail]

theorem notes_step (control : Control) (stack : List Frame) (c : Cursor) :
    (step control stack c).Notes c := by
  unfold step
  split
  · exact List.suffix_refl _
  · exact List.suffix_refl _
  · exact notes_readOperand _ c
  · exact notes_resume _ _ _ c
  · exact List.suffix_refl _

theorem suffix_noted_of_readFrom {control : Control} {stack : List Frame}
    {c c' : Cursor} {e : Expr} (h : readFrom control stack c = .ok e c') :
    c.noted <:+ c'.noted := by
  fun_induction readFrom control stack c with
  | case1 control stack c control' stack' c₁ hstep ih =>
    have hnotes := notes_step control stack c
    rw [hstep] at hnotes
    exact List.IsSuffix.trans hnotes (ih h)
  | case2 control stack c e' c₁ hstep =>
    have hnotes := notes_step control stack c
    rw [hstep] at hnotes
    cases h
    exact hnotes
  | case3 => cases h

/-- Whatever the machine gives without a fault, it has read. -/
theorem reads_of_readFrom {n : Nat} {control : Control} {stack : List Frame}
    {w : List Token} {c c' : Cursor} {e : Expr}
    (h : readFrom control stack c = .ok e c') (hnoted : c'.noted = [])
    (hread : Progress n control stack w c.nextId) :
    ∃ w', c.rest = w' ++ c'.rest ∧
      Reads n (.expr (.rank .assignment) e) (w ++ w') c'.nextId := by
  fun_induction readFrom control stack c generalizing w with
  | case1 control stack c control' stack' c₁ hstep ih =>
    have hkeeps := keeps_step hread
    have hnotes := notes_step control stack c
    rw [hstep] at hkeeps hnotes
    have hnoted₁ : c₁.noted = [] :=
      List.suffix_nil.1 (hnoted ▸ suffix_noted_of_readFrom h)
    have hnoted₀ : c.noted = [] := List.suffix_nil.1 (hnoted₁ ▸ hnotes)
    obtain ⟨w₁, hrest₁, hread₁⟩ := hkeeps (by rw [hnoted₁, hnoted₀])
    obtain ⟨w₂, hrest₂, hread₂⟩ := ih h hread₁
    refine ⟨w₁ ++ w₂, by rw [hrest₁, hrest₂, List.append_assoc], ?_⟩
    rwa [List.append_assoc] at hread₂
  | case2 control stack c e' c₁ hstep =>
    have hkeeps := keeps_step hread
    rw [hstep] at hkeeps
    cases h
    obtain ⟨rfl, hread⟩ := hkeeps
    exact ⟨[], rfl, by rwa [List.append_nil]⟩
  | case3 => cases h

/-- An expression that is read without a fault is read from the tokens that
are gone. -/
theorem reads_of_read {c c' : Cursor} {e : Expr} (h : read c = .ok e c')
    (hnoted : c'.noted = []) :
    c.noted = [] ∧ ∃ w, c.rest = w ++ c'.rest ∧
      Reads c.nextId (.expr (.rank .assignment) e) w c'.nextId := by
  have hread : Progress c.nextId (.read .assignment) [] [] c.nextId :=
    .read .start (.refl _)
  refine ⟨List.suffix_nil.1 (hnoted ▸ suffix_noted_of_readFrom h), ?_⟩
  simpa using reads_of_readFrom h hnoted hread

/-! ## A whole source -/

/-- A source is accepted as the expression that is read from all of it
without a fault. -/
theorem parse_eq_iff {scan : Token.Scan} {firstId n' : Nat} {e : Expr} :
    parse scan firstId = ⟨.ok e, n'⟩ ↔
      Reads firstId (.expr (.rank .assignment) e) scan.tokens n' := by
  constructor
  · intro h
    unfold parse at h
    split at h
    · cases h
    · next e' c hread =>
      simp only [Parsed.mk.injEq] at h
      obtain ⟨hresult, rfl⟩ := h
      split at hresult
      · next hnoted =>
        cases hresult
        by_cases hrest : c.rest = []
        · simp only [Cursor.noteIf, hrest, List.isEmpty_nil, Bool.not_true,
            Bool.false_eq_true, if_false, List.isEmpty_iff] at hnoted ⊢
          obtain ⟨-, w, hw, hreads⟩ := reads_of_read hread hnoted
          rw [hrest, List.append_nil] at hw
          have htokens : scan.tokens = w := hw
          rw [htokens]
          exact hreads
        · simp [Cursor.noteIf, hrest] at hnoted
      · cases hresult
  · intro hreads
    have hread : read ⟨scan.tokens ++ [], scan.endLine, firstId, []⟩ =
        .ok e ⟨[], scan.endLine, n', []⟩ :=
      read_of_reads hreads (by simp [Rank.Stops]) _ _
    rw [List.append_nil] at hread
    have hstart : Cursor.start scan firstId =
      ⟨scan.tokens, scan.endLine, firstId, []⟩ := rfl
    unfold parse
    rw [hstart, hread]
    rfl

theorem Parsed.eq_of_result {parsed : Parsed} {e : Expr}
    (h : parsed.result = .ok e) : parsed = ⟨.ok e, parsed.nextId⟩ := by
  rw [← h]

end Lox.Expr
