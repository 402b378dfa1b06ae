import Lox.Proofs.Stmt.FreshIds
import Lox.Proofs.Stmt.WellFormed

/-!
# Trees read past faults

A source with faults still gives a list of statements: what could be read
before, between and behind the faults.  Such a list is well formed, like that
of a source without faults.

`Held` says of each machine that what it holds is well formed and that the
tokens it has left have proper names, one lemma for each of its steps shows
that the step keeps that, and `wellFormed_parse` reads it off at the end of a
run.
-/

namespace Lox

open Token (Named)

/-! ## Lists of well-formed parts -/

theorem Expr.allWellFormed_iff {list : List Expr} :
    Expr.AllWellFormed list ↔ ∀ e ∈ list, e.WellFormed := by
  induction list with
  | nil => simp [Expr.AllWellFormed]
  | cons e rest ih => simp [Expr.AllWellFormed, ih]

theorem Stmt.allWellFormed_iff {list : List Stmt} :
    Stmt.AllWellFormed list ↔ ∀ s ∈ list, s.WellFormed := by
  induction list with
  | nil => simp [Stmt.AllWellFormed]
  | cons s rest ih => simp [Stmt.AllWellFormed, ih]

theorem FunctionDecl.allWellFormed_iff {list : List FunctionDecl} :
    FunctionDecl.AllWellFormed list ↔ ∀ f ∈ list, f.WellFormed := by
  induction list with
  | nil => simp [FunctionDecl.AllWellFormed]
  | cons f rest ih => simp [FunctionDecl.AllWellFormed, ih]

/-! ## What a reader gives -/

namespace Reader

variable {α β : Type} {c : Cursor}

/-- From the cursor on, the reader leaves only tokens with proper names, and
what it gives satisfies a condition. -/
def Gives (p : Reader α) (c : Cursor) (Q : α → Prop) : Prop :=
  match p c with
  | .ok a c' => Named c'.rest ∧ Q a
  | .error _ c' => Named c'.rest

theorem Gives.pure {a : α} {Q : α → Prop} (hc : Named c.rest) (h : Q a) :
    Gives (Pure.pure a) c Q :=
  ⟨hc, h⟩

theorem Gives.bind {p : Reader α} {q : α → Reader β} {Q : α → Prop}
    {R : β → Prop} (hp : p.Gives c Q)
    (hq : ∀ a (c' : Cursor), Named c'.rest → Q a → (q a).Gives c' R) :
    Gives (p >>= q) c R := by
  unfold Gives at hp ⊢
  change match EStateM.bind p q c with
    | .ok a c' => Named c'.rest ∧ R a
    | .error _ c' => Named c'.rest
  unfold EStateM.bind
  cases hrun : p c with
  | ok a c' =>
    rw [hrun] at hp
    exact hq a c' hp.1 hp.2
  | error d c' =>
    rw [hrun] at hp
    exact hp

/-- Whatever the reader gives, it leaves only tokens with proper names. -/
abbrev GivesNamed (p : Reader α) (c : Cursor) : Prop :=
  p.Gives c fun _ => True

theorem named_of_rest {t : Token} {rest : List Token} (hc : Named c.rest)
    (hrest : c.rest = t :: rest) : Named rest := by
  rw [hrest, Token.named_cons] at hc
  exact hc.2

theorem gives_accept (s : Symbol) (hc : Named c.rest) :
    (accept s).GivesNamed c := by
  unfold GivesNamed Gives accept
  cases hrest : c.rest with
  | nil => exact ⟨hc, trivial⟩
  | cons t rest =>
    obtain ⟨kind, line⟩ := t
    have hafter := named_of_rest hc hrest
    cases kind with
    | symbol t =>
      by_cases ht : t = s
      · simp only [ht, if_true]
        exact ⟨hafter, trivial⟩
      · simp only [ht, if_false]
        exact ⟨hc, trivial⟩
    | _ => exact ⟨hc, trivial⟩

theorem gives_ahead (s : Symbol) (hc : Named c.rest) :
    (ahead s).GivesNamed c := by
  unfold GivesNamed Gives ahead
  cases hrest : c.rest with
  | nil => exact ⟨hc, trivial⟩
  | cons t rest =>
    obtain ⟨kind, line⟩ := t
    cases kind <;> exact ⟨hc, trivial⟩

theorem gives_expect (s : Symbol) (f : ParseFault) (hc : Named c.rest) :
    (expect s f).GivesNamed c := by
  unfold GivesNamed Gives expect
  cases hrest : c.rest with
  | nil => exact hc
  | cons t rest =>
    obtain ⟨kind, line⟩ := t
    have hafter := named_of_rest hc hrest
    cases kind with
    | symbol t =>
      by_cases ht : t = s
      · simp only [ht, if_true]
        exact ⟨hafter, trivial⟩
      · simp only [ht, if_false]
        exact hc
    | _ => exact hc

theorem gives_acceptKeyword (k : Keyword) (hc : Named c.rest) :
    (acceptKeyword k).GivesNamed c := by
  unfold GivesNamed Gives acceptKeyword
  cases hrest : c.rest with
  | nil => exact ⟨hc, trivial⟩
  | cons t rest =>
    obtain ⟨kind, line⟩ := t
    have hafter := named_of_rest hc hrest
    cases kind with
    | keyword t =>
      by_cases ht : t = k
      · simp only [ht, if_true]
        exact ⟨hafter, trivial⟩
      · simp only [ht, if_false]
        exact ⟨hc, trivial⟩
    | _ => exact ⟨hc, trivial⟩

theorem gives_freshId (hc : Named c.rest) : freshId.GivesNamed c :=
  ⟨hc, trivial⟩

theorem gives_name (f : ParseFault) (hc : Named c.rest) :
    (name f).Gives c fun x => Unreserved x.name := by
  unfold Gives name
  cases hrest : c.rest with
  | nil => exact hc
  | cons t rest =>
    obtain ⟨kind, line⟩ := t
    cases kind with
    | identifier x =>
      have hboth := hc
      rw [hrest, Token.named_cons] at hboth
      exact ⟨hboth.2, hboth.1 x rfl⟩
    | _ => exact hc

end Reader

/-! ## Expressions -/

namespace Expr

/-- The expression is well formed, and so is an assignment to it. -/
def Assignable (e : Expr) : Prop :=
  e.WellFormed ∧ ∀ ref, e = .variable ref → Unreserved ref.name

/-- What a frame keeps is well formed. -/
def Frame.WellFormed : Frame → Prop
  | .value target _ => target.Assignable
  | .right _ operand _ _ => operand.WellFormed
  | .argument callee earlier =>
    callee.WellFormed ∧ Expr.AllWellFormed earlier
  | _ => True

/-- What has just been built is well formed. -/
def Control.WellFormed : Control → Prop
  | .read _ => True
  | .built e => e.Assignable

/-- What the machine holds is well formed. -/
structure Held (control : Control) (stack : List Frame) (c : Cursor) :
    Prop where
  named : Named c.rest
  control : control.WellFormed
  stack : ∀ frame ∈ stack, frame.WellFormed

/-- The step leaves what it holds well formed. -/
def Step.Holds : Step → Prop
  | .next control stack c => Held control stack c
  | .done e c => Named c.rest ∧ e.WellFormed
  | .stop _ c => Named c.rest

variable {stack : List Frame} {c : Cursor}

theorem Assignable.of_wellFormed {e : Expr} (h : e.WellFormed)
    (hne : ∀ ref, e ≠ .variable ref) : e.Assignable :=
  ⟨h, fun ref heq => absurd heq (hne ref)⟩

/-- A primary expression may have a suffix. -/
theorem Held.primary {rank : Rank} {e : Expr} {c' : Cursor}
    (h : Held (.read rank) stack c) (hc' : Named c'.rest)
    (he : e.Assignable) : Held (.built e) (.suffix :: stack) c' :=
  ⟨hc', he, List.forall_mem_cons.2 ⟨trivial, h.stack⟩⟩

theorem Assignable.literal (v : Literal) : (Expr.literal v).Assignable :=
  .of_wellFormed (by simp only [Expr.WellFormed]) (by simp)

/-- Frames that keep nothing are added, and tokens are used up. -/
theorem Held.push {rank rank' : Rank} {rest : List Token}
    (h : Held (.read rank) stack c) (frames : List Frame) (hrest : Named rest)
    (hframes : ∀ frame ∈ frames, frame.WellFormed) :
    Held (.read rank') (frames ++ stack) (c.moveTo rest) :=
  ⟨hrest, trivial, List.forall_mem_append.2 ⟨hframes, h.stack⟩⟩

theorem holds_readOperand {rank : Rank} (h : Held (.read rank) stack c) :
    (readOperand stack c).Holds := by
  have hnamed := h.named
  unfold readOperand
  split
  · exact hnamed
  · next kind line rest hrest =>
    rw [hrest, Token.named_cons] at hnamed
    obtain ⟨hkind, hafter⟩ := hnamed
    split
    · next op _ =>
      exact h.push [.unary op line] hafter (by simp [Frame.WellFormed])
    · split
      · exact h.primary hafter (.literal _)
      · exact h.primary hafter (.literal _)
      · exact h.primary hafter (.literal _)
      · exact h.primary hafter (.literal _)
      · exact h.primary hafter (.literal _)
      · exact h.primary hafter
          (.of_wellFormed (by simp only [Expr.WellFormed]) (by simp))
      · refine h.primary hafter ⟨by simp only [Expr.WellFormed], ?_⟩
        intro ref heq
        cases heq
        exact hkind _ rfl
      · split
        · simp only [Token.named_cons] at hafter
          exact h.primary hafter.2.2
            (.of_wellFormed (by simp only [Expr.WellFormed]) (by simp))
        · simp only [Token.named_cons] at hafter
          exact hafter.2
        · exact hafter
      · exact h.push [.group, .suffix] hafter (by simp [Frame.WellFormed])
      · exact h.named

/-- A finished expression goes on, with other frames in place of the topmost
one. -/
theorem Held.built {e e' : Expr} {frame : Frame} {rest : List Token}
    (h : Held (.built e) (frame :: stack) c) (frames : List Frame)
    (hrest : Named rest) (he : e'.Assignable)
    (hframes : ∀ frame ∈ frames, frame.WellFormed) :
    Held (.built e') (frames ++ stack) (c.moveTo rest) :=
  ⟨hrest, he, List.forall_mem_append.2
    ⟨hframes, (List.forall_mem_cons.1 h.stack).2⟩⟩

/-- A finished expression waits in a frame for another one. -/
theorem Held.wait {e : Expr} {frame frame' : Frame} {rank : Rank}
    {rest : List Token} (h : Held (.built e) (frame :: stack) c)
    (hrest : Named rest) (hframe : frame'.WellFormed) :
    Held (.read rank) (frame' :: stack) (c.moveTo rest) :=
  ⟨hrest, trivial, List.forall_mem_cons.2
    ⟨hframe, (List.forall_mem_cons.1 h.stack).2⟩⟩

theorem Held.noted {control : Control} (h : Held control stack c)
    (d : Diagnostic) : Held control stack (c.note d) :=
  ⟨h.named, h.control, h.stack⟩

theorem Held.notedIf {control : Control} (h : Held control stack c)
    (condition : Bool) (f : ParseFault) :
    Held control stack (c.noteIf condition f) := by
  unfold Cursor.noteIf
  split
  · exact h.noted _
  · exact h

theorem holds_afterSuffix {e : Expr} (h : Held (.built e) (.suffix :: stack) c) :
    (afterSuffix e stack c).Holds := by
  have hnamed := h.named
  unfold afterSuffix
  split
  · next hrest =>
    simp only [hrest, Token.named_cons] at hnamed
    refine h.built [.suffix] hnamed.2.2 (.of_wellFormed ?_ (by simp))
      (by simp [Frame.WellFormed])
    simp only [Expr.WellFormed, Expr.AllWellFormed, and_true]
    exact h.control.1
  · next hrest =>
    simp only [hrest, Token.named_cons] at hnamed
    refine h.wait hnamed.2 ?_
    simp only [Frame.WellFormed, Expr.AllWellFormed, and_true]
    exact h.control.1
  · next hrest =>
    simp only [hrest, Token.named_cons] at hnamed
    refine h.built [.suffix] hnamed.2.2 (.of_wellFormed ?_ (by simp))
      (by simp [Frame.WellFormed])
    simp only [Expr.WellFormed]
    exact h.control.1
  · next hrest =>
    simp only [hrest, Token.named_cons] at hnamed
    exact hnamed.2
  · exact h.built [] hnamed h.control (by simp)

theorem holds_afterArgument {e callee : Expr} {earlier : List Expr}
    (h : Held (.built e) (.argument callee earlier :: stack) c) :
    (afterArgument callee (e :: earlier) stack c).Holds := by
  have hnamed := h.named
  obtain ⟨hcallee, hearlier⟩ := (List.forall_mem_cons.1 h.stack).1
  have hall : Expr.AllWellFormed (e :: earlier) := by
    rw [Expr.AllWellFormed]
    exact ⟨h.control.1, hearlier⟩
  unfold afterArgument
  split
  · next hrest =>
    simp only [hrest, Token.named_cons] at hnamed
    have hframe : (Frame.argument callee (e :: earlier)).WellFormed :=
      ⟨hcallee, hall⟩
    exact (h.wait hnamed.2 hframe).notedIf _ _
  · next hrest =>
    simp only [hrest, Token.named_cons] at hnamed
    refine h.built [.suffix] hnamed.2 (.of_wellFormed ?_ (by simp))
      (by simp [Frame.WellFormed])
    rw [Expr.WellFormed, Expr.allWellFormed_iff]
    refine ⟨hcallee, fun e he => ?_⟩
    exact Expr.allWellFormed_iff.1 hall e (List.mem_reverse.1 he)
  · exact hnamed

theorem holds_assignTo {e target : Expr} {line : Nat}
    (h : Held (.built e) (.value target line :: stack) c) :
    (assignTo target e line stack c).Holds := by
  have htarget : target.Assignable := (List.forall_mem_cons.1 h.stack).1
  unfold assignTo
  split
  · next ref =>
    refine ⟨h.named, ?_, (List.forall_mem_cons.1 h.stack).2⟩
    refine .of_wellFormed ?_ (by simp)
    rw [Expr.WellFormed]
    exact ⟨htarget.2 ref rfl, h.control.1⟩
  · refine h.built [] h.named (.of_wellFormed ?_ (by simp)) (by simp)
    have hobject := htarget.1
    simp only [Expr.WellFormed] at hobject ⊢
    exact ⟨hobject, h.control.1⟩
  · exact (h.built [] h.named htarget (by simp)).noted _

theorem holds_resume {e : Expr} {frame : Frame}
    (h : Held (.built e) (frame :: stack) c) :
    (resume e frame stack c).Holds := by
  have hnamed := h.named
  have hframe := (List.forall_mem_cons.1 h.stack).1
  -- an expression that no construct takes up goes on as it is
  have hpass : Held (.built e) stack c :=
    h.built [] hnamed h.control (by simp)
  cases frame with
  | assignment =>
    simp only [resume]
    split
    · next hrest =>
      simp only [hrest, Token.named_cons] at hnamed
      exact h.wait hnamed.2 h.control
    · exact hpass
  | value target line => exact holds_assignTo h
  | left l =>
    simp only [resume]
    split
    · exact hpass
    · next hrest =>
      simp only [hrest, Token.named_cons] at hnamed
      split
      · exact h.wait hnamed.2 h.control.1
      · exact hpass
  | right l operand op line =>
    refine h.built [.left l] hnamed ?_ (by simp [Frame.WellFormed])
    refine .of_wellFormed (Expr.wellFormed_apply op line hframe h.control.1) ?_
    cases op <;> simp [Operator.apply]
  | unary op line =>
    refine h.built [] hnamed (.of_wellFormed ?_ (by simp)) (by simp)
    rw [Expr.WellFormed]
    exact h.control.1
  | suffix => exact holds_afterSuffix h
  | argument callee earlier => exact holds_afterArgument h
  | group =>
    simp only [resume]
    split
    · next hrest =>
      simp only [hrest, Token.named_cons] at hnamed
      refine h.built [] hnamed.2 (.of_wellFormed ?_ (by simp)) (by simp)
      rw [Expr.WellFormed]
      exact h.control.1
    · exact hnamed

theorem holds_step {control : Control} (h : Held control stack c) :
    (step control stack c).Holds := by
  unfold step
  split
  · exact h.push [.assignment] h.named (by simp [Frame.WellFormed])
  · next l =>
    exact h.push [.left l] h.named (by simp [Frame.WellFormed])
  · exact holds_readOperand h
  · exact holds_resume h
  · exact ⟨h.named, h.control.1⟩

theorem gives_readFrom {control : Control} (h : Held control stack c) :
    Reader.Gives (readFrom control stack) c Expr.WellFormed := by
  unfold Reader.Gives
  fun_induction readFrom control stack c with
  | case1 control stack c control' stack' c' hstep ih =>
    have hholds := holds_step h
    rw [hstep] at hholds
    exact ih hholds
  | case2 control stack c e c' hstep | case3 control stack c d c' hstep =>
    have hholds := holds_step h
    rw [hstep] at hholds
    exact hholds

/-- An expression that is read is well formed. -/
theorem gives_read (hc : Named c.rest) :
    Reader.Gives read c Expr.WellFormed := by
  have hstart : Held (.read .assignment) [] c := ⟨hc, trivial, by simp⟩
  exact gives_readFrom hstart

/-- The expression that is read from tokens, if there is one, is well
formed. -/
theorem wellFormed_parse {scan : Token.Scan} (hscan : Named scan.tokens)
    {firstId : Nat} {e : Expr} (h : (parse scan firstId).result = .ok e) :
    e.WellFormed := by
  have hgives := gives_read (c := .start scan firstId) hscan
  unfold Reader.Gives at hgives
  unfold parse at h
  cases hread : read (.start scan firstId) with
  | error d c => rw [hread] at h; cases h
  | ok e' c =>
    rw [hread] at h hgives
    simp only at h
    split at h
    · cases h
      exact hgives.2
    · cases h

end Expr

/-! ## The parts of a statement -/

namespace Stmt

open Reader (gives_accept gives_ahead gives_expect gives_acceptKeyword
  gives_freshId gives_name)

variable {c : Cursor}

theorem gives_readUnless (s : Symbol) (hc : Named c.rest) :
    (readUnless s).Gives c Expr.OptionWellFormed := by
  refine (gives_ahead s hc).bind fun b c₁ h₁ _ => ?_
  split
  · exact .pure h₁ trivial
  · exact (Expr.gives_read h₁).bind fun e c₂ h₂ he => .pure h₂ he

theorem gives_readVar (hc : Named c.rest) :
    readVar.Gives c Stmt.WellFormed := by
  refine (gives_name _ hc).bind fun x c₁ h₁ hx => ?_
  refine Reader.Gives.bind (Q := Expr.OptionWellFormed) ?_ ?_
  · refine (gives_accept _ h₁).bind fun b c₂ h₂ _ => ?_
    split
    · exact (Expr.gives_read h₂).bind fun e c₃ h₃ he => .pure h₃ he
    · exact .pure h₂ trivial
  · intro v c₂ h₂ hv
    refine (gives_expect _ _ h₂).bind fun _ c₃ h₃ _ => .pure h₃ ?_
    rw [Stmt.WellFormed]
    exact ⟨hx, hv⟩

/-- The statement is well formed and no declaration. -/
def IsPlain (s : Stmt) : Prop :=
  s.declared = [] ∧ s.WellFormed

theorem gives_readExpression (hc : Named c.rest) :
    readExpression.Gives c IsPlain := by
  refine (Expr.gives_read hc).bind fun e c₁ h₁ he => ?_
  refine (gives_expect _ _ h₁).bind fun _ c₂ h₂ _ => .pure h₂ ?_
  simp only [IsPlain, Stmt.declared, Stmt.WellFormed, true_and]
  exact he

theorem gives_readPrint (hc : Named c.rest) :
    readPrint.Gives c IsPlain := by
  refine (Expr.gives_read hc).bind fun e c₁ h₁ he => ?_
  refine (gives_expect _ _ h₁).bind fun _ c₂ h₂ _ => .pure h₂ ?_
  simp only [IsPlain, Stmt.declared, Stmt.WellFormed, true_and]
  exact he

theorem gives_readReturn (line : Nat) (hc : Named c.rest) :
    (readReturn line).Gives c IsPlain := by
  refine (gives_readUnless _ hc).bind fun v c₁ h₁ hv => ?_
  refine (gives_expect _ _ h₁).bind fun _ c₂ h₂ _ => .pure h₂ ?_
  simp only [IsPlain, Stmt.declared, Stmt.WellFormed, true_and]
  exact hv

theorem gives_readCondition (opening closing : ParseFault)
    (hc : Named c.rest) :
    (readCondition opening closing).Gives c Expr.WellFormed := by
  refine (gives_expect _ _ hc).bind fun _ c₁ h₁ _ => ?_
  refine (Expr.gives_read h₁).bind fun e c₂ h₂ he => ?_
  exact (gives_expect _ _ h₂).bind fun _ c₃ h₃ _ => .pure h₃ he

theorem gives_readForInitializer (hc : Named c.rest) :
    readForInitializer.Gives c fun v => ∀ s ∈ v, s.WellFormed := by
  refine (gives_accept _ hc).bind fun b c₁ h₁ _ => ?_
  split
  · exact .pure h₁ (by simp)
  · refine (gives_acceptKeyword _ h₁).bind fun b c₂ h₂ _ => ?_
    split
    · refine (gives_readVar h₂).bind fun s c₃ h₃ hs => .pure h₃ ?_
      simpa using hs
    · refine (gives_readExpression h₂).bind fun s c₃ h₃ hs => .pure h₃ ?_
      simpa using hs.2

theorem gives_readForClauses (hc : Named c.rest) :
    readForClauses.Gives c ForClauses.WellFormed := by
  refine (gives_expect _ _ hc).bind fun _ c₁ h₁ _ => ?_
  refine (gives_readForInitializer h₁).bind fun first c₂ h₂ hfirst => ?_
  refine (gives_readUnless _ h₂).bind fun second c₃ h₃ hsecond => ?_
  refine (gives_expect _ _ h₃).bind fun _ c₄ h₄ _ => ?_
  refine (gives_readUnless _ h₄).bind fun third c₅ h₅ hthird => ?_
  refine (gives_expect _ _ h₅).bind fun _ c₆ h₆ _ => ?_
  exact .pure h₆ ⟨hfirst, hsecond, hthird⟩

theorem gives_readParams {earlier : List Ident} (hc : Named c.rest)
    (hearlier : ∀ x ∈ earlier, Unreserved x.name) :
    Reader.Gives (readParams earlier) c fun params =>
      ∀ x ∈ params, Unreserved x.name := by
  unfold Reader.Gives
  fun_induction readParams earlier c with
  | case1 earlier c x line _ rest hrest ih =>
    simp only [hrest, Token.named_cons] at hc
    have hall : ∀ x' ∈ (⟨x, line⟩ : Ident) :: earlier, Unreserved x'.name :=
      List.forall_mem_cons.2 ⟨hc.1 x rfl, hearlier⟩
    exact ih hc.2.2 hall
  | case2 earlier c x line rest _ hrest =>
    rw [hrest, Token.named_cons] at hc
    have hall : ∀ x' ∈ (⟨x, line⟩ : Ident) :: earlier, Unreserved x'.name :=
      List.forall_mem_cons.2 ⟨hc.1 x rfl, hearlier⟩
    exact ⟨hc.2, fun x' hx' => hall x' (List.mem_reverse.1 hx')⟩
  | case3 earlier c noted =>
    simp only [noted, Cursor.rest_noteIf]
    exact hc

theorem gives_readParamList (routine : Routine) (hc : Named c.rest) :
    (readParamList routine).Gives c fun params =>
      ∀ x ∈ params, Unreserved x.name := by
  refine (gives_expect _ _ hc).bind fun _ c₁ h₁ _ => ?_
  refine Reader.Gives.bind (Q := fun params =>
    ∀ x ∈ params, Unreserved x.name) ?_ ?_
  · refine (gives_ahead _ h₁).bind fun b c₂ h₂ _ => ?_
    cases b with
    | true => exact Reader.Gives.pure h₂ (by simp)
    | false => exact gives_readParams h₂ (by simp)
  · intro params c₂ h₂ hparams
    exact (gives_expect _ _ h₂).bind fun _ c₃ h₃ _ => .pure h₃ hparams

/-- The names in the header are not reserved. -/
def Header.WellFormed (header : Header) : Prop :=
  Unreserved header.name.name ∧ ∀ x ∈ header.params, Unreserved x.name

theorem gives_readHeader (kind : FunctionKind) (hc : Named c.rest) :
    (readHeader kind).Gives c fun header =>
      header.WellFormed ∧ (kind = .function → header.kind = .function) := by
  refine (gives_name _ hc).bind fun x c₁ h₁ hx => ?_
  refine Reader.Gives.bind (Q := fun header => header.WellFormed ∧
    (kind = .function → header.kind = .function)) ?_ ?_
  · refine (gives_ahead _ h₁).bind fun b c₂ h₂ _ => ?_
    split
    · next hkind =>
      refine .pure h₂ ⟨⟨hx, by simp⟩, ?_⟩
      intro hfunction
      rw [hfunction] at hkind
      cases hkind.1
    · refine (gives_readParamList _ h₂).bind fun params c₃ h₃ hparams => ?_
      exact .pure h₃ ⟨⟨hx, hparams⟩, id⟩
  · intro header c₂ h₂ hheader
    exact (gives_expect _ _ h₂).bind fun _ c₃ h₃ _ => .pure h₃ hheader

theorem gives_readClassHead (hc : Named c.rest) :
    readClassHead.Gives c fun head => Unreserved head.name.name := by
  refine (gives_name _ hc).bind fun x c₁ h₁ hx => ?_
  refine Reader.Gives.bind (Q := fun _ => True) ?_ ?_
  · refine (gives_accept _ h₁).bind fun b c₂ h₂ _ => ?_
    split
    · refine (gives_name _ h₂).bind fun parent c₃ h₃ _ => ?_
      exact (gives_freshId h₃).bind fun id c₄ h₄ _ => .pure h₄ trivial
    · exact .pure h₂ trivial
  · intro parent c₂ h₂ _
    exact (gives_expect _ _ h₂).bind fun _ c₃ h₃ _ => .pure h₃ hx

/-! ## The machine -/

/-- What a frame keeps is well formed. -/
def Frame.WellFormed : Frame → Prop
  | .thenBranch condition => condition.WellFormed
  | .elseBranch condition s =>
    condition.WellFormed ∧ s.declared = [] ∧ s.WellFormed
  | .whileBody condition => condition.WellFormed
  | .forBody clauses => clauses.WellFormed

/-- What the owner of a body keeps is well formed. -/
def Owner.WellFormed (header : Header) : Owner → Prop
  | .function => header.kind = .function
  | .member head earlier =>
    Unreserved head.name.name ∧ FunctionDecl.AllWellFormed earlier

/-- What the open lists hold is well formed. -/
def Nest.WellFormed : Nest → Prop
  | .program done => Stmt.AllWellFormed done
  | .block done frames outer =>
    Stmt.AllWellFormed done ∧ (∀ frame ∈ frames, frame.WellFormed) ∧
      outer.WellFormed
  | .body owner header done outer =>
    owner.WellFormed header ∧ header.WellFormed ∧ Stmt.AllWellFormed done ∧
      outer.WellFormed

/-- What has just been built is well formed.  Only a statement that is no
declaration is built for a frame. -/
def Control.WellFormed (frames : List Frame) : Control → Prop
  | .items => frames = []
  | .declaration => frames = []
  | .statement => True
  | .members head earlier =>
    frames = [] ∧ Unreserved head.name.name ∧
      FunctionDecl.AllWellFormed earlier
  | .built s => s.WellFormed ∧ (frames = [] ∨ s.declared = [])

/-- What the machine holds is well formed. -/
structure Held (control : Control) (frames : List Frame) (nest : Nest)
    (c : Cursor) : Prop where
  named : Named c.rest
  control : control.WellFormed frames
  frames : ∀ frame ∈ frames, frame.WellFormed
  nest : nest.WellFormed

/-- The step leaves what it holds well formed. -/
def Step.Holds : Step → Prop
  | .next control frames nest c => Held control frames nest c
  | .done statements _ => Stmt.AllWellFormed statements

variable {control : Control} {frames : List Frame} {nest : Nest}

theorem named_skipAfter {skipped : Token} {w : List Token} (h : Named w) :
    Named (skipAfter skipped w) := by
  induction w generalizing skipped with
  | nil => exact h
  | cons t rest ih =>
    unfold skipAfter
    split
    · exact h
    · rw [Token.named_cons] at h
      exact ih h.2

theorem named_synchronize {w : List Token} (h : Named w) :
    Named (synchronize w) := by
  cases w with
  | nil => exact h
  | cons t rest =>
    rw [Token.named_cons] at h
    exact named_skipAfter h.2

/-- A fault throws away what is not yet in a list. -/
theorem holds_recover {d : Diagnostic} (hc : Named c.rest)
    (hnest : nest.WellFormed) : (recover d nest c).Holds where
  named := named_synchronize hc
  control := rfl
  frames := by simp
  nest := hnest

/-- Of a part without nesting, what is given is taken up, and a fault throws
away what is not yet in a list. -/
theorem holds_andThen {α : Type} {p : Reader α} {go : α → Cursor → Step}
    {rest : List Token} {Q : α → Prop} (hnest : nest.WellFormed)
    (hp : p.Gives (c.moveTo rest) Q)
    (hgo : ∀ a (c' : Cursor), Named c'.rest → Q a → (go a c').Holds) :
    (Step.andThen p nest (c.moveTo rest) go).Holds := by
  unfold Reader.Gives at hp
  unfold Step.andThen
  cases hrun : p (c.moveTo rest) with
  | ok a c' =>
    rw [hrun] at hp
    exact hgo a c' hp.1 hp.2
  | error d c' =>
    rw [hrun] at hp
    exact holds_recover hp hnest

theorem holds_readDeclaration (h : Held .declaration frames nest c) :
    (readDeclaration frames nest c).Holds := by
  have hnamed := h.named
  unfold readDeclaration
  split
  · next hrest =>
    simp only [hrest, Token.named_cons] at hnamed
    refine holds_andThen h.nest (gives_readClassHead hnamed.2)
      fun head c' hc' hhead => ?_
    refine ⟨hc', ⟨rfl, hhead, ?_⟩, by simp, h.nest⟩
    simp only [FunctionDecl.AllWellFormed]
  · next hrest =>
    simp only [hrest, Token.named_cons] at hnamed
    refine holds_andThen h.nest (gives_readHeader _ hnamed.2)
      fun header c' hc' hheader => ?_
    refine ⟨hc', rfl, by simp, hheader.2 rfl, hheader.1, ?_, h.nest⟩
    simp only [Stmt.AllWellFormed]
  · next hrest =>
    simp only [hrest, Token.named_cons] at hnamed
    exact holds_andThen h.nest (gives_readVar hnamed.2) fun s c' hc' hs =>
      ⟨hc', ⟨hs, .inl h.control⟩, h.frames, h.nest⟩
  · exact ⟨hnamed, trivial, h.frames, h.nest⟩

/-- A statement that is no declaration goes to the frames above it. -/
theorem Held.plain {s : Stmt} {c' : Cursor} (h : Held .statement frames nest c)
    (hc' : Named c'.rest) (hs : IsPlain s) : Held (.built s) frames nest c' :=
  ⟨hc', ⟨hs.2, .inr hs.1⟩, h.frames, h.nest⟩

/-- A frame waits for a statement. -/
theorem Held.frame {frame : Frame} {c' : Cursor}
    (h : Held .statement frames nest c) (hc' : Named c'.rest)
    (hframe : frame.WellFormed) : Held .statement (frame :: frames) nest c' :=
  ⟨hc', trivial, List.forall_mem_cons.2 ⟨hframe, h.frames⟩, h.nest⟩

theorem holds_readStatement (h : Held .statement frames nest c) :
    (readStatement frames nest c).Holds := by
  have hnamed := h.named
  unfold readStatement
  split
  · next hrest =>
    simp only [hrest, Token.named_cons] at hnamed
    exact holds_andThen h.nest (gives_readForClauses hnamed.2)
      fun clauses c' hc' hclauses => h.frame hc' hclauses
  · next hrest =>
    simp only [hrest, Token.named_cons] at hnamed
    exact holds_andThen h.nest (gives_readCondition _ _ hnamed.2)
      fun condition c' hc' hcondition => h.frame hc' hcondition
  · next hrest =>
    simp only [hrest, Token.named_cons] at hnamed
    exact holds_andThen h.nest (gives_readCondition _ _ hnamed.2)
      fun condition c' hc' hcondition => h.frame hc' hcondition
  · next hrest =>
    simp only [hrest, Token.named_cons] at hnamed
    exact holds_andThen h.nest (gives_readReturn _ hnamed.2)
      fun s c' hc' hs => h.plain hc' hs
  · next hrest =>
    simp only [hrest, Token.named_cons] at hnamed
    refine ⟨hnamed.2, rfl, by simp, ?_, h.frames, h.nest⟩
    simp only [Stmt.AllWellFormed]
  · next hrest =>
    simp only [hrest, Token.named_cons] at hnamed
    exact holds_andThen h.nest (gives_readPrint hnamed.2)
      fun s c' hc' hs => h.plain hc' hs
  · exact holds_andThen h.nest (gives_readExpression hnamed)
      fun s c' hc' hs => h.plain hc' hs

theorem holds_readMember {head : ClassHead} {earlier : List FunctionDecl}
    (h : Held (.members head earlier) frames nest c) :
    (readMember head earlier nest c).Holds := by
  have hnamed := h.named
  obtain ⟨hframes, hhead, hearlier⟩ := h.control
  -- behind its header the body of a member is read in a list of its own
  have hbody : ∀ kind (header : Header) (c' : Cursor), Named c'.rest →
      header.WellFormed ∧ (kind = FunctionKind.function →
        header.kind = .function) →
      (Step.next .items [] (.body (.member head earlier) header [] nest)
        c').Holds := by
    intro kind header c' hc' hheader
    refine ⟨hc', rfl, by simp, ⟨hhead, hearlier⟩, hheader.1, ?_, h.nest⟩
    simp only [Stmt.AllWellFormed]
  unfold readMember
  split
  · exact holds_recover hnamed h.nest
  · next hrest =>
    simp only [hrest, Token.named_cons] at hnamed
    refine ⟨hnamed.2, ⟨?_, .inl rfl⟩, by simp, h.nest⟩
    rw [Stmt.WellFormed, ClassDecl.WellFormed, FunctionDecl.allWellFormed_iff]
    refine ⟨hhead, fun f hf => ?_⟩
    exact FunctionDecl.allWellFormed_iff.1 hearlier f (List.mem_reverse.1 hf)
  · next hrest =>
    simp only [hrest, Token.named_cons] at hnamed
    exact holds_andThen h.nest (gives_readHeader _ hnamed.2) (hbody .static)
  · exact holds_andThen h.nest (gives_readHeader _ hnamed) (hbody .method)

/-- A finished statement is put together with what the topmost frame kept. -/
theorem Held.assemble {s s' : Stmt} {frame : Frame}
    (h : Held (.built s) (frame :: frames) nest c)
    (hs' : s'.WellFormed ∧ s'.declared = []) :
    Held (.built s') frames nest c :=
  ⟨h.named, ⟨hs'.1, .inr hs'.2⟩, (List.forall_mem_cons.1 h.frames).2, h.nest⟩

theorem Nest.WellFormed.add {s : Stmt} (h : nest.WellFormed)
    (hs : s.WellFormed) : (nest.add s).WellFormed := by
  cases nest <;> simp only [Nest.add, Nest.WellFormed, Stmt.AllWellFormed] at h ⊢
  · exact ⟨hs, h⟩
  · exact ⟨⟨hs, h.1⟩, h.2⟩
  · exact ⟨h.1, h.2.1, ⟨hs, h.2.2.1⟩, h.2.2.2⟩

theorem holds_resume {s : Stmt} (h : Held (.built s) frames nest c) :
    (resume s frames nest c).Holds := by
  have hnamed := h.named
  obtain ⟨hs, hplain⟩ := h.control
  cases frames with
  | nil => exact ⟨hnamed, rfl, by simp, h.nest.add hs⟩
  | cons frame frames =>
    have hframe := (List.forall_mem_cons.1 h.frames).1
    have hdeclared : s.declared = [] := by simpa using hplain
    cases frame with
    | thenBranch condition =>
      simp only [resume]
      split
      · next hrest =>
        simp only [hrest, Token.named_cons] at hnamed
        exact ⟨hnamed.2, trivial, List.forall_mem_cons.2
          ⟨⟨hframe, hdeclared, hs⟩, (List.forall_mem_cons.1 h.frames).2⟩,
          h.nest⟩
      · refine h.assemble ⟨?_, ?_⟩
        · rw [Stmt.WellFormed]
          exact ⟨hframe, hdeclared, hs⟩
        · rw [Stmt.declared, hdeclared]
    | elseBranch condition first =>
      refine h.assemble ⟨?_, ?_⟩
      · rw [Stmt.WellFormed]
        exact ⟨hframe.1, hframe.2, hdeclared, hs⟩
      · rw [Stmt.declared, hframe.2.1, hdeclared, List.nil_append]
    | whileBody condition =>
      refine h.assemble ⟨?_, ?_⟩
      · rw [Stmt.WellFormed]
        exact ⟨hframe, hdeclared, hs⟩
      · rw [Stmt.declared, hdeclared]
    | forBody clauses =>
      exact h.assemble ⟨ForClauses.wellFormed_loop hframe hdeclared hs,
        ForClauses.declared_loop clauses hdeclared⟩

theorem allWellFormed_reverse {list : List Stmt} (h : Stmt.AllWellFormed list) :
    Stmt.AllWellFormed list.reverse := by
  rw [Stmt.allWellFormed_iff] at h ⊢
  exact fun s hs => h s (List.mem_reverse.1 hs)

theorem holds_closeList {rest : List Token} (h : Held .items [] nest c)
    (hrest : Named rest) : (closeList nest rest c).Holds := by
  have hnest := h.nest
  cases nest with
  | program done => exact ⟨h.named, rfl, by simp, hnest⟩
  | block done frames outer =>
    obtain ⟨hdone, hframes, houter⟩ := hnest
    refine ⟨hrest, ⟨?_, .inr rfl⟩, hframes, houter⟩
    rw [Stmt.WellFormed]
    exact allWellFormed_reverse hdone
  | body owner header done outer =>
    obtain ⟨howner, hheader, hdone, houter⟩ := hnest
    cases owner with
    | function =>
      refine ⟨hrest, ⟨?_, .inl rfl⟩, by simp, houter⟩
      rw [Stmt.WellFormed, FunctionDecl.WellFormed]
      exact ⟨hheader.1, howner, hheader.2, allWellFormed_reverse hdone⟩
    | member head earlier =>
      refine ⟨hrest, ⟨rfl, howner.1, ?_⟩, by simp, houter⟩
      rw [FunctionDecl.AllWellFormed, FunctionDecl.WellFormed]
      exact ⟨⟨hheader.2, allWellFormed_reverse hdone⟩, howner.2⟩

theorem holds_endList (h : Held .items [] nest c) : (endList nest c).Holds := by
  have hnest := h.nest
  cases nest with
  | program done => exact allWellFormed_reverse hnest
  | block done frames outer => exact holds_recover h.named hnest.2.2
  | body owner header done outer => exact holds_recover h.named hnest.2.2.2

theorem holds_step (h : Held control frames nest c) :
    (step control frames nest c).Holds := by
  cases control with
  | items =>
    obtain rfl : frames = [] := h.control
    simp only [step, readItem]
    split
    · exact holds_endList h
    · next hrest =>
      split
      · exact holds_closeList h (Reader.named_of_rest h.named hrest)
      · exact ⟨h.named, rfl, by simp, h.nest⟩
  | declaration => exact holds_readDeclaration h
  | statement => exact holds_readStatement h
  | members head earlier => exact holds_readMember h
  | built s => exact holds_resume h

theorem holds_readFrom (h : Held control frames nest c) :
    Stmt.AllWellFormed (readFrom control frames nest c).1 := by
  fun_induction readFrom control frames nest c with
  | case1 control frames nest c control' frames' nest' c' hstep ih =>
    have hholds := holds_step h
    rw [hstep] at hholds
    exact ih hholds
  | case2 control frames nest c statements c' hstep =>
    have hholds := holds_step h
    rw [hstep] at hholds
    exact hholds

/-- What is read from tokens is well formed, with faults or without. -/
theorem wellFormed_parse {scan : Token.Scan} (hscan : Named scan.tokens)
    (firstId : Nat) : Stmt.AllWellFormed (parse scan firstId).statements := by
  have hstart : Held .items [] (.program []) (.start scan firstId) :=
    ⟨hscan, rfl, by simp, by simp only [Nest.WellFormed, Stmt.AllWellFormed]⟩
  exact holds_readFrom hstart

end Stmt

end Lox
