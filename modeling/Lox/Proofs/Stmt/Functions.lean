import Lox.Proofs.Stmt.Recovery

/-!
# The functions of a program

`Stmt.functions` collects the declarations of functions in a statement: those
of statements and those of the members of classes, however deep they are
nested.

A declaration is proper if it has no parameters in case it is that of a getter.
The reader makes only proper ones, from sources with faults as well
(`proper_parse`): a getter is a member without a parameter list.  As for other
properties of trees, `Sound` says of each machine that it holds proper
declarations only, and one lemma for each of its steps shows that the step
keeps that.
-/

namespace Lox

/-! ## Collecting -/

mutual

/-- The functions that are declared in the statement. -/
def Stmt.functions : Stmt → List FunctionDecl
  | .expression _ | .print _ | .var _ _ | .return _ _ => []
  | .block body => Stmt.functionsAll body
  | .ifElse _ thenBranch none => thenBranch.functions
  | .ifElse _ thenBranch (some elseBranch) =>
    thenBranch.functions ++ elseBranch.functions
  | .while _ body => body.functions
  | .function f => f.functions
  | .class c => c.functions

/-- The functions that are declared in the statements. -/
def Stmt.functionsAll : List Stmt → List FunctionDecl
  | [] => []
  | s :: rest => s.functions ++ Stmt.functionsAll rest

/-- The function itself, and those that are declared in its body. -/
def FunctionDecl.functions : FunctionDecl → List FunctionDecl
  | ⟨name, params, body, kind⟩ =>
    ⟨name, params, body, kind⟩ :: Stmt.functionsAll body

/-- The functions and those that are declared in their bodies. -/
def FunctionDecl.functionsAll : List FunctionDecl → List FunctionDecl
  | [] => []
  | f :: rest => f.functions ++ FunctionDecl.functionsAll rest

/-- The members of the class, and the functions declared in their bodies. -/
def ClassDecl.functions : ClassDecl → List FunctionDecl
  | ⟨_, _, methods⟩ => FunctionDecl.functionsAll methods

end

theorem FunctionDecl.functions_eq (f : FunctionDecl) :
    f.functions = f :: Stmt.functionsAll f.body := by
  cases f
  rw [FunctionDecl.functions]

theorem ClassDecl.functions_eq (c : ClassDecl) :
    c.functions = FunctionDecl.functionsAll c.methods := by
  cases c
  rw [ClassDecl.functions]

theorem Stmt.functionsAll_eq_flatMap (list : List Stmt) :
    Stmt.functionsAll list = list.flatMap Stmt.functions := by
  induction list with
  | nil => rw [Stmt.functionsAll, List.flatMap_nil]
  | cons s rest ih => rw [Stmt.functionsAll, List.flatMap_cons, ih]

theorem FunctionDecl.functionsAll_eq_flatMap (list : List FunctionDecl) :
    FunctionDecl.functionsAll list = list.flatMap FunctionDecl.functions := by
  induction list with
  | nil => rw [FunctionDecl.functionsAll, List.flatMap_nil]
  | cons f rest ih => rw [FunctionDecl.functionsAll, List.flatMap_cons, ih]

section

variable {P : FunctionDecl → Prop}

theorem Stmt.forall_functionsAll {list : List Stmt} :
    (∀ f ∈ Stmt.functionsAll list, P f) ↔
      ∀ s ∈ list, ∀ f ∈ s.functions, P f := by
  rw [Stmt.functionsAll_eq_flatMap]
  exact List.forall_mem_flatMap

theorem FunctionDecl.forall_functionsAll {list : List FunctionDecl} :
    (∀ g ∈ FunctionDecl.functionsAll list, P g) ↔
      ∀ f ∈ list, ∀ g ∈ f.functions, P g := by
  rw [FunctionDecl.functionsAll_eq_flatMap]
  exact List.forall_mem_flatMap

theorem FunctionDecl.forall_functions {f : FunctionDecl} :
    (∀ g ∈ f.functions, P g) ↔ P f ∧ ∀ g ∈ Stmt.functionsAll f.body, P g := by
  rw [f.functions_eq]
  exact List.forall_mem_cons

end

/-! ## Proper declarations -/

/-- If the function is a getter, it has no parameters. -/
def FunctionDecl.Proper (f : FunctionDecl) : Prop :=
  f.kind = .getter → f.params = []

/-- Only proper functions are declared in the statement. -/
def Stmt.Proper (s : Stmt) : Prop :=
  ∀ f ∈ s.functions, f.Proper

namespace Stmt

open Token (Named)
open Reader (gives_accept gives_ahead gives_expect gives_acceptKeyword
  gives_name)

/-! ## The parts of a statement -/

variable {c : Cursor}

/-- No functions are declared in the statement. -/
def Functionless (s : Stmt) : Prop :=
  s.functions = []

theorem Functionless.proper {s : Stmt} (h : s.Functionless) : s.Proper := by
  intro f hf
  rw [h] at hf
  cases hf

theorem functionless_readVar (hc : Named c.rest) :
    readVar.Gives c Functionless := by
  refine (gives_name _ hc).bind fun x c₁ h₁ _ => ?_
  refine Reader.Gives.bind (Q := fun _ => True) ?_ fun v c₂ h₂ _ => ?_
  · refine (gives_accept _ h₁).bind fun b c₂ h₂ _ => ?_
    split
    · exact (Expr.gives_read h₂).bind fun e c₃ h₃ _ => .pure h₃ trivial
    · exact .pure h₂ trivial
  · refine (gives_expect _ _ h₂).bind fun _ c₃ h₃ _ => .pure h₃ ?_
    rw [Functionless, Stmt.functions]

theorem functionless_readExpression (hc : Named c.rest) :
    readExpression.Gives c Functionless := by
  refine (Expr.gives_read hc).bind fun e c₁ h₁ _ => ?_
  refine (gives_expect _ _ h₁).bind fun _ c₂ h₂ _ => .pure h₂ ?_
  rw [Functionless, Stmt.functions]

theorem functionless_readPrint (hc : Named c.rest) :
    readPrint.Gives c Functionless := by
  refine (Expr.gives_read hc).bind fun e c₁ h₁ _ => ?_
  refine (gives_expect _ _ h₁).bind fun _ c₂ h₂ _ => .pure h₂ ?_
  rw [Functionless, Stmt.functions]

theorem functionless_readReturn (line : Nat) (hc : Named c.rest) :
    (readReturn line).Gives c Functionless := by
  refine (gives_readUnless _ hc).bind fun v c₁ h₁ _ => ?_
  refine (gives_expect _ _ h₁).bind fun _ c₂ h₂ _ => .pure h₂ ?_
  rw [Functionless, Stmt.functions]

/-- The initializer of the loop declares no functions. -/
def ForClauses.Functionless (clauses : ForClauses) : Prop :=
  ∀ s ∈ clauses.initializer, s.Functionless

theorem functionless_readForInitializer (hc : Named c.rest) :
    readForInitializer.Gives c fun v => ∀ s ∈ v, s.Functionless := by
  refine (gives_accept _ hc).bind fun b c₁ h₁ _ => ?_
  split
  · exact .pure h₁ (by simp)
  · refine (gives_acceptKeyword _ h₁).bind fun b c₂ h₂ _ => ?_
    split
    · refine (functionless_readVar h₂).bind fun s c₃ h₃ hs => .pure h₃ ?_
      simpa using hs
    · refine (functionless_readExpression h₂).bind
        fun s c₃ h₃ hs => .pure h₃ ?_
      simpa using hs

theorem functionless_readForClauses (hc : Named c.rest) :
    readForClauses.Gives c ForClauses.Functionless := by
  refine (gives_expect _ _ hc).bind fun _ c₁ h₁ _ => ?_
  refine (functionless_readForInitializer h₁).bind fun first c₂ h₂ hfirst => ?_
  refine (gives_readUnless _ h₂).bind fun second c₃ h₃ _ => ?_
  refine (gives_expect _ _ h₃).bind fun _ c₄ h₄ _ => ?_
  refine (gives_readUnless _ h₄).bind fun third c₅ h₅ _ => ?_
  refine (gives_expect _ _ h₅).bind fun _ c₆ h₆ _ => ?_
  exact .pure h₆ hfirst

/-- A loop declares the functions that its body does. -/
theorem ForClauses.proper_loop {clauses : ForClauses} {s : Stmt}
    (h : clauses.Functionless) (hs : s.Proper) : (clauses.loop s).Proper := by
  obtain ⟨initializer, condition, increment⟩ := clauses
  have hloop : (ForClauses.loop ⟨none, condition, increment⟩ s).Proper := by
    cases increment <;>
      simpa [ForClauses.loop, Proper, Stmt.functions, Stmt.functionsAll] using hs
  cases initializer with
  | none => exact hloop
  | some initializer =>
    have hfirst : initializer.functions = [] := h initializer rfl
    simp only [ForClauses.loop, Proper, Stmt.functions, Stmt.functionsAll,
      hfirst] at hloop ⊢
    simpa using hloop

/-- What is read as the header of a getter has no parameters. -/
def Header.Proper (header : Header) : Prop :=
  header.kind = .getter → header.params = []

theorem proper_readHeader {kind : FunctionKind} (hkind : kind ≠ .getter)
    (hc : Named c.rest) : (readHeader kind).Gives c Header.Proper := by
  refine (gives_name _ hc).bind fun x c₁ h₁ _ => ?_
  refine Reader.Gives.bind (Q := Header.Proper) ?_ fun header c₂ h₂ hheader => ?_
  · refine (gives_ahead _ h₁).bind fun b c₂ h₂ _ => ?_
    split
    · exact .pure h₂ fun _ => rfl
    · refine (gives_readParamList _ h₂).bind fun params c₃ h₃ _ => ?_
      exact .pure h₃ fun hgetter => absurd hgetter hkind
  · exact (gives_expect _ _ h₂).bind fun _ c₃ h₃ _ => .pure h₃ hheader

/-! ## The machine -/

/-- What a frame keeps declares proper functions. -/
def Frame.Proper : Frame → Prop
  | .elseBranch _ s => s.Proper
  | .forBody clauses => clauses.Functionless
  | _ => True

/-- The members that have been read declare proper functions. -/
def Owner.Proper : Owner → Prop
  | .function => True
  | .member _ earlier => ∀ f ∈ FunctionDecl.functionsAll earlier, f.Proper

/-- What the open lists hold declares proper functions. -/
def Nest.Proper : Nest → Prop
  | .program done => ∀ s ∈ done, s.Proper
  | .block done frames outer =>
    (∀ s ∈ done, s.Proper) ∧ (∀ frame ∈ frames, frame.Proper) ∧ outer.Proper
  | .body owner header done outer =>
    owner.Proper ∧ header.Proper ∧ (∀ s ∈ done, s.Proper) ∧ outer.Proper

/-- What has just been built declares proper functions. -/
def Control.Proper : Control → Prop
  | .members _ earlier => ∀ f ∈ FunctionDecl.functionsAll earlier, f.Proper
  | .built s => s.Proper
  | _ => True

/-- What the machine holds declares proper functions. -/
structure Sound (control : Control) (frames : List Frame) (nest : Nest)
    (c : Cursor) : Prop where
  named : Named c.rest
  control : control.Proper
  frames : ∀ frame ∈ frames, frame.Proper
  nest : nest.Proper

/-- The step leaves only proper declarations. -/
def Step.Sound : Step → Prop
  | .next control frames nest c => Stmt.Sound control frames nest c
  | .done statements _ => ∀ s ∈ statements, s.Proper

variable {control : Control} {frames : List Frame} {nest : Nest}

theorem sound_recover {d : Diagnostic} (hc : Named c.rest)
    (hnest : nest.Proper) : (recover d nest c).Sound where
  named := named_synchronize hc
  control := trivial
  frames := by simp
  nest := hnest

theorem sound_andThen {α : Type} {p : Reader α} {go : α → Cursor → Step}
    {rest : List Token} {Q : α → Prop} (hnest : nest.Proper)
    (hp : p.Gives (c.moveTo rest) Q)
    (hgo : ∀ a (c' : Cursor), Named c'.rest → Q a → (go a c').Sound) :
    (Step.andThen p nest (c.moveTo rest) go).Sound := by
  unfold Reader.Gives at hp
  unfold Step.andThen
  cases hrun : p (c.moveTo rest) with
  | ok a c' =>
    rw [hrun] at hp
    exact hgo a c' hp.1 hp.2
  | error d c' =>
    rw [hrun] at hp
    exact sound_recover hp hnest

/-- Another statement was built, and a frame may wait for the next one. -/
theorem Sound.go (h : Sound control frames nest c) {control' : Control}
    {c' : Cursor} (hc' : Named c'.rest) (hcontrol : control'.Proper) :
    Sound control' frames nest c' :=
  ⟨hc', hcontrol, h.frames, h.nest⟩

theorem Sound.push (h : Sound control frames nest c) {frame : Frame}
    {c' : Cursor} (hc' : Named c'.rest) (hframe : frame.Proper) :
    Sound .statement (frame :: frames) nest c' :=
  ⟨hc', trivial, List.forall_mem_cons.2 ⟨hframe, h.frames⟩, h.nest⟩

/-- A body is read in a list of its own. -/
theorem Sound.body (h : Sound control frames nest c) (owner : Owner)
    (howner : owner.Proper) {header : Header} {c' : Cursor}
    (hc' : Named c'.rest) (hheader : header.Proper) :
    (Step.next .items [] (.body owner header [] nest) c').Sound :=
  ⟨hc', trivial, by simp, howner, hheader, by simp, h.nest⟩

theorem sound_readDeclaration (h : Sound .declaration frames nest c) :
    (readDeclaration frames nest c).Sound := by
  have hnamed := h.named
  unfold readDeclaration
  split
  · next hrest =>
    simp only [hrest, Token.named_cons] at hnamed
    refine sound_andThen h.nest (gives_readClassHead hnamed.2)
      fun head c' hc' _ => ?_
    refine ⟨hc', ?_, by simp, h.nest⟩
    rw [Control.Proper, FunctionDecl.functionsAll]
    rintro f ⟨⟩
  · next hrest =>
    simp only [hrest, Token.named_cons] at hnamed
    exact sound_andThen h.nest (proper_readHeader (by decide) hnamed.2)
      fun header c' hc' hheader =>
        h.body .function trivial hc' hheader
  · next hrest =>
    simp only [hrest, Token.named_cons] at hnamed
    exact sound_andThen h.nest (functionless_readVar hnamed.2)
      fun s c' hc' hs => h.go hc' hs.proper
  · exact h.go hnamed trivial

theorem sound_readStatement (h : Sound .statement frames nest c) :
    (readStatement frames nest c).Sound := by
  have hnamed := h.named
  unfold readStatement
  split
  · next hrest =>
    simp only [hrest, Token.named_cons] at hnamed
    exact sound_andThen h.nest (functionless_readForClauses hnamed.2)
      fun clauses c' hc' hclauses => h.push hc' hclauses
  · next hrest =>
    simp only [hrest, Token.named_cons] at hnamed
    exact sound_andThen h.nest (gives_readCondition _ _ hnamed.2)
      fun condition c' hc' _ => h.push hc' trivial
  · next hrest =>
    simp only [hrest, Token.named_cons] at hnamed
    exact sound_andThen h.nest (gives_readCondition _ _ hnamed.2)
      fun condition c' hc' _ => h.push hc' trivial
  · next hrest =>
    simp only [hrest, Token.named_cons] at hnamed
    exact sound_andThen h.nest (functionless_readReturn _ hnamed.2)
      fun s c' hc' hs => h.go hc' hs.proper
  · next hrest =>
    simp only [hrest, Token.named_cons] at hnamed
    exact ⟨hnamed.2, trivial, by simp, by simp, h.frames, h.nest⟩
  · next hrest =>
    simp only [hrest, Token.named_cons] at hnamed
    exact sound_andThen h.nest (functionless_readPrint hnamed.2)
      fun s c' hc' hs => h.go hc' hs.proper
  · exact sound_andThen h.nest (functionless_readExpression hnamed)
      fun s c' hc' hs => h.go hc' hs.proper

theorem sound_readMember {head : ClassHead} {earlier : List FunctionDecl}
    (h : Sound (.members head earlier) frames nest c) :
    (readMember head earlier nest c).Sound := by
  have hnamed := h.named
  have howner : (Owner.member head earlier).Proper := h.control
  unfold readMember
  split
  · exact sound_recover hnamed h.nest
  · next hrest =>
    simp only [hrest, Token.named_cons] at hnamed
    refine ⟨hnamed.2, ?_, by simp, h.nest⟩
    rw [Control.Proper, Stmt.Proper, Stmt.functions, ClassDecl.functions,
      FunctionDecl.forall_functionsAll]
    intro f hf
    exact FunctionDecl.forall_functionsAll.1 h.control f (List.mem_reverse.1 hf)
  · next hrest =>
    simp only [hrest, Token.named_cons] at hnamed
    exact sound_andThen h.nest (proper_readHeader (by decide) hnamed.2)
      fun header c' hc' hheader => h.body _ howner hc' hheader
  · exact sound_andThen h.nest (proper_readHeader (by decide) hnamed)
      fun header c' hc' hheader => h.body _ howner hc' hheader

theorem Nest.Proper.add {s : Stmt} (h : nest.Proper) (hs : s.Proper) :
    (nest.add s).Proper := by
  cases nest with
  | program done => exact List.forall_mem_cons.2 ⟨hs, h⟩
  | block done frames outer =>
    exact ⟨List.forall_mem_cons.2 ⟨hs, h.1⟩, h.2⟩
  | body owner header done outer =>
    exact ⟨h.1, h.2.1, List.forall_mem_cons.2 ⟨hs, h.2.2.1⟩, h.2.2.2⟩

theorem sound_resume {s : Stmt} (h : Sound (.built s) frames nest c) :
    (resume s frames nest c).Sound := by
  have hnamed := h.named
  have hs : s.Proper := h.control
  cases frames with
  | nil => exact ⟨hnamed, trivial, by simp, h.nest.add hs⟩
  | cons frame frames =>
    obtain ⟨hframe, hframes⟩ := List.forall_mem_cons.1 h.frames
    cases frame with
    | thenBranch condition =>
      simp only [resume]
      split
      · next hrest =>
        simp only [hrest, Token.named_cons] at hnamed
        exact ⟨hnamed.2, trivial, List.forall_mem_cons.2 ⟨hs, hframes⟩, h.nest⟩
      · refine ⟨hnamed, ?_, hframes, h.nest⟩
        rw [Control.Proper, Stmt.Proper, Stmt.functions]
        exact hs
    | elseBranch condition first =>
      refine ⟨hnamed, ?_, hframes, h.nest⟩
      rw [Control.Proper, Stmt.Proper, Stmt.functions]
      exact List.forall_mem_append.2 ⟨hframe, hs⟩
    | whileBody condition =>
      refine ⟨hnamed, ?_, hframes, h.nest⟩
      rw [Control.Proper, Stmt.Proper, Stmt.functions]
      exact hs
    | forBody clauses =>
      exact ⟨hnamed, ForClauses.proper_loop hframe hs, hframes, h.nest⟩

/-- The declaration that a header and a body make. -/
theorem Header.Proper.function {header : Header} (h : header.Proper)
    {done : List Stmt} (hdone : ∀ s ∈ done, s.Proper) :
    ∀ f ∈ (FunctionDecl.mk header.name header.params done.reverse
      header.kind).functions, f.Proper := by
  refine FunctionDecl.forall_functions.2 ⟨h, Stmt.forall_functionsAll.2 ?_⟩
  exact fun s hs => hdone s (List.mem_reverse.1 hs)

theorem sound_closeList {rest : List Token} (h : Sound .items frames nest c)
    (hrest : Named rest) : (closeList nest rest c).Sound := by
  have hnest := h.nest
  cases nest with
  | program done => exact ⟨h.named, trivial, by simp, hnest⟩
  | block done frames outer =>
    obtain ⟨hdone, hframes, houter⟩ := hnest
    refine ⟨hrest, ?_, hframes, houter⟩
    rw [Control.Proper, Stmt.Proper, Stmt.functions, Stmt.forall_functionsAll]
    exact fun s hs => hdone s (List.mem_reverse.1 hs)
  | body owner header done outer =>
    obtain ⟨howner, hheader, hdone, houter⟩ := hnest
    cases owner with
    | function =>
      refine ⟨hrest, ?_, by simp, houter⟩
      rw [Control.Proper, Stmt.Proper, Stmt.functions]
      exact hheader.function hdone
    | member head earlier =>
      refine ⟨hrest, ?_, by simp, houter⟩
      rw [Control.Proper, FunctionDecl.functionsAll]
      exact List.forall_mem_append.2 ⟨hheader.function hdone, howner⟩

theorem sound_endList (h : Sound .items frames nest c) :
    (endList nest c).Sound := by
  have hnest := h.nest
  cases nest with
  | program done => exact fun s hs => hnest s (List.mem_reverse.1 hs)
  | block done frames outer => exact sound_recover h.named hnest.2.2
  | body owner header done outer => exact sound_recover h.named hnest.2.2.2

theorem sound_step (h : Sound control frames nest c) :
    (step control frames nest c).Sound := by
  cases control with
  | items =>
    simp only [step, readItem]
    split
    · exact sound_endList h
    · next hrest =>
      split
      · exact sound_closeList h (Reader.named_of_rest h.named hrest)
      · exact ⟨h.named, trivial, by simp, h.nest⟩
  | declaration => exact sound_readDeclaration h
  | statement => exact sound_readStatement h
  | members head earlier => exact sound_readMember h
  | built s => exact sound_resume h

theorem sound_readFrom (h : Sound control frames nest c) :
    ∀ s ∈ (readFrom control frames nest c).1, s.Proper := by
  fun_induction readFrom control frames nest c with
  | case1 control frames nest c control' frames' nest' c' hstep ih =>
    have hsound := sound_step h
    rw [hstep] at hsound
    exact ih hsound
  | case2 control frames nest c statements c' hstep =>
    have hsound := sound_step h
    rw [hstep] at hsound
    exact hsound

/-- What is read from tokens declares only proper functions, with faults or
without. -/
theorem proper_parse {scan : Token.Scan} (hscan : Named scan.tokens)
    (firstId : Nat) :
    ∀ f ∈ Stmt.functionsAll (parse scan firstId).statements, f.Proper := by
  have hstart : Sound .items [] (.program []) (.start scan firstId) :=
    ⟨hscan, trivial, by simp, by simp [Nest.Proper]⟩
  exact Stmt.forall_functionsAll.2 (sound_readFrom hstart)

end Stmt

end Lox
