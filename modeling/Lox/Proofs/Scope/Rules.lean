import Lox.Proofs.Scope.Addressing

/-!
# The static rules

`Breach` lists the ways in which a program can break a static rule, each as a
fact about a place in it.  The scope rules accept exactly the programs without
a breach (`accepted_iff_no_breach`).

The walk reports a fault in an expression exactly when something in it is out
of place in the state it is walked in (`reports_walkExpr_eq_nil`), and it
reports a declaration exactly when the innermost scope has the name already.
From a walk without reports it follows, place by place, that there is no
breach; and without a breach an induction over the tree shows that nothing is
ever reported.
-/

namespace Lox.Scope

open State (Effect)

/-! ## Breaches -/

/-- A program breaks a static rule. -/
inductive Breach (program : List Stmt) : Prop where
  /-- A name is declared twice directly in a block. -/
  | twiceInBlock {p body} (h : Stands program p (.block body))
      (htwice : ¬ (body.filterMap Stmt.introduces).Nodup)
  /-- A name is declared twice among the parameters and directly in the body
  of a function. -/
  | twiceInFunction {p f} (h : Stands program p (.function f))
      (htwice : ¬ (f.params.map Ident.name ++
        f.body.filterMap Stmt.introduces).Nodup)
  | twiceInMember {p c f} (h : Stands program p (.class c))
      (hf : f ∈ c.methods)
      (htwice : ¬ (f.params.map Ident.name ++
        f.body.filterMap Stmt.introduces).Nodup)
  /-- A local variable is read in its own initializer. -/
  | ownInitializer {p x e ref} (h : Stands program p (.var x (some e)))
      (hlocal : p.scopes ≠ []) (hpart : .variable ref ∈ e.parts)
      (hname : ref.name = x.name)
  | returnOutside {p line value} (h : Stands program p (.return line value))
      (houtside : p.owner = none)
  | returnFromInitializer {p line e f}
      (h : Stands program p (.return line (some e)))
      (howner : p.owner = some (.member f)) (hmethod : f.kind = .method)
      (hname : f.name.name = initializerName)
  | thisOutside {p s e id line} (h : Stands program p s) (he : Evaluates s e)
      (hpart : .this id line ∈ e.parts) (houtside : p.cls = none)
  | superOutside {p s e id line method} (h : Stands program p s)
      (he : Evaluates s e) (hpart : .super id line method ∈ e.parts)
      (houtside : p.cls = none)
  | superWithoutSuperclass {p s e id line method c} (h : Stands program p s)
      (he : Evaluates s e) (hpart : .super id line method ∈ e.parts)
      (hcls : p.cls = some c) (hbase : c.superclass = none)
  | superInStatic {p s e id line method f} (h : Stands program p s)
      (he : Evaluates s e) (hpart : .super id line method ∈ e.parts)
      (howner : p.owner = some (.member f)) (hstatic : f.kind = .static)
  | inheritsItself {p c parent} (h : Stands program p (.class c))
      (hparent : c.superclass = some parent)
      (hname : parent.name = c.name.name)

/-! ## Faults in expressions -/

/-- Nothing in the expression is out of place in the state. -/
structure Clean (e : Expr) (st : State) : Prop where
  read : ∀ ref, .variable ref ∈ e.parts → st.isOpen ref.name = false
  this : ∀ id line, .this id line ∈ e.parts → st.context ≠ .outside
  super : ∀ id line method, .super id line method ∈ e.parts →
    st.superFault? = none

theorem Clean.of_parts {e e' : Expr} {st : State} (h : Clean e st)
    (hparts : ∀ part ∈ e'.parts, part ∈ e.parts) : Clean e' st where
  read := fun ref hmem => h.read ref (hparts _ hmem)
  this := fun id line hmem => h.this id line (hparts _ hmem)
  super := fun id line method hmem => h.super id line method (hparts _ hmem)

/-- An expression is clean if its parts are and it is no occurrence that can
be out of place itself. -/
theorem Clean.of_operands {e : Expr} {st : State} (operands : List Expr)
    (hparts : e.parts = e :: Expr.partsAll operands)
    (hplain : (∀ ref, e ≠ .variable ref) ∧ (∀ id line, e ≠ .this id line) ∧
      ∀ id line method, e ≠ .super id line method)
    (h : ∀ operand ∈ operands, Clean operand st) : Clean e st := by
  have hinside : ∀ part ∈ e.parts, part ≠ e →
      ∃ operand ∈ operands, part ∈ operand.parts := by
    intro part hmem hne
    rw [hparts, List.mem_cons] at hmem
    rcases hmem with heq | hmem
    · exact absurd heq hne
    · exact Expr.mem_partsAll.1 hmem
  refine ⟨?_, ?_, ?_⟩
  · intro ref hmem
    obtain ⟨operand, hoperand, hpart⟩ :=
      hinside _ hmem fun heq => hplain.1 ref heq.symm
    exact (h operand hoperand).read ref hpart
  · intro id line hmem
    obtain ⟨operand, hoperand, hpart⟩ :=
      hinside _ hmem fun heq => hplain.2.1 id line heq.symm
    exact (h operand hoperand).this id line hpart
  · intro id line method hmem
    obtain ⟨operand, hoperand, hpart⟩ :=
      hinside _ hmem fun heq => hplain.2.2 id line method heq.symm
    exact (h operand hoperand).super id line method hpart

/-- What is clean depends on the scopes, the function and the class only. -/
theorem Clean.congr {e : Expr} {st st' : State} {ids : List Nat}
    (h : Effect [] ids st st') : Clean e st' ↔ Clean e st := by
  have hopen (name : String) : st'.isOpen name = st.isOpen name := by
    rw [State.isOpen, State.isOpen, h.scopes_eq]
  have hfault : st'.superFault? = st.superFault? := by
    rw [State.superFault?, State.superFault?, h.context, h.body]
  constructor
  · intro hclean
    refine ⟨fun ref hmem => ?_, fun id line hmem => ?_,
      fun id line method hmem => ?_⟩
    · rw [← hopen]
      exact hclean.read ref hmem
    · rw [← h.context]
      exact hclean.this id line hmem
    · rw [← hfault]
      exact hclean.super id line method hmem
  · intro hclean
    refine ⟨fun ref hmem => ?_, fun id line hmem => ?_,
      fun id line method hmem => ?_⟩
    · rw [hopen]
      exact hclean.read ref hmem
    · rw [h.context]
      exact hclean.this id line hmem
    · rw [hfault]
      exact hclean.super id line method hmem

theorem reports_bind (st : State) (id : Nat) (name : String) :
    (st.bind id name).reports = st.reports := by
  unfold State.bind
  split <;> rfl

theorem reports_reportIf_eq_nil {st : State} {condition : Bool} {line : Nat}
    {lexeme : String} {f : ScopeFault} :
    (st.reportIf condition line lexeme f).reports = [] ↔
      st.reports = [] ∧ condition = false := by
  cases condition <;> simp [State.reportIf, State.report]

theorem reports_read_eq_nil {st : State} {ref : Ref} :
    (st.read ref).reports = [] ↔
      st.reports = [] ∧ st.isOpen ref.name = false := by
  rw [State.read, reports_bind, reports_reportIf_eq_nil]

theorem reports_readThis_eq_nil {st : State} {id line : Nat} :
    (st.readThis id line).reports = [] ↔
      st.reports = [] ∧ st.context ≠ .outside := by
  unfold State.readThis
  split
  · next houtside => simp [State.report, houtside]
  · next hinside => simp [reports_bind, hinside]

theorem reports_readSuper_eq_nil {st : State} {id line : Nat} :
    (st.readSuper id line).reports = [] ↔
      st.reports = [] ∧ st.superFault? = none := by
  rw [State.readSuper, reports_bind]
  cases st.superFault? <;> simp [State.report]

theorem reports_walkExprs_eq_nil {list : List Expr}
    (ih : ∀ e ∈ list, ∀ st, (walkExpr e st).reports = [] ↔
      st.reports = [] ∧ Clean e st) (st : State) :
    (walkExprs list st).reports = [] ↔
      st.reports = [] ∧ ∀ e ∈ list, Clean e st := by
  induction list generalizing st with
  | nil => simp [walkExprs]
  | cons e rest ihrest =>
    obtain ⟨he, hrest⟩ := List.forall_mem_cons.1 ih
    have hcongr (e' : Expr) : Clean e' (walkExpr e st) ↔ Clean e' st :=
      Clean.congr (effect_walkExpr e st)
    rw [walkExprs, ihrest hrest, he, List.forall_mem_cons, and_assoc]
    simp only [hcongr]

/-- The walk reports nothing in an expression exactly if nothing in it is out
of place. -/
theorem reports_walkExpr_eq_nil (e : Expr) (st : State) :
    (walkExpr e st).reports = [] ↔ st.reports = [] ∧ Clean e st := by
  induction e generalizing st with
  | literal value =>
    have hclean : Clean (.literal value) st :=
      .of_operands [] (by simp [Expr.parts, Expr.partsAll])
        (by simp) (by simp)
    simp [walkExpr, hclean]
  | occurrence ref =>
    rw [walkExpr, reports_read_eq_nil]
    refine and_congr_right fun _ => ⟨fun hopen => ⟨?_, ?_, ?_⟩, fun h => ?_⟩
    · simp [Expr.parts, hopen]
    · simp [Expr.parts]
    · simp [Expr.parts]
    · exact h.read ref (Expr.mem_parts_self _)
  | this id line =>
    rw [walkExpr, reports_readThis_eq_nil]
    refine and_congr_right fun _ => ⟨fun hinside => ⟨?_, ?_, ?_⟩, fun h => ?_⟩
    · simp [Expr.parts]
    · simp [Expr.parts, hinside]
    · simp [Expr.parts]
    · exact h.this id line (Expr.mem_parts_self _)
  | super id line method =>
    rw [walkExpr, reports_readSuper_eq_nil]
    refine and_congr_right fun _ => ⟨fun hnone => ⟨?_, ?_, ?_⟩, fun h => ?_⟩
    · simp [Expr.parts]
    · simp [Expr.parts]
    · simp [Expr.parts, hnone]
    · exact h.super id line method (Expr.mem_parts_self _)
  | group inner ih | unary op line inner ih | get inner name ih =>
    rw [walkExpr, ih]
    refine and_congr_right fun _ => ⟨fun h => ?_, fun h => ?_⟩
    · exact .of_operands [inner]
        (by simp [Expr.parts, Expr.partsAll]) (by simp) (by simpa using h)
    · exact h.of_parts (by simp +contextual [Expr.parts])
  | binary left op line right ihleft ihright
  | logical left op line right ihleft ihright =>
    rw [walkExpr, ihright, ihleft, Clean.congr (effect_walkExpr left st),
      and_assoc]
    refine and_congr_right fun _ => ⟨fun h => ?_, fun h => ⟨?_, ?_⟩⟩
    · exact .of_operands [left, right]
        (by simp [Expr.parts, Expr.partsAll]) (by simp) (by simpa using h)
    · exact h.of_parts (by simp +contextual [Expr.parts])
    · exact h.of_parts (by simp +contextual [Expr.parts])
  | set object name value ihobject ihvalue =>
    rw [walkExpr, ihobject, ihvalue, Clean.congr (effect_walkExpr value st),
      and_assoc]
    refine and_congr_right fun _ => ⟨fun h => ?_, fun h => ⟨?_, ?_⟩⟩
    · exact .of_operands [object, value]
        (by simp [Expr.parts, Expr.partsAll]) (by simp) (by simpa using h.symm)
    · exact h.of_parts (by simp +contextual [Expr.parts])
    · exact h.of_parts (by simp +contextual [Expr.parts])
  | assign target value ih =>
    rw [walkExpr, reports_bind, ih]
    refine and_congr_right fun _ => ⟨fun h => ?_, fun h => ?_⟩
    · exact .of_operands [value]
        (by simp [Expr.parts, Expr.partsAll]) (by simp) (by simpa using h)
    · exact h.of_parts (by simp +contextual [Expr.parts])
  | call callee line arguments ihcallee iharguments =>
    have hcongr (e : Expr) : Clean e (walkExpr callee st) ↔ Clean e st :=
      Clean.congr (effect_walkExpr callee st)
    rw [walkExpr, reports_walkExprs_eq_nil iharguments, ihcallee, and_assoc]
    simp only [hcongr]
    refine and_congr_right fun _ => ⟨fun h => ?_, fun h => ⟨?_, ?_⟩⟩
    · exact .of_operands (callee :: arguments)
        (by simp [Expr.parts, Expr.partsAll]) (by simp)
        (List.forall_mem_cons.2 h)
    · exact h.of_parts (by simp +contextual [Expr.parts])
    · intro argument hmem
      refine h.of_parts fun part hpart => ?_
      have hall := Expr.mem_partsAll.2 ⟨argument, hmem, hpart⟩
      simp [Expr.parts, hall]

/-! ## Faults in declarations -/

/-- A declaration is reported exactly if the innermost scope has the name
already. -/
theorem reports_declare_eq_nil {st : State} {x : Ident} :
    (st.declare x).reports = [] ↔
      st.reports = [] ∧ Free st.scopes x.name := by
  unfold State.declare Free
  cases st.scopes with
  | nil => simp
  | cons scope outer =>
    cases hcontains : scope.contains x.name <;> simp [State.report, hcontains]

theorem reports_define (st : State) (x : Ident) :
    (st.define x).reports = st.reports :=
  (define_fields st x).2

theorem reports_declare_define_eq_nil {st : State} {x : Ident} :
    ((st.declare x).define x).reports = [] ↔
      st.reports = [] ∧ Free st.scopes x.name := by
  rw [reports_define, reports_declare_eq_nil]

/-- None of the names is in the innermost scope, and none is there twice. -/
def NewNames (scopes : List (Table Bool)) (names : List String) : Prop :=
  names.Nodup ∧ ∀ x ∈ names, Free scopes x

theorem free_cons {scope : Table Bool} {outer : List (Table Bool)}
    {x : String} : Free (scope :: outer) x ↔ scope.contains x = false := by
  simp [Free]

theorem free_addNames {scope : Table Bool} {outer : List (Table Bool)}
    {names : List String} {x : String} :
    Free (addNames names (scope :: outer)) x ↔
      x ∉ names ∧ Free (scope :: outer) x := by
  rw [addNames, free_cons, free_cons, contains_foldl_insert]
  simp

/-- Names are new if the first ones are and the others are new behind them. -/
theorem newNames_append {scope : Table Bool} {outer : List (Table Bool)}
    {names names' : List String} :
    NewNames (scope :: outer) (names ++ names') ↔
      NewNames (scope :: outer) names ∧
        NewNames (addNames names (scope :: outer)) names' := by
  unfold NewNames
  simp only [free_addNames, List.nodup_append, List.mem_append]
  constructor
  · rintro ⟨⟨hnodup, hnodup', hdisjoint⟩, hfree⟩
    exact ⟨⟨hnodup, fun x hx => hfree x (.inl hx)⟩, hnodup', fun x hx =>
      ⟨fun hmem => hdisjoint x hmem x hx rfl, hfree x (.inr hx)⟩⟩
  · rintro ⟨⟨hnodup, hfree⟩, hnodup', hfree'⟩
    refine ⟨⟨hnodup, hnodup', fun x hx y hy heq => ?_⟩, ?_⟩
    · exact (hfree' y hy).1 (heq ▸ hx)
    · rintro x (hx | hx)
      · exact hfree x hx
      · exact (hfree' x hx).2

theorem newNames_singleton {scopes : List (Table Bool)} {x : String} :
    NewNames scopes [x] ↔ Free scopes x := by
  simp [NewNames]

/-- A scope that has just been opened has no names. -/
theorem newNames_empty (outer : List (Table Bool)) {names : List String} :
    NewNames (.empty :: outer) names ↔ names.Nodup := by
  have hfree (x : String) : Free (.empty :: outer) x := by
    rw [free_cons]
    rfl
  simp [NewNames, hfree]

theorem reports_parameters_eq_nil {params : List Ident} {st : State}
    {scope : Table Bool} {outer : List (Table Bool)}
    (hscopes : st.scopes = scope :: outer) :
    (st.parameters params).reports = [] ↔
      st.reports = [] ∧ NewNames (scope :: outer) (params.map Ident.name) := by
  induction params generalizing st scope with
  | nil => simp [State.parameters, NewNames]
  | cons x rest ih =>
    have heffect := State.effect_declare_define st x
    have hafter : ((st.declare x).define x).scopes =
        scope.insert x.name true :: outer := by
      rw [heffect.scopes, hscopes]
      rfl
    have hsplit : List.map Ident.name (x :: rest) =
        [x.name] ++ rest.map Ident.name := rfl
    have hfold : st.parameters (x :: rest) =
        ((st.declare x).define x).parameters rest := rfl
    rw [hfold, ih hafter, reports_declare_define_eq_nil, hsplit,
      newNames_append, newNames_singleton, hscopes, and_assoc]
    rfl

/-- A statement that is walked without a report declares a new name. -/
theorem newNames_of_walkStmt {s : Stmt} {st : State} (hform : s.WellFormed)
    (h : (walkStmt s st).reports = []) : NewNames st.scopes s.declared := by
  cases s with
  | var x initializer =>
    rw [walkStmt, reports_define] at h
    have hdeclare := (effect_walkOption initializer _).reports_eq_nil h
    exact newNames_singleton.2 (reports_declare_eq_nil.1 hdeclare).2
  | function f =>
    rw [walkStmt] at h
    have hroutine := effect_walkRoutine_of (fun s (_ : s ∈ f.body) =>
      effect_walkStmt s) .function ((st.declare f.name).define f.name)
    have hnamed := hroutine.reports_eq_nil h
    exact newNames_singleton.2 (reports_declare_define_eq_nil.1 hnamed).2
  | «class» c =>
    rw [walkStmt] at h
    have hnamed : (st.named c).reports = [] := by
      have hmembers := effect_walkMembers_of (fun f (_ : f ∈ c.methods) s _ =>
        effect_walkStmt s) (st.inClass c)
      obtain ⟨name, superclass, methods⟩ := c
      cases superclass with
      | none => exact hmembers.enclosed.reports_eq_nil h
      | some parent => exact hmembers.enclosed.enclosed.reports_eq_nil h
    refine newNames_singleton.2 ?_
    obtain ⟨name, superclass, methods⟩ := c
    cases superclass with
    | none => exact (reports_declare_define_eq_nil.1 hnamed).2
    | some parent =>
      have hread := (reports_read_eq_nil.1 hnamed).1
      have hinherits := (reports_reportIf_eq_nil.1 hread).1
      exact (reports_declare_define_eq_nil.1 hinherits).2
  | _ =>
    rw [hform.declared_eq]
    exact ⟨List.nodup_nil, by simp [Stmt.introduces]⟩

theorem newNames_of_walkStmts {list : List Stmt} {st : State}
    {scope : Table Bool} {outer : List (Table Bool)}
    (hform : Stmt.AllWellFormed list) (hscopes : st.scopes = scope :: outer)
    (h : (walkStmts list st).reports = []) :
    NewNames (scope :: outer) (list.filterMap Stmt.introduces) := by
  rw [← hform.declared_eq]
  induction list generalizing st scope with
  | nil => exact ⟨List.nodup_nil, by simp⟩
  | cons s rest ih =>
    rw [Stmt.AllWellFormed] at hform
    rw [walkStmts] at h
    have heffect := effect_walkStmt s st
    have hs := (effect_walkStmts rest _).reports_eq_nil h
    have hafter := heffect.scopes
    rw [hscopes] at hafter
    rw [List.flatMap_cons, newNames_append, ← hscopes]
    refine ⟨newNames_of_walkStmt hform.1 hs, ?_⟩
    rw [hscopes]
    exact ih hform.2 hafter h

/-- The parameters and the declarations of a function that is walked without
a report have different names. -/
theorem nodup_of_walkRoutine {f : FunctionDecl} {body : Body} {st : State}
    (hform : f.WellFormed) (h : (walkRoutine f body st).reports = []) :
    (f.params.map Ident.name ++ f.body.filterMap Stmt.introduces).Nodup := by
  obtain ⟨name, params, statements, kind⟩ := f
  rw [FunctionDecl.WellFormed] at hform
  rw [walkRoutine] at h
  have hstatements : (walkStmts statements (st.inRoutine params body)).reports =
      [] := h
  have hparams := (effect_walkStmts statements _).reports_eq_nil hstatements
  have hentered : (({ st with body := body } : State).enter []).scopes =
      .empty :: st.scopes := rfl
  have hnew := (reports_parameters_eq_nil hentered).1 hparams
  have hbody := newNames_of_walkStmts hform.2 (scopes_inRoutine st params body)
    hstatements
  rw [← newNames_empty st.scopes, newNames_append]
  exact ⟨hnew.2, hbody⟩

/-! ## Accepted programs have no breach -/

section

variable {program : List Stmt} {table : Distances} {p : Place} {s : Stmt}

/-- A walk without reports has none when it leaves a statement. -/
theorem Stands.walked (h : Stands program p s)
    (hform : Stmt.AllWellFormed program) (hnodup : (Stmt.idsAll program).Nodup)
    (haccepted : (finalState program table).reports = []) :
    ∃ st, Located p s st ∧ (walkStmt s st).reports = [] := by
  obtain ⟨st, hlocated, hpart⟩ := h.located table hform hnodup
  exact ⟨st, hlocated, List.suffix_nil.1 (haccepted ▸ hpart.reports)⟩

/-- Without reports an expression is clean in the state it is walked in. -/
theorem Stands.clean {e : Expr} (h : Stands program p s)
    (hform : Stmt.AllWellFormed program) (hnodup : (Stmt.idsAll program).Nodup)
    (haccepted : (finalState program table).reports = [])
    (he : Evaluates s e) :
    ∃ st, Clean e st ∧ st.body = p.body ∧ st.context = p.context := by
  obtain ⟨st, hlocated, hpart⟩ := h.located table hform hnodup
  obtain ⟨st', hreaches⟩ := hlocated.evaluates hpart he
  have hreports : (walkExpr e st').reports = [] :=
    List.suffix_nil.1 (haccepted ▸ hreaches.part.reports)
  exact ⟨st', ((reports_walkExpr_eq_nil e st').1 hreports).2, hreaches.body,
    hreaches.context⟩

theorem Place.context_of_cls {c : ClassDecl} (hcls : p.cls = some c) :
    p.context = if c.superclass.isSome then .derived else .base := by
  obtain ⟨name, superclass, methods⟩ := c
  rw [Place.context, hcls]
  cases superclass <;> rfl

theorem Place.context_outside (hcls : p.cls = none) : p.context = .outside := by
  rw [Place.context, hcls]

theorem isOpen_declare {st : State} {x : Ident} (hlocal : st.scopes ≠ [])
    (hfree : Free st.scopes x.name) : (st.declare x).isOpen x.name = true := by
  cases hscopes : st.scopes with
  | nil => exact absurd hscopes hlocal
  | cons scope outer =>
    rw [hscopes, free_cons] at hfree
    simp [State.declare, State.isOpen, hscopes, hfree]

/-- A walk without reports passes over no breach. -/
theorem no_breach_of_accepted (hform : Stmt.AllWellFormed program)
    (hnodup : (Stmt.idsAll program).Nodup)
    (haccepted : (finalState program table).reports = []) :
    ¬ Breach program := by
  intro hbreach
  cases hbreach with
  | @twiceInBlock p body h htwice =>
    obtain ⟨st, hlocated, hreports⟩ := h.walked hform hnodup haccepted
    have hbody := hlocated.form
    rw [Stmt.WellFormed] at hbody
    rw [walkStmt] at hreports
    have hentered : (st.enter []).scopes = .empty :: st.scopes := rfl
    exact htwice (newNames_of_walkStmts hbody hentered hreports).1
  | twiceInFunction h htwice =>
    obtain ⟨st, hlocated, hreports⟩ := h.walked hform hnodup haccepted
    have hfunction := hlocated.form
    rw [Stmt.WellFormed] at hfunction
    rw [walkStmt] at hreports
    exact htwice (nodup_of_walkRoutine hfunction.2.2 hreports)
  | @twiceInMember p c f h hf htwice =>
    obtain ⟨st, hlocated, hpart⟩ := h.located table hform hnodup
    obtain ⟨earlier, later, hmethods⟩ := List.append_of_mem hf
    rw [Stmt.ids, walkStmt] at hpart
    have hmembers := hpart.cls.2
    rw [hmethods] at hmembers
    have hreports := List.suffix_nil.1 (haccepted ▸ hmembers.members.reports)
    have hclass := hlocated.form
    obtain ⟨name, superclass, methods⟩ := c
    rw [Stmt.WellFormed, ClassDecl.WellFormed] at hclass
    exact htwice (nodup_of_walkRoutine (hclass.2.of_mem hf) hreports)
  | @ownInitializer p x e ref h hlocal hpart hname =>
    obtain ⟨st, hlocated, hreports⟩ := h.walked hform hnodup haccepted
    rw [walkStmt, reports_define] at hreports
    obtain ⟨hdeclare, hclean⟩ := (reports_walkExpr_eq_nil e _).1 hreports
    have hscopes : st.scopes ≠ [] := by
      intro hnil
      have hmirrors := hlocated.scopes
      rw [hnil] at hmirrors
      exact hlocal (List.forall₂_nil_right_iff.1 hmirrors)
    have hopen := isOpen_declare hscopes (reports_declare_eq_nil.1 hdeclare).2
    have hclosed := hclean.read ref hpart
    rw [hname, hopen] at hclosed
    cases hclosed
  | @returnOutside p line value h houtside =>
    obtain ⟨st, hlocated, hreports⟩ := h.walked hform hnodup haccepted
    rw [walkStmt] at hreports
    have hcheck := (effect_walkOption value _).reports_eq_nil hreports
    have hfirst := (reports_reportIf_eq_nil.1
      (reports_reportIf_eq_nil.1 hcheck).1).2
    have hbody := hlocated.body
    rw [Place.body, houtside] at hbody
    simp [hbody] at hfirst
  | @returnFromInitializer p line e f h howner hmethod hname =>
    obtain ⟨st, hlocated, hreports⟩ := h.walked hform hnodup haccepted
    rw [walkStmt] at hreports
    have hcheck := (effect_walkOption (some e) _).reports_eq_nil hreports
    have hsecond := (reports_reportIf_eq_nil.1 hcheck).2
    have hbody : st.body = .initializer := by
      have hinitializer : f.isInitializer = true := by
        simp [FunctionDecl.isInitializer, hmethod, hname]
      rw [hlocated.body, Place.body, howner]
      simp [Body.ofMember, hmethod, hinitializer]
    simp [hbody] at hsecond
  | thisOutside h he hpart houtside =>
    obtain ⟨st, hclean, -, hcontext⟩ := h.clean hform hnodup haccepted he
    rw [Place.context_outside houtside] at hcontext
    exact hclean.this _ _ hpart hcontext
  | superOutside h he hpart houtside =>
    obtain ⟨st, hclean, -, hcontext⟩ := h.clean hform hnodup haccepted he
    rw [Place.context_outside houtside] at hcontext
    have hnone := hclean.super _ _ _ hpart
    rw [State.superFault?, hcontext] at hnone
    cases hnone
  | superWithoutSuperclass h he hpart hcls hbase =>
    obtain ⟨st, hclean, -, hcontext⟩ := h.clean hform hnodup haccepted he
    rw [Place.context_of_cls hcls, hbase] at hcontext
    have hnone := hclean.super _ _ _ hpart
    rw [State.superFault?, hcontext] at hnone
    cases hnone
  | @superInStatic p s e id line method f h he hpart howner hstatic =>
    obtain ⟨st, hclean, hbody, -⟩ := h.clean hform hnodup haccepted he
    have hnone := hclean.super _ _ _ hpart
    have hinside : st.body = .static := by
      rw [hbody, Place.body, howner]
      simp [Body.ofMember, hstatic]
    rw [State.superFault?] at hnone
    split at hnone
    · cases hnone
    · cases hnone
    · simp [hinside] at hnone
  | @inheritsItself p c parent h hparent hname =>
    obtain ⟨st, hlocated, hpart⟩ := h.located table hform hnodup
    rw [Stmt.ids, walkStmt] at hpart
    have hreports := List.suffix_nil.1 (haccepted ▸ hpart.cls.1.reports)
    obtain ⟨name, superclass, methods⟩ := c
    cases hparent
    have hread := (reports_read_eq_nil.1 hreports).1
    have hcheck := (reports_reportIf_eq_nil.1 hread).2
    simp [hname] at hcheck

/-! ## Programs without a breach are accepted -/

theorem isOpen_of_closed {st : State} (h : Closed st.scopes) (name : String) :
    st.isOpen name = false := by
  unfold State.isOpen
  cases hscopes : st.scopes with
  | nil => rfl
  | cons scope outer =>
    have hne := h scope (by rw [hscopes]; rfl) name
    simpa using hne

/-- In the initializer of a variable only the variable itself is open, and
only if it is local. -/
theorem eq_of_isOpen_declare {st : State} {x : Ident} {name : String}
    (hclosed : Closed st.scopes) (h : (st.declare x).isOpen name = true) :
    name = x.name ∧ st.scopes ≠ [] := by
  have hbefore := isOpen_of_closed hclosed name
  unfold State.isOpen at h hbefore
  unfold State.declare at h
  cases hscopes : st.scopes with
  | nil => simp [hscopes] at h
  | cons scope outer =>
    simp only [hscopes] at h hbefore
    by_cases hcontains : scope.contains x.name
    · simp only [hcontains, if_true, State.report, hscopes] at h
      rw [hbefore] at h
      cases h
    · simp only [hcontains, Bool.false_eq_true, if_false] at h
      refine ⟨?_, by simp⟩
      by_contra hne
      rw [Table.find?_insert_of_ne _ _ hne, hbefore] at h
      cases h

/-- Without a breach an expression is clean wherever no name is open. -/
theorem clean_of_no_breach (hno : ¬ Breach program) {e : Expr} {st : State}
    (h : Stands program p s) (he : Evaluates s e) (hbody : st.body = p.body)
    (hcontext : st.context = p.context)
    (hread : ∀ ref, .variable ref ∈ e.parts → st.isOpen ref.name = false) :
    Clean e st where
  read := hread
  this := by
    intro id line hpart houtside
    rw [hcontext] at houtside
    refine hno (.thisOutside h he hpart ?_)
    cases hcls : p.cls with
    | none => rfl
    | some c =>
      rw [Place.context_of_cls hcls] at houtside
      split at houtside <;> cases houtside
  super := by
    intro id line method hpart
    rw [State.superFault?, hcontext, hbody]
    cases hcls : p.cls with
    | none => exact absurd (.superOutside h he hpart hcls) hno
    | some c =>
      rw [Place.context_of_cls hcls]
      cases hparent : c.superclass with
      | none =>
        exact absurd (.superWithoutSuperclass h he hpart hcls hparent) hno
      | some parent =>
        simp only [Option.isSome_some, if_true]
        rw [if_neg]
        intro hstatic
        -- only a static method is walked as one
        unfold Place.body at hstatic
        split at hstatic
        · cases hstatic
        · cases hstatic
        · next f howner =>
          refine hno (.superInStatic h he hpart howner ?_)
          unfold Body.ofMember at hstatic
          split at hstatic
          · assumption
          · cases hstatic
          · split at hstatic <;> cases hstatic

/-- Statements are walked without a report if each of them is, in the state
behind those before it. -/
theorem reports_walkStmts_of {list : List Stmt} {entered : State}
    {scope : Table Bool} {outer : List (Table Bool)}
    (hform : Stmt.AllWellFormed list)
    (hscopes : entered.scopes = scope :: outer)
    (hnew : NewNames (scope :: outer) (list.filterMap Stmt.introduces))
    (hentered : entered.reports = [])
    (ih : ∀ before s after, list = before ++ s :: after →
      NewNames (walkStmts before entered).scopes s.declared →
      (walkStmts before entered).reports = [] →
      (walkStmt s (walkStmts before entered)).reports = []) :
    (walkStmts list entered).reports = [] := by
  rw [← hform.declared_eq] at hnew
  induction list generalizing entered scope with
  | nil => rw [walkStmts]; exact hentered
  | cons s rest ihrest =>
    rw [List.flatMap_cons, newNames_append] at hnew
    rw [Stmt.AllWellFormed] at hform
    have heffect := effect_walkStmt s entered
    have hafter := heffect.scopes
    rw [hscopes] at hafter
    have hs : (walkStmt s entered).reports = [] := by
      have hfirst := ih [] s rest rfl
      rw [walkStmts, hscopes] at hfirst
      exact hfirst hnew.1 hentered
    rw [walkStmts]
    refine ihrest hform.2 hafter hnew.2 hs ?_
    intro before s' after hlist hnames hreports
    have hlater := ih (s :: before) s' after (by rw [hlist]; rfl)
    rw [walkStmts] at hlater
    exact hlater hnames hreports

/-- A function is walked without a report if its names are different and its
statements are walked without one. -/
theorem reports_walkRoutine_of {f : FunctionDecl} {body : Body} {st : State}
    (hform : f.WellFormed)
    (hnodup : (f.params.map Ident.name ++
      f.body.filterMap Stmt.introduces).Nodup)
    (hst : st.reports = [])
    (ih : ∀ before s after, f.body = before ++ s :: after →
      NewNames (walkStmts before (st.inRoutine f.params body)).scopes
        s.declared →
      (walkStmts before (st.inRoutine f.params body)).reports = [] →
      (walkStmt s (walkStmts before
        (st.inRoutine f.params body))).reports = []) :
    (walkRoutine f body st).reports = [] := by
  obtain ⟨name, params, statements, kind⟩ := f
  rw [FunctionDecl.WellFormed] at hform
  rw [← newNames_empty st.scopes, newNames_append] at hnodup
  have hentered : (({ st with body := body } : State).enter []).scopes =
      .empty :: st.scopes := rfl
  have hparams : (st.inRoutine params body).reports = [] :=
    (reports_parameters_eq_nil hentered).2 ⟨hst, hnodup.1⟩
  rw [walkRoutine]
  exact reports_walkStmts_of hform.2 (scopes_inRoutine st params body) hnodup.2
    hparams ih

theorem reports_walkMembers_of {list : List FunctionDecl} {st : State}
    (hst : st.reports = [])
    (ih : ∀ earlier f later, list = earlier ++ f :: later →
      (walkMembers earlier st).reports = [] →
      (walkRoutine f (.ofMember f) (walkMembers earlier st)).reports = []) :
    (walkMembers list st).reports = [] := by
  induction list generalizing st with
  | nil => rw [walkMembers]; exact hst
  | cons f rest ihrest =>
    have hf := ih [] f rest rfl
    rw [walkMembers] at hf
    rw [walkMembers]
    refine ihrest (hf hst) ?_
    intro earlier g later hlist hreports
    have hlater := ih (f :: earlier) g later (by rw [hlist]; rfl)
    rw [walkMembers] at hlater
    exact hlater hreports

/-- Without a breach a statement is walked without a report, if what it
declares is new. -/
def Silent (program : List Stmt) (s : Stmt) : Prop :=
  ∀ p st, Stands program p s → Located p s st →
    NewNames st.scopes s.declared → st.reports = [] →
    (walkStmt s st).reports = []

theorem silent_var (hno : ¬ Breach program) (x : Ident)
    (initializer : Option Expr) : Silent program (.var x initializer) := by
  intro p st hstands hlocated hnew hst
  have hdeclare : (st.declare x).reports = [] :=
    reports_declare_eq_nil.2 ⟨hst, newNames_singleton.1 hnew⟩
  rw [walkStmt, reports_define]
  cases initializer with
  | none => exact hdeclare
  | some e =>
    obtain ⟨hbody, hcontext, -⟩ := declare_fields st x
    refine (reports_walkExpr_eq_nil e _).2 ⟨hdeclare, ?_⟩
    refine clean_of_no_breach hno hstands .initializer
      (hbody.trans hlocated.body) (hcontext.trans hlocated.context) ?_
    intro ref hpart
    cases hopen : (st.declare x).isOpen ref.name with
    | false => rfl
    | true =>
      obtain ⟨hname, hscopes⟩ := eq_of_isOpen_declare hlocated.closed hopen
      refine absurd (.ownInitializer hstands ?_ hpart hname) hno
      intro hnil
      have hmirrors := hlocated.scopes
      rw [hnil, Stmt.declared] at hmirrors
      have hempty := List.forall₂_nil_left_iff.1 hmirrors
      cases hst : st.scopes with
      | nil => exact hscopes hst
      | cons scope outer =>
        rw [hst] at hempty
        cases hempty

theorem silent_return (hno : ¬ Breach program) (line : Nat)
    (value : Option Expr) : Silent program (.return line value) := by
  intro p st hstands hlocated _ hst
  have hbody := hlocated.body
  have hcheck : (st.checkReturn line value.isSome).reports = [] := by
    refine reports_reportIf_eq_nil.2 ⟨reports_reportIf_eq_nil.2 ⟨hst, ?_⟩, ?_⟩
    · -- only outside every function the walk is in the program itself
      rw [decide_eq_false_iff_not]
      intro hprogram
      rw [hprogram, Place.body] at hbody
      split at hbody
      · next howner => exact hno (.returnOutside hstands howner)
      · cases hbody
      · next f _ =>
        unfold Body.ofMember at hbody
        repeat' split at hbody
        all_goals cases hbody
    · rw [Bool.and_eq_false_iff]
      cases value with
      | none => exact .inl rfl
      | some e =>
        refine .inr (decide_eq_false_iff_not.2 fun hinitializer => ?_)
        rw [hinitializer, Place.body] at hbody
        split at hbody
        · cases hbody
        · cases hbody
        · next f howner =>
          unfold Body.ofMember at hbody
          split at hbody
          · cases hbody
          · cases hbody
          · split at hbody
            · next hf =>
              simp only [FunctionDecl.isInitializer, Bool.and_eq_true,
                beq_iff_eq] at hf
              exact hno (.returnFromInitializer hstands howner hf.1 hf.2)
            · cases hbody
  rw [walkStmt]
  cases value with
  | none => exact hcheck
  | some e =>
    have heffect := st.effect_checkReturn line (some e).isSome
    refine (reports_walkExpr_eq_nil e _).2 ⟨hcheck, ?_⟩
    refine clean_of_no_breach hno hstands .result
      (heffect.body.trans hlocated.body)
      (heffect.context.trans hlocated.context) fun ref _ => ?_
    refine isOpen_of_closed ?_ _
    rw [heffect.scopes_eq]
    exact hlocated.closed

/-- A condition is walked without a report. -/
theorem reports_condition (hno : ¬ Breach program) {e : Expr} {st : State}
    (hstands : Stands program p s) (hlocated : Located p s st)
    (he : Evaluates s e) (hst : st.reports = []) :
    (walkExpr e st).reports = [] := by
  refine (reports_walkExpr_eq_nil e st).2 ⟨hst, ?_⟩
  exact clean_of_no_breach hno hstands he hlocated.body hlocated.context
    fun ref _ => isOpen_of_closed hlocated.closed _

/-- What is no declaration needs no new name. -/
theorem newNames_nil {scopes : List (Table Bool)} : NewNames scopes [] :=
  ⟨List.nodup_nil, by simp⟩

/-- Behind the name of a class and its superclass nothing has been
reported. -/
theorem reports_named (hno : ¬ Breach program) {c : ClassDecl} {st : State}
    (hstands : Stands program p (.class c)) (hlocated : Located p (.class c) st)
    (hfree : Free st.scopes c.name.name) (hst : st.reports = []) :
    (st.named c).reports = [] := by
  obtain ⟨name, superclass, methods⟩ := c
  cases superclass with
  | none => exact reports_declare_define_eq_nil.2 ⟨hst, hfree⟩
  | some parent =>
    refine reports_read_eq_nil.2 ⟨reports_reportIf_eq_nil.2
      ⟨reports_declare_define_eq_nil.2 ⟨hst, hfree⟩, ?_⟩, ?_⟩
    · rw [beq_eq_false_iff_ne]
      exact fun hname => hno (.inheritsItself hstands rfl hname)
    · refine isOpen_of_closed ?_ _
      rw [(State.effect_reportIf _ _ _ _ _).scopes_eq,
        (State.effect_declare_define _ name).scopes]
      exact hlocated.closed.addNames _

theorem silent_class (hno : ¬ Breach program) {c : ClassDecl}
    (ih : ∀ f ∈ c.methods, ∀ s ∈ f.body, Silent program s) :
    Silent program (.class c) := by
  intro p st hstands hlocated hnew hst
  have hnamed := reports_named hno hstands hlocated
    (newNames_singleton.1 hnew) hst
  have hclass : (st.inClass c).reports = [] := by
    obtain ⟨name, superclass, methods⟩ := c
    cases superclass <;> exact hnamed
  have hmembers : (walkMembers c.methods (st.inClass c)).reports = [] := by
    refine reports_walkMembers_of hclass ?_
    intro earlier f later hmethods hreports
    have hf : f ∈ c.methods := by simp [hmethods]
    have hform := hlocated.form
    have hwell : f.WellFormed := by
      obtain ⟨name, superclass, methods⟩ := c
      rw [Stmt.WellFormed, ClassDecl.WellFormed] at hform
      exact hform.2.of_mem hf
    refine reports_walkRoutine_of hwell ?_ hreports ?_
    · by_contra htwice
      exact hno (.twiceInMember hstands hf htwice)
    · intro before s after hbody hnames hreports'
      exact ih f hf s (by simp [hbody]) _ _ (hstands.member hf hbody)
        (hlocated.member hmethods hbody) hnames hreports'
  rw [walkStmt]
  obtain ⟨name, superclass, methods⟩ := c
  cases superclass <;> exact hmembers

theorem silent (hno : ¬ Breach program) (s : Stmt) : Silent program s := by
  induction s with
  | expression e =>
    intro p st hstands hlocated _ hst
    rw [walkStmt]
    exact reports_condition hno hstands hlocated .expression hst
  | print e =>
    intro p st hstands hlocated _ hst
    rw [walkStmt]
    exact reports_condition hno hstands hlocated .print hst
  | var x initializer => exact silent_var hno x initializer
  | block body ih =>
    intro p st hstands hlocated _ hst
    have hform := hlocated.form
    rw [Stmt.WellFormed] at hform
    rw [walkStmt]
    have hentered : (st.enter []).scopes = .empty :: st.scopes := rfl
    refine reports_walkStmts_of hform hentered ?_ hst ?_
    · refine (newNames_empty _).2 ?_
      by_contra htwice
      exact hno (.twiceInBlock hstands htwice)
    · rintro before s after rfl hnames hreports
      exact ih s (by simp) _ _ hstands.block hlocated.block hnames hreports
  | ifElse condition thenBranch elseBranch ihthen ihelse =>
    intro p st hstands hlocated _ hst
    have hcondition := reports_condition hno hstands hlocated .choice hst
    have hthen : (walkStmt thenBranch (walkExpr condition st)).reports = [] := by
      refine ihthen p _ hstands.thenBranch hlocated.thenBranch ?_ hcondition
      have hform := hlocated.form
      cases elseBranch with
      | none => rw [Stmt.WellFormed] at hform; rw [hform.2.1]; exact newNames_nil
      | some => rw [Stmt.WellFormed] at hform; rw [hform.2.1.1]; exact newNames_nil
    cases elseBranch with
    | none => rw [walkStmt]; exact hthen
    | some elseBranch =>
      have hform := hlocated.form
      rw [Stmt.WellFormed] at hform
      rw [walkStmt]
      refine ihelse elseBranch rfl p _ hstands.elseBranch hlocated.elseBranch ?_
        hthen
      rw [hform.2.2.1]
      exact newNames_nil
  | loop condition body ih =>
    intro p st hstands hlocated _ hst
    have hform := hlocated.form
    rw [Stmt.WellFormed] at hform
    rw [walkStmt]
    refine ih p _ hstands.loop hlocated.loop ?_
      (reports_condition hno hstands hlocated .loop hst)
    rw [hform.2.1]
    exact newNames_nil
  | function f ih =>
    intro p st hstands hlocated hnew hst
    have hform := hlocated.form
    rw [Stmt.WellFormed] at hform
    have hnamed := reports_declare_define_eq_nil.2
      ⟨hst, newNames_singleton.1 hnew⟩
    rw [walkStmt]
    refine reports_walkRoutine_of hform.2.2 ?_ hnamed ?_
    · by_contra htwice
      exact hno (.twiceInFunction hstands htwice)
    · intro before s after hbody hnames hreports
      exact ih s (by simp [hbody]) _ _ (hstands.function hbody)
        (hlocated.function hbody) hnames hreports
  | giveBack line value => exact silent_return hno line value
  | cls c ih => exact silent_class hno ih

/-- At the top level there is no scope, so every name is new there. -/
theorem reports_program (hno : ¬ Breach program)
    (hform : Stmt.AllWellFormed program) (table : Distances) :
    (finalState program table).reports = [] := by
  have hrest : ∀ after before, program = before ++ after →
      (walkStmts before (.start table)).reports = [] →
      (walkStmts program (.start table)).reports = [] := by
    intro after
    induction after with
    | nil =>
      intro before hprogram hbefore
      rw [hprogram, List.append_nil]
      exact hbefore
    | cons s after ih =>
      intro before hprogram hbefore
      have hscopes : (walkStmts before (.start table)).scopes = [] :=
        (effect_walkStmts before (.start table)).scopes
      have hlocated : Located .top s (walkStmts before (.start table)) :=
        .top (hprogram ▸ hform) table
      have hnew : NewNames (walkStmts before (.start table)).scopes
          s.declared := by
        rw [hscopes, hlocated.form.declared_eq]
        refine ⟨?_, fun x _ => by simp [Free]⟩
        cases s.introduces <;> simp
      refine ih (before ++ [s]) (by simp [hprogram]) ?_
      rw [walkStmts_append, walkStmts, walkStmts]
      exact silent hno s .top _ (.top hprogram) hlocated hnew hbefore
  exact hrest program [] rfl (by rw [walkStmts]; rfl)

end

/-! ## The rules -/

/-- Whatever is read from a source, with faults or without, is accepted by
the scope rules exactly if it breaks none of them. -/
theorem accepted_iff_no_breach (source : String) (firstId : Nat)
    (table : Distances) :
    let program := (Stmt.parse (Token.scan source) firstId).statements
    (resolve program table).diagnostics = [] ↔ ¬ Breach program := by
  intro program
  have hnamed := Token.named_scan source
  have hform := Stmt.wellFormed_parse hnamed firstId
  have hnodup := (Stmt.fresh_parse (Token.scan source) firstId).nodup
  rw [resolve_eq, List.reverse_eq_nil_iff]
  exact ⟨fun h => no_breach_of_accepted hform hnodup h,
    fun hno => reports_program hno hform table⟩

end Lox.Scope
