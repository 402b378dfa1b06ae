import Lox.Proofs.Ids
import Lox.Proofs.Scope.Walk

/-!
# What a walk changes

The walk over a statement is local.  It adds the name that the statement
declares to the innermost scope and gives back all else of the scopes as they
were, as well as the body and the class context it came from; reports are
only added; and distances are recorded for the ids of the statement only.
`State.Effect` says so, and `effect_walkStmts` proves it of every program.

At the top level, where there is no scope, it follows that an accepted
program leaves no trace in the state but its distances
(`walkStmts_of_accepted`), so that programs can be resolved one after the
other.
-/

namespace Lox

/-- A later value of a name makes an earlier one forgotten. -/
theorem Table.insert_insert {α : Type} (t : Table α) (name : String)
    (old value : α) :
    (t.insert name old).insert name value = t.insert name value := by
  obtain ⟨entries⟩ := t
  simp only [Table.insert, Table.mk.injEq]
  induction entries with
  | nil => simp [Table.insertEntry]
  | cons entry rest ih =>
    obtain ⟨key, first⟩ := entry
    by_cases h : key = name
    · simp [Table.insertEntry, h]
    · simp [Table.insertEntry, h, ih]

/-- The names that a statement declares in the scope it stands in. -/
def Stmt.declared : Stmt → List String
  | .expression _ => []
  | .print _ => []
  | .var x _ => [x.name]
  | .block _ => []
  | .ifElse _ thenBranch none => thenBranch.declared
  | .ifElse _ thenBranch (some elseBranch) =>
    thenBranch.declared ++ elseBranch.declared
  | .while _ body => body.declared
  | .function f => [f.name.name]
  | .return _ _ => []
  | .class c => [c.name.name]

namespace Scope

/-! ## Names added to the innermost scope -/

/-- The scopes with names completely declared in the innermost one. -/
def addNames (names : List String) : List (Table Bool) → List (Table Bool)
  | [] => []
  | scope :: outer =>
    names.foldl (fun scope name => scope.insert name true) scope :: outer

@[simp] theorem addNames_nil (scopes : List (Table Bool)) :
    addNames [] scopes = scopes := by
  cases scopes <;> rfl

theorem addNames_append (names names' : List String)
    (scopes : List (Table Bool)) :
    addNames (names ++ names') scopes = addNames names' (addNames names scopes) := by
  cases scopes with
  | nil => rfl
  | cons scope outer => simp only [addNames, List.foldl_append]

@[simp] theorem tail_addNames (names : List String) (scopes : List (Table Bool)) :
    (addNames names scopes).tail = scopes.tail := by
  cases scopes <;> rfl

namespace State

/-- The second state is the first one after something that declares `names`
and has the ids `ids`. -/
structure Effect (names : List String) (ids : List Nat) (st st' : State) :
    Prop where
  scopes : st'.scopes = addNames names st.scopes
  body : st'.body = st.body
  context : st'.context = st.context
  reports : st.reports <:+ st'.reports
  distances : ∀ id, id ∉ ids → st'.distances.find? id = st.distances.find? id

namespace Effect

variable {names names' : List String} {ids ids' : List Nat} {a b c : State}

theorem refl (st : State) : Effect [] [] st st :=
  ⟨(addNames_nil _).symm, rfl, rfl, List.suffix_refl _, fun _ _ => rfl⟩

theorem trans (h : Effect names ids a b) (h' : Effect names' ids' b c) :
    Effect (names ++ names') (ids ++ ids') a c where
  scopes := by rw [addNames_append, ← h.scopes, h'.scopes]
  body := by rw [h'.body, h.body]
  context := by rw [h'.context, h.context]
  reports := h.reports.trans h'.reports
  distances := by
    intro id hid
    rw [List.mem_append, not_or] at hid
    rw [h'.distances id hid.2, h.distances id hid.1]

/-- What declares nothing keeps the scopes. -/
theorem scopes_eq (h : Effect [] ids a b) : b.scopes = a.scopes := by
  rw [h.scopes, addNames_nil]

end Effect

/-! ## Single changes -/

theorem effect_report (st : State) (line : Nat) (lexeme : String)
    (f : ScopeFault) : Effect [] [] st (st.report line lexeme f) :=
  ⟨(addNames_nil _).symm, rfl, rfl, List.suffix_cons _ _, fun _ _ => rfl⟩

theorem effect_reportIf (st : State) (condition : Bool) (line : Nat)
    (lexeme : String) (f : ScopeFault) :
    Effect [] [] st (st.reportIf condition line lexeme f) := by
  cases condition with
  | true => exact effect_report st line lexeme f
  | false => exact .refl st

theorem effect_bind (st : State) (id : Nat) (name : String) :
    Effect [] [id] st (st.bind id name) := by
  unfold bind
  split
  · refine ⟨(addNames_nil _).symm, rfl, rfl, List.suffix_refl _, ?_⟩
    intro other hother
    rw [List.mem_singleton] at hother
    exact Distances.find?_record_of_ne _ _ hother
  · exact ⟨(addNames_nil _).symm, rfl, rfl, List.suffix_refl _, fun _ _ => rfl⟩

theorem effect_read (st : State) (ref : Ref) :
    Effect [] [ref.id] st (st.read ref) :=
  (effect_reportIf st _ _ _ _).trans (effect_bind _ _ _)

theorem effect_readThis (st : State) (id line : Nat) :
    Effect [] [id] st (st.readThis id line) := by
  unfold readThis
  split
  · exact (effect_report st _ _ _).trans
      ⟨(addNames_nil _).symm, rfl, rfl, List.suffix_refl _, fun _ _ => rfl⟩
  · exact effect_bind st id _

theorem effect_readSuper (st : State) (id line : Nat) :
    Effect [] [id] st (st.readSuper id line) := by
  unfold readSuper
  split
  · exact (effect_report st _ _ _).trans (effect_bind _ id _)
  · exact effect_bind st id _

theorem effect_checkReturn (st : State) (line : Nat) (hasValue : Bool) :
    Effect [] [] st (st.checkReturn line hasValue) :=
  (effect_reportIf st _ _ _ _).trans (effect_reportIf _ _ _ _ _)

/-! ## Declarations -/

/-- What does not touch scopes may stand between the two halves of a
declaration. -/
theorem scopes_define_of_declare {st st' : State} {x : Ident}
    (h : st'.scopes = (st.declare x).scopes) :
    (st'.define x).scopes = addNames [x.name] st.scopes := by
  unfold declare at h
  unfold define
  rw [h]
  cases hscopes : st.scopes with
  | nil => simp only [hscopes] at h ⊢; exact h
  | cons scope outer =>
    simp only [addNames, List.foldl_cons, List.foldl_nil]
    by_cases hcontains : scope.contains x.name
    · simp only [hcontains, if_true, report, hscopes]
    · simp only [hcontains, Bool.false_eq_true, if_false, Table.insert_insert]

/-- A declaration, with something between its two halves. -/
theorem effect_define_of_declare {st st' : State} {x : Ident} {ids : List Nat}
    (h : Effect [] ids (st.declare x) st') :
    Effect [x.name] ids st (st'.define x) := by
  have hdeclare : (st.declare x).body = st.body ∧
      (st.declare x).context = st.context ∧
      st.reports <:+ (st.declare x).reports ∧
      (st.declare x).distances = st.distances := by
    unfold declare
    split
    · exact ⟨rfl, rfl, List.suffix_refl _, rfl⟩
    · split
      · exact ⟨rfl, rfl, List.suffix_cons _ _, rfl⟩
      · exact ⟨rfl, rfl, List.suffix_refl _, rfl⟩
  have hdefine : (st'.define x).body = st'.body ∧
      (st'.define x).context = st'.context ∧
      (st'.define x).reports = st'.reports ∧
      (st'.define x).distances = st'.distances := by
    unfold define
    split <;> exact ⟨rfl, rfl, rfl, rfl⟩
  obtain ⟨hbody, hcontext, hreports, hdistances⟩ := hdeclare
  obtain ⟨hbody', hcontext', hreports', hdistances'⟩ := hdefine
  refine ⟨scopes_define_of_declare h.scopes_eq, ?_, ?_, ?_, ?_⟩
  · rw [hbody', h.body, hbody]
  · rw [hcontext', h.context, hcontext]
  · rw [hreports']
    exact hreports.trans h.reports
  · intro id hid
    rw [hdistances', h.distances id hid, hdistances]

theorem effect_declare_define (st : State) (x : Ident) :
    Effect [x.name] [] st ((st.declare x).define x) :=
  effect_define_of_declare (.refl _)

theorem effect_parameters (st : State) (params : List Ident) :
    Effect (params.map Ident.name) [] st (st.parameters params) := by
  induction params generalizing st with
  | nil => exact .refl st
  | cons x rest ih => exact (effect_declare_define st x).trans (ih _)

/-- What happens inside a scope that is opened before and closed after it is
not seen in the scopes. -/
theorem Effect.enclosed {st st' : State} {names inner : List String}
    {ids : List Nat} (h : Effect inner ids (st.enter names) st') :
    Effect [] ids st st'.leave where
  scopes := by
    show st'.scopes.tail = _
    rw [h.scopes, tail_addNames, addNames_nil]
    rfl
  body := h.body
  context := h.context
  reports := h.reports
  distances := h.distances

/-- The body of the walk is set for a while. -/
theorem Effect.withBody {st st' : State} {names : List String} {ids : List Nat}
    {body : Body} (h : Effect names ids { st with body := body } st') :
    Effect names ids st { st' with body := st.body } :=
  ⟨h.scopes, rfl, h.context, h.reports, h.distances⟩

/-- The class context of the walk is set for a while. -/
theorem Effect.withContext {st st' : State} {names : List String}
    {ids : List Nat} {context : ClassContext}
    (h : Effect names ids { st with context := context } st') :
    Effect names ids st { st' with context := st.context } :=
  ⟨h.scopes, h.body, rfl, h.reports, h.distances⟩

end State

/-! ## The walk -/

open State (Effect)

theorem effect_walkExprs {list : List Expr}
    (h : ∀ e ∈ list, ∀ st, Effect [] e.ids st (walkExpr e st)) (st : State) :
    Effect [] (Expr.idsAll list) st (walkExprs list st) := by
  induction list generalizing st with
  | nil => exact .refl st
  | cons e rest ih =>
    obtain ⟨he, hrest⟩ := List.forall_mem_cons.1 h
    rw [walkExprs, Expr.idsAll]
    exact (he st).trans (ih hrest _)

theorem effect_walkExpr (e : Expr) (st : State) :
    Effect [] e.ids st (walkExpr e st) := by
  induction e generalizing st with
  | literal => rw [walkExpr, Expr.ids]; exact .refl st
  | group _ ih | unary _ _ _ ih | get _ _ ih =>
    rw [walkExpr, Expr.ids]
    exact ih st
  | binary _ _ _ _ ihleft ihright | logical _ _ _ _ ihleft ihright =>
    rw [walkExpr, Expr.ids]
    exact (ihleft st).trans (ihright _)
  | occurrence ref => rw [walkExpr, Expr.ids]; exact st.effect_read ref
  | assign target value ih =>
    rw [walkExpr, Expr.ids]
    exact (ih st).trans (State.effect_bind _ _ _)
  | call callee line arguments ihcallee iharguments =>
    rw [walkExpr, Expr.ids]
    exact (ihcallee st).trans (effect_walkExprs iharguments _)
  | set object name value ihobject ihvalue =>
    rw [walkExpr, Expr.ids]
    have h := (ihvalue st).trans (ihobject _)
    refine ⟨h.scopes, h.body, h.context, h.reports, ?_⟩
    intro id hid
    exact h.distances id fun hmem => hid (by simpa [or_comm] using hmem)
  | this id line => rw [walkExpr, Expr.ids]; exact st.effect_readThis id line
  | super id line => rw [walkExpr, Expr.ids]; exact st.effect_readSuper id line

theorem effect_walkOption (e : Option Expr) (st : State) :
    Effect [] (Expr.idsOption e) st (walkOption e st) := by
  cases e with
  | none => exact .refl st
  | some e => exact effect_walkExpr e st

theorem effect_walkStmts_of {list : List Stmt}
    (h : ∀ s ∈ list, ∀ st, Effect s.declared s.ids st (walkStmt s st))
    (st : State) :
    Effect (list.flatMap Stmt.declared) (Stmt.idsAll list) st
      (walkStmts list st) := by
  induction list generalizing st with
  | nil => exact .refl st
  | cons s rest ih =>
    obtain ⟨hs, hrest⟩ := List.forall_mem_cons.1 h
    rw [walkStmts, Stmt.idsAll, List.flatMap_cons]
    exact (hs st).trans (ih hrest _)

theorem effect_walkRoutine_of {f : FunctionDecl}
    (h : ∀ s ∈ f.body, ∀ st, Effect s.declared s.ids st (walkStmt s st))
    (body : Body) (st : State) : Effect [] f.ids st (walkRoutine f body st) := by
  obtain ⟨name, params, statements, kind⟩ := f
  rw [walkRoutine, FunctionDecl.ids]
  have hparams := State.effect_parameters
    (({ st with body := body } : State).enter []) params
  exact (hparams.trans (effect_walkStmts_of h _)).enclosed.withBody

theorem effect_walkMembers_of {list : List FunctionDecl}
    (h : ∀ f ∈ list, ∀ s ∈ f.body, ∀ st,
      Effect s.declared s.ids st (walkStmt s st)) (st : State) :
    Effect [] (FunctionDecl.idsAll list) st (walkMembers list st) := by
  induction list generalizing st with
  | nil => exact .refl st
  | cons f rest ih =>
    obtain ⟨hf, hrest⟩ := List.forall_mem_cons.1 h
    rw [walkMembers, FunctionDecl.idsAll]
    exact (effect_walkRoutine_of hf _ st).trans (ih hrest _)

theorem effect_walkClass_of {c : ClassDecl}
    (h : ∀ f ∈ c.methods, ∀ s ∈ f.body, ∀ st,
      Effect s.declared s.ids st (walkStmt s st)) (st : State) :
    Effect [c.name.name] c.ids st (walkClass c st) := by
  obtain ⟨name, superclass, methods⟩ := c
  cases superclass with
  | none =>
    rw [walkClass, ClassDecl.ids]
    have hname := State.effect_declare_define { st with context := .base } name
    exact (hname.trans (effect_walkMembers_of h _).enclosed).withContext
  | some parent =>
    rw [walkClass, ClassDecl.ids]
    let named := (({ st with context := .derived } : State).declare name).define
      name
    let inner := (named.reportIf (parent.name == name.name) parent.line
      parent.name .inheritsItself).read parent
    have hname : Effect [name.name] [] { st with context := .derived } named :=
      State.effect_declare_define _ name
    have hread : Effect [] [parent.id] named inner :=
      (named.effect_reportIf _ _ _ _).trans (State.effect_read _ parent)
    have hmembers := (effect_walkMembers_of h ((inner.enter
      [Keyword.kwSuper.lexeme]).enter [Keyword.kwThis.lexeme])).enclosed.enclosed
    exact (hname.trans (hread.trans hmembers)).withContext

theorem effect_walkStmt (s : Stmt) (st : State) :
    Effect s.declared s.ids st (walkStmt s st) := by
  induction s generalizing st with
  | expression e | print e =>
    rw [walkStmt, Stmt.ids]
    exact effect_walkExpr e st
  | var x initializer =>
    rw [walkStmt, Stmt.ids]
    exact State.effect_define_of_declare (effect_walkOption initializer _)
  | block body ih =>
    rw [walkStmt, Stmt.ids]
    exact (effect_walkStmts_of ih _).enclosed
  | ifElse condition thenBranch elseBranch ihthen ihelse =>
    cases elseBranch with
    | none =>
      rw [walkStmt, Stmt.ids, Stmt.declared]
      exact (effect_walkExpr condition st).trans (ihthen _)
    | some elseBranch =>
      rw [walkStmt, Stmt.ids, Stmt.declared]
      exact (effect_walkExpr condition st).trans
        ((ihthen _).trans (ihelse elseBranch rfl _))
  | loop condition body ih =>
    rw [walkStmt, Stmt.ids, Stmt.declared]
    exact (effect_walkExpr condition st).trans (ih _)
  | function f ih =>
    rw [walkStmt, Stmt.ids]
    exact (State.effect_declare_define st f.name).trans
      (effect_walkRoutine_of ih _ _)
  | giveBack line value =>
    rw [walkStmt, Stmt.ids]
    exact (st.effect_checkReturn line _).trans (effect_walkOption value _)
  | cls c ih =>
    rw [walkStmt, Stmt.ids]
    exact effect_walkClass_of ih st

theorem effect_walkStmts (list : List Stmt) (st : State) :
    Effect (list.flatMap Stmt.declared) (Stmt.idsAll list) st
      (walkStmts list st) :=
  effect_walkStmts_of (fun s _ => effect_walkStmt s) st

/-! ## Accepted programs -/

theorem State.Effect.reports_eq_nil {names : List String} {ids : List Nat}
    {a b : State} (h : Effect names ids a b) (hb : b.reports = []) :
    a.reports = [] :=
  List.suffix_nil.1 (hb ▸ h.reports)

/-- A program without reports leaves nothing behind but its distances. -/
theorem walkStmts_of_accepted {program : List Stmt} {distances : Distances}
    (h : (walkStmts program (.start distances)).reports = []) :
    walkStmts program (.start distances) =
      .start (walkStmts program (.start distances)).distances := by
  have heffect := effect_walkStmts program (.start distances)
  have hscopes := heffect.scopes
  have hbody := heffect.body
  have hcontext := heffect.context
  generalize walkStmts program (.start distances) = st at *
  obtain ⟨scopes, body, context, distances', reports⟩ := st
  simp only [State.start, addNames] at hscopes hbody hcontext h
  rw [State.start, hscopes, hbody, hcontext, h]

/-- The distances of a program are recorded for its own ids. -/
theorem find?_resolve {program : List Stmt} {distances : Distances} {id : Nat}
    (h : id ∉ Stmt.idsAll program) :
    (resolve program distances).distances.find? id = distances.find? id := by
  rw [resolve_eq]
  exact (effect_walkStmts program (.start distances)).distances id h

/-- Behind an accepted program another one is resolved as if alone. -/
theorem resolve_append {first second : List Stmt} {distances : Distances}
    (h : (resolve first distances).diagnostics = []) :
    resolve (first ++ second) distances =
      resolve second (resolve first distances).distances := by
  rw [resolve_eq] at h ⊢
  have hreports := List.reverse_eq_nil_iff.1 h
  rw [walkStmts_append, walkStmts_of_accepted hreports, resolve_eq, resolve_eq]

end Scope

end Lox
