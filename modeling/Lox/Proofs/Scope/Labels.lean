import Lox.Proofs.Scope.Effect

/-!
# Scopes do not depend on labels

If the labels of a program are changed, the walk opens the same scopes, gives
the changed ids the same distances, and makes the same reports on the changed
lines (`Alike.walkStmts`).  The two walks need not start with the same table of
distances, nor even with ones that are alike in all ids; how the two tables
are related is up to the reader (`Tracks`).

In particular the changed program is accepted if and only if the program is
(`resolve_lines`, `resolve_relabel`).
-/

namespace Lox

/-- The diagnostic with other labels. -/
def Diagnostic.relabel (ρ : Labeling) : Diagnostic → Diagnostic
  | lexical line fault => lexical (ρ.line line) fault
  | parse line place fault => parse (ρ.line line) place fault
  | scope line place fault => scope (ρ.line line) place fault

/-- A diagnostic has no ids. -/
theorem Diagnostic.relabel_eq_self {ρ : Labeling}
    (h : ∀ line, ρ.line line = line) (d : Diagnostic) : d.relabel ρ = d := by
  cases d <;> simp only [relabel, h]

namespace Scope

theorem ofMember_relabel (ρ : Labeling) (g : FunctionDecl) :
    Body.ofMember (g.relabel ρ) = .ofMember g := by
  cases g
  rw [FunctionDecl.relabel]
  rfl

/-- The relation goes on if an id in one table and the changed id in the other
get the same distance. -/
def Tracks (ρ : Labeling) (R : Distances → Distances → Prop) : Prop :=
  ∀ d d' id distance, R d d' →
    R (d.record id distance) (d'.record (ρ.id id) distance)

/-- The states of two walks, the second over the changed program. -/
structure Alike (ρ : Labeling) (R : Distances → Distances → Prop)
    (st st' : State) : Prop where
  scopes : st'.scopes = st.scopes
  body : st'.body = st.body
  context : st'.context = st.context
  distances : R st.distances st'.distances
  reports : st'.reports = st.reports.map (Diagnostic.relabel ρ)

namespace Alike

variable {ρ : Labeling} {R : Distances → Distances → Prop} {st st' : State}

/-! ## Single changes -/

theorem report (h : Alike ρ R st st') (line : Nat) (lexeme : String)
    (f : ScopeFault) :
    Alike ρ R (st.report line lexeme f) (st'.report (ρ.line line) lexeme f) := by
  refine { h with reports := ?_ }
  show Diagnostic.scope _ _ f :: st'.reports = _
  rw [h.reports]
  rfl

theorem reportIf (h : Alike ρ R st st') (condition : Bool) (line : Nat)
    (lexeme : String) (f : ScopeFault) :
    Alike ρ R (st.reportIf condition line lexeme f)
      (st'.reportIf condition (ρ.line line) lexeme f) := by
  cases condition with
  | false => exact h
  | true => exact h.report line lexeme f

theorem enter (h : Alike ρ R st st') (names : List String) :
    Alike ρ R (st.enter names) (st'.enter names) :=
  { h with scopes := by simp only [State.enter, h.scopes] }

theorem leave (h : Alike ρ R st st') : Alike ρ R st.leave st'.leave :=
  { h with scopes := by simp only [State.leave, h.scopes] }

theorem withScopes (h : Alike ρ R st st') (scopes : List (Table Bool)) :
    Alike ρ R { st with scopes := scopes } { st' with scopes := scopes } :=
  { h with scopes := rfl }

theorem withBody (h : Alike ρ R st st') (body : Body) :
    Alike ρ R { st with body := body } { st' with body := body } :=
  { h with body := rfl }

theorem withContext (h : Alike ρ R st st') (context : ClassContext) :
    Alike ρ R { st with context := context } { st' with context := context } :=
  { h with context := rfl }

theorem declare (h : Alike ρ R st st') (x : Ident) :
    Alike ρ R (st.declare x) (st'.declare (x.relabel ρ)) := by
  simp only [State.declare, h.scopes]
  cases st.scopes with
  | nil => exact h
  | cons scope outer =>
    show Alike ρ R (if scope.contains x.name then _ else _)
      (if scope.contains x.name then _ else _)
    by_cases hmem : scope.contains x.name
    · rw [if_pos hmem, if_pos hmem]
      exact h.report x.line x.name .duplicate
    · rw [if_neg hmem, if_neg hmem]
      exact h.withScopes _

theorem define (h : Alike ρ R st st') (x : Ident) :
    Alike ρ R (st.define x) (st'.define (x.relabel ρ)) := by
  simp only [State.define, h.scopes]
  cases st.scopes with
  | nil => exact h
  | cons scope outer => exact h.withScopes _

theorem parameters (h : Alike ρ R st st') (params : List Ident) :
    Alike ρ R (st.parameters params)
      (st'.parameters (params.map (Ident.relabel ρ))) := by
  induction params generalizing st st' with
  | nil => exact h
  | cons x rest ih => exact ih ((h.declare x).define x)

theorem bind (hR : Tracks ρ R) (h : Alike ρ R st st') (id : Nat)
    (name : String) : Alike ρ R (st.bind id name) (st'.bind (ρ.id id) name) := by
  have hdistance : st'.distance? name = st.distance? name := by
    rw [State.distance?, h.scopes, State.distance?]
  simp only [State.bind, hdistance]
  cases st.distance? name with
  | none => exact h
  | some distance =>
    exact { h with distances := hR _ _ id distance h.distances }

theorem read (hR : Tracks ρ R) (h : Alike ρ R st st') (ref : Ref) :
    Alike ρ R (st.read ref) (st'.read (ref.relabel ρ)) := by
  have hopen : st'.isOpen ref.name = st.isOpen ref.name := by
    rw [State.isOpen, h.scopes, State.isOpen]
  simp only [State.read, Ref.name_relabel, Ref.line_relabel, Ref.id_relabel,
    hopen]
  exact (h.reportIf _ ref.line ref.name .ownInitializer).bind hR ref.id ref.name

theorem readThis (hR : Tracks ρ R) (h : Alike ρ R st st') (id line : Nat) :
    Alike ρ R (st.readThis id line) (st'.readThis (ρ.id id) (ρ.line line)) := by
  simp only [State.readThis, h.context]
  by_cases hcontext : st.context = .outside
  · rw [if_pos hcontext, if_pos hcontext]
    exact h.report line _ .thisOutside
  · rw [if_neg hcontext, if_neg hcontext]
    exact h.bind hR id _

theorem readSuper (hR : Tracks ρ R) (h : Alike ρ R st st') (id line : Nat) :
    Alike ρ R (st.readSuper id line) (st'.readSuper (ρ.id id) (ρ.line line)) := by
  have hfault : st'.superFault? = st.superFault? := by
    rw [State.superFault?, h.context, h.body, State.superFault?]
  simp only [State.readSuper, hfault]
  cases st.superFault? with
  | none => exact h.bind hR id _
  | some f => exact (h.report line _ f).bind hR id _

theorem checkReturn (h : Alike ρ R st st') (line : Nat) (hasValue : Bool) :
    Alike ρ R (st.checkReturn line hasValue)
      (st'.checkReturn (ρ.line line) hasValue) := by
  simp only [State.checkReturn, h.body]
  exact (h.reportIf _ line _ .returnOutside).reportIf _ line _
    .returnFromInitializer

/-! ## Expressions -/

theorem walkExprs_of {list : List Expr}
    (hwalk : ∀ e ∈ list, ∀ st st', Alike ρ R st st' →
      Alike ρ R (walkExpr e st) (walkExpr (e.relabel ρ) st'))
    (h : Alike ρ R st st') :
    Alike ρ R (walkExprs list st)
      (walkExprs (list.map (Expr.relabel ρ)) st') := by
  induction list generalizing st st' with
  | nil => exact h
  | cons e rest ih =>
    obtain ⟨he, hrest⟩ := List.forall_mem_cons.1 hwalk
    rw [List.map_cons, Scope.walkExprs, Scope.walkExprs]
    exact ih hrest (he _ _ h)

theorem walkExpr (hR : Tracks ρ R) (e : Expr) (h : Alike ρ R st st') :
    Alike ρ R (walkExpr e st) (walkExpr (e.relabel ρ) st') := by
  induction e generalizing st st' with
  | literal => simpa only [Expr.relabel, Scope.walkExpr] using h
  | group _ ih | unary _ _ _ ih | get _ _ ih =>
    simp only [Expr.relabel, Scope.walkExpr]
    exact ih h
  | binary _ _ _ _ ihleft ihright | logical _ _ _ _ ihleft ihright =>
    simp only [Expr.relabel, Scope.walkExpr]
    exact ihright (ihleft h)
  | set _ _ _ ihobject ihvalue =>
    simp only [Expr.relabel, Scope.walkExpr]
    exact ihobject (ihvalue h)
  | occurrence ref =>
    simp only [Expr.relabel, Scope.walkExpr]
    exact h.read hR ref
  | assign target value ih =>
    simp only [Expr.relabel, Scope.walkExpr]
    exact (ih h).bind hR target.id target.name
  | call callee line arguments ihcallee iharguments =>
    simp only [Expr.relabel, Scope.walkExpr, Expr.relabelAll_eq_map]
    exact walkExprs_of (fun e he _ _ h => iharguments e he h) (ihcallee h)
  | this id line =>
    simp only [Expr.relabel, Scope.walkExpr]
    exact h.readThis hR id line
  | super id line method =>
    simp only [Expr.relabel, Scope.walkExpr]
    exact h.readSuper hR id line

theorem walkOption (hR : Tracks ρ R) (e : Option Expr) (h : Alike ρ R st st') :
    Alike ρ R (walkOption e st) (walkOption (e.map (Expr.relabel ρ)) st') := by
  cases e with
  | none => exact h
  | some e => exact h.walkExpr hR e

/-! ## Statements -/

/-- The walks over a statement and the changed one keep states alike. -/
def Along (ρ : Labeling) (R : Distances → Distances → Prop) (s : Stmt) : Prop :=
  ∀ st st', Alike ρ R st st' →
    Alike ρ R (walkStmt s st) (walkStmt (s.relabel ρ) st')

theorem walkStmts_of {list : List Stmt} (hwalk : ∀ s ∈ list, Along ρ R s)
    (h : Alike ρ R st st') :
    Alike ρ R (walkStmts list st)
      (walkStmts (list.map (Stmt.relabel ρ)) st') := by
  induction list generalizing st st' with
  | nil => simpa only [List.map_nil, Scope.walkStmts] using h
  | cons s rest ih =>
    obtain ⟨hs, hrest⟩ := List.forall_mem_cons.1 hwalk
    rw [List.map_cons, Scope.walkStmts, Scope.walkStmts]
    exact ih hrest (hs _ _ h)

theorem walkRoutine_of {g : FunctionDecl} (hwalk : ∀ s ∈ g.body, Along ρ R s)
    (body : Body) (h : Alike ρ R st st') :
    Alike ρ R (walkRoutine g body st)
      (walkRoutine (g.relabel ρ) body st') := by
  obtain ⟨name, params, statements, kind⟩ := g
  simp only [FunctionDecl.relabel_eq, walkRoutine, h.body]
  have hinner := ((h.withBody body).enter []).parameters params
  exact (walkStmts_of hwalk hinner).leave.withBody st.body

theorem walkMembers_of {list : List FunctionDecl}
    (hwalk : ∀ g ∈ list, ∀ s ∈ g.body, Along ρ R s) (h : Alike ρ R st st') :
    Alike ρ R (walkMembers list st)
      (walkMembers (list.map (FunctionDecl.relabel ρ)) st') := by
  induction list generalizing st st' with
  | nil => simpa only [List.map_nil, walkMembers] using h
  | cons g rest ih =>
    obtain ⟨hg, hrest⟩ := List.forall_mem_cons.1 hwalk
    rw [List.map_cons, walkMembers, walkMembers, ofMember_relabel]
    exact ih hrest (walkRoutine_of hg _ h)

theorem walkClass_of (hR : Tracks ρ R) {c : ClassDecl}
    (hwalk : ∀ g ∈ c.methods, ∀ s ∈ g.body, Along ρ R s)
    (h : Alike ρ R st st') :
    Alike ρ R (walkClass c st) (walkClass (c.relabel ρ) st') := by
  obtain ⟨name, superclass, methods⟩ := c
  cases superclass with
  | none =>
    simp only [ClassDecl.relabel_eq, Option.map_none, walkClass, h.context]
    have hnamed := ((h.withContext .base).declare name).define name
    exact (walkMembers_of hwalk (hnamed.enter _)).leave.withContext st.context
  | some parent =>
    simp only [ClassDecl.relabel_eq, Option.map_some, walkClass, h.context,
      Ref.name_relabel, Ref.line_relabel, Ident.name_relabel]
    have hnamed := ((h.withContext .derived).declare name).define name
    have hparent := (hnamed.reportIf (parent.name == name.name) parent.line
      parent.name .inheritsItself).read hR parent
    exact (walkMembers_of hwalk ((hparent.enter _).enter _)).leave.leave
      |>.withContext st.context

theorem walkStmt (hR : Tracks ρ R) (s : Stmt) : Along ρ R s := by
  induction s with
  | expression e | print e =>
    intro st st' h
    simp only [Stmt.relabel, Scope.walkStmt]
    exact h.walkExpr hR e
  | var x initializer =>
    intro st st' h
    simp only [Stmt.relabel, Scope.walkStmt]
    exact ((h.declare x).walkOption hR initializer).define x
  | block body ih =>
    intro st st' h
    simp only [Stmt.relabel, Scope.walkStmt, Stmt.relabelAll_eq_map]
    exact (walkStmts_of ih (h.enter [])).leave
  | ifElse condition thenBranch elseBranch ihthen ihelse =>
    intro st st' h
    cases elseBranch with
    | none =>
      simp only [Stmt.relabel, Scope.walkStmt]
      exact ihthen _ _ (h.walkExpr hR condition)
    | some elseBranch =>
      simp only [Stmt.relabel, Scope.walkStmt]
      exact ihelse elseBranch rfl _ _
        (ihthen _ _ (h.walkExpr hR condition))
  | loop condition body ih =>
    intro st st' h
    simp only [Stmt.relabel, Scope.walkStmt]
    exact ih _ _ (h.walkExpr hR condition)
  | function g ih =>
    intro st st' h
    have hname : (g.relabel ρ).name = g.name.relabel ρ := by
      rw [FunctionDecl.relabel_eq]
    simp only [Stmt.relabel, Scope.walkStmt, hname]
    exact walkRoutine_of ih .function ((h.declare g.name).define g.name)
  | giveBack line value =>
    intro st st' h
    simp only [Stmt.relabel, Scope.walkStmt, Option.isSome_map]
    exact (h.checkReturn line value.isSome).walkOption hR value
  | cls c ih =>
    intro st st' h
    simp only [Stmt.relabel, Scope.walkStmt]
    exact walkClass_of hR ih h

theorem walkStmts (hR : Tracks ρ R) (list : List Stmt) (h : Alike ρ R st st') :
    Alike ρ R (walkStmts list st)
      (walkStmts (list.map (Stmt.relabel ρ)) st') :=
  walkStmts_of (fun s _ => walkStmt hR s) h

end Alike

/-! ## Programs -/

/-- Tables that are related before the walk over a program are related after
it, and the reports are the same on the changed lines. -/
theorem resolve_tracks {ρ : Labeling} {R : Distances → Distances → Prop}
    (hR : Tracks ρ R) (program : List Stmt) {distances distances' : Distances}
    (h : R distances distances') :
    R (resolve program distances).distances
        (resolve (program.map (Stmt.relabel ρ)) distances').distances ∧
      (resolve (program.map (Stmt.relabel ρ)) distances').diagnostics =
        (resolve program distances).diagnostics.map (Diagnostic.relabel ρ) := by
  have hstart : Alike ρ R (.start distances) (.start distances') :=
    ⟨rfl, rfl, rfl, h, rfl⟩
  have hwalk := hstart.walkStmts hR program
  rw [resolve_eq, resolve_eq]
  refine ⟨hwalk.distances, ?_⟩
  rw [hwalk.reports, List.map_reverse]

/-- A program on other lines has the same distances, and the same diagnostics
on other lines. -/
theorem resolve_lines (f : Nat → Nat) (program : List Stmt)
    (distances : Distances) :
    resolve (program.map (Stmt.relabel (.lines f))) distances =
      ⟨(resolve program distances).distances,
        (resolve program distances).diagnostics.map
          (Diagnostic.relabel (.lines f))⟩ := by
  have hsame : Tracks (.lines f) Eq := by
    intro d d' id distance h
    rw [h]
    rfl
  obtain ⟨hdistances, hdiagnostics⟩ :=
    resolve_tracks hsame program (Eq.refl distances)
  rw [hdistances, ← hdiagnostics]

/-- The second table holds under the changed id what the first holds under
the id. -/
def Carries (ρ : Labeling) (d d' : Distances) : Prop :=
  ∀ id, d'.find? (ρ.id id) = d.find? id

theorem tracks_carries {ρ : Labeling} (hρ : Function.Injective ρ.id) :
    Tracks ρ (Carries ρ) := by
  intro d d' id distance h other
  rw [Distances.find?_record, Distances.find?_record, h other]
  by_cases hid : other = id
  · rw [if_pos hid, if_pos (congrArg ρ.id hid)]
  · rw [if_neg hid, if_neg fun heq => hid (hρ heq)]

end Scope

end Lox
