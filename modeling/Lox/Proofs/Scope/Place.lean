import Lox.Proofs.Scope.Fitting
import Mathlib.Data.List.Forall2

/-!
# Places in a program

Where a statement stands in a program, without a walk: the scopes around it,
the function whose code it is in and the class it is in.  A scope is a block, a
function with its parameters, the `this` of a class or the `super` of a class
with a superclass.  What a scope holds at a place are its parameters or its
keyword, and what is declared by those statements directly in it that come
before the place or hold it.

`Stands` says which statements stand where and `Evaluates` which expressions
they evaluate.  The walk follows places: the state in which it comes to a
statement has the scopes of its place (`Located`), one lemma for each way down
the tree.  `Stands.located` reads it off for every statement of a program,
together with what the walk makes of the ids of the statement (`Part`).
-/

namespace Lox

/-- The name that a statement declares itself. -/
def Stmt.introduces : Stmt → Option String
  | .var x _ => some x.name
  | .function f => some f.name.name
  | .class c => some c.name.name
  | _ => none

/-- Only a declaration declares something in the scope it stands in. -/
theorem Stmt.WellFormed.declared_eq {s : Stmt} (h : s.WellFormed) :
    s.declared = s.introduces.toList := by
  cases s with
  | ifElse condition thenBranch elseBranch =>
    cases elseBranch with
    | none =>
      rw [Stmt.WellFormed] at h
      rw [Stmt.declared, h.2.1]
      rfl
    | some elseBranch =>
      rw [Stmt.WellFormed] at h
      rw [Stmt.declared, h.2.1.1, h.2.2.1]
      rfl
  | «while» condition body =>
    rw [Stmt.WellFormed] at h
    rw [Stmt.declared, h.2.1]
    rfl
  | _ => rfl

theorem Stmt.AllWellFormed.declared_eq {list : List Stmt}
    (h : Stmt.AllWellFormed list) :
    list.flatMap Stmt.declared = list.filterMap Stmt.introduces := by
  induction list with
  | nil => rfl
  | cons s rest ih =>
    rw [Stmt.AllWellFormed] at h
    rw [List.flatMap_cons, h.1.declared_eq, ih h.2]
    cases hname : s.introduces with
    | none => rw [List.filterMap_cons_none hname]; rfl
    | some x => rw [List.filterMap_cons_some hname]; rfl

theorem Stmt.AllWellFormed.left {list list' : List Stmt}
    (h : Stmt.AllWellFormed (list ++ list')) : Stmt.AllWellFormed list := by
  induction list with
  | nil => simp only [Stmt.AllWellFormed]
  | cons s rest ih =>
    rw [List.cons_append, Stmt.AllWellFormed] at h
    rw [Stmt.AllWellFormed]
    exact ⟨h.1, ih h.2⟩

theorem Stmt.AllWellFormed.of_mem {list : List Stmt} {s : Stmt}
    (h : Stmt.AllWellFormed list) (hs : s ∈ list) : s.WellFormed := by
  induction list with
  | nil => cases hs
  | cons first rest ih =>
    rw [Stmt.AllWellFormed] at h
    rcases List.mem_cons.1 hs with rfl | hs
    · exact h.1
    · exact ih h.2 hs

theorem FunctionDecl.AllWellFormed.of_mem {list : List FunctionDecl}
    {f : FunctionDecl} (h : FunctionDecl.AllWellFormed list) (hf : f ∈ list) :
    f.WellFormed := by
  induction list with
  | nil => cases hf
  | cons first rest ih =>
    rw [FunctionDecl.AllWellFormed] at h
    rcases List.mem_cons.1 hf with rfl | hf
    · exact h.1
    · exact ih h.2 hf

namespace Scope

/-! ## Scopes around a place -/

/-- A scope around a place.  Of the statements directly in the scope, those
up to and with the one that holds the place are the ones it has reached. -/
inductive Enclosure where
  | block (reached : List Stmt)
  | routine (params : List Ident) (reached : List Stmt)
  | this
  | super

/-- The names that a scope holds at a place. -/
def Enclosure.names : Enclosure → List String
  | block reached => reached.filterMap Stmt.introduces
  | routine params reached =>
    params.map Ident.name ++ reached.filterMap Stmt.introduces
  | this => [Keyword.kwThis.lexeme]
  | super => [Keyword.kwSuper.lexeme]

/-- The function whose code a place is in: one that is declared by a
statement, or a member of a class. -/
inductive Owner where
  | function (f : FunctionDecl)
  | member (f : FunctionDecl)

/-- The declaration of the function. -/
def Owner.declaration : Owner → FunctionDecl
  | function f => f
  | member f => f

/-- A place in a program. -/
structure Place where
  /-- The scopes around the place, innermost first. -/
  scopes : List Enclosure
  /-- The innermost function around the place. -/
  owner : Option Owner
  /-- The innermost class around the place. -/
  cls : Option ClassDecl

namespace Place

/-- The top level of a program. -/
def top : Place := ⟨[], none, none⟩

/-- A place in a block. -/
def inBlock (p : Place) (reached : List Stmt) : Place :=
  { p with scopes := .block reached :: p.scopes }

/-- A place in the body of a function. -/
def inRoutine (p : Place) (owner : Owner) (reached : List Stmt) : Place :=
  { p with
    scopes := .routine owner.declaration.params reached :: p.scopes
    owner := some owner }

/-- A place among the members of a class. -/
def inClass (p : Place) (c : ClassDecl) : Place :=
  { p with
    scopes := match c.superclass with
      | none => .this :: p.scopes
      | some _ => .this :: .super :: p.scopes
    cls := some c }

end Place

/-- The statement stands at the place in the program. -/
inductive Stands (program : List Stmt) : Place → Stmt → Prop where
  | top {before s after} (h : program = before ++ s :: after) :
      Stands program .top s
  | block {p before s after}
      (h : Stands program p (.block (before ++ s :: after))) :
      Stands program (p.inBlock (before ++ [s])) s
  | thenBranch {p condition s elseBranch}
      (h : Stands program p (.ifElse condition s elseBranch)) :
      Stands program p s
  | elseBranch {p condition thenBranch s}
      (h : Stands program p (.ifElse condition thenBranch (some s))) :
      Stands program p s
  | loop {p condition s} (h : Stands program p (.while condition s)) :
      Stands program p s
  | function {p f before s after} (h : Stands program p (.function f))
      (hbody : f.body = before ++ s :: after) :
      Stands program (p.inRoutine (.function f) (before ++ [s])) s
  | member {p c f before s after} (h : Stands program p (.class c))
      (hf : f ∈ c.methods) (hbody : f.body = before ++ s :: after) :
      Stands program ((p.inClass c).inRoutine (.member f) (before ++ [s])) s

/-- The statement evaluates the expression itself, in the scopes it stands
in. -/
inductive Evaluates : Stmt → Expr → Prop where
  | expression {e} : Evaluates (.expression e) e
  | print {e} : Evaluates (.print e) e
  | initializer {x e} : Evaluates (.var x (some e)) e
  | choice {e thenBranch elseBranch} :
      Evaluates (.ifElse e thenBranch elseBranch) e
  | loop {e body} : Evaluates (.while e body) e
  | result {line e} : Evaluates (.return line (some e)) e

/-! ## The state at a place -/

/-- Whose code the walk is in at a place. -/
def Place.body (p : Place) : Body :=
  match p.owner with
  | none => .program
  | some (.function _) => .function
  | some (.member f) => .ofMember f

/-- In what kind of class the walk is at a place. -/
def Place.context (p : Place) : ClassContext :=
  match p.cls with
  | none => .outside
  | some ⟨_, none, _⟩ => .base
  | some ⟨_, some _, _⟩ => .derived

/-- The scopes of a walk hold the same names as those around a place. -/
def Mirrors (scopes : List Enclosure) (walked : List (Table Bool)) : Prop :=
  List.Forall₂ (fun scope table =>
    ∀ x, table.contains x = true ↔ x ∈ scope.names) scopes walked

theorem contains_empty (x : String) : (Table.empty : Table Bool).contains x =
    false := rfl

/-- A scope that is opened and has got some names. -/
theorem Mirrors.inner {scopes : List Enclosure} {walked : List (Table Bool)}
    (h : Mirrors scopes walked) (scope : Enclosure) (names : List String)
    (hnames : ∀ x, x ∈ names ↔ x ∈ scope.names) :
    Mirrors (scope :: scopes) (addNames names (.empty :: walked)) := by
  refine .cons ?_ h
  intro x
  rw [contains_foldl_insert, contains_empty, Bool.or_false, decide_eq_true_iff]
  exact hnames x

/-- No declaration of the innermost scope is incomplete. -/
def Closed (scopes : List (Table Bool)) : Prop :=
  ∀ scope ∈ scopes.head?, ∀ x, scope.find? x ≠ some false

theorem closed_empty (scopes : List (Table Bool)) :
    Closed (.empty :: scopes) := by
  rintro scope hscope x
  cases hscope
  simp

theorem find?_foldl_insert_ne {names : List String} {scope : Table Bool}
    {x : String} (h : scope.find? x ≠ some false) :
    (names.foldl (fun scope name => scope.insert name true) scope).find? x ≠
      some false := by
  induction names generalizing scope with
  | nil => exact h
  | cons name rest ih =>
    rw [List.foldl_cons]
    apply ih
    rw [Table.find?_insert]
    split
    · simp
    · exact h

theorem Closed.addNames {scopes : List (Table Bool)} (h : Closed scopes)
    (names : List String) : Closed (addNames names scopes) := by
  cases scopes with
  | nil => exact h
  | cons scope outer =>
    rintro scope' hscope x
    cases hscope
    exact find?_foldl_insert_ne (h scope rfl x)

/-- The walk comes to the statement in a state that suits its place. -/
structure Located (p : Place) (s : Stmt) (st : State) : Prop where
  form : s.WellFormed
  scopes : Mirrors p.scopes (addNames s.declared st.scopes)
  closed : Closed st.scopes
  body : st.body = p.body
  context : st.context = p.context

/-! ## Ways down the tree -/

open State (Effect)

/-- The state in which the body of a function is walked. -/
def State.inRoutine (st : State) (params : List Ident) (body : Body) : State :=
  (({ st with body := body } : State).enter []).parameters params

/-- The state behind the name of a class and its superclass. -/
def State.named (st : State) : ClassDecl → State
  | ⟨name, none, _⟩ =>
    (({ st with context := .base } : State).declare name).define name
  | ⟨name, some parent, _⟩ =>
    (((({ st with context := .derived } : State).declare name).define
      name).reportIf (parent.name == name.name) parent.line parent.name
        .inheritsItself).read parent

/-- The state in which the members of a class are walked. -/
def State.inClass (st : State) (c : ClassDecl) : State :=
  match c.superclass with
  | none => (st.named c).enter [Keyword.kwThis.lexeme]
  | some _ => ((st.named c).enter [Keyword.kwSuper.lexeme]).enter
      [Keyword.kwThis.lexeme]

theorem scopes_inRoutine (st : State) (params : List Ident) (body : Body) :
    (st.inRoutine params body).scopes =
      addNames (params.map Ident.name) (.empty :: st.scopes) :=
  (State.effect_parameters _ params).scopes

theorem body_inRoutine (st : State) (params : List Ident) (body : Body) :
    (st.inRoutine params body).body = body :=
  (State.effect_parameters _ params).body

theorem context_inRoutine (st : State) (params : List Ident) (body : Body) :
    (st.inRoutine params body).context = st.context :=
  (State.effect_parameters _ params).context

/-- The ids of the superclass of a class. -/
def parentIds (c : ClassDecl) : List Nat :=
  c.superclass.toList.map Ref.id

theorem effect_named (st : State) (c : ClassDecl) (context : ClassContext)
    (hcontext : context = match c.superclass with
      | none => .base
      | some _ => .derived) :
    Effect [c.name.name] (parentIds c) { st with context := context }
      (st.named c) := by
  obtain ⟨name, superclass, methods⟩ := c
  subst hcontext
  cases superclass with
  | none => exact State.effect_declare_define _ name
  | some parent =>
    exact (State.effect_declare_define _ name).trans
      ((State.effect_reportIf _ _ _ _ _).trans (State.effect_read _ parent))

theorem context_inClass (st : State) (c : ClassDecl) (p : Place) :
    (st.inClass c).context = (p.inClass c).context := by
  have heffect := effect_named st c _ rfl
  obtain ⟨name, superclass, methods⟩ := c
  cases superclass <;> exact heffect.context

/-- The members of a class see its name and its keywords. -/
theorem mirrors_inClass {p : Place} {st : State} {c : ClassDecl}
    (h : Mirrors p.scopes (addNames [c.name.name] st.scopes)) :
    Mirrors (p.inClass c).scopes (st.inClass c).scopes := by
  have heffect := effect_named st c _ rfl
  have hnamed : Mirrors p.scopes (st.named c).scopes := by
    rw [heffect.scopes]
    exact h
  obtain ⟨name, superclass, methods⟩ := c
  cases superclass with
  | none =>
    exact hnamed.inner .this [Keyword.kwThis.lexeme] fun _ => Iff.rfl
  | some parent =>
    have hsuper := hnamed.inner .super [Keyword.kwSuper.lexeme] fun _ => Iff.rfl
    exact hsuper.inner .this [Keyword.kwThis.lexeme] fun _ => Iff.rfl

/-- The names that a list of statements declares before and with one of
them. -/
theorem declared_reached {before after : List Stmt} {s : Stmt}
    (hform : Stmt.AllWellFormed (before ++ s :: after)) :
    before.flatMap Stmt.declared ++ s.declared =
      (before ++ [s]).filterMap Stmt.introduces := by
  have hsplit : before ++ s :: after = (before ++ [s]) ++ after := by simp
  rw [hsplit] at hform
  rw [← hform.left.declared_eq, List.flatMap_append, List.flatMap_cons,
    List.flatMap_nil, List.append_nil]

namespace Located

variable {p : Place} {s : Stmt} {st : State} {before after : List Stmt}

theorem top (hform : Stmt.AllWellFormed (before ++ s :: after))
    (table : Distances) :
    Located .top s (walkStmts before (.start table)) := by
  have heffect := effect_walkStmts before (.start table)
  have hscopes : (walkStmts before (.start table)).scopes = [] := heffect.scopes
  refine ⟨hform.of_mem (by simp), ?_, ?_, heffect.body, heffect.context⟩
  · rw [hscopes]
    exact .nil
  · rw [hscopes]
    rintro scope hscope
    cases hscope

/-- What is walked inside a scope that holds some names already. -/
theorem inner (names : List String) {scope : Enclosure} {entered : State}
    {walked : List (Table Bool)} (hp : Mirrors p.scopes walked)
    (hform : Stmt.AllWellFormed (before ++ s :: after))
    (hentered : entered.scopes = addNames names (.empty :: walked))
    (hnames : scope.names =
      names ++ (before ++ [s]).filterMap Stmt.introduces)
    {q : Place} (hscopes : q.scopes = scope :: p.scopes)
    (hbody : entered.body = q.body) (hcontext : entered.context = q.context) :
    Located q s (walkStmts before entered) := by
  have heffect := effect_walkStmts before entered
  have hwalked : (walkStmts before entered).scopes = addNames
      (names ++ before.flatMap Stmt.declared) (.empty :: walked) := by
    rw [heffect.scopes, hentered, ← addNames_append]
  refine ⟨hform.of_mem (by simp), ?_, ?_, ?_, ?_⟩
  · rw [hwalked, ← addNames_append, List.append_assoc, declared_reached hform,
      hscopes]
    exact hp.inner _ _ fun x => by rw [hnames]
  · rw [hwalked]
    exact (closed_empty _).addNames _
  · rw [heffect.body, hbody]
  · rw [heffect.context, hcontext]

theorem block (h : Located p (.block (before ++ s :: after)) st) :
    Located (p.inBlock (before ++ [s])) s (walkStmts before (st.enter [])) := by
  have hform := h.form
  rw [Stmt.WellFormed] at hform
  have hscopes := h.scopes
  rw [Stmt.declared, addNames_nil] at hscopes
  exact inner [] hscopes hform rfl rfl rfl h.body h.context

theorem thenBranch {condition : Expr} {elseBranch : Option Stmt}
    (h : Located p (.ifElse condition s elseBranch) st) :
    Located p s (walkExpr condition st) := by
  have heffect := effect_walkExpr condition st
  have hform := h.form
  have hboth : s.declared = [] ∧ s.WellFormed := by
    cases elseBranch with
    | none =>
      rw [Stmt.WellFormed] at hform
      exact hform.2
    | some elseBranch =>
      rw [Stmt.WellFormed] at hform
      exact hform.2.1
  have hscopes := h.scopes
  rw [h.form.declared_eq] at hscopes
  refine ⟨hboth.2, ?_, ?_, ?_, ?_⟩
  · rw [hboth.1, heffect.scopes_eq]
    exact hscopes
  · rw [heffect.scopes_eq]
    exact h.closed
  · rw [heffect.body, h.body]
  · rw [heffect.context, h.context]

theorem elseBranch {condition : Expr} {thenBranch : Stmt}
    (h : Located p (.ifElse condition thenBranch (some s)) st) :
    Located p s (walkStmt thenBranch (walkExpr condition st)) := by
  have hform := h.form
  rw [Stmt.WellFormed] at hform
  have hthen := h.thenBranch
  have heffect := effect_walkStmt thenBranch (walkExpr condition st)
  rw [hform.2.1.1] at heffect
  refine ⟨hform.2.2.2, ?_, ?_, ?_, ?_⟩
  · rw [hform.2.2.1, heffect.scopes_eq]
    have hscopes := hthen.scopes
    rw [hform.2.1.1] at hscopes
    exact hscopes
  · rw [heffect.scopes_eq]
    exact hthen.closed
  · rw [heffect.body, hthen.body]
  · rw [heffect.context, hthen.context]

theorem loop {condition : Expr} (h : Located p (.while condition s) st) :
    Located p s (walkExpr condition st) := by
  have heffect := effect_walkExpr condition st
  have hform := h.form
  rw [Stmt.WellFormed] at hform
  have hscopes := h.scopes
  rw [Stmt.declared] at hscopes
  refine ⟨hform.2.2, ?_, ?_, ?_, ?_⟩
  · rw [heffect.scopes_eq]
    exact hscopes
  · rw [heffect.scopes_eq]
    exact h.closed
  · rw [heffect.body, h.body]
  · rw [heffect.context, h.context]

theorem function {f : FunctionDecl} (h : Located p (.function f) st)
    (hbody : f.body = before ++ s :: after) :
    Located (p.inRoutine (.function f) (before ++ [s])) s
      (walkStmts before (((st.declare f.name).define f.name).inRoutine f.params
        .function)) := by
  have hnamed := State.effect_declare_define st f.name
  have hform := h.form
  rw [Stmt.WellFormed] at hform
  have hwell := hform.2.2
  obtain ⟨name, params, body, kind⟩ := f
  rw [FunctionDecl.WellFormed, show body = before ++ s :: after from hbody]
    at hwell
  have hscopes := h.scopes
  rw [Stmt.declared, ← hnamed.scopes] at hscopes
  refine inner _ hscopes hwell.2 (scopes_inRoutine _ _ _) rfl rfl
    (body_inRoutine _ _ _) ?_
  rw [context_inRoutine, hnamed.context, h.context]
  rfl

theorem member {c : ClassDecl} {f : FunctionDecl} (h : Located p (.class c) st)
    {earlier later : List FunctionDecl}
    (hmethods : c.methods = earlier ++ f :: later)
    (hbody : f.body = before ++ s :: after) :
    Located ((p.inClass c).inRoutine (.member f) (before ++ [s])) s
      (walkStmts before ((walkMembers earlier (st.inClass c)).inRoutine f.params
        (.ofMember f))) := by
  have hform := h.form
  rw [Stmt.WellFormed] at hform
  have hwell : f.WellFormed := by
    obtain ⟨name, superclass, methods⟩ := c
    rw [ClassDecl.WellFormed] at hform
    rw [show methods = earlier ++ f :: later from hmethods] at hform
    exact hform.2.of_mem (by simp)
  have hmirrors := mirrors_inClass h.scopes
  have hearlier := effect_walkMembers_of (fun g (_ : g ∈ earlier) s _ =>
    effect_walkStmt s) (st.inClass c)
  rw [← hearlier.scopes_eq] at hmirrors
  obtain ⟨name, params, body, kind⟩ := f
  rw [FunctionDecl.WellFormed, show body = before ++ s :: after from hbody]
    at hwell
  refine inner (p := p.inClass c) _ hmirrors hwell.2 (scopes_inRoutine _ _ _) rfl rfl
    (body_inRoutine _ _ _) ?_
  rw [context_inRoutine, hearlier.context, context_inClass st c p]
  rfl

end Located

/-! ## Parts of a walk -/

/-- Part of a walk that begins with a table of distances and comes to an end:
on the ids of the part the table is as it was when the part begins, and as it
will be when the part has ended. -/
structure Part (table : Distances) (last : State) (ids : List Nat)
    (st st' : State) : Prop where
  nodup : ids.Nodup
  before : ∀ id ∈ ids, st.distances.find? id = table.find? id
  after : ∀ id ∈ ids, last.distances.find? id = st'.distances.find? id
  reports : st'.reports <:+ last.reports

namespace Part

variable {table : Distances} {last : State} {ids ids' : List Nat}
  {names names' : List String} {a b c : State}

theorem perm (h : Part table last ids a b) (hids : ids.Perm ids') :
    Part table last ids' a b where
  nodup := hids.nodup_iff.1 h.nodup
  before := fun id hid => h.before id (hids.mem_iff.2 hid)
  after := fun id hid => h.after id (hids.mem_iff.2 hid)
  reports := h.reports

/-- Two parts, one after the other. -/
theorem split (h : Part table last (ids ++ ids') a c)
    (hab : Effect names ids a b) (hbc : Effect names' ids' b c) :
    Part table last ids a b ∧ Part table last ids' b c := by
  obtain ⟨hnodup, hnodup', hdisjoint⟩ := List.nodup_append.1 h.nodup
  constructor
  · refine ⟨hnodup, ?_, ?_, hbc.reports.trans h.reports⟩
    · exact fun id hid => h.before id (List.mem_append_left _ hid)
    · intro id hid
      have hother : id ∉ ids' := fun hid' => hdisjoint id hid id hid' rfl
      rw [← hbc.distances id hother]
      exact h.after id (List.mem_append_left _ hid)
  · refine ⟨hnodup', ?_, ?_, h.reports⟩
    · intro id hid
      have hother : id ∉ ids := fun hid' => hdisjoint id hid' id hid rfl
      rw [hab.distances id hother]
      exact h.before id (List.mem_append_right _ hid)
    · exact fun id hid => h.after id (List.mem_append_right _ hid)

/-- What has no ids may be passed over. -/
theorem skip (h : Part table last ids a c) (hab : Effect names [] a b)
    (hbc : Effect names' ids b c) : Part table last ids b c := by
  have hboth : Part table last ([] ++ ids) a c := h
  exact (hboth.split hab hbc).2

/-- One of some statements. -/
theorem statement {before after : List Stmt} {s : Stmt} {st : State}
    (h : Part table last (Stmt.idsAll (before ++ s :: after)) st
      (walkStmts (before ++ s :: after) st)) :
    Part table last s.ids (walkStmts before st)
      (walkStmt s (walkStmts before st)) := by
  rw [Stmt.idsAll_append, Stmt.idsAll, walkStmts_append, walkStmts] at h
  have hs := effect_walkStmt s (walkStmts before st)
  have hafter := effect_walkStmts after (walkStmt s (walkStmts before st))
  have hrest := (h.split (effect_walkStmts before st) (hs.trans hafter)).2
  exact (hrest.split hs hafter).1

/-- A statement in the body of a function. -/
theorem routine {before after : List Stmt} {s : Stmt} {f : FunctionDecl}
    {body : Body} {st : State}
    (h : Part table last f.ids st (walkRoutine f body st))
    (hbody : f.body = before ++ s :: after) :
    Part table last s.ids (walkStmts before (st.inRoutine f.params body))
      (walkStmt s (walkStmts before (st.inRoutine f.params body))) := by
  obtain ⟨name, params, statements, kind⟩ := f
  rw [FunctionDecl.ids, walkRoutine] at h
  rw [show statements = before ++ s :: after from hbody] at h
  let entered : State := ({ st with body := body } : State).enter []
  have hparams : Effect (params.map Ident.name) [] entered
      (entered.parameters params) := State.effect_parameters entered params
  have hentered : Part table last (Stmt.idsAll (before ++ s :: after)) entered
      (walkStmts (before ++ s :: after) (entered.parameters params)) :=
    ⟨h.nodup, h.before, h.after, h.reports⟩
  exact (hentered.skip hparams (effect_walkStmts _ _)).statement

/-- One of the members of a class. -/
theorem members {earlier later : List FunctionDecl} {f : FunctionDecl}
    {st : State}
    (h : Part table last (FunctionDecl.idsAll (earlier ++ f :: later)) st
      (walkMembers (earlier ++ f :: later) st)) :
    Part table last f.ids (walkMembers earlier st)
      (walkRoutine f (.ofMember f) (walkMembers earlier st)) := by
  induction earlier generalizing st with
  | nil =>
    rw [List.nil_append, FunctionDecl.idsAll, walkMembers] at h
    rw [walkMembers]
    exact (h.split (effect_walkRoutine_of (fun s _ => effect_walkStmt s) _ _)
      (effect_walkMembers_of (fun g (_ : g ∈ later) s _ => effect_walkStmt s)
        _)).1
  | cons g rest ih =>
    rw [List.cons_append, FunctionDecl.idsAll, walkMembers] at h
    rw [walkMembers]
    exact ih (h.split
      (effect_walkRoutine_of (fun s _ => effect_walkStmt s) _ _)
      (effect_walkMembers_of (fun g (_ : g ∈ rest ++ f :: later) s _ =>
        effect_walkStmt s) _)).2

theorem ids_class (c : ClassDecl) :
    c.ids = parentIds c ++ FunctionDecl.idsAll c.methods := by
  obtain ⟨name, superclass, methods⟩ := c
  cases superclass <;> rw [ClassDecl.ids] <;> rfl

/-- The name of a class with its superclass, and its members. -/
theorem cls {c : ClassDecl} {st : State}
    (h : Part table last c.ids st (walkClass c st)) :
    Part table last (parentIds c) st (st.named c) ∧
      Part table last (FunctionDecl.idsAll c.methods) (st.inClass c)
        (walkMembers c.methods (st.inClass c)) := by
  have hmembers := effect_walkMembers_of (fun f (_ : f ∈ c.methods) s _ =>
    effect_walkStmt s) (st.inClass c)
  have hnamed := effect_named st c _ rfl
  rw [ids_class] at h
  obtain ⟨name, superclass, methods⟩ := c
  cases superclass with
  | none =>
    rw [walkClass] at h
    have hall : Part table last
        (parentIds ⟨name, none, methods⟩ ++ FunctionDecl.idsAll methods)
        { st with context := .base }
        (walkMembers methods (st.inClass ⟨name, none, methods⟩)).leave :=
      ⟨h.nodup, h.before, h.after, h.reports⟩
    obtain ⟨hfirst, hsecond⟩ := hall.split hnamed hmembers.enclosed
    exact ⟨⟨hfirst.nodup, hfirst.before, hfirst.after, hfirst.reports⟩,
      ⟨hsecond.nodup, hsecond.before, hsecond.after, hsecond.reports⟩⟩
  | some parent =>
    rw [walkClass] at h
    have hall : Part table last
        (parentIds ⟨name, some parent, methods⟩ ++ FunctionDecl.idsAll methods)
        { st with context := .derived }
        (walkMembers methods
          (st.inClass ⟨name, some parent, methods⟩)).leave.leave :=
      ⟨h.nodup, h.before, h.after, h.reports⟩
    obtain ⟨hfirst, hsecond⟩ := hall.split hnamed hmembers.enclosed.enclosed
    exact ⟨⟨hfirst.nodup, hfirst.before, hfirst.after, hfirst.reports⟩,
      ⟨hsecond.nodup, hsecond.before, hsecond.after, hsecond.reports⟩⟩

end Part

/-! ## Every place is reached -/

/-- The walk over a program. -/
def finalState (program : List Stmt) (table : Distances) : State :=
  walkStmts program (.start table)

/-- The walk comes to every statement of a program, in a state that suits its
place. -/
theorem Stands.located {program : List Stmt} {p : Place} {s : Stmt}
    (h : Stands program p s) (table : Distances) (hform : Stmt.AllWellFormed program)
    (hnodup : (Stmt.idsAll program).Nodup) :
    ∃ st, Located p s st ∧
      Part table (finalState program table) s.ids st (walkStmt s st) := by
  induction h with
  | @top before s after h =>
    subst h
    have hall : Part table (finalState (before ++ s :: after) table)
        (Stmt.idsAll (before ++ s :: after)) (.start table)
        (walkStmts (before ++ s :: after) (.start table)) :=
      ⟨hnodup, fun _ _ => rfl, fun _ _ => rfl, List.suffix_refl _⟩
    exact ⟨_, .top hform table, hall.statement⟩
  | block _ ih =>
    obtain ⟨st, hlocated, hpart⟩ := ih
    rw [Stmt.ids, walkStmt] at hpart
    exact ⟨_, hlocated.block, Part.statement ⟨hpart.nodup, hpart.before,
      hpart.after, hpart.reports⟩⟩
  | @thenBranch p condition s elseBranch _ ih =>
    obtain ⟨st, hlocated, hpart⟩ := ih
    refine ⟨_, hlocated.thenBranch, ?_⟩
    have hcondition := effect_walkExpr condition st
    have hthen := effect_walkStmt s (walkExpr condition st)
    cases elseBranch with
    | none =>
      rw [Stmt.ids, walkStmt] at hpart
      exact (hpart.split hcondition hthen).2
    | some elseBranch =>
      rw [Stmt.ids, walkStmt] at hpart
      have helse := effect_walkStmt elseBranch
        (walkStmt s (walkExpr condition st))
      have hboth := (hpart.split hcondition (hthen.trans helse)).2
      exact (hboth.split hthen helse).1
  | @elseBranch p condition thenBranch s _ ih =>
    obtain ⟨st, hlocated, hpart⟩ := ih
    refine ⟨_, hlocated.elseBranch, ?_⟩
    rw [Stmt.ids, walkStmt] at hpart
    have hthen := effect_walkStmt thenBranch (walkExpr condition st)
    have helse := effect_walkStmt s (walkStmt thenBranch (walkExpr condition st))
    have hboth := (hpart.split (effect_walkExpr condition st)
      (hthen.trans helse)).2
    exact (hboth.split hthen helse).2
  | @loop p condition s _ ih =>
    obtain ⟨st, hlocated, hpart⟩ := ih
    refine ⟨_, hlocated.loop, ?_⟩
    rw [Stmt.ids, walkStmt] at hpart
    exact (hpart.split (effect_walkExpr condition st) (effect_walkStmt s _)).2
  | @function p f before s after _ hbody ih =>
    obtain ⟨st, hlocated, hpart⟩ := ih
    refine ⟨_, hlocated.function hbody, ?_⟩
    rw [Stmt.ids, walkStmt] at hpart
    have hroutine := hpart.skip (State.effect_declare_define st f.name)
      (effect_walkRoutine_of (fun s _ => effect_walkStmt s) _ _)
    exact hroutine.routine hbody
  | @member p c f before s after _ hf hbody ih =>
    obtain ⟨st, hlocated, hpart⟩ := ih
    obtain ⟨earlier, later, hmethods⟩ := List.append_of_mem hf
    refine ⟨_, hlocated.member hmethods hbody, ?_⟩
    rw [Stmt.ids, walkStmt] at hpart
    have hmembers := hpart.cls.2
    rw [hmethods] at hmembers
    exact hmembers.members.routine hbody

end Scope

end Lox
