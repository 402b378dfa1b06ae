import Lox.Proofs.Scope.Place
import Lox.Proofs.Stmt.Recovery

/-!
# The distance table is lexical addressing

An occurrence of a name has an address when some scope around it holds the
name: the number of scopes that lie inside the innermost such scope.  The
scope rules record for every occurrence its address, and nothing for an
occurrence without one, whether or not they report a fault on the way
(`entries_eq_addresses`).
-/

namespace Lox

/-! ## Parts of an expression -/

mutual

/-- The expression and all expressions inside it. -/
def Expr.parts : Expr → List Expr
  | .literal value => [.literal value]
  | .group inner => .group inner :: inner.parts
  | .unary op line right => .unary op line right :: right.parts
  | .binary left op line right =>
    .binary left op line right :: (left.parts ++ right.parts)
  | .logical left op line right =>
    .logical left op line right :: (left.parts ++ right.parts)
  | .variable ref => [.variable ref]
  | .assign target value => .assign target value :: value.parts
  | .call callee line arguments =>
    .call callee line arguments ::
      (callee.parts ++ Expr.partsAll arguments)
  | .get object name => .get object name :: object.parts
  | .set object name value =>
    .set object name value :: (object.parts ++ value.parts)
  | .this id line => [.this id line]
  | .super id line method => [.super id line method]

/-- Some expressions and all expressions inside them. -/
def Expr.partsAll : List Expr → List Expr
  | [] => []
  | e :: rest => e.parts ++ Expr.partsAll rest

end

/-- The id and the name of an occurrence that the scope rules can bind. -/
def Expr.occurrence? : Expr → Option (Nat × String)
  | .variable ref => some (ref.id, ref.name)
  | .assign target _ => some (target.id, target.name)
  | .this id _ => some (id, Keyword.kwThis.lexeme)
  | .super id _ _ => some (id, Keyword.kwSuper.lexeme)
  | _ => none

theorem Expr.mem_parts_self (e : Expr) : e ∈ e.parts := by
  cases e <;> simp [Expr.parts]

theorem Expr.mem_partsAll {list : List Expr} {e : Expr} :
    e ∈ Expr.partsAll list ↔ ∃ e' ∈ list, e ∈ e'.parts := by
  induction list with
  | nil => simp [Expr.partsAll]
  | cons first rest ih => simp [Expr.partsAll, ih]

namespace Scope

open State (Effect)

/-! ## Occurrences and addresses -/

/-- A name occurs at a place with an id: as a variable, an assignment, `this`
or `super` in an expression, or as the superclass of a class. -/
inductive Occurs (program : List Stmt) : Place → Nat → String → Prop where
  | expression {p s e part id name} (h : Stands program p s)
      (he : Evaluates s e) (hpart : part ∈ e.parts)
      (hoccurs : part.occurrence? = some (id, name)) :
      Occurs program p id name
  | superclass {p c parent} (h : Stands program p (.class c))
      (hparent : c.superclass = some parent) :
      Occurs program p parent.id parent.name

/-- The innermost scope that holds the name has `d` scopes inside it. -/
def Address (scopes : List Enclosure) (name : String) (d : Nat) : Prop :=
  ∃ inner scope outer, scopes = inner ++ scope :: outer ∧ inner.length = d ∧
    name ∈ scope.names ∧ ∀ other ∈ inner, name ∉ other.names

theorem address_cons {scope : Enclosure} {outer : List Enclosure}
    {name : String} {d : Nat} :
    Address (scope :: outer) name d ↔
      name ∈ scope.names ∧ d = 0 ∨
        name ∉ scope.names ∧ ∃ d', Address outer name d' ∧ d = d' + 1 := by
  constructor
  · rintro ⟨inner, found, rest, heq, hlength, hmem, hinner⟩
    cases inner with
    | nil =>
      rw [List.nil_append] at heq
      cases heq
      exact .inl ⟨hmem, hlength.symm⟩
    | cons first inner =>
      rw [List.cons_append] at heq
      cases heq
      obtain ⟨hfirst, hinner⟩ := List.forall_mem_cons.1 hinner
      exact .inr ⟨hfirst, inner.length, ⟨inner, found, rest, rfl, rfl, hmem,
        hinner⟩, hlength.symm⟩
  · rintro (⟨hmem, rfl⟩ | ⟨hfirst, d', hd', rfl⟩)
    · exact ⟨[], scope, outer, rfl, rfl, hmem, by simp⟩
    · obtain ⟨inner, found, rest, rfl, rfl, hmem, hinner⟩ := hd'
      exact ⟨scope :: inner, found, rest, rfl, rfl, hmem,
        List.forall_mem_cons.2 ⟨hfirst, hinner⟩⟩

/-- The walk finds addresses. -/
theorem Mirrors.distance_iff {scopes : List Enclosure}
    {walked : List (Table Bool)} (h : Mirrors scopes walked) {name : String}
    {d : Nat} : distance walked name = some d ↔ Address scopes name d := by
  induction h generalizing d with
  | nil => simp [distance, Address]
  | @cons scope table outer walked hnames _ ih =>
    rw [distance_cons, address_cons]
    by_cases hmem : name ∈ scope.names
    · have hcontains := (hnames name).2 hmem
      simp [hcontains, hmem, eq_comm]
    · have hcontains : table.contains name = false := by
        rw [Bool.eq_false_iff]
        exact fun h => hmem ((hnames name).1 h)
      simp only [hcontains, hmem, Bool.false_eq_true, if_false,
        Option.map_eq_some_iff, ih, false_and, not_false_eq_true, true_and,
        false_or]
      constructor
      · rintro ⟨d', hd', rfl⟩
        exact ⟨d', hd', rfl⟩
      · rintro ⟨d', hd', rfl⟩
        exact ⟨d', hd', rfl⟩

theorem Mirrors.distance_eq_none {scopes : List Enclosure}
    {walked : List (Table Bool)} (h : Mirrors scopes walked) {name : String} :
    distance walked name = none ↔ ∀ scope ∈ scopes, name ∉ scope.names := by
  induction h with
  | nil => simp [distance]
  | @cons scope table outer walked hnames _ ih =>
    rw [distance_cons, List.forall_mem_cons, ← ih, ← hnames name]
    cases table.contains name <;> simp

/-! ## The walk inside an expression -/

/-- The walk comes to an expression in a state that suits a place, as a part
of a walk. -/
structure Reaches (table : Distances) (last : State) (p : Place) (e : Expr)
    (st : State) : Prop where
  scopes : Mirrors p.scopes st.scopes
  body : st.body = p.body
  context : st.context = p.context
  part : Part table last e.ids st (walkExpr e st)

section

variable {table : Distances} {last : State} {p : Place} {e : Expr} {st : State}

/-- A state that nothing but distances and reports tell apart. -/
theorem Reaches.later {e' : Expr} {st' : State} {ids : List Nat}
    (h : Reaches table last p e st) (heffect : Effect [] ids st st')
    (hpart : Part table last e'.ids st' (walkExpr e' st')) :
    Reaches table last p e' st' where
  scopes := heffect.scopes_eq ▸ h.scopes
  body := heffect.body.trans h.body
  context := heffect.context.trans h.context
  part := hpart

theorem Reaches.of_part {e' : Expr} (h : Reaches table last p e st)
    (hpart : Part table last e'.ids st (walkExpr e' st)) :
    Reaches table last p e' st :=
  ⟨h.scopes, h.body, h.context, hpart⟩

/-- The two operands of an expression, one walked after the other. -/
theorem Reaches.operands {left right : Expr} (h : Reaches table last p e st)
    (hpart : Part table last (left.ids ++ right.ids) st
      (walkExpr right (walkExpr left st))) :
    Reaches table last p left st ∧
      Reaches table last p right (walkExpr left st) := by
  have hleft := effect_walkExpr left st
  obtain ⟨hfirst, hsecond⟩ := hpart.split hleft (effect_walkExpr right _)
  exact ⟨h.of_part hfirst, h.later hleft hsecond⟩

theorem Reaches.list {list : List Expr} {e' : Expr} (he' : e' ∈ list)
    (hscopes : Mirrors p.scopes st.scopes) (hbody : st.body = p.body)
    (hcontext : st.context = p.context)
    (hpart : Part table last (Expr.idsAll list) st (walkExprs list st)) :
    ∃ st', Reaches table last p e' st' := by
  induction list generalizing st with
  | nil => cases he'
  | cons first rest ih =>
    rw [Expr.idsAll, walkExprs] at hpart
    have heffect := effect_walkExpr first st
    obtain ⟨hfirst, hsecond⟩ := hpart.split heffect
      (effect_walkExprs (fun e _ => effect_walkExpr e) _)
    rcases List.mem_cons.1 he' with rfl | he'
    · exact ⟨st, hscopes, hbody, hcontext, hfirst⟩
    · exact ih he' (heffect.scopes_eq ▸ hscopes) (heffect.body.trans hbody)
        (heffect.context.trans hcontext) hsecond

/-- The walk over an expression comes to all its parts. -/
theorem Reaches.inside {part : Expr} (h : Reaches table last p e st)
    (hpart : part ∈ e.parts) : ∃ st', Reaches table last p part st' := by
  induction e generalizing st with
  | literal value | occurrence ref | this id line | super id line method =>
    simp only [Expr.parts, List.mem_singleton] at hpart
    subst hpart
    exact ⟨st, h⟩
  | group inner ih | unary op line inner ih | get inner name ih =>
    rw [Expr.parts, List.mem_cons] at hpart
    rcases hpart with rfl | hpart
    · exact ⟨st, h⟩
    · have hinner := h.part
      rw [Expr.ids, walkExpr] at hinner
      exact ih (h.of_part hinner) hpart
  | binary left op line right ihleft ihright
  | logical left op line right ihleft ihright =>
    rw [Expr.parts, List.mem_cons, List.mem_append] at hpart
    rcases hpart with rfl | hpart
    · exact ⟨st, h⟩
    · have hboth := h.part
      rw [Expr.ids, walkExpr] at hboth
      obtain ⟨hleft, hright⟩ := h.operands hboth
      rcases hpart with hpart | hpart
      · exact ihleft hleft hpart
      · exact ihright hright hpart
  | assign target value ih =>
    rw [Expr.parts, List.mem_cons] at hpart
    rcases hpart with rfl | hpart
    · exact ⟨st, h⟩
    · have hboth := h.part
      rw [Expr.ids, walkExpr] at hboth
      have hvalue := (hboth.split (effect_walkExpr value st)
        (State.effect_bind _ _ _)).1
      exact ih (h.of_part hvalue) hpart
  | call callee line arguments ihcallee iharguments =>
    rw [Expr.parts, List.mem_cons, List.mem_append] at hpart
    rcases hpart with rfl | hpart
    · exact ⟨st, h⟩
    · have hboth := h.part
      rw [Expr.ids, walkExpr] at hboth
      have hcallee := effect_walkExpr callee st
      obtain ⟨hfirst, hsecond⟩ := hboth.split hcallee
        (effect_walkExprs (fun e _ => effect_walkExpr e) _)
      rcases hpart with hpart | hpart
      · exact ihcallee (h.of_part hfirst) hpart
      · obtain ⟨argument, hmem, hpart⟩ := Expr.mem_partsAll.1 hpart
        obtain ⟨st', hst'⟩ := Reaches.list (p := p) hmem
          (hcallee.scopes_eq ▸ h.scopes) (hcallee.body.trans h.body)
          (hcallee.context.trans h.context) hsecond
        exact iharguments argument hmem hst' hpart
  | set object name value ihobject ihvalue =>
    rw [Expr.parts, List.mem_cons, List.mem_append] at hpart
    rcases hpart with rfl | hpart
    · exact ⟨st, h⟩
    · -- the value is walked before the object
      have hboth := h.part
      rw [Expr.ids, walkExpr] at hboth
      obtain ⟨hvalue, hobject⟩ := h.operands (hboth.perm List.perm_append_comm)
      rcases hpart with hpart | hpart
      · exact ihobject hobject hpart
      · exact ihvalue hvalue hpart

end

/-! ## From statements to expressions -/

section

variable {table : Distances} {last : State} {p : Place} {s : Stmt} {e : Expr}
  {st : State}

/-- Behind the start of its declaration a name is held, complete or not. -/
theorem mirrors_declare {scopes : List Enclosure} {x : Ident}
    (h : Mirrors scopes (addNames [x.name] st.scopes)) :
    Mirrors scopes (st.declare x).scopes := by
  unfold State.declare
  cases hwalked : st.scopes with
  | nil =>
    rw [hwalked, addNames] at h
    simp only [hwalked]
    exact h
  | cons scope outer =>
    rw [hwalked] at h
    by_cases hcontains : scope.contains x.name
    · simp only [hcontains, if_true, State.report, hwalked]
      rcases h with _ | ⟨hscope, houter⟩
      refine .cons (fun y => ?_) houter
      rw [← hscope y, contains_foldl_insert]
      by_cases hy : y = x.name
      · simp [hy, hcontains]
      · simp [hy]
    · simp only [hcontains, Bool.false_eq_true, if_false]
      rcases h with _ | ⟨hscope, houter⟩
      refine .cons (fun y => ?_) houter
      rw [← hscope y, contains_foldl_insert, Table.contains_insert]
      simp

theorem declare_fields (st : State) (x : Ident) :
    (st.declare x).body = st.body ∧ (st.declare x).context = st.context ∧
      (st.declare x).distances = st.distances := by
  unfold State.declare
  split
  · exact ⟨rfl, rfl, rfl⟩
  · split <;> exact ⟨rfl, rfl, rfl⟩

theorem define_fields (st : State) (x : Ident) :
    (st.define x).distances = st.distances ∧
      (st.define x).reports = st.reports := by
  unfold State.define
  split <;> exact ⟨rfl, rfl⟩

/-- The walk over a statement comes to the expression that it evaluates. -/
theorem Located.evaluates (h : Located p s st)
    (hpart : Part table last s.ids st (walkStmt s st)) (he : Evaluates s e) :
    ∃ st', Reaches table last p e st' := by
  have hscopes := h.scopes
  have hdeclared := h.form.declared_eq
  cases he with
  | expression =>
    rw [Stmt.ids, walkStmt] at hpart
    rw [Stmt.declared, addNames_nil] at hscopes
    exact ⟨st, hscopes, h.body, h.context, hpart⟩
  | print =>
    rw [Stmt.ids, walkStmt] at hpart
    rw [Stmt.declared, addNames_nil] at hscopes
    exact ⟨st, hscopes, h.body, h.context, hpart⟩
  | @initializer x =>
    rw [Stmt.ids, walkStmt] at hpart
    obtain ⟨hbody, hcontext, hdistances⟩ := declare_fields st x
    obtain ⟨hdistances', hreports'⟩ :=
      define_fields (walkExpr e (st.declare x)) x
    refine ⟨st.declare x, mirrors_declare hscopes, hbody.trans h.body,
      hcontext.trans h.context, hpart.nodup, ?_, ?_, ?_⟩
    · rw [hdistances]
      exact hpart.before
    · rw [← hdistances']
      exact hpart.after
    · rw [← hreports']
      exact hpart.reports
  | @choice _ thenBranch elseBranch =>
    rw [hdeclared] at hscopes
    refine ⟨st, (addNames_nil st.scopes) ▸ hscopes, h.body, h.context, ?_⟩
    have hcondition := effect_walkExpr e st
    cases elseBranch with
    | none =>
      rw [Stmt.ids, walkStmt] at hpart
      exact (hpart.split hcondition (effect_walkStmt thenBranch _)).1
    | some elseBranch =>
      rw [Stmt.ids, walkStmt] at hpart
      exact (hpart.split hcondition ((effect_walkStmt thenBranch _).trans
        (effect_walkStmt elseBranch _))).1
  | @loop _ inner =>
    rw [hdeclared] at hscopes
    rw [Stmt.ids, walkStmt] at hpart
    exact ⟨st, (addNames_nil st.scopes) ▸ hscopes, h.body, h.context,
      (hpart.split (effect_walkExpr e st) (effect_walkStmt inner _)).1⟩
  | @result line =>
    rw [Stmt.ids, walkStmt] at hpart
    rw [Stmt.declared, addNames_nil] at hscopes
    have hcheck := st.effect_checkReturn line true
    exact ⟨st.checkReturn line true, hcheck.scopes_eq ▸ hscopes,
      hcheck.body.trans h.body, hcheck.context.trans h.context,
      hpart.skip hcheck (effect_walkExpr e _)⟩

end

/-! ## Entries -/

/-- An occurrence gets the distance of its name, and keeps what it has if
there is none. -/
theorem find?_bind_or (st : State) (id : Nat) (name : String) :
    (st.bind id name).distances.find? id =
      (distance st.scopes name).or (st.distances.find? id) := by
  have hdistance : st.distance? name = distance st.scopes name := rfl
  unfold State.bind
  rw [hdistance]
  cases distance st.scopes name with
  | none => rfl
  | some d => exact (Distances.find?_record _ _ _ _).trans (if_pos rfl)

section

variable {program : List Stmt} {table : Distances} {p : Place} {s : Stmt}

theorem Stands.wellFormed (h : Stands program p s)
    (hform : Stmt.AllWellFormed program) : s.WellFormed := by
  induction h with
  | top h => exact hform.of_mem (by simp [h])
  | block _ ih =>
    rw [Stmt.WellFormed] at ih
    exact ih.of_mem (by simp)
  | @thenBranch _ _ _ elseBranch _ ih =>
    cases elseBranch with
    | none => rw [Stmt.WellFormed] at ih; exact ih.2.2
    | some => rw [Stmt.WellFormed] at ih; exact ih.2.1.2
  | elseBranch _ ih => rw [Stmt.WellFormed] at ih; exact ih.2.2.2
  | loop _ ih => rw [Stmt.WellFormed] at ih; exact ih.2.2
  | @function _ f _ _ _ _ hbody ih =>
    obtain ⟨name, params, body, kind⟩ := f
    rw [Stmt.WellFormed, FunctionDecl.WellFormed] at ih
    refine ih.2.2.2.of_mem ?_
    simp [show body = _ from hbody]
  | @member _ c f _ _ _ _ hf hbody ih =>
    obtain ⟨name, superclass, methods⟩ := c
    rw [Stmt.WellFormed, ClassDecl.WellFormed] at ih
    have hwell := ih.2.of_mem hf
    obtain ⟨name, params, body, kind⟩ := f
    rw [FunctionDecl.WellFormed] at hwell
    refine hwell.2.of_mem ?_
    simp [show body = _ from hbody]

theorem unreserved_introduces {list : List Stmt}
    (hform : ∀ s ∈ list, s.WellFormed) :
    ∀ x ∈ list.filterMap Stmt.introduces, Unreserved x := by
  intro x hx
  obtain ⟨s, hs, hname⟩ := List.mem_filterMap.1 hx
  refine unreserved_declared (hform s hs) x ?_
  rw [(hform s hs).declared_eq, hname]
  simp

/-- Outside every class no scope holds `this`. -/
theorem Stands.unreserved (h : Stands program p s)
    (hform : Stmt.AllWellFormed program) (hcls : p.cls = none) :
    ∀ scope ∈ p.scopes, ∀ x ∈ scope.names, Unreserved x := by
  induction h with
  | top => simp [Place.top]
  | @block p before s after h ih =>
    refine List.forall_mem_cons.2 ⟨?_, ih hcls⟩
    have hblock := h.wellFormed hform
    rw [Stmt.WellFormed] at hblock
    refine unreserved_introduces fun s' hs' => hblock.of_mem ?_
    rcases List.mem_append.1 hs' with hs' | hs'
    · exact List.mem_append_left _ hs'
    · simp [List.mem_singleton.1 hs']
  | thenBranch _ ih | elseBranch _ ih | loop _ ih => exact ih hcls
  | @function p f before s after h hbody ih =>
    refine List.forall_mem_cons.2 ⟨?_, ih hcls⟩
    have hwell := h.wellFormed hform
    rw [Stmt.WellFormed] at hwell
    obtain ⟨name, params, body, kind⟩ := f
    rw [FunctionDecl.WellFormed, show body = _ from hbody] at hwell
    intro x hx
    rcases List.mem_append.1 hx with hx | hx
    · obtain ⟨param, hparam, rfl⟩ := List.mem_map.1 hx
      exact hwell.2.2.1 param hparam
    · refine unreserved_introduces (fun s' hs' => hwell.2.2.2.of_mem ?_) x hx
      rcases List.mem_append.1 hs' with hs' | hs'
      · exact List.mem_append_left _ hs'
      · simp [List.mem_singleton.1 hs']
  | member => cases hcls

/-- What is recorded for an occurrence in an expression. -/
theorem find?_of_reaches {e : Expr} {st : State} {id : Nat} {name : String}
    (h : Reaches table (finalState program table) p e st)
    (hstands : Stands program p s) (hform : Stmt.AllWellFormed program)
    (hoccurs : e.occurrence? = some (id, name)) :
    (finalState program table).distances.find? id =
      (distance st.scopes name).or (table.find? id) := by
  have hpart := h.part
  cases e with
  | «variable» ref =>
    cases hoccurs
    rw [Expr.ids, walkExpr, State.read] at hpart
    have hmem := List.mem_singleton_self ref.id
    have hcheck := st.effect_reportIf (st.isOpen ref.name) ref.line ref.name
      .ownInitializer
    rw [hpart.after _ hmem, find?_bind_or, hcheck.scopes_eq,
      hcheck.distances _ (by simp), hpart.before _ hmem]
  | assign target value =>
    cases hoccurs
    rw [Expr.ids, walkExpr] at hpart
    have hvalue := effect_walkExpr value st
    have htarget := (hpart.split hvalue (State.effect_bind _ _ _)).2
    have hmem := List.mem_singleton_self target.id
    rw [htarget.after _ hmem, find?_bind_or, hvalue.scopes_eq,
      htarget.before _ hmem]
  | this id line =>
    cases hoccurs
    rw [Expr.ids, walkExpr, State.readThis] at hpart
    have hmem := List.mem_singleton_self id
    by_cases houtside : st.context = .outside
    · -- outside every class no scope holds the keyword
      have hcls : p.cls = none := by
        have hcontext := h.context
        rw [houtside, Place.context] at hcontext
        split at hcontext
        · assumption
        · cases hcontext
        · cases hcontext
      have hnone : distance st.scopes Keyword.kwThis.lexeme = none := by
        rw [h.scopes.distance_eq_none]
        intro scope hscope hthis
        exact (hstands.unreserved hform hcls scope hscope _ hthis).1 rfl
      rw [if_pos houtside] at hpart
      rw [hnone, Option.none_or, hpart.after _ hmem, ← hpart.before _ hmem]
      rfl
    · rw [if_neg houtside] at hpart
      rw [hpart.after _ hmem, find?_bind_or, hpart.before _ hmem]
  | super id line method =>
    cases hoccurs
    rw [Expr.ids, walkExpr, State.readSuper] at hpart
    have hmem := List.mem_singleton_self id
    have hbefore := hpart.before _ hmem
    cases hfault : st.superFault? with
    | none =>
      simp only [hfault] at hpart
      rw [hpart.after _ hmem, find?_bind_or, hbefore]
    | some f =>
      simp only [hfault] at hpart
      rw [hpart.after _ hmem, find?_bind_or, State.report, hbefore]
  | _ => cases hoccurs

/-- What is recorded for the superclass of a class. -/
theorem find?_of_superclass {c : ClassDecl} {parent : Ref} {st : State}
    (hparent : c.superclass = some parent)
    (hpart : Part table (finalState program table) (parentIds c) st
      (st.named c)) :
    (finalState program table).distances.find? parent.id =
      (distance (addNames [c.name.name] st.scopes) parent.name).or
        (table.find? parent.id) := by
  obtain ⟨name, superclass, methods⟩ := c
  cases hparent
  have hmem : parent.id ∈ parentIds ⟨name, some parent, methods⟩ :=
    List.mem_singleton_self _
  let based : State := { st with context := .derived }
  let declared := (based.declare name).define name
  have hnamed : Effect [name.name] [] based declared :=
    State.effect_declare_define based name
  have hinherits := declared.effect_reportIf (parent.name == name.name)
    parent.line parent.name .inheritsItself
  have hread := (declared.reportIf (parent.name == name.name) parent.line
    parent.name .inheritsItself).effect_reportIf
      ((declared.reportIf (parent.name == name.name) parent.line parent.name
        .inheritsItself).isOpen parent.name) parent.line parent.name
      .ownInitializer
  have hchecks := hnamed.trans (hinherits.trans hread)
  rw [hpart.after _ hmem, State.named, State.read, find?_bind_or,
    hchecks.scopes, hchecks.distances _ (by simp), hpart.before _ hmem]
  rfl

/-- What is recorded for an occurrence: the distance of its name in scopes
that hold what the scopes around it hold. -/
theorem Occurs.find? {id : Nat} {name : String}
    (h : Occurs program p id name) (table : Distances)
    (hform : Stmt.AllWellFormed program)
    (hnodup : (Stmt.idsAll program).Nodup) :
    ∃ walked, Mirrors p.scopes walked ∧
      (finalState program table).distances.find? id =
        (distance walked name).or (table.find? id) := by
  cases h with
  | expression h he hpart hoccurs =>
    obtain ⟨st, hlocated, hwalk⟩ := h.located table hform hnodup
    obtain ⟨st', hreaches⟩ := hlocated.evaluates hwalk he
    obtain ⟨st'', hinside⟩ := hreaches.inside hpart
    exact ⟨st''.scopes, hinside.scopes, find?_of_reaches hinside h hform hoccurs⟩
  | superclass h hparent =>
    obtain ⟨st, hlocated, hwalk⟩ := h.located table hform hnodup
    rw [Stmt.ids, walkStmt] at hwalk
    exact ⟨_, hlocated.scopes, find?_of_superclass hparent hwalk.cls.1⟩

end

/-! ## Every id is that of an occurrence -/

theorem exists_part_of_mem_ids {e : Expr} {id : Nat} (h : id ∈ e.ids) :
    ∃ part ∈ e.parts, ∃ name, part.occurrence? = some (id, name) := by
  induction e with
  | literal value => simp [Expr.ids] at h
  | group inner ih | unary op line inner ih | get inner name ih =>
    rw [Expr.ids] at h
    obtain ⟨part, hpart, hoccurs⟩ := ih h
    exact ⟨part, by simp [Expr.parts, hpart], hoccurs⟩
  | binary left op line right ihleft ihright
  | logical left op line right ihleft ihright
  | set left name right ihleft ihright =>
    rw [Expr.ids, List.mem_append] at h
    rcases h with h | h
    · obtain ⟨part, hpart, hoccurs⟩ := ihleft h
      exact ⟨part, by simp [Expr.parts, hpart], hoccurs⟩
    · obtain ⟨part, hpart, hoccurs⟩ := ihright h
      exact ⟨part, by simp [Expr.parts, hpart], hoccurs⟩
  | occurrence ref =>
    rw [Expr.ids, List.mem_singleton] at h
    exact ⟨_, Expr.mem_parts_self _, ref.name, by rw [h]; rfl⟩
  | assign target value ih =>
    rw [Expr.ids, List.mem_append, List.mem_singleton] at h
    rcases h with h | h
    · obtain ⟨part, hpart, hoccurs⟩ := ih h
      exact ⟨part, by simp [Expr.parts, hpart], hoccurs⟩
    · exact ⟨_, Expr.mem_parts_self _, target.name, by rw [h]; rfl⟩
  | call callee line arguments ihcallee iharguments =>
    rw [Expr.ids, List.mem_append, Expr.idsAll_eq_flatMap, List.mem_flatMap] at h
    rcases h with h | ⟨argument, hmem, h⟩
    · obtain ⟨part, hpart, hoccurs⟩ := ihcallee h
      exact ⟨part, by simp [Expr.parts, hpart], hoccurs⟩
    · obtain ⟨part, hpart, hoccurs⟩ := iharguments argument hmem h
      have hall := Expr.mem_partsAll.2 ⟨argument, hmem, hpart⟩
      exact ⟨part, by simp [Expr.parts, hall], hoccurs⟩
  | this id' line =>
    rw [Expr.ids, List.mem_singleton] at h
    exact ⟨_, Expr.mem_parts_self _, _, by rw [h]; rfl⟩
  | super id' line method =>
    rw [Expr.ids, List.mem_singleton] at h
    exact ⟨_, Expr.mem_parts_self _, _, by rw [h]; rfl⟩

section

variable {program : List Stmt} {id : Nat}

theorem Stands.occurs_of_evaluates {p : Place} {s : Stmt} {e : Expr}
    (h : Stands program p s) (he : Evaluates s e) (hid : id ∈ e.ids) :
    ∃ p' name, Occurs program p' id name := by
  obtain ⟨part, hpart, name, hoccurs⟩ := exists_part_of_mem_ids hid
  exact ⟨p, name, .expression h he hpart hoccurs⟩

/-- An id in the body of a function is that of an occurrence if those in the
statements of the body are. -/
theorem occurs_of_mem_routine {f : FunctionDecl} {q : List Stmt → Place}
    (hstands : ∀ before s after, f.body = before ++ s :: after →
      Stands program (q (before ++ [s])) s)
    (ih : ∀ s ∈ f.body, ∀ p, Stands program p s → id ∈ s.ids →
      ∃ p' name, Occurs program p' id name)
    (hid : id ∈ f.ids) : ∃ p' name, Occurs program p' id name := by
  obtain ⟨name, params, body, kind⟩ := f
  rw [FunctionDecl.ids, Stmt.idsAll_eq_flatMap, List.mem_flatMap] at hid
  obtain ⟨s, hs, hid⟩ := hid
  obtain ⟨before, after, hbody⟩ := List.append_of_mem hs
  exact ih s hs _ (hstands before s after hbody) hid

theorem Stands.occurs {p : Place} {s : Stmt} (h : Stands program p s)
    (hid : id ∈ s.ids) : ∃ p' name, Occurs program p' id name := by
  induction s generalizing p with
  | expression e =>
    rw [Stmt.ids] at hid
    exact h.occurs_of_evaluates .expression hid
  | print e =>
    rw [Stmt.ids] at hid
    exact h.occurs_of_evaluates .print hid
  | var x initializer =>
    rw [Stmt.ids] at hid
    cases initializer with
    | none => cases hid
    | some e => exact h.occurs_of_evaluates .initializer hid
  | block body ih =>
    rw [Stmt.ids, Stmt.idsAll_eq_flatMap, List.mem_flatMap] at hid
    obtain ⟨s, hs, hid⟩ := hid
    obtain ⟨before, after, rfl⟩ := List.append_of_mem hs
    exact ih s hs h.block hid
  | ifElse condition thenBranch elseBranch ihthen ihelse =>
    cases elseBranch with
    | none =>
      rw [Stmt.ids, List.mem_append] at hid
      rcases hid with hid | hid
      · exact h.occurs_of_evaluates .choice hid
      · exact ihthen h.thenBranch hid
    | some elseBranch =>
      rw [Stmt.ids, List.mem_append, List.mem_append] at hid
      rcases hid with hid | hid | hid
      · exact h.occurs_of_evaluates .choice hid
      · exact ihthen h.thenBranch hid
      · exact ihelse elseBranch rfl h.elseBranch hid
  | loop condition body ih =>
    rw [Stmt.ids, List.mem_append] at hid
    rcases hid with hid | hid
    · exact h.occurs_of_evaluates .loop hid
    · exact ih h.loop hid
  | function f ih =>
    rw [Stmt.ids] at hid
    exact occurs_of_mem_routine (fun _ _ _ hbody => h.function hbody)
      (fun s hs _ hstands => ih s hs hstands) hid
  | giveBack line value =>
    rw [Stmt.ids] at hid
    cases value with
    | none => cases hid
    | some e => exact h.occurs_of_evaluates .result hid
  | cls c ih =>
    rw [Stmt.ids, Part.ids_class, List.mem_append,
      FunctionDecl.idsAll_eq_flatMap, List.mem_flatMap] at hid
    rcases hid with hid | ⟨f, hf, hid⟩
    · rw [parentIds, List.mem_map] at hid
      obtain ⟨parent, hparent, rfl⟩ := hid
      exact ⟨p, parent.name, .superclass h (Option.mem_toList.1 hparent)⟩
    · exact occurs_of_mem_routine (fun _ _ _ hbody => h.member hf hbody)
        (fun s hs _ hstands => ih f hf s hs hstands) hid

theorem occurs_of_mem_ids (hid : id ∈ Stmt.idsAll program) :
    ∃ p name, Occurs program p id name := by
  rw [Stmt.idsAll_eq_flatMap, List.mem_flatMap] at hid
  obtain ⟨s, hs, hid⟩ := hid
  obtain ⟨before, after, hprogram⟩ := List.append_of_mem hs
  exact (Stands.top hprogram).occurs hid

end

/-! ## The table -/

/-- The distances of whatever is read from a source, with faults or without,
are its lexical addresses.  The entry of an occurrence is its address; an
occurrence whose name no scope around it holds keeps what the table had, and
so does every other id.  Whatever is walked, the scopes below the innermost
one, the function and the class are those from before. -/
theorem entries_eq_addresses (source : String) (firstId : Nat)
    (table : Distances) :
    let program := (Stmt.parse (Token.scan source) firstId).statements
    let entries := (resolve program table).distances
    (∀ p id name, Occurs program p id name → ∀ d,
      entries.find? id = some d ↔
        Address p.scopes name d ∨
          (∀ scope ∈ p.scopes, name ∉ scope.names) ∧
            table.find? id = some d) ∧
    (∀ id, (∀ p name, ¬ Occurs program p id name) →
      entries.find? id = table.find? id) ∧
    ∀ s st, (walk [.statement s] st).scopes.tail = st.scopes.tail ∧
      (walk [.statement s] st).body = st.body ∧
      (walk [.statement s] st).context = st.context := by
  intro program entries
  have hnamed := Token.named_scan source
  have hform := Stmt.wellFormed_parse hnamed firstId
  have hnodup := (Stmt.fresh_parse (Token.scan source) firstId).nodup
  have hentries : entries = (finalState program table).distances :=
    congrArg Resolved.distances (resolve_eq program table)
  refine ⟨?_, ?_, ?_⟩
  · intro p id name hoccurs d
    obtain ⟨walked, hmirrors, hfind⟩ :=
      hoccurs.find? table hform hnodup
    rw [hentries, hfind, Option.or_eq_some_iff, hmirrors.distance_iff,
      hmirrors.distance_eq_none]
  · intro id hnone
    refine find?_resolve fun hid => ?_
    obtain ⟨p, name, hoccurs⟩ := occurs_of_mem_ids hid
    exact hnone p name hoccurs
  · intro s st
    have heffect := effect_walkStmt s st
    rw [walk_statement]
    refine ⟨?_, heffect.body, heffect.context⟩
    rw [heffect.scopes, tail_addNames]

end Scope

end Lox
