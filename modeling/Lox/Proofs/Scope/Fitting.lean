import Lox.Proofs.Scope.Scoped

/-!
# Accepted programs fit their scopes

A walk without reports has recorded for every occurrence the distance of its
name, and each occurrence has an id of its own, so nothing of that is
overwritten later.  Hence a program that the scope rules accept fits its
scopes (`allScoped_of_accepted`).

`Accepted` is what the induction over the tree carries: what a part of the
walk, from one state to another, has to do with the ledger.
-/

namespace Lox

namespace Scope

/-! ## Places -/

/-- The walk has these scopes, and the variable that is being declared is in
the innermost one. -/
def Opened (opening : Option String) (scopes walked : List (Table Bool)) :
    Prop :=
  match opening with
  | none => walked = scopes
  | some x => Unreserved x ∧ ∃ scope outer,
    scopes = scope :: outer ∧ walked = scope.insert x false :: outer

section

variable {opening : Option String} {scopes walked : List (Table Bool)}

theorem Opened.distance_eq (h : Opened opening scopes walked) {name : String}
    (hname : opening ≠ some name) :
    distance walked name = distance scopes name := by
  cases opening with
  | none => rw [show walked = scopes from h]
  | some x =>
    obtain ⟨-, scope, outer, rfl, rfl⟩ := h
    have hne : name ≠ x := fun heq => hname (by rw [heq])
    rw [distance_cons, distance_cons, Table.contains_insert]
    simp [hne]

theorem Opened.ne_reserved (h : Opened opening scopes walked) :
    opening ≠ some Keyword.kwThis.lexeme ∧
      opening ≠ some Keyword.kwSuper.lexeme := by
  cases opening with
  | none => exact ⟨nofun, nofun⟩
  | some x =>
    obtain ⟨⟨hthis, hsuper⟩, -⟩ := h
    exact ⟨fun heq => hthis (Option.some.inj heq),
      fun heq => hsuper (Option.some.inj heq)⟩

end

theorem Opened.distance_self {x : String} {scopes walked : List (Table Bool)}
    (h : Opened (some x) scopes walked) : distance walked x = some 0 := by
  obtain ⟨-, scope, outer, rfl, rfl⟩ := h
  rw [distance_cons, Table.contains_insert]
  simp

/-! ## Parts of a walk -/

open State (Effect)

/-- A part of the walk has ended without reports, and the ledger agrees with
it on the ids of the part, of which those in `own` are assignments to a
variable in its own initializer. -/
structure Accepted (L : Ledger) (own ids : List Nat) (st st' : State) :
    Prop where
  reports : st'.reports = []
  nodup : ids.Nodup
  unset : ∀ id ∈ ids, st.distances.find? id = none
  records : ∀ id ∈ ids, L.Records id (st'.distances.find? id)
  own : ∀ id ∈ ids, (id ∈ L.own ↔ id ∈ own)

namespace Accepted

variable {L : Ledger} {own own' ids ids' : List Nat} {a b c a' b' : State}

/-- States with the same distances and reports. -/
theorem transfer (h : Accepted L own ids a b)
    (ha : ∀ id, a'.distances.find? id = a.distances.find? id)
    (hb : b'.distances = b.distances) (hreports : b'.reports = b.reports) :
    Accepted L own ids a' b' where
  reports := hreports.trans h.reports
  nodup := h.nodup
  unset := fun id hid => (ha id).trans (h.unset id hid)
  records := hb ▸ h.records
  own := h.own

/-- The order of the ids is of no matter. -/
theorem perm (h : Accepted L own ids a b) (hids : ids.Perm ids')
    (hown : own.Perm own') : Accepted L own' ids' a b where
  reports := h.reports
  nodup := hids.nodup_iff.1 h.nodup
  unset := fun id hid => h.unset id (hids.mem_iff.2 hid)
  records := fun id hid => h.records id (hids.mem_iff.2 hid)
  own := fun id hid => (h.own id (hids.mem_iff.2 hid)).trans hown.mem_iff

/-- Two parts, one after the other, that have no id in common. -/
theorem split {names names' : List String}
    (h : Accepted L (own ++ own') (ids ++ ids') a c)
    (hab : Effect names ids a b) (hbc : Effect names' ids' b c)
    (hown : own.Sublist ids) (hown' : own'.Sublist ids') :
    Accepted L own ids a b ∧ Accepted L own' ids' b c := by
  obtain ⟨hnodup, hnodup', hdisjoint⟩ := List.nodup_append.1 h.nodup
  have hleft (id : Nat) (hid : id ∈ ids) : id ∉ ids' :=
    fun hid' => hdisjoint id hid id hid' rfl
  have hright (id : Nat) (hid : id ∈ ids') : id ∉ ids :=
    fun hid' => hdisjoint id hid' id hid rfl
  constructor
  · refine ⟨hbc.reports_eq_nil h.reports, hnodup, ?_, ?_, ?_⟩
    · exact fun id hid => h.unset id (List.mem_append_left _ hid)
    · intro id hid
      rw [← hbc.distances id (hleft id hid)]
      exact h.records id (List.mem_append_left _ hid)
    · intro id hid
      rw [h.own id (List.mem_append_left _ hid), List.mem_append]
      exact or_iff_left fun hmem => hleft id hid (hown'.subset hmem)
  · refine ⟨h.reports, hnodup', ?_, ?_, ?_⟩
    · intro id hid
      rw [hab.distances id (hright id hid)]
      exact h.unset id (List.mem_append_right _ hid)
    · exact fun id hid => h.records id (List.mem_append_right _ hid)
    · intro id hid
      rw [h.own id (List.mem_append_right _ hid), List.mem_append]
      exact or_iff_right fun hmem => hright id hid (hown.subset hmem)

/-- A part that has no ids and may be passed over. -/
theorem skip {names names' : List String} (h : Accepted L own ids a c)
    (hab : Effect names [] a b) (hbc : Effect names' ids b c)
    (hown : own.Sublist ids) : Accepted L own ids b c := by
  have hboth : Accepted L ([] ++ own) ([] ++ ids) a c := h
  exact (hboth.split hab hbc (List.Sublist.refl _) hown).2

end Accepted

/-! ## Occurrences -/

theorem find?_bind {st : State} {id : Nat} {name : String}
    (h : st.distances.find? id = none) :
    (st.bind id name).distances.find? id = distance st.scopes name := by
  have hdistance : st.distance? name = distance st.scopes name := rfl
  unfold State.bind
  rw [hdistance]
  cases distance st.scopes name with
  | none => exact h
  | some d => exact (Distances.find?_record _ _ _ _).trans (if_pos rfl)

/-- A variable that is read without a report has the distance of its name,
and it is not the one that is being declared. -/
theorem records_of_read {L : Ledger} {own : List Nat} {st : State} {ref : Ref}
    (h : Accepted L own [ref.id] st (st.read ref)) :
    st.isOpen ref.name = false ∧
      L.Records ref.id (distance st.scopes ref.name) := by
  have hid := List.mem_singleton_self ref.id
  have hreports := (State.effect_bind _ ref.id ref.name).reports_eq_nil h.reports
  have hrecords := h.records ref.id hid
  cases hopen : st.isOpen ref.name with
  | true =>
    rw [hopen] at hreports
    cases hreports
  | false =>
    rw [State.read, hopen] at hrecords
    have hfind : (st.bind ref.id ref.name).distances.find? ref.id =
      distance st.scopes ref.name := find?_bind (h.unset ref.id hid)
    exact ⟨rfl, hfind ▸ hrecords⟩

theorem Opened.ne_of_isOpen {opening : Option String}
    {scopes : List (Table Bool)} {st : State}
    (h : Opened opening scopes st.scopes) {name : String}
    (hopen : st.isOpen name = false) : opening ≠ some name := by
  intro heq
  subst heq
  obtain ⟨-, scope, outer, -, hwalked⟩ := h
  rw [State.isOpen, hwalked] at hopen
  simp at hopen

/-! ## Expressions -/

/-- The walk stands in these scopes, in the initializer of `opening` if there
is one, and in a class with a superclass only where `super` is held. -/
structure Placed (opening : Option String) (scopes : List (Table Bool))
    (st : State) : Prop where
  opened : Opened opening scopes st.scopes
  context : st.context = .derived → Derived scopes

/-- What declares nothing stays in the same place. -/
theorem Placed.after {opening : Option String} {scopes : List (Table Bool)}
    {st st' : State} {ids : List Nat} (h : Placed opening scopes st)
    (heffect : Effect [] ids st st') : Placed opening scopes st' where
  opened := heffect.scopes_eq ▸ h.opened
  context := heffect.context ▸ h.context

section

variable {L : Ledger} {opening : Option String} {scopes : List (Table Bool)}

theorem allScoped_of_walkExprs {list : List Expr}
    (ih : ∀ e ∈ list, ∀ st : State, e.WellFormed → Placed opening scopes st →
      Accepted L (e.assignsTo opening) e.ids st (walkExpr e st) →
      e.Scoped L opening scopes) {st : State}
    (hform : Expr.AllWellFormed list) (hplaced : Placed opening scopes st)
    (h : Accepted L (Expr.assignsToAll opening list) (Expr.idsAll list) st
      (walkExprs list st)) :
    Expr.AllScoped L opening scopes list := by
  induction list generalizing st with
  | nil => simp only [Expr.AllScoped]
  | cons e rest ihrest =>
    obtain ⟨he, hrest⟩ := List.forall_mem_cons.1 ih
    rw [Expr.AllWellFormed] at hform
    rw [Expr.assignsToAll, Expr.idsAll, walkExprs] at h
    have heffect := effect_walkExpr e st
    have heffects := effect_walkExprs (fun e (_ : e ∈ rest) => effect_walkExpr e)
      (walkExpr e st)
    obtain ⟨hfirst, hsecond⟩ := h.split heffect heffects
      (assignsTo_sublist _ _) (assignsToAll_sublist fun e _ => assignsTo_sublist _ e)
    rw [Expr.AllScoped]
    exact ⟨he st hform.1 hplaced hfirst,
      ihrest hrest hform.2 (hplaced.after heffect) hsecond⟩

/-- The two operands of an expression. -/
theorem scoped_of_operands {left right : Expr}
    (ihleft : ∀ st : State, Placed opening scopes st →
      Accepted L (left.assignsTo opening) left.ids st (walkExpr left st) →
      left.Scoped L opening scopes)
    (ihright : ∀ st : State, Placed opening scopes st →
      Accepted L (right.assignsTo opening) right.ids st (walkExpr right st) →
      right.Scoped L opening scopes) {st : State}
    (hplaced : Placed opening scopes st)
    (h : Accepted L (left.assignsTo opening ++ right.assignsTo opening)
      (left.ids ++ right.ids) st (walkExpr right (walkExpr left st))) :
    left.Scoped L opening scopes ∧ right.Scoped L opening scopes := by
  have heffect := effect_walkExpr left st
  obtain ⟨hleft, hright⟩ := h.split heffect (effect_walkExpr right _)
    (assignsTo_sublist _ _) (assignsTo_sublist _ _)
  exact ⟨ihleft st hplaced hleft, ihright _ (hplaced.after heffect) hright⟩

theorem assigns_of_bind {st : State} {target : Ref}
    (hreserved : Unreserved target.name) (hplaced : Placed opening scopes st)
    (h : Accepted L (if opening = some target.name then [target.id] else [])
      [target.id] st (st.bind target.id target.name)) :
    L.Assigns opening scopes target := by
  have hid := List.mem_singleton_self target.id
  have hrecords := h.records target.id hid
  rw [find?_bind (h.unset target.id hid)] at hrecords
  refine ⟨hreserved, ?_, ?_⟩
  · rw [h.own target.id hid]
    split
    · next heq => simp [heq]
    · next hne => simp [hne]
  · split
    · next heq =>
      have hopened := hplaced.opened
      rw [heq] at hopened
      rw [hopened.distance_self] at hrecords
      exact hrecords
    · next hne =>
      rw [hplaced.opened.distance_eq hne] at hrecords
      exact hrecords

theorem records_of_readThis {st : State} {id line : Nat}
    (hplaced : Placed opening scopes st) {own : List Nat}
    (h : Accepted L own [id] st (st.readThis id line)) :
    L.Records id (distance scopes Keyword.kwThis.lexeme) := by
  have hid := List.mem_singleton_self id
  have hrecords := h.records id hid
  have hreports := h.reports
  unfold State.readThis at hrecords hreports
  split at hreports
  · cases hreports
  · next hinside =>
    rw [if_neg hinside, find?_bind (h.unset id hid),
      hplaced.opened.distance_eq hplaced.opened.ne_reserved.1] at hrecords
    exact hrecords

theorem records_of_readSuper {st : State} {id line : Nat}
    (hplaced : Placed opening scopes st) {own : List Nat}
    (h : Accepted L own [id] st (st.readSuper id line)) :
    L.Records id (distance scopes Keyword.kwSuper.lexeme) ∧ Derived scopes := by
  have hid := List.mem_singleton_self id
  have hrecords := h.records id hid
  have hreports := h.reports
  unfold State.readSuper at hrecords hreports
  cases hfault : st.superFault? with
  | some f =>
    rw [hfault] at hreports
    have hnil := (State.effect_bind _ id _).reports_eq_nil hreports
    cases hnil
  | none =>
    simp only [hfault] at hrecords
    rw [find?_bind (h.unset id hid),
      hplaced.opened.distance_eq hplaced.opened.ne_reserved.2] at hrecords
    refine ⟨hrecords, hplaced.context ?_⟩
    unfold State.superFault? at hfault
    split at hfault
    · cases hfault
    · cases hfault
    · next hcontext => exact hcontext

theorem scoped_of_walkExpr {e : Expr} (hform : e.WellFormed) {st : State}
    (hplaced : Placed opening scopes st)
    (h : Accepted L (e.assignsTo opening) e.ids st (walkExpr e st)) :
    e.Scoped L opening scopes := by
  induction e generalizing st with
  | literal => simp only [Expr.Scoped]
  | group _ ih | unary _ _ _ ih | get _ _ ih =>
    rw [Expr.WellFormed] at hform
    rw [Expr.assignsTo, Expr.ids, walkExpr] at h
    rw [Expr.Scoped]
    exact ih hform hplaced h
  | binary _ _ _ _ ihleft ihright | logical _ _ _ _ ihleft ihright =>
    rw [Expr.WellFormed] at hform
    rw [Expr.assignsTo, Expr.ids, walkExpr] at h
    rw [Expr.Scoped]
    exact scoped_of_operands (fun _ => ihleft hform.1) (fun _ => ihright hform.2)
      hplaced h
  | occurrence ref =>
    rw [Expr.ids, walkExpr] at h
    obtain ⟨hopen, hrecords⟩ := records_of_read h
    rw [hplaced.opened.distance_eq (hplaced.opened.ne_of_isOpen hopen)] at hrecords
    rw [Expr.Scoped]
    exact hrecords
  | assign target value ih =>
    rw [Expr.WellFormed] at hform
    rw [Expr.assignsTo, Expr.ids, walkExpr] at h
    have heffect := effect_walkExpr value st
    obtain ⟨hvalue, htarget⟩ := h.split heffect (State.effect_bind _ _ _)
      (assignsTo_sublist _ _) (by split <;> simp)
    rw [Expr.Scoped]
    exact ⟨ih hform.2 hplaced hvalue,
      assigns_of_bind hform.1 (hplaced.after heffect) htarget⟩
  | call callee line arguments ihcallee iharguments =>
    rw [Expr.WellFormed] at hform
    rw [Expr.assignsTo, Expr.ids, walkExpr] at h
    have heffect := effect_walkExpr callee st
    have heffects := effect_walkExprs
      (fun e (_ : e ∈ arguments) => effect_walkExpr e) (walkExpr callee st)
    obtain ⟨hcallee, harguments⟩ := h.split heffect heffects
      (assignsTo_sublist _ _) (assignsToAll_sublist fun e _ => assignsTo_sublist _ e)
    rw [Expr.Scoped]
    exact ⟨ihcallee hform.1 hplaced hcallee,
      allScoped_of_walkExprs (fun e he st hform => iharguments e he hform)
        hform.2 (hplaced.after heffect) harguments⟩
  | set object name value ihobject ihvalue =>
    -- The value is walked before the object.
    rw [Expr.WellFormed] at hform
    rw [Expr.assignsTo, Expr.ids, walkExpr] at h
    have hswapped := h.perm List.perm_append_comm List.perm_append_comm
    rw [Expr.Scoped]
    exact (scoped_of_operands (fun _ => ihvalue hform.2)
      (fun _ => ihobject hform.1) hplaced hswapped).symm
  | this id line =>
    rw [Expr.ids, walkExpr] at h
    rw [Expr.Scoped]
    exact records_of_readThis hplaced h
  | super id line method =>
    rw [Expr.ids, walkExpr] at h
    obtain ⟨hrecords, hderived⟩ := records_of_readSuper hplaced h
    rw [Expr.Scoped]
    exact ⟨hrecords, .inl hderived⟩

theorem optionScoped_of_walkOption {e : Option Expr}
    (hform : Expr.OptionWellFormed e) {st : State}
    (hplaced : Placed opening scopes st)
    (h : Accepted L (Expr.assignsToOption opening e) (Expr.idsOption e) st
      (walkOption e st)) :
    Expr.OptionScoped L opening scopes e := by
  cases e with
  | none => trivial
  | some e => exact scoped_of_walkExpr hform hplaced h

end

/-! ## Statements -/

/-- No name that a well-formed statement declares is reserved. -/
theorem unreserved_declared {s : Stmt} (hform : s.WellFormed) :
    ∀ name ∈ s.declared, Unreserved name := by
  cases s with
  | var x initializer =>
    rw [Stmt.WellFormed] at hform
    simp only [Stmt.declared, List.mem_singleton, forall_eq]
    exact hform.1
  | function f =>
    rw [Stmt.WellFormed] at hform
    simp only [Stmt.declared, List.mem_singleton, forall_eq]
    exact hform.1
  | «class» c =>
    obtain ⟨name, superclass, methods⟩ := c
    rw [Stmt.WellFormed, ClassDecl.WellFormed] at hform
    simp only [Stmt.declared, List.mem_singleton, forall_eq]
    exact hform.1
  | ifElse condition thenBranch elseBranch =>
    cases elseBranch with
    | none =>
      rw [Stmt.WellFormed] at hform
      simp [Stmt.declared, hform.2.1]
    | some elseBranch =>
      rw [Stmt.WellFormed] at hform
      simp [Stmt.declared, hform.2.1.1, hform.2.2.1]
  | «while» condition body =>
    rw [Stmt.WellFormed] at hform
    simp [Stmt.declared, hform.2.1]
  | _ => simp [Stmt.declared]

/-- Whether there is a scope, so that variables are local. -/
def isInner (scopes : List (Table Bool)) : Bool :=
  !scopes.isEmpty

@[simp] theorem isInner_addNames (names : List String)
    (scopes : List (Table Bool)) :
    isInner (addNames names scopes) = isInner scopes := by
  cases scopes <;> rfl

theorem ownAssigns_var (x : Ident) (initializer : Option Expr)
    (scopes : List (Table Bool)) :
    Stmt.ownAssigns (.var x initializer) (isInner scopes) =
      Expr.assignsToOption (opening scopes x.name) initializer := by
  cases scopes with
  | nil =>
    rw [opening, assignsToOption_none]
    cases initializer <;> rfl
  | cons scope outer => cases initializer <;> rfl

/-- The state at the start of a statement. -/
abbrev Standing (st : State) : Prop :=
  Placed none st.scopes st

section

variable {L : Ledger}

/-- A declaration without a report is of a name that is new, and what comes
behind it is walked with the name opened. -/
theorem placed_declare {st : State} {x : Ident} (hx : Unreserved x.name)
    (hst : Standing st) (h : (st.declare x).reports = []) :
    Free st.scopes x.name ∧
      Placed (opening st.scopes x.name) st.scopes (st.declare x) := by
  have hcontext := hst.context
  cases hscopes : st.scopes with
  | nil =>
    have hdeclare : st.declare x = st := by rw [State.declare, hscopes]
    rw [hdeclare]
    exact ⟨nofun, hscopes, hscopes ▸ hcontext⟩
  | cons scope outer =>
    simp only [State.declare, hscopes] at h ⊢
    rw [hscopes] at hcontext
    by_cases hcontains : scope.contains x.name
    · simp only [hcontains, if_true] at h
      cases h
    · simp only [hcontains, Bool.false_eq_true, if_false]
      refine ⟨?_, ⟨hx, scope, outer, rfl, rfl⟩, hcontext⟩
      simpa [Free] using hcontains

theorem Standing.after {st st' : State} {names : List String} {ids : List Nat}
    (h : Standing st) (heffect : Effect names ids st st')
    (hnames : ∀ name ∈ names, Unreserved name) : Standing st' where
  opened := rfl
  context := by
    intro hcontext
    rw [heffect.scopes]
    exact (h.context (heffect.context ▸ hcontext)).addNames hnames

/-- The statement fits the scopes wherever a walk accepts it. -/
def FitsWalk (L : Ledger) (s : Stmt) : Prop :=
  ∀ st : State, s.WellFormed → Standing st →
    Accepted L (s.ownAssigns (isInner st.scopes)) s.ids st (walkStmt s st) →
    s.Scoped L st.scopes

theorem allScoped_of_walkStmts {list : List Stmt}
    (ih : ∀ s ∈ list, FitsWalk L s) {st : State}
    (hform : Stmt.AllWellFormed list) (hst : Standing st)
    (h : Accepted L (Stmt.ownAssignsAll list (isInner st.scopes))
      (Stmt.idsAll list) st (walkStmts list st)) :
    Stmt.AllScoped L list st.scopes := by
  induction list generalizing st with
  | nil => simp only [Stmt.AllScoped]
  | cons s rest ihrest =>
    obtain ⟨hs, hrest⟩ := List.forall_mem_cons.1 ih
    rw [Stmt.AllWellFormed] at hform
    rw [Stmt.ownAssignsAll, Stmt.idsAll, walkStmts] at h
    have heffect := effect_walkStmt s st
    obtain ⟨hfirst, hsecond⟩ := h.split heffect (effect_walkStmts rest _)
      (ownAssigns_sublist s _)
      (ownAssigns_stmts_sublist rest _)
    have hlater : isInner (walkStmt s st).scopes = isInner st.scopes := by
      rw [heffect.scopes, isInner_addNames]
    rw [← hlater] at hsecond
    rw [Stmt.AllScoped, ← heffect.scopes]
    exact ⟨hs st hform.1 hst hfirst, ihrest hrest hform.2
      (hst.after heffect (unreserved_declared hform.1)) hsecond⟩

theorem scoped_of_walkRoutine {f : FunctionDecl}
    (ih : ∀ s ∈ f.body, FitsWalk L s) (hform : f.WellFormed) (body : Body)
    {st : State} (hst : Standing st)
    (h : Accepted L f.ownAssigns f.ids st (walkRoutine f body st)) :
    f.Scoped L st.scopes := by
  obtain ⟨name, params, statements, kind⟩ := f
  rw [FunctionDecl.WellFormed] at hform
  rw [FunctionDecl.ownAssigns, FunctionDecl.ids, walkRoutine] at h
  let entered : State := ({ st with body := body } : State).enter []
  let inner := entered.parameters params
  have hentered : Standing entered :=
    ⟨rfl, fun hcontext => (hst.context hcontext).cons_empty⟩
  have hnames : ∀ name ∈ params.map Ident.name, Unreserved name := by
    intro name hname
    obtain ⟨x, hx, rfl⟩ := List.mem_map.1 hname
    exact hform.1 x hx
  have hparams : Effect (params.map Ident.name) [] entered inner :=
    State.effect_parameters entered params
  have hwalked : Accepted L (Stmt.ownAssignsAll statements true)
      (Stmt.idsAll statements) entered (walkStmts statements inner) :=
    h.transfer (fun _ => rfl) rfl rfl
  have hinner := hwalked.skip hparams (effect_walkStmts statements inner)
    (ownAssigns_stmts_sublist statements true)
  have hscopes : inner.scopes =
      addNames (params.map Ident.name) (.empty :: st.scopes) := hparams.scopes
  have htrue : isInner inner.scopes = true := by
    rw [hscopes]
    rfl
  rw [← htrue] at hinner
  rw [FunctionDecl.Scoped, ← hscopes]
  exact ⟨hform.1, allScoped_of_walkStmts ih hform.2
    (hentered.after hparams hnames) hinner⟩

theorem allScoped_of_walkMembers {list : List FunctionDecl}
    (ih : ∀ f ∈ list, ∀ s ∈ f.body, FitsWalk L s)
    (hform : FunctionDecl.AllWellFormed list) {st : State} (hst : Standing st)
    (h : Accepted L (FunctionDecl.ownAssignsAll list)
      (FunctionDecl.idsAll list) st (walkMembers list st)) :
    FunctionDecl.AllScoped L list st.scopes := by
  induction list generalizing st with
  | nil => simp only [FunctionDecl.AllScoped]
  | cons f rest ihrest =>
    obtain ⟨hf, hrest⟩ := List.forall_mem_cons.1 ih
    rw [FunctionDecl.AllWellFormed] at hform
    rw [FunctionDecl.ownAssignsAll, FunctionDecl.idsAll, walkMembers] at h
    have heffect := effect_walkRoutine_of (fun s (_ : s ∈ f.body) =>
      effect_walkStmt s) (.ofMember f) st
    have heffects := effect_walkMembers_of (fun g (_ : g ∈ rest) s _ =>
      effect_walkStmt s) (walkRoutine f (.ofMember f) st)
    obtain ⟨hfirst, hsecond⟩ := h.split heffect heffects
      (ownAssigns_routine_sublist f) (ownAssigns_members_sublist rest)
    have hlater := ihrest hrest hform.2
      (hst.after heffect fun _ hname => absurd hname List.not_mem_nil) hsecond
    rw [heffect.scopes_eq] at hlater
    rw [FunctionDecl.AllScoped]
    exact ⟨scoped_of_walkRoutine hf hform.1 _ hst hfirst, hlater⟩

theorem scoped_of_base {name : Ident} {methods : List FunctionDecl}
    (ih : ∀ f ∈ methods, ∀ s ∈ f.body, FitsWalk L s)
    (hname : Unreserved name.name)
    (hmethods : FunctionDecl.AllWellFormed methods) {st : State}
    (h : Accepted L (ClassDecl.ownAssigns ⟨name, none, methods⟩)
      (ClassDecl.ids ⟨name, none, methods⟩) st
      (walkClass ⟨name, none, methods⟩ st)) :
    ClassDecl.Scoped L ⟨name, none, methods⟩ st.scopes := by
  rw [ClassDecl.ownAssigns, ClassDecl.ids, walkClass] at h
  let based : State := { st with context := .base }
  let named := (based.declare name).define name
  let entered := named.enter [Keyword.kwThis.lexeme]
  have hnamed : Effect [name.name] [] based named :=
    State.effect_declare_define based name
  have hmembers := effect_walkMembers_of (fun f (_ : f ∈ methods) s _ =>
    effect_walkStmt s) entered
  have hwalked : Accepted L (FunctionDecl.ownAssignsAll methods)
      (FunctionDecl.idsAll methods) based
      (walkMembers methods entered).leave :=
    h.transfer (fun _ => rfl) rfl rfl
  have hentered : Accepted L (FunctionDecl.ownAssignsAll methods)
      (FunctionDecl.idsAll methods) entered (walkMembers methods entered) :=
    (hwalked.skip hnamed hmembers.enclosed
      (ownAssigns_members_sublist methods)).transfer (fun _ => rfl) rfl rfl
  have hscopes : entered.scopes =
      thisScope :: addNames [name.name] st.scopes :=
    congrArg (thisScope :: ·) hnamed.scopes
  have hstanding : Standing entered := by
    refine ⟨rfl, fun hcontext => ?_⟩
    have hbase : entered.context = .base := hnamed.context
    rw [hbase] at hcontext
    cases hcontext
  rw [ClassDecl.Scoped, ← hscopes]
  exact ⟨hname, allScoped_of_walkMembers ih hmethods hstanding hentered⟩

/-- Between its name and its members, a class with a superclass checks that it
does not inherit from itself and reads the superclass. -/
theorem scoped_of_derived {name : Ident} {parent : Ref}
    {methods : List FunctionDecl}
    (ih : ∀ f ∈ methods, ∀ s ∈ f.body, FitsWalk L s)
    (hname : Unreserved name.name)
    (hmethods : FunctionDecl.AllWellFormed methods) {st : State}
    (h : Accepted L (ClassDecl.ownAssigns ⟨name, some parent, methods⟩)
      (ClassDecl.ids ⟨name, some parent, methods⟩) st
      (walkClass ⟨name, some parent, methods⟩ st)) :
    ClassDecl.Scoped L ⟨name, some parent, methods⟩ st.scopes := by
  rw [ClassDecl.ownAssigns, ClassDecl.ids, walkClass] at h
  let based : State := { st with context := .derived }
  let named := (based.declare name).define name
  let checked := named.reportIf (parent.name == name.name) parent.line
    parent.name .inheritsItself
  let inherited := checked.read parent
  let entered := (inherited.enter [Keyword.kwSuper.lexeme]).enter
    [Keyword.kwThis.lexeme]
  have hsublist := ownAssigns_members_sublist methods
  have hnamed : Effect [name.name] [] based named :=
    State.effect_declare_define based name
  have hchecked : Effect [] [] named checked :=
    State.effect_reportIf named _ _ _ _
  have hread : Effect [] [parent.id] checked inherited :=
    State.effect_read checked parent
  have hmembers := effect_walkMembers_of (fun f (_ : f ∈ methods) s _ =>
    effect_walkStmt s) entered
  have hwalked : Accepted L ([] ++ FunctionDecl.ownAssignsAll methods)
      ([parent.id] ++ FunctionDecl.idsAll methods) based
      (walkMembers methods entered).leave.leave :=
    h.transfer (fun _ => rfl) rfl rfl
  have hrest := hread.trans hmembers.enclosed.enclosed
  have hbehind := (hwalked.skip hnamed (hchecked.trans hrest)
    (hsublist.cons _)).skip hchecked hrest (hsublist.cons _)
  obtain ⟨hparent, hinherited⟩ := hbehind.split hread
    hmembers.enclosed.enclosed (List.nil_sublist _) hsublist
  have hentered : Accepted L (FunctionDecl.ownAssignsAll methods)
      (FunctionDecl.idsAll methods) entered (walkMembers methods entered) :=
    hinherited.transfer (fun _ => rfl) rfl rfl
  have hchecked_scopes : checked.scopes = addNames [name.name] st.scopes := by
    rw [hchecked.scopes_eq, hnamed.scopes]
  have hscopes : entered.scopes =
      thisScope :: superScope :: addNames [name.name] st.scopes := by
    show thisScope :: superScope :: inherited.scopes = _
    rw [hread.scopes_eq, hchecked_scopes]
  have hstanding : Standing entered := by
    refine ⟨rfl, fun _ => ?_⟩
    rw [hscopes]
    exact derived_members _
  have hrecords := (records_of_read hparent).2
  rw [hchecked_scopes] at hrecords
  rw [ClassDecl.Scoped, ← hscopes]
  exact ⟨hname, hrecords,
    allScoped_of_walkMembers ih hmethods hstanding hentered⟩

/-- A condition and what is walked behind it. -/
theorem scoped_of_condition {condition : Expr} (hform : condition.WellFormed)
    {st st' : State} (hst : Standing st) {names : List String}
    {own ids : List Nat}
    (hrest : Effect names ids (walkExpr condition st) st')
    (hown : own.Sublist ids)
    (h : Accepted L own (condition.ids ++ ids) st st') :
    condition.Scoped L none st.scopes ∧ Standing (walkExpr condition st) ∧
      (walkExpr condition st).scopes = st.scopes ∧
      Accepted L own ids (walkExpr condition st) st' := by
  have hcondition := effect_walkExpr condition st
  have hboth : Accepted L (condition.assignsTo none ++ own)
      (condition.ids ++ ids) st st' := by
    rw [assignsTo_none]
    exact h
  obtain ⟨hfirst, hsecond⟩ := hboth.split hcondition hrest
    (assignsTo_sublist _ _) hown
  exact ⟨scoped_of_walkExpr hform hst hfirst,
    hst.after hcondition fun _ hname => absurd hname List.not_mem_nil,
    hcondition.scopes_eq, hsecond⟩

/-- A declaration changes the scopes only until its variable has a value. -/
theorem scoped_of_var {x : Ident} {initializer : Option Expr}
    (hx : Unreserved x.name) (hform : Expr.OptionWellFormed initializer)
    {st : State} (hst : Standing st)
    (h : Accepted L (Expr.assignsToOption (opening st.scopes x.name) initializer)
      (Expr.idsOption initializer) st
      ((walkOption initializer (st.declare x)).define x)) :
    Stmt.Scoped L (.var x initializer) st.scopes := by
  have hdeclare (id : Nat) :
      (st.declare x).distances.find? id = st.distances.find? id := by
    unfold State.declare
    split
    · rfl
    · split <;> rfl
  have hdefine (st : State) : st.distances = (st.define x).distances ∧
      st.reports = (st.define x).reports := by
    unfold State.define
    split <;> exact ⟨rfl, rfl⟩
  have hwalked := h.transfer hdeclare (hdefine _).1 (hdefine _).2
  have hreports := (effect_walkOption initializer _).reports_eq_nil
    hwalked.reports
  obtain ⟨hfree, hplaced⟩ := placed_declare hx hst hreports
  rw [Stmt.Scoped]
  exact ⟨hx, hfree, optionScoped_of_walkOption hform hplaced hwalked⟩

/-- Two branches, of which the first declares nothing, are walked in the same
scopes. -/
theorem scoped_of_branches {thenBranch elseBranch : Stmt}
    (ihthen : FitsWalk L thenBranch) (ihelse : FitsWalk L elseBranch)
    (hdeclared : thenBranch.declared = []) (hthen : thenBranch.WellFormed)
    (helse : elseBranch.WellFormed) {st : State} (hst : Standing st)
    (h : Accepted L (thenBranch.ownAssigns (isInner st.scopes) ++
        elseBranch.ownAssigns (isInner st.scopes))
      (thenBranch.ids ++ elseBranch.ids) st
      (walkStmt elseBranch (walkStmt thenBranch st))) :
    thenBranch.Scoped L st.scopes ∧ elseBranch.Scoped L st.scopes := by
  have heffect := effect_walkStmt thenBranch st
  obtain ⟨hfirst, hsecond⟩ := h.split heffect (effect_walkStmt elseBranch _)
    (ownAssigns_sublist _ _) (ownAssigns_sublist _ _)
  rw [hdeclared] at heffect
  have hafter := hst.after heffect fun _ hname => absurd hname List.not_mem_nil
  rw [← heffect.scopes_eq] at hsecond
  have hother := ihelse _ helse hafter hsecond
  rw [heffect.scopes_eq] at hother
  exact ⟨ihthen st hthen hst hfirst, hother⟩

theorem fitsWalk (L : Ledger) (s : Stmt) : FitsWalk L s := by
  induction s with
  | expression e | print e =>
    intro st hform hst h
    rw [Stmt.WellFormed] at hform
    rw [Stmt.ownAssigns, ← assignsTo_none e, Stmt.ids, walkStmt] at h
    rw [Stmt.Scoped]
    exact scoped_of_walkExpr hform hst h
  | var x initializer =>
    intro st hform hst h
    rw [Stmt.WellFormed] at hform
    rw [ownAssigns_var, Stmt.ids, walkStmt] at h
    exact scoped_of_var hform.1 hform.2 hst h
  | block body ih =>
    intro st hform hst h
    rw [Stmt.WellFormed] at hform
    rw [Stmt.ownAssigns, Stmt.ids, walkStmt] at h
    have hentered : Standing (st.enter []) :=
      ⟨rfl, fun hcontext => (hst.context hcontext).cons_empty⟩
    have hwalked : Accepted L (Stmt.ownAssignsAll body true) (Stmt.idsAll body)
        (st.enter []) (walkStmts body (st.enter [])) :=
      h.transfer (fun _ => rfl) rfl rfl
    rw [Stmt.Scoped]
    exact allScoped_of_walkStmts ih hform hentered hwalked
  | ifElse condition thenBranch elseBranch ihthen ihelse =>
    intro st hform hst h
    cases elseBranch with
    | none =>
      rw [Stmt.WellFormed] at hform
      rw [Stmt.ownAssigns, Stmt.ids, walkStmt] at h
      obtain ⟨hcondition, hstanding, hscopes, hthen⟩ := scoped_of_condition
        hform.1 hst (effect_walkStmt thenBranch _) (ownAssigns_sublist _ _) h
      rw [← hscopes] at hthen
      have hbranch := ihthen _ hform.2.2 hstanding hthen
      rw [hscopes] at hbranch
      rw [Stmt.Scoped]
      exact ⟨hcondition, hform.2.1, hbranch⟩
    | some elseBranch =>
      rw [Stmt.WellFormed] at hform
      rw [Stmt.ownAssigns, Stmt.ids, walkStmt] at h
      have hboth := (effect_walkStmt thenBranch (walkExpr condition st)).trans
        (effect_walkStmt elseBranch _)
      obtain ⟨hcondition, hstanding, hscopes, hwalked⟩ := scoped_of_condition
        hform.1 hst hboth
        ((ownAssigns_sublist _ _).append (ownAssigns_sublist _ _)) h
      rw [← hscopes] at hwalked
      have hbranches := scoped_of_branches ihthen (ihelse elseBranch rfl)
        hform.2.1.1 hform.2.1.2 hform.2.2.2 hstanding hwalked
      rw [hscopes] at hbranches
      rw [Stmt.Scoped]
      exact ⟨hcondition, ⟨hform.2.1.1, hbranches.1⟩, hform.2.2.1, hbranches.2⟩
  | loop condition body ih =>
    intro st hform hst h
    rw [Stmt.WellFormed] at hform
    rw [Stmt.ownAssigns, Stmt.ids, walkStmt] at h
    obtain ⟨hcondition, hstanding, hscopes, hbody⟩ := scoped_of_condition
      hform.1 hst (effect_walkStmt body _) (ownAssigns_sublist _ _) h
    rw [← hscopes] at hbody
    have hscoped := ih _ hform.2.2 hstanding hbody
    rw [hscopes] at hscoped
    rw [Stmt.Scoped]
    exact ⟨hcondition, hform.2.1, hscoped⟩
  | function f ih =>
    intro st hform hst h
    rw [Stmt.WellFormed] at hform
    rw [Stmt.ownAssigns, Stmt.ids, walkStmt] at h
    have hnamed := State.effect_declare_define st f.name
    have hbody := effect_walkRoutine_of (fun s (_ : s ∈ f.body) =>
      effect_walkStmt s) .function ((st.declare f.name).define f.name)
    have hwalked := h.skip hnamed hbody (ownAssigns_routine_sublist f)
    have hstanding := hst.after hnamed (by simpa using hform.1)
    rw [Stmt.Scoped, ← hnamed.scopes]
    exact ⟨hform.1, FunctionDecl.isInitializer_of_function hform.2.1,
      scoped_of_walkRoutine ih hform.2.2 _ hstanding hwalked⟩
  | giveBack line value =>
    intro st hform hst h
    rw [Stmt.WellFormed] at hform
    rw [Stmt.ownAssigns, ← assignsToOption_none value, Stmt.ids, walkStmt] at h
    have hcheck := st.effect_checkReturn line value.isSome
    have hvalue := h.skip hcheck (effect_walkOption value _)
      (by simp [assignsToOption_none])
    rw [Stmt.Scoped, ← hcheck.scopes_eq]
    exact optionScoped_of_walkOption hform
      (hst.after hcheck fun _ hname => absurd hname List.not_mem_nil) hvalue
  | cls c ih =>
    intro st hform hst h
    obtain ⟨name, superclass, methods⟩ := c
    rw [Stmt.WellFormed, ClassDecl.WellFormed] at hform
    rw [Stmt.ownAssigns, Stmt.ids, walkStmt] at h
    rw [Stmt.Scoped]
    cases superclass with
    | none => exact scoped_of_base ih hform.1 hform.2 h
    | some parent => exact scoped_of_derived ih hform.1 hform.2 h

end

/-! ## Whole sources -/

/-- A program that the scope rules accept fits the top level. -/
theorem allScoped_of_accepted {L : Ledger} {program : List Stmt}
    {distances : Distances} (hform : Stmt.AllWellFormed program)
    (haccepted : (resolve program distances).diagnostics = [])
    (hnodup : (Stmt.idsAll program).Nodup)
    (hunset : ∀ id ∈ Stmt.idsAll program, distances.find? id = none)
    (hrecords : ∀ id ∈ Stmt.idsAll program,
      L.Records id ((resolve program distances).distances.find? id))
    (hown : ∀ id ∈ Stmt.idsAll program,
      (id ∈ L.own ↔ id ∈ Stmt.ownAssignsAll program false)) :
    Stmt.AllScoped L program [] := by
  rw [resolve_eq] at haccepted hrecords
  have hstanding : Standing (.start distances) := ⟨rfl, nofun⟩
  exact allScoped_of_walkStmts (fun s _ => fitsWalk L s) hform hstanding
    ⟨List.reverse_eq_nil_iff.1 haccepted, hnodup, hunset, hrecords, hown⟩

/-- The scope rules have not been applied to the ids. -/
structure Unresolved (L : Ledger) (ids : List Nat) : Prop where
  records : ∀ id ∈ ids, L.Records id none
  own : ∀ id ∈ ids, id ∉ L.own
  ran : ∀ id ∈ ids, id ∉ L.ran

theorem Unresolved.left {L : Ledger} {ids ids' : List Nat}
    (h : Unresolved L (ids ++ ids')) : Unresolved L ids where
  records := fun id hid => h.records id (List.mem_append_left _ hid)
  own := fun id hid => h.own id (List.mem_append_left _ hid)
  ran := fun id hid => h.ran id (List.mem_append_left _ hid)

theorem Unresolved.right {L : Ledger} {ids ids' : List Nat}
    (h : Unresolved L (ids ++ ids')) : Unresolved L ids' where
  records := fun id hid => h.records id (List.mem_append_right _ hid)
  own := fun id hid => h.own id (List.mem_append_right _ hid)
  ran := fun id hid => h.ran id (List.mem_append_right _ hid)

theorem allScoped_of_unresolved {L : Ledger} {list : List Expr}
    (ih : ∀ e ∈ list, e.WellFormed → Unresolved L e.ids → e.Scoped L none [])
    (hform : Expr.AllWellFormed list) (h : Unresolved L (Expr.idsAll list)) :
    Expr.AllScoped L none [] list := by
  induction list with
  | nil => simp only [Expr.AllScoped]
  | cons e rest ihrest =>
    obtain ⟨he, hrest⟩ := List.forall_mem_cons.1 ih
    rw [Expr.AllWellFormed] at hform
    rw [Expr.idsAll] at h
    rw [Expr.AllScoped]
    exact ⟨he hform.1 h.left, ihrest hrest hform.2 h.right⟩

/-- An expression to which the scope rules have not been applied fits the top
level. -/
theorem scoped_of_unresolved {L : Ledger} {e : Expr} (hform : e.WellFormed)
    (h : Unresolved L e.ids) : e.Scoped L none [] := by
  induction e with
  | literal => simp only [Expr.Scoped]
  | group _ ih | unary _ _ _ ih | get _ _ ih =>
    rw [Expr.WellFormed] at hform
    rw [Expr.ids] at h
    rw [Expr.Scoped]
    exact ih hform h
  | binary _ _ _ _ ihleft ihright | logical _ _ _ _ ihleft ihright
  | set _ _ _ ihleft ihright =>
    rw [Expr.WellFormed] at hform
    rw [Expr.ids] at h
    rw [Expr.Scoped]
    exact ⟨ihleft hform.1 h.left, ihright hform.2 h.right⟩
  | occurrence ref =>
    rw [Expr.ids] at h
    rw [Expr.Scoped]
    exact h.records ref.id (List.mem_singleton_self _)
  | assign target value ih =>
    rw [Expr.WellFormed] at hform
    rw [Expr.ids] at h
    have hid := List.mem_singleton_self target.id
    rw [Expr.Scoped]
    refine ⟨ih hform.2 h.left, hform.1, ?_, ?_⟩
    · exact iff_of_false (h.right.own _ hid) (by rintro ⟨⟩)
    · rw [if_neg (by rintro ⟨⟩)]
      exact h.right.records _ hid
  | call callee line arguments ihcallee iharguments =>
    rw [Expr.WellFormed] at hform
    rw [Expr.ids] at h
    rw [Expr.Scoped]
    exact ⟨ihcallee hform.1 h.left,
      allScoped_of_unresolved iharguments hform.2 h.right⟩
  | this id line =>
    rw [Expr.ids] at h
    rw [Expr.Scoped]
    exact h.records id (List.mem_singleton_self _)
  | super id line method =>
    rw [Expr.ids] at h
    have hid := List.mem_singleton_self id
    rw [Expr.Scoped]
    exact ⟨h.records id hid, .inr ⟨rfl, h.ran id hid⟩⟩

end Scope

end Lox
