import Mathlib.Data.List.Nodup
import Mathlib.Data.List.Pairwise
import Lox.Proofs.Scope.Supers

/-!
# Homes

Code stands in a method if a member of a class is around it, with blocks and
functions between them, but no other class.  Its home says which member of
which class that is, and how many frames lie inside the frame of the body of
the member.  `Stmt.sites` pairs each expression of a statement with its home.

The seat of an expression, which the scope rules look at, can be read off its
home (`seats_of_sites`).
-/

namespace Lox

/-- How many frames lie inside the frame of the body of a member, the class of
the member and the member itself; or that there is none around the code. -/
abbrev Home := Option (Nat × ClassDecl × FunctionDecl)

namespace Home

/-- The home of code one frame further in. -/
def inner (home : Home) : Home :=
  home.map fun x => (x.1 + 1, x.2)

/-- The home of the body of a member. -/
def body (c : ClassDecl) (f : FunctionDecl) : Home :=
  some (0, c, f)

/-- The number of frames that lie inside the frame of `this`, if the class has
a superclass. -/
def seat (home : Home) : Option Nat :=
  home.bind fun x => x.2.1.superclass.map fun _ => x.1 + 1

theorem seat_inner (home : Home) : home.inner.seat = home.seat.map (· + 1) := by
  cases home with
  | none => rfl
  | some x => simp [inner, seat, Function.comp_def]

theorem seat_eq_some {home : Home} {k : Nat} :
    home.seat = some k ↔
      ∃ j c f parent, home = some (j, c, f) ∧ c.superclass = some parent ∧
        k = j + 1 := by
  constructor
  · intro h
    obtain ⟨⟨j, c, f⟩, rfl, hmap⟩ := Option.bind_eq_some_iff.1 h
    obtain ⟨parent, hparent, rfl⟩ := Option.map_eq_some_iff.1 hmap
    exact ⟨j, c, f, parent, rfl, hparent, rfl⟩
  · rintro ⟨j, c, f, parent, rfl, hparent, rfl⟩
    simp [seat, hparent]

end Home

/-! ## Occurrences of `super` in an expression -/

section

variable {left right : Expr} {line : Nat}

@[simp] theorem Expr.supers_group : (group right).supers = right.supers :=
  rfl

@[simp] theorem Expr.supers_unary {op : UnaryOp} :
    (unary op line right).supers = right.supers :=
  rfl

@[simp] theorem Expr.supers_binary {op : BinaryOp} :
    (binary left op line right).supers = left.supers ++ right.supers :=
  List.filterMap_append

@[simp] theorem Expr.supers_logical {op : LogicalOp} :
    (logical left op line right).supers = left.supers ++ right.supers :=
  List.filterMap_append

@[simp] theorem Expr.supers_assign {target : Ref} :
    (assign target right).supers = right.supers :=
  rfl

@[simp] theorem Expr.supers_call {arguments : List Expr} :
    (call left line arguments).supers =
      left.supers ++ arguments.flatMap supers := by
  have hall : (partsAll arguments).filterMap superId? =
      arguments.flatMap supers := by
    induction arguments with
    | nil => rfl
    | cons a rest ih =>
      rw [partsAll, List.filterMap_append, ih, List.flatMap_cons]
      rfl
  rw [← hall]
  exact List.filterMap_append

@[simp] theorem Expr.supers_get {name : Ident} :
    (get right name).supers = right.supers :=
  rfl

@[simp] theorem Expr.supers_set {name : Ident} :
    (set left name right).supers = left.supers ++ right.supers :=
  List.filterMap_append

end

/-! ## Sites -/

mutual

/-- The expressions that the statement evaluates itself or in the code it
declares, each with its home. -/
def Stmt.sites : Stmt → Home → List (Expr × Home)
  | .expression e, home => [(e, home)]
  | .print e, home => [(e, home)]
  | .var _ initializer, home => initializer.toList.map (·, home)
  | .block body, home => Stmt.sitesAll body home.inner
  | .ifElse condition thenBranch none, home =>
    (condition, home) :: thenBranch.sites home
  | .ifElse condition thenBranch (some elseBranch), home =>
    (condition, home) :: (thenBranch.sites home ++ elseBranch.sites home)
  | .while condition body, home => (condition, home) :: body.sites home
  | .function f, home => f.sites home.inner
  | .return _ value, home => value.toList.map (·, home)
  | .class c, _ => c.sites

/-- The same of some statements. -/
def Stmt.sitesAll : List Stmt → Home → List (Expr × Home)
  | [], _ => []
  | s :: rest, home => s.sites home ++ Stmt.sitesAll rest home

/-- The same of a function whose body has the home. -/
def FunctionDecl.sites : FunctionDecl → Home → List (Expr × Home)
  | ⟨_, _, body, _⟩, home => Stmt.sitesAll body home

/-- The same of members of a class. -/
def FunctionDecl.memberSites : List FunctionDecl → ClassDecl →
    List (Expr × Home)
  | [], _ => []
  | f :: rest, c => f.sites (.body c f) ++ FunctionDecl.memberSites rest c

/-- The same of a class. -/
def ClassDecl.sites : ClassDecl → List (Expr × Home)
  | ⟨name, superclass, methods⟩ =>
    FunctionDecl.memberSites methods ⟨name, superclass, methods⟩

end

theorem FunctionDecl.sites_eq (f : FunctionDecl) (home : Home) :
    f.sites home = Stmt.sitesAll f.body home := by
  obtain ⟨name, params, body, kind⟩ := f
  rw [FunctionDecl.sites]

theorem ClassDecl.sites_eq (c : ClassDecl) :
    c.sites = FunctionDecl.memberSites c.methods c := by
  obtain ⟨name, superclass, methods⟩ := c
  rw [ClassDecl.sites]

theorem Stmt.mem_sitesAll {list : List Stmt} {home : Home} {x : Expr × Home} :
    x ∈ Stmt.sitesAll list home ↔ ∃ s ∈ list, x ∈ s.sites home := by
  induction list with
  | nil => simp [Stmt.sitesAll]
  | cons s rest ih => simp [Stmt.sitesAll, ih]

theorem FunctionDecl.mem_memberSites {list : List FunctionDecl} {c : ClassDecl}
    {x : Expr × Home} :
    x ∈ FunctionDecl.memberSites list c ↔ ∃ f ∈ list, x ∈ f.sites (.body c f) := by
  induction list with
  | nil => simp [FunctionDecl.memberSites]
  | cons f rest ih => simp [FunctionDecl.memberSites, ih]

theorem ClassDecl.mem_sites {c : ClassDecl} {x : Expr × Home} :
    x ∈ c.sites ↔ ∃ f ∈ c.methods, x ∈ f.sites (.body c f) := by
  rw [ClassDecl.sites_eq]
  exact FunctionDecl.mem_memberSites

/-! ## Seats -/

theorem Stmt.mem_seatsAll {strict : Bool} {list : List Stmt}
    {seat : Option Nat} {x : Expr × Option Nat} :
    x ∈ Stmt.seatsAll strict list seat ↔ ∃ s ∈ list, x ∈ s.seats strict seat := by
  induction list with
  | nil => simp [Stmt.seatsAll]
  | cons s rest ih => simp [Stmt.seatsAll, ih]

theorem FunctionDecl.mem_memberSeats {strict : Bool} {list : List FunctionDecl}
    {seat : Option Nat} {x : Expr × Option Nat} :
    x ∈ FunctionDecl.memberSeats strict list seat ↔
      ∃ f ∈ list, x ∈ f.seats strict (f.seat strict seat) := by
  induction list with
  | nil => simp [FunctionDecl.memberSeats]
  | cons f rest ih => simp [FunctionDecl.memberSeats, ih]

theorem ClassDecl.mem_seats {c : ClassDecl} {x : Expr × Option Nat} :
    x ∈ c.seats false ↔
      ∃ f ∈ c.methods, x ∈ f.seats false (c.superclass.map fun _ => 0) := by
  obtain ⟨name, superclass, methods⟩ := c
  cases superclass <;>
    simp [ClassDecl.seats, FunctionDecl.mem_memberSeats, FunctionDecl.seat]

/-- The expressions of a statement that are paired with a home are paired with
the seat of that home, too. -/
def SeatsFollow (s : Stmt) : Prop :=
  ∀ home x, x ∈ s.sites home → (x.1, x.2.seat) ∈ s.seats false home.seat

theorem seats_of_list {list : List Stmt} (ih : ∀ s ∈ list, SeatsFollow s)
    {home : Home} {x : Expr × Home} (h : x ∈ Stmt.sitesAll list home) :
    (x.1, x.2.seat) ∈ Stmt.seatsAll false list home.seat := by
  obtain ⟨s, hs, hx⟩ := Stmt.mem_sitesAll.1 h
  exact Stmt.mem_seatsAll.2 ⟨s, hs, ih s hs home x hx⟩

theorem seats_of_option {e : Option Expr} {home : Home} {x : Expr × Home}
    (h : x ∈ e.toList.map (·, home)) :
    (x.1, x.2.seat) ∈ e.toList.map (·, home.seat) := by
  obtain ⟨e', he', rfl⟩ := List.mem_map.1 h
  exact List.mem_map.2 ⟨e', he', rfl⟩

theorem seats_of_sites (s : Stmt) : SeatsFollow s := by
  induction s with
  | expression e | print e =>
    intro home x hx
    rw [Stmt.sites, List.mem_singleton] at hx
    rw [Stmt.seats, List.mem_singleton, hx]
  | var name initializer =>
    intro home x hx
    rw [Stmt.sites] at hx
    rw [Stmt.seats]
    exact seats_of_option hx
  | giveBack line value =>
    intro home x hx
    rw [Stmt.sites] at hx
    rw [Stmt.seats]
    exact seats_of_option hx
  | block body ih =>
    intro home x hx
    rw [Stmt.sites] at hx
    rw [Stmt.seats, ← Home.seat_inner]
    exact seats_of_list ih hx
  | ifElse condition thenBranch elseBranch ihthen ihelse =>
    intro home x hx
    cases elseBranch with
    | none =>
      rw [Stmt.sites, List.mem_cons] at hx
      rw [Stmt.seats, List.mem_cons]
      rcases hx with rfl | hx
      · exact .inl rfl
      · exact .inr (ihthen home x hx)
    | some elseBranch =>
      rw [Stmt.sites, List.mem_cons, List.mem_append] at hx
      rw [Stmt.seats, List.mem_cons, List.mem_append]
      rcases hx with rfl | hx | hx
      · exact .inl rfl
      · exact .inr (.inl (ihthen home x hx))
      · exact .inr (.inr (ihelse elseBranch rfl home x hx))
  | loop condition body ih =>
    intro home x hx
    rw [Stmt.sites, List.mem_cons] at hx
    rw [Stmt.seats, List.mem_cons]
    rcases hx with rfl | hx
    · exact .inl rfl
    · exact .inr (ih home x hx)
  | function f ih =>
    intro home x hx
    rw [Stmt.sites, FunctionDecl.sites_eq] at hx
    rw [Stmt.seats, FunctionDecl.seats_eq, ← Home.seat_inner]
    exact seats_of_list ih hx
  | cls c ih =>
    intro home x hx
    rw [Stmt.sites] at hx
    obtain ⟨f, hf, hx⟩ := ClassDecl.mem_sites.1 hx
    rw [FunctionDecl.sites_eq] at hx
    rw [Stmt.seats]
    refine ClassDecl.mem_seats.2 ⟨f, hf, ?_⟩
    have hseat : (Home.body c f).seat =
        (c.superclass.map fun _ => 0).map (· + 1) := by
      simp [Home.body, Home.seat, Function.comp_def]
    rw [FunctionDecl.seats_eq, ← hseat]
    exact seats_of_list (ih f hf) hx

/-- In an accepted program each `super` stands in a member of a class with a
superclass, and has the distance of the frame around that of `this`. -/
theorem fixed_of_sites {L : Ledger} {list : List Stmt}
    (h : FixedAt L (Stmt.seatsAll false list none)) {x : Expr × Home}
    (hx : x ∈ Stmt.sitesAll list none) {id : Nat} (hid : id ∈ x.1.supers) :
    ∃ k c f, x.2 = some (k, c, f) ∧ c.superclass ≠ none ∧
      L.Records id (some (k + 2)) := by
  have hseat : (x.1, x.2.seat) ∈ Stmt.seatsAll false list none :=
    seats_of_list (fun s _ => seats_of_sites s) hx
  obtain ⟨d, hd, hrecords⟩ := h _ hseat id hid
  obtain ⟨k, c, f, parent, hhome, hparent, rfl⟩ := Home.seat_eq_some.1 hd
  refine ⟨k, c, f, hhome, ?_, hrecords⟩
  rw [hparent]
  exact Option.some_ne_none parent

/-! ## One home for each occurrence -/

/-- The ids of the occurrences of `super` at the sites. -/
def supersAt (sites : List (Expr × Home)) : List Nat :=
  sites.flatMap fun x => x.1.supers

theorem supersAt_append (sites sites' : List (Expr × Home)) :
    supersAt (sites ++ sites') = supersAt sites ++ supersAt sites' :=
  List.flatMap_append

theorem Expr.supers_sublist (e : Expr) : e.supers.Sublist e.ids := by
  induction e with
  | literal | occurrence | this => exact List.nil_sublist _
  | super id line method => exact .refl _
  | group inner ih | unary op line inner ih | get inner name ih =>
    rw [Expr.ids]
    exact ih
  | binary left op line right ihleft ihright
  | logical left op line right ihleft ihright
  | set left name right ihleft ihright =>
    rw [Expr.ids]
    simp only [supers_binary, supers_logical, supers_set]
    exact ihleft.append ihright
  | assign target inner ih =>
    rw [Expr.ids, supers_assign]
    exact ih.trans (List.sublist_append_left _ _)
  | call callee line arguments ihcallee iharguments =>
    rw [Expr.ids, supers_call]
    refine ihcallee.append ?_
    induction arguments with
    | nil => exact List.nil_sublist _
    | cons a rest ih =>
      obtain ⟨ha, hrest⟩ := List.forall_mem_cons.1 iharguments
      rw [Expr.idsAll, List.flatMap_cons]
      exact ha.append (ih hrest)

theorem supersAt_option (e : Option Expr) (home : Home) :
    (supersAt (e.toList.map (·, home))).Sublist (Expr.idsOption e) := by
  cases e with
  | none => exact List.nil_sublist _
  | some e =>
    have hone : supersAt ((some e).toList.map (·, home)) = e.supers := by
      simp [supersAt]
    rw [hone]
    exact e.supers_sublist

theorem supersAt_list {list : List Stmt} {home : Home}
    (ih : ∀ s ∈ list, ∀ home, (supersAt (s.sites home)).Sublist s.ids) :
    (supersAt (Stmt.sitesAll list home)).Sublist (Stmt.idsAll list) := by
  induction list with
  | nil => exact List.nil_sublist _
  | cons s rest ihrest =>
    obtain ⟨hs, hrest⟩ := List.forall_mem_cons.1 ih
    rw [Stmt.sitesAll, Stmt.idsAll, supersAt_append]
    exact (hs home).append (ihrest hrest)

theorem supersAt_cons (e : Expr) (home : Home) (sites : List (Expr × Home)) :
    supersAt ((e, home) :: sites) = e.supers ++ supersAt sites :=
  List.flatMap_cons

/-- Each occurrence in a statement is found at one site. -/
theorem supersAt_sublist (s : Stmt) (home : Home) :
    (supersAt (s.sites home)).Sublist s.ids := by
  induction s generalizing home with
  | expression e | print e =>
    rw [Stmt.sites, Stmt.ids, supersAt_cons]
    simpa [supersAt] using e.supers_sublist
  | var x initializer =>
    rw [Stmt.sites, Stmt.ids]
    exact supersAt_option initializer home
  | giveBack line value =>
    rw [Stmt.sites, Stmt.ids]
    exact supersAt_option value home
  | block body ih =>
    rw [Stmt.sites, Stmt.ids]
    exact supersAt_list ih
  | ifElse condition thenBranch elseBranch ihthen ihelse =>
    cases elseBranch with
    | none =>
      rw [Stmt.sites, Stmt.ids, supersAt_cons]
      exact condition.supers_sublist.append (ihthen home)
    | some elseBranch =>
      rw [Stmt.sites, Stmt.ids, supersAt_cons, supersAt_append]
      exact condition.supers_sublist.append
        ((ihthen home).append (ihelse elseBranch rfl home))
  | loop condition body ih =>
    rw [Stmt.sites, Stmt.ids, supersAt_cons]
    exact condition.supers_sublist.append (ih home)
  | function f ih =>
    rw [Stmt.sites, Stmt.ids, FunctionDecl.sites_eq]
    obtain ⟨name, params, body, kind⟩ := f
    rw [FunctionDecl.ids]
    exact supersAt_list ih
  | cls c ih =>
    have hmembers (list : List FunctionDecl)
        (hlist : ∀ f ∈ list, ∀ s ∈ f.body, ∀ home,
          (supersAt (s.sites home)).Sublist s.ids) :
        (supersAt (FunctionDecl.memberSites list c)).Sublist
          (FunctionDecl.idsAll list) := by
      induction list with
      | nil => exact List.nil_sublist _
      | cons f rest ihrest =>
        obtain ⟨hf, hrest⟩ := List.forall_mem_cons.1 hlist
        rw [FunctionDecl.memberSites, FunctionDecl.idsAll, supersAt_append,
          FunctionDecl.sites_eq]
        obtain ⟨name, params, body, kind⟩ := f
        rw [FunctionDecl.ids]
        exact (supersAt_list hf).append (ihrest hrest)
    rw [Stmt.sites, Stmt.ids, ClassDecl.sites_eq]
    have hall := hmembers c.methods ih
    obtain ⟨name, superclass, methods⟩ := c
    cases superclass with
    | none =>
      rw [ClassDecl.ids]
      exact hall
    | some parent =>
      rw [ClassDecl.ids]
      exact hall.trans (List.sublist_cons_self _ _)

theorem supersAt_sitesAll (list : List Stmt) (home : Home) :
    (supersAt (Stmt.sitesAll list home)).Sublist (Stmt.idsAll list) :=
  supersAt_list fun s _ home => supersAt_sublist s home

/-- The ids of a program are used once, so each occurrence has one site. -/
theorem eq_of_sites {list : List Stmt} (hnodup : (Stmt.idsAll list).Nodup)
    {home : Home} {x y : Expr × Home} (hx : x ∈ Stmt.sitesAll list home)
    (hy : y ∈ Stmt.sitesAll list home) {id : Nat} (hidx : id ∈ x.1.supers)
    (hidy : id ∈ y.1.supers) : x = y := by
  obtain ⟨-, hdisjoint⟩ :=
    List.nodup_flatMap.1 (hnodup.sublist (supersAt_sitesAll list home))
  have hsymm : Std.Symm
      (Function.onFun List.Disjoint fun x : Expr × Home => x.1.supers) :=
    ⟨fun _ _ h _ hy hx => h hx hy⟩
  by_contra hne
  exact hdisjoint.forall hx hy hne hidx hidy

/-- An occurrence that stands at a site is one of the program. -/
theorem mem_ids_of_site {list : List Stmt} {home : Home} {x : Expr × Home}
    (hx : x ∈ Stmt.sitesAll list home) {id : Nat} (hid : id ∈ x.1.supers) :
    id ∈ Stmt.idsAll list :=
  (supersAt_sitesAll list home).subset (List.mem_flatMap.2 ⟨x, hx, hid⟩)

end Lox
