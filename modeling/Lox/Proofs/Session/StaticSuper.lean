import Lox.Proofs.Machine.Housing
import Lox.Proofs.Session.Fields
import Lox.Proofs.Session.Receivers

/-!
# `super` is bound statically

In everything that is run in a reachable session, all code is housed
(`Traced.housed`): code that stands in a method is run inside of a frame in
which the body of that method was entered, and around it lie the frame of its
`this` and the frame that the class statement has made for its members.

So what a `super` means is settled by the place where it stands
(`super_static`).  It is searched in the class that the name of the superclass
stood for when the class statement ran, and the method that is found is bound to
the `this` of the activation.  What the receiver is an instance of does not
matter, nor what the name stands for by now.
-/

namespace Lox

open Machine (Behaviour Log Sane Setting State leads_runAlong runAlong step trail)

/-! ## The log of a session -/

namespace Session

/-- The steps that are done when a source is run: none if it is rejected. -/
def runLog (s : Session) (times : List Float) (source : String) : Log :=
  match s.load source with
  | (s', .ok list) => trail s'.setting times (.ofProgram list s'.start)
  | (_, .error _) => []

/-- The steps that are done when a source is evaluated. -/
def evalLog (s : Session) (times : List Float) (source : String) : Log :=
  match s.loadExpr source with
  | (s', .ok e) => trail s'.setting times (.ofExpr e s'.start)
  | (_, .error _) => []

/-- The session can be reached, with `program` all that was given to run, and
the log holds the steps that were done. -/
inductive Traced : (program : List Stmt) → Log → Session → Prop where
  | new (maxDepth : Nat) (sink : Sink) :
      Traced [] [] (Session.new maxDepth sink)
  | native {program log s} (h : Traced program log s) (name : String)
      (arity : Nat) {behaviour : Behaviour} (faithful : behaviour.Faithful) :
      Traced program log (s.defineNative name arity behaviour)
  | sink {program log s} (h : Traced program log s) (sink : Sink) :
      Traced program log { s with sink := sink }
  | run {program log s} (h : Traced program log s) (times : List Float)
      (source : String) :
      Traced (program ++ s.accepted source) (log ++ s.runLog times source)
        (s.runWith (driveAlong times) source).1
  | eval {program log s} (h : Traced program log s) (times : List Float)
      (source : String) :
      Traced program (log ++ s.evalLog times source)
        (s.evalWith (driveAlong times) source).1

theorem Traced.reached {program : List Stmt} {log : Log} {s : Session}
    (h : Traced program log s) : Reached program s := by
  induction h with
  | new maxDepth sink => exact .new maxDepth sink
  | native _ name arity faithful ih => exact ih.native name arity faithful
  | sink _ sink ih => exact ih.sink sink
  | run _ times source ih => exact ih.run times source
  | eval _ times source ih => exact ih.eval times source

/-- Every reachable session has a log. -/
theorem Reached.traced {program : List Stmt} {s : Session}
    (h : Reached program s) : ∃ log, Traced program log s := by
  induction h with
  | new maxDepth sink => exact ⟨[], .new maxDepth sink⟩
  | native _ name arity faithful ih =>
    obtain ⟨log, ih⟩ := ih
    exact ⟨log, ih.native name arity faithful⟩
  | sink _ sink ih =>
    obtain ⟨log, ih⟩ := ih
    exact ⟨log, ih.sink sink⟩
  | run _ times source ih =>
    obtain ⟨log, ih⟩ := ih
    exact ⟨_, ih.run times source⟩
  | eval _ times source ih =>
    obtain ⟨log, ih⟩ := ih
    exact ⟨_, ih.eval times source⟩

end Session

/-! ## Occurrences of `super` and their homes -/

/-- An occurrence of `super` with an id below `n` can stand at a home, if the
sites where it stands in the program have no other home. -/
def Chronicle.Knows (C : Chronicle) (n : Nat) (program : List Stmt) : Prop :=
  ∀ home id, id < n →
    (∀ x ∈ Stmt.sitesAll program none, id ∈ x.1.supers → x.2 = home) →
    C.Fits home id

namespace Chronicle.Knows

variable {C : Chronicle} {n n' : Nat} {program list : List Stmt}

/-- What is run later does not matter for earlier code. -/
theorem earlier (h : C.Knows n' (program ++ list)) (hle : n ≤ n')
    (hnew : ∀ id ∈ Stmt.idsAll list, n ≤ id) : C.Knows n program := by
  intro home id hid hsites
  refine h home id (Nat.lt_of_lt_of_le hid hle) fun x hx hmem => ?_
  obtain ⟨s, hs, hxs⟩ := Stmt.mem_sitesAll.1 hx
  rcases List.mem_append.1 hs with hs | hs
  · exact hsites x (Stmt.mem_sitesAll.2 ⟨s, hs, hxs⟩) hmem
  · have hlater := mem_ids_of_site (Stmt.mem_sitesAll.2 ⟨s, hs, hxs⟩) hmem
    exact absurd (hnew id hlater) (Nat.not_le_of_lt hid)

/-- What is loaded with fresh ids stands where it stands. -/
theorem covers (h : C.Knows n' (program ++ list))
    (hold : ∀ id ∈ Stmt.idsAll program, id < n)
    (hfresh : Fresh n (Stmt.idsAll list) n') :
    C.Covers (Stmt.sitesAll list none) := by
  intro x hx id hid
  have hrange := hfresh.range id (mem_ids_of_site hx hid)
  refine h x.2 id hrange.2 fun y hy hmem => ?_
  obtain ⟨s, hs, hys⟩ := Stmt.mem_sitesAll.1 hy
  rcases List.mem_append.1 hs with hs | hs
  · have hearlier := mem_ids_of_site (Stmt.mem_sitesAll.2 ⟨s, hs, hys⟩) hmem
    exact absurd (hold id hearlier) (Nat.not_lt_of_le hrange.1)
  · have hsite : y ∈ Stmt.sitesAll list none := Stmt.mem_sitesAll.2 ⟨s, hs, hys⟩
    rw [eq_of_sites hfresh.nodup hsite hx hmem hid]

/-- An expression with fresh ids stands in no method. -/
theorem covers_expr (h : C.Knows n' program)
    (hold : ∀ id ∈ Stmt.idsAll program, id < n) {e : Expr}
    (hfresh : Fresh n e.ids n') : C.Covers [(e, none)] := by
  rw [covers_supers]
  intro id hid
  have hrange := hfresh.range id (e.supers_sublist.subset hid)
  refine h none id hrange.2 fun x hx hmem => ?_
  exact absurd (hold id (mem_ids_of_site hx hmem)) (Nat.not_lt_of_le hrange.1)

end Chronicle.Knows

namespace Session

variable {program : List Stmt} {log : Log} {s s' : Session} {C : Chronicle}

/-- Each `super` in what was accepted stands in a member of a class with a
superclass, and has the distance of the frame around that of its `this`. -/
def Fixed (program : List Stmt) (s : Session) : Prop :=
  ∀ x ∈ Stmt.sitesAll program none, ∀ id ∈ x.1.supers,
    ∃ k c f, x.2 = some (k, c, f) ∧ c.superclass ≠ none ∧
      (s.ledger program).Records id (some (k + 2))

theorem Fixed.keep (h : Fixed program s)
    (hkeeps : (s.ledger program).Keeps (s'.ledger program)) :
    Fixed program s' := by
  intro x hx id hid
  obtain ⟨k, c, f, hhome, hparent, hrecords⟩ := h x hx id hid
  exact ⟨k, c, f, hhome, hparent, hkeeps _ _ hrecords⟩

/-- A program that is accepted. -/
theorem Fixed.load (h : Fixed program s) (hcoherent : Coherent program s)
    {source : String} {list : List Stmt}
    (hload : s.load source = (s', .ok list)) : Fixed (program ++ list) s' := by
  have hkeeps := s.keeps_load source program (program ++ list)
  rw [hload] at hkeeps
  obtain ⟨-, hlist⟩ := hcoherent.load_ok hload
  obtain ⟨-, hreads, -⟩ := load_eq_ok.1 hload
  have hfixed : FixedAt (s'.ledger (program ++ list))
      (Stmt.seatsAll false list none) :=
    Scope.fixedAt_program (no_breach_of_load hload) nofun
      (hreads.wellFormed (Token.named_scan _)) hlist
  intro x hx id hid
  obtain ⟨t, ht, hxt⟩ := Stmt.mem_sitesAll.1 hx
  rcases List.mem_append.1 ht with ht | ht
  · obtain ⟨k, c, f, hhome, hparent, hrecords⟩ :=
      h x (Stmt.mem_sitesAll.2 ⟨t, ht, hxt⟩) id hid
    exact ⟨k, c, f, hhome, hparent, hkeeps _ _ hrecords⟩
  · exact fixed_of_sites hfixed (Stmt.mem_sitesAll.2 ⟨t, ht, hxt⟩) hid

theorem Reached.fixed (h : Reached program s) : Fixed program s := by
  induction h with
  | new maxDepth sink => rintro x ⟨⟩
  | native _ name arity faithful ih => exact ih
  | sink _ sink ih => exact ih
  | @run program s h times source ih =>
    have hkeeps := s.keeps_load source program program
    cases hload : s.load source with
    | mk s' result =>
      rw [hload] at hkeeps
      simp only [runWith, accepted, hload]
      cases result with
      | error diagnostics =>
        rw [List.append_nil]
        exact ih.keep hkeeps
      | ok list =>
        have hfixed : Fixed (program ++ list) s' := ih.load h.coherent hload
        exact hfixed
  | @eval program s h times source ih =>
    have hkeeps := s.keeps_loadExpr source program
    cases hload : s.loadExpr source with
    | mk s' result =>
      rw [hload] at hkeeps
      simp only [evalWith, hload]
      cases result with
      | error diagnostics => exact ih.keep hkeeps
      | ok e => exact ih.keep hkeeps

/-! ## Housed sessions -/

theorem parent?_globals (store : Store) : store.parent? globals = none := by
  cases hparent : store.parent? globals with
  | none => rfl
  | some p => exact absurd (Store.parent?_lt hparent) (Nat.not_lt_zero p)

/-- Code of no home can run in the frame of the globals. -/
theorem Coherent.lives (h : Coherent program s) :
    C.Lives s.store globals none :=
  ⟨h.store.root, .inl (parent?_globals s.store), trivial⟩

theorem nextId_load (s : Session) (source : String) :
    s.nextId ≤ (s.load source).1.nextId := by
  obtain ⟨n, distances, hs', hle, -⟩ := s.load_changes source
  rw [hs']
  exact hle

theorem nextId_loadExpr (s : Session) (source : String) :
    s.nextId ≤ (s.loadExpr source).1.nextId := by
  obtain ⟨n, hs', hle⟩ := s.loadExpr_changes source
  rw [hs']
  exact hle

theorem honest_setting (h : s.Settled) (now : Float) :
    (s.setting now).All Behaviour.Honest :=
  (h.all_faithful now).mono fun _ => Behaviour.Faithful.honest

/-- An accepted program starts sane. -/
theorem Reached.sane_program (h : Reached program s) {source : String}
    {list : List Stmt} (hload : s.load source = (s', .ok list)) :
    Sane s'.store.field? (.ofProgram list s'.start) := by
  obtain ⟨given, log, m, hcourse, hstore⟩ := h.course
  obtain ⟨-, hreads, -, hs'⟩ := load_eq_ok.1 hload
  have hsame : s'.start.store = m.state.store := by
    rw [hs', hstore]
    rfl
  have hprogram := hcourse.program source s.nextId hsame rfl
  rw [Stmt.parse_of_reads hreads] at hprogram
  exact (hprogram.mono fun _ h => h.honest.sparing).sane

theorem Reached.sane_expr (h : Reached program s) {source : String} {e : Expr}
    (hload : s.loadExpr source = (s', .ok e)) :
    Sane s'.store.field? (.ofExpr e s'.start) := by
  obtain ⟨given, log, m, hcourse, hstore⟩ := h.course
  obtain ⟨-, hreads, hs'⟩ := loadExpr_eq_ok.1 hload
  have hsame : s'.start.store = m.state.store := by
    rw [hs', hstore]
    rfl
  have hparse := congrArg Expr.Parsed.result (Expr.parse_eq_iff.2 hreads)
  have hexpr := hcourse.expr source s.nextId hparse hsame rfl
  exact (hexpr.mono fun _ h => h.honest.sparing).sane

/-- An accepted program starts housed. -/
theorem housed_ofProgram (h : Coherent program s)
    (hstore : s.store.All (Value.Housed C s.store)) {source : String}
    {list : List Stmt} (hload : s.load source = (s', .ok list))
    (hknows : C.Knows s'.nextId (program ++ list)) :
    C.Housed (.ofProgram list s'.start) := by
  obtain ⟨hcoherent, -⟩ := h.load_ok hload
  obtain ⟨-, hreads, -⟩ := load_eq_ok.1 hload
  have hsame := s.store_load source
  rw [hload] at hsame
  have hstore' : s'.store.All (Value.Housed C s'.store) := hsame ▸ hstore
  exact ⟨hstore', fun _ _ => .completed hcoherent.lives
    ⟨hknows.covers h.used hreads.fresh, trivial, none, rfl, trivial⟩ trivial⟩

theorem housed_ofExpr (h : Coherent program s)
    (hstore : s.store.All (Value.Housed C s.store)) {source : String} {e : Expr}
    (hload : s.loadExpr source = (s', .ok e))
    (hknows : C.Knows s'.nextId program) :
    C.Housed (.ofExpr e s'.start) := by
  obtain ⟨hcoherent, -⟩ := h.loadExpr_ok hload
  obtain ⟨-, hreads, -⟩ := loadExpr_eq_ok.1 hload
  have hsame := s.store_loadExpr source
  rw [hload] at hsame
  have hstore' : s'.store.All (Value.Housed C s'.store) := hsame ▸ hstore
  exact ⟨hstore', fun _ _ => .eval hcoherent.lives trivial
    (hknows.covers_expr h.used hreads.fresh)⟩

/-- The store of a session is housed, as far as its log has been seen. -/
theorem Traced.housed (h : Traced program log s)
    (hseen : ∀ x ∈ log, C.Seen x.1 x.2) (hknows : C.Knows s.nextId program) :
    s.store.All (Value.Housed C s.store) := by
  induction h with
  | new maxDepth sink =>
    exact Store.All.start.define globals "clock" trivial
  | @native program log s h name arity behaviour faithful ih =>
    have hlater := Store.Later.define_root (parent?_globals s.store) name
      (.native ⟨s.natives.size, name, arity⟩)
    exact ((ih hseen hknows).mono fun _ hv => hv.mono hlater).define globals name
      trivial
  | sink _ sink ih => exact ih hseen hknows
  | @run program log s h times source ih =>
    have hcoherent := h.reached.coherent
    have hsame := s.store_load source
    have hsettled := hcoherent.settled.load source
    have hle := s.nextId_load source
    cases hload : s.load source with
    | mk s' result =>
      rw [hload] at hsame hsettled hle
      simp only [runWith, accepted, runLog, hload] at hseen hknows ⊢
      obtain ⟨hearlier, hlater⟩ := List.forall_mem_append.1 hseen
      cases result with
      | error diagnostics =>
        have hstore := ih hearlier (hknows.earlier hle (by rintro _ ⟨⟩))
        exact hsame ▸ hstore
      | ok list =>
        have hknows : C.Knows s'.nextId (program ++ list) := hknows
        obtain ⟨-, hreads, -⟩ := load_eq_ok.1 hload
        have hstore := ih hearlier (hknows.earlier hle
          fun id hid => (hreads.fresh.range id hid).1)
        have hstart := housed_ofProgram hcoherent hstore hload hknows
        exact (leads_runAlong (honest_setting hsettled) hstart
          (h.reached.sane_program hload) hlater).store
  | @eval program log s h times source ih =>
    have hcoherent := h.reached.coherent
    have hsame := s.store_loadExpr source
    have hsettled := hcoherent.settled.loadExpr source
    have hle := s.nextId_loadExpr source
    cases hload : s.loadExpr source with
    | mk s' result =>
      rw [hload] at hsame hsettled hle
      simp only [evalWith, evalLog, hload] at hseen hknows ⊢
      obtain ⟨hearlier, hlater⟩ := List.forall_mem_append.1 hseen
      have hold (hknows : C.Knows s'.nextId program) :
          C.Knows s.nextId program :=
        fun home id hid => hknows home id (Nat.lt_of_lt_of_le hid hle)
      cases result with
      | error diagnostics => exact hsame ▸ ih hearlier (hold hknows)
      | ok e =>
        have hstart := housed_ofExpr hcoherent (ih hearlier (hold hknows)) hload
          hknows
        exact (leads_runAlong (honest_setting hsettled) hstart
          (h.reached.sane_expr hload) hlater).store

end Session

/-! ## What `super` means -/

namespace Machine

/-- Searches the class for the method and binds it to the receiver. -/
def readSuper (set : Setting) (superclass : Class) (receiver : Value)
    (method : Ident) (stack : List Pending) (st : State) : Machine :=
  match superclass.findMethod? method.name with
  | none =>
    ⟨.failed (.undefinedProperty method.name superclass.name method.line), stack,
      st⟩
  | some f =>
    settle set (.function (st.store.bindMethod f receiver).2) method.line stack
      { st with store := (st.store.bindMethod f receiver).1 }

end Machine

open Machine (Pending getSuper readSuper)

/-- The frame lies `k` frames inside of an activation of the member of the
class: the body of the function was entered there, which is bound to the
receiver; and when the class statement ran that has made the member, the name
of its superclass stood for `superclass`. -/
structure Chronicle.Activates (C : Chronicle) (s : Store) (frame : FrameId)
    (k : Nat) (c : ClassDecl) (f : FunctionDecl) (superclass : Class)
    (receiver : Value) : Prop where
  member : f ∈ c.methods
  activation : ∃ entry closure outer, closure.declaration = f ∧
    s.ancestor? frame k = some entry ∧ C.Enters closure entry ∧
    s.parent? entry = some closure.frame ∧
    s.Sealed closure.frame Keyword.kwThis.lexeme receiver ∧
    s.parent? closure.frame = some outer ∧ C.Declares c superclass outer

/-- Code that lives in a member reads a method through `super`. -/
theorem Chronicle.Lives.reads {C : Chronicle} {set : Setting} {st : State}
    {k : Nat} {c : ClassDecl} {f : FunctionDecl}
    (h : C.Lives st.store st.frame (some (k, c, f)))
    (hparent : c.superclass ≠ none) {id : Nat}
    (hdistance : set.distances.find? id = some (k + 2)) :
    ∃ superclass receiver,
      C.Activates st.store st.frame k c f superclass receiver ∧
      ∀ line method stack, getSuper set id line method stack st =
        readSuper set superclass receiver method stack st := by
  obtain ⟨entry, closure, hentry, hclosure, hf, henters, hbound⟩ := h.place
  obtain ⟨hmember, receiver, outer, hthis, houter, -, hsuper⟩ := hbound
  obtain ⟨superclass, hsealed, hdeclares⟩ := hsuper hparent
  have hthisAt : st.store.ancestor? st.frame (k + 1) = some closure.frame :=
    (Store.ancestor?_succ hentry).trans hclosure
  have hsuperAt : st.store.ancestor? st.frame (k + 2) = some outer :=
    (Store.ancestor?_succ hthisAt).trans houter
  refine ⟨superclass, receiver, ⟨hf ▸ hmember, entry, closure, outer, hf, hentry,
    henters, hclosure, hthis, houter, hdeclares⟩, fun line method stack => ?_⟩
  cases hmethod : superclass.findMethod? method.name <;>
    simp only [getSuper, hdistance, Store.readAt, Store.getAt?, hsuperAt,
      hsealed.value, Store.orUndefined, Machine.bindSuper, hthisAt, hthis.value,
      readSuper, hmethod]

/-- Nothing but the machines of the log has been seen. -/
def Chronicle.ofLog (log : Log) : Chronicle :=
  ⟨fun set m => (set, m) ∈ log, fun _ _ => True⟩

/-- What was seen besides the log does not matter, if it was about to read a
`super`. -/
theorem Chronicle.Activates.of_log {C : Chronicle} {log : Log}
    (hseen : ∀ set m, C.Seen set m →
      (set, m) ∈ log ∨ ∃ id line method, m.control = .eval (.super id line method))
    {s : Store} {frame : FrameId} {k : Nat} {c : ClassDecl} {f : FunctionDecl}
    {superclass : Class} {receiver : Value}
    (h : C.Activates s frame k c f superclass receiver) :
    (Chronicle.ofLog log).Activates s frame k c f superclass receiver := by
  obtain ⟨hmember, entry, closure, outer, hf, hentry, henters, hclosure, hthis,
    houter, hdeclares⟩ := h
  refine ⟨hmember, entry, closure, outer, hf, hentry, ?_, hclosure, hthis, houter,
    ?_⟩
  · obtain ⟨set, saved, line, rest, st, hmachine, hframe⟩ := henters
    refine ⟨set, saved, line, rest, st, ?_, hframe⟩
    exact (hseen _ _ hmachine).resolve_right (by rintro ⟨_, _, _, ⟨⟩⟩)
  · obtain ⟨set, parent, line, rest, st, hparent, hmachine, hvalue, hnext⟩ :=
      hdeclares
    refine ⟨set, parent, line, rest, st, hparent, ?_, hvalue, hnext⟩
    exact (hseen _ _ hmachine).resolve_right (by rintro ⟨_, _, _, ⟨⟩⟩)

namespace Session

variable {program : List Stmt} {log : Log} {s s' : Session}

/-- If the next step reads a method through a `super` that stands in the
program, it stands in a member of a class with a superclass, and the machine is
inside of an activation of that member.  The method is searched in what was the
superclass when the class statement ran, and bound to the receiver of the
activation. -/
def ReadsStatically (program : List Stmt) (log : Log) (set : Setting)
    (m : Machine) : Prop :=
  ∀ id line method e home, m.control = .eval (.super id line method) →
    (e, home) ∈ Stmt.sitesAll program none → id ∈ e.supers →
    ∃ k c f superclass receiver, home = some (k, c, f) ∧
      (Chronicle.ofLog log).Activates m.state.store m.state.frame k c f superclass
        receiver ∧
      step set m = readSuper set superclass receiver method m.stack m.state

/-- What is known of an execution whose last machine is about to take a step. -/
def chronicleAt (program : List Stmt) (log : Log) (m : Machine) : Chronicle where
  Seen := fun set m' => (set, m') ∈ log ∨ m'.control = m.control
  Fits := fun home id =>
    ∀ x ∈ Stmt.sitesAll program none, id ∈ x.1.supers → x.2 = home

theorem chronicleAt_knows (program : List Stmt) (log : Log) (m : Machine)
    (n : Nat) : (chronicleAt program log m).Knows n program :=
  fun _ _ _ h => h

theorem reads_of_housed {m : Machine} {set : Setting}
    (h : (chronicleAt program log m).Housed m) (hfixed : Fixed program s)
    (hdistances : set.distances = s.distances) :
    ReadsStatically program log set m := by
  intro id line method e home hcontrol hsite hid
  obtain ⟨k, c, f, rfl, hparent, hrecords⟩ := hfixed _ hsite id hid
  have hlive := h.live set (.inr rfl)
  have hseen : ∀ set' m', (chronicleAt program log m).Seen set' m' →
      (set', m') ∈ log ∨
        ∃ id line method, m'.control = .eval (.super id line method) := by
    rintro set' m' (hmem | hsame)
    · exact .inl hmem
    · exact .inr ⟨id, line, method, hsame.trans hcontrol⟩
  have hdistance : set.distances.find? id = some (k + 2) := by
    rw [hdistances]
    exact hrecords.find
  obtain ⟨control, stack, st⟩ := m
  cases hcontrol
  cases hlive with
  | eval lives waits code =>
    -- The site of the occurrence is the home that its code lives at.
    have hhome := Chronicle.covers_supers.1 code id List.mem_cons_self _ hsite hid
    rw [← hhome] at lives
    obtain ⟨superclass, receiver, hactivates, hreads⟩ :=
      lives.reads hparent hdistance
    exact ⟨k, c, f, superclass, receiver, rfl, hactivates.of_log hseen,
      hreads line method stack⟩

/-- A run from a machine that is housed reads statically at its end. -/
theorem reads_runAlong {start : Machine} {times : List Float}
    (hsettled : s.Settled) (hfixed : Fixed program s)
    (hsane : Sane s.store.field? start)
    (hstart : (chronicleAt program (log ++ trail s.setting times start)
      (runAlong s.setting times start)).Housed start) (now : Float) :
    ReadsStatically program (log ++ trail s.setting times start) (s.setting now)
      (runAlong s.setting times start) :=
  have hleads := leads_runAlong (honest_setting hsettled) hstart hsane
    fun _ hx => .inl (List.mem_append_right _ hx)
  reads_of_housed hleads.toHoused hfixed rfl

/-- In a reachable session take a source that is accepted and run, or one that
is evaluated as an expression, and any machine on the way.  A `super` that
stands in a method, or in blocks and functions nested in it, is searched in the
class that was the superclass when the class statement ran; a method that is
found is bound to the receiver of the activation that the code belongs to; one
that is missing is reported as an undefined property of that superclass; and
there is no other failure. -/
theorem super_static (h : Traced program log s) (source : String)
    (times : List Float) (now : Float) :
    (∀ s' list, s.load source = (s', .ok list) →
      ReadsStatically (program ++ list)
        (log ++ trail s'.setting times (.ofProgram list s'.start))
        (s'.setting now) (runAlong s'.setting times (.ofProgram list s'.start))) ∧
    (∀ s' e, s.loadExpr source = (s', .ok e) →
      ReadsStatically program
        (log ++ trail s'.setting times (.ofExpr e s'.start))
        (s'.setting now) (runAlong s'.setting times (.ofExpr e s'.start))) := by
  have hcoherent := h.reached.coherent
  constructor
  · intro s' list hload
    obtain ⟨-, hreads, -⟩ := load_eq_ok.1 hload
    have hsettled := hcoherent.settled.load source
    rw [hload] at hsettled
    let start : Machine := .ofProgram list s'.start
    let C := chronicleAt (program ++ list) (log ++ trail s'.setting times start)
      (runAlong s'.setting times start)
    have hknows : C.Knows s'.nextId (program ++ list) := chronicleAt_knows _ _ _ _
    have hstore : s.store.All (Value.Housed C s.store) :=
      h.housed (fun _ hx => .inl (List.mem_append_left _ hx))
        (hknows.earlier hreads.fresh.le
          fun id hid => (hreads.fresh.range id hid).1)
    exact reads_runAlong hsettled (h.reached.fixed.load hcoherent hload)
      (h.reached.sane_program hload)
      (housed_ofProgram hcoherent hstore hload hknows) now
  · intro s' e hload
    have hsettled := hcoherent.settled.loadExpr source
    have hkeeps := s.keeps_loadExpr source program
    rw [hload] at hsettled hkeeps
    let start : Machine := .ofExpr e s'.start
    let C := chronicleAt program (log ++ trail s'.setting times start)
      (runAlong s'.setting times start)
    have hknows (n : Nat) : C.Knows n program := chronicleAt_knows _ _ _ n
    have hstore : s.store.All (Value.Housed C s.store) :=
      h.housed (fun _ hx => .inl (List.mem_append_left _ hx)) (hknows s.nextId)
    exact reads_runAlong hsettled (h.reached.fixed.keep hkeeps)
      (h.reached.sane_expr hload)
      (housed_ofExpr hcoherent hstore hload (hknows s'.nextId)) now

/-- The static method of the sample with a `super` in a function. -/
def sampleStaticMethod : FunctionDecl :=
  ⟨⟨"s", 1⟩, [],
    [.function ⟨⟨"f", 1⟩, [],
      [.expression (.call (.super 1 1 ⟨"m", 1⟩) 1 [])], .function⟩,
      .expression (.call (.variable ⟨2, "f", 1⟩) 1 [])], .static⟩

theorem mem_sampleSites :
    (.call (.super 1 1 ⟨"m", 1⟩) 1 [],
      some (1, ⟨⟨"B", 1⟩, some ⟨0, "A", 1⟩, [sampleStaticMethod]⟩,
        sampleStaticMethod)) ∈ Stmt.sitesAll sampleStaticProgram none := by
  simp [sampleStaticProgram, sampleBase, sampleDerived, sampleStaticCall,
    sampleStaticMethod, Stmt.sitesAll, Stmt.sites, ClassDecl.sites,
    FunctionDecl.memberSites, FunctionDecl.sites, Home.body, Home.inner]

/-- The `super` in the function belongs to the static method around it. -/
theorem super_static_sample :
    ∃ superclass receiver,
      (Chronicle.ofLog (trail sampleStaticLoaded.setting (List.replicate 23 0)
        (.ofProgram sampleStaticProgram sampleStaticLoaded.start))).Activates
          sampleAtSuper.state.store sampleAtSuper.state.frame 1
          ⟨⟨"B", 1⟩, some ⟨0, "A", 1⟩, [sampleStaticMethod]⟩ sampleStaticMethod
          superclass receiver ∧
      step (sampleStaticLoaded.setting 0) sampleAtSuper =
        readSuper (sampleStaticLoaded.setting 0) superclass receiver ⟨"m", 1⟩
          sampleAtSuper.stack sampleAtSuper.state := by
  have hcontrol : sampleAtSuper.control = .eval (.super 1 1 ⟨"m", 1⟩) := by
    with_unfolding_all rfl
  have hreads := (super_static (.new 8 .unlimited) sampleNested
    (List.replicate 23 0) 0).1 _ _ load_sampleNested
  obtain ⟨k, c, f, superclass, receiver, hhome, hactivates, hstep⟩ :=
    hreads 1 1 ⟨"m", 1⟩ _ _ hcontrol mem_sampleSites (by decide)
  cases hhome
  exact ⟨superclass, receiver, hactivates, hstep⟩

end Session

end Lox
