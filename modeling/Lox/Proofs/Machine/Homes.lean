import Lox.Proofs.Machine.Getters
import Lox.Proofs.Scope.Homes
import Lox.Proofs.Store.Growth

/-!
# Where code lives

Code at run time lives in frames.  A frame that code runs in takes new
variables; if the code has a home in a method, the frame of the body of that
method is so many frames further out, and the frame of `this` lies around that
one, inside the frame that the members of the class close over
(`Chronicle.Lives`).

How these frames came about is told by the machines that have been seen: one
that was about to run the body of a bound method (`Chronicle.Enters`), and one
that was about to look up the superclass of a class statement
(`Chronicle.Declares`).

A function is housed if its code lives in the frame it closes over, or if it is
a member bound to a receiver; and a value is housed if the functions it holds
are.  What is housed stays so while the store grows (`Value.Housed.mono`).
-/

namespace Lox

open Machine (Behaviour Setting lookUp)
open Store (Later)

/-- What is known of an execution: the machines that have been seen, each in
the setting of its next step, and the occurrences of `super` that can stand at
a home. -/
structure Chronicle where
  Seen : Setting → Machine → Prop
  Fits : Home → Nat → Prop

namespace Chronicle

variable (C : Chronicle)

/-- Each `super` in the expressions can stand there. -/
def Covers (sites : List (Expr × Home)) : Prop :=
  ∀ x ∈ sites, ∀ id ∈ x.1.supers, C.Fits x.2 id

/-- The body of the function was about to run in the frame. -/
def Enters (f : Closure) (frame : FrameId) : Prop :=
  ∃ set saved line rest st,
    C.Seen set ⟨.completed .normal,
      .block f.declaration.body saved :: .body f line :: rest, st⟩ ∧
    st.frame = frame

/-- The class statement ran, its superclass had this value, and its members
were then made in the frame. -/
def Declares (c : ClassDecl) (superclass : Class) (frame : FrameId) : Prop :=
  ∃ set parent line rest st, c.superclass = some parent ∧
    C.Seen set ⟨.eval (.variable parent), .superclass c line :: rest, st⟩ ∧
    lookUp set st parent.id parent.name parent.line = .ok (.cls superclass) ∧
    st.store.nextFrame = frame

/-- The members of the class can close over the frame: it holds the superclass
if the class has one, and nothing else. -/
def Encloses (s : Store) (frame : FrameId) (c : ClassDecl) : Prop :=
  frame < s.frames.size ∧ (c.superclass ≠ none → ∃ superclass,
    s.Sealed frame Keyword.kwSuper.lexeme (.cls superclass) ∧
      C.Declares c superclass frame)

/-- The function is a member of the class that is bound to a receiver. -/
structure Bound (s : Store) (f : Closure) (c : ClassDecl) : Prop where
  member : f.declaration ∈ c.methods
  bound : ∃ receiver outer,
    s.Sealed f.frame Keyword.kwThis.lexeme receiver ∧
      s.parent? f.frame = some outer ∧ C.Encloses s outer c

/-- The frame is where code of the home runs: so many frames inside of a frame
in which the body of the bound member was entered. -/
def At (s : Store) (frame : FrameId) : Home → Prop
  | none => True
  | some (k, c, f) => ∃ entry closure, s.ancestor? frame k = some entry ∧
      s.parent? entry = some closure.frame ∧ closure.declaration = f ∧
      C.Enters closure entry ∧ C.Bound s closure c

/-- Code of the home can run in the frame. -/
structure Lives (s : Store) (frame : FrameId) (home : Home) : Prop where
  lt : frame < s.frames.size
  takes : s.Open frame
  place : C.At s frame home

end Chronicle

/-! ## Functions and values -/

/-- The function is the member of a class, not bound to a receiver. -/
structure Closure.Free (C : Chronicle) (s : Store) (f : Closure) : Prop where
  params : ∀ x ∈ f.declaration.params, Unreserved x.name
  member : ∃ c, f.declaration ∈ c.methods ∧ C.Encloses s f.frame c ∧
    C.Covers (f.declaration.sites (.body c f.declaration))

/-- The function is one that a statement has declared, and its code lives in
the frame it closes over. -/
def Closure.Declared (C : Chronicle) (s : Store) (f : Closure) : Prop :=
  f.declaration.kind = .function ∧ ∃ home, C.Lives s f.frame home ∧
    C.Covers (f.declaration.sites home.inner)

/-- The function can be called: it was declared by a statement, or it is a
member that is bound. -/
structure Closure.Housed (C : Chronicle) (s : Store) (f : Closure) : Prop where
  params : ∀ x ∈ f.declaration.params, Unreserved x.name
  code : f.Declared C s ∨
    ∃ c, C.Bound s f c ∧ C.Covers (f.declaration.sites (.body c f.declaration))

/-- The functions of the class are members not bound, and the class and its
ancestors are objects of the store. -/
structure Class.Housed (C : Chronicle) (s : Store) (c : Class) : Prop where
  members : c.All (Closure.Free C s)
  objects : ∀ d ∈ c.lineage, d.id < s.fields.size

/-- The functions that the value holds are housed, and its objects are those
of the store. -/
def Value.Housed (C : Chronicle) (s : Store) : Value → Prop
  | function f => f.Housed C s
  | cls c => c.Housed C s
  | inst object => object.id < s.fields.size ∧ object.cls.Housed C s
  | _ => True

section

variable {C : Chronicle} {s s' : Store}

theorem Chronicle.Encloses.mono {frame : FrameId} {c : ClassDecl}
    (h : C.Encloses s frame c) (hs : Later s s') : C.Encloses s' frame c := by
  refine ⟨Nat.lt_of_lt_of_le h.1 hs.size, fun hparent => ?_⟩
  obtain ⟨superclass, hsealed, hdeclares⟩ := h.2 hparent
  exact ⟨superclass, hs.sealed _ _ _ not_unreserved_super hsealed, hdeclares⟩

theorem Chronicle.Bound.mono {f : Closure} {c : ClassDecl} (h : C.Bound s f c)
    (hs : Later s s') : C.Bound s' f c := by
  obtain ⟨hmember, receiver, outer, hsealed, hparent, hencloses⟩ := h
  exact ⟨hmember, receiver, outer,
    hs.sealed _ _ _ not_unreserved_this hsealed, hs.parent _ _ hparent,
    hencloses.mono hs⟩

theorem Chronicle.At.mono {frame : FrameId} {home : Home}
    (h : C.At s frame home) (hs : Later s s') : C.At s' frame home := by
  cases home with
  | none => trivial
  | some x =>
    obtain ⟨k, c, f⟩ := x
    obtain ⟨entry, closure, hentry, hparent, hf, henters, hbound⟩ := h
    exact ⟨entry, closure, hs.ancestor? hentry, hs.parent _ _ hparent, hf,
      henters, hbound.mono hs⟩

theorem Chronicle.Lives.mono {frame : FrameId} {home : Home}
    (h : C.Lives s frame home) (hs : Later s s') : C.Lives s' frame home :=
  ⟨Nat.lt_of_lt_of_le h.lt hs.size, hs.takes frame h.lt h.takes,
    h.place.mono hs⟩

theorem Closure.Free.mono {f : Closure} (h : f.Free C s) (hs : Later s s') :
    f.Free C s' := by
  obtain ⟨hparams, c, hmember, hencloses, hcovers⟩ := h
  exact ⟨hparams, c, hmember, hencloses.mono hs, hcovers⟩

theorem Closure.Housed.mono {f : Closure} (h : f.Housed C s)
    (hs : Later s s') : f.Housed C s' := by
  refine ⟨h.params, ?_⟩
  rcases h.code with ⟨hkind, home, hlives, hcovers⟩ | ⟨c, hbound, hcovers⟩
  · exact .inl ⟨hkind, home, hlives.mono hs, hcovers⟩
  · exact .inr ⟨c, hbound.mono hs, hcovers⟩

theorem Class.Housed.mono {c : Class} (h : c.Housed C s) (hs : Later s s') :
    c.Housed C s' :=
  ⟨h.members.mono fun _ hf => hf.mono hs,
    fun d hd => Nat.lt_of_lt_of_le (h.objects d hd) hs.fields⟩

theorem Value.Housed.mono {v : Value} (h : v.Housed C s) (hs : Later s s') :
    v.Housed C s' := by
  cases v with
  | function f => exact Closure.Housed.mono h hs
  | cls c => exact Class.Housed.mono h hs
  | inst object =>
    exact ⟨Nat.lt_of_lt_of_le h.1 hs.fields, Class.Housed.mono h.2 hs⟩
  | _ => trivial

theorem Value.IsPlain.housed {v : Value} (h : v.IsPlain) : v.Housed C s := by
  cases v <;> trivial

/-- The frame that a function closes over is one of the store. -/
theorem Closure.Housed.lt {f : Closure} (h : f.Housed C s) :
    f.frame < s.frames.size := by
  rcases h.code with ⟨-, home, hlives, -⟩ | ⟨c, ⟨-, receiver, outer, hsealed, -⟩, -⟩
  · exact hlives.lt
  · exact hsealed.lt

/-- An initializer that can be called has a receiver. -/
theorem Closure.Housed.receiver {f : Closure} (h : f.Housed C s)
    (hinit : f.declaration.isInitializer = true) :
    ∃ receiver, s.Sealed f.frame Keyword.kwThis.lexeme receiver := by
  rcases h.code with ⟨hkind, -⟩ | ⟨c, ⟨-, receiver, outer, hsealed, -⟩, -⟩
  · rw [FunctionDecl.isInitializer_of_function hkind] at hinit
    cases hinit
  · exact ⟨receiver, hsealed⟩

/-! ## Frames further in -/

/-- The frame of a block, or of a function that a statement has declared. -/
theorem Chronicle.Lives.addFrame {frame : FrameId} {home : Home}
    (h : C.Lives s frame home) {bindings : Table Value}
    (hnames : ∀ name, bindings.find? name ≠ none → Unreserved name) :
    C.Lives (s.addFrame (some frame) bindings) s.nextFrame home.inner := by
  have hparent := Store.parent?_nextFrame h.lt bindings
  have hlater := Later.addFrame s (some frame) bindings
  refine ⟨Store.lt_size_of_parent? hparent, .inr fun name hname => ?_, ?_⟩
  · rw [Store.valueIn?_addFrame, if_pos rfl] at hname
    exact hnames name hname
  · cases home with
    | none => trivial
    | some x =>
      obtain ⟨k, c, f⟩ := x
      obtain ⟨entry, closure, hentry, hrest⟩ := h.place.mono hlater
      refine ⟨entry, closure, ?_, hrest⟩
      rw [Store.ancestor?, hparent]
      exact hentry

/-- The frame of the body of a bound member. -/
theorem Chronicle.Bound.addFrame {f : Closure} {c : ClassDecl}
    (h : C.Bound s f c) {bindings : Table Value}
    (hnames : ∀ name, bindings.find? name ≠ none → Unreserved name)
    (henters : C.Enters f s.nextFrame) :
    C.Lives (s.addFrame (some f.frame) bindings) s.nextFrame
      (.body c f.declaration) := by
  obtain ⟨hmember, receiver, outer, hsealed, hrest⟩ := h
  have hparent := Store.parent?_nextFrame hsealed.lt bindings
  have hlater := Later.addFrame s (some f.frame) bindings
  refine ⟨Store.lt_size_of_parent? hparent, .inr fun name hname => ?_, ?_⟩
  · rw [Store.valueIn?_addFrame, if_pos rfl] at hname
    exact hnames name hname
  · exact ⟨s.nextFrame, f, rfl, hparent, rfl, henters,
      Chronicle.Bound.mono ⟨hmember, receiver, outer, hsealed, hrest⟩ hlater⟩

/-- A member that is bound is housed. -/
theorem Closure.Free.bind {method : Closure} (h : method.Free C s)
    (receiver : Value) :
    s.Grows (s.bindMethod method receiver).1 ∧
      (s.bindMethod method receiver).2.Housed C
        (s.bindMethod method receiver).1 := by
  obtain ⟨hparams, c, hmember, hencloses, hcovers⟩ := h
  have hmakes : s.Makes s.nextFrame Keyword.kwThis.lexeme receiver
      (s.bindMethod method receiver).1 := .bind receiver hencloses.1
  have hchange := Store.Change.make hmakes
  have hparent : (s.bindMethod method receiver).1.parent? s.nextFrame =
      some method.frame := Store.parent?_nextFrame hencloses.1 _
  exact ⟨.of_change hchange, hparams, .inr ⟨c, ⟨hmember, receiver, method.frame,
    hmakes.sealed, hparent, hencloses.mono hchange.later⟩, hcovers⟩⟩

/-! ## Natives -/

/-- The value itself, and the classes that can be had from it. -/
def Value.parts : Value → List Value
  | cls c => c.lineage.map cls
  | inst object => inst object :: object.cls.lineage.map cls
  | v => [v]

theorem Value.mem_parts_self (v : Value) : v ∈ v.parts := by
  cases v with
  | cls c => exact List.mem_map.2 ⟨c, c.mem_lineage_self, rfl⟩
  | _ => exact List.mem_cons_self

/-- What the class of an instance has with the instance, and an ancestor with a
class, all parts have with the value. -/
theorem Value.of_mem_parts {P : Value → Prop}
    (hobject : ∀ object : Instance, P (.inst object) → P (.cls object.cls))
    (hclass : ∀ c d : Class, d ∈ c.lineage → P (.cls c) → P (.cls d))
    {v w : Value} (hw : w ∈ v.parts) (h : P v) : P w := by
  cases v with
  | cls c =>
    obtain ⟨d, hd, rfl⟩ := List.mem_map.1 hw
    exact hclass c d hd h
  | inst object =>
    rcases List.mem_cons.1 hw with rfl | hw
    · exact h
    · obtain ⟨d, hd, rfl⟩ := List.mem_map.1 hw
      exact hclass object.cls d hd (hobject object h)
  | _ =>
    cases List.mem_singleton.1 hw
    exact h

theorem Class.Housed.ancestor {c d : Class} (h : c.Housed C s)
    (hd : d ∈ c.lineage) : d.Housed C s :=
  ⟨h.members.ancestor hd, fun e he => h.objects e (lineage_trans hd he)⟩

theorem Value.Housed.part {v w : Value} (h : v.Housed C s)
    (hw : w ∈ v.parts) : w.Housed C s :=
  of_mem_parts (P := Housed C s) (fun _ hobject => hobject.2)
    (fun _ _ hd hc => Class.Housed.ancestor hc hd) hw h

theorem Value.Sane.part {v w : Value} (h : v.Sane) (hw : w ∈ v.parts) :
    w.Sane :=
  of_mem_parts (P := Sane) (fun _ hobject => hobject)
    (fun _ _ hd hc => Class.All.ancestor hc hd) hw h

/-- The native function makes no functions, classes and instances of its own:
it gives back plain data, or one of its arguments, or a class of one. -/
def Machine.Behaviour.Honest (behaviour : Behaviour) : Prop :=
  ∀ (now : Float) (arguments : List Value) (v : Value),
    behaviour now arguments = .ok v → v.IsPlain ∨ ∃ a ∈ arguments, v ∈ a.parts

theorem Machine.Behaviour.Honest.sparing {behaviour : Behaviour}
    (h : behaviour.Honest) : behaviour.Sparing := by
  intro now arguments v harguments hv
  rcases h now arguments v hv with hplain | ⟨a, ha, hpart⟩
  · exact hplain.sane
  · exact (harguments a ha).part hpart

theorem Machine.Behaviour.Faithful.honest {behaviour : Behaviour}
    (h : behaviour.Faithful) : behaviour.Honest := by
  intro now arguments v hv
  rcases h.closed now arguments v hv with hplain | hmem
  · exact .inl hplain
  · exact .inr ⟨v, hmem, v.mem_parts_self⟩

end

end Lox
