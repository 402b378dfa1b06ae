import Lox.Proofs.Scope.Supers
import Lox.Proofs.Store.Frames

/-!
# Receivers in the store

A method of a class with a superclass closes over a frame that holds the
superclass under the name `super`; when it is bound, a frame further in gets
the receiver under the name `this`.  A frame hosts a receiver if the two go
together: the class of the receiver descends from the class under `super`
(`Store.Hosts`).  Code that stands in a method has such a frame at the distance
of its seat (`Store.Seat`), and so has all code that the store holds
(`Store.Seated`).

What a frame hosts stays, because programs give no values to `this` and
`super` (`Store.Sustains`).
-/

namespace Lox

/-- The superclass of a class, the superclass of that one, and so on. -/
def Class.ancestors : Class → List Class
  | base _ => []
  | derived _ superclass => superclass :: superclass.ancestors

theorem Class.ancestors_trans {c d e : Class} (h : d ∈ c.ancestors)
    (h' : e ∈ d.ancestors) : e ∈ c.ancestors := by
  induction c with
  | base info => cases h
  | derived info superclass ih =>
    rcases List.mem_cons.1 h with rfl | h
    · exact List.mem_cons_of_mem _ h'
    · exact List.mem_cons_of_mem _ (ih h)

/-- The value is an instance of a class below `superclass`.  Unless `strict` it
may also be such a class itself, to which a static method is bound. -/
def Value.Inherits (strict : Bool) (superclass : Class) : Value → Prop
  | inst object => superclass ∈ object.cls.ancestors
  | cls c => strict = false ∧ superclass ∈ c.ancestors
  | _ => False

theorem Value.Inherits.trans {strict : Bool} {c d : Class} {v : Value}
    (h : v.Inherits strict c) (hd : d ∈ c.ancestors) : v.Inherits strict d := by
  cases v with
  | inst object => exact Class.ancestors_trans h hd
  | cls e => exact ⟨h.1, Class.ancestors_trans h.2 hd⟩
  | _ => exact h

namespace Store

/-! ## What frames keep -/

/-- The second store comes from the first.  Frames keep their parents, and a
frame that has a parent keeps its `this` and its `super`. -/
structure Sustains (s s' : Store) : Prop where
  size : s.frames.size ≤ s'.frames.size
  parent : ∀ f p, s.parent? f = some p → s'.parent? f = some p
  kept : ∀ f name v, ¬ Unreserved name → s.parent? f ≠ none →
    s.valueIn? f name = some v → s'.valueIn? f name = some v

namespace Sustains

variable {s s' s'' : Store}

theorem of_frames (h : s'.frames = s.frames) : Sustains s s' := by
  refine ⟨Nat.le_of_eq (by rw [h]), ?_, ?_⟩
  · intro f p hp
    rw [parent?, h]
    exact hp
  · intro f name v _ _ hv
    rw [valueIn?, h]
    exact hv

theorem refl (s : Store) : Sustains s s :=
  of_frames rfl

theorem ne_none (h : Sustains s s') {f : FrameId} (hf : s.parent? f ≠ none) :
    s'.parent? f ≠ none := by
  obtain ⟨p, hp⟩ := Option.ne_none_iff_exists'.1 hf
  rw [h.parent f p hp]
  exact Option.some_ne_none p

theorem trans (h : Sustains s s') (h' : Sustains s' s'') : Sustains s s'' where
  size := Nat.le_trans h.size h'.size
  parent := fun f p hp => h'.parent f p (h.parent f p hp)
  kept := fun f name v hname hf hv =>
    h'.kept f name v hname (h.ne_none hf) (h.kept f name v hname hf hv)

/-- A value is given to a name of the program, or in a root. -/
theorem define {frame : FrameId} {name : String}
    (h : Unreserved name ∨ s.parent? frame = none) (v : Value) :
    Sustains s (s.define frame name v) where
  size := by simp
  parent := by simp
  kept := by
    intro f other w hother hf hw
    rw [valueIn?_define, if_neg, hw]
    rintro ⟨rfl, rfl, -⟩
    exact h.elim hother hf

theorem addFrame (s : Store) (parent : Option FrameId)
    (bindings : Table Value) : Sustains s (s.addFrame parent bindings) where
  size := by simp [Store.addFrame]
  parent := by
    intro f p hp
    have hne : f ≠ s.nextFrame := Nat.ne_of_lt (lt_size_of_parent? hp)
    rw [parent?_addFrame, if_neg hne, hp]
  kept := by
    intro f name v _ _ hv
    have hne : f ≠ s.nextFrame := Nat.ne_of_lt (lt_size_of_valueIn? hv)
    rw [valueIn?_addFrame, if_neg hne, hv]

theorem ancestor? (h : Sustains s s') {g f : FrameId} {k : Nat}
    (hg : s.ancestor? g k = some f) : s'.ancestor? g k = some f := by
  induction k generalizing g with
  | zero => exact hg
  | succ k ih =>
    rw [Store.ancestor?] at hg ⊢
    cases hp : s.parent? g with
    | none =>
      rw [hp] at hg
      cases hg
    | some p =>
      rw [hp] at hg
      rw [h.parent g p hp]
      exact ih hg

end Sustains

theorem ancestor?_succ {s : Store} {g f : FrameId} {k : Nat}
    (h : s.ancestor? g k = some f) : s.ancestor? g (k + 1) = s.parent? f := by
  induction k generalizing g with
  | zero =>
    cases h
    rw [Store.ancestor?]
    cases s.parent? f <;> rfl
  | succ k ih =>
    rw [Store.ancestor?] at h ⊢
    cases hp : s.parent? g with
    | none =>
      rw [hp] at h
      cases h
    | some p =>
      rw [hp] at h
      exact ih h

/-! ## Frames of receivers -/

/-- The frame holds `super`, if there is a superclass. -/
def Under (s : Store) (frame : FrameId) : Option Class → Prop
  | none => frame < s.frames.size
  | some superclass => s.parent? frame ≠ none ∧
      s.valueIn? frame Keyword.kwSuper.lexeme = some (.cls superclass)

/-- The frame holds a receiver, and its parent a class that the receiver
descends from. -/
def Hosts (strict : Bool) (s : Store) (frame : FrameId) : Prop :=
  ∃ receiver p superclass,
    s.valueIn? frame Keyword.kwThis.lexeme = some receiver ∧
    s.parent? frame = some p ∧ s.Under p (some superclass) ∧
    receiver.Inherits strict superclass

/-- The frame of code with the given seat. -/
def Seat (strict : Bool) (s : Store) (frame : FrameId) : Option Nat → Prop
  | none => frame < s.frames.size
  | some k => ∃ f, s.ancestor? frame k = some f ∧ s.Hosts strict f

section

variable {strict : Bool} {s s' : Store} {frame : FrameId}

theorem Under.lt {base : Option Class} (h : s.Under frame base) :
    frame < s.frames.size := by
  cases base with
  | none => exact h
  | some superclass => exact lt_size_of_valueIn? h.2

theorem Under.sustain {base : Option Class} (h : s.Under frame base)
    (hs : Sustains s s') : s'.Under frame base := by
  cases base with
  | none => exact Nat.lt_of_lt_of_le h hs.size
  | some superclass =>
    exact ⟨hs.ne_none h.1, hs.kept _ _ _ (fun hname => hname.2 rfl) h.1 h.2⟩

theorem Hosts.sustain (h : s.Hosts strict frame) (hs : Sustains s s') :
    s'.Hosts strict frame := by
  obtain ⟨receiver, p, superclass, hthis, hp, hsuper, hinherits⟩ := h
  refine ⟨receiver, p, superclass, ?_, hs.parent _ _ hp, hsuper.sustain hs,
    hinherits⟩
  exact hs.kept _ _ _ (fun hname => hname.1 rfl) (by simp [hp]) hthis

theorem Seat.sustain {seat : Option Nat} (h : s.Seat strict frame seat)
    (hs : Sustains s s') : s'.Seat strict frame seat := by
  cases seat with
  | none => exact Nat.lt_of_lt_of_le h hs.size
  | some k =>
    obtain ⟨f, hf, hhosts⟩ := h
    exact ⟨f, hs.ancestor? hf, hhosts.sustain hs⟩

theorem Seat.lt {seat : Option Nat} (h : s.Seat strict frame seat) :
    frame < s.frames.size := by
  cases seat with
  | none => exact h
  | some k =>
    obtain ⟨f, hf, receiver, p, superclass, hthis, -⟩ := h
    cases k with
    | zero =>
      cases hf
      exact lt_size_of_valueIn? hthis
    | succ k =>
      rw [Store.ancestor?] at hf
      cases hp : s.parent? frame with
      | none =>
        rw [hp] at hf
        cases hf
      | some q => exact lt_size_of_parent? hp

theorem parent?_nextFrame (h : frame < s.frames.size) (bindings : Table Value) :
    (s.addFrame (some frame) bindings).parent? s.nextFrame = some frame := by
  rw [parent?_addFrame, if_pos rfl, Option.filter_some, if_pos (decide_eq_true h)]

/-- The receiver is found at the distance of the seat, and the class it
descends from one frame further out. -/
theorem Seat.found {k : Nat} (h : s.Seat strict frame (some k)) :
    ∃ receiver superclass,
      s.getAt? frame k Keyword.kwThis.lexeme = some receiver ∧
      s.getAt? frame (k + 1) Keyword.kwSuper.lexeme = some (.cls superclass) ∧
      receiver.Inherits strict superclass := by
  obtain ⟨f, hf, receiver, p, superclass, hthis, hp, hsuper, hinherits⟩ := h
  refine ⟨receiver, superclass, ?_, ?_, hinherits⟩
  · rw [getAt?, hf]
    exact hthis
  · rw [getAt?, ancestor?_succ hf, hp]
    exact hsuper.2

/-- A frame further in. -/
theorem Seat.addFrame {seat : Option Nat} (h : s.Seat strict frame seat)
    (bindings : Table Value) :
    (s.addFrame (some frame) bindings).Seat strict s.nextFrame
      (seat.map (· + 1)) := by
  have hparent := parent?_nextFrame h.lt bindings
  have hthere := h.sustain (Sustains.addFrame s (some frame) bindings)
  cases seat with
  | none => exact lt_size_of_parent? hparent
  | some k =>
    obtain ⟨f, hf, hhosts⟩ := hthere
    refine ⟨f, ?_, hhosts⟩
    rw [Store.ancestor?, hparent]
    exact hf

/-- The frame in which a receiver is bound. -/
theorem Under.bind {base : Option Class} (h : s.Under frame base)
    {receiver : Value} (hreceiver : ∀ c ∈ base, receiver.Inherits strict c) :
    (s.addFrame (some frame)
      (Table.empty.insert Keyword.kwThis.lexeme receiver)).Seat strict
        s.nextFrame (base.map fun _ => 0) := by
  have hparent := parent?_nextFrame h.lt
    (Table.empty.insert Keyword.kwThis.lexeme receiver)
  have hthere := h.sustain (Sustains.addFrame s (some frame)
    (Table.empty.insert Keyword.kwThis.lexeme receiver))
  cases base with
  | none => exact lt_size_of_parent? hparent
  | some superclass =>
    refine ⟨s.nextFrame, rfl, receiver, frame, superclass, ?_, hparent, hthere,
      hreceiver superclass rfl⟩
    rw [valueIn?_addFrame, if_pos rfl, Table.find?_insert, if_pos rfl]

end

end Store

/-! ## Code in the store -/

open Store (Sustains)

/-- The code of the function is seated in the frame it closes over. -/
def Closure.Seated (strict : Bool) (L : Ledger) (s : Store) (f : Closure) :
    Prop :=
  ∃ seat, s.Seat strict f.frame seat ∧
    SeatedAt L (f.declaration.seats strict seat)

/-- The member is seated once it is bound; `base` is the superclass of its
class. -/
structure Closure.SeatedUnder (strict : Bool) (L : Ledger) (s : Store)
    (base : Option Class) (f : Closure) : Prop where
  frame : s.Under f.frame base
  code : SeatedAt L (f.declaration.seats strict (base.map fun _ => 0))

/-- The members of a class with the superclass `base` are seated. -/
structure ClassInfo.Seated (strict : Bool) (L : Ledger) (s : Store)
    (base : Option Class) (info : ClassInfo) : Prop where
  methods : ∀ name f, info.methods.find? name = some f →
    f.SeatedUnder strict L s base
  statics : ∀ name f, info.statics.find? name = some f →
    f.SeatedUnder strict L s (if strict then none else base)

/-- The members of the class and of its ancestors are seated. -/
def Class.Seated (strict : Bool) (L : Ledger) (s : Store) : Class → Prop
  | base info => info.Seated strict L s none
  | derived info superclass =>
    info.Seated strict L s (some superclass) ∧ superclass.Seated strict L s

/-- The code that the value holds is seated. -/
def Value.Seated (strict : Bool) (L : Ledger) (s : Store) : Value → Prop
  | function f => f.Seated strict L s
  | cls c => c.Seated strict L s
  | inst object => object.cls.Seated strict L s
  | _ => True

/-- All code in the store is seated. -/
structure Store.Seated (strict : Bool) (L : Ledger) (s : Store) : Prop where
  values : ∀ frame name v, s.valueIn? frame name = some v → v.Seated strict L s
  fields : ∀ object name v, s.field? object name = some v → v.Seated strict L s

section

variable {strict : Bool} {L L' : Ledger} {s s' : Store}

theorem Closure.Seated.mono {f : Closure} (h : f.Seated strict L s)
    (hs : Sustains s s') (hL : L.Keeps L') : f.Seated strict L' s' := by
  obtain ⟨seat, hseat, hcode⟩ := h
  exact ⟨seat, hseat.sustain hs, hcode.mono hL⟩

theorem ClassInfo.Seated.mono {base : Option Class} {info : ClassInfo}
    (h : info.Seated strict L s base) (hs : Sustains s s') (hL : L.Keeps L') :
    info.Seated strict L' s' base where
  methods := fun name f hf =>
    ⟨(h.methods name f hf).frame.sustain hs, (h.methods name f hf).code.mono hL⟩
  statics := fun name f hf =>
    ⟨(h.statics name f hf).frame.sustain hs, (h.statics name f hf).code.mono hL⟩

theorem Class.Seated.mono {c : Class} (h : c.Seated strict L s)
    (hs : Sustains s s') (hL : L.Keeps L') : c.Seated strict L' s' := by
  induction c with
  | base info => exact ClassInfo.Seated.mono h hs hL
  | derived info superclass ih => exact ⟨h.1.mono hs hL, ih h.2⟩

theorem Value.Seated.mono {v : Value} (h : v.Seated strict L s)
    (hs : Sustains s s') (hL : L.Keeps L') : v.Seated strict L' s' := by
  cases v with
  | function f => exact Closure.Seated.mono h hs hL
  | cls c => exact Class.Seated.mono h hs hL
  | inst object => exact Class.Seated.mono h hs hL
  | _ => trivial

theorem Ledger.Keeps.refl (L : Ledger) : L.Keeps L :=
  fun _ _ h => h

theorem Value.Seated.sustain {v : Value} (h : v.Seated strict L s)
    (hs : Sustains s s') : v.Seated strict L s' :=
  h.mono hs (.refl L)

theorem Store.Seated.keep (h : s.Seated strict L) (hL : L.Keeps L') :
    s.Seated strict L' where
  values := fun frame name v hv => (h.values frame name v hv).mono (.refl s) hL
  fields := fun object name v hv => (h.fields object name v hv).mono (.refl s) hL

/-- A later store is seated if each of its values is an old one or is. -/
theorem Store.Seated.sustain (h : s.Seated strict L) (hs : Sustains s s')
    (hvalues : ∀ frame name v, s'.valueIn? frame name = some v →
      s.valueIn? frame name = some v ∨ v.Seated strict L s')
    (hfields : ∀ object name v, s'.field? object name = some v →
      s.field? object name = some v ∨ v.Seated strict L s') :
    s'.Seated strict L where
  values := by
    intro frame name v hv
    rcases hvalues frame name v hv with hold | hnew
    · exact (h.values frame name v hold).sustain hs
    · exact hnew
  fields := by
    intro object name v hv
    rcases hfields object name v hv with hold | hnew
    · exact (h.fields object name v hold).sustain hs
    · exact hnew

theorem Store.Seated.of_getAt? (h : s.Seated strict L) {frame : FrameId}
    {d : Nat} {name : String} {v : Value} (hv : s.getAt? frame d name = some v) :
    v.Seated strict L s := by
  unfold Store.getAt? at hv
  split at hv
  · exact h.values _ _ _ hv
  · cases hv

/-! ## Binding members -/

/-- The member is seated when it is bound to the receiver. -/
def Closure.BindsTo (strict : Bool) (L : Ledger) (s : Store) (f : Closure)
    (receiver : Value) : Prop :=
  ∃ base, f.SeatedUnder strict L s base ∧
    ∀ c ∈ base, receiver.Inherits strict c

/-- A method is found in the class itself or in an ancestor. -/
theorem Class.Seated.findMethod? {c : Class} (h : c.Seated strict L s)
    {name : String} {f : Closure} (hf : c.findMethod? name = some f) :
    ∃ base, f.SeatedUnder strict L s base ∧ ∀ d ∈ base, d ∈ c.ancestors := by
  induction c with
  | base info => exact ⟨none, ClassInfo.Seated.methods h name f hf, nofun⟩
  | derived info superclass ih =>
    rw [Class.findMethod?] at hf
    split at hf
    · next hown =>
      cases hf
      refine ⟨some superclass, h.1.methods name f hown, ?_⟩
      rintro d ⟨⟩
      exact List.mem_cons_self
    · obtain ⟨base, hseated, hbase⟩ := ih h.2 hf
      exact ⟨base, hseated, fun d hd => List.mem_cons_of_mem _ (hbase d hd)⟩

theorem Class.Seated.findStatic? {c : Class} (h : c.Seated strict L s)
    {name : String} {f : Closure} (hf : c.findStatic? name = some f) :
    f.BindsTo strict L s (.cls c) := by
  induction c with
  | base info =>
    have hstatic := ClassInfo.Seated.statics h name f hf
    rw [ite_self] at hstatic
    exact ⟨none, hstatic, nofun⟩
  | derived info superclass ih =>
    rw [Class.findStatic?] at hf
    split at hf
    · next hown =>
      cases hf
      refine ⟨_, h.1.statics name f hown, ?_⟩
      cases strict with
      | true => nofun
      | false =>
        rintro d ⟨⟩
        exact ⟨rfl, List.mem_cons_self⟩
    · obtain ⟨base, hseated, hbase⟩ := ih h.2 hf
      exact ⟨base, hseated, fun d hd =>
        ⟨(hbase d hd).1, List.mem_cons_of_mem _ (hbase d hd).2⟩⟩

theorem Class.Seated.bindsTo {c : Class} (h : c.Seated strict L s)
    {name : String} {f : Closure} (hf : c.findMethod? name = some f)
    (id : ObjectId) : f.BindsTo strict L s (.inst ⟨id, c⟩) :=
  h.findMethod? hf

/-- A method that is found through `super`. -/
theorem Class.Seated.bindsTo_super {c : Class} (h : c.Seated strict L s)
    {name : String} {f : Closure} (hf : c.findMethod? name = some f)
    {receiver : Value} (hreceiver : receiver.Inherits strict c) :
    f.BindsTo strict L s receiver := by
  obtain ⟨base, hseated, hbase⟩ := h.findMethod? hf
  exact ⟨base, hseated, fun d hd => hreceiver.trans (hbase d hd)⟩

end

namespace Store

variable {strict : Bool} {L : Ledger} {s : Store}

/-! ## Operations -/

theorem Seated.define (h : s.Seated strict L) {frame : FrameId} {name : String}
    {v : Value} (hs : Sustains s (s.define frame name v))
    (hv : v.Seated strict L s) : (s.define frame name v).Seated strict L := by
  refine h.sustain hs ?_ fun _ _ _ hfield => .inl hfield
  intro other name' w hw
  rw [valueIn?_define] at hw
  split at hw
  · cases hw
    exact .inr (hv.sustain hs)
  · exact .inl hw

theorem Seated.addFrame (h : s.Seated strict L) (parent : Option FrameId)
    {bindings : Table Value}
    (hbindings : ∀ name v, bindings.find? name = some v → v.Seated strict L s) :
    (s.addFrame parent bindings).Seated strict L := by
  have hs := Sustains.addFrame s parent bindings
  refine h.sustain hs ?_ fun _ _ _ hfield => .inl hfield
  intro frame name v hv
  rw [valueIn?_addFrame] at hv
  split at hv
  · exact .inr ((hbindings name v hv).sustain hs)
  · exact .inl hv

theorem Seated.addObject (h : s.Seated strict L) :
    s.addObject.Seated strict L := by
  have hs : Sustains s s.addObject := .of_frames rfl
  refine h.sustain hs (fun _ _ _ hv => .inl hv) ?_
  intro object name v hv
  rw [field?_addObject] at hv
  exact .inl hv

theorem Seated.setField (h : s.Seated strict L) (object : ObjectId)
    (name : String) {v : Value} (hv : v.Seated strict L s) :
    (s.setField object name v).Seated strict L := by
  have hs : Sustains s (s.setField object name v) := .of_frames rfl
  refine h.sustain hs (fun _ _ _ hv => .inl hv) ?_
  intro other name' w hw
  rw [field?_setField] at hw
  split at hw
  · cases hw
    exact .inr (hv.sustain hs)
  · exact .inl hw

theorem Seated.makeClosure (h : s.Seated strict L) (f : FunctionDecl)
    (frame : FrameId) : (s.makeClosure f frame).1.Seated strict L := by
  have hs : Sustains s (s.makeClosure f frame).1 := .of_frames rfl
  exact h.sustain hs (fun _ _ _ hv => .inl hv) fun _ _ _ hv => .inl hv

/-- A member is bound in a frame of its own, which hosts the receiver. -/
theorem Seated.bindMethod (h : s.Seated strict L) {method : Closure}
    {receiver : Value} (hmethod : method.BindsTo strict L s receiver)
    (hreceiver : receiver.Seated strict L s) :
    (s.bindMethod method receiver).1.Seated strict L ∧
      Sustains s (s.bindMethod method receiver).1 ∧
      (s.bindMethod method receiver).2.Seated strict L
        (s.bindMethod method receiver).1 := by
  let bindings := Table.empty.insert Keyword.kwThis.lexeme receiver
  let framed := s.addFrame (some method.frame) bindings
  have hbound : Sustains framed (s.bindMethod method receiver).1 :=
    .of_frames rfl
  have hframed : framed.Seated strict L :=
    h.addFrame _ (Table.forall_single _ hreceiver)
  obtain ⟨base, ⟨hunder, hcode⟩, hbase⟩ := hmethod
  exact ⟨hframed.makeClosure _ _, (Sustains.addFrame _ _ _).trans hbound, _,
    (hunder.bind hbase).sustain hbound, hcode⟩

end Store

end Lox
