import Mathlib.Logic.Relation
import Lox.Proofs.Store.Receivers

/-!
# How the store grows

A running program changes the store in few ways (`Store.Change`).  It declares
variables in frames that take them, gives new values to variables that exist,
adds frames, and makes functions, objects and fields.  The frames of `this` and
of `super` are made on their own: by binding a method, and by declaring a class
with a superclass (`Store.Makes`).

Such a frame is sealed: it holds the one name it was made for, and it keeps it
(`Later.sealed`).  And whatever frame holds `this` or `super` was there before
or was made in this way (`Grows.origin`).
-/

namespace Lox.Store

/-! ## Frames -/

/-- The frame takes new variables: it is a root, or holds neither `this` nor
`super`. -/
def Open (s : Store) (frame : FrameId) : Prop :=
  s.parent? frame = none ∨
    ∀ name, s.valueIn? frame name ≠ none → Unreserved name

/-- The frame is no root and holds the name with the value, and nothing
else. -/
def Sealed (s : Store) (frame : FrameId) (name : String) (v : Value) : Prop :=
  s.parent? frame ≠ none ∧
    ∀ name', s.valueIn? frame name' = if name' = name then some v else none

theorem Sealed.value {s : Store} {frame : FrameId} {name : String} {v : Value}
    (h : s.Sealed frame name v) : s.valueIn? frame name = some v := by
  rw [h.2 name, if_pos rfl]

theorem Sealed.lt {s : Store} {frame : FrameId} {name : String} {v : Value}
    (h : s.Sealed frame name v) : frame < s.frames.size :=
  lt_size_of_valueIn? h.value

/-- A frame that takes variables is not sealed with `this` or `super`. -/
theorem Open.not_sealed {s : Store} {frame : FrameId} {name : String}
    {v : Value} (h : s.Open frame) (hname : ¬ Unreserved name) :
    ¬ s.Sealed frame name v := by
  intro hsealed
  rcases h with hroot | hnames
  · exact hsealed.1 hroot
  · refine hname (hnames name ?_)
    rw [hsealed.value]
    exact Option.some_ne_none v

/-- The older frames are as they were. -/
theorem addFrame_below {s : Store} {frame : FrameId}
    (h : frame < s.frames.size) (parent : Option FrameId)
    (bindings : Table Value) :
    (s.addFrame parent bindings).parent? frame = s.parent? frame ∧
      ∀ name, (s.addFrame parent bindings).valueIn? frame name =
        s.valueIn? frame name := by
  have hne : frame ≠ s.nextFrame := Nat.ne_of_lt h
  constructor
  · rw [parent?_addFrame, if_neg hne]
  · intro name
    rw [valueIn?_addFrame, if_neg hne]

/-! ## Changes -/

/-- The second store comes from the first by making the frame, which holds the
name with the value: the frame of `this` of a method that is bound, or the
frame of `super` of a class that is declared. -/
inductive Makes : Store → FrameId → String → Value → Store → Prop where
  | bind {s : Store} {method : Closure} (receiver : Value)
      (inside : method.frame < s.frames.size) :
      Makes s s.nextFrame Keyword.kwThis.lexeme receiver
        (s.bindMethod method receiver).1
  | inherit {s : Store} {parent : FrameId} (superclass : Class)
      (inside : parent < s.frames.size) :
      Makes s s.nextFrame Keyword.kwSuper.lexeme (.cls superclass)
        (s.addFrame (some parent)
          (Table.empty.insert Keyword.kwSuper.lexeme (.cls superclass)))

/-- What a running program does to the store at once. -/
inductive Change : Store → Store → Prop where
  | declare {s : Store} {frame : FrameId} {name : String} (v : Value)
      (takes : s.Open frame) (unreserved : Unreserved name) :
      Change s (s.define frame name v)
  | assign {s : Store} {frame : FrameId} {name : String} (v : Value)
      (held : s.valueIn? frame name ≠ none) (unreserved : Unreserved name) :
      Change s (s.define frame name v)
  | scope {s : Store} {parent : FrameId} {bindings : Table Value}
      (inside : parent < s.frames.size)
      (names : ∀ name, bindings.find? name ≠ none → Unreserved name) :
      Change s (s.addFrame (some parent) bindings)
  | make {s s' : Store} {frame : FrameId} {name : String} {v : Value}
      (made : Makes s frame name v s') : Change s s'
  /-- Functions, objects and fields. -/
  | other {s s' : Store} (frames : s'.frames = s.frames)
      (fields : s.fields.size ≤ s'.fields.size) : Change s s'

/-- The second store comes from the first by what running programs do. -/
def Grows : Store → Store → Prop :=
  Relation.ReflTransGen Change

/-- What later stores keep of the frames and the objects there are. -/
structure Later (s s' : Store) : Prop extends Sustains s s' where
  fields : s.fields.size ≤ s'.fields.size
  parent_eq : ∀ f < s.frames.size, s'.parent? f = s.parent? f
  takes : ∀ f < s.frames.size, s.Open f → s'.Open f
  sealed : ∀ f name v, ¬ Unreserved name → s.Sealed f name v →
    s'.Sealed f name v

namespace Makes

variable {s s' : Store} {frame : FrameId} {name : String} {v : Value}

theorem reserved (h : Makes s frame name v s') : ¬ Unreserved name := by
  cases h with
  | bind => exact not_unreserved_this
  | inherit => exact not_unreserved_super

theorem frame_eq (h : Makes s frame name v s') : frame = s.nextFrame := by
  cases h <;> rfl

/-- Apart from the count of functions a new frame is all that changes. -/
theorem frames_eq (h : Makes s frame name v s') :
    ∃ parent < s.frames.size,
      s'.frames = (s.addFrame (some parent) (Table.empty.insert name v)).frames ∧
        s'.fields = s.fields := by
  cases h with
  | bind receiver inside => exact ⟨_, inside, rfl, rfl⟩
  | inherit superclass inside => exact ⟨_, inside, rfl, rfl⟩

end Makes

theorem parent?_congr {s s' : Store} (h : s'.frames = s.frames)
    (frame : FrameId) : s'.parent? frame = s.parent? frame := by
  rw [parent?, parent?, h]

theorem valueIn?_congr {s s' : Store} (h : s'.frames = s.frames)
    (frame : FrameId) (name : String) :
    s'.valueIn? frame name = s.valueIn? frame name := by
  rw [valueIn?, valueIn?, h]

/-- The new frame is sealed. -/
theorem Makes.sealed {s s' : Store} {frame : FrameId} {name : String}
    {v : Value} (h : Makes s frame name v s') : s'.Sealed frame name v := by
  obtain ⟨parent, hparent, hframes, -⟩ := h.frames_eq
  rw [h.frame_eq]
  constructor
  · rw [parent?_congr hframes, parent?_nextFrame hparent]
    exact Option.some_ne_none parent
  · intro name'
    rw [valueIn?_congr hframes, valueIn?_addFrame, if_pos rfl, Table.find?_insert]
    rfl

/-! ## What is kept -/

namespace Later

variable {s s' s'' : Store}

theorem refl (s : Store) : Later s s :=
  ⟨.refl s, Nat.le_refl _, fun _ _ => rfl, fun _ _ h => h, fun _ _ _ _ h => h⟩

theorem trans (h : Later s s') (h' : Later s' s'') : Later s s'' where
  toSustains := h.toSustains.trans h'.toSustains
  fields := Nat.le_trans h.fields h'.fields
  parent_eq := fun f hf =>
    (h'.parent_eq f (Nat.lt_of_lt_of_le hf h.size)).trans (h.parent_eq f hf)
  takes := fun f hf hopen =>
    h'.takes f (Nat.lt_of_lt_of_le hf h.size) (h.takes f hf hopen)
  sealed := fun f name v hname hsealed =>
    h'.sealed f name v hname (h.sealed f name v hname hsealed)

theorem of_frames (hframes : s'.frames = s.frames)
    (hfields : s.fields.size ≤ s'.fields.size) : Later s s' where
  toSustains := .of_frames hframes
  fields := hfields
  parent_eq := fun f _ => parent?_congr hframes f
  takes := by
    intro f _ hopen
    simp only [Open, parent?_congr hframes, valueIn?_congr hframes]
    exact hopen
  sealed := by
    intro f name v _ hsealed
    simp only [Sealed, parent?_congr hframes, valueIn?_congr hframes]
    exact hsealed

theorem addFrame (s : Store) (parent : Option FrameId)
    (bindings : Table Value) : Later s (s.addFrame parent bindings) where
  toSustains := .addFrame s parent bindings
  fields := Nat.le_refl _
  parent_eq := fun f hf => (addFrame_below hf parent bindings).1
  takes := by
    intro f hf hopen
    obtain ⟨hparent, hvalues⟩ := addFrame_below hf parent bindings
    simp only [Open, hparent, hvalues]
    exact hopen
  sealed := by
    intro f name v _ hsealed
    obtain ⟨hparent, hvalues⟩ := addFrame_below hsealed.lt parent bindings
    simp only [Sealed, hparent, hvalues]
    exact hsealed

/-- A value is given to a name of the program, or in a root, and not in a
sealed frame. -/
theorem define {frame : FrameId} {name : String}
    (h : Unreserved name ∨ s.parent? frame = none)
    (hfree : ∀ x w, ¬ Unreserved x → ¬ s.Sealed frame x w) (v : Value) :
    Later s (s.define frame name v) where
  toSustains := .define h v
  fields := Nat.le_refl _
  parent_eq := fun f _ => parent?_define s frame f name v
  takes := by
    intro f _ hopen
    rcases hopen with hroot | hnames
    · exact .inl (by rw [parent?_define, hroot])
    · by_cases hsame : f = frame ∧ s.parent? frame = none
      · exact .inl (by rw [parent?_define, hsame.1, hsame.2])
      · right
        intro other hother
        rw [valueIn?_define] at hother
        split at hother
        · next heq =>
          obtain ⟨rfl, rfl, -⟩ := heq
          exact h.resolve_right fun hroot => hsame ⟨rfl, hroot⟩
        · exact hnames other hother
  sealed := by
    intro f x w hx hsealed
    refine ⟨by rw [parent?_define]; exact hsealed.1, fun name' => ?_⟩
    rw [valueIn?_define, if_neg, hsealed.2]
    rintro ⟨rfl, -, -⟩
    exact hfree x w hx hsealed

/-- A value is given to a name in a root. -/
theorem define_root {frame : FrameId} (h : s.parent? frame = none)
    (name : String) (v : Value) : Later s (s.define frame name v) :=
  .define (.inr h) (fun _ _ _ hsealed => hsealed.1 h) v

end Later

namespace Change

variable {s s' : Store} {frame : FrameId} {name : String} {v : Value}

theorem later (h : Change s s') : Later s s' := by
  cases h with
  | declare v takes hname =>
    exact .define (.inl hname) (fun _ _ hx => takes.not_sealed hx) v
  | @assign frame name v held hname =>
    -- A sealed frame holds no name that the program could assign to.
    refine .define (.inl hname) (fun x w hx hsealed => ?_) v
    rw [hsealed.2] at held
    split at held
    · next heq => exact hx (heq ▸ hname)
    · exact held rfl
  | scope inside names => exact .addFrame s _ _
  | make made =>
    obtain ⟨parent, -, hframes, hfields⟩ := made.frames_eq
    exact (Later.addFrame s _ _).trans
      (.of_frames hframes (Nat.le_of_eq (congrArg Array.size hfields.symm)))
  | other frames fields => exact .of_frames frames fields

/-- What is found under `this` or `super` was there before or has been made. -/
theorem origin (h : Change s s') (hname : ¬ Unreserved name)
    (hv : s'.valueIn? frame name = some v) :
    s.valueIn? frame name = some v ∨ Makes s frame name v s' := by
  have hdefine {other : FrameId} {x : String} (w : Value) (hx : Unreserved x)
      (hw : (s.define other x w).valueIn? frame name = some v) :
      s.valueIn? frame name = some v := by
    rw [valueIn?_define, if_neg] at hw
    · exact hw
    · rintro ⟨-, rfl, -⟩
      exact hname hx
  cases h with
  | declare w takes hx => exact .inl (hdefine w hx hv)
  | assign w held hx => exact .inl (hdefine w hx hv)
  | scope inside names =>
    rw [valueIn?_addFrame] at hv
    split at hv
    · refine absurd (names name ?_) hname
      rw [hv]
      exact Option.some_ne_none v
    · exact .inl hv
  | @make _ made x w hmade =>
    obtain ⟨parent, -, hframes, -⟩ := hmade.frames_eq
    have hold := hv
    rw [valueIn?_congr hframes, valueIn?_addFrame] at hold
    split at hold
    · next heq =>
      -- The only name in the new frame is the one it was made for.
      have hsealed := hmade.sealed
      rw [heq, ← hmade.frame_eq, hsealed.2] at hv
      split at hv
      · next hsame =>
        cases hv
        rw [heq, ← hmade.frame_eq, hsame]
        exact .inr hmade
      · cases hv
    · exact .inl hold
  | other frames fields =>
    rw [valueIn?_congr frames] at hv
    exact .inl hv

/-- No roots are added. -/
theorem root (h : Change s s') (hframe : frame < s'.frames.size)
    (hroot : s'.parent? frame = none) : frame < s.frames.size := by
  have hadd {parent : FrameId} (hparent : parent < s.frames.size)
      (bindings : Table Value) {t : Store}
      (ht : t.frames = (s.addFrame (some parent) bindings).frames)
      (hframe : frame < t.frames.size) (hroot : t.parent? frame = none) :
      frame < s.frames.size := by
    rw [parent?_congr ht] at hroot
    rw [ht, Store.addFrame, Array.size_push] at hframe
    refine Nat.lt_of_le_of_ne (Nat.le_of_lt_succ hframe) ?_
    intro heq
    have hnew := parent?_nextFrame hparent bindings
    rw [nextFrame, ← heq, hroot] at hnew
    cases hnew
  cases h with
  | declare => simpa using hframe
  | assign => simpa using hframe
  | scope inside names => exact hadd inside _ rfl hframe hroot
  | make made =>
    obtain ⟨parent, hparent, hframes, -⟩ := made.frames_eq
    exact hadd hparent _ hframes hframe hroot
  | other frames fields => exact frames ▸ hframe

end Change

namespace Grows

variable {s s' s'' : Store} {frame : FrameId} {name : String} {v : Value}

theorem refl (s : Store) : Grows s s :=
  Relation.ReflTransGen.refl

theorem trans (h : Grows s s') (h' : Grows s' s'') : Grows s s'' :=
  Relation.ReflTransGen.trans h h'

theorem of_change (h : Change s s') : Grows s s' :=
  Relation.ReflTransGen.single h

theorem later (h : Grows s s') : Later s s' := by
  induction h with
  | refl => exact .refl s
  | tail _ hchange ih => exact ih.trans hchange.later

/-- What is found under `this` or `super` was there before or has been made on
the way. -/
theorem origin (h : Grows s s') (hname : ¬ Unreserved name)
    (hv : s'.valueIn? frame name = some v) :
    s.valueIn? frame name = some v ∨
      ∃ s₀ s₁, Grows s s₀ ∧ Makes s₀ frame name v s₁ ∧ Grows s₁ s' := by
  induction h with
  | refl => exact .inl hv
  | tail hearlier hchange ih =>
    rcases hchange.origin hname hv with hold | hmade
    · rcases ih hold with hold | ⟨s₀, s₁, hbefore, hmade, hafter⟩
      · exact .inl hold
      · exact .inr ⟨s₀, s₁, hbefore, hmade, hafter.trans (.of_change hchange)⟩
    · exact .inr ⟨_, _, hearlier, hmade, .refl _⟩

/-- No roots are added. -/
theorem root (h : Grows s s') (hframe : frame < s'.frames.size)
    (hroot : s'.parent? frame = none) : frame < s.frames.size := by
  induction h with
  | refl => exact hframe
  | tail hearlier hchange ih =>
    have hlt := hchange.root hframe hroot
    exact ih hlt ((hchange.later.parent_eq frame hlt).symm.trans hroot)

end Grows

end Lox.Store
