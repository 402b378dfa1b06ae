import Lox.Proofs.Store.Frames

/-!
# The names in frames

Whatever is done to a store, its frames keep their parents and never lose a
name.  `Gains` says this of two stores, one before the other, and says which
names the frames may have gained in between; with `Keeps` they gain none.  Of
the changes of a store only `define` can add a name to a frame that exists,
and it does not where the name is held already (`keeps_define`).
-/

namespace Lox.Store

/-- The frame holds the name. -/
def Holds (s : Store) (frame : FrameId) (name : String) : Prop :=
  s.valueIn? frame name ≠ none

/-- The first `n` frames keep their parents and their names, and gain no names
but new ones. -/
structure Gains (n : Nat) (new : FrameId → String → Prop) (s s' : Store) :
    Prop where
  parent : ∀ frame < n, s'.parent? frame = s.parent? frame
  kept : ∀ frame < n, ∀ name, s.Holds frame name → s'.Holds frame name
  gained : ∀ frame < n, ∀ name, s'.Holds frame name →
    s.Holds frame name ∨ new frame name

/-- The first `n` frames keep their parents and have the same names as
before. -/
abbrev Keeps (n : Nat) : Store → Store → Prop :=
  Gains n fun _ _ => False

variable {n : Nat} {new : FrameId → String → Prop} {s s' s'' : Store}

namespace Gains

theorem refl (n : Nat) (new : FrameId → String → Prop) (s : Store) :
    Gains n new s s :=
  ⟨fun _ _ => rfl, fun _ _ _ h => h, fun _ _ _ h => .inl h⟩

theorem trans (h : Gains n new s s') (h' : Gains n new s' s'') :
    Gains n new s s'' where
  parent := fun frame hlt => (h'.parent frame hlt).trans (h.parent frame hlt)
  kept := fun frame hlt name hname =>
    h'.kept frame hlt name (h.kept frame hlt name hname)
  gained := by
    intro frame hlt name hname
    rcases h'.gained frame hlt name hname with hbefore | hnew
    · exact h.gained frame hlt name hbefore
    · exact .inr hnew

theorem mono {n' : Nat} {new' : FrameId → String → Prop}
    (h : Gains n new s s') (hle : n' ≤ n)
    (himp : ∀ frame < n', ∀ name, new frame name → new' frame name) :
    Gains n' new' s s' where
  parent := fun frame hlt => h.parent frame (Nat.lt_of_lt_of_le hlt hle)
  kept := fun frame hlt => h.kept frame (Nat.lt_of_lt_of_le hlt hle)
  gained := by
    intro frame hlt name hname
    rcases h.gained frame (Nat.lt_of_lt_of_le hlt hle) name hname with
      hbefore | hnew
    · exact .inl hbefore
    · exact .inr (himp frame hlt name hnew)

end Gains

theorem Keeps.gains (h : Keeps n s s') (new : FrameId → String → Prop) :
    Gains n new s s' :=
  h.mono (Nat.le_refl n) fun _ _ _ => False.elim

theorem keeps_of_frames (n : Nat) (h : s'.frames = s.frames) :
    Keeps n s s' := by
  have hvalue (frame : FrameId) (name : String) :
      s'.valueIn? frame name = s.valueIn? frame name := by
    rw [valueIn?, valueIn?, h]
  have hparent (frame : FrameId) : s'.parent? frame = s.parent? frame := by
    rw [parent?, parent?, h]
  refine ⟨fun frame _ => hparent frame, ?_, ?_⟩
  · intro frame _ name hname
    rwa [Holds, hvalue]
  · intro frame _ name hname
    rw [Holds, hvalue] at hname
    exact .inl hname

/-- A new frame comes behind those there are. -/
theorem keeps_addFrame (s : Store) (parent : Option FrameId)
    (bindings : Table Value) :
    Keeps s.frames.size s (s.addFrame parent bindings) := by
  have hold (frame : FrameId) (hlt : frame < s.frames.size) :
      frame ≠ s.nextFrame := Nat.ne_of_lt hlt
  refine ⟨?_, ?_, ?_⟩
  · intro frame hlt
    rw [parent?_addFrame, if_neg (hold frame hlt)]
  · intro frame hlt name hname
    rwa [Holds, valueIn?_addFrame, if_neg (hold frame hlt)]
  · intro frame hlt name hname
    rw [Holds, valueIn?_addFrame, if_neg (hold frame hlt)] at hname
    exact .inl hname

/-- Binding a method makes a frame, and that is new. -/
theorem keeps_bindMethod (s : Store) (method : Closure) (object : Value) :
    Keeps s.frames.size s (s.bindMethod method object).1 :=
  (keeps_addFrame s _ _).trans (keeps_of_frames _ rfl)

/-- Making a variable adds its name to its frame. -/
theorem gains_define (n : Nat) (s : Store) (frame : FrameId) (name : String)
    (v : Value) :
    Gains n (fun other name' => other = frame ∧ name' = name) s
      (s.define frame name v) := by
  refine ⟨fun other _ => parent?_define s frame other name v, ?_, ?_⟩
  · intro other _ name' hname
    rw [Holds, valueIn?_define]
    split
    · exact Option.some_ne_none v
    · exact hname
  · intro other _ name' hname
    rw [Holds, valueIn?_define] at hname
    split at hname
    · next h => exact .inr ⟨h.1, h.2.1⟩
    · exact .inl hname

/-- A variable that exists can be given a value without adding a name. -/
theorem keeps_define {frame : FrameId} {name : String}
    (h : (s.valueIn? frame name).isSome = true) (n : Nat) (v : Value) :
    Keeps n s (s.define frame name v) := by
  have hdefine := gains_define n s frame name v
  refine ⟨hdefine.parent, hdefine.kept, ?_⟩
  intro other hlt name' hname
  rcases hdefine.gained other hlt name' hname with hbefore | ⟨rfl, rfl⟩
  · exact .inl hbefore
  · exact .inl (Option.isSome_iff_ne_none.1 h)

end Lox.Store
