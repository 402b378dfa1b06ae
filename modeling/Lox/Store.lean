import Lox.Failure
import Lox.Value

/-!
# The store

All that a running program can change: the frames, which hold variables, and
the fields of objects.  A frame has a parent, except for roots; parents are
older than their children, so every chain of parents ends.

A variable is reached in two ways.  `read` and `write` search the chain of a
frame for the nearest frame that holds the name; `readAt` and `writeAt` go to
the frame at a given distance and look nowhere else.  Neither way of writing
makes a new variable: only `define` does.
-/

namespace Lox

/-- The variables of one scope. -/
structure Frame where
  bindings : Table Value
  parent : Option FrameId

/-- Frames by number, fields of objects by number, and how many functions
have been made. -/
structure Store where
  frames : Array Frame
  fields : Array (Table Value)
  closures : Nat
  /-- Parents are older than their children. -/
  parent_lt : ∀ (i : FrameId) (f : Frame) (p : FrameId),
    frames[i]? = some f → f.parent = some p → p < i

namespace Store

/-- The store without frames and objects. -/
def empty : Store where
  frames := #[]
  fields := #[]
  closures := 0
  parent_lt := by simp

/-! ## Making frames -/

/-- Adds a frame with given variables.  The parent must be a frame of the
store; the new frame is a root otherwise. -/
def addFrame (s : Store) (parent : Option FrameId) (bindings : Table Value) :
    Store where
  frames := s.frames.push ⟨bindings, parent.filter (· < s.frames.size)⟩
  fields := s.fields
  closures := s.closures
  parent_lt := by
    intro i f p hf hp
    rw [Array.getElem?_push] at hf
    split at hf
    · next h =>
      cases hf
      have := (Option.filter_eq_some_iff.1 hp).2
      rw [h]
      exact of_decide_eq_true this
    · exact s.parent_lt i f p hf hp

/-- The number of the next frame. -/
def nextFrame (s : Store) : FrameId :=
  s.frames.size

/-! ## Finding variables -/

/-- The value of a name in one frame. -/
def valueIn? (s : Store) (frame : FrameId) (name : String) : Option Value :=
  match s.frames[frame]? with
  | some f => f.bindings.find? name
  | none => none

/-- The parent of a frame. -/
def parent? (s : Store) (frame : FrameId) : Option FrameId :=
  match s.frames[frame]? with
  | some f => f.parent
  | none => none

theorem parent?_lt {s : Store} {frame p : FrameId}
    (h : s.parent? frame = some p) : p < frame := by
  unfold parent? at h
  split at h
  · next f hf => exact s.parent_lt frame f p hf h
  · cases h

/-- The nearest frame on the chain of a frame that holds a name. -/
def owner? (s : Store) (frame : FrameId) (name : String) : Option FrameId :=
  if (s.valueIn? frame name).isSome then some frame
  else match _h : s.parent? frame with
    | some p => s.owner? p name
    | none => none
termination_by frame
decreasing_by exact parent?_lt _h

theorem owner?_eq (s : Store) (frame : FrameId) (name : String) :
    s.owner? frame name =
      if (s.valueIn? frame name).isSome then some frame
      else (s.parent? frame).bind fun p => s.owner? p name := by
  rw [owner?]
  split
  · rfl
  · split
    · next h => rw [h]; rfl
    · next h => rw [h]; rfl

/-- The frame `distance` parents up from a frame. -/
def ancestor? (s : Store) (frame : FrameId) : Nat → Option FrameId
  | 0 => some frame
  | distance + 1 =>
    match s.parent? frame with
    | some p => s.ancestor? p distance
    | none => none

/-- The frame at a distance, if it holds a name. -/
def ownerAt? (s : Store) (frame : FrameId) (distance : Nat) (name : String) :
    Option FrameId :=
  match s.ancestor? frame distance with
  | some f => if (s.valueIn? f name).isSome then some f else none
  | none => none

/-- The value of the nearest variable of a name. -/
def get? (s : Store) (frame : FrameId) (name : String) : Option Value :=
  match s.owner? frame name with
  | some owner => s.valueIn? owner name
  | none => none

/-- The value of a name in the frame at a distance. -/
def getAt? (s : Store) (frame : FrameId) (distance : Nat) (name : String) :
    Option Value :=
  match s.ancestor? frame distance with
  | some f => s.valueIn? f name
  | none => none

/-! ## Changing variables -/

/-- Gives a name a value in one frame, whether or not it had one. -/
def define (s : Store) (frame : FrameId) (name : String) (value : Value) :
    Store where
  frames := s.frames.modify frame fun f =>
    { f with bindings := f.bindings.insert name value }
  fields := s.fields
  closures := s.closures
  parent_lt := by
    intro i f p hf hp
    rw [Array.getElem?_modify] at hf
    split at hf
    · obtain ⟨g, hg, rfl⟩ := Option.map_eq_some_iff.1 hf
      exact s.parent_lt i g p hg hp
    · exact s.parent_lt i f p hf hp

/-- Overwrites the nearest variable of a name, if there is one. -/
def set? (s : Store) (frame : FrameId) (name : String) (value : Value) :
    Option Store :=
  match s.owner? frame name with
  | some owner => some (s.define owner name value)
  | none => none

/-- Overwrites a name in the frame at a distance, if it has a value there. -/
def setAt? (s : Store) (frame : FrameId) (distance : Nat) (name : String)
    (value : Value) : Option Store :=
  match s.ownerAt? frame distance name with
  | some owner => some (s.define owner name value)
  | none => none

/-! ## The same with failures -/

/-- A result, or the failure that a variable is undefined. -/
def orUndefined {α : Type} (name : String) (line : Nat) :
    Option α → Except Failure α
  | some a => .ok a
  | none => .error (.undefinedVariable name line)

/-- Reads the nearest variable of a name. -/
def read (s : Store) (frame : FrameId) (name : String) (line : Nat) :
    Except Failure Value :=
  orUndefined name line (s.get? frame name)

/-- Reads a name from the frame at a distance. -/
def readAt (s : Store) (frame : FrameId) (distance : Nat) (name : String)
    (line : Nat) : Except Failure Value :=
  orUndefined name line (s.getAt? frame distance name)

/-- Overwrites the nearest variable of a name. -/
def write (s : Store) (frame : FrameId) (name : String) (value : Value)
    (line : Nat) : Except Failure Store :=
  orUndefined name line (s.set? frame name value)

/-- Overwrites a name in the frame at a distance. -/
def writeAt (s : Store) (frame : FrameId) (distance : Nat) (name : String)
    (value : Value) (line : Nat) : Except Failure Store :=
  orUndefined name line (s.setAt? frame distance name value)

/-! ## Objects -/

/-- Adds an object without fields. -/
def addObject (s : Store) : Store :=
  { s with fields := s.fields.push .empty }

/-- The number of the next object. -/
def nextObject (s : Store) : ObjectId :=
  s.fields.size

/-- The field of an object. -/
def field? (s : Store) (object : ObjectId) (name : String) : Option Value :=
  match s.fields[object]? with
  | some fields => fields.find? name
  | none => none

/-- Gives a field of an object a value. -/
def setField (s : Store) (object : ObjectId) (name : String) (value : Value) :
    Store :=
  { s with fields := s.fields.modify object fun t => t.insert name value }

/-! ## Functions -/

/-- Makes a function of a declaration and the frame it closes over. -/
def makeClosure (s : Store) (declaration : FunctionDecl) (frame : FrameId) :
    Store × Closure :=
  ({ s with closures := s.closures + 1 }, ⟨s.closures, declaration, frame⟩)

/-- Binds a method to an object: the same declaration, in a new frame that
holds `this` and lies inside the frame of the method. -/
def bindMethod (s : Store) (method : Closure) (object : Value) :
    Store × Closure :=
  let bindings := Table.empty.insert Keyword.kwThis.lexeme object
  let frame := s.nextFrame
  (s.addFrame (some method.frame) bindings).makeClosure method.declaration frame

end Store

end Lox
