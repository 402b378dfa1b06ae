import Lox.Machine.Step
import Lox.Proofs.Store.Frames

/-!
# Distances and names

A variable is reached by searching for its name along the chain of a frame, or
by counting links to a frame.  The two ways agree: the search finds what stands
at the least distance at which anything is found, and it finds nothing only if
nothing is found at any distance (`owner?_eq_some_iff`, `owner?_eq_none_iff`).
A chain is as long as its links to the root (`ancestor?_eq_none_iff`).

An assignment of either kind overwrites one name of one frame (`Overwrites`).
Chains stay as they are, and so does every variable but that one, from whichever
frame it is reached (`Overwrites.read_eq`, `Overwrites.readAt_eq`).  These are
the assignments that programs make, and a program that fails at one leaves the
store as it was (`Machine.assign_eq_result`).
-/

namespace Lox.Store

variable {s s' : Store} {frame owner : FrameId} {name : String} {v : Value}

/-! ## The chain of a frame -/

/-- How many links lead from a frame to the root of its chain. -/
def links (s : Store) (frame : FrameId) : Nat :=
  match _h : s.parent? frame with
  | some p => s.links p + 1
  | none => 0
termination_by frame
decreasing_by exact parent?_lt _h

theorem links_root (h : s.parent? frame = none) : s.links frame = 0 := by
  rw [links]
  split
  · next hp => rw [h] at hp; cases hp
  · rfl

theorem links_child {p : FrameId} (h : s.parent? frame = some p) :
    s.links frame = s.links p + 1 := by
  rw [links]
  split
  · next hp => rw [h] at hp; cases hp; rfl
  · next hp => rw [h] at hp; cases hp

/-- There is no frame at a distance exactly if it is larger than the number of
links to the root. -/
theorem ancestor?_eq_none_iff (s : Store) (frame : FrameId) (d : Nat) :
    s.ancestor? frame d = none ↔ s.links frame < d := by
  induction d generalizing frame with
  | zero => simp [ancestor?]
  | succ d ih =>
    rw [ancestor?]
    cases hp : s.parent? frame with
    | none => simp [links_root hp]
    | some p =>
      rw [links_child hp]
      show s.ancestor? p d = none ↔ _
      rw [ih]
      omega

/-! ## The search finds what the least distance gives -/

theorem ownerAt?_zero (s : Store) (frame : FrameId) (name : String) :
    s.ownerAt? frame 0 name =
      if (s.valueIn? frame name).isSome then some frame else none := rfl

theorem ownerAt?_succ (s : Store) (frame : FrameId) (d : Nat) (name : String) :
    s.ownerAt? frame (d + 1) name =
      (s.parent? frame).bind fun p => s.ownerAt? p d name := by
  unfold ownerAt?
  rw [ancestor?]
  cases s.parent? frame <;> rfl

/-- The search ends at the frame that stands at the least distance at which a
frame holds the name. -/
theorem owner?_eq_some_iff :
    s.owner? frame name = some owner ↔
      ∃ d, s.ownerAt? frame d name = some owner ∧
        ∀ d' < d, s.ownerAt? frame d' name = none := by
  induction frame using Nat.strongRecOn with
  | ind frame ih =>
    rw [owner?_eq]
    by_cases hheld : (s.valueIn? frame name).isSome
    · rw [if_pos hheld]
      have hzero : s.ownerAt? frame 0 name = some frame := by
        rw [ownerAt?_zero, if_pos hheld]
      constructor
      · intro h
        exact ⟨0, hzero.trans h, by omega⟩
      · rintro ⟨d, hd, hleast⟩
        cases d with
        | zero => exact hzero.symm.trans hd
        | succ d =>
          have hnone := hleast 0 (Nat.zero_lt_succ d)
          rw [hzero] at hnone
          cases hnone
    · rw [if_neg hheld]
      have hzero : s.ownerAt? frame 0 name = none := by
        rw [ownerAt?_zero, if_neg hheld]
      cases hp : s.parent? frame with
      | none =>
        -- A root has nothing above it.
        constructor
        · intro h
          cases h
        · rintro ⟨d, hd, -⟩
          cases d with
          | zero => rw [hzero] at hd; cases hd
          | succ d => rw [ownerAt?_succ, hp] at hd; cases hd
      | some p =>
        have hsucc (d : Nat) :
            s.ownerAt? frame (d + 1) name = s.ownerAt? p d name := by
          rw [ownerAt?_succ, hp]
          rfl
        show s.owner? p name = some owner ↔ _
        rw [ih p (parent?_lt hp)]
        constructor
        · rintro ⟨d, hd, hleast⟩
          refine ⟨d + 1, (hsucc d).trans hd, fun d' hd' => ?_⟩
          cases d' with
          | zero => exact hzero
          | succ d' => exact (hsucc d').trans (hleast d' (by omega))
        · rintro ⟨d, hd, hleast⟩
          cases d with
          | zero => rw [hzero] at hd; cases hd
          | succ d =>
            refine ⟨d, (hsucc d).symm.trans hd, fun d' hd' => ?_⟩
            exact (hsucc d').symm.trans (hleast (d' + 1) (by omega))

/-- If some distance leads to a frame that holds the name, the search ends at
one. -/
theorem isSome_owner?_of_ownerAt? {d : Nat}
    (h : s.ownerAt? frame d name = some owner) :
    (s.owner? frame name).isSome = true := by
  induction d generalizing frame with
  | zero =>
    have hheld : (s.valueIn? frame name).isSome := by
      rw [ownerAt?_zero] at h
      split at h
      · assumption
      · cases h
    rw [owner?_eq, if_pos hheld]
    rfl
  | succ d ih =>
    rw [ownerAt?_succ] at h
    rw [owner?_eq]
    split
    · rfl
    · cases hp : s.parent? frame with
      | none => rw [hp] at h; cases h
      | some p =>
        rw [hp] at h
        exact ih h

/-- The search fails exactly if no distance leads to a frame that holds the
name. -/
theorem owner?_eq_none_iff :
    s.owner? frame name = none ↔ ∀ d, s.ownerAt? frame d name = none := by
  constructor
  · intro hnone d
    cases hd : s.ownerAt? frame d name with
    | none => rfl
    | some f =>
      have hsome := isSome_owner?_of_ownerAt? hd
      rw [hnone] at hsome
      cases hsome
  · intro hall
    cases hfound : s.owner? frame name with
    | none => rfl
    | some f =>
      obtain ⟨d, hd, -⟩ := owner?_eq_some_iff.1 hfound
      rw [hall d] at hd
      cases hd

theorem get?_eq (s : Store) (frame : FrameId) (name : String) :
    s.get? frame name = (s.owner? frame name).bind (s.valueIn? · name) := by
  unfold get?
  cases s.owner? frame name <;> rfl

theorem getAt?_eq (s : Store) (frame : FrameId) (d : Nat) (name : String) :
    s.getAt? frame d name =
      (s.ownerAt? frame d name).bind (s.valueIn? · name) := by
  unfold getAt? ownerAt?
  cases s.ancestor? frame d with
  | none => rfl
  | some f =>
    show s.valueIn? f name = _
    cases hv : s.valueIn? f name with
    | none => simp [hv]
    | some w => simp [hv]

theorem set?_eq (s : Store) (frame : FrameId) (name : String) (v : Value) :
    s.set? frame name v =
      (s.owner? frame name).bind fun owner => some (s.define owner name v) := by
  unfold set?
  cases s.owner? frame name <;> rfl

theorem setAt?_eq (s : Store) (frame : FrameId) (d : Nat) (name : String)
    (v : Value) :
    s.setAt? frame d name v = (s.ownerAt? frame d name).bind fun owner =>
      some (s.define owner name v) := by
  unfold setAt?
  cases s.ownerAt? frame d name <;> rfl

/-! ## The first attempt that succeeds -/

/-- The result is that of the attempt at the least distance at which one
succeeds.  It fails if all of them do, and as they do. -/
structure FirstOk {α : Type} (attempt : Nat → Except Failure α)
    (result : Except Failure α) : Prop where
  succeeds : (∃ a, result = .ok a) ↔ ∃ d a, attempt d = .ok a
  first : ∀ d, (∃ a, attempt d = .ok a) →
    (∀ d' < d, ∀ a, attempt d' ≠ .ok a) → result = attempt d
  fails : ∀ f, result = .error f ↔ ∀ d, attempt d = .error f

/-- Something that is done with the frame found, by searching or at a distance,
and succeeds in every frame that holds the name. -/
theorem firstOk_of_owner {α : Type} (s : Store) (frame : FrameId)
    (name : String) (line : Nat) (use : FrameId → Option α)
    (huse : ∀ owner, (s.valueIn? owner name).isSome → (use owner).isSome) :
    FirstOk
      (fun d => orUndefined name line ((s.ownerAt? frame d name).bind use))
      (orUndefined name line ((s.owner? frame name).bind use)) := by
  have hok {found : Option FrameId} {owner : FrameId} (h : found = some owner)
      (hheld : (s.valueIn? owner name).isSome) :
      ∃ a, orUndefined name line (found.bind use) = .ok a := by
    obtain ⟨a, ha⟩ := Option.isSome_iff_exists.1 (huse owner hheld)
    exact ⟨a, by rw [h, Option.bind_some, ha, orUndefined]⟩
  have hnone {found : Option FrameId} (h : found = none) :
      orUndefined name line (found.bind use) =
        .error (.undefinedVariable name line) := by
    rw [h]
    rfl
  -- The least distance of success is the least one that leads to an owner.
  have hfirst (d : Nat)
      (hd : ∃ a, orUndefined name line ((s.ownerAt? frame d name).bind use) = .ok a)
      (hleast : ∀ d' < d, ∀ a,
        orUndefined name line ((s.ownerAt? frame d' name).bind use) ≠ .ok a) :
      s.owner? frame name = s.ownerAt? frame d name := by
    cases howner : s.ownerAt? frame d name with
    | none =>
      obtain ⟨a, ha⟩ := hd
      rw [hnone howner] at ha
      cases ha
    | some owner =>
      refine owner?_eq_some_iff.2 ⟨d, howner, fun d' hd' => ?_⟩
      cases hother : s.ownerAt? frame d' name with
      | none => rfl
      | some other =>
        obtain ⟨a, ha⟩ := hok hother (isSome_of_ownerAt? hother)
        exact absurd ha (hleast d' hd' a)
  cases howner : s.owner? frame name with
  | none =>
    have hall := owner?_eq_none_iff.1 howner
    refine ⟨⟨?_, ?_⟩, ?_, fun f => ?_⟩
    · rintro ⟨a, ⟨⟩⟩
    · rintro ⟨d, a, ha⟩
      rw [hnone (hall d)] at ha
      cases ha
    · rintro d ⟨a, ha⟩
      rw [hnone (hall d)] at ha
      cases ha
    · simp only [hnone (hall _), hnone rfl, forall_const]
  | some owner =>
    obtain ⟨d, hd, hleast⟩ := owner?_eq_some_iff.1 howner
    have hthere := hok hd (isSome_of_ownerAt? hd)
    have hhere := hok rfl (isSome_of_owner? howner)
    refine ⟨⟨fun _ => ⟨d, hthere⟩, fun _ => hhere⟩, ?_, fun f => ?_⟩
    · intro k hk hbefore
      rw [← howner, hfirst k hk hbefore]
    · obtain ⟨a, ha⟩ := hthere
      obtain ⟨b, hb⟩ := hhere
      constructor
      · intro hf
        rw [hb] at hf
        cases hf
      · intro hall
        have hf := hall d
        rw [ha] at hf
        cases hf

/-! ## Assignments -/

/-- An assignment: to the nearest variable of a name, or to the one at a
distance. -/
inductive Assignment where
  | nearest (frame : FrameId)
  | distant (frame : FrameId) (distance : Nat)

namespace Assignment

/-- The frame that the assignment ends at. -/
def owner? (a : Assignment) (s : Store) (name : String) : Option FrameId :=
  match a with
  | nearest frame => s.owner? frame name
  | distant frame distance => s.ownerAt? frame distance name

/-- The result of the assignment. -/
def result (a : Assignment) (s : Store) (name : String) (v : Value)
    (line : Nat) : Except Failure Store :=
  match a with
  | nearest frame => s.write frame name v line
  | distant frame distance => s.writeAt frame distance name v line

theorem result_eq (a : Assignment) (s : Store) (name : String) (v : Value)
    (line : Nat) :
    a.result s name v line = orUndefined name line
      ((a.owner? s name).bind fun owner => some (s.define owner name v)) := by
  cases a with
  | nearest frame =>
    show orUndefined name line (s.set? frame name v) = _
    rw [set?_eq]
    rfl
  | distant frame distance =>
    show orUndefined name line (s.setAt? frame distance name v) = _
    rw [setAt?_eq]
    rfl

theorem isSome_of_owner? {a : Assignment} (h : a.owner? s name = some owner) :
    (s.valueIn? owner name).isSome = true := by
  cases a with
  | nearest frame => exact Store.isSome_of_owner? h
  | distant frame distance => exact Store.isSome_of_ownerAt? h

end Assignment

/-- The second store is the first one with another value under one name of one
frame, which had a value there before. -/
structure Overwrites (s : Store) (owner : FrameId) (name : String) (v : Value)
    (s' : Store) : Prop where
  held : (s.valueIn? owner name).isSome = true
  value : ∀ f x, s'.valueIn? f x =
    if f = owner ∧ x = name then some v else s.valueIn? f x
  parent : ∀ f, s'.parent? f = s.parent? f
  size : s'.frames.size = s.frames.size
  objects : s'.fields = s.fields

theorem overwrites_define (h : (s.valueIn? owner name).isSome = true)
    (v : Value) : s.Overwrites owner name v (s.define owner name v) where
  held := h
  value := by
    intro f x
    obtain ⟨w, hw⟩ := Option.isSome_iff_exists.1 h
    have hlt := lt_size_of_valueIn? hw
    simp only [valueIn?_define, hlt, and_true]
  parent := fun f => parent?_define s owner f name v
  size := size_define s owner name v
  objects := rfl

namespace Overwrites

/-- The same frames hold the same names. -/
theorem isSome_valueIn? (h : s.Overwrites owner name v s') (f : FrameId)
    (x : String) : (s'.valueIn? f x).isSome = (s.valueIn? f x).isSome := by
  rw [h.value]
  split
  · next hhere =>
    obtain ⟨rfl, rfl⟩ := hhere
    exact h.held.symm
  · rfl

theorem ancestor?_eq (h : s.Overwrites owner name v s') (f : FrameId)
    (d : Nat) : s'.ancestor? f d = s.ancestor? f d := by
  induction d generalizing f with
  | zero => rfl
  | succ d ih =>
    rw [ancestor?, ancestor?, h.parent]
    cases s.parent? f with
    | none => rfl
    | some p => exact ih p

theorem owner?_eq (h : s.Overwrites owner name v s') (f : FrameId)
    (x : String) : s'.owner? f x = s.owner? f x := by
  induction f using Nat.strongRecOn with
  | ind f ih =>
    rw [Store.owner?_eq, Store.owner?_eq, h.isSome_valueIn?, h.parent]
    cases hp : s.parent? f with
    | none => rfl
    | some p => simp only [Option.bind_some, ih p (parent?_lt hp)]

/-- What is read by name is the new value if the search ends at the variable
that was overwritten, and what it was before otherwise. -/
theorem read_eq (h : s.Overwrites owner name v s') (f : FrameId) (x : String)
    (line : Nat) :
    s'.read f x line =
      if s.owner? f x = some owner ∧ x = name then .ok v
      else s.read f x line := by
  show orUndefined x line (s'.get? f x) = _
  rw [get?_eq, h.owner?_eq]
  show _ = if _ then _ else orUndefined x line (s.get? f x)
  rw [get?_eq]
  cases hf : s.owner? f x with
  | none => rfl
  | some g =>
    simp only [Option.bind_some, h.value, Option.some.injEq]
    split <;> rfl

/-- The same at a distance. -/
theorem readAt_eq (h : s.Overwrites owner name v s') (f : FrameId) (d : Nat)
    (x : String) (line : Nat) :
    s'.readAt f d x line =
      if s.ancestor? f d = some owner ∧ x = name then .ok v
      else s.readAt f d x line := by
  simp only [readAt, getAt?, h.ancestor?_eq]
  cases s.ancestor? f d with
  | none => rfl
  | some g =>
    simp only [h.value, Option.some.injEq]
    split <;> rfl

end Overwrites

end Lox.Store

/-! ## Assignments of a running program -/

namespace Lox.Machine

open Store (Assignment orUndefined)

/-- What an assignment expression does: the assignment at the distance of its
occurrence, or the one that searches from the frame of the globals. -/
def assignment (set : Setting) (st : State) (target : Ref) : Assignment :=
  match set.distances.find? target.id with
  | some distance => .distant st.frame distance
  | none => .nearest set.globals

theorem owner?_assignment (set : Setting) (st : State) (target : Ref) :
    (assignment set st target).owner? st.store target.name =
      owner? set st target := by
  unfold assignment owner?
  cases set.distances.find? target.id <;> rfl

/-- An assignment expression puts the store after its assignment in place; if
the assignment fails, the program fails in the state it was in. -/
theorem assign_eq_result (set : Setting) (target : Ref) (v : Value)
    (stack : List Pending) (st : State) :
    assign set target v stack st =
      match (assignment set st target).result st.store target.name v
          target.line with
      | .ok store => ⟨.value v, stack, { st with store := store }⟩
      | .error f => ⟨.failed f, stack, st⟩ := by
  rw [Store.Assignment.result_eq, owner?_assignment]
  unfold assign
  cases owner? set st target <;> rfl

end Lox.Machine

/-! ## The two ways agree -/

namespace Lox.Store

open Machine (Setting State Pending assign assignment)

/-- Access by distance agrees with the search for names, in every store, so in
every forest of frames that can be made.  A read by name succeeds exactly if one
at some distance does, and gives what is read at the least such distance; and so
does an assignment, with just the effect of the one at that distance.  An
assignment that succeeds overwrites one name of one frame.  No frame is at
another distance after it, and every other variable is read as before, from
whichever frame.  A program that makes an assignment goes on with the store
after it, and one that fails at it fails in the state it was in.  And no frame
is at a distance exactly if it is larger than the number of links to the
root. -/
theorem access_agrees (s : Store) :
    (∀ frame name line,
      FirstOk (fun d => s.readAt frame d name line) (s.read frame name line)) ∧
    (∀ frame name v line,
      FirstOk (fun d => s.writeAt frame d name v line)
        (s.write frame name v line)) ∧
    (∀ (a : Assignment) name v line s', a.result s name v line = .ok s' →
      ∃ owner, a.owner? s name = some owner ∧
        s.Overwrites owner name v s' ∧
        (∀ f d, s'.ancestor? f d = s.ancestor? f d) ∧
        (∀ f x line, s'.read f x line =
          if s.owner? f x = some owner ∧ x = name then .ok v
          else s.read f x line) ∧
        (∀ f d x line, s'.readAt f d x line =
          if s.ancestor? f d = some owner ∧ x = name then .ok v
          else s.readAt f d x line)) ∧
    (∀ (set : Setting) target v (stack : List Pending) (st : State),
      assign set target v stack { st with store := s } =
        match (assignment set st target).result s target.name v target.line with
        | .ok s' => ⟨.value v, stack, { st with store := s' }⟩
        | .error f => ⟨.failed f, stack, { st with store := s }⟩) ∧
    (∀ frame d, s.ancestor? frame d = none ↔ s.links frame < d) := by
  refine ⟨fun frame name line => ?_, fun frame name v line => ?_,
    fun a name v line s' hs' => ?_, fun set target v stack st => ?_,
    ancestor?_eq_none_iff s⟩
  · have hread := firstOk_of_owner s frame name line
      (fun owner => s.valueIn? owner name) fun _ h => h
    simp only [← getAt?_eq, ← get?_eq] at hread
    exact hread
  · have hwrite := firstOk_of_owner s frame name line
      (fun owner => some (s.define owner name v)) fun _ _ => rfl
    simp only [← setAt?_eq, ← set?_eq] at hwrite
    exact hwrite
  · rw [Assignment.result_eq] at hs'
    cases howner : a.owner? s name with
    | none => rw [howner] at hs'; cases hs'
    | some owner =>
      rw [howner] at hs'
      cases hs'
      have hover := overwrites_define (Assignment.isSome_of_owner? howner) v
      exact ⟨owner, rfl, hover, hover.ancestor?_eq, hover.read_eq,
        hover.readAt_eq⟩
  · exact Machine.assign_eq_result set target v stack { st with store := s }

end Lox.Store
