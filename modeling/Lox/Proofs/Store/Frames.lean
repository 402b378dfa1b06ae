import Lox.Proofs.Scope.Scoped
import Lox.Store

/-!
# Frames and scopes

A chain of frames matches some scopes if each frame holds the names of its
scope (`Matches`).  Then a variable at the distance of its name is found
(`Matches.ancestor`).

While code runs, frames only gain names, and only the current frame does:
`Evolves` says so of two stores, one before the other, and every match is kept
(`Matches.evolve`).  In the frame of running code no name is ahead of the
declarations that have been executed (`Live`).
-/

namespace Lox

open Scope (distance addNames)

theorem Table.isSome_find?_insertAll {α : Type} (items : List (String × α))
    (t : Table α) (name : String) :
    ((t.insertAll items).find? name).isSome =
      (decide (name ∈ items.map Prod.fst) || (t.find? name).isSome) := by
  unfold Table.insertAll
  induction items generalizing t with
  | nil => simp
  | cons item rest ih =>
    rw [List.foldl_cons, ih, Table.find?_insert]
    by_cases hname : name = item.1
    · simp [hname]
    · simp only [hname, if_false, List.map_cons, List.mem_cons, false_or]

theorem Table.mem_of_find?_insertAll {α : Type} {items : List (String × α)}
    {t : Table α} {name : String} {v : α}
    (h : (t.insertAll items).find? name = some v) :
    v ∈ items.map Prod.snd ∨ t.find? name = some v := by
  unfold Table.insertAll at h
  induction items generalizing t with
  | nil => exact .inr h
  | cons item rest ih =>
    rw [List.foldl_cons] at h
    rcases ih h with hrest | hfirst
    · exact .inl (List.mem_cons_of_mem _ hrest)
    · rw [Table.find?_insert] at hfirst
      split at hfirst
      · cases hfirst
        exact .inl List.mem_cons_self
      · exact .inr hfirst

/-- The value is a class. -/
def Value.IsClass (v : Value) : Prop :=
  ∃ c, v = .cls c

namespace Store

/-! ## What changes a frame -/

theorem valueIn?_define (s : Store) (frame other : FrameId)
    (name name' : String) (v : Value) :
    (s.define frame name v).valueIn? other name' =
      if other = frame ∧ name' = name ∧ frame < s.frames.size then some v
      else s.valueIn? other name' := by
  unfold valueIn? define
  simp only [Array.getElem?_modify]
  by_cases hframe : frame = other
  · subst hframe
    cases hf : s.frames[frame]? with
    | none =>
      have hlt : ¬ frame < s.frames.size :=
        Nat.not_lt.2 (Array.getElem?_eq_none_iff.1 hf)
      simp [hlt]
    | some f =>
      have hlt : frame < s.frames.size := (Array.getElem?_eq_some_iff.1 hf).1
      by_cases hname : name' = name
      · simp [hname, hlt]
      · simp [hname, Table.find?_insert_of_ne]
  · have hne : other ≠ frame := fun heq => hframe heq.symm
    simp [hframe, hne]

@[simp] theorem parent?_define (s : Store) (frame other : FrameId)
    (name : String) (v : Value) :
    (s.define frame name v).parent? other = s.parent? other := by
  unfold parent? define
  simp only [Array.getElem?_modify]
  by_cases hframe : frame = other
  · rw [if_pos hframe]
    cases s.frames[other]? <;> rfl
  · rw [if_neg hframe]

@[simp] theorem size_define (s : Store) (frame : FrameId) (name : String)
    (v : Value) : (s.define frame name v).frames.size = s.frames.size := by
  simp [define]

theorem valueIn?_addFrame (s : Store) (parent : Option FrameId)
    (bindings : Table Value) (frame : FrameId) (name : String) :
    (s.addFrame parent bindings).valueIn? frame name =
      if frame = s.nextFrame then bindings.find? name
      else s.valueIn? frame name := by
  unfold valueIn? addFrame nextFrame
  simp only [Array.getElem?_push]
  by_cases hframe : frame = s.frames.size
  · rw [if_pos hframe, if_pos hframe]
  · rw [if_neg hframe, if_neg hframe]

theorem parent?_addFrame (s : Store) (parent : Option FrameId)
    (bindings : Table Value) (frame : FrameId) :
    (s.addFrame parent bindings).parent? frame =
      if frame = s.nextFrame then parent.filter (· < s.frames.size)
      else s.parent? frame := by
  unfold parent? addFrame nextFrame
  simp only [Array.getElem?_push]
  by_cases hframe : frame = s.frames.size
  · rw [if_pos hframe, if_pos hframe]
  · rw [if_neg hframe, if_neg hframe]

theorem lt_size_of_parent? {s : Store} {frame p : FrameId}
    (h : s.parent? frame = some p) : frame < s.frames.size := by
  unfold parent? at h
  split at h
  · next f hf => exact (Array.getElem?_eq_some_iff.1 hf).1
  · cases h

theorem lt_size_of_valueIn? {s : Store} {frame : FrameId} {name : String}
    {v : Value} (h : s.valueIn? frame name = some v) :
    frame < s.frames.size := by
  unfold valueIn? at h
  split at h
  · next f hf => exact (Array.getElem?_eq_some_iff.1 hf).1
  · cases h

/-! ## What changes a field -/

theorem field?_addObject (s : Store) (object : ObjectId) (name : String) :
    s.addObject.field? object name = s.field? object name := by
  unfold field? addObject
  rw [Array.getElem?_push]
  by_cases hobject : object = s.fields.size
  · rw [if_pos hobject, hobject, Array.getElem?_size]
    rfl
  · rw [if_neg hobject]

theorem field?_setField (s : Store) (object other : ObjectId)
    (name name' : String) (v : Value) :
    (s.setField object name v).field? other name' =
      if other = object ∧ name' = name ∧ object < s.fields.size then some v
      else s.field? other name' := by
  unfold field? setField
  simp only [Array.getElem?_modify]
  by_cases hobject : object = other
  · subst hobject
    cases hf : s.fields[object]? with
    | none =>
      have hlt : ¬ object < s.fields.size :=
        Nat.not_lt.2 (Array.getElem?_eq_none_iff.1 hf)
      simp [hlt]
    | some fields =>
      have hlt : object < s.fields.size := (Array.getElem?_eq_some_iff.1 hf).1
      by_cases hname : name' = name
      · simp [hname, hlt]
      · simp [hname, Table.find?_insert_of_ne]
  · have hne : other ≠ object := fun heq => hobject heq.symm
    simp [hobject, hne]

/-! ## Stores one after the other -/

/-- The second store comes from the first.  Frames keep their parents and
their names, and a frame that has a parent keeps a class under the name
`super`; the frames before `frame` gain no names. -/
structure Evolves (frame : FrameId) (s s' : Store) : Prop where
  size : s.frames.size ≤ s'.frames.size
  parent : ∀ f p, s.parent? f = some p → s'.parent? f = some p
  values : ∀ f name v, s.valueIn? f name = some v →
    ∃ v', s'.valueIn? f name = some v' ∧ (name = Keyword.kwSuper.lexeme →
      s.parent? f ≠ none → v.IsClass → v'.IsClass)
  names : ∀ f name, f < frame → s.valueIn? f name = none →
    s'.valueIn? f name = none

namespace Evolves

variable {frame frame' : FrameId} {s s' s'' : Store}

theorem of_frames (h : s'.frames = s.frames) : Evolves frame s s' := by
  have hvalue (f : FrameId) (name : String) :
      s'.valueIn? f name = s.valueIn? f name := by rw [valueIn?, valueIn?, h]
  have hparent (f : FrameId) : s'.parent? f = s.parent? f := by
    rw [parent?, parent?, h]
  refine ⟨Nat.le_of_eq (by rw [h]), ?_, ?_, ?_⟩
  · intro f p hp
    rw [hparent, hp]
  · intro f name v hv
    exact ⟨v, by rw [hvalue, hv], fun _ _ h => h⟩
  · intro f name _ hnone
    rw [hvalue, hnone]

theorem refl (frame : FrameId) (s : Store) : Evolves frame s s :=
  of_frames rfl

theorem trans (h : Evolves frame s s') (h' : Evolves frame s' s'') :
    Evolves frame s s'' where
  size := Nat.le_trans h.size h'.size
  parent := fun f p hp => h'.parent f p (h.parent f p hp)
  values := by
    intro f name v hv
    obtain ⟨v', hv', hclass⟩ := h.values f name v hv
    obtain ⟨v'', hv'', hclass'⟩ := h'.values f name v' hv'
    refine ⟨v'', hv'', fun hname hparent hc => ?_⟩
    obtain ⟨p, hp⟩ := Option.ne_none_iff_exists'.1 hparent
    have hparent' : s'.parent? f ≠ none := by simp [h.parent f p hp]
    exact hclass' hname hparent' (hclass hname hparent hc)
  names := fun f name hf hnone => h'.names f name hf (h.names f name hf hnone)

theorem mono (h : Evolves frame s s') (hle : frame' ≤ frame) :
    Evolves frame' s s' :=
  ⟨h.size, h.parent, h.values,
    fun f name hf => h.names f name (Nat.lt_of_lt_of_le hf hle)⟩

/-- A value is given to a name that is held already, or in a frame that may
gain names.  Only a root may be given another `super`. -/
theorem define {owner : FrameId} {name : String}
    (hname : name = Keyword.kwSuper.lexeme → s.parent? owner = none) (v : Value)
    (howner : frame ≤ owner ∨ (s.valueIn? owner name).isSome) :
    Evolves frame s (s.define owner name v) where
  size := by simp
  parent := by simp
  values := by
    intro f other w hw
    rw [valueIn?_define]
    split
    · next h =>
      refine ⟨v, rfl, fun hsuper hparent => absurd ?_ hparent⟩
      rw [h.1]
      exact hname (h.2.1 ▸ hsuper)
    · exact ⟨w, hw, fun _ _ h => h⟩
  names := by
    intro f other hf hnone
    rw [valueIn?_define, if_neg, hnone]
    rintro ⟨rfl, rfl, -⟩
    rcases howner with hle | hsome
    · exact absurd hf (Nat.not_lt.2 hle)
    · rw [hnone] at hsome
      cases hsome

theorem addFrame (hle : frame ≤ s.nextFrame) (parent : Option FrameId)
    (bindings : Table Value) : Evolves frame s (s.addFrame parent bindings) where
  size := by simp [Store.addFrame]
  parent := by
    intro f p hp
    have hne : f ≠ s.nextFrame := Nat.ne_of_lt (lt_size_of_parent? hp)
    rw [parent?_addFrame, if_neg hne, hp]
  values := by
    intro f name v hv
    have hne : f ≠ s.nextFrame := Nat.ne_of_lt (lt_size_of_valueIn? hv)
    refine ⟨v, ?_, fun _ _ h => h⟩
    rw [valueIn?_addFrame, if_neg hne, hv]
  names := by
    intro f name hf hnone
    have hne : f ≠ s.nextFrame := Nat.ne_of_lt (Nat.lt_of_lt_of_le hf hle)
    rw [valueIn?_addFrame, if_neg hne, hnone]

end Evolves

/-- The frame that is found to hold a name does hold it. -/
theorem isSome_of_owner? {s : Store} {frame owner : FrameId} {name : String}
    (h : s.owner? frame name = some owner) :
    (s.valueIn? owner name).isSome = true := by
  induction frame using Nat.strongRecOn with
  | ind frame ih =>
    rw [owner?_eq] at h
    split at h
    · next hsome =>
      cases h
      exact hsome
    · obtain ⟨p, hp, howner⟩ := Option.bind_eq_some_iff.1 h
      exact ih p (parent?_lt hp) howner

theorem isSome_of_ownerAt? {s : Store} {frame owner : FrameId} {distance : Nat}
    {name : String} (h : s.ownerAt? frame distance name = some owner) :
    (s.valueIn? owner name).isSome = true := by
  unfold ownerAt? at h
  split at h
  · split at h
    · next hsome =>
      cases h
      exact hsome
    · cases h
  · cases h

/-! ## Frames that match scopes -/

/-- The frame holds the names of the first scope, its parent those of the
next one, and so on.  A frame that holds `super` holds a class there. -/
def Matches (s : Store) : FrameId → List (Table Bool) → Prop
  | frame, [] => frame < s.frames.size
  | frame, scope :: outer =>
    (∀ name, scope.contains name → ∃ v, s.valueIn? frame name = some v ∧
      (name = Keyword.kwSuper.lexeme → v.IsClass)) ∧
    ∃ p, s.parent? frame = some p ∧ s.Matches p outer

variable {s s' : Store} {frame : FrameId} {scopes : List (Table Bool)}

theorem Matches.lt (h : s.Matches frame scopes) : frame < s.frames.size := by
  cases scopes with
  | nil => exact h
  | cons scope outer =>
    obtain ⟨-, p, hp, -⟩ := h
    exact lt_size_of_parent? hp

theorem Matches.evolve (h : s.Matches frame scopes) {n : FrameId}
    (hs : Evolves n s s') : s'.Matches frame scopes := by
  induction scopes generalizing frame with
  | nil => exact Nat.lt_of_lt_of_le h hs.size
  | cons scope outer ih =>
    obtain ⟨hnames, p, hp, houter⟩ := h
    refine ⟨?_, p, hs.parent _ _ hp, ih houter⟩
    intro name hname
    obtain ⟨v, hv, hclass⟩ := hnames name hname
    obtain ⟨v', hv', hclass'⟩ := hs.values _ _ _ hv
    exact ⟨v', hv', fun hsuper => hclass' hsuper (by simp [hp]) (hclass hsuper)⟩

/-- A variable is found at the distance of its name. -/
theorem Matches.ancestor (h : s.Matches frame scopes) {name : String} {d : Nat}
    (hd : distance scopes name = some d) :
    ∃ f v, s.ancestor? frame d = some f ∧ s.valueIn? f name = some v ∧
      (name = Keyword.kwSuper.lexeme → v.IsClass) := by
  induction scopes generalizing frame d with
  | nil => cases hd
  | cons scope outer ih =>
    obtain ⟨hnames, p, hp, houter⟩ := h
    rw [Scope.distance_cons] at hd
    split at hd
    · next hname =>
      cases hd
      obtain ⟨v, hv⟩ := hnames name hname
      exact ⟨frame, v, rfl, hv⟩
    · obtain ⟨d, houterd, rfl⟩ := Option.map_eq_some_iff.1 hd
      obtain ⟨f, v, hf, hv⟩ := ih houter houterd
      refine ⟨f, v, ?_, hv⟩
      rw [ancestor?, hp]
      exact hf

/-! ## Frames of running code -/

/-- The frame of code that runs in the scopes, in the initializer of `opening`
if there is one.  It holds no name that has not been declared by now. -/
structure Live (s : Store) (frame : FrameId) (scopes : List (Table Bool))
    (opening : Option String) : Prop where
  shape : s.Matches frame scopes
  exact : ∀ scope ∈ scopes.head?, ∀ name, scope.contains name = false →
    s.valueIn? frame name = none
  unset : ∀ name ∈ opening, s.valueIn? frame name = none

theorem Live.lt {opening : Option String} (h : s.Live frame scopes opening) :
    frame < s.frames.size :=
  h.shape.lt

theorem Live.evolve {opening : Option String} (h : s.Live frame scopes opening)
    {n : FrameId} (hs : Evolves n s s') (hlt : frame < n) :
    s'.Live frame scopes opening where
  shape := h.shape.evolve hs
  exact := fun scope hscope name hname =>
    hs.names _ _ hlt (h.exact scope hscope name hname)
  unset := fun name hname => hs.names _ _ hlt (h.unset name hname)

theorem Live.closed {opening : Option String} (h : s.Live frame scopes opening) :
    s.Live frame scopes none :=
  ⟨h.shape, h.exact, nofun⟩

/-- The initializer of a variable that is new in its scope. -/
theorem Live.open {name : String} (h : s.Live frame scopes none)
    (hfree : Scope.Free scopes name) :
    s.Live frame scopes (Scope.opening scopes name) := by
  refine ⟨h.shape, h.exact, ?_⟩
  intro x hx
  cases scopes with
  | nil => cases hx
  | cons scope outer =>
    cases hx
    exact h.exact scope rfl _ (hfree scope rfl)

/-- A declaration adds a name to the frame and to the innermost scope. -/
theorem Live.define {opening : Option String}
    (h : s.Live frame scopes opening) {name : String} (hname : Unreserved name)
    (v : Value) :
    (s.define frame name v).Live frame (addNames [name] scopes) none := by
  have hevolves : Evolves frame s (s.define frame name v) :=
    .define (fun h => absurd h hname.2) v (.inl (Nat.le_refl _))
  have hshape := h.shape.evolve hevolves
  cases scopes with
  | nil => exact ⟨hshape, nofun, nofun⟩
  | cons scope outer =>
    obtain ⟨hnames, hparent⟩ := hshape
    refine ⟨⟨?_, hparent⟩, ?_, nofun⟩
    · intro other hother
      rw [List.foldl_cons, List.foldl_nil, Table.contains_insert] at hother
      by_cases heq : other = name
      · refine ⟨v, ?_, fun hsuper => absurd (heq ▸ hsuper) hname.2⟩
        rw [valueIn?_define, if_pos ⟨rfl, heq, h.lt⟩]
      · simp only [heq, decide_false, Bool.false_or] at hother
        exact hnames other hother
    · intro scope' hscope' other hother
      cases hscope'
      rw [List.foldl_cons, List.foldl_nil, Table.contains_insert] at hother
      simp only [Bool.or_eq_false_iff, decide_eq_false_iff_not] at hother
      rw [valueIn?_define, if_neg fun hand => hother.1 hand.2.1]
      exact h.exact scope rfl other hother.2

/-- A new frame that holds exactly the names of a scope. -/
theorem live_addFrame (h : s.Matches frame scopes) {scope : Table Bool}
    {bindings : Table Value}
    (hnames : ∀ name, scope.contains name = (bindings.find? name).isSome)
    (hsuper : ∀ v, bindings.find? Keyword.kwSuper.lexeme = some v → v.IsClass) :
    (s.addFrame (some frame) bindings).Live s.nextFrame (scope :: scopes)
      none := by
  have hevolves : Evolves s.nextFrame s (s.addFrame (some frame) bindings) :=
    .addFrame (Nat.le_refl _) _ _
  have hparent : (s.addFrame (some frame) bindings).parent? s.nextFrame =
      some frame := by
    rw [parent?_addFrame, if_pos rfl]
    simp [Option.filter, h.lt]
  have hvalue (name : String) :
      (s.addFrame (some frame) bindings).valueIn? s.nextFrame name =
        bindings.find? name := by
    rw [valueIn?_addFrame, if_pos rfl]
  refine ⟨⟨?_, frame, hparent, h.evolve hevolves⟩, ?_, nofun⟩
  · intro name hname
    rw [hnames] at hname
    obtain ⟨v, hv⟩ := Option.isSome_iff_exists.1 hname
    refine ⟨v, by rw [hvalue, hv], ?_⟩
    intro heq
    subst heq
    exact hsuper v hv
  · intro scope' hscope' name hname
    cases hscope'
    rw [hnames] at hname
    rw [hvalue]
    exact Option.isNone_iff_eq_none.1 (by simpa using hname)

end Store

end Lox
