import Lox.Proofs.Store.Frames

/-!
# Code in the store

Functions and classes are values that hold code.  The code of a function fits
the scopes that the frame it closes over matches, and the members of a class
fit these scopes with one for `this` further in, which they get when they are
bound.  `Value.Fits` says so of every value, and `Store.Fits` of all that the
store holds.

Each operation of the store keeps it.  All of them follow from one lemma: a
later store fits if each of its values is an old one or fits by itself
(`Store.Fits.evolve`).
-/

namespace Lox

open Scope (distance thisScope)
open Store (Evolves)

/-- The code of the function fits the frame it closes over.  An initializer
is bound, so that it finds its instance there. -/
def Closure.Fits (L : Ledger) (s : Store) (f : Closure) : Prop :=
  ∃ scopes, s.Matches f.frame scopes ∧ f.declaration.Scoped L scopes ∧
    (f.declaration.isInitializer →
      distance scopes Keyword.kwThis.lexeme = some 0)

/-- The code of the member fits the frame it closes over once it is bound. -/
def Closure.FitsBound (L : Ledger) (s : Store) (f : Closure) : Prop :=
  ∃ scopes, s.Matches f.frame scopes ∧
    f.declaration.Scoped L (thisScope :: scopes)

/-- The members of the class fit. -/
structure ClassInfo.Fits (L : Ledger) (s : Store) (info : ClassInfo) :
    Prop where
  methods : ∀ name f, info.methods.find? name = some f → f.FitsBound L s
  statics : ∀ name f, info.statics.find? name = some f → f.FitsBound L s

/-- The members of the class and of its ancestors fit. -/
def Class.Fits (L : Ledger) (s : Store) : Class → Prop
  | base info => info.Fits L s
  | derived info superclass => info.Fits L s ∧ superclass.Fits L s

/-- The code that the value holds fits. -/
def Value.Fits (L : Ledger) (s : Store) : Value → Prop
  | function f => f.Fits L s
  | cls c => c.Fits L s
  | inst object => object.cls.Fits L s
  | _ => True

/-- All code in the store fits, and there is a frame for the globals. -/
structure Store.Fits (L : Ledger) (s : Store) : Prop where
  root : 0 < s.frames.size
  values : ∀ frame name v, s.valueIn? frame name = some v → v.Fits L s
  fields : ∀ object name v, s.field? object name = some v → v.Fits L s

section

variable {L L' : Ledger} {s s' : Store}

/-! ## Later stores and larger ledgers -/

theorem Closure.Fits.mono {f : Closure} (h : f.Fits L s) {n : FrameId}
    (hs : Evolves n s s') (hL : L.Extends L') : f.Fits L' s' := by
  obtain ⟨scopes, hmatches, hscoped, hinitializer⟩ := h
  exact ⟨scopes, hmatches.evolve hs, hscoped.mono hL, hinitializer⟩

theorem Closure.FitsBound.mono {f : Closure} (h : f.FitsBound L s)
    {n : FrameId} (hs : Evolves n s s') (hL : L.Extends L') :
    f.FitsBound L' s' := by
  obtain ⟨scopes, hmatches, hscoped⟩ := h
  exact ⟨scopes, hmatches.evolve hs, hscoped.mono hL⟩

theorem ClassInfo.Fits.mono {info : ClassInfo} (h : info.Fits L s)
    {n : FrameId} (hs : Evolves n s s') (hL : L.Extends L') :
    info.Fits L' s' :=
  ⟨fun name f hf => (h.methods name f hf).mono hs hL,
    fun name f hf => (h.statics name f hf).mono hs hL⟩

theorem Class.Fits.mono {c : Class} (h : c.Fits L s) {n : FrameId}
    (hs : Evolves n s s') (hL : L.Extends L') : c.Fits L' s' := by
  induction c with
  | base info => exact ClassInfo.Fits.mono h hs hL
  | derived info superclass ih => exact ⟨h.1.mono hs hL, ih h.2⟩

theorem Value.Fits.mono {v : Value} (h : v.Fits L s) {n : FrameId}
    (hs : Evolves n s s') (hL : L.Extends L') : v.Fits L' s' := by
  cases v with
  | function f => exact Closure.Fits.mono h hs hL
  | cls c => exact Class.Fits.mono h hs hL
  | inst object => exact Class.Fits.mono h hs hL
  | _ => trivial

theorem Ledger.Extends.refl (L : Ledger) : L.Extends L :=
  ⟨Nat.le_refl _, fun _ _ => rfl, fun _ _ => .rfl, fun _ _ => .rfl⟩

theorem Value.Fits.evolve {v : Value} (h : v.Fits L s) {n : FrameId}
    (hs : Evolves n s s') : v.Fits L s' :=
  h.mono hs (.refl L)

theorem Store.Fits.extend (h : s.Fits L) (hL : L.Extends L') : s.Fits L' where
  root := h.root
  values := fun frame name v hv => (h.values frame name v hv).mono (.refl 0 s) hL
  fields := fun object name v hv => (h.fields object name v hv).mono (.refl 0 s) hL

/-- A later store fits if each of its values is an old one or fits. -/
theorem Store.Fits.evolve (h : s.Fits L) {n : FrameId} (hs : Evolves n s s')
    (hvalues : ∀ frame name v, s'.valueIn? frame name = some v →
      s.valueIn? frame name = some v ∨ v.Fits L s')
    (hfields : ∀ object name v, s'.field? object name = some v →
      s.field? object name = some v ∨ v.Fits L s') : s'.Fits L where
  root := Nat.lt_of_lt_of_le h.root hs.size
  values := by
    intro frame name v hv
    rcases hvalues frame name v hv with hold | hfits
    · exact (h.values frame name v hold).evolve hs
    · exact hfits
  fields := by
    intro object name v hv
    rcases hfields object name v hv with hold | hfits
    · exact (h.fields object name v hold).evolve hs
    · exact hfits

/-! ## Members of classes -/

theorem Class.Fits.findMethod? {c : Class} (h : c.Fits L s) {name : String}
    {f : Closure} (hf : c.findMethod? name = some f) : f.FitsBound L s := by
  induction c with
  | base info => exact ClassInfo.Fits.methods h name f hf
  | derived info superclass ih =>
    rw [Class.findMethod?] at hf
    split at hf
    · next hown =>
      cases hf
      exact h.1.methods name f hown
    · exact ih h.2 hf

theorem Class.Fits.findStatic? {c : Class} (h : c.Fits L s) {name : String}
    {f : Closure} (hf : c.findStatic? name = some f) : f.FitsBound L s := by
  induction c with
  | base info => exact ClassInfo.Fits.statics h name f hf
  | derived info superclass ih =>
    rw [Class.findStatic?] at hf
    split at hf
    · next hown =>
      cases hf
      exact h.1.statics name f hown
    · exact ih h.2 hf

end

namespace Store

variable {L : Ledger} {s : Store}

/-! ## Operations -/

theorem Fits.define (h : s.Fits L) {frame n : FrameId} {name : String}
    {v : Value} (hs : Evolves n s (s.define frame name v))
    (hv : v.Fits L (s.define frame name v)) :
    (s.define frame name v).Fits L := by
  refine h.evolve hs ?_ fun _ _ _ hfield => .inl hfield
  intro other name' w hw
  rw [valueIn?_define] at hw
  split at hw
  · cases hw
    exact .inr hv
  · exact .inl hw

theorem Fits.addFrame (h : s.Fits L) (parent : Option FrameId)
    {bindings : Table Value}
    (hbindings : ∀ name v, bindings.find? name = some v → v.Fits L s) :
    (s.addFrame parent bindings).Fits L := by
  have hs : Evolves 0 s (s.addFrame parent bindings) :=
    .addFrame (Nat.zero_le _) parent bindings
  refine h.evolve hs ?_ fun _ _ _ hfield => .inl hfield
  intro frame name v hv
  rw [valueIn?_addFrame] at hv
  split at hv
  · exact .inr ((hbindings name v hv).evolve hs)
  · exact .inl hv

theorem Fits.addObject (h : s.Fits L) : s.addObject.Fits L := by
  have hs : Evolves 0 s s.addObject := .of_frames rfl
  refine h.evolve hs (fun _ _ _ hv => .inl hv) ?_
  intro object name v hv
  rw [field?_addObject] at hv
  exact .inl hv

theorem Fits.setField (h : s.Fits L) (object : ObjectId) (name : String)
    {v : Value} (hv : v.Fits L s) : (s.setField object name v).Fits L := by
  have hs : Evolves 0 s (s.setField object name v) := .of_frames rfl
  refine h.evolve hs (fun _ _ _ hv => .inl hv) ?_
  intro other name' w hw
  rw [field?_setField] at hw
  split at hw
  · cases hw
    exact .inr (hv.evolve hs)
  · exact .inl hw

theorem Fits.makeClosure (h : s.Fits L) (f : FunctionDecl) (frame : FrameId) :
    (s.makeClosure f frame).1.Fits L := by
  have hs : Evolves 0 s (s.makeClosure f frame).1 := .of_frames rfl
  exact h.evolve hs (fun _ _ _ hv => .inl hv) fun _ _ _ hv => .inl hv

/-- A member is bound in a frame of its own, where it finds `this`. -/
theorem Fits.bindMethod (h : s.Fits L) {method : Closure} {object : Value}
    (hmethod : method.FitsBound L s) (hobject : object.Fits L s)
    {n : FrameId} (hn : n ≤ s.nextFrame) :
    (s.bindMethod method object).1.Fits L ∧
      Evolves n s (s.bindMethod method object).1 ∧
      (s.bindMethod method object).2.Fits L (s.bindMethod method object).1 := by
  let bindings := Table.empty.insert Keyword.kwThis.lexeme object
  let framed := s.addFrame (some method.frame) bindings
  have hbound : (s.bindMethod method object).1.frames = framed.frames := rfl
  have hframed : framed.Fits L :=
    h.addFrame _ (Table.forall_single _ hobject)
  obtain ⟨scopes, hmatches, hscoped⟩ := hmethod
  have hlive : framed.Live s.nextFrame (thisScope :: scopes) none := by
    refine live_addFrame hmatches ?_ ?_
    · intro name
      rw [thisScope, Table.contains_insert, Table.find?_insert]
      by_cases hname : name = Keyword.kwThis.lexeme
      · simp [hname]
      · simp [hname, Table.contains]
    · intro v hv
      cases hv
  refine ⟨hframed.makeClosure _ _, ?_, thisScope :: scopes, ?_, hscoped, ?_⟩
  · exact (Evolves.addFrame hn _ _).trans (.of_frames hbound)
  · have hrest : Evolves 0 framed (s.bindMethod method object).1 :=
      .of_frames hbound
    exact hlive.shape.evolve hrest
  · intro _
    rfl

end Store

end Lox
