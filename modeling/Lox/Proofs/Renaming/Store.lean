import Lox.Machine.Operator
import Lox.Proofs.Renaming.Basic
import Lox.Proofs.Store.Code

/-!
# Values and stores with new names

What the run of a renamed program has in its store, next to the run of the
program: the same frames and objects under the same numbers, with the new
names in the frames and renamed code in the functions.

A frame comes from a scope, and so do its parents.  `chains` says of each
frame, by its number, which of these scopes are changed, innermost first; it
grows with the frames.  A function is renamed in the scopes of the frame it
closes over, a member of a class in these and the scope of `this`, which it
gets when it is bound.

Whatever a program can see of a value is the same in both runs, and each
operation of the store keeps stores beside each other (`Store.Twin`).
-/

namespace Lox

/-! ## Values -/

/-- Functions that differ in the names of their local variables.  `inner` are
the scopes between the frame and the function. -/
structure Closure.Twin (r : Renaming) (chains : List (List Bool))
    (inner : List Bool) (f f' : Closure) : Prop where
  identity : f'.identity = f.identity
  frame : f'.frame = f.frame
  declaration : ∃ chain, chains[f.frame]? = some chain ∧
    f.declaration.Renames r (inner ++ chain) f'.declaration

/-- Classes that differ in the code of their own members. -/
structure ClassInfo.Twin (r : Renaming) (chains : List (List Bool))
    (info info' : ClassInfo) : Prop where
  id : info'.id = info.id
  name : info'.name = info.name
  methods : info.methods.Twin (r.name false) (Closure.Twin r chains [false])
    info'.methods
  statics : info.statics.Twin (r.name false) (Closure.Twin r chains [false])
    info'.statics

/-- Classes that differ in the code of members. -/
inductive Class.Twin (r : Renaming) (chains : List (List Bool)) :
    Class → Class → Prop where
  | base {info info'} (own : info.Twin r chains info') :
      Twin r chains (.base info) (.base info')
  | derived {info info' c c'} (own : info.Twin r chains info')
      (superclass : Twin r chains c c') :
      Twin r chains (.derived info c) (.derived info' c')

/-- Values that differ in the code they hold. -/
inductive Value.Twin (r : Renaming) (chains : List (List Bool)) :
    Value → Value → Prop where
  | nil : Twin r chains .nil .nil
  | bool (value : Bool) : Twin r chains (.bool value) (.bool value)
  | number (value : Float) : Twin r chains (.number value) (.number value)
  | string (content : String) : Twin r chains (.string content) (.string content)
  | native (n : Native) : Twin r chains (.native n) (.native n)
  | function {f f'} (h : f.Twin r chains [] f') :
      Twin r chains (.function f) (.function f')
  | cls {c c'} (h : c.Twin r chains c') : Twin r chains (.cls c) (.cls c')
  | inst (id : ObjectId) {c c'} (h : c.Twin r chains c') :
      Twin r chains (.inst ⟨id, c⟩) (.inst ⟨id, c'⟩)

/-- Failures that differ in the name of a variable. -/
inductive Failure.Twin (r : Renaming) : Failure → Failure → Prop where
  | same (f : Failure) : Twin r f f
  | undefined (changed : Bool) (name : String) (line : Nat) :
      Twin r (.undefinedVariable name line)
        (.undefinedVariable (r.name changed name) line)

/-- Results with twin values, or with errors related by `E`. -/
inductive ResultTwin {ε : Type} (E : ε → ε → Prop) (r : Renaming)
    (chains : List (List Bool)) : Except ε Value → Except ε Value → Prop where
  | ok {v v'} (h : v.Twin r chains v') : ResultTwin E r chains (.ok v) (.ok v')
  | error {f f'} (h : E f f') : ResultTwin E r chains (.error f) (.error f')

section

variable {r : Renaming} {chains chains' : List (List Bool)}

/-! ## More frames -/

theorem getElem?_of_isPrefix (h : chains <+: chains') {frame : FrameId}
    {chain : List Bool} (hchain : chains[frame]? = some chain) :
    chains'[frame]? = some chain := by
  obtain ⟨new, rfl⟩ := h
  rw [List.getElem?_append_left (List.getElem?_eq_some_iff.1 hchain).1, hchain]

theorem Closure.Twin.mono {inner : List Bool} {f f' : Closure}
    (h : f.Twin r chains inner f') (hle : chains <+: chains') :
    f.Twin r chains' inner f' := by
  obtain ⟨chain, hchain, hdeclaration⟩ := h.declaration
  exact { h with
    declaration := ⟨chain, getElem?_of_isPrefix hle hchain, hdeclaration⟩ }

theorem ClassInfo.Twin.mono {info info' : ClassInfo}
    (h : info.Twin r chains info') (hle : chains <+: chains') :
    info.Twin r chains' info' :=
  { h with
    methods := h.methods.imp fun _ _ hf => hf.mono hle
    statics := h.statics.imp fun _ _ hf => hf.mono hle }

theorem Class.Twin.mono {c c' : Class} (h : c.Twin r chains c')
    (hle : chains <+: chains') : c.Twin r chains' c' := by
  induction h with
  | base own => exact .base (own.mono hle)
  | derived own superclass ih => exact .derived (own.mono hle) ih

theorem Value.Twin.mono {v v' : Value} (h : v.Twin r chains v')
    (hle : chains <+: chains') : v.Twin r chains' v' := by
  cases h with
  | nil => exact .nil
  | bool value => exact .bool value
  | number value => exact .number value
  | string content => exact .string content
  | native n => exact .native n
  | function h => exact .function (h.mono hle)
  | cls h => exact .cls (h.mono hle)
  | inst id h => exact .inst id (h.mono hle)

/-! ## What can be seen of a value -/

theorem Closure.Twin.same {inner : List Bool} {f f' : Closure}
    (h : f.Twin r chains inner f') :
    f'.name = f.name ∧ f'.arity = f.arity ∧ f'.isGetter = f.isGetter := by
  obtain ⟨chain, -, hdeclaration⟩ := h.declaration
  obtain ⟨hname, hkind, hparams⟩ := hdeclaration.same
  exact ⟨congrArg Ident.name hname, hparams, congrArg (· == .getter) hkind⟩

theorem Class.Twin.same {c c' : Class} (h : c.Twin r chains c') :
    c'.id = c.id ∧ c'.name = c.name := by
  cases h with
  | base own => exact ⟨own.id, own.name⟩
  | derived own superclass => exact ⟨own.id, own.name⟩

theorem Class.Twin.findMethod? {c c' : Class} (h : c.Twin r chains c')
    (name : String) :
    Option.Rel (Closure.Twin r chains [false]) (c.findMethod? name)
      (c'.findMethod? name) := by
  induction h with
  | base own => exact own.methods name
  | @derived info info' c c' own superclass ih =>
    have hown : Option.Rel _ (info.methods.find? name)
      (info'.methods.find? name) := own.methods name
    simp only [Class.findMethod?]
    generalize info.methods.find? name = f, info'.methods.find? name = f'
      at hown ⊢
    cases hown with
    | none => exact ih
    | some hf => exact .some hf

theorem Class.Twin.findStatic? {c c' : Class} (h : c.Twin r chains c')
    (name : String) :
    Option.Rel (Closure.Twin r chains [false]) (c.findStatic? name)
      (c'.findStatic? name) := by
  induction h with
  | base own => exact own.statics name
  | @derived info info' c c' own superclass ih =>
    have hown : Option.Rel _ (info.statics.find? name)
      (info'.statics.find? name) := own.statics name
    simp only [Class.findStatic?]
    generalize info.statics.find? name = f, info'.statics.find? name = f'
      at hown ⊢
    cases hown with
    | none => exact ih
    | some hf => exact .some hf

theorem Class.Twin.arity {c c' : Class} (h : c.Twin r chains c') :
    c'.arity = c.arity := by
  have hmethod := h.findMethod? initializerName
  unfold Class.arity
  generalize c.findMethod? initializerName = f,
    c'.findMethod? initializerName = f' at hmethod ⊢
  cases hmethod with
  | none => rfl
  | some hf => exact hf.same.2.1

theorem Value.Twin.truthy {v v' : Value} (h : v.Twin r chains v') :
    v'.truthy = v.truthy := by
  cases h <;> rfl

theorem Value.Twin.display {v v' : Value} (h : v.Twin r chains v') :
    v'.display = v.display := by
  cases h with
  | function h => rw [Value.display, h.same.1, Value.display]
  | cls h => exact h.same.2
  | inst id h => rw [Value.display, h.same.2, Value.display]
  | _ => rfl

theorem Value.Twin.equal {v v' w w' : Value} (hv : v.Twin r chains v')
    (hw : w.Twin r chains w') : v'.equal w' = v.equal w := by
  cases hv with
  | function hf =>
    cases hw with
    | function hg => rw [Value.equal, hf.identity, hg.identity, Value.equal]
    | _ => rfl
  | cls hc =>
    cases hw with
    | cls hd => rw [Value.equal, hc.same.1, hd.same.1, Value.equal]
    | _ => rfl
  | _ => cases hw <;> rfl

theorem Value.twin_ofLiteral (value : Literal) :
    (Value.ofLiteral value).Twin r chains (.ofLiteral value) := by
  cases value with
  | nil => exact .nil
  | bool value => exact .bool value
  | number value => exact .number value
  | string content => exact .string content

/-! ## Operators -/

theorem UnaryOp.apply_twin (op : UnaryOp) (line : Nat) {v v' : Value}
    (h : v.Twin r chains v') :
    ResultTwin (Failure.Twin r) r chains (op.apply line v)
      (op.apply line v') := by
  cases op with
  | not =>
    simp only [UnaryOp.apply, h.truthy]
    exact .ok (.bool _)
  | negate =>
    cases h with
    | number value => exact .ok (.number _)
    | _ => exact .error (.same _)

theorem BinaryOp.onNumbers_twin {operation : Float → Float → Value}
    (hoperation : ∀ a b, (operation a b).Twin r chains (operation a b))
    (op : BinaryOp) (line : Nat) {v v' w w' : Value}
    (hv : v.Twin r chains v') (hw : w.Twin r chains w') :
    ResultTwin (Failure.Twin r) r chains (onNumbers operation op line v w)
      (onNumbers operation op line v' w') := by
  cases hv with
  | number a =>
    cases hw with
    | number b => exact .ok (hoperation a b)
    | _ => exact .error (.same _)
  | _ => exact .error (.same _)

theorem BinaryOp.sum_twin (line : Nat) {v v' w w' : Value}
    (hv : v.Twin r chains v') (hw : w.Twin r chains w') :
    ResultTwin (Failure.Twin r) r chains (sum line v w) (sum line v' w') := by
  cases hv with
  | number a =>
    cases hw with
    | number b => exact .ok (.number _)
    | _ => exact .error (.same _)
  | string a =>
    cases hw with
    | string b => exact .ok (.string _)
    | _ => exact .error (.same _)
  | _ => exact .error (.same _)

theorem BinaryOp.apply_twin (op : BinaryOp) (line : Nat) {v v' w w' : Value}
    (hv : v.Twin r chains v') (hw : w.Twin r chains w') :
    ResultTwin (Failure.Twin r) r chains (op.apply line v w)
      (op.apply line v' w') := by
  cases op with
  | equal | notEqual =>
    simp only [apply, hv.equal hw]
    exact .ok (.bool _)
  | add => exact sum_twin line hv hw
  | subtract | multiply | divide =>
    exact onNumbers_twin (fun _ _ => .number _) _ line hv hw
  | less | lessEqual | greater | greaterEqual =>
    exact onNumbers_twin (fun _ _ => .bool _) _ line hv hw

end

/-! ## The store -/

namespace Store

theorem size_addFrame (s : Store) (parent : Option FrameId)
    (bindings : Table Value) :
    (s.addFrame parent bindings).frames.size = s.frames.size + 1 :=
  Array.size_push _

/-- In a root nothing is searched but the root. -/
theorem owner?_of_root {s : Store} {frame : FrameId}
    (h : s.parent? frame = none) (name : String) :
    s.owner? frame name =
      if (s.valueIn? frame name).isSome then some frame else none := by
  rw [owner?_eq, h, Option.bind_none]

theorem get?_of_root {s : Store} {frame : FrameId}
    (h : s.parent? frame = none) (name : String) :
    s.get? frame name = s.valueIn? frame name := by
  rw [get?, owner?_of_root h]
  cases hvalue : s.valueIn? frame name with
  | none => rfl
  | some v => exact hvalue

/-- The second store is that of a run with new names. -/
structure Twin (r : Renaming) (chains : List (List Bool)) (s s' : Store) :
    Prop where
  size : s.frames.size = chains.length
  size' : s'.frames.size = chains.length
  objects : s'.fields.size = s.fields.size
  closures : s'.closures = s.closures
  parents : ∀ frame, s'.parent? frame = s.parent? frame
  /-- A frame has one scope more than its parent. -/
  linked : ∀ frame chain, chains[frame]? = some chain →
    (s.parent? frame = none ∧ chain = []) ∨
      ∃ p changed outer, s.parent? frame = some p ∧
        chains[p]? = some outer ∧ chain = changed :: outer
  values : ∀ frame chain, chains[frame]? = some chain → ∀ name,
    Option.Rel (Value.Twin r chains) (s.valueIn? frame name)
      (s'.valueIn? frame (r.name (chain.headD false) name))
  fields : ∀ object name, Option.Rel (Value.Twin r chains)
    (s.field? object name) (s'.field? object name)

namespace Twin

variable {r : Renaming} {chains : List (List Bool)} {s s' : Store}
  {frame : FrameId} {chain : List Bool}

theorem lt_of_chain (h : s.Twin r chains s')
    (hchain : chains[frame]? = some chain) : frame < s.frames.size := by
  rw [h.size]
  exact (List.getElem?_eq_some_iff.1 hchain).1

theorem nextFrame (h : s.Twin r chains s') : s'.nextFrame = s.nextFrame :=
  h.size'.trans h.size.symm

/-- The scopes of the frame that comes next. -/
theorem chain_nextFrame (h : s.Twin r chains s') (chain : List Bool) :
    (chains ++ [chain])[s.nextFrame]? = some chain := by
  rw [Store.nextFrame, h.size, List.getElem?_concat_length]

/-! ## Variables at a distance -/

theorem ancestor? (h : s.Twin r chains s') (frame : FrameId) (distance : Nat) :
    s'.ancestor? frame distance = s.ancestor? frame distance := by
  induction distance generalizing frame with
  | zero => rfl
  | succ distance ih =>
    simp only [Store.ancestor?, h.parents]
    cases s.parent? frame with
    | none => rfl
    | some p => exact ih p

/-- Going up, the scopes are left behind one by one. -/
theorem chain_ancestor (h : s.Twin r chains s')
    (hchain : chains[frame]? = some chain) {distance : Nat} {f : FrameId}
    (hf : s.ancestor? frame distance = some f) :
    chains[f]? = some (chain.drop distance) := by
  induction distance generalizing frame chain with
  | zero =>
    cases hf
    exact hchain
  | succ distance ih =>
    rw [Store.ancestor?] at hf
    rcases h.linked frame chain hchain with ⟨hnone, -⟩ | ⟨p, _, _, hp, houter, rfl⟩
    · rw [hnone] at hf
      cases hf
    · rw [hp] at hf
      exact ih houter hf

theorem headD_drop (chain : List Bool) (distance : Nat) :
    (chain.drop distance).headD false = chain.getD distance false := by
  rw [List.headD_eq_head?_getD, List.head?_drop, List.getD_eq_getElem?_getD]

/-- The values of a name at a distance, where it has its new name. -/
theorem valueIn?_ancestor (h : s.Twin r chains s')
    (hchain : chains[frame]? = some chain) {distance : Nat} {f : FrameId}
    (hf : s.ancestor? frame distance = some f) (name : String) :
    Option.Rel (Value.Twin r chains) (s.valueIn? f name)
      (s'.valueIn? f (r.name (chain.getD distance false) name)) := by
  have hvalue := h.values f _ (h.chain_ancestor hchain hf) name
  rwa [headD_drop] at hvalue

theorem getAt? (h : s.Twin r chains s') (hchain : chains[frame]? = some chain)
    (distance : Nat) (name : String) :
    Option.Rel (Value.Twin r chains) (s.getAt? frame distance name)
      (s'.getAt? frame distance (r.name (chain.getD distance false) name)) := by
  simp only [Store.getAt?, h.ancestor?]
  cases hf : s.ancestor? frame distance with
  | none => exact .none
  | some f => exact h.valueIn?_ancestor hchain hf name

theorem ownerAt? (h : s.Twin r chains s')
    (hchain : chains[frame]? = some chain) (distance : Nat) (name : String) :
    s'.ownerAt? frame distance (r.name (chain.getD distance false) name) =
      s.ownerAt? frame distance name := by
  simp only [Store.ownerAt?, h.ancestor?]
  cases hf : s.ancestor? frame distance with
  | none => rfl
  | some f =>
    show (if (s'.valueIn? f _).isSome then _ else _) = _
    rw [(h.valueIn?_ancestor hchain hf name).isSome_eq]

/-- Both are undefined or neither is. -/
theorem orUndefined {v v' : Option Value}
    (h : Option.Rel (Value.Twin r chains) v v') (changed : Bool) (name : String)
    (line : Nat) :
    ResultTwin (Failure.Twin r) r chains (orUndefined name line v)
      (orUndefined (r.name changed name) line v') := by
  cases h with
  | none => exact .error (.undefined changed name line)
  | some hv => exact .ok hv

theorem readAt (h : s.Twin r chains s') (hchain : chains[frame]? = some chain)
    (distance : Nat) (name : String) (line : Nat) :
    ResultTwin (Failure.Twin r) r chains (s.readAt frame distance name line)
      (s'.readAt frame distance (r.name (chain.getD distance false) name)
        line) :=
  orUndefined (h.getAt? hchain distance name) _ name line

/-! ## Globals -/

theorem parent?_eq_none (h : s.Twin r chains s')
    (hroot : chains[frame]? = some []) : s.parent? frame = none := by
  rcases h.linked frame [] hroot with ⟨hnone, -⟩ | ⟨_, _, _, -, -, hcons⟩
  · exact hnone
  · cases hcons

/-- A root keeps its names. -/
theorem valueIn?_root (h : s.Twin r chains s')
    (hroot : chains[frame]? = some []) (name : String) :
    Option.Rel (Value.Twin r chains) (s.valueIn? frame name)
      (s'.valueIn? frame name) :=
  h.values frame [] hroot name

theorem owner? (h : s.Twin r chains s') (hroot : chains[frame]? = some [])
    (name : String) : s'.owner? frame name = s.owner? frame name := by
  have hparent := h.parent?_eq_none hroot
  have hparent' : s'.parent? frame = none := by rw [h.parents, hparent]
  rw [owner?_of_root hparent, owner?_of_root hparent',
    (h.valueIn?_root hroot name).isSome_eq]

theorem read (h : s.Twin r chains s') (hroot : chains[frame]? = some [])
    (name : String) (line : Nat) :
    ResultTwin (Failure.Twin r) r chains (s.read frame name line)
      (s'.read frame name line) := by
  have hparent := h.parent?_eq_none hroot
  have hparent' : s'.parent? frame = none := by rw [h.parents, hparent]
  rw [Store.read, Store.read, get?_of_root hparent, get?_of_root hparent']
  exact orUndefined (h.valueIn?_root hroot name) false name line

/-! ## Changes -/

theorem define (h : s.Twin r chains s') (hchain : chains[frame]? = some chain)
    (name : String) {v v' : Value} (hv : v.Twin r chains v') :
    (s.define frame name v).Twin r chains
      (s'.define frame (r.name (chain.headD false) name) v') where
  size := by rw [size_define, h.size]
  size' := by rw [size_define, h.size']
  objects := h.objects
  closures := h.closures
  parents := fun other => by rw [parent?_define, parent?_define, h.parents]
  linked := fun other chain' hchain' => by
    rw [parent?_define]
    exact h.linked other chain' hchain'
  values := by
    intro other chain' hchain' name'
    have hsize : frame < s'.frames.size := by
      rw [h.size', ← h.size]
      exact h.lt_of_chain hchain
    rw [valueIn?_define, valueIn?_define]
    by_cases hother : other = frame
    · subst hother
      rw [hchain] at hchain'
      cases hchain'
      by_cases hname : name' = name
      · subst hname
        rw [if_pos ⟨rfl, rfl, h.lt_of_chain hchain⟩, if_pos ⟨rfl, rfl, hsize⟩]
        exact .some hv
      · rw [if_neg fun hand => hname hand.2.1,
          if_neg fun hand => hname (r.name_injective _ hand.2.1)]
        exact h.values other chain hchain name'
    · rw [if_neg fun hand => hother hand.1, if_neg fun hand => hother hand.1]
      exact h.values other chain' hchain' name'
  fields := h.fields

/-- A value is given to a variable at a distance. -/
theorem defineAt (h : s.Twin r chains s') (hchain : chains[frame]? = some chain)
    {distance : Nat} {name : String} {owner : FrameId}
    (howner : s.ownerAt? frame distance name = some owner) {v v' : Value}
    (hv : v.Twin r chains v') :
    (s.define owner name v).Twin r chains
      (s'.define owner (r.name (chain.getD distance false) name) v') := by
  have hf : s.ancestor? frame distance = some owner := by
    unfold Store.ownerAt? at howner
    split at howner
    · next f hf =>
      split at howner
      · cases howner
        exact hf
      · cases howner
    · cases howner
  have hdefined := h.define (h.chain_ancestor hchain hf) name hv
  rwa [headD_drop] at hdefined

/-- A value is given to a variable of a root. -/
theorem defineRoot (h : s.Twin r chains s') (hroot : chains[frame]? = some [])
    {name : String} {owner : FrameId} (howner : s.owner? frame name = some owner)
    {v v' : Value} (hv : v.Twin r chains v') :
    (s.define owner name v).Twin r chains (s'.define owner name v') := by
  rw [owner?_of_root (h.parent?_eq_none hroot)] at howner
  split at howner
  · cases howner
    exact h.define hroot name hv
  · cases howner

/-- A new frame, inside a frame that there is. -/
theorem addFrame (h : s.Twin r chains s')
    (hchain : chains[frame]? = some chain) (changed : Bool)
    {bindings bindings' : Table Value}
    (hbindings : bindings.Twin (r.name changed) (Value.Twin r chains)
      bindings') :
    (s.addFrame (some frame) bindings).Twin r (chains ++ [changed :: chain])
      (s'.addFrame (some frame) bindings') := by
  have hle : chains <+: chains ++ [changed :: chain] := List.prefix_append _ _
  have hlt := h.lt_of_chain hchain
  have hlt' : frame < s'.frames.size := by rw [h.size', ← h.size]; exact hlt
  have hnext : s.nextFrame = chains.length := h.size
  -- A frame of the larger list is the new one or an old one.
  have hcases {other : FrameId} {chain' : List Bool}
      (hchain' : (chains ++ [changed :: chain])[other]? = some chain') :
      other = s.nextFrame ∧ chain' = changed :: chain ∨
        other ≠ s.nextFrame ∧ chains[other]? = some chain' := by
    rw [hnext]
    rcases Nat.lt_trichotomy other chains.length with hless | heq | hmore
    · rw [List.getElem?_append_left hless] at hchain'
      exact .inr ⟨Nat.ne_of_lt hless, hchain'⟩
    · subst heq
      rw [List.getElem?_concat_length] at hchain'
      cases hchain'
      exact .inl ⟨rfl, rfl⟩
    · rw [List.getElem?_eq_none (by simp; omega)] at hchain'
      cases hchain'
  refine ⟨?_, ?_, h.objects, h.closures, ?_, ?_, ?_, ?_⟩
  · rw [size_addFrame, h.size, List.length_append, List.length_singleton]
  · rw [size_addFrame, h.size', List.length_append, List.length_singleton]
  · intro other
    rw [parent?_addFrame, parent?_addFrame, h.nextFrame, h.parents, h.size,
      h.size']
  · intro other chain' hchain'
    rw [parent?_addFrame]
    rcases hcases hchain' with ⟨hnew, rfl⟩ | ⟨hold, hchain'⟩
    · rw [if_pos hnew]
      refine .inr ⟨frame, changed, chain, ?_, getElem?_of_isPrefix hle hchain, rfl⟩
      simp [Option.filter, hlt]
    · rw [if_neg hold]
      rcases h.linked other chain' hchain' with hroot | ⟨p, c, outer, hp, hq, heq⟩
      · exact .inl hroot
      · exact .inr ⟨p, c, outer, hp, getElem?_of_isPrefix hle hq, heq⟩
  · intro other chain' hchain' name
    rw [valueIn?_addFrame, valueIn?_addFrame, h.nextFrame]
    rcases hcases hchain' with ⟨hnew, rfl⟩ | ⟨hold, hchain'⟩
    · rw [if_pos hnew, if_pos hnew]
      exact (hbindings name).imp fun _ _ hv => hv.mono hle
    · rw [if_neg hold, if_neg hold]
      exact (h.values other chain' hchain' name).imp fun _ _ hv => hv.mono hle
  · exact fun object name => (h.fields object name).imp fun _ _ hv => hv.mono hle

theorem addObject (h : s.Twin r chains s') :
    s.addObject.Twin r chains s'.addObject :=
  { h with
    objects := by
      show (s'.fields.push _).size = (s.fields.push _).size
      rw [Array.size_push, Array.size_push, h.objects]
    fields := fun object name => by
      rw [field?_addObject, field?_addObject]
      exact h.fields object name }

theorem setField (h : s.Twin r chains s') (object : ObjectId) (name : String)
    {v v' : Value} (hv : v.Twin r chains v') :
    (s.setField object name v).Twin r chains
      (s'.setField object name v') := by
  refine { h with objects := ?_, fields := ?_ }
  · simp only [Store.setField, Array.size_modify, h.objects]
  · intro other name'
    rw [field?_setField, field?_setField, h.objects]
    by_cases hcond : other = object ∧ name' = name ∧ object < s.fields.size
    · rw [if_pos hcond, if_pos hcond]
      exact .some hv
    · rw [if_neg hcond, if_neg hcond]
      exact h.fields other name'

theorem makeClosure (h : s.Twin r chains s') (f f' : FunctionDecl)
    (frame : FrameId) :
    (s.makeClosure f frame).1.Twin r chains (s'.makeClosure f' frame).1 :=
  { h with closures := congrArg (· + 1) h.closures }

/-- A new function, renamed in the scopes of the frame it closes over. -/
theorem closure (h : s.Twin r chains s')
    (hchain : chains[frame]? = some chain) {inner : List Bool}
    {f f' : FunctionDecl} (hf : f.Renames r (inner ++ chain) f') :
    (s.makeClosure f frame).2.Twin r chains inner
      (s'.makeClosure f' frame).2 :=
  ⟨h.closures, rfl, chain, hchain, hf⟩

/-- A member is bound in a frame of its own, whose scope is not changed. -/
theorem bindMethod (h : s.Twin r chains s') {f f' : Closure}
    (hf : f.Twin r chains [false] f') {object object' : Value}
    (hobject : object.Twin r chains object') :
    ∃ chains', chains <+: chains' ∧
      (s.bindMethod f object).1.Twin r chains' (s'.bindMethod f' object').1 ∧
      (s.bindMethod f object).2.Twin r chains' [] (s'.bindMethod f' object').2 := by
  obtain ⟨chain, hchain, hdeclaration⟩ := hf.declaration
  have hbindings := Table.twin_empty.insert (r.name_injective false)
    Keyword.kwThis.lexeme hobject
  have hframed := h.addFrame hchain false hbindings
  refine ⟨chains ++ [false :: chain], List.prefix_append _ _, ?_, ?_⟩
  · simp only [Store.bindMethod, hf.frame, h.nextFrame]
    exact hframed.makeClosure f.declaration f'.declaration s.nextFrame
  · simp only [Store.bindMethod, hf.frame, h.nextFrame]
    exact hframed.closure (h.chain_nextFrame _) hdeclaration

end Twin

/-! ## Stores as they are -/

/-- How many parents lie above a frame. -/
def level (s : Store) (frame : FrameId) : Nat :=
  match _h : s.parent? frame with
  | some p => s.level p + 1
  | none => 0
termination_by frame
decreasing_by exact parent?_lt _h

theorem level_eq (s : Store) (frame : FrameId) :
    s.level frame = ((s.parent? frame).map fun p => s.level p + 1).getD 0 := by
  rw [level]
  split
  · next h => rw [h]; rfl
  · next h => rw [h]; rfl

/-- The scopes of the frames, where none is changed. -/
def unchanged (s : Store) : List (List Bool) :=
  (List.range s.frames.size).map fun frame =>
    List.replicate (s.level frame) false

theorem getElem?_unchanged (s : Store) {frame : FrameId}
    (h : frame < s.frames.size) :
    s.unchanged[frame]? = some (List.replicate (s.level frame) false) := by
  simp [unchanged, h]

theorem eq_of_getElem?_unchanged {s : Store} {frame : FrameId}
    {chain : List Bool} (h : s.unchanged[frame]? = some chain) :
    frame < s.frames.size ∧ chain = List.replicate (s.level frame) false := by
  have hlt : frame < s.frames.size := by
    simpa [unchanged] using (List.getElem?_eq_some_iff.1 h).1
  rw [s.getElem?_unchanged hlt] at h
  exact ⟨hlt, (Option.some.inj h).symm⟩

/-- The first frame has no parent, so it has no scopes. -/
theorem getElem?_unchanged_zero {s : Store} (h : 0 < s.frames.size) :
    s.unchanged[0]? = some [] := by
  have hparent : s.parent? 0 = none := by
    cases hp : s.parent? 0 with
    | none => rfl
    | some p => exact absurd (parent?_lt hp) (Nat.not_lt_zero p)
  rw [s.getElem?_unchanged h, level_eq, hparent]
  rfl

end Store

section

variable {r : Renaming} {L : Ledger} {s : Store}

theorem Closure.twin_self {f : Closure} (h : f.frame < s.frames.size)
    (n : Nat) : f.Twin r s.unchanged (List.replicate n false) f := by
  refine ⟨rfl, rfl, _, s.getElem?_unchanged h, ?_⟩
  rw [List.replicate_append_replicate]
  exact f.declaration.renames_self _

theorem Table.twin_self {α : Type} {R : α → α → Prop} {t : Table α}
    (h : ∀ name v, t.find? name = some v → R v v) :
    t.Twin (r.name false) R t := by
  intro name
  show Option.Rel R (t.find? name) (t.find? name)
  cases hv : t.find? name with
  | none => exact .none
  | some v => exact .some (h name v hv)

theorem ClassInfo.twin_self {info : ClassInfo} (h : info.Fits L s) :
    info.Twin r s.unchanged info := by
  have hmember {f : Closure} (hf : f.FitsBound L s) :
      f.Twin r s.unchanged [false] f := by
    obtain ⟨scopes, hmatches, -⟩ := hf
    exact Closure.twin_self hmatches.lt 1
  exact ⟨rfl, rfl,
    Table.twin_self fun name f hf => hmember (h.methods name f hf),
    Table.twin_self fun name f hf => hmember (h.statics name f hf)⟩

theorem Class.twin_self {c : Class} (h : c.Fits L s) :
    c.Twin r s.unchanged c := by
  induction c with
  | base info => exact .base (ClassInfo.twin_self h)
  | derived info superclass ih =>
    exact .derived (ClassInfo.twin_self h.1) (ih h.2)

theorem Value.twin_self {v : Value} (h : v.Fits L s) :
    v.Twin r s.unchanged v := by
  cases v with
  | nil => exact .nil
  | bool value => exact .bool value
  | number value => exact .number value
  | string content => exact .string content
  | native n => exact .native n
  | function f =>
    obtain ⟨scopes, hmatches, -⟩ := h
    exact .function (Closure.twin_self hmatches.lt 0)
  | cls c => exact .cls (Class.twin_self h)
  | inst object => exact .inst object.id (Class.twin_self h)

/-- A store whose code fits is its own twin where no scope is changed. -/
theorem Store.twin_self (h : s.Fits L) : s.Twin r s.unchanged s where
  size := by simp [unchanged]
  size' := by simp [unchanged]
  objects := rfl
  closures := rfl
  parents := fun _ => rfl
  linked := by
    intro frame chain hchain
    obtain ⟨hlt, rfl⟩ := eq_of_getElem?_unchanged hchain
    rw [level_eq]
    cases hparent : s.parent? frame with
    | none => exact .inl ⟨rfl, rfl⟩
    | some p =>
      have hp := Nat.lt_trans (parent?_lt hparent) hlt
      exact .inr ⟨p, false, _, rfl, s.getElem?_unchanged hp, rfl⟩
  values := by
    intro frame chain hchain name
    obtain ⟨hlt, rfl⟩ := eq_of_getElem?_unchanged hchain
    have hsame : r.name ((List.replicate (s.level frame) false).headD false)
        name = name := r.keeps_replicate _ ⟨name, 0⟩
    rw [hsame]
    cases hv : s.valueIn? frame name with
    | none => exact .none
    | some v => exact .some (Value.twin_self (h.values frame name v hv))
  fields := by
    intro object name
    cases hv : s.field? object name with
    | none => exact .none
    | some v => exact .some (Value.twin_self (h.fields object name v hv))

end

end Lox
