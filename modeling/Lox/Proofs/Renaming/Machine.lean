import Lox.Proofs.Machine.Lookup
import Lox.Proofs.Renaming.Store

/-!
# Runs with new names

Next to the run of a program the run of the renamed program goes through the
same steps: the controls and the stacks hold the same code with new names, in
the scopes of the frames they run in, and the stores hold the same values up
to the names (`Twin`).

There is one lemma for each operation of the machine.  Two places need more
than the relation.  Native functions are code of the host; `Setting.Respects`
says that they do not see the names.  A class with a superclass looks for its
own name when the superclass has been evaluated, along the chain of frames;
that the current frame itself holds the name is known from the soundness of
the machine (`Safe`).
-/

namespace Lox

/-- Callees that differ in the code they hold. -/
inductive Callable.Twin (r : Renaming) (chains : List (List Bool)) :
    Callable → Callable → Prop where
  | native (n : Native) : Twin r chains (.native n) (.native n)
  | closure {f f'} (h : f.Twin r chains [] f') :
      Twin r chains (.closure f) (.closure f')
  | cls {c c'} (h : c.Twin r chains c') : Twin r chains (.cls c) (.cls c')

/-- Completions that differ in the code they hold. -/
inductive Completion.Twin (r : Renaming) (chains : List (List Bool)) :
    Completion → Completion → Prop where
  | normal : Twin r chains .normal .normal
  | returned {v v'} (h : v.Twin r chains v') :
      Twin r chains (.returned v) (.returned v')

section

variable {r : Renaming} {chains chains' : List (List Bool)}

theorem Callable.Twin.mono {callee callee' : Callable}
    (h : callee.Twin r chains callee') (hle : chains <+: chains') :
    callee.Twin r chains' callee' := by
  cases h with
  | native n => exact .native n
  | closure h => exact .closure (h.mono hle)
  | cls h => exact .cls (h.mono hle)

theorem Callable.Twin.arity {callee callee' : Callable}
    (h : callee.Twin r chains callee') : callee'.arity = callee.arity := by
  cases h with
  | native n => rfl
  | closure h => exact h.same.2.1
  | cls h => exact h.arity

theorem Value.Twin.callable? {v v' : Value} (h : v.Twin r chains v') :
    Option.Rel (Callable.Twin r chains) v.callable? v'.callable? := by
  cases h with
  | native n => exact .some (.native n)
  | function h => exact .some (.closure h)
  | cls h => exact .some (.cls h)
  | _ => exact .none

theorem Value.Twin.objectId? {v v' : Value} (h : v.Twin r chains v') :
    Machine.objectId? v' = Machine.objectId? v := by
  cases h with
  | cls h => exact congrArg some h.same.1
  | _ => rfl

end

namespace Machine

/-- A native function that does not see the names of local variables. -/
def Behaviour.Respects (r : Renaming) (behaviour : Behaviour) : Prop :=
  ∀ (chains : List (List Bool)) (now : Float) (arguments arguments' : List Value),
    List.Forall₂ (Value.Twin r chains) arguments arguments' →
      ResultTwin Eq r chains (behaviour now arguments)
        (behaviour now arguments')

/-- The setting goes with the renaming. -/
structure Setting.Respects (r : Renaming) (set : Setting) : Prop where
  distances : set.distances = r.table
  globals : set.globals = 0
  natives : ∀ (i : Nat) (behaviour : Behaviour),
    set.natives[i]? = some behaviour → behaviour.Respects r

/-! ## Machines beside each other -/

/-- The same is done next, in scopes of which `chain` are changed. -/
inductive Control.Twin (r : Renaming) (chains : List (List Bool))
    (chain : List Bool) : Control → Control → Prop where
  | eval (e : Expr) : Twin r chains chain (.eval e) (.eval (e.rename r chain))
  | exec {s s'} (h : s.Renames r chain s') :
      Twin r chains chain (.exec s) (.exec s')
  | value {v v'} (h : v.Twin r chains v') :
      Twin r chains chain (.value v) (.value v')
  | completed {c c'} (h : c.Twin r chains c') :
      Twin r chains chain (.completed c) (.completed c')
  | failed {f f'} (h : f.Twin r f') : Twin r chains chain (.failed f) (.failed f')

/-- The same waits.  It waits in the first scopes; what waits behind it does
so in the second, which are others only behind a block. -/
inductive Pending.Twin (r : Renaming) (chains : List (List Bool)) :
    List Bool → List Bool → Pending → Pending → Prop where
  | unary {chain} (op : UnaryOp) (line : Nat) :
      Twin r chains chain chain (.unary op line) (.unary op line)
  | binaryLeft {chain} (op : BinaryOp) (line : Nat) (right : Expr) :
      Twin r chains chain chain (.binaryLeft op line right)
        (.binaryLeft op line (right.rename r chain))
  | binaryRight {chain v v'} (h : v.Twin r chains v') (op : BinaryOp)
      (line : Nat) :
      Twin r chains chain chain (.binaryRight v op line)
        (.binaryRight v' op line)
  | logical {chain} (op : LogicalOp) (right : Expr) :
      Twin r chains chain chain (.logical op right)
        (.logical op (right.rename r chain))
  | assign {chain} (target : Ref) :
      Twin r chains chain chain (.assign target)
        (.assign (target.rename r chain))
  | callee {chain} (line : Nat) (arguments : List Expr) :
      Twin r chains chain chain (.callee line arguments)
        (.callee line (arguments.map (Expr.rename r chain)))
  | argument {chain callee callee' earlier earlier'}
      (hcallee : callee.Twin r chains callee') (line : Nat)
      (hearlier : List.Forall₂ (Value.Twin r chains) earlier earlier')
      (later : List Expr) :
      Twin r chains chain chain (.argument callee line earlier later)
        (.argument callee' line earlier' (later.map (Expr.rename r chain)))
  | get {chain} (name : Ident) : Twin r chains chain chain (.get name) (.get name)
  | setObject {chain} (name : Ident) (value : Expr) :
      Twin r chains chain chain (.setObject name value)
        (.setObject name (value.rename r chain))
  | setValue {chain} (object : ObjectId) (name : String) :
      Twin r chains chain chain (.setValue object name) (.setValue object name)
  | construct {chain} (id : ObjectId) {c c'} (h : c.Twin r chains c') :
      Twin r chains chain chain (.construct ⟨id, c⟩) (.construct ⟨id, c'⟩)
  | invocation {chain} : Twin r chains chain chain .invocation .invocation
  | discard {chain} : Twin r chains chain chain .discard .discard
  | print {chain} : Twin r chains chain chain .print .print
  | define {chain} (name : String) :
      Twin r chains chain chain (.define name)
        (.define (r.name (chain.headD false) name))
  | branch {chain thenBranch thenBranch' elseBranch elseBranch'}
      (hthen : thenBranch.Renames r chain thenBranch')
      (helse : Option.Rel (fun s s' => s.Renames r chain s') elseBranch
        elseBranch') :
      Twin r chains chain chain (.branch thenBranch elseBranch)
        (.branch thenBranch' elseBranch')
  | loopTest {chain inner inner'} (condition : Expr)
      (h : inner.Renames r chain inner') :
      Twin r chains chain chain (.loopTest condition inner)
        (.loopTest (condition.rename r chain) inner')
  | giveBack {chain} : Twin r chains chain chain .giveBack .giveBack
  | superclass {chain declaration declaration'}
      (h : declaration.Renames r chain declaration')
      (hparent : declaration.superclass.isSome) (line : Nat) :
      Twin r chains chain chain (.superclass declaration line)
        (.superclass declaration' line)
  | loopBody {chain inner inner'} (condition : Expr)
      (h : inner.Renames r chain inner') :
      Twin r chains chain chain (.loopBody condition inner)
        (.loopBody (condition.rename r chain) inner')
  | block {chain outer later later' saved}
      (hlater : Stmt.AllRename r later chain later')
      (hsaved : chains[saved]? = some outer) :
      Twin r chains chain outer (.block later saved) (.block later' saved)
  | body {chain f f'} (h : f.Twin r chains [] f') (line : Nat) :
      Twin r chains chain chain (.body f line) (.body f' line)
  | program {chain later later'} (h : Stmt.AllRename r later chain later') :
      Twin r chains chain chain (.program later) (.program later')

/-- The same waits on the two stacks. -/
inductive StackTwin (r : Renaming) (chains : List (List Bool)) :
    List Bool → List Pending → List Pending → Prop where
  | nil {chain} : StackTwin r chains chain [] []
  | cons {chain outer pending pending' stack stack'}
      (first : Pending.Twin r chains chain outer pending pending')
      (rest : StackTwin r chains outer stack stack') :
      StackTwin r chains chain (pending :: stack) (pending' :: stack')

/-- Two machines apart from their controls, in a frame whose scopes are
`chain`. -/
structure Beside (r : Renaming) (chains : List (List Bool)) (chain : List Bool)
    (stack stack' : List Pending) (st st' : State) : Prop where
  store : st.store.Twin r chains st'.store
  sink : st'.sink = st.sink
  frame : st'.frame = st.frame
  depth : st'.depth = st.depth
  globals : chains[0]? = some []
  current : chains[st.frame]? = some chain
  waits : StackTwin r chains chain stack stack'

/-- The second machine is the first one with new names, or both are stuck
with the same output. -/
inductive Twin (r : Renaming) : Machine → Machine → Prop where
  | running {chains chain control control' stack stack' st st'}
      (beside : Beside r chains chain stack stack' st st')
      (next : Control.Twin r chains chain control control') :
      Twin r ⟨control, stack, st⟩ ⟨control', stack', st'⟩
  | stuck {stack stack' st st'} (sink : st'.sink = st.sink) :
      Twin r ⟨.stuck, stack, st⟩ ⟨.stuck, stack', st'⟩

section

variable {r : Renaming} {set : Setting} {chains chains' : List (List Bool)}
  {chain outer : List Bool} {stack stack' : List Pending} {st st' : State}

theorem Pending.Twin.mono {pending pending' : Pending}
    (h : Pending.Twin r chains chain outer pending pending')
    (hle : chains <+: chains') :
    Pending.Twin r chains' chain outer pending pending' := by
  cases h with
  | unary op line => exact .unary op line
  | binaryLeft op line right => exact .binaryLeft op line right
  | binaryRight h op line => exact .binaryRight (h.mono hle) op line
  | logical op right => exact .logical op right
  | assign target => exact .assign target
  | callee line arguments => exact .callee line arguments
  | argument hcallee line hearlier later =>
    exact .argument (hcallee.mono hle) line
      (hearlier.imp fun _ _ hv => hv.mono hle) later
  | get name => exact .get name
  | setObject name value => exact .setObject name value
  | setValue object name => exact .setValue object name
  | construct id h => exact .construct id (h.mono hle)
  | invocation => exact .invocation
  | discard => exact .discard
  | print => exact .print
  | define name => exact .define name
  | branch hthen helse => exact .branch hthen helse
  | loopTest condition h => exact .loopTest condition h
  | giveBack => exact .giveBack
  | superclass h hparent line => exact .superclass h hparent line
  | loopBody condition h => exact .loopBody condition h
  | block hlater hsaved => exact .block hlater (getElem?_of_isPrefix hle hsaved)
  | body h line => exact .body (h.mono hle) line
  | program h => exact .program h

theorem StackTwin.mono (h : StackTwin r chains chain stack stack')
    (hle : chains <+: chains') : StackTwin r chains' chain stack stack' := by
  induction h with
  | nil => exact .nil
  | cons first rest ih => exact .cons (first.mono hle) ih

namespace Beside

theorem value (h : Beside r chains chain stack stack' st st') {v v' : Value}
    (hv : v.Twin r chains v') :
    Twin r ⟨.value v, stack, st⟩ ⟨.value v', stack', st'⟩ :=
  .running h (.value hv)

theorem completed (h : Beside r chains chain stack stack' st st')
    {c c' : Completion} (hc : c.Twin r chains c') :
    Twin r ⟨.completed c, stack, st⟩ ⟨.completed c', stack', st'⟩ :=
  .running h (.completed hc)

theorem failed (h : Beside r chains chain stack stack' st st')
    {f f' : Failure} (hf : f.Twin r f') :
    Twin r ⟨.failed f, stack, st⟩ ⟨.failed f', stack', st'⟩ :=
  .running h (.failed hf)

theorem eval (h : Beside r chains chain stack stack' st st') (e : Expr) :
    Twin r ⟨.eval e, stack, st⟩ ⟨.eval (e.rename r chain), stack', st'⟩ :=
  .running h (.eval e)

theorem exec (h : Beside r chains chain stack stack' st st') {s s' : Stmt}
    (hs : s.Renames r chain s') :
    Twin r ⟨.exec s, stack, st⟩ ⟨.exec s', stack', st'⟩ :=
  .running h (.exec hs)

theorem deliver (h : Beside r chains chain stack stack' st st')
    {result result' : Except Failure Value}
    (hresult : ResultTwin (Failure.Twin r) r chains result result') :
    Twin r (deliver result stack st) (deliver result' stack' st') := by
  cases hresult with
  | ok hv => exact h.value hv
  | error hf => exact h.failed hf

theorem push (h : Beside r chains chain stack stack' st st')
    {pending pending' : Pending}
    (hpending : Pending.Twin r chains chain chain pending pending') :
    Beside r chains chain (pending :: stack) (pending' :: stack') st st' :=
  { h with waits := .cons hpending h.waits }

/-- What waits is taken off the stack. -/
theorem rest {popped popped' : List Pending}
    (h : Beside r chains chain popped popped' st st')
    (hrest : StackTwin r chains chain stack stack') :
    Beside r chains chain stack stack' st st' :=
  { h with waits := hrest }

/-- A block goes back to its frame. -/
theorem back {popped popped' : List Pending}
    (h : Beside r chains chain popped popped' st st') {saved : FrameId}
    (hsaved : chains[saved]? = some outer)
    (hrest : StackTwin r chains outer stack stack') :
    Beside r chains outer stack stack' { st with frame := saved }
      { st' with frame := saved } :=
  { h with frame := rfl, current := hsaved, waits := hrest }

/-- The store has changed, and there may be more frames. -/
theorem withStore (h : Beside r chains chain stack stack' st st')
    (hle : chains <+: chains') {s s' : Store} (hs : s.Twin r chains' s') :
    Beside r chains' chain stack stack' { st with store := s }
      { st' with store := s' } where
  store := hs
  sink := h.sink
  frame := h.frame
  depth := h.depth
  globals := getElem?_of_isPrefix hle h.globals
  current := getElem?_of_isPrefix hle h.current
  waits := h.waits.mono hle

theorem withDepth (h : Beside r chains chain stack stack' st st')
    (depth : Nat) :
    Beside r chains chain stack stack' { st with depth := depth }
      { st' with depth := depth } :=
  { h with depth := rfl }

/-- A new frame becomes the current one, and a block goes back from it. -/
theorem enterFrame (h : Beside r chains chain stack stack' st st')
    {frame : FrameId} (hframe : chains[frame]? = some outer) (changed : Bool)
    {bindings bindings' : Table Value}
    (hbindings : bindings.Twin (r.name changed) (Value.Twin r chains) bindings')
    {body body' : List Stmt}
    (hbody : Stmt.AllRename r body (changed :: outer) body') :
    Twin r
      ⟨.completed .normal, .block body st.frame :: stack,
        { st with
          store := st.store.addFrame (some frame) bindings
          frame := st.store.nextFrame }⟩
      ⟨.completed .normal, .block body' st'.frame :: stack',
        { st' with
          store := st'.store.addFrame (some frame) bindings'
          frame := st'.store.nextFrame }⟩ := by
  have hle : chains <+: chains ++ [changed :: outer] := List.prefix_append _ _
  have hnew := h.withStore hle (h.store.addFrame hframe changed hbindings)
  rw [h.frame, h.store.nextFrame]
  exact .running { hnew with
    frame := rfl
    current := h.store.chain_nextFrame _
    waits := .cons (.block hbody hnew.current) hnew.waits } (.completed .normal)

end Beside

/-! ## Calls -/

theorem twin_enterBody (h : Beside r chains chain stack stack' st st')
    {f f' : Closure} (hf : f.Twin r chains [] f') {arguments arguments' : List Value}
    (harguments : List.Forall₂ (Value.Twin r chains) arguments arguments')
    (line : Nat) :
    Twin r (enterBody f arguments line stack st)
      (enterBody f' arguments' line stack' st') := by
  obtain ⟨outer, houter, hdeclaration⟩ := hf.declaration
  obtain ⟨changed, hbody, -, hparams, -⟩ :=
    FunctionDecl.renames_iff.1 hdeclaration
  have hnames : f'.declaration.params.map Ident.name =
      (f.declaration.params.map Ident.name).map (r.name changed) := by
    rw [hparams, List.map_map, List.map_map]
    rfl
  have hbindings := Table.twin_empty.insertAll (r.name_injective changed)
    (f.declaration.params.map Ident.name) harguments
  have hentered := (h.push (.body hf line)).enterFrame houter changed hbindings
    hbody
  rwa [enterBody, enterBody, hnames, hf.frame]

theorem twin_construct (h : Beside r chains chain stack stack' st st')
    {c c' : Class} (hc : c.Twin r chains c') {arguments arguments' : List Value}
    (harguments : List.Forall₂ (Value.Twin r chains) arguments arguments')
    (line : Nat) :
    Twin r (construct c arguments line stack st)
      (construct c' arguments' line stack' st') := by
  have hobject : st'.store.nextObject = st.store.nextObject := h.store.objects
  have hinst := Value.Twin.inst st.store.nextObject hc
  have hadded := h.withStore (List.prefix_refl _) h.store.addObject
  have hmethod := hc.findMethod? initializerName
  simp only [construct, hobject]
  generalize c.findMethod? initializerName = f,
    c'.findMethod? initializerName = f' at hmethod ⊢
  cases hmethod with
  | none => exact hadded.value hinst
  | some hf =>
    obtain ⟨chains', hle, hstore, hbound⟩ := hadded.store.bindMethod hf hinst
    have hthere := (hadded.withStore hle hstore).push
      (.construct st.store.nextObject (hc.mono hle))
    exact twin_enterBody hthere hbound
      (harguments.imp fun _ _ hv => hv.mono hle) line

theorem twin_enter (hset : set.Respects r)
    (h : Beside r chains chain stack stack' st st') {callee callee' : Callable}
    (hcallee : callee.Twin r chains callee') {arguments arguments' : List Value}
    (harguments : List.Forall₂ (Value.Twin r chains) arguments arguments')
    (line : Nat) :
    Twin r (enter set callee arguments line stack st)
      (enter set callee' arguments' line stack' st') := by
  cases hcallee with
  | closure hf => exact twin_enterBody h hf harguments line
  | cls hc => exact twin_construct h hc harguments line
  | native function =>
    simp only [enter]
    cases hbehaviour : set.natives[function.id]? with
    | none => exact .stuck h.sink
    | some behaviour =>
      have hresult := hset.natives _ _ hbehaviour chains set.now _ _ harguments
      simp only
      generalize behaviour set.now arguments = result,
        behaviour set.now arguments' = result' at hresult ⊢
      cases hresult with
      | ok hv => exact h.value hv
      | error heq =>
        subst heq
        exact h.failed (.same _)

theorem twin_invoke (hset : set.Respects r)
    (h : Beside r chains chain stack stack' st st') {callee callee' : Callable}
    (hcallee : callee.Twin r chains callee') {arguments arguments' : List Value}
    (harguments : List.Forall₂ (Value.Twin r chains) arguments arguments')
    (line : Nat) :
    Twin r (invoke set callee arguments line stack st)
      (invoke set callee' arguments' line stack' st') := by
  simp only [invoke, hcallee.arity, ← harguments.length_eq, h.depth]
  split
  · exact h.failed (.same _)
  · split
    · exact h.failed (.same _)
    · exact twin_enter hset ((h.push .invocation).withDepth _) hcallee
        harguments line

theorem twin_settle (hset : set.Respects r)
    (h : Beside r chains chain stack stack' st st') {v v' : Value}
    (hv : v.Twin r chains v') (line : Nat) :
    Twin r (settle set v line stack st) (settle set v' line stack' st') := by
  cases hv with
  | function hf =>
    simp only [settle, hf.same.2.2]
    split
    · exact twin_invoke hset h (.closure hf) .nil line
    · exact h.value (.function hf)
  | nil => exact h.value .nil
  | bool value => exact h.value (.bool value)
  | number value => exact h.value (.number value)
  | string content => exact h.value (.string content)
  | native n => exact h.value (.native n)
  | cls hc => exact h.value (.cls hc)
  | inst id hc => exact h.value (.inst id hc)

theorem twin_passArguments (hset : set.Respects r)
    (h : Beside r chains chain stack stack' st st') {callee callee' : Callable}
    (hcallee : callee.Twin r chains callee') (line : Nat)
    {earlier earlier' : List Value}
    (hearlier : List.Forall₂ (Value.Twin r chains) earlier earlier')
    (later : List Expr) :
    Twin r (passArguments set callee line earlier later stack st)
      (passArguments set callee' line earlier'
        (later.map (Expr.rename r chain)) stack' st') := by
  cases later with
  | nil =>
    exact twin_invoke hset h hcallee (List.rel_reverse hearlier) line
  | cons e later =>
    exact (h.push (.argument hcallee line hearlier later)).eval e

/-! ## Properties -/

/-- A member is bound and handed on. -/
theorem twin_bound (hset : set.Respects r)
    (h : Beside r chains chain stack stack' st st') {f f' : Closure}
    (hf : f.Twin r chains [false] f') {object object' : Value}
    (hobject : object.Twin r chains object') (line : Nat) :
    Twin r
      (settle set (.function (st.store.bindMethod f object).2) line stack
        { st with store := (st.store.bindMethod f object).1 })
      (settle set (.function (st'.store.bindMethod f' object').2) line stack'
        { st' with store := (st'.store.bindMethod f' object').1 }) := by
  obtain ⟨chains', hle, hstore, hbound⟩ := h.store.bindMethod hf hobject
  exact twin_settle hset (h.withStore hle hstore) (.function hbound) line

theorem twin_readProperty (hset : set.Respects r)
    (h : Beside r chains chain stack stack' st st') {object object' : Value}
    (hobject : object.Twin r chains object') (id : ObjectId)
    {method? method?' : String → Option Closure}
    (hmethod : ∀ name, Option.Rel (Closure.Twin r chains [false]) (method? name)
      (method?' name)) (owner : String) (name : Ident) :
    Twin r (readProperty set object id method? owner name stack st)
      (readProperty set object' id method?' owner name stack' st') := by
  have hfield := h.store.fields id name.name
  have hfound := hmethod name.name
  simp only [readProperty]
  generalize st.store.field? id name.name = v,
    st'.store.field? id name.name = v' at hfield ⊢
  cases hfield with
  | some hv => exact twin_settle hset h hv name.line
  | none =>
    simp only
    generalize method? name.name = f, method?' name.name = f' at hfound ⊢
    cases hfound with
    | none => exact h.failed (.same _)
    | some hf => exact twin_bound hset h hf hobject name.line

theorem twin_getProperty (hset : set.Respects r)
    (h : Beside r chains chain stack stack' st st') {object object' : Value}
    (hobject : object.Twin r chains object') (name : Ident) :
    Twin r (getProperty set object name stack st)
      (getProperty set object' name stack' st') := by
  have hdisplay := hobject.display
  cases hobject with
  | inst id hc =>
    simp only [getProperty, hdisplay]
    exact twin_readProperty hset h (.inst id hc) _ hc.findMethod? _ name
  | cls hc =>
    simp only [getProperty, hdisplay, hc.same.1]
    exact twin_readProperty hset h (.cls hc) _ hc.findStatic? _ name
  | _ => exact h.failed (.same _)

/-- A reserved name keeps its name at every distance. -/
theorem readAt_reserved (h : Beside r chains chain stack stack' st st')
    (name : String) (hname : ¬ Unreserved name) (distance line : Nat) :
    ResultTwin (Failure.Twin r) r chains
      (st.store.readAt st.frame distance name line)
      (st'.store.readAt st'.frame distance name line) := by
  have hread := h.store.readAt h.current distance name line
  rw [r.name_of_reserved hname] at hread
  rwa [h.frame]

theorem twin_bindSuper (hset : set.Respects r)
    (h : Beside r chains chain stack stack' st st') {c c' : Class}
    (hc : c.Twin r chains c') (distance line : Nat) (method : Ident) :
    Twin r (bindSuper set c distance line method stack st)
      (bindSuper set c' distance line method stack' st') := by
  cases distance with
  | zero => exact h.failed (.same _)
  | succ inner =>
    have hthis := readAt_reserved h Keyword.kwThis.lexeme
      not_unreserved_this inner line
    have hmethod := hc.findMethod? method.name
    simp only [bindSuper, hc.same.2]
    generalize st.store.readAt st.frame inner _ line = object,
      st'.store.readAt st'.frame inner _ line = object' at hthis ⊢
    cases hthis with
    | error hf => exact h.failed hf
    | ok hobject =>
      simp only
      generalize c.findMethod? method.name = f,
        c'.findMethod? method.name = f' at hmethod ⊢
      cases hmethod with
      | none => exact h.failed (.same _)
      | some hf => exact twin_bound hset h hf hobject method.line

theorem twin_getSuper (hset : set.Respects r)
    (h : Beside r chains chain stack stack' st st') (id line : Nat)
    (method : Ident) :
    Twin r (getSuper set id line method stack st)
      (getSuper set id line method stack' st') := by
  simp only [getSuper]
  cases set.distances.find? id with
  | none => exact h.failed (.same _)
  | some distance =>
    have hsuper := readAt_reserved h Keyword.kwSuper.lexeme
      not_unreserved_super distance line
    simp only
    generalize st.store.readAt st.frame distance _ line = v,
      st'.store.readAt st'.frame distance _ line = v' at hsuper ⊢
    cases hsuper with
    | error hf => exact h.failed hf
    | ok hv =>
      cases hv with
      | cls hc => exact twin_bindSuper hset h hc distance line method
      | _ => exact h.failed (.same _)

/-! ## Classes -/

/-- Making members changes no variable. -/
theorem valueIn?_makeMembers (frame other : FrameId) (list : List FunctionDecl)
    (members : Members) (store : Store) (name : String) :
    (makeMembers frame list members store).2.valueIn? other name =
      store.valueIn? other name := by
  induction list generalizing members store with
  | nil => rfl
  | cons f rest ih => exact ih _ _

/-- The members of a class, made one after the other. -/
theorem twin_makeMembers {frame : FrameId} {store store' : Store}
    (hstore : store.Twin r chains store') (hframe : chains[frame]? = some chain)
    {list list' : List FunctionDecl}
    (hlist : FunctionDecl.AllRename r list (false :: chain) list')
    {declaration declaration' : ClassDecl} {members members' : Members}
    (hmembers : (infoOf declaration (members, store)).Twin r chains
      (infoOf declaration' (members', store'))) :
    let made := makeMembers frame list members store
    let made' := makeMembers frame list' members' store'
    made.2.Twin r chains made'.2 ∧
      (infoOf declaration made).Twin r chains (infoOf declaration' made') := by
  induction list generalizing list' members members' store store' with
  | nil =>
    rw [FunctionDecl.AllRename] at hlist
    subst hlist
    exact ⟨hstore, hmembers⟩
  | cons f rest ih =>
    rw [FunctionDecl.AllRename] at hlist
    obtain ⟨f', rest', hf, hrest, rfl⟩ := hlist
    obtain ⟨hname, hkind, -⟩ := hf.same
    have hclosure : Closure.Twin r chains [false] _ _ :=
      hstore.closure hframe hf
    have hinsert {t t' : Table Closure}
        (ht : t.Twin (r.name false) (Closure.Twin r chains [false]) t') :=
      ht.insert (r.name_injective false) f.name.name hclosure
    apply ih (hstore.makeClosure f f' frame) hrest
    rw [hkind, hname]
    split
    · exact { hmembers with statics := hinsert hmembers.statics }
    · exact { hmembers with methods := hinsert hmembers.methods }

/-- A class is given to its name, which the current frame holds and keeps. -/
theorem twin_nameClass {store store' : Store}
    (h : Beside r chains chain stack stack' { st with store := store }
      { st' with store := store' }) {name : Ident}
    (hkeeps : r.Keeps chain name)
    (hheld : (store.valueIn? st.frame name.name).isSome) {c c' : Class}
    (hc : c.Twin r chains c') :
    Twin r (nameClass name c store stack st)
      (nameClass name c' store' stack' st') := by
  have hframe : st'.frame = st.frame := h.frame
  have hvalue := h.store.values st.frame chain h.current name.name
  rw [hkeeps] at hvalue
  have hheld' : (store'.valueIn? st.frame name.name).isSome :=
    hvalue.isSome_eq.trans hheld
  have howner : store.owner? st.frame name.name = some st.frame := by
    rw [Store.owner?_eq, if_pos hheld]
  have howner' : store'.owner? st'.frame name.name = some st.frame := by
    rw [hframe, Store.owner?_eq, if_pos hheld']
  have hdefined := h.store.addObject.define h.current name.name (.cls hc)
  rw [hkeeps] at hdefined
  rw [nameClass, howner, nameClass, howner']
  exact (h.withStore (List.prefix_refl _) hdefined).completed .normal

theorem twin_makeClass_base (h : Beside r chains chain stack stack' st st')
    {declaration declaration' : ClassDecl}
    (hclass : declaration.Renames r chain declaration')
    (hparent : declaration.superclass = none)
    (hheld : (st.store.valueIn? st.frame declaration.name.name).isSome) :
    Twin r (makeClass declaration none stack st)
      (makeClass declaration' none stack' st') := by
  obtain ⟨name, superclass, methods⟩ := declaration
  cases hparent
  rw [ClassDecl.Renames] at hclass
  obtain ⟨hkeeps, methods', hmethods, rfl⟩ := hclass
  have hnone : (infoOf ⟨name, none, methods⟩ (⟨.empty, .empty⟩, st.store)).Twin r
      chains (infoOf ⟨name, none, methods'⟩ (⟨.empty, .empty⟩, st'.store)) :=
    ⟨h.store.objects, rfl, Table.twin_empty, Table.twin_empty⟩
  obtain ⟨hstore, hinfo⟩ := twin_makeMembers h.store h.current hmethods hnone
  rw [makeClass_base, makeClass_base, h.frame]
  refine twin_nameClass (h.withStore (List.prefix_refl _) hstore) hkeeps ?_
    (.base hinfo)
  rw [valueIn?_makeMembers]
  exact hheld

/-- Between the class and its members lies the frame of `super`. -/
theorem twin_makeClass_derived (h : Beside r chains chain stack stack' st st')
    {declaration declaration' : ClassDecl}
    (hclass : declaration.Renames r chain declaration')
    (hsuper : declaration.superclass.isSome)
    (hheld : (st.store.valueIn? st.frame declaration.name.name).isSome)
    {parent parent' : Class} (hparent : parent.Twin r chains parent') :
    Twin r (makeClass declaration (some parent) stack st)
      (makeClass declaration' (some parent') stack' st') := by
  obtain ⟨name, superclass, methods⟩ := declaration
  obtain ⟨ref, rfl⟩ := Option.isSome_iff_exists.1 hsuper
  rw [ClassDecl.Renames] at hclass
  obtain ⟨hkeeps, methods', hmethods, rfl⟩ := hclass
  have hle : chains <+: chains ++ [false :: chain] := List.prefix_append _ _
  have hbindings := Table.twin_empty.insert (r.name_injective false)
    Keyword.kwSuper.lexeme (Value.Twin.cls hparent)
  have hadded : (superStore parent st).Twin r (chains ++ [false :: chain])
      (superStore parent' st') := by
    rw [superStore, superStore, h.frame]
    exact h.store.addFrame h.current false hbindings
  have hnone : (infoOf ⟨name, some ref, methods⟩
      (⟨.empty, .empty⟩, superStore parent st)).Twin r (chains ++ [false :: chain])
      (infoOf ⟨name, some (ref.rename r chain), methods'⟩
        (⟨.empty, .empty⟩, superStore parent' st')) :=
    ⟨hadded.objects, rfl, Table.twin_empty, Table.twin_empty⟩
  obtain ⟨hstore, hinfo⟩ := twin_makeMembers hadded
    (h.store.chain_nextFrame (false :: chain)) hmethods hnone
  rw [makeClass_derived, makeClass_derived, h.store.nextFrame]
  refine twin_nameClass (h.withStore hle hstore) hkeeps ?_
    (.derived hinfo (hparent.mono hle))
  have hne : st.frame ≠ st.store.nextFrame :=
    Nat.ne_of_lt (h.store.lt_of_chain h.current)
  rw [valueIn?_makeMembers, superStore, Store.valueIn?_addFrame, if_neg hne]
  exact hheld

/-! ## Expressions and statements -/

theorem twin_lookUp (hset : set.Respects r)
    (h : Beside r chains chain stack stack' st st') (id : Nat) (name : String)
    (line : Nat) :
    ResultTwin (Failure.Twin r) r chains (lookUp set st id name line)
      (lookUp set st' id (r.nameAt chain (r.table.find? id) name) line) := by
  simp only [lookUp, hset.distances, h.frame]
  cases r.table.find? id with
  | some distance => exact h.store.readAt h.current distance name line
  | none =>
    rw [hset.globals]
    exact h.store.read h.globals name line

theorem twin_evaluate (hset : set.Respects r)
    (h : Beside r chains chain stack stack' st st') (e : Expr) :
    Twin r (evaluate set e stack st)
      (evaluate set (e.rename r chain) stack' st') := by
  cases e with
  | literal value =>
    rw [Expr.rename]
    exact h.value (Value.twin_ofLiteral value)
  | group inner =>
    rw [Expr.rename]
    exact h.eval inner
  | unary op line right =>
    rw [Expr.rename]
    exact (h.push (.unary op line)).eval right
  | binary left op line right =>
    rw [Expr.rename]
    exact (h.push (.binaryLeft op line right)).eval left
  | logical left op line right =>
    rw [Expr.rename]
    exact (h.push (.logical op right)).eval left
  | «variable» ref =>
    rw [Expr.rename]
    exact h.deliver (twin_lookUp hset h ref.id ref.name ref.line)
  | assign target value =>
    rw [Expr.rename]
    exact (h.push (.assign target)).eval value
  | call callee line arguments =>
    rw [Expr.rename, Expr.renameAll_eq_map]
    exact (h.push (.callee line arguments)).eval callee
  | get object name =>
    rw [Expr.rename]
    exact (h.push (.get name)).eval object
  | set object name value =>
    rw [Expr.rename]
    exact (h.push (.setObject name value)).eval object
  | this id line =>
    have hthis := twin_lookUp hset h id Keyword.kwThis.lexeme line
    rw [r.nameAt_of_reserved not_unreserved_this] at hthis
    rw [Expr.rename]
    exact h.deliver hthis
  | super id line method =>
    rw [Expr.rename]
    exact twin_getSuper hset h id line method

/-- A name is given a value in the current frame. -/
theorem Beside.defineHere (h : Beside r chains chain stack stack' st st')
    (name : String) {v v' : Value} (hv : v.Twin r chains v') :
    Beside r chains chain stack stack' (defineHere st name v)
      (defineHere st' (r.name (chain.headD false) name) v') := by
  obtain ⟨store', sink', frame', depth'⟩ := st'
  obtain rfl : frame' = st.frame := h.frame
  exact h.withStore (List.prefix_refl _) (h.store.define h.current name hv)

theorem twin_execute_class (h : Beside r chains chain stack stack' st st')
    {declaration declaration' : ClassDecl}
    (hclass : declaration.Renames r chain declaration') :
    Twin r (execute (.class declaration) stack st)
      (execute (.class declaration') stack' st') := by
  have hdefined := h.defineHere declaration.name.name .nil
  have hheld : ((defineHere st declaration.name.name .nil).store.valueIn? st.frame
      declaration.name.name).isSome := by
    rw [defineHere, Store.valueIn?_define,
      if_pos ⟨rfl, rfl, h.store.lt_of_chain h.current⟩]
    rfl
  have hwhole := hclass
  obtain ⟨name, superclass, methods⟩ := declaration
  cases superclass with
  | none =>
    rw [ClassDecl.Renames] at hclass
    obtain ⟨hkeeps, methods', hmethods, rfl⟩ := hclass
    rw [hkeeps] at hdefined
    exact twin_makeClass_base hdefined hwhole rfl hheld
  | some parent =>
    rw [ClassDecl.Renames] at hclass
    obtain ⟨hkeeps, methods', hmethods, rfl⟩ := hclass
    rw [hkeeps] at hdefined
    have hwaits := hdefined.push (.superclass hwhole rfl parent.line)
    have heval := hwaits.eval (.variable parent)
    rw [Expr.rename] at heval
    exact heval

theorem twin_execute (h : Beside r chains chain stack stack' st st')
    {s s' : Stmt} (hs : s.Renames r chain s') :
    Twin r (execute s stack st) (execute s' stack' st') := by
  cases s with
  | expression e =>
    rw [Stmt.Renames] at hs
    subst hs
    exact (h.push .discard).eval e
  | print e =>
    rw [Stmt.Renames] at hs
    subst hs
    exact (h.push .print).eval e
  | var name initializer =>
    rw [Stmt.Renames] at hs
    subst hs
    cases initializer with
    | none => exact (h.defineHere name.name .nil).completed .normal
    | some e => exact (h.push (.define name.name)).eval e
  | block body =>
    rw [Stmt.Renames] at hs
    obtain ⟨changed, body', hbody, rfl⟩ := hs
    have hentered := h.enterFrame h.current changed Table.twin_empty hbody
    simp only [execute, h.frame] at hentered ⊢
    exact hentered
  | ifElse condition thenBranch elseBranch =>
    cases elseBranch with
    | none =>
      rw [Stmt.Renames] at hs
      obtain ⟨thenBranch', hthen, rfl⟩ := hs
      exact (h.push (.branch hthen .none)).eval condition
    | some elseBranch =>
      rw [Stmt.Renames] at hs
      obtain ⟨thenBranch', elseBranch', hthen, helse, rfl⟩ := hs
      exact (h.push (.branch hthen (.some helse))).eval condition
  | «while» condition body =>
    rw [Stmt.Renames] at hs
    obtain ⟨body', hbody, rfl⟩ := hs
    exact (h.push (.loopTest condition hbody)).eval condition
  | function f =>
    rw [Stmt.Renames] at hs
    obtain ⟨hkeeps, f', hf, rfl⟩ := hs
    obtain ⟨store', sink', frame', depth'⟩ := st'
    obtain rfl : frame' = st.frame := h.frame
    have hclosure : Closure.Twin r chains [] _ _ :=
      h.store.closure h.current hf
    have hdefined := (h.store.makeClosure f f' st.frame).define h.current
      f.name.name (.function hclosure)
    rw [hkeeps] at hdefined
    simp only [execute, hf.same.1]
    exact (h.withStore (List.prefix_refl _) hdefined).completed .normal
  | «return» line value =>
    rw [Stmt.Renames] at hs
    subst hs
    cases value with
    | none => exact h.completed (.returned .nil)
    | some e => exact (h.push .giveBack).eval e
  | «class» declaration =>
    rw [Stmt.Renames] at hs
    obtain ⟨declaration', hclass, rfl⟩ := hs
    exact twin_execute_class h hclass

/-! ## Results -/

theorem twin_assign (hset : set.Respects r)
    (h : Beside r chains chain stack stack' st st') (target : Ref)
    {v v' : Value} (hv : v.Twin r chains v') :
    Twin r (assign set target v stack st)
      (assign set (target.rename r chain) v' stack' st') := by
  obtain ⟨store', sink', frame', depth'⟩ := st'
  obtain rfl : frame' = st.frame := h.frame
  simp only [assign, owner?, Ref.rename, hset.distances]
  cases r.table.find? target.id with
  | some distance =>
    simp only [Renaming.nameAt, h.store.ownerAt? h.current]
    cases howner : st.store.ownerAt? st.frame distance target.name with
    | none => exact h.failed (.undefined _ _ _)
    | some owner =>
      have hdefined := h.store.defineAt h.current howner hv
      exact (h.withStore (List.prefix_refl _) hdefined).value hv
  | none =>
    simp only [Renaming.nameAt, hset.globals, h.store.owner? h.globals]
    cases howner : st.store.owner? 0 target.name with
    | none => exact h.failed (.same _)
    | some owner =>
      have hdefined := h.store.defineRoot h.globals howner hv
      exact (h.withStore (List.prefix_refl _) hdefined).value hv

theorem twin_printValue (h : Beside r chains chain stack stack' st st')
    {v v' : Value} (hv : v.Twin r chains v') :
    Twin r (printValue v stack st) (printValue v' stack' st') := by
  have hprinted (sink : Sink) : Beside r chains chain stack stack'
      { st with sink := sink } { st' with sink := sink } :=
    { h with sink := rfl }
  simp only [printValue, hv.display, h.sink]
  cases (st.sink.writeLine v.display).2 with
  | none => exact (hprinted _).completed .normal
  | some reason => exact (hprinted _).failed (.same _)

/-- A value is handed to a construct.  A class that has waited for its
superclass is held by the current frame. -/
theorem twin_resume (hset : set.Respects r) {pending pending' : Pending}
    (h : Beside r chains chain (pending :: stack) (pending' :: stack') st st')
    (hheld : ∀ declaration line, pending = .superclass declaration line →
      (st.store.valueIn? st.frame declaration.name.name).isSome)
    {v v' : Value} (hv : v.Twin r chains v') :
    Twin r (resume set v pending stack st)
      (resume set v' pending' stack' st') := by
  have hwaits := h.waits
  cases hwaits with
  | cons first rest =>
    cases first with
    | loopBody | block | body | program => exact .stuck h.sink
    | unary op line => exact (h.rest rest).deliver (op.apply_twin line hv)
    | binaryLeft op line right =>
      exact ((h.rest rest).push (.binaryRight hv op line)).eval right
    | binaryRight hleft op line =>
      exact (h.rest rest).deliver (op.apply_twin line hleft hv)
    | logical op right =>
      have hdecides : decides op v' = decides op v := by
        cases op <;> simp only [decides, hv.truthy]
      simp only [resume, hdecides]
      split
      · exact (h.rest rest).value hv
      · exact (h.rest rest).eval right
    | assign target => exact twin_assign hset (h.rest rest) target hv
    | callee line arguments =>
      have hcallee := hv.callable?
      simp only [resume]
      generalize v.callable? = callee, v'.callable? = callee' at hcallee ⊢
      cases hcallee with
      | none => exact (h.rest rest).failed (.same _)
      | some hcallee =>
        exact twin_passArguments hset (h.rest rest) hcallee line .nil
          arguments
    | argument hcallee line hearlier later =>
      exact twin_passArguments hset (h.rest rest) hcallee line
        (.cons hv hearlier) later
    | get name => exact twin_getProperty hset (h.rest rest) hv name
    | setObject name value =>
      simp only [resume, hv.objectId?]
      cases objectId? v with
      | none => exact (h.rest rest).failed (.same _)
      | some object =>
        exact ((h.rest rest).push (.setValue object name.name)).eval value
    | setValue object name =>
      have hchanged := h.store.setField object name hv
      exact ((h.rest rest).withStore (List.prefix_refl _) hchanged).value hv
    | construct id hc => exact (h.rest rest).value (.inst id hc)
    | invocation =>
      have hdone := (h.rest rest).withDepth (st.depth - 1)
      simp only [resume, h.depth]
      exact hdone.value hv
    | discard => exact (h.rest rest).completed .normal
    | print => exact twin_printValue (h.rest rest) hv
    | define name =>
      exact ((h.rest rest).defineHere name hv).completed .normal
    | branch hthen helse =>
      simp only [resume, hv.truthy]
      split
      · exact (h.rest rest).exec hthen
      · cases helse with
        | none => exact (h.rest rest).completed .normal
        | some helse => exact (h.rest rest).exec helse
    | loopTest condition hbody =>
      simp only [resume, hv.truthy]
      split
      · exact ((h.rest rest).push (.loopBody condition hbody)).exec hbody
      · exact (h.rest rest).completed .normal
    | giveBack => exact (h.rest rest).completed (.returned hv)
    | superclass hclass hsuper line =>
      cases hv with
      | cls hc =>
        exact twin_makeClass_derived (h.rest rest) hclass hsuper
          (hheld _ _ rfl) hc
      | _ => exact (h.rest rest).failed (.same _)

theorem twin_resultOf (h : Beside r chains chain stack stack' st st')
    {f f' : Closure} (hf : f.Twin r chains [] f') (line : Nat)
    {c c' : Completion} (hc : c.Twin r chains c') :
    ResultTwin (Failure.Twin r) r chains (resultOf f line c st.store)
      (resultOf f' line c' st'.store) := by
  obtain ⟨outer, houter, hdeclaration⟩ := hf.declaration
  simp only [resultOf, hdeclaration.isInitializer, hf.frame]
  split
  · have hthis := h.store.readAt houter 0 Keyword.kwThis.lexeme line
    rwa [r.name_of_reserved not_unreserved_this] at hthis
  · cases hc with
    | normal => exact .ok .nil
    | returned hv => exact .ok hv

theorem twin_complete {pending pending' : Pending}
    (h : Beside r chains chain (pending :: stack) (pending' :: stack') st st')
    {c c' : Completion} (hc : c.Twin r chains c') :
    Twin r (complete c pending stack st) (complete c' pending' stack' st') := by
  have hwaits := h.waits
  cases hwaits with
  | cons first rest =>
    cases first with
    | loopBody condition hbody =>
      cases hc with
      | normal =>
        exact ((h.rest rest).push (.loopTest condition hbody)).eval condition
      | returned hv => exact (h.rest rest).completed (.returned hv)
    | @block _ later _ _ hlater hsaved =>
      have hback := (h.back hsaved rest).completed hc
      cases later with
      | nil =>
        rw [Stmt.AllRename] at hlater
        subst hlater
        cases hc <;> exact hback
      | cons s later =>
        rw [Stmt.AllRename] at hlater
        obtain ⟨s', later', hs, hlater, rfl⟩ := hlater
        cases hc with
        | returned hv => exact hback
        | normal =>
          have hstack := StackTwin.cons (.block hlater hsaved) rest
          exact (h.rest hstack).exec hs
    | body hf line =>
      exact (h.rest rest).deliver
        (twin_resultOf (h.rest rest) hf line hc)
    | @program later _ hlater =>
      have hdone := (h.rest rest).completed hc
      cases later with
      | nil =>
        rw [Stmt.AllRename] at hlater
        subst hlater
        cases hc <;> exact hdone
      | cons s later =>
        rw [Stmt.AllRename] at hlater
        obtain ⟨s', later', hs, hlater, rfl⟩ := hlater
        cases hc with
        | returned hv => exact hdone
        | normal => exact ((h.rest rest).push (.program hlater)).exec hs
    | _ => exact .stuck h.sink

/-! ## Steps and runs -/

theorem twin_unwind {pending pending' : Pending}
    (h : Beside r chains chain (pending :: stack) (pending' :: stack') st st')
    {f f' : Failure} (hf : f.Twin r f') :
    Twin r ⟨.failed f, stack, unwind pending st⟩
      ⟨.failed f', stack', unwind pending' st'⟩ := by
  have hwaits := h.waits
  cases hwaits with
  | cons first rest =>
    cases first with
    | block hlater hsaved => exact (h.back hsaved rest).failed hf
    | invocation =>
      have hdone := (h.rest rest).withDepth (st.depth - 1)
      simp only [unwind, h.depth]
      exact hdone.failed hf
    | _ => exact (h.rest rest).failed hf

/-- The name of a class that waits for its superclass is held by the current
frame. -/
theorem isSome_of_safe {L : Ledger} {v : Value} {declaration : ClassDecl}
    {line : Nat} (h : Safe L ⟨.value v, .superclass declaration line :: stack, st⟩) :
    (st.store.valueIn? st.frame declaration.name.name).isSome := by
  rcases h with hsound | ⟨⟨f, hf⟩, -⟩
  · obtain ⟨scopes, opening, -, -, hawaits⟩ := hsound.control
    exact hawaits.1.1
  · cases hf

/-- A machine with new names takes the same steps. -/
theorem twin_step {L : Ledger} (hset : set.Respects r) {m m' : Machine}
    (hsafe : Safe L m) (h : Twin r m m') :
    Twin r (step set m) (step set m') := by
  cases h with
  | stuck sink => exact .stuck sink
  | @running _ _ _ _ stack stack' st st' beside next =>
    have hwaits := beside.waits
    cases next with
    | eval e => exact twin_evaluate hset beside e
    | exec hs => exact twin_execute beside hs
    | value hv =>
      cases hwaits with
      | nil => exact beside.value hv
      | cons first rest =>
        refine twin_resume hset beside ?_ hv
        rintro declaration line rfl
        exact isSome_of_safe hsafe
    | completed hc =>
      cases hwaits with
      | nil => exact beside.completed hc
      | cons first rest => exact twin_complete beside hc
    | failed hf =>
      cases hwaits with
      | nil => exact beside.failed hf
      | cons first rest => exact twin_unwind beside hf

/-- So it does the same run, on any clock. -/
theorem twin_runAlong {L : Ledger} {setting : Float → Setting}
    (hset : ∀ now, (setting now).Respects r)
    (hsuits : ∀ now, (setting now).Suits L) {m m' : Machine}
    (hsafe : Safe L m) (h : Twin r m m') (times : List Float) :
    Twin r (runAlong setting times m) (runAlong setting times m') := by
  induction times generalizing m m' with
  | nil => exact h
  | cons now times ih =>
    exact ih (safe_step hsafe (hsuits now)) (twin_step (hset now) hsafe h)

end

end Machine

end Lox
