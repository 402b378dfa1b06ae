import Lox.Proofs.Machine.Entering
import Lox.Proofs.Session.Constancy

/-!
# Arguments of calls

On the course of an interpreter no argument is dropped and none is missing.  The
number of arguments is compared with what the callee takes before anything of
it runs; an initializer is then entered without a second look, and a getter
without arguments at all.  That both are right rests on where functions come
from: the parser makes no getter with parameters (`Course.proper`), and the
number that a class takes is that of the initializer it runs.
-/

namespace Lox

open Machine (Behaviour Bound Call From Log ReadsProperty Setting bodiesIn
  bodiesIn_le_of_suffix bodiesIn_step_le bound_enterBody enterBody
  entered_of_lt from_step nextCall? reads_or_applies runAlong step_eq_alone)

/-- The functions that the parser makes, and any native functions. -/
def Supply.parsed : Supply :=
  ⟨FunctionDecl.Proper, fun _ => True⟩

theorem Value.IsPlain.from_parsed {v : Value} (h : v.IsPlain) :
    v.From .parsed := by
  cases v <;> trivial

theorem Value.From.part {K : Supply} {v w : Value} (h : v.From K)
    (hw : w ∈ v.parts) : w.From K :=
  of_mem_parts (P := From K) (fun _ hobject => hobject)
    (fun _ _ hd hc => Class.All.ancestor hc hd) hw h

/-- A native function that makes no functions hands out none but those of the
program. -/
theorem Machine.Behaviour.Honest.keeps {behaviour : Behaviour}
    (h : behaviour.Honest) : behaviour.Keeps .parsed := by
  intro now arguments v harguments hv
  rcases h now arguments v hv with hplain | ⟨a, ha, hpart⟩
  · exact hplain.from_parsed
  · exact (harguments a ha).part hpart

/-- A getter that is read has no parameters. -/
theorem Machine.Call.Reads.bare {c : Call} {stack : List Machine.Pending}
    (h : c.Reads .parsed stack) :
    ∃ f, c.callee = .closure f ∧ f.isGetter = true ∧
      f.declaration.params = [] ∧ c.arguments = [] := by
  obtain ⟨f, hf, hgetter, hfrom⟩ := h.getter
  have hkind : f.declaration.kind = .getter := eq_of_beq hgetter
  exact ⟨f, hf, hgetter, hfrom.declared hkind, h.nothing⟩

namespace Course

variable {given : List String} {log : Log} {m : Machine}

/-- All functions on a course were made by the parser. -/
theorem proper (h : Course (Behaviour.Keeps .parsed) given log m) :
    m.From .parsed := by
  have hidle {st : Machine.State} (hstore : st.store.All (Value.From .parsed)) :
      (Machine.idle st).From .parsed :=
    ⟨⟨by rintro _ ⟨⟩, hstore⟩, trivial⟩
  induction h with
  | new maxDepth sink => exact hidle (Store.All.start.define _ _ trivial)
  | native _ n ih => exact hidle (ih.store.define _ _ trivial)
  | program _ source firstId store frame ih =>
    exact Machine.from_ofProgram
      (Stmt.proper_parse (Token.named_scan source) firstId) (store ▸ ih.store)
  | expr _ source firstId parsed store frame ih =>
    exact ⟨⟨by rintro _ ⟨⟩, store ▸ ih.store⟩, trivial⟩
  | step _ allowed ih => exact from_step ih allowed

end Course

namespace Session

variable {given : List String} {log : Log} {m : Machine}

/-- Arguments are never dropped and never missing.  Take any machine on the
course of an interpreter, and its next step.

If a body of a function is under way after the step that was not before, then
the step makes a call, and the body is that of the function that is called, or
of the nearest initializer of the class that is called.  There are as many
arguments as the function has parameters, and all parameters are bound in the
new frame.

If the step makes a call by reading a property, or a method through `super`,
then the callee is a getter; it has no parameters, and it gets no arguments.

If the step makes a call with another number of arguments than the callee has
parameters, it fails with that number, and changes nothing: neither frames nor
objects nor the depth. -/
theorem arguments_match (h : Course (Behaviour.Keeps .parsed) given log m)
    (set : Setting) :
    (bodiesIn m.stack < bodiesIn (Machine.step set m).stack →
      ∃ c f base st, nextCall? set m = some c ∧ c.Runs f ∧
        Machine.step set m = enterBody f c.arguments c.line base st ∧
        Bound f.declaration.params c.arguments
          (Machine.step set m).state.store (Machine.step set m).state.frame) ∧
    (∀ c, nextCall? set m = some c → ReadsProperty m →
      ∃ f, c.callee = .closure f ∧ f.isGetter = true ∧
        f.declaration.params = [] ∧ c.arguments = []) ∧
    ∀ c, nextCall? set m = some c →
      c.arguments.length ≠ c.callee.parameters →
      Machine.step set m =
        ⟨.failed (.arity c.callee.parameters c.arguments.length c.line),
          m.stack.tail, m.state⟩ := by
  have hproper := h.proper
  have hmake {c : Call} (hc : nextCall? set m = some c) :
      Machine.step set m = c.make set :=
    (step_eq_alone hc).trans (c.make_eq set).symm
  refine ⟨fun hlt => ?_, fun c hc hreads => ?_, fun c hc hcount => ?_⟩
  · cases hc : nextCall? set m with
    | none => exact absurd (bodiesIn_step_le hc) (Nat.not_le_of_lt hlt)
    | some c =>
      rw [hmake hc] at hlt ⊢
      have hbelow := bodiesIn_le_of_suffix (reads_or_applies hproper hc).1
      obtain ⟨hmatches, f, base, st, hruns, henter⟩ :=
        entered_of_lt (Nat.lt_of_le_of_lt hbelow hlt)
      have hcount : c.arguments.length = f.declaration.params.length := by
        rw [hmatches, Callable.arity_eq, hruns.parameters]
      refine ⟨c, f, base, st, rfl, hruns, henter, ?_⟩
      rw [henter]
      exact bound_enterBody hcount c.line
  · rcases (reads_or_applies hproper hc).2 with hgetter | happlies
    · exact hgetter.bare
    · exact absurd hreads happlies.noProperty
  · rcases (reads_or_applies hproper hc).2 with hgetter | happlies
    · obtain ⟨f, hf, -, hparams, hnothing⟩ := hgetter.bare
      rw [hf, hnothing, Callable.parameters, hparams] at hcount
      exact absurd rfl hcount
    · rw [hmake hc, Call.make, Machine.invoke, Callable.arity_eq, if_pos hcount,
        happlies.stack, happlies.state]

/-- A class whose initializer has a parameter, called with an argument and
without one. -/
def sampleParameter : List Stmt :=
  [.class ⟨⟨"A", 1⟩, none, [⟨⟨"init", 1⟩, [⟨"x", 1⟩], [], .method⟩]⟩,
    .expression (.call (.variable ⟨0, "A", 1⟩) 1 [.literal .nil]),
    .expression (.call (.variable ⟨1, "A", 1⟩) 1 [])]

/-- Their text. -/
def sampleParameterText : String :=
  "class A \x7b init(x) \x7b\x7d \x7d A(nil); A();"

/-- The machine after so many steps. -/
def sampleParameterAfter (steps : Nat) : Machine :=
  runAlong sampleSetting (List.replicate steps 0)
    (.ofProgram sampleParameter (Session.new 8 .unlimited).start)

theorem reads_sampleParameter :
    Stmt.Reads 0 (.declarations sampleParameter)
      (Token.scan sampleParameterText).tokens 2 := by
  have hclass : Stmt.Reads 0 (.declaration false (.class ⟨⟨"A", 1⟩, none,
      [⟨⟨"init", 1⟩, [⟨"x", 1⟩], [], .method⟩]⟩))
      [⟨.keyword .kwClass, 1⟩, ⟨.identifier "A", 1⟩, ⟨.symbol .leftBrace, 1⟩,
        ⟨.identifier "init", 1⟩, ⟨.symbol .leftParen, 1⟩, ⟨.identifier "x", 1⟩,
        ⟨.symbol .rightParen, 1⟩, ⟨.symbol .leftBrace, 1⟩,
        ⟨.symbol .rightBrace, 1⟩, ⟨.symbol .rightBrace, 1⟩] 0 :=
    .class (w := [⟨.identifier "A", 1⟩, ⟨.symbol .leftBrace, 1⟩]) .base
      (.member .noMember (.method (.params .one (by decide))) .nil)
  have hwith : Stmt.Reads 0 (.statement false (.expression
      (.call (.variable ⟨0, "A", 1⟩) 1 [.literal .nil])))
      [⟨.identifier "A", 1⟩, ⟨.symbol .leftParen, 1⟩, ⟨.keyword .kwNil, 1⟩,
        ⟨.symbol .rightParen, 1⟩, ⟨.symbol .semicolon, 1⟩] 1 :=
    .expression (.intro (.of_call (.call .name (.one (.of_call (.literal rfl))))))
  have hwithout : Stmt.Reads 1 (.statement false (.expression
      (.call (.variable ⟨1, "A", 1⟩) 1 [])))
      [⟨.identifier "A", 1⟩, ⟨.symbol .leftParen, 1⟩, ⟨.symbol .rightParen, 1⟩,
        ⟨.symbol .semicolon, 1⟩] 2 :=
    .expression (.intro (.of_call (.callEmpty .name)))
  have hreads : Stmt.Reads 0 (.declarations sampleParameter) _ 2 :=
    .snoc (.snoc (.snoc .nil hclass) (.statement hwith)) (.statement hwithout)
  convert hreads using 1
  with_unfolding_all rfl

theorem course_sampleParameter (steps : Nat) :
    ∃ log, Course (Behaviour.Keeps .parsed) ["clock"] log
      (sampleParameterAfter steps) := by
  have hnew : Course (Behaviour.Keeps .parsed) ["clock"] [] _ := .new 8 .unlimited
  have hprogram := hnew.program sampleParameterText 0 rfl rfl
  rw [Stmt.parse_of_reads reads_sampleParameter] at hprogram
  exact ⟨_, hprogram.run (sampleSetting_all honest_clock.keeps)
    (List.replicate steps 0)⟩

/-- The first call enters the initializer with its parameter bound.  The second
one fails, and it leaves no frame and no instance. -/
theorem arguments_match_sample :
    (∃ c f, nextCall? (sampleSetting 0) (sampleParameterAfter 8) = some c ∧
      c.Runs f ∧ c.arguments.length = 1 ∧
      Bound f.declaration.params c.arguments
        (sampleParameterAfter 9).state.store
        (sampleParameterAfter 9).state.frame) ∧
    sampleParameterAfter 19 =
      ⟨.failed (.arity 1 0 1), (sampleParameterAfter 18).stack.tail,
        (sampleParameterAfter 18).state⟩ := by
  constructor
  · obtain ⟨log, hcourse⟩ := course_sampleParameter 8
    have hlt : bodiesIn (sampleParameterAfter 8).stack <
        bodiesIn (Machine.step (sampleSetting 0) (sampleParameterAfter 8)).stack := by
      decide +kernel
    obtain ⟨c, f, base, st, hc, hruns, -, hbound⟩ :=
      (arguments_match hcourse (sampleSetting 0)).1 hlt
    have hone : (nextCall? (sampleSetting 0) (sampleParameterAfter 8)).map
        (fun c => c.arguments.length) = some 1 := by with_unfolding_all rfl
    rw [hc, Option.map_some] at hone
    exact ⟨c, f, hc, hruns, Option.some.inj hone, hbound⟩
  · obtain ⟨log, hcourse⟩ := course_sampleParameter 18
    have hcall : (nextCall? (sampleSetting 0) (sampleParameterAfter 18)).map
        (fun c => (c.arguments.length, c.callee.parameters, c.line)) =
          some (0, 1, 1) := by with_unfolding_all rfl
    obtain ⟨c, hc, hshape⟩ := Option.map_eq_some_iff.1 hcall
    simp only [Prod.mk.injEq] at hshape
    obtain ⟨hnone, hone, hline⟩ := hshape
    have hcount : c.arguments.length ≠ c.callee.parameters := by
      rw [hnone, hone]
      decide
    have hfails := (arguments_match hcourse (sampleSetting 0)).2.2 c hc hcount
    rw [hnone, hone, hline] at hfails
    exact hfails

end Session

end Lox
