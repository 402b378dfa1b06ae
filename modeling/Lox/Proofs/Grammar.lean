import Lox.Diagnostic
import Lox.Token

/-!
# The grammar

The grammar of the language in extended Backus-Naur form, as data.  A `Rule`
is the right-hand side of a production, and `Nonterminal.rule` is the table of
all productions.  `Derives` is derivation in the usual sense; it knows
nothing of trees, precedence levels or readers.

Two limits are part of the table: a call has at most `maxArity` arguments and
a function at most `maxArity` parameters.  A member with `class` in front has
a parameter list.

`Rule.Holds` reads a right-hand side in terms of what its nonterminals stand
for.  Derivations are the least reading that is closed under the productions
(`holds_of_derives`), and they are such a reading themselves
(`derivable_iff`); the two together are all that proofs about derivations need.
-/

namespace Lox.Grammar

/-- What a place of the grammar asks of one token. -/
inductive Terminal where
  | symbol (s : Symbol)
  | keyword (k : Keyword)
  | identifier
  | number
  | string

/-- Whether a kind of token is what the terminal asks for. -/
def Terminal.admits : Terminal → Token.Kind → Prop
  | symbol s, kind => kind = .symbol s
  | keyword k, kind => kind = .keyword k
  | identifier, kind => ∃ x, kind = .identifier x
  | number, kind => ∃ spelling value, kind = .number spelling value
  | string, kind => ∃ content, kind = .string content

/-- The nonterminals. -/
inductive Nonterminal where
  | program
  | declaration
  | classDecl
  | member
  | funDecl
  | varDecl
  | statement
  | exprStmt
  | forStmt
  | ifStmt
  | printStmt
  | returnStmt
  | whileStmt
  | block
  | parameters
  | expression
  | assignment
  | logicOr
  | logicAnd
  | equality
  | comparison
  | term
  | factor
  | unary
  | call
  | arguments
  | primary

/-- The right-hand side of a production. -/
inductive Rule where
  | empty
  | never
  | token (x : Terminal)
  | ref (A : Nonterminal)
  | seq (a b : Rule)
  | alt (a b : Rule)
  | opt (a : Rule)
  | star (a : Rule)
  /-- At most `k` times. -/
  | upTo (k : Nat) (a : Rule)

namespace Rule

/-- One after another. -/
def all : List Rule → Rule
  | [] => .empty
  | a :: rest => .seq a (all rest)

/-- One of several. -/
def any : List Rule → Rule
  | [] => .never
  | a :: rest => .alt a (any rest)

/-- A symbol. -/
def sym (s : Symbol) : Rule :=
  .token (.symbol s)

/-- A keyword. -/
def word (k : Keyword) : Rule :=
  .token (.keyword k)

/-- An identifier. -/
def ident : Rule :=
  .token .identifier

/-- Optional content in parentheses. -/
def parens (A : Nonterminal) : Rule :=
  .all [.sym .leftParen, .opt (.ref A), .sym .rightParen]

/-- One or more, but at most `maxArity`, with commas between them. -/
def separated (a : Rule) : Rule :=
  .all [a, .upTo (maxArity - 1) (.all [.sym .comma, a])]

/-- Operands with operators of one level between them. -/
def level (operand : Nonterminal) (operators : List Rule) : Rule :=
  .all [.ref operand, .star (.all [.any operators, .ref operand])]

end Rule

open Rule in
/-- The productions. -/
def Nonterminal.rule : Nonterminal → Rule
  | program => .star (.ref declaration)
  | declaration =>
    .any [.ref classDecl, .ref funDecl, .ref varDecl, .ref statement]
  | classDecl =>
    .all [word .kwClass, ident, .opt (.all [sym .less, ident]), sym .leftBrace,
      .star (.ref member), sym .rightBrace]
  | member =>
    .any [.all [word .kwClass, ident, parens parameters, .ref block],
      .all [ident, .opt (parens parameters), .ref block]]
  | funDecl => .all [word .kwFun, ident, parens parameters, .ref block]
  | varDecl =>
    .all [word .kwVar, ident, .opt (.all [sym .equal, .ref expression]),
      sym .semicolon]
  | statement =>
    .any [.ref exprStmt, .ref forStmt, .ref ifStmt, .ref printStmt,
      .ref returnStmt, .ref whileStmt, .ref block]
  | exprStmt => .all [.ref expression, sym .semicolon]
  | forStmt =>
    .all [word .kwFor, sym .leftParen,
      .any [.ref varDecl, .ref exprStmt, sym .semicolon],
      .opt (.ref expression), sym .semicolon, .opt (.ref expression),
      sym .rightParen, .ref statement]
  | ifStmt =>
    .all [word .kwIf, sym .leftParen, .ref expression, sym .rightParen,
      .ref statement, .opt (.all [word .kwElse, .ref statement])]
  | printStmt => .all [word .kwPrint, .ref expression, sym .semicolon]
  | returnStmt =>
    .all [word .kwReturn, .opt (.ref expression), sym .semicolon]
  | whileStmt =>
    .all [word .kwWhile, sym .leftParen, .ref expression, sym .rightParen,
      .ref statement]
  | block => .all [sym .leftBrace, .star (.ref declaration), sym .rightBrace]
  | parameters => separated ident
  | expression => .ref assignment
  | assignment =>
    .any [.all [.opt (.all [.ref call, sym .dot]), ident, sym .equal,
        .ref assignment],
      .ref logicOr]
  | logicOr => level logicAnd [word .kwOr]
  | logicAnd => level equality [word .kwAnd]
  | equality => level comparison [sym .bangEqual, sym .equalEqual]
  | comparison =>
    level term [sym .greater, sym .greaterEqual, sym .less, sym .lessEqual]
  | term => level factor [sym .minus, sym .plus]
  | factor => level unary [sym .slash, sym .star]
  | unary =>
    .any [.all [.any [sym .bang, sym .minus], .ref unary], .ref call]
  | call =>
    .all [.ref primary,
      .star (.any [parens arguments, .all [sym .dot, ident]])]
  | arguments => separated (.ref expression)
  | primary =>
    .any [.token .number, .token .string, word .kwTrue, word .kwFalse,
      word .kwNil, word .kwThis, ident,
      .all [sym .leftParen, .ref expression, sym .rightParen],
      .all [word .kwSuper, sym .dot, ident]]

/-- The tokens are derived from the right-hand side. -/
inductive Derives : Rule → List Token → Prop where
  | empty : Derives .empty []
  | token {x t} (h : x.admits t.kind) : Derives (.token x) [t]
  | ref {A w} (h : Derives A.rule w) : Derives (.ref A) w
  | seq {a b u v} (first : Derives a u) (second : Derives b v) :
      Derives (.seq a b) (u ++ v)
  | left {a b w} (h : Derives a w) : Derives (.alt a b) w
  | right {a b w} (h : Derives b w) : Derives (.alt a b) w
  | absent {a} : Derives (.opt a) []
  | present {a w} (h : Derives a w) : Derives (.opt a) w
  | starNil {a} : Derives (.star a) []
  | starCons {a u v} (first : Derives a u) (rest : Derives (.star a) v) :
      Derives (.star a) (u ++ v)
  | upToNil {k a} : Derives (.upTo k a) []
  | upToCons {k a u v} (first : Derives a u) (rest : Derives (.upTo k a) v) :
      Derives (.upTo (k + 1) a) (u ++ v)

/-! ## Readings of the grammar -/

/-- The tokens fit the right-hand side if `M` says which tokens a nonterminal
stands for. -/
def Rule.Holds (M : Nonterminal → List Token → Prop) : Rule → List Token → Prop
  | .empty, w => w = []
  | .never, _ => False
  | .token x, w => ∃ t, w = [t] ∧ x.admits t.kind
  | .ref A, w => M A w
  | .seq a b, w => ∃ u v, w = u ++ v ∧ a.Holds M u ∧ b.Holds M v
  | .alt a b, w => a.Holds M w ∨ b.Holds M w
  | .opt a, w => w = [] ∨ a.Holds M w
  | .star a, w => ∃ ws : List (List Token), w = ws.flatten ∧
    ∀ u ∈ ws, a.Holds M u
  | .upTo k a, w => ∃ ws : List (List Token), w = ws.flatten ∧
    ws.length ≤ k ∧ ∀ u ∈ ws, a.Holds M u

variable {M : Nonterminal → List Token → Prop} {w : List Token}

/-- Derivations are the least reading that is closed under the productions. -/
theorem holds_of_derives (closed : ∀ A w, A.rule.Holds M w → M A w) {r : Rule}
    (h : Derives r w) : r.Holds M w := by
  induction h with
  | empty => rfl
  | token h => exact ⟨_, rfl, h⟩
  | ref _ ih => exact closed _ _ ih
  | seq _ _ ihfirst ihsecond => exact ⟨_, _, rfl, ihfirst, ihsecond⟩
  | left _ ih => exact .inl ih
  | right _ ih => exact .inr ih
  | absent => exact .inl rfl
  | present _ ih => exact .inr ih
  | starNil => exact ⟨[], rfl, by simp⟩
  | @starCons a u v _ _ ihfirst ihrest =>
    obtain ⟨ws, rfl, hws⟩ := ihrest
    exact ⟨u :: ws, rfl, List.forall_mem_cons.2 ⟨ihfirst, hws⟩⟩
  | upToNil => exact ⟨[], rfl, Nat.zero_le _, by simp⟩
  | @upToCons k a u v _ _ ihfirst ihrest =>
    obtain ⟨ws, rfl, hlength, hws⟩ := ihrest
    refine ⟨u :: ws, rfl, ?_, List.forall_mem_cons.2 ⟨ihfirst, hws⟩⟩
    rw [List.length_cons]
    omega

/-- The tokens that can be derived from a nonterminal. -/
def Derivable (A : Nonterminal) (w : List Token) : Prop :=
  Derives (.ref A) w

theorem derives_star {a : Rule} {ws : List (List Token)}
    (h : ∀ u ∈ ws, Derives a u) : Derives (.star a) ws.flatten := by
  induction ws with
  | nil => exact .starNil
  | cons u ws ih =>
    obtain ⟨hu, hws⟩ := List.forall_mem_cons.1 h
    exact .starCons hu (ih hws)

theorem derives_upTo {a : Rule} {ws : List (List Token)} {k : Nat}
    (hlength : ws.length ≤ k) (h : ∀ u ∈ ws, Derives a u) :
    Derives (.upTo k a) ws.flatten := by
  induction ws generalizing k with
  | nil => exact .upToNil
  | cons u ws ih =>
    obtain ⟨hu, hws⟩ := List.forall_mem_cons.1 h
    rw [List.length_cons] at hlength
    obtain ⟨k, rfl⟩ : ∃ j, k = j + 1 := ⟨k - 1, by omega⟩
    exact .upToCons hu (ih (by omega) hws)

theorem derives_of_holds {r : Rule} {w : List Token}
    (h : r.Holds Derivable w) : Derives r w := by
  induction r generalizing w with
  | empty => cases h; exact .empty
  | never => cases h
  | token x =>
    obtain ⟨t, rfl, ht⟩ := h
    exact .token ht
  | ref A => exact h
  | seq a b iha ihb =>
    obtain ⟨u, v, rfl, hu, hv⟩ := h
    exact .seq (iha hu) (ihb hv)
  | alt a b iha ihb =>
    rcases h with (h | h)
    · exact .left (iha h)
    · exact .right (ihb h)
  | opt a ih =>
    rcases h with (rfl | h)
    · exact .absent
    · exact .present (ih h)
  | star a ih =>
    obtain ⟨ws, rfl, hws⟩ := h
    exact derives_star fun u hu => ih (hws u hu)
  | upTo k a ih =>
    obtain ⟨ws, rfl, hlength, hws⟩ := h
    exact derives_upTo hlength fun u hu => ih (hws u hu)

/-- A nonterminal derives what its production derives. -/
theorem derivable_iff {A : Nonterminal} {w : List Token} :
    Derivable A w ↔ A.rule.Holds Derivable w := by
  constructor
  · intro h
    cases h with
    | ref h =>
      exact holds_of_derives (fun A w h => .ref (derives_of_holds h)) h
  · intro h
    exact .ref (derives_of_holds h)

theorem Rule.Holds.mono {M' : Nonterminal → List Token → Prop} {r : Rule}
    (h : r.Holds M w) (hM : ∀ A w, M A w → M' A w) : r.Holds M' w := by
  induction r generalizing w with
  | empty | never | token x => exact h
  | ref A => exact hM A w h
  | seq a b iha ihb =>
    obtain ⟨u, v, rfl, hu, hv⟩ := h
    exact ⟨u, v, rfl, iha hu, ihb hv⟩
  | alt a b iha ihb => exact h.imp iha ihb
  | opt a ih => exact h.imp id ih
  | star a ih =>
    obtain ⟨ws, rfl, hws⟩ := h
    exact ⟨ws, rfl, fun u hu => ih (hws u hu)⟩
  | upTo k a ih =>
    obtain ⟨ws, rfl, hlength, hws⟩ := h
    exact ⟨ws, rfl, hlength, fun u hu => ih (hws u hu)⟩

/-- Induction over derivations: a property of the nonterminals holds if it
follows for a production from the property of its parts, which are
themselves derived. -/
theorem derivable_induction
    (closed : ∀ A w, A.rule.Holds (fun A w => Derivable A w ∧ M A w) w → M A w)
    {A : Nonterminal} (h : Derivable A w) : M A w := by
  have hboth : (Rule.ref A).Holds (fun A w => Derivable A w ∧ M A w) w := by
    refine holds_of_derives ?_ h
    intro A w h
    exact ⟨derivable_iff.2 (h.mono fun _ _ h => h.1), closed A w h⟩
  exact hboth.2

/-! ## Readings of common right-hand sides -/

theorem holds_any {list : List Rule} :
    (Rule.any list).Holds M w ↔ ∃ r ∈ list, r.Holds M w := by
  induction list with
  | nil => simp [Rule.any, Rule.Holds]
  | cons r list ih => simp [Rule.any, Rule.Holds, ih]

@[simp] theorem holds_nil : (Rule.all []).Holds M w ↔ w = [] := Iff.rfl

@[simp] theorem holds_cons {r : Rule} {list : List Rule} :
    (Rule.all (r :: list)).Holds M w ↔
      ∃ u v, w = u ++ v ∧ r.Holds M u ∧ (Rule.all list).Holds M v := Iff.rfl

@[simp] theorem holds_ref {A : Nonterminal} :
    (Rule.ref A).Holds M w ↔ M A w := Iff.rfl

theorem holds_sym {s : Symbol} :
    (Rule.sym s).Holds M w ↔ ∃ l, w = [⟨.symbol s, l⟩] := by
  constructor
  · rintro ⟨⟨kind, l⟩, rfl, rfl⟩
    exact ⟨l, rfl⟩
  · rintro ⟨l, rfl⟩
    exact ⟨_, rfl, rfl⟩

theorem holds_word {k : Keyword} :
    (Rule.word k).Holds M w ↔ ∃ l, w = [⟨.keyword k, l⟩] := by
  constructor
  · rintro ⟨⟨kind, l⟩, rfl, rfl⟩
    exact ⟨l, rfl⟩
  · rintro ⟨l, rfl⟩
    exact ⟨_, rfl, rfl⟩

theorem holds_ident :
    Rule.ident.Holds M w ↔ ∃ x l, w = [⟨.identifier x, l⟩] := by
  constructor
  · rintro ⟨⟨kind, l⟩, rfl, x, rfl⟩
    exact ⟨x, l, rfl⟩
  · rintro ⟨x, l, rfl⟩
    exact ⟨_, rfl, x, rfl⟩

/-- A right-hand side that starts with one token. -/
theorem holds_sym_cons {s : Symbol} {list : List Rule} :
    (Rule.all (.sym s :: list)).Holds M w ↔
      ∃ l v, w = ⟨.symbol s, l⟩ :: v ∧ (Rule.all list).Holds M v := by
  rw [holds_cons]
  constructor
  · rintro ⟨u, v, rfl, hu, hv⟩
    obtain ⟨l, rfl⟩ := holds_sym.1 hu
    exact ⟨l, v, rfl, hv⟩
  · rintro ⟨l, v, rfl, hv⟩
    exact ⟨[_], v, rfl, holds_sym.2 ⟨l, rfl⟩, hv⟩

theorem holds_word_cons {k : Keyword} {list : List Rule} :
    (Rule.all (.word k :: list)).Holds M w ↔
      ∃ l v, w = ⟨.keyword k, l⟩ :: v ∧ (Rule.all list).Holds M v := by
  rw [holds_cons]
  constructor
  · rintro ⟨u, v, rfl, hu, hv⟩
    obtain ⟨l, rfl⟩ := holds_word.1 hu
    exact ⟨l, v, rfl, hv⟩
  · rintro ⟨l, v, rfl, hv⟩
    exact ⟨[_], v, rfl, holds_word.2 ⟨l, rfl⟩, hv⟩

theorem holds_ident_cons {list : List Rule} :
    (Rule.all (.ident :: list)).Holds M w ↔
      ∃ x l v, w = ⟨.identifier x, l⟩ :: v ∧ (Rule.all list).Holds M v := by
  rw [holds_cons]
  constructor
  · rintro ⟨u, v, rfl, hu, hv⟩
    obtain ⟨x, l, rfl⟩ := holds_ident.1 hu
    exact ⟨x, l, v, rfl, hv⟩
  · rintro ⟨x, l, v, rfl, hv⟩
    exact ⟨[_], v, rfl, holds_ident.2 ⟨x, l, rfl⟩, hv⟩

theorem holds_single {r : Rule} :
    (Rule.all [r]).Holds M w ↔ r.Holds M w := by
  rw [holds_cons]
  constructor
  · rintro ⟨u, v, rfl, hu, rfl⟩
    rw [List.append_nil]
    exact hu
  · intro h
    exact ⟨w, [], by rw [List.append_nil], h, rfl⟩

/-- A repetition can be continued at its end. -/
theorem holds_star_snoc {r : Rule} {u v : List Token}
    (hu : (Rule.star r).Holds M u) (hv : r.Holds M v) :
    (Rule.star r).Holds M (u ++ v) := by
  obtain ⟨ws, rfl, hws⟩ := hu
  refine ⟨ws ++ [v], by simp, ?_⟩
  intro u hu
  rcases List.mem_append.1 hu with (hu | hu)
  · exact hws u hu
  · rw [List.mem_singleton.1 hu]
    exact hv

/-- What can be extended by one part can be extended by a row of parts. -/
theorem extend {P : Nat → List Token → Prop} {r : Rule}
    (step : ∀ {k u v}, P k u → r.Holds M v → P (k + 1) (u ++ v)) {k : Nat}
    {u : List Token} {ws : List (List Token)} (hu : P k u)
    (hws : ∀ v ∈ ws, r.Holds M v) : P (k + ws.length) (u ++ ws.flatten) := by
  induction ws generalizing k u with
  | nil => simpa using hu
  | cons v ws ih =>
    obtain ⟨hv, hws⟩ := List.forall_mem_cons.1 hws
    have := ih (step hu hv) hws
    rw [List.length_cons, List.flatten_cons, ← List.append_assoc]
    rw [Nat.add_assoc, Nat.add_comm 1] at this
    exact this

end Lox.Grammar
