import Lox.Proofs.Expr.Reading
import Lox.Proofs.Number.OfDigits
import Lox.Proofs.Token.Spacing

/-!
# Names and literals of an expression

The words of an expression are its names and literals, from left to right.
They are those of the tokens from which it is read (`Reads.words_eq`); so where
these were scanned, no name is spelled like a keyword, and no number is negative
or undefined (`scanned_of_parse`).
-/

namespace Lox

/-- What a token can bring into an expression. -/
inductive Word where
  | name (x : String)
  | literal (value : Literal)

/-- The word that a token brings into an expression. -/
def Token.Kind.word? : Token.Kind → Option Word
  | .identifier x => some (.name x)
  | kind => (Expr.literal? kind).map .literal

mutual

/-- The names and literals of an expression. -/
def Expr.words : Expr → List Word
  | .literal value => [.literal value]
  | .group inner => inner.words
  | .unary _ _ right => right.words
  | .binary left _ _ right => left.words ++ right.words
  | .logical left _ _ right => left.words ++ right.words
  | .variable ref => [.name ref.name]
  | .assign target value => .name target.name :: value.words
  | .call callee _ arguments => callee.words ++ Expr.wordsAll arguments
  | .get object name => object.words ++ [.name name.name]
  | .set object name value => object.words ++ .name name.name :: value.words
  | .this _ _ => []
  | .super _ _ method => [.name method.name]

/-- The names and literals of some expressions. -/
def Expr.wordsAll : List Expr → List Word
  | [] => []
  | e :: rest => e.words ++ Expr.wordsAll rest

end

namespace Expr

theorem wordsAll_eq_flatMap (list : List Expr) :
    wordsAll list = list.flatMap words := by
  induction list with
  | nil => rfl
  | cons e rest ih => rw [wordsAll, ih, List.flatMap_cons]

theorem words_apply (op : Operator) (left : Expr) (line : Nat) (right : Expr) :
    (op.apply left line right).words = left.words ++ right.words := by
  cases op <;> rfl

/-! ## Words of tokens -/

/-- The names and literals of a phrase. -/
def Phrase.words : Phrase → List Word
  | expr _ e => e.words
  | arguments list => wordsAll list

/-- The names and literals of some tokens. -/
def wordsOf (tokens : List Token) : List Word :=
  tokens.filterMap fun t => t.kind.word?

theorem wordsOf_append (w w' : List Token) :
    wordsOf (w ++ w') = wordsOf w ++ wordsOf w' :=
  List.filterMap_append

theorem wordsOf_cons_of_none {t : Token} (h : t.kind.word? = none)
    (w : List Token) : wordsOf (t :: w) = wordsOf w :=
  List.filterMap_cons_none h

theorem wordsOf_cons_of_some {t : Token} {x : Word} (h : t.kind.word? = some x)
    (w : List Token) : wordsOf (t :: w) = x :: wordsOf w :=
  List.filterMap_cons_some h

theorem word?_of_literal? {kind : Token.Kind} {value : Literal}
    (h : literal? kind = some value) : kind.word? = some (.literal value) := by
  unfold Token.Kind.word?
  split
  · cases h
  · rw [h]
    rfl

theorem word?_of_unaryOp? {kind : Token.Kind} {op : UnaryOp}
    (h : unaryOp? kind = some op) : kind.word? = none := by
  unfold unaryOp? at h
  split at h <;> cases h <;> rfl

theorem word?_of_operator? {l : Level} {kind : Token.Kind} {op : Operator}
    (h : l.operator? kind = some op) : kind.word? = none := by
  obtain ⟨hkind, -⟩ := Operator.ofKind?_of_operator? h
  rw [Operator.kind_eq_of_ofKind? hkind]
  rcases op with (op | op) <;> cases op <;> rfl

@[simp] theorem wordsOf_symbol (s : Symbol) (line : Nat) (w : List Token) :
    wordsOf (⟨.symbol s, line⟩ :: w) = wordsOf w := rfl

@[simp] theorem wordsOf_identifier (x : String) (line : Nat) (w : List Token) :
    wordsOf (⟨.identifier x, line⟩ :: w) = .name x :: wordsOf w := rfl

/-- What is read has the words of its tokens, in their order. -/
theorem Reads.words_eq {n n' : Nat} {phrase : Phrase} {w : List Token}
    (h : Reads n phrase w n') : phrase.words = wordsOf w := by
  have hnil : wordsOf [] = [] := rfl
  induction h with
  | literal h => exact (wordsOf_cons_of_some (word?_of_literal? h) []).symm
  | name | this | super => rfl
  | group _ ih | callEmpty _ ih | get _ ih =>
    simp only [Phrase.words] at ih
    simp only [Phrase.words, words, wordsAll, wordsOf_symbol, wordsOf_append,
      wordsOf_identifier, hnil, List.append_nil, ih]
  | call _ _ ih ih' | set _ _ ih ih' =>
    simp only [Phrase.words] at ih ih'
    simp only [Phrase.words, words, wordsOf_symbol, wordsOf_append,
      wordsOf_identifier, hnil, List.append_nil, ih, ih']
  | one _ ih =>
    simp only [Phrase.words] at ih
    simp only [Phrase.words, wordsAll, List.append_nil, ih]
  | more _ _ _ ih ih' =>
    simp only [Phrase.words, wordsAll_eq_flatMap] at ih ih'
    simp only [Phrase.words, wordsAll_eq_flatMap, List.flatMap_append,
      List.flatMap_cons, List.flatMap_nil, List.append_nil, wordsOf_append,
      wordsOf_symbol, ih, ih']
  | operand _ ih | level _ ih | assignment _ ih => exact ih
  | unary h _ ih =>
    rw [wordsOf_cons_of_none (word?_of_unaryOp? h)]
    exact ih
  | operator _ h _ ih ih' =>
    simp only [Phrase.words] at ih ih'
    rw [wordsOf_append, wordsOf_cons_of_none (word?_of_operator? h), ← ih, ← ih']
    exact words_apply _ _ _ _
  | assign _ ih =>
    simp only [Phrase.words] at ih
    simp only [Phrase.words, words, wordsOf_symbol, wordsOf_identifier, ih]

end Expr

/-! ## Scanned words -/

/-- What the lexer makes sure of.  A name is a word and no keyword; a number is
finite without a sign, or infinite. -/
def Word.Scanned : Word → Prop
  | .name x => Token.IsWord x.toList ∧ ∀ k : Keyword, k.lexeme ≠ x
  | .literal (.number v) =>
    Number.IsMagnitude v ∨ Binary64.ofFloat v = .infinite false
  | .literal _ => True

theorem scanned_of_spells {text : List Char} {kind : Token.Kind}
    (h : Token.Spells text kind) {x : Word} (hx : kind.word? = some x) :
    x.Scanned := by
  cases h with
  | symbol => cases hx
  | keyword k => cases k <;> cases hx <;> trivial
  | @identifier word hword hfree =>
    cases hx
    refine ⟨by rwa [String.toList_ofList], fun k hk => hfree k ?_⟩
    rw [hk, String.toList_ofList]
  | string =>
    cases hx
    trivial
  | whole | fraction =>
    cases hx
    exact Number.ofDigits_cases _ _

/-- The words of an expression that is read from a source. -/
theorem Expr.scanned_of_parse {source : String} {firstId : Nat} {e : Expr}
    (h : (parse (Token.scan source) firstId).result = .ok e) :
    ∀ x ∈ e.words, x.Scanned := by
  intro x hx
  have hwords : e.words = wordsOf (Token.scan source).tokens :=
    (parse_eq_iff.1 (Parsed.eq_of_result h)).words_eq
  rw [hwords] at hx
  obtain ⟨t, ht, hword⟩ := List.mem_filterMap.1 hx
  exact scanned_of_spells (Token.spells_of_scan ht) hword

end Lox
