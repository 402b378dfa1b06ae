import Lox.Expr.Printer
import Lox.Proofs.Expr.Forms
import Lox.Proofs.Expr.Words

/-!
# The printed form shows the tree

The printed form of an expression is the text of a form in brackets
(`Expr.toList_print`).  Its head and the number of parts behind it tell how the
expression is built (`Form.head?_form`), and its words tell the names and
literals, as long as there are no strings and no infinite numbers among them
(`Word.Legible`).  So two expressions that are printed alike are the same up to
ids and lines (`print_shows_tree`).
-/

namespace Lox

/-! ## Heads -/

/-- What stands in front of the parts of an expression. -/
inductive Head where
  | group
  | unary (op : UnaryOp)
  | binary (op : BinaryOp)
  | logical (op : LogicalOp)
  | assign
  | call
  | get
  | set
  | super
  deriving DecidableEq

/-- How the head is written. -/
def Head.text : Head → String
  | group => "group"
  | unary op => op.symbol.lexeme
  | binary op => op.symbol.lexeme
  | logical op => op.keyword.lexeme
  | assign => "="
  | call => "call"
  | get => "."
  | set => "set"
  | super => "super"

theorem Head.isAtom_text (h : Head) : Form.IsAtom h.text := by
  rcases h with (_ | op | op | op | _)
  case unary | binary | logical => cases op <;> decide
  all_goals decide

mutual

/-- The form of an expression. -/
def Expr.form : Expr → Form
  | .literal value => .word value.print
  | .group inner => .list Head.group.text [inner.form]
  | .unary op _ right => .list (Head.unary op).text [right.form]
  | .binary left op _ right => .list (Head.binary op).text [left.form, right.form]
  | .logical left op _ right =>
    .list (Head.logical op).text [left.form, right.form]
  | .variable ref => .word ref.name
  | .assign target value =>
    .list Head.assign.text [.word target.name, value.form]
  | .call callee _ arguments =>
    .list Head.call.text (callee.form :: Expr.forms arguments)
  | .get object name => .list Head.get.text [object.form, .word name.name]
  | .set object name value =>
    .list Head.set.text [object.form, .word name.name, value.form]
  | .this _ _ => .word Keyword.kwThis.lexeme
  | .super _ _ method => .list Head.super.text [.word method.name]

/-- The forms of some expressions. -/
def Expr.forms : List Expr → List Form
  | [] => []
  | e :: rest => e.form :: Expr.forms rest

end

theorem Expr.forms_eq_map (list : List Expr) : forms list = list.map form := by
  induction list with
  | nil => rfl
  | cons e rest ih => rw [forms, ih, List.map_cons]

/-- The printed form is the text of the form. -/
theorem Expr.toList_print (e : Expr) : e.print.toList = e.form.text := by
  induction e with
  | call callee line arguments ih ihs =>
    have harguments : (printAll arguments).toList = Form.spaced (forms arguments) := by
      clear ih
      induction arguments with
      | nil => rfl
      | cons a rest ih' =>
        rw [List.forall_mem_cons] at ihs
        simp [printAll, forms, Form.spaced, ihs.1, ih' ihs.2]
    simp [print, form, Form.text, Form.spaced, Head.text, ih, harguments]
  | _ => simp_all [print, form, Form.text, Form.spaced, Head.text, Keyword.lexeme]

/-! ## Reading heads -/

/-- How many parts may stand behind a head. -/
def Head.takes : Head → Nat → Bool
  | group, n => n == 1
  | unary _, n => n == 1
  | binary _, n => n == 2
  | logical _, n => n == 2
  | assign, n => n == 2
  | call, n => n != 0
  | get, n => n == 2
  | set, n => n == 3
  | super, n => n == 1

/-- Every head. -/
def Head.all : List Head :=
  [group, assign, call, get, set, super, logical .and, logical .or,
    unary .not, unary .negate, binary .equal, binary .notEqual, binary .less,
    binary .lessEqual, binary .greater, binary .greaterEqual, binary .add,
    binary .subtract, binary .multiply, binary .divide]

/-- The head of a form.  Only a minus sign is the text of two heads, and they
take different numbers of parts. -/
def Form.head? : Form → Option Head
  | .word _ => none
  | .list head items =>
    Head.all.find? fun h => h.text == head && h.takes items.length

/-- How an expression is built, unless it is a single word. -/
def Expr.head? : Expr → Option Head
  | .literal _ | .variable _ | .this _ _ => none
  | .group _ => some .group
  | .unary op _ _ => some (.unary op)
  | .binary _ op _ _ => some (.binary op)
  | .logical _ op _ _ => some (.logical op)
  | .assign _ _ => some .assign
  | .call _ _ _ => some .call
  | .get _ _ => some .get
  | .set _ _ _ => some .set
  | .super _ _ _ => some .super

theorem Expr.head?_form (e : Expr) : e.form.head? = e.head? := by
  cases e with
  | unary op | binary _ op | logical _ op => cases op <;> rfl
  | _ => rfl

/-! ## Reading words -/

/-- The word is a name, a keyword, or a number that is finite and has no
sign. -/
def Word.Legible : Word → Prop
  | .name x => Token.IsWord x.toList ∧ ∀ k : Keyword, k.lexeme ≠ x
  | .literal (.number v) => Number.IsMagnitude v
  | .literal (.string _) => False
  | .literal _ => True

theorem isPlain_of_isNamePart {c : Char} (h : Token.isNamePart c = true) :
    Form.isPlain c = true := by
  by_contra hplain
  simp only [Form.isPlain, Bool.and_eq_true, bne_iff_ne, not_and_or,
    not_not] at hplain
  rcases hplain with (rfl | rfl) | rfl <;> cases h

theorem Token.IsWord.isAtom {x : String} (h : Token.IsWord x.toList) :
    Form.IsAtom x := by
  unfold Form.IsAtom
  cases hx : x.toList with
  | nil =>
    rw [hx] at h
    exact h.elim
  | cons c rest =>
    rw [hx] at h
    refine ⟨List.cons_ne_nil c rest, List.all_eq_true.2 ?_⟩
    exact List.forall_mem_cons.2
      ⟨isPlain_of_isNamePart (Token.isNamePart_of_isNameStart h.1),
        fun d hd => isPlain_of_isNamePart (h.2 d hd)⟩

theorem Decimal.IsNumeral.isAtom {x : String}
    (h : Decimal.IsNumeral x.toList) : Form.IsAtom x := by
  refine ⟨h.ne_nil, List.all_eq_true.2 fun c hc => ?_⟩
  rcases h.plain c hc with hdigit | rfl
  · refine isPlain_of_isNamePart ?_
    rw [Token.isNamePart, Char.isAlphanum, hdigit, Bool.or_true, Bool.true_or]
  · rfl

/-- A numeral is no name and no keyword. -/
theorem Decimal.IsNumeral.not_isWord {text : List Char}
    (h : Decimal.IsNumeral text) : ¬ Token.IsWord text := by
  intro hword
  cases text with
  | nil => exact hword
  | cons c rest =>
    rcases h.plain c List.mem_cons_self with hdigit | rfl
    · rw [Token.isDigit_of_isNameStart hword.1] at hdigit
      cases hdigit
    · cases hword.1

theorem Keyword.lexeme_inj {k k' : Keyword} (h : k.lexeme = k'.lexeme) :
    k = k' := by
  have hfind (k : Keyword) : ofLexeme? k.lexeme = some k := by cases k <;> rfl
  rw [← Option.some.injEq, ← hfind, ← hfind, h]

/-- A literal is printed as the keyword that writes it, or as a numeral. -/
theorem Literal.print_cases {value : Literal}
    (h : (Word.literal value).Legible) :
    (∃ k : Keyword, Expr.literal? (.keyword k) = some value ∧
        value.print = k.lexeme) ∨
      ∃ v, value = .number v ∧ Number.IsMagnitude v := by
  cases value with
  | nil => exact .inl ⟨.kwNil, rfl, rfl⟩
  | bool value =>
    cases value with
    | true => exact .inl ⟨.kwTrue, rfl, rfl⟩
    | false => exact .inl ⟨.kwFalse, rfl, rfl⟩
  | number v => exact .inr ⟨v, rfl, h⟩
  | string content => exact h.elim

theorem Number.IsMagnitude.treeText_ne {v : Float} (h : Number.IsMagnitude v)
    {x : String} (hx : Token.IsWord x.toList) : Number.treeText v ≠ x := by
  rintro rfl
  exact (Number.isNumeral_treeText h).not_isWord hx

namespace Literal

variable {value value' : Literal} (h : (Word.literal value).Legible)

include h

theorem isAtom_print : Form.IsAtom value.print := by
  rcases print_cases h with ⟨k, -, hk⟩ | ⟨v, rfl, hv⟩
  · rw [hk]
    exact (Token.isWord_keyword k).isAtom
  · exact (Number.isNumeral_treeText hv).isAtom

/-- A literal is not printed like a name. -/
theorem print_ne_name {x : String} (hx : (Word.name x).Legible) :
    value.print ≠ x := by
  rcases print_cases h with ⟨k, -, hk⟩ | ⟨v, rfl, hv⟩
  · rw [hk]
    exact hx.2 k
  · exact hv.treeText_ne hx.1

theorem print_ne_this : value.print ≠ Keyword.kwThis.lexeme := by
  rcases print_cases h with ⟨k, hvalue, hk⟩ | ⟨v, rfl, hv⟩
  · rw [hk]
    intro hthis
    rw [Keyword.lexeme_inj hthis] at hvalue
    cases hvalue
  · exact hv.treeText_ne (Token.isWord_keyword _)

/-- Different literals are printed differently. -/
theorem print_inj (h' : (Word.literal value').Legible)
    (hprint : value.print = value'.print) : value = value' := by
  rcases print_cases h with ⟨k, hvalue, hk⟩ | ⟨v, rfl, hv⟩ <;>
    rcases print_cases h' with ⟨k', hvalue', hk'⟩ | ⟨v', rfl, hv'⟩
  · rw [hk, hk'] at hprint
    rw [Keyword.lexeme_inj hprint, hvalue', Option.some.injEq] at hvalue
    exact hvalue.symm
  · rw [hk] at hprint
    exact absurd hprint.symm (hv'.treeText_ne (Token.isWord_keyword k))
  · rw [hk'] at hprint
    exact absurd hprint (hv.treeText_ne (Token.isWord_keyword k'))
  · rw [Number.treeText_inj hv hv' hprint]

end Literal

/-! ## Expressions -/

theorem Word.Legible.clean {x : String} (h : (Word.name x).Legible) :
    (Form.word x).Clean :=
  .word h.1.isAtom

theorem Head.clean_list (head : Head) {items : List Form}
    (h : ∀ f ∈ items, f.Clean) : (Form.list head.text items).Clean :=
  .list head.isAtom_text h

namespace Expr

/-- All words in the form of an expression can be words. -/
theorem clean_form {e : Expr} (h : ∀ x ∈ e.words, x.Legible) :
    e.form.Clean := by
  induction e with
  | literal value =>
    exact .word (Literal.isAtom_print (h _ List.mem_cons_self))
  | occurrence ref => exact (h _ List.mem_cons_self).clean
  | this => exact .word (Token.isWord_keyword .kwThis).isAtom
  | group _ ih | unary _ _ _ ih =>
    simp only [words] at h
    exact Head.clean_list _ (by simpa using ih h)
  | binary _ _ _ _ ih ih' | logical _ _ _ _ ih ih' =>
    simp only [words, List.forall_mem_append] at h
    exact Head.clean_list _ (by simpa using ⟨ih h.1, ih' h.2⟩)
  | assign _ _ ih =>
    simp only [words, List.forall_mem_cons] at h
    exact Head.clean_list _ (by simpa using ⟨h.1.clean, ih h.2⟩)
  | call _ _ _ ih ihs =>
    simp only [words, wordsAll_eq_flatMap, List.forall_mem_append,
      List.forall_mem_flatMap] at h
    refine Head.clean_list _ (List.forall_mem_cons.2 ⟨ih h.1, ?_⟩)
    rw [forms_eq_map, List.forall_mem_map]
    exact fun a ha => ihs a ha (h.2 a ha)
  | get _ _ ih =>
    simp only [words, List.forall_mem_append, List.forall_mem_singleton] at h
    exact Head.clean_list _ (by simpa using ⟨ih h.1, h.2.clean⟩)
  | set _ _ _ ih ih' =>
    simp only [words, List.forall_mem_append, List.forall_mem_cons] at h
    exact Head.clean_list _ (by simpa using ⟨ih h.1, h.2.1.clean, ih' h.2.2⟩)
  | super =>
    exact Head.clean_list _ (by simpa using (h _ List.mem_cons_self).clean)

theorem head?_eq_of_form {e e' : Expr} (h : e.form = e'.form) :
    e.head? = e'.head? := by
  rw [← head?_form, h, head?_form]

/-- The names and literals of an expression are legible, and no expression with
another meaning has its form. -/
def Shown (e : Expr) : Prop :=
  ∀ e' : Expr, (∀ x ∈ e.words, x.Legible) → (∀ x ∈ e'.words, x.Legible) →
    e.form = e'.form → e.relabel .noLabels = e'.relabel .noLabels

theorem map_relabel_eq_of_forms {list list' : List Expr}
    (hshown : ∀ a ∈ list, Shown a)
    (h : ∀ a ∈ list, ∀ x ∈ a.words, x.Legible)
    (h' : ∀ a ∈ list', ∀ x ∈ a.words, x.Legible)
    (hforms : list.map form = list'.map form) :
    list.map (relabel .noLabels) = list'.map (relabel .noLabels) := by
  induction list generalizing list' with
  | nil =>
    cases list' with
    | nil => rfl
    | cons => cases hforms
  | cons a list ih =>
    cases list' with
    | nil => cases hforms
    | cons a' list' =>
      rw [List.forall_mem_cons] at hshown h h'
      obtain ⟨hform, hforms⟩ := List.cons.inj hforms
      rw [List.map_cons, List.map_cons, hshown.1 a' h.1 h'.1 hform,
        ih hshown.2 h.2 h'.2 hforms]

/-- Expressions of one form are the same up to ids and lines. -/
theorem shown (e : Expr) : Shown e := by
  induction e with
  | literal value =>
    intro e' h h' hform
    cases e' with
    | literal value' =>
      rw [Literal.print_inj (h _ List.mem_cons_self) (h' _ List.mem_cons_self)
        (Form.word.inj hform)]
    | «variable» ref =>
      exact absurd (Form.word.inj hform) (Literal.print_ne_name
        (h _ List.mem_cons_self) (h' _ List.mem_cons_self))
    | this =>
      exact absurd (Form.word.inj hform)
        (Literal.print_ne_this (h _ List.mem_cons_self))
    | _ => cases head?_eq_of_form hform
  | occurrence ref =>
    intro e' h h' hform
    cases e' with
    | literal value' =>
      exact absurd (Form.word.inj hform).symm (Literal.print_ne_name
        (h' _ List.mem_cons_self) (h _ List.mem_cons_self))
    | «variable» ref' =>
      have hname : ref.name = ref'.name := Form.word.inj hform
      rw [relabel, relabel, Ref.relabel, Ref.relabel, hname]
      rfl
    | this =>
      exact absurd (Form.word.inj hform).symm ((h _ List.mem_cons_self).2 _)
    | _ => cases head?_eq_of_form hform
  | this id line =>
    intro e' h h' hform
    cases e' with
    | literal value' =>
      exact absurd (Form.word.inj hform).symm
        (Literal.print_ne_this (h' _ List.mem_cons_self))
    | «variable» ref' =>
      exact absurd (Form.word.inj hform) ((h' _ List.mem_cons_self).2 _)
    | this => rfl
    | _ => cases head?_eq_of_form hform
  | group inner ih =>
    intro e' h h' hform
    cases e' with
    | group inner' =>
      simp only [form, Form.list.injEq, List.cons.injEq, and_true, true_and] at hform
      rw [relabel, relabel, ih inner' h h' hform]
    | _ => cases head?_eq_of_form hform
  | unary op line right ih =>
    intro e' h h' hform
    cases e' with
    | unary op' line' right' =>
      cases head?_eq_of_form hform
      simp only [form, Form.list.injEq, List.cons.injEq, and_true, true_and] at hform
      rw [relabel, relabel, ih right' h h' hform]
      rfl
    | _ => cases head?_eq_of_form hform
  | binary left op line right ih ih' =>
    intro e' h h' hform
    cases e' with
    | binary left' op' line' right' =>
      cases head?_eq_of_form hform
      simp only [form, Form.list.injEq, List.cons.injEq, and_true, true_and] at hform
      simp only [words, List.forall_mem_append] at h h'
      rw [relabel, relabel, ih left' h.1 h'.1 hform.1, ih' right' h.2 h'.2 hform.2]
      rfl
    | _ => cases head?_eq_of_form hform
  | logical left op line right ih ih' =>
    intro e' h h' hform
    cases e' with
    | logical left' op' line' right' =>
      cases head?_eq_of_form hform
      simp only [form, Form.list.injEq, List.cons.injEq, and_true, true_and] at hform
      simp only [words, List.forall_mem_append] at h h'
      rw [relabel, relabel, ih left' h.1 h'.1 hform.1, ih' right' h.2 h'.2 hform.2]
      rfl
    | _ => cases head?_eq_of_form hform
  | assign target value ih =>
    intro e' h h' hform
    cases e' with
    | assign target' value' =>
      simp only [form, Form.list.injEq, List.cons.injEq, Form.word.injEq, and_true,
        true_and] at hform
      simp only [words, List.forall_mem_cons] at h h'
      rw [relabel, relabel, Ref.relabel, Ref.relabel, hform.1,
        ih value' h.2 h'.2 hform.2]
      rfl
    | _ => cases head?_eq_of_form hform
  | call callee line arguments ih ihs =>
    intro e' h h' hform
    cases e' with
    | call callee' line' arguments' =>
      simp only [form, Form.list.injEq, List.cons.injEq, forms_eq_map, true_and] at hform
      simp only [words, wordsAll_eq_flatMap, List.forall_mem_append,
        List.forall_mem_flatMap] at h h'
      rw [relabel, relabel, relabelAll_eq_map, relabelAll_eq_map,
        ih callee' h.1 h'.1 hform.1,
        map_relabel_eq_of_forms ihs h.2 h'.2 hform.2]
      rfl
    | _ => cases head?_eq_of_form hform
  | get object name ih =>
    intro e' h h' hform
    cases e' with
    | get object' name' =>
      simp only [form, Form.list.injEq, List.cons.injEq, Form.word.injEq, and_true,
        true_and] at hform
      simp only [words, List.forall_mem_append] at h h'
      rw [relabel, relabel, Ident.relabel, Ident.relabel, hform.2,
        ih object' h.1 h'.1 hform.1]
      rfl
    | _ => cases head?_eq_of_form hform
  | set object name value ih ih' =>
    intro e' h h' hform
    cases e' with
    | set object' name' value' =>
      simp only [form, Form.list.injEq, List.cons.injEq, Form.word.injEq, and_true,
        true_and] at hform
      simp only [words, List.forall_mem_append, List.forall_mem_cons] at h h'
      rw [relabel, relabel, Ident.relabel, Ident.relabel, hform.2.1,
        ih object' h.1 h'.1 hform.1, ih' value' h.2.2 h'.2.2 hform.2.2]
      rfl
    | _ => cases head?_eq_of_form hform
  | super id line method =>
    intro e' h h' hform
    cases e' with
    | super id' line' method' =>
      simp only [form, Form.list.injEq, List.cons.injEq, Form.word.injEq, and_true,
        true_and] at hform
      rw [relabel, relabel, Ident.relabel, Ident.relabel, hform]
      rfl
    | _ => cases head?_eq_of_form hform

/-- Ids and lines are not printed. -/
theorem print_relabel (ρ : Labeling) (e : Expr) :
    (e.relabel ρ).print = e.print := by
  have hforms : (e.relabel ρ).form = e.form := by
    induction e with
    | call _ _ arguments ih ihs =>
      have hlist : arguments.map (form ∘ relabel ρ) = arguments.map form :=
        List.map_congr_left ihs
      simp only [relabel, form, relabelAll_eq_map, forms_eq_map, List.map_map,
        hlist, ih]
    | _ => simp_all [relabel, form]
  rw [← String.toList_inj, toList_print, toList_print, hforms]

/-- There is no string in the expression, and no infinite number. -/
structure Printable (e : Expr) : Prop where
  noString : ∀ content, .literal (.string content) ∉ e.words
  noInfinite : ∀ v negative, .literal (.number v) ∈ e.words →
    Binary64.ofFloat v ≠ .infinite negative

theorem Printable.legible {e : Expr} (h : e.Printable) {x : Word}
    (hx : x ∈ e.words) (hscanned : x.Scanned) : x.Legible := by
  cases x with
  | name x => exact hscanned
  | literal value =>
    cases value with
    | nil | bool => trivial
    | string content => exact h.noString content hx
    | number v => exact hscanned.resolve_right (h.noInfinite v _ hx)

/-- Two expressions that are read from sources, without strings and infinite
numbers, are printed alike exactly if they are the same up to ids and lines. -/
theorem print_shows_tree {source source' : String} {firstId firstId' : Nat}
    {e e' : Expr}
    (h : (parse (Token.scan source) firstId).result = .ok e)
    (h' : (parse (Token.scan source') firstId').result = .ok e')
    (hprintable : e.Printable) (hprintable' : e'.Printable) :
    e.print = e'.print ↔ e.relabel .noLabels = e'.relabel .noLabels := by
  have hlegible : ∀ x ∈ e.words, x.Legible :=
    fun x hx => hprintable.legible hx (scanned_of_parse h x hx)
  have hlegible' : ∀ x ∈ e'.words, x.Legible :=
    fun x hx => hprintable'.legible hx (scanned_of_parse h' x hx)
  constructor
  · intro hprint
    refine shown e e' hlegible hlegible' ?_
    refine (clean_form hlegible).eq_of_text (clean_form hlegible') ?_
    rw [← toList_print, ← toList_print, hprint]
  · intro hsame
    rw [← print_relabel .noLabels e, hsame, print_relabel]

/-- A call that was read from a line and the one below it. -/
def sampleCall (id line : Nat) : Expr :=
  .call (.variable ⟨id, "f", 1⟩) line
    [.literal (.number (Number.ofDigits ['1'] ['5'])),
      .unary .negate line (.variable ⟨id + 1, "x", line⟩)]

/-- The tokens of the call. -/
def sampleTokens (line : Nat) : List Token :=
  [⟨.identifier "f", 1⟩, ⟨.symbol .leftParen, 1⟩,
    ⟨.number "1.5" (Number.ofDigits ['1'] ['5']), 1⟩, ⟨.symbol .comma, 1⟩,
    ⟨.symbol .minus, line⟩, ⟨.identifier "x", line⟩,
    ⟨.symbol .rightParen, line⟩]

theorem reads_sampleCall (id line : Nat) :
    Reads id (.expr (.rank .assignment) (sampleCall id line))
      (sampleTokens line) (id + 2) :=
  .of_call (.call .name (.more (.one (.of_call (.literal rfl))) (by decide)
    (.assignment (.level (.level (.level (.level (.level (.level
      (.unary rfl (.operand .name)))))))))))

theorem parse_sampleCall {source : String} {line : Nat}
    (h : (Token.scan source).tokens = sampleTokens line) (id : Nat) :
    (parse (Token.scan source) id).result = .ok (sampleCall id line) := by
  have hreads := reads_sampleCall id line
  rw [← h, ← parse_eq_iff] at hreads
  rw [hreads]

theorem printable_sampleCall (id line : Nat) : (sampleCall id line).Printable := by
  have hnumber : Binary64.ofFloat (Number.ofDigits ['1'] ['5']) =
      .finite false 6755399441055744 (-52) := by decide +kernel
  constructor
  · simp [sampleCall, words, wordsAll]
  · intro v negative hv
    have hv : v = Number.ofDigits ['1'] ['5'] := by
      simpa [sampleCall, words, wordsAll] using hv
    rw [hv, hnumber]
    rintro ⟨⟩

theorem print_shows_tree_sample :
    (parse (Token.scan "f(1.5, -x)") 0).result = .ok (sampleCall 0 1) ∧
    (parse (Token.scan "f (1.5,\n  -x)") 7).result = .ok (sampleCall 7 2) ∧
    (sampleCall 0 1).Printable ∧ (sampleCall 7 2).Printable ∧
    ((sampleCall 0 1).print = (sampleCall 7 2).print ↔
      (sampleCall 0 1).relabel .noLabels = (sampleCall 7 2).relabel .noLabels) := by
  have htokens : (Token.scan "f(1.5, -x)").tokens = sampleTokens 1 ∧
      (Token.scan "f (1.5,\n  -x)").tokens = sampleTokens 2 := by
    constructor <;>
    simp [Token.scan, Token.Scan.tokens, Token.scanFrom, Token.itemAt,
      Token.single?, Token.double?, Token.isBlank, Token.wordFrom,
      Token.numberFrom, Token.isNameStart, Token.isNamePart, Char.isDigit,
      Token.Kind.ofWord, Keyword.ofLexeme?, Keyword.all, Keyword.lexeme,
      sampleTokens]
  have hfirst := parse_sampleCall htokens.1 0
  have hsecond := parse_sampleCall htokens.2 7
  exact ⟨hfirst, hsecond, printable_sampleCall 0 1, printable_sampleCall 7 2,
    print_shows_tree hfirst hsecond (printable_sampleCall 0 1)
      (printable_sampleCall 7 2)⟩

end Expr

end Lox
