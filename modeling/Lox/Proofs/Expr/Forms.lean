import Lox.Proofs.Token.Munch

/-!
# Texts in brackets

A form is a word, or a head and more forms between parentheses with a space
before each.  No word is empty or has a space or a parenthesis in it, so what
follows a word tells where it ends, and a form can be read back from any text
that goes on behind it (`Form.Clean.delimited`).  Two forms never have the same
text (`Form.Clean.eq_of_text`).
-/

namespace Lox

/-- A word, or a head and the forms that follow it. -/
inductive Form where
  | word (text : String)
  | list (head : String) (items : List Form)

namespace Form

mutual

/-- The text of a form. -/
def text : Form → List Char
  | .word w => w.toList
  | .list head items => '(' :: (head.toList ++ (spaced items ++ [')']))

/-- The texts of some forms, with a space before each. -/
def spaced : List Form → List Char
  | [] => []
  | f :: rest => ' ' :: (f.text ++ spaced rest)

end

theorem text_list_append (head : String) (items : List Form)
    (rest : List Char) :
    (list head items).text ++ rest =
      '(' :: (head.toList ++ (spaced items ++ ')' :: rest)) := by
  simp [text]

theorem spaced_cons_append (f : Form) (items : List Form) (rest : List Char) :
    spaced (f :: items) ++ rest = ' ' :: (f.text ++ (spaced items ++ rest)) := by
  simp [spaced]

/-- Whether a character can stand in a word. -/
def isPlain (c : Char) : Bool :=
  c != ' ' && c != '(' && c != ')'

/-- The text can be a word. -/
def IsAtom (w : String) : Prop :=
  w.toList ≠ [] ∧ w.toList.all isPlain = true

instance (w : String) : Decidable (IsAtom w) :=
  inferInstanceAs (Decidable (_ ∧ _))

/-- All words of the form can be words. -/
inductive Clean : Form → Prop
  | word {w : String} (h : IsAtom w) : Clean (.word w)
  | list {head : String} {items : List Form} (h : IsAtom head)
      (all : ∀ f ∈ items, Clean f) : Clean (.list head items)

/-! ## Where a form ends -/

/-- The characters that come behind a form inside of another one. -/
def Closes (c : Char) : Prop := c = ' ' ∨ c = ')'

theorem Closes.isPlain_eq {c : Char} (h : Closes c) : isPlain c = false := by
  rcases h with rfl | rfl <;> rfl

variable {rest rest' : List Char} {c c' : Char}

theorem IsAtom.eq_of_append {w w' : String} (h : IsAtom w) (h' : IsAtom w')
    (hc : Closes c) (hc' : Closes c')
    (heq : w.toList ++ c :: rest = w'.toList ++ c' :: rest') :
    w = w' ∧ c :: rest = c' :: rest' := by
  have hcut := Token.span_of_stop (List.all_eq_true.1 h.2) hc.isPlain_eq rest
  have hcut' := Token.span_of_stop (List.all_eq_true.1 h'.2) hc'.isPlain_eq rest'
  rw [heq] at hcut
  exact ⟨String.toList_inj.1 (hcut.1.symm.trans hcut'.1),
    hcut.2.symm.trans hcut'.2⟩

/-- A word does not start with a parenthesis. -/
theorem IsAtom.not_open {w : String} (h : IsAtom w)
    (heq : w.toList ++ rest = '(' :: rest') : False := by
  obtain ⟨hne, hall⟩ := h
  cases hw : w.toList with
  | nil => exact hne hw
  | cons first more =>
    rw [hw] at hall heq
    obtain ⟨rfl, -⟩ := List.cons.inj heq
    cases (List.all_cons ▸ hall : (isPlain '(' && more.all isPlain) = true)

/-- Whatever comes behind it, the form can be told from all others. -/
def Delimited (f : Form) : Prop :=
  ∀ g, Clean g → ∀ c rest c' rest', Closes c → Closes c' →
    f.text ++ c :: rest = g.text ++ c' :: rest' →
    f = g ∧ c :: rest = c' :: rest'

/-- Behind forms in parentheses comes another one or the end. -/
theorem exists_closes (items : List Form) (rest : List Char) :
    ∃ c more, Closes c ∧ spaced items ++ ')' :: rest = c :: more := by
  cases items with
  | nil => exact ⟨_, _, .inr rfl, rfl⟩
  | cons f items => exact ⟨_, _, .inl rfl, rfl⟩

theorem eq_of_spaced {items items' : List Form}
    (h : ∀ f ∈ items, Delimited f) (h' : ∀ f ∈ items', Clean f)
    (heq : spaced items ++ ')' :: rest = spaced items' ++ ')' :: rest') :
    items = items' ∧ rest = rest' := by
  induction items generalizing items' with
  | nil =>
    cases items' with
    | nil => exact ⟨rfl, (List.cons.inj heq).2⟩
    | cons => cases heq
  | cons f items ih =>
    cases items' with
    | nil => cases heq
    | cons g items' =>
      obtain ⟨c, more, hc, hmore⟩ := exists_closes items rest
      obtain ⟨c', more', hc', hmore'⟩ := exists_closes items' rest'
      rw [List.forall_mem_cons] at h h'
      rw [spaced_cons_append, spaced_cons_append, hmore, hmore'] at heq
      have hbehind := (List.cons.inj heq).2
      obtain ⟨rfl, hrest⟩ := h.1 g h'.1 _ _ _ _ hc hc' hbehind
      rw [← hmore, ← hmore'] at hrest
      obtain ⟨rfl, rfl⟩ := ih h.2 h'.2 hrest
      exact ⟨rfl, rfl⟩

/-- A form is read back from the text that it starts. -/
theorem Clean.delimited {f : Form} (h : Clean f) : Delimited f := by
  induction h with
  | word h =>
    rintro g hg c rest c' rest' hc hc' heq
    cases hg with
    | word h' =>
      obtain ⟨rfl, hrest⟩ := h.eq_of_append h' hc hc' heq
      exact ⟨rfl, hrest⟩
    | list => exact absurd heq h.not_open
  | @list head items h _ ih =>
    rintro g hg c rest c' rest' hc hc' heq
    cases hg with
    | word h' => exact absurd heq.symm h'.not_open
    | @list head' items' h' hall =>
      obtain ⟨d, more, hd, hmore⟩ := exists_closes items (c :: rest)
      obtain ⟨d', more', hd', hmore'⟩ := exists_closes items' (c' :: rest')
      rw [text_list_append, text_list_append, hmore, hmore'] at heq
      have hinside := (List.cons.inj heq).2
      obtain ⟨rfl, hbehind⟩ := h.eq_of_append h' hd hd' hinside
      rw [← hmore, ← hmore'] at hbehind
      obtain ⟨rfl, hrest⟩ := eq_of_spaced ih hall hbehind
      exact ⟨rfl, hrest⟩

/-- Different forms have different texts. -/
theorem Clean.eq_of_text {f g : Form} (hf : Clean f) (hg : Clean g)
    (heq : f.text = g.text) : f = g :=
  (hf.delimited g hg ')' [] ')' [] (.inr rfl) (.inr rfl) (by rw [heq])).1

end Form

end Lox
