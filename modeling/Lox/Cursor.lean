import Lox.Expr
import Lox.Token.Lexer

/-!
# Reading a token list

A `Cursor` is a place in a token list together with what reading has used up
and found so far: the next free id and the diagnostics that did not stop it.
A `Reader` moves a cursor; when it fails, the cursor stays where the failure
was found, because recovery goes on from there.
-/

namespace Lox

/-- A place in a token list. -/
structure Cursor where
  /-- The tokens still to be read. -/
  rest : List Token
  /-- The line on which the source ends. -/
  endLine : Nat
  /-- The next id for an occurrence. -/
  nextId : Nat
  /-- The diagnostics noted so far, newest first. -/
  noted : List Diagnostic

/-- A reader of tokens: it gives a result or the diagnostic that stopped it,
and in both cases the cursor it reached. -/
abbrev Reader := EStateM Diagnostic Cursor

namespace Cursor

/-- The start of a scanned source. -/
def start (scan : Token.Scan) (firstId : Nat) : Cursor :=
  ⟨scan.tokens, scan.endLine, firstId, []⟩

/-- The same cursor with other tokens left. -/
def moveTo (c : Cursor) (rest : List Token) : Cursor :=
  { c with rest := rest }

/-- A fault at the next token, or at the end of the source. -/
def fault (c : Cursor) (f : ParseFault) : Diagnostic :=
  match c.rest with
  | [] => .parse c.endLine .sourceEnd f
  | t :: _ => .parse t.line (.lexeme t.lexeme) f

/-- Notes a diagnostic and goes on. -/
def note (c : Cursor) (d : Diagnostic) : Cursor :=
  { c with noted := d :: c.noted }

/-- Notes a fault at the next token if a condition holds. -/
def noteIf (c : Cursor) (condition : Bool) (f : ParseFault) : Cursor :=
  if condition then c.note (c.fault f) else c

/-- The same cursor with the next id used up. -/
def useId (c : Cursor) : Cursor :=
  { c with nextId := c.nextId + 1 }

/-- The diagnostics in the order they were noted. -/
def diagnostics (c : Cursor) : List Diagnostic :=
  c.noted.reverse

@[simp] theorem rest_moveTo (c : Cursor) (rest : List Token) :
    (c.moveTo rest).rest = rest := rfl

@[simp] theorem rest_note (c : Cursor) (d : Diagnostic) :
    (c.note d).rest = c.rest := rfl

@[simp] theorem rest_noteIf (c : Cursor) (condition : Bool) (f : ParseFault) :
    (c.noteIf condition f).rest = c.rest := by
  unfold noteIf; split <;> rfl

@[simp] theorem rest_useId (c : Cursor) : c.useId.rest = c.rest := rfl

@[simp] theorem nextId_moveTo (c : Cursor) (rest : List Token) :
    (c.moveTo rest).nextId = c.nextId := rfl

@[simp] theorem nextId_useId (c : Cursor) :
    c.useId.nextId = c.nextId + 1 := rfl

@[simp] theorem noted_moveTo (c : Cursor) (rest : List Token) :
    (c.moveTo rest).noted = c.noted := rfl

@[simp] theorem noted_note (c : Cursor) (d : Diagnostic) :
    (c.note d).noted = d :: c.noted := rfl

@[simp] theorem noted_useId (c : Cursor) : c.useId.noted = c.noted := rfl

/-- A fault that has been noted stays noted. -/
theorem suffix_noted_noteIf (c : Cursor) (condition : Bool) (f : ParseFault) :
    c.noted <:+ (c.noteIf condition f).noted := by
  unfold noteIf
  split
  · exact List.suffix_cons ..
  · exact List.suffix_refl _

end Cursor

namespace Reader

/-- Takes the symbol `s` if it comes next, and says whether it did. -/
def accept (s : Symbol) : Reader Bool := fun c =>
  match c.rest with
  | ⟨.symbol t, _⟩ :: rest =>
    if t = s then .ok true (c.moveTo rest) else .ok false c
  | _ => .ok false c

/-- Whether the symbol `s` comes next. -/
def ahead (s : Symbol) : Reader Bool := fun c =>
  match c.rest with
  | ⟨.symbol t, _⟩ :: _ => .ok (t = s) c
  | _ => .ok false c

/-- Takes the symbol `s`, or stops with a fault. -/
def expect (s : Symbol) (f : ParseFault) : Reader Unit := fun c =>
  match c.rest with
  | ⟨.symbol t, _⟩ :: rest =>
    if t = s then .ok () (c.moveTo rest) else .error (c.fault f) c
  | _ => .error (c.fault f) c

/-- Takes the keyword `k` if it comes next, and says whether it did. -/
def acceptKeyword (k : Keyword) : Reader Bool := fun c =>
  match c.rest with
  | ⟨.keyword t, _⟩ :: rest =>
    if t = k then .ok true (c.moveTo rest) else .ok false c
  | _ => .ok false c

/-- Takes a fresh id. -/
def freshId : Reader Nat := fun c =>
  .ok c.nextId c.useId

/-- Takes an identifier, or stops with a fault. -/
def name (f : ParseFault) : Reader Ident := fun c =>
  match c.rest with
  | ⟨.identifier x, line⟩ :: rest => .ok ⟨x, line⟩ (c.moveTo rest)
  | _ => .error (c.fault f) c

/-! ## What a reader does to the cursor -/

/-- The cursor a reader reaches, with a result or without. -/
def reached {α : Type} : EStateM.Result Diagnostic Cursor α → Cursor
  | .ok _ c => c
  | .error _ c => c

/-- The relation holds between any cursor and the one that the reader reaches
from it. -/
def Along {α : Type} (R : Cursor → Cursor → Prop) (p : Reader α) : Prop :=
  ∀ c, R c (reached (p c))

theorem Along.ite {α : Type} {R : Cursor → Cursor → Prop} {condition : Prop}
    [Decidable condition] {p q : Reader α} (hp : p.Along R) (hq : q.Along R) :
    Along R (if condition then p else q) := by
  split <;> assumption

end Reader

/-- A relation that holds along whatever is made of the readers above: it is
reflexive and transitive, and taking a token or an id keeps to it. -/
structure Cursor.Passage (R : Cursor → Cursor → Prop) : Prop where
  refl : ∀ c, R c c
  trans : ∀ {c c' c''}, R c c' → R c' c'' → R c c''
  take : ∀ {c : Cursor} {t : Token} {rest : List Token}, c.rest = t :: rest →
    R c (c.moveTo rest)
  useId : ∀ c : Cursor, R c c.useId

namespace Cursor.Passage

variable {R : Cursor → Cursor → Prop} {α β : Type} (h : Passage R)

include h

theorem pure (a : α) : Reader.Along R (Pure.pure a) :=
  h.refl

theorem bind {p : Reader α} {q : α → Reader β} (hp : p.Along R)
    (hq : ∀ a, (q a).Along R) : Reader.Along R (p >>= q) := by
  intro c
  have hreached := hp c
  show R c (Reader.reached (EStateM.bind p q c))
  unfold EStateM.bind
  cases hc : p c with
  | ok a c' => rw [hc] at hreached; exact h.trans hreached (hq a c')
  | error d c' => rw [hc] at hreached; exact hreached

theorem accept (s : Symbol) : (Reader.accept s).Along R := by
  intro c
  unfold Reader.accept
  split
  · next hrest =>
    split
    · exact h.take hrest
    · exact h.refl c
  · exact h.refl c

theorem ahead (s : Symbol) : (Reader.ahead s).Along R := by
  intro c
  unfold Reader.ahead
  split <;> exact h.refl c

theorem expect (s : Symbol) (f : ParseFault) : (Reader.expect s f).Along R := by
  intro c
  unfold Reader.expect
  split
  · next hrest =>
    split
    · exact h.take hrest
    · exact h.refl c
  · exact h.refl c

theorem acceptKeyword (k : Keyword) : (Reader.acceptKeyword k).Along R := by
  intro c
  unfold Reader.acceptKeyword
  split
  · next hrest =>
    split
    · exact h.take hrest
    · exact h.refl c
  · exact h.refl c

theorem freshId : Reader.freshId.Along R :=
  h.useId

theorem name (f : ParseFault) : (Reader.name f).Along R := by
  intro c
  unfold Reader.name
  split
  · next hrest => exact h.take hrest
  · exact h.refl c

end Cursor.Passage

/-! ## Readers only use tokens up -/

/-- The second cursor has no more tokens left than the first one. -/
def Cursor.Shrinks (c c' : Cursor) : Prop :=
  c'.rest.length ≤ c.rest.length

theorem Cursor.passage_shrinks : Passage Shrinks where
  refl _ := Nat.le_refl _
  trans h h' := Nat.le_trans h' h
  take hrest := by simp [Shrinks, hrest]
  useId _ := Nat.le_refl _

namespace Reader

/-- The reader never leaves more tokens than it found, and fewer if it
succeeds. -/
def Consumes {α : Type} (p : Reader α) : Prop :=
  p.Along Cursor.Shrinks ∧
    ∀ c a c', p c = .ok a c' → c'.rest.length < c.rest.length

theorem Consumes.bind {α β : Type} {p : Reader α} {q : α → Reader β}
    (hp : p.Consumes) (hq : ∀ a, (q a).Along Cursor.Shrinks) :
    Consumes (p >>= q) := by
  refine ⟨Cursor.passage_shrinks.bind hp.1 hq, fun c b c'' h => ?_⟩
  change EStateM.bind p q c = .ok b c'' at h
  unfold EStateM.bind at h
  cases hc : p c with
  | ok a c' =>
    rw [hc] at h
    have h1 := hp.2 c a c' hc
    have h2 := hq a c'
    simp only [Cursor.Shrinks, reached, h] at h2
    omega
  | error d c' => rw [hc] at h; cases h

theorem consumes_name (f : ParseFault) : (name f).Consumes := by
  refine ⟨Cursor.passage_shrinks.name f, fun c x c' h => ?_⟩
  unfold name at h
  split at h
  · next hrest => cases h; simp [hrest]
  · cases h

end Reader

end Lox
