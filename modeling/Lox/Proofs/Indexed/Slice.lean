import Lox.Cursor

/-!
# Tokens by index

A token list can also be read as a slice with an index into it, which ends with
an entry for the end of the source.  Reading then has to keep the index in
range: `peek` looks at the entry under the index and `previous` at the one
before, and where there is none the reader panics, which is modelled by `none`.

A reader of a slice mirrors a reader of a cursor if, wherever the cursor stands
in the list, it does the same at the index of that place (`Mirrors`); in
particular it does not panic.  Mirrors are put together like the readers
themselves (`Mirrors.bind`).
-/

namespace Lox.Indexed

/-- An entry of a slice. -/
inductive Entry where
  | token (t : Token)
  | sourceEnd (line : Nat)

/-- A fault at the entry. -/
def Entry.fault (f : ParseFault) : Entry → Diagnostic
  | token t => .parse t.line (.lexeme t.lexeme) f
  | sourceEnd line => .parse line .sourceEnd f

/-- A place in a slice of tokens, with the next id and the diagnostics noted so
far, newest first. -/
structure Slice where
  entries : Array Entry
  current : Nat
  nextId : Nat
  noted : List Diagnostic

/-- A reader of a slice.  It gives a result or a diagnostic, or it panics. -/
def Reader (α : Type) : Type :=
  Slice → Option (EStateM.Result Diagnostic Slice α)

namespace Reader

instance : Monad Reader where
  pure a := fun s => some (.ok a s)
  bind p q := fun s =>
    match p s with
    | some (.ok a s') => q a s'
    | some (.error d s') => some (.error d s')
    | none => none

/-- Panics. -/
def panics {α : Type} : Reader α :=
  fun _ => none

/-- Panics if there is nothing. -/
def ofOption {α : Type} : Option α → Reader α
  | some a => pure a
  | none => panics

/-- Stops with a diagnostic. -/
def stop {α : Type} (d : Diagnostic) : Reader α :=
  fun s => some (.error d s)

/-- Goes on with the result of a reader, or with the diagnostic that stopped
it. -/
def orElse {α β : Type} (p : Reader α) (handle : Diagnostic → Reader β)
    (go : α → Reader β) : Reader β := fun s =>
  match p s with
  | some (.ok a s') => go a s'
  | some (.error d s') => handle d s'
  | none => none

/-- Takes a fresh id. -/
def freshId : Reader Nat := fun s =>
  some (.ok s.nextId { s with nextId := s.nextId + 1 })

/-- Notes a diagnostic and goes on. -/
def note (d : Diagnostic) : Reader Unit := fun s =>
  some (.ok () { s with noted := d :: s.noted })

/-- The entry under the index. -/
def peek : Reader Entry := fun s =>
  match s.entries[s.current]? with
  | some entry => some (.ok entry s)
  | none => none

/-- The entry before the index. -/
def previous : Reader Entry := fun s =>
  match s.current with
  | 0 => none
  | before + 1 =>
    match s.entries[before]? with
    | some entry => some (.ok entry s)
    | none => none

/-- Moves the index on. -/
def forward : Reader Unit := fun s =>
  some (.ok () { s with current := s.current + 1 })

/-- Whether the source ends here. -/
def isAtEnd : Reader Bool := do
  match ← peek with
  | .sourceEnd _ => return true
  | .token _ => return false

/-- Whether a token of some kind comes next. -/
def check (kind : Token.Kind → Bool) : Reader Bool := do
  if ← isAtEnd then return false
  else
    match ← peek with
    | .token t => return kind t.kind
    | .sourceEnd _ => return false

/-- Takes the next token.  At the end of the source it stays there and gives
the last one. -/
def advance : Reader Entry := do
  if ← isAtEnd then previous
  else
    forward
    previous

/-- Takes a token of some kind if it comes next, and says whether it did. -/
def accept (kind : Token.Kind → Bool) : Reader Bool := do
  if ← check kind then
    let _ ← advance
    return true
  else return false

/-- Stops with a fault at the next entry. -/
def fail {α : Type} (f : ParseFault) : Reader α := do
  let entry ← peek
  stop (entry.fault f)

/-- Takes a token of some kind, or stops with a fault. -/
def expect (kind : Token.Kind → Bool) (f : ParseFault) : Reader Entry := do
  if ← check kind then advance else fail f

/-- Notes a fault at the next entry if a condition holds. -/
def noteIf (condition : Bool) (f : ParseFault) : Reader Unit := do
  if condition then
    let entry ← peek
    note (entry.fault f)
  else return ()

end Reader

/-! ## Kinds of tokens -/

/-- The token is the symbol `s`. -/
def isSymbol (s : Symbol) : Token.Kind → Bool
  | .symbol t => t = s
  | _ => false

/-- The token is the keyword `k`. -/
def isKeyword (k : Keyword) : Token.Kind → Bool
  | .keyword t => t = k
  | _ => false

/-- The token is an identifier. -/
def isName : Token.Kind → Bool
  | .identifier _ => true
  | _ => false

/-- The identifier that the entry holds. -/
def Entry.ident? : Entry → Option Ident
  | token ⟨.identifier x, line⟩ => some ⟨x, line⟩
  | _ => none

/-- The line of the entry. -/
def Entry.line : Entry → Nat
  | token t => t.line
  | sourceEnd line => line

namespace Reader

/-- Takes the symbol `s`, or stops with a fault.  The token is not kept. -/
def consume (s : Symbol) (f : ParseFault) : Reader Unit := do
  let _ ← expect (isSymbol s) f

/-- Takes an identifier, or stops with a fault. -/
def name (f : ParseFault) : Reader Ident := do
  let entry ← expect isName f
  ofOption entry.ident?

end Reader

/-! ## Slices and cursors -/

/-- The slice of a token list, at the place of a cursor. -/
def slice (whole : List Token) (c : Cursor) : Slice where
  entries := (whole.map Entry.token ++ [Entry.sourceEnd c.endLine]).toArray
  current := whole.length - c.rest.length
  nextId := c.nextId
  noted := c.noted

/-- The same result at the index of the place that was reached. -/
def place {α : Type} (whole : List Token) :
    EStateM.Result Diagnostic Cursor α → EStateM.Result Diagnostic Slice α
  | .ok a c => .ok a (slice whole c)
  | .error d c => .error d (slice whole c)

/-- The reader of a slice does what the reader of a cursor does, wherever the
cursor stands in the list. -/
def Mirrors {α : Type} (whole : List Token) (p : Reader α) (q : Lox.Reader α) :
    Prop :=
  ∀ c, c.rest <:+ whole → (Lox.Reader.reached (q c)).rest <:+ whole ∧
    p (slice whole c) = some (place whole (q c))

section

variable {α β : Type} {whole : List Token} {c : Cursor} {t : Token}
  {rest : List Token}

theorem Reader.pure_run (a : α) (s : Slice) :
    (pure a : Reader α) s = some (.ok a s) := rfl

theorem Reader.bind_ok {p : Reader α} {q : α → Reader β} {s s' : Slice} {a : α}
    (h : p s = some (.ok a s')) : (p >>= q) s = q a s' := by
  change (match p s with
    | some (.ok a s') => q a s'
    | some (.error d s') => some (.error d s')
    | none => none) = q a s'
  rw [h]

theorem Reader.bind_error {p : Reader α} {q : α → Reader β} {s s' : Slice}
    {d : Diagnostic} (h : p s = some (.error d s')) :
    (p >>= q) s = some (.error d s') := by
  change (match p s with
    | some (.ok a s') => q a s'
    | some (.error d s') => some (.error d s')
    | none => none) = some (.error d s')
  rw [h]

theorem Reader.ite_true {p : Reader Bool} {q r : Reader α} {s s' : Slice}
    (h : p s = some (.ok true s')) : (do if ← p then q else r) s = q s' :=
  Reader.bind_ok h

theorem Reader.ite_false {p : Reader Bool} {q r : Reader α} {s s' : Slice}
    (h : p s = some (.ok false s')) : (do if ← p then q else r) s = r s' :=
  Reader.bind_ok h

/-! ## Steps at the end of the source -/

theorem peek_nil (hc : c.rest = []) :
    Reader.peek (slice whole c) =
      some (.ok (.sourceEnd c.endLine) (slice whole c)) := by
  have hentry : (slice whole c).entries[(slice whole c).current]? =
      some (.sourceEnd c.endLine) := by
    simp [slice, hc]
  rw [Reader.peek, hentry]

theorem isAtEnd_nil (hc : c.rest = []) :
    Reader.isAtEnd (slice whole c) = some (.ok true (slice whole c)) :=
  Reader.bind_ok (peek_nil hc)

theorem check_nil (hc : c.rest = []) (kind : Token.Kind → Bool) :
    Reader.check kind (slice whole c) = some (.ok false (slice whole c)) :=
  Reader.bind_ok (isAtEnd_nil hc)

theorem accept_nil (hc : c.rest = []) (kind : Token.Kind → Bool) :
    Reader.accept kind (slice whole c) = some (.ok false (slice whole c)) :=
  Reader.bind_ok (check_nil hc kind)

/-! ## Steps at a token -/

theorem getElem?_of_suffix (h : t :: rest <:+ whole) :
    whole[whole.length - (rest.length + 1)]? = some t := by
  obtain ⟨before, rfl⟩ := h
  simp

theorem entry_of_suffix (h : t :: rest <:+ whole) :
    (slice whole c).entries[whole.length - (rest.length + 1)]? =
      some (.token t) := by
  have hlength := h.length_le
  rw [List.length_cons] at hlength
  have hlt : whole.length - (rest.length + 1) < (whole.map Entry.token).length := by
    rw [List.length_map]
    omega
  simp only [slice, List.getElem?_toArray]
  rw [List.getElem?_append_left hlt, List.getElem?_map, getElem?_of_suffix h]
  rfl

theorem peek_cons (hc : c.rest = t :: rest) (h : c.rest <:+ whole) :
    Reader.peek (slice whole c) = some (.ok (.token t) (slice whole c)) := by
  have hcurrent : (slice whole c).current = whole.length - (rest.length + 1) := by
    rw [slice, hc, List.length_cons]
  rw [Reader.peek, hcurrent, entry_of_suffix (hc ▸ h)]

theorem previous_of_suffix (h : t :: c.rest <:+ whole) :
    Reader.previous (slice whole c) = some (.ok (.token t) (slice whole c)) := by
  have hlength := h.length_le
  rw [List.length_cons] at hlength
  have hcurrent : (slice whole c).current =
      (whole.length - (c.rest.length + 1)) + 1 := by
    simp only [slice]
    omega
  rw [Reader.previous, hcurrent]
  simp only [entry_of_suffix h]

theorem isAtEnd_cons (hc : c.rest = t :: rest) (h : c.rest <:+ whole) :
    Reader.isAtEnd (slice whole c) = some (.ok false (slice whole c)) :=
  Reader.bind_ok (peek_cons hc h)

theorem check_cons (hc : c.rest = t :: rest) (h : c.rest <:+ whole)
    (kind : Token.Kind → Bool) :
    Reader.check kind (slice whole c) =
      some (.ok (kind t.kind) (slice whole c)) :=
  (Reader.bind_ok (isAtEnd_cons hc h)).trans (Reader.bind_ok (peek_cons hc h))

theorem advance_cons (hc : c.rest = t :: rest) (h : c.rest <:+ whole) :
    Reader.advance (slice whole c) =
      some (.ok (.token t) (slice whole (c.moveTo rest))) := by
  have hlength := h.length_le
  rw [hc, List.length_cons] at hlength
  have hmoved : { slice whole c with current := (slice whole c).current + 1 } =
      slice whole (c.moveTo rest) := by
    simp only [slice, Cursor.moveTo, hc, List.length_cons, Slice.mk.injEq, true_and,
      and_true]
    omega
  have hforward : Reader.forward (slice whole c) =
      some (.ok () (slice whole (c.moveTo rest))) := by
    rw [Reader.forward, hmoved]
  have hprevious : Reader.previous (slice whole (c.moveTo rest)) =
      some (.ok (.token t) (slice whole (c.moveTo rest))) :=
    previous_of_suffix (hc ▸ h)
  exact (Reader.bind_ok (isAtEnd_cons hc h)).trans
    ((Reader.bind_ok hforward).trans hprevious)

/-- At the end the last token is given again, if there is one at all. -/
theorem advance_nil (hc : c.rest = []) (hwhole : whole ≠ []) :
    Reader.advance (slice whole c) =
      some (.ok (.token (whole.getLast hwhole)) (slice whole c)) := by
  have hlast : whole.getLast hwhole :: c.rest <:+ whole := by
    rw [hc]
    exact ⟨whole.dropLast, List.dropLast_concat_getLast hwhole⟩
  exact (Reader.bind_ok (isAtEnd_nil hc)).trans (previous_of_suffix hlast)

theorem accept_cons (hc : c.rest = t :: rest) (h : c.rest <:+ whole)
    (kind : Token.Kind → Bool) :
    Reader.accept kind (slice whole c) =
      some (.ok (kind t.kind)
        (slice whole (if kind t.kind then c.moveTo rest else c))) := by
  refine (Reader.bind_ok (check_cons hc h kind)).trans ?_
  cases kind t.kind with
  | true => exact Reader.bind_ok (advance_cons hc h)
  | false => rfl

theorem expect_cons (hc : c.rest = t :: rest) (h : c.rest <:+ whole)
    {kind : Token.Kind → Bool} (hkind : kind t.kind = true) (f : ParseFault) :
    Reader.expect kind f (slice whole c) =
      some (.ok (.token t) (slice whole (c.moveTo rest))) := by
  refine (Reader.bind_ok (check_cons hc h kind)).trans ?_
  rw [hkind]
  exact advance_cons hc h

theorem isAtEnd_run {c : Cursor} (h : c.rest <:+ whole) :
    Reader.isAtEnd (slice whole c) =
      some (.ok c.rest.isEmpty (slice whole c)) := by
  cases hc : c.rest with
  | nil => exact isAtEnd_nil hc
  | cons t rest => exact isAtEnd_cons hc h

/-! ## Faults -/

/-- There is always an entry under the index, and a fault at it is one at the
cursor. -/
theorem peek_run (h : c.rest <:+ whole) :
    ∃ entry, Reader.peek (slice whole c) = some (.ok entry (slice whole c)) ∧
      ∀ f, entry.fault f = c.fault f := by
  cases hc : c.rest with
  | nil => exact ⟨_, peek_nil hc, fun f => by rw [Cursor.fault, hc]; rfl⟩
  | cons t rest => exact ⟨_, peek_cons hc h, fun f => by rw [Cursor.fault, hc]; rfl⟩

theorem fail_run (h : c.rest <:+ whole) (f : ParseFault) :
    (Reader.fail f : Reader α) (slice whole c) =
      some (.error (c.fault f) (slice whole c)) := by
  obtain ⟨entry, hpeek, hfault⟩ := peek_run h
  rw [← hfault f]
  exact Reader.bind_ok hpeek

/-- No token of some kind comes next. -/
def Lacks (kind : Token.Kind → Bool) (rest : List Token) : Prop :=
  ∀ t rest', rest = t :: rest' → kind t.kind = false

theorem check_lacks (h : c.rest <:+ whole) {kind : Token.Kind → Bool}
    (hkind : Lacks kind c.rest) :
    Reader.check kind (slice whole c) = some (.ok false (slice whole c)) := by
  cases hc : c.rest with
  | nil => exact check_nil hc kind
  | cons t rest => rw [check_cons hc h, hkind t rest hc]

theorem accept_lacks (h : c.rest <:+ whole) {kind : Token.Kind → Bool}
    (hkind : Lacks kind c.rest) :
    Reader.accept kind (slice whole c) = some (.ok false (slice whole c)) :=
  Reader.bind_ok (check_lacks h hkind)

/-- A token that does not come next is a fault. -/
theorem expect_lacks (h : c.rest <:+ whole) {kind : Token.Kind → Bool}
    (hkind : Lacks kind c.rest) (f : ParseFault) :
    Reader.expect kind f (slice whole c) =
      some (.error (c.fault f) (slice whole c)) :=
  (Reader.bind_ok (check_lacks h hkind)).trans (fail_run h f)

theorem lacks_nil (kind : Token.Kind → Bool) : Lacks kind [] :=
  nofun

theorem lacks_symbol {s : Symbol}
    (h : ∀ line rest', rest = ⟨.symbol s, line⟩ :: rest' → False) :
    Lacks (isSymbol s) rest := by
  rintro ⟨kind, line⟩ rest rfl
  cases kind with
  | symbol s' => exact decide_eq_false fun hs => h line rest (by rw [hs])
  | _ => rfl

theorem lacks_name
    (h : ∀ x line rest', rest = ⟨.identifier x, line⟩ :: rest' → False) :
    Lacks isName rest := by
  rintro ⟨kind, line⟩ rest rfl
  cases kind with
  | identifier x => exact (h x line rest rfl).elim
  | _ => rfl

theorem lacks_keyword {k : Keyword}
    (h : ∀ line rest', rest = ⟨.keyword k, line⟩ :: rest' → False) :
    Lacks (isKeyword k) rest := by
  rintro ⟨kind, line⟩ rest rfl
  cases kind with
  | keyword k' => exact decide_eq_false fun hk => h line rest (by rw [hk])
  | _ => rfl

theorem name_cons {x : String} {line : Nat}
    (hc : c.rest = ⟨.identifier x, line⟩ :: rest) (h : c.rest <:+ whole)
    (f : ParseFault) :
    Reader.name f (slice whole c) =
      some (.ok ⟨x, line⟩ (slice whole (c.moveTo rest))) :=
  (Reader.bind_ok (expect_cons hc h rfl f)).trans rfl

theorem name_lacks (h : c.rest <:+ whole) (hkind : Lacks isName c.rest)
    (f : ParseFault) :
    Reader.name f (slice whole c) =
      some (.error (c.fault f) (slice whole c)) :=
  Reader.bind_error (expect_lacks h hkind f)

theorem noteIf_run (h : c.rest <:+ whole) (condition : Bool) (f : ParseFault) :
    Reader.noteIf condition f (slice whole c) =
      some (.ok () (slice whole (c.noteIf condition f))) := by
  cases condition with
  | false => rfl
  | true =>
    obtain ⟨entry, hpeek, hfault⟩ := peek_run h
    rw [Cursor.noteIf, if_pos rfl, ← hfault f]
    exact Reader.bind_ok hpeek

theorem note_run (d : Diagnostic) :
    Reader.note d (slice whole c) = some (.ok () (slice whole (c.note d))) :=
  rfl

theorem freshId_run :
    Reader.freshId (slice whole c) = some (.ok c.nextId (slice whole c.useId)) :=
  rfl

/-! ## A step and what follows -/

section

variable {endLine nextId : Nat} {noted : List Diagnostic}

theorem accept_ite (h : t :: rest <:+ whole) (kind : Token.Kind → Bool)
    (p q : Reader α) :
    (Reader.accept kind >>= fun taken => if taken = true then p else q)
        (slice whole ⟨t :: rest, endLine, nextId, noted⟩) =
      if kind t.kind then p (slice whole ⟨rest, endLine, nextId, noted⟩)
      else q (slice whole ⟨t :: rest, endLine, nextId, noted⟩) := by
  refine (Reader.bind_ok (accept_cons rfl h kind)).trans ?_
  cases kind t.kind <;> rfl

theorem check_ite (h : t :: rest <:+ whole) (kind : Token.Kind → Bool)
    (p q : Reader α) :
    (Reader.check kind >>= fun ahead => if ahead = true then p else q)
        (slice whole ⟨t :: rest, endLine, nextId, noted⟩) =
      if kind t.kind then p (slice whole ⟨t :: rest, endLine, nextId, noted⟩)
      else q (slice whole ⟨t :: rest, endLine, nextId, noted⟩) := by
  refine (Reader.bind_ok (check_cons rfl h kind)).trans ?_
  cases kind t.kind <;> rfl

theorem accept_ite_lacks {kind : Token.Kind → Bool} (h : rest <:+ whole)
    (hkind : Lacks kind rest) (p q : Reader α) :
    (Reader.accept kind >>= fun taken => if taken = true then p else q)
        (slice whole ⟨rest, endLine, nextId, noted⟩) =
      q (slice whole ⟨rest, endLine, nextId, noted⟩) :=
  Reader.ite_false (accept_lacks h hkind)

theorem check_ite_lacks {kind : Token.Kind → Bool} (h : rest <:+ whole)
    (hkind : Lacks kind rest) (p q : Reader α) :
    (Reader.check kind >>= fun ahead => if ahead = true then p else q)
        (slice whole ⟨rest, endLine, nextId, noted⟩) =
      q (slice whole ⟨rest, endLine, nextId, noted⟩) :=
  Reader.ite_false (check_lacks h hkind)

theorem peek_bind (h : t :: rest <:+ whole) (q : Entry → Reader α) :
    (Reader.peek >>= q) (slice whole ⟨t :: rest, endLine, nextId, noted⟩) =
      q (.token t) (slice whole ⟨t :: rest, endLine, nextId, noted⟩) :=
  Reader.bind_ok (peek_cons rfl h)

theorem advance_bind (h : t :: rest <:+ whole) (q : Entry → Reader α) :
    (Reader.advance >>= q) (slice whole ⟨t :: rest, endLine, nextId, noted⟩) =
      q (.token t) (slice whole ⟨rest, endLine, nextId, noted⟩) :=
  Reader.bind_ok (advance_cons rfl h)

theorem previous_bind (h : t :: rest <:+ whole) (q : Entry → Reader α) :
    (Reader.previous >>= q) (slice whole ⟨rest, endLine, nextId, noted⟩) =
      q (.token t) (slice whole ⟨rest, endLine, nextId, noted⟩) :=
  Reader.bind_ok (previous_of_suffix h)

theorem freshId_bind (q : Nat → Reader α) :
    (Reader.freshId >>= q) (slice whole ⟨rest, endLine, nextId, noted⟩) =
      q nextId (slice whole ⟨rest, endLine, nextId + 1, noted⟩) :=
  Reader.bind_ok freshId_run

theorem ofOption_bind (a : β) (q : β → Reader α) (s : Slice) :
    (Reader.ofOption (some a) >>= q) s = q a s :=
  Reader.bind_ok rfl

theorem expect_bind (h : t :: rest <:+ whole) {kind : Token.Kind → Bool}
    (hkind : kind t.kind = true) (f : ParseFault) (q : Entry → Reader α) :
    (Reader.expect kind f >>= q)
        (slice whole ⟨t :: rest, endLine, nextId, noted⟩) =
      q (.token t) (slice whole ⟨rest, endLine, nextId, noted⟩) :=
  Reader.bind_ok (expect_cons rfl h hkind f)

theorem expect_bind_lacks {kind : Token.Kind → Bool} (h : rest <:+ whole)
    (hkind : Lacks kind rest) (f : ParseFault) (q : Entry → Reader α) :
    (Reader.expect kind f >>= q)
        (slice whole ⟨rest, endLine, nextId, noted⟩) =
      some (.error (Cursor.fault ⟨rest, endLine, nextId, noted⟩ f)
        (slice whole ⟨rest, endLine, nextId, noted⟩)) :=
  Reader.bind_error (expect_lacks h hkind f)

theorem name_bind {x : String} {line : Nat}
    (h : ⟨.identifier x, line⟩ :: rest <:+ whole) (f : ParseFault)
    (q : Ident → Reader α) :
    (Reader.name f >>= q)
        (slice whole ⟨⟨.identifier x, line⟩ :: rest, endLine, nextId, noted⟩) =
      q ⟨x, line⟩ (slice whole ⟨rest, endLine, nextId, noted⟩) :=
  Reader.bind_ok (name_cons rfl h f)

theorem name_bind_lacks (h : rest <:+ whole) (hkind : Lacks isName rest)
    (f : ParseFault) (q : Ident → Reader α) :
    (Reader.name f >>= q) (slice whole ⟨rest, endLine, nextId, noted⟩) =
      some (.error (Cursor.fault ⟨rest, endLine, nextId, noted⟩ f)
        (slice whole ⟨rest, endLine, nextId, noted⟩)) :=
  Reader.bind_error (name_lacks h hkind f)

theorem fail_at (h : rest <:+ whole) (f : ParseFault) :
    (Reader.fail f : Reader α) (slice whole ⟨rest, endLine, nextId, noted⟩) =
      some (.error (Cursor.fault ⟨rest, endLine, nextId, noted⟩ f)
        (slice whole ⟨rest, endLine, nextId, noted⟩)) :=
  fail_run h f

theorem noteIf_bind (h : rest <:+ whole) (condition : Bool) (f : ParseFault)
    (q : Unit → Reader α) :
    (Reader.noteIf condition f >>= q)
        (slice whole ⟨rest, endLine, nextId, noted⟩) =
      q () (slice whole
        (Cursor.noteIf ⟨rest, endLine, nextId, noted⟩ condition f)) :=
  Reader.bind_ok (noteIf_run h condition f)

/-- The entry under the index is only looked at. -/
theorem peek_ignored (h : rest <:+ whole) (p : Reader α) :
    (do let _ ← Reader.peek; p : Reader α)
        (slice whole ⟨rest, endLine, nextId, noted⟩) =
      p (slice whole ⟨rest, endLine, nextId, noted⟩) := by
  obtain ⟨entry, hpeek, -⟩ := peek_run (c := ⟨rest, endLine, nextId, noted⟩) h
  exact Reader.bind_ok hpeek

end

/-! ## Mirrors -/

namespace Mirrors

theorem pure (a : α) : Mirrors whole (Pure.pure a) (Pure.pure a) :=
  fun _ h => ⟨h, rfl⟩

theorem bind {p : Reader α} {q : Lox.Reader α} {p' : α → Reader β}
    {q' : α → Lox.Reader β} (h : Mirrors whole p q)
    (h' : ∀ a, Mirrors whole (p' a) (q' a)) :
    Mirrors whole (p >>= p') (q >>= q') := by
  intro c hc
  obtain ⟨hreached, hrun⟩ := h c hc
  have hbind : (q >>= q') c = EStateM.bind q q' c := rfl
  rw [hbind, EStateM.bind]
  cases hq : q c with
  | ok a c' =>
    rw [hq] at hreached hrun
    obtain ⟨hreached', hrun'⟩ := h' a c' hreached
    exact ⟨hreached', (Reader.bind_ok hrun).trans hrun'⟩
  | error d c' =>
    rw [hq] at hreached hrun
    exact ⟨hreached, Reader.bind_error hrun⟩

theorem ite {condition : Prop} [Decidable condition] {p p' : Reader α}
    {q q' : Lox.Reader α} (h : Mirrors whole p q) (h' : Mirrors whole p' q') :
    Mirrors whole (if condition then p else p') (if condition then q else q') := by
  split <;> assumption

end Mirrors

theorem suffix_tail (h : t :: rest <:+ whole) : rest <:+ whole :=
  (List.suffix_cons t rest).trans h

/-- Taking a token of some kind is mirrored whatever the kind. -/
theorem mirrors_accept_of {kind : Token.Kind → Bool} {q : Lox.Reader Bool}
    (hnil : ∀ c, c.rest = [] → q c = .ok false c)
    (hcons : ∀ c t rest, c.rest = t :: rest →
      q c = if kind t.kind then .ok true (c.moveTo rest) else .ok false c) :
    Mirrors whole (Reader.accept kind) q := by
  intro c h
  cases hc : c.rest with
  | nil =>
    rw [hnil c hc]
    exact ⟨h, accept_nil hc kind⟩
  | cons t rest =>
    have hrun := accept_cons hc h kind
    rw [hcons c t rest hc]
    cases hkind : kind t.kind with
    | true =>
      rw [hkind] at hrun
      exact ⟨suffix_tail (hc ▸ h), hrun⟩
    | false =>
      rw [hkind] at hrun
      exact ⟨h, hrun⟩

theorem mirrors_accept (s : Symbol) :
    Mirrors whole (Reader.accept (isSymbol s)) (Lox.Reader.accept s) := by
  refine mirrors_accept_of (fun c hc => by rw [Lox.Reader.accept, hc]) ?_
  rintro c ⟨kind, line⟩ rest hc
  cases kind <;> simp [Lox.Reader.accept, isSymbol, hc]

theorem mirrors_acceptKeyword (k : Keyword) :
    Mirrors whole (Reader.accept (isKeyword k)) (Lox.Reader.acceptKeyword k) := by
  refine mirrors_accept_of (fun c hc => by rw [Lox.Reader.acceptKeyword, hc]) ?_
  rintro c ⟨kind, line⟩ rest hc
  cases kind <;> simp [Lox.Reader.acceptKeyword, isKeyword, hc]

theorem mirrors_ahead (s : Symbol) :
    Mirrors whole (Reader.check (isSymbol s)) (Lox.Reader.ahead s) := by
  rintro ⟨rest, endLine, nextId, noted⟩ h
  cases rest with
  | nil => exact ⟨h, check_nil rfl _⟩
  | cons t rest =>
    obtain ⟨kind, line⟩ := t
    have hrun := check_cons rfl h (isSymbol s)
    cases kind <;> exact ⟨h, hrun⟩

theorem mirrors_consume (s : Symbol) (f : ParseFault) :
    Mirrors whole (Reader.consume s f) (Lox.Reader.expect s f) := by
  rintro ⟨rest, endLine, nextId, noted⟩ h
  have hfail (hrest : Lacks (isSymbol s) rest) :
      Reader.consume s f (slice whole ⟨rest, endLine, nextId, noted⟩) = _ :=
    Reader.bind_error (expect_lacks h hrest f)
  cases rest with
  | nil => exact ⟨h, hfail nofun⟩
  | cons t rest =>
    obtain ⟨kind, line⟩ := t
    cases kind with
    | symbol t =>
      by_cases hs : t = s
      · simp only [Lox.Reader.expect, hs, if_true]
        exact ⟨suffix_tail h, Reader.bind_ok
          (expect_cons rfl h (by simp [isSymbol, hs]) f)⟩
      · simp only [Lox.Reader.expect, hs, if_false]
        exact ⟨h, hfail (by simp [Lacks, isSymbol, hs])⟩
    | _ => exact ⟨h, hfail (by simp [Lacks, isSymbol])⟩

theorem mirrors_name (f : ParseFault) :
    Mirrors whole (Reader.name f) (Lox.Reader.name f) := by
  rintro ⟨rest, endLine, nextId, noted⟩ h
  cases rest with
  | nil => exact ⟨h, name_lacks h (lacks_nil _) f⟩
  | cons t rest =>
    obtain ⟨kind, line⟩ := t
    cases kind with
    | identifier x => exact ⟨suffix_tail h, name_cons rfl h f⟩
    | _ => exact ⟨h, name_lacks h (by simp [Lacks, isName]) f⟩

theorem mirrors_freshId : Mirrors whole Reader.freshId Lox.Reader.freshId :=
  fun _ h => ⟨h, rfl⟩

end

end Lox.Indexed
