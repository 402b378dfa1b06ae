import Lox.Proofs.Token.Bytes

/-!
# A reader of bytes

A source can also be read as bytes, by index.  A `ByteReader` has an index in the
bytes, and one where the entry starts that is being read.  It looks at one byte
at a time, and cuts texts out of the source by their indices.  Where there is no
byte, or an index is not between two characters, it panics, which is modelled by
`none`.  What is skipped is at least one byte (`lt_of_skipped`), so the next
entry is found.
-/

namespace Lox.Token

/-- A reader of bytes on its way through a source. -/
structure ByteReader where
  source : String
  /-- Where the entry that is being read starts. -/
  start : Nat
  /-- Where the next byte is. -/
  place : Nat
  line : Nat

/-- What is read at one place: the kind of a token, or a fault on a line. -/
inductive Found where
  | kind (k : Kind)
  | fault (line : Nat) (cause : LexicalFault)

/-- What is found, without the line of a token. -/
def Item.found : Item → Found
  | token t => .kind t.kind
  | fault line cause => .fault line cause

/-- What the reader gives: a token with the text that it was cut out as, a fault,
or the end of the source. -/
inductive Answer where
  | token (kind : Kind) (lexeme : String) (line : Nat)
  | fault (line : Nat) (cause : LexicalFault)
  | eof (line : Nat)

/-- What is given for an entry. -/
def Entry.answer : Entry → Answer
  | item (.token t) => .token t.kind t.lexeme t.line
  | item (.fault line cause) => .fault line cause
  | eof line => .eof line

/-- The number with a spelling: digits, or digits, a point and digits. -/
def Kind.ofNumeral (spelling : String) : Kind :=
  .number spelling (Number.ofDigits (spelling.toList.takeWhile (· != '.'))
    ((spelling.toList.dropWhile (· != '.')).drop 1))

theorem bne_point_of_isDigit {digits : List Char}
    (h : ∀ d ∈ digits, d.isDigit = true) : ∀ d ∈ digits, (d != '.') = true := by
  refine bne_of_not_mem fun hpoint => ?_
  exact absurd (h '.' hpoint) (by decide)

theorem ofNumeral_whole {digits : List Char}
    (h : ∀ d ∈ digits, d.isDigit = true) :
    Kind.ofNumeral (String.ofList digits) =
      .number (String.ofList digits) (Number.ofDigits digits []) := by
  have hpoint := bne_point_of_isDigit h
  rw [Kind.ofNumeral, String.toList_ofList, List.takeWhile_eq_self_iff.2 hpoint,
    List.dropWhile_eq_nil_iff.2 hpoint, List.drop_nil]

theorem ofNumeral_fraction {digits : List Char}
    (h : ∀ d ∈ digits, d.isDigit = true) (more : List Char) :
    Kind.ofNumeral (String.ofList (digits ++ '.' :: more)) =
      .number (String.ofList (digits ++ '.' :: more))
        (Number.ofDigits digits more) := by
  obtain ⟨htake, hdrop⟩ :=
    span_of_stop (bne_point_of_isDigit h) (show ('.' != '.') = false from rfl)
      more
  rw [Kind.ofNumeral, String.toList_ofList, htake, hdrop]
  rfl

namespace ByteReader

/-- The reader at the start of a source. -/
def new (source : String) : ByteReader :=
  ⟨source, 0, 0, 1⟩

/-- How many bytes the source has. -/
def size (r : ByteReader) : Nat :=
  r.source.utf8ByteSize

/-- The bytes of the source, each as the character with its number. -/
def text (r : ByteReader) : List Char :=
  r.source.toUTF8.data.toList.map Char.ofUInt8

/-- The next byte, or zero at the end. -/
def peek (r : ByteReader) : Char :=
  r.text[r.place]?.getD '\x00'

/-- The byte behind the next one, or zero. -/
def peekNext (r : ByteReader) : Char :=
  r.text[r.place + 1]?.getD '\x00'

/-- Takes a byte.  At the end there is none, and the reader panics. -/
def advance (r : ByteReader) : Option (Char × ByteReader) :=
  r.text[r.place]?.map fun c => (c, { r with place := r.place + 1 })

/-- Takes the byte `c` if it comes next, and says whether it did. -/
def accept (r : ByteReader) (c : Char) : Bool × ByteReader :=
  if r.text[r.place]? = some c then (true, { r with place := r.place + 1 })
  else (false, r)

/-- The text between two places.  The reader panics unless they are in order and
between characters. -/
def slice (r : ByteReader) (first last : Nat) : Option String :=
  if first ≤ last ∧ String.Pos.Raw.IsValid r.source ⟨first⟩ ∧
      String.Pos.Raw.IsValid r.source ⟨last⟩ then
    String.fromUTF8? (r.source.toUTF8.extract first last)
  else none

theorem lt_of_advance {r r' : ByteReader} {c : Char}
    (h : r.advance = some (c, r')) :
    r'.text.length - r'.place < r.text.length - r.place := by
  obtain ⟨c', hc, heq⟩ := Option.map_eq_some_iff.1 h
  have hlt := (List.getElem?_eq_some_iff.1 hc).1
  cases heq
  show r.text.length - (r.place + 1) < _
  omega

/-- Takes bytes as long as they pass a test. -/
def advanceWhile (p : Char → Bool) (r : ByteReader) : Option ByteReader :=
  if p r.peek then
    match _h : r.advance with
    | some (_, r') => advanceWhile p r'
    | none => none
  else some r
termination_by r.text.length - r.place
decreasing_by exact lt_of_advance _h

/-- Takes bytes up to a quote or to the end, and counts the line ends. -/
def toQuote (r : ByteReader) : Option ByteReader :=
  if r.size ≤ r.place ∨ r.peek = '"' then some r
  else
    match _h : r.advance with
    | some (c, r') =>
      toQuote { r' with line := if c == '\n' then r'.line + 1 else r'.line }
    | none => none
termination_by r.text.length - r.place
decreasing_by
  have hlt := lt_of_advance _h
  exact hlt

/-- Goes to the next line end, or to the end of the source. -/
def toLineEnd (r : ByteReader) : ByteReader :=
  match (r.text.drop r.place).findIdx? (· == '\n') with
  | some i => { r with place := r.place + i }
  | none => { r with place := r.size }

/-- A string, from behind its opening quote. -/
def readString (r : ByteReader) : Option (Found × ByteReader) := do
  let r ← r.toQuote
  if r.size ≤ r.place then return (.fault r.line .unterminatedString, r)
  else
    let (_, r) ← r.advance
    let content ← r.slice (r.start + 1) (r.place - 1)
    return (.kind (.string content), r)

/-- A number, from behind its first digit. -/
def readNumber (r : ByteReader) : Option (Found × ByteReader) := do
  let r ← r.advanceWhile Char.isDigit
  let r ←
    if r.peek == '.' && r.peekNext.isDigit then do
      let (_, r) ← r.advance
      r.advanceWhile Char.isDigit
    else some r
  let spelling ← r.slice r.start r.place
  return (.kind (.ofNumeral spelling), r)

/-- An identifier or keyword, from behind its first character. -/
def readWord (r : ByteReader) : Option (Found × ByteReader) := do
  let r ← r.advanceWhile isNamePart
  let word ← r.slice r.start r.place
  return (.kind (.ofWord word), r)

/-- A fault, for which the whole character is stepped over. -/
def skipCharacter (r : ByteReader) : Option (Found × ByteReader) := do
  let rest ← r.slice r.start r.size
  let c := rest.toList.headD '\uFFFD'
  return (.fault r.line (.unexpected c),
    { r with place := r.start + c.utf8Size })

/-- The item that starts with the byte `c`, from behind that byte. -/
def readItem (r : ByteReader) (c : Char) : Option (Found × ByteReader) :=
  match single? c, double? c with
  | some symbol, _ => some (.kind (.symbol symbol), r)
  | none, some (alone, withEqual) =>
    let (equal, r) := r.accept '='
    some (.kind (.symbol (if equal then withEqual else alone)), r)
  | none, none =>
    if c == '"' then r.readString
    else if c.isDigit then r.readNumber
    else if isNameStart c then r.readWord
    else r.skipCharacter

/-- Skips a separator, or reads an item. -/
def readToken (r : ByteReader) : Option (Option Found × ByteReader) := do
  let (c, r) ← r.advance
  if c == '\n' then return (none, { r with line := r.line + 1 })
  else if isBlank c then return (none, r)
  else if c == '/' && (r.accept '/').1 then
    return (none, (r.accept '/').2.toLineEnd)
  else
    let (found, r) ← r.readItem c
    return (some found, r)

theorem text_eq (r : ByteReader) : r.text = codes r.source.toList :=
  codes_toList r.source

theorem length_text (r : ByteReader) : r.text.length = r.size := by
  rw [text_eq, length_codes, bytes_toList, size]

theorem advanceWhile_eq {p : Char → Bool} {r r' : ByteReader} {c : Char}
    (htest : p r.peek = true) (hadvance : r.advance = some (c, r')) :
    r.advanceWhile p = r'.advanceWhile p := by
  rw [advanceWhile, if_pos htest]
  split
  · next hread =>
    rw [hadvance] at hread
    cases hread
    rfl
  · next hread =>
    rw [hadvance] at hread
    cases hread

theorem toQuote_eq {r r' : ByteReader} {c : Char} (hlt : r.place < r.size)
    (hquote : r.peek ≠ '"') (hadvance : r.advance = some (c, r')) :
    r.toQuote = ({ r' with
      line := if c == '\n' then r'.line + 1 else r'.line }).toQuote := by
  rw [toQuote, if_neg (not_or.2 ⟨Nat.not_le.2 hlt, hquote⟩)]
  split
  · next hread =>
    rw [hadvance] at hread
    cases hread
    rfl
  · next hread =>
    rw [hadvance] at hread
    cases hread

/-- A byte that is taken was in the source. -/
theorem accept_eq_true {r : ByteReader} {c : Char} (h : (r.accept c).1 = true) :
    r.text[r.place]? = some c ∧
      (r.accept c).2 = { r with place := r.place + 1 } := by
  unfold accept at h ⊢
  split
  · next hc => exact ⟨hc, rfl⟩
  · next hc => rw [if_neg hc] at h; cases h

theorem le_toLineEnd {r : ByteReader} (h : r.place ≤ r.size) :
    r.place ≤ r.toLineEnd.place := by
  unfold toLineEnd
  split
  · exact Nat.le_add_right _ _
  · exact h

theorem source_toLineEnd (r : ByteReader) : r.toLineEnd.source = r.source := by
  unfold toLineEnd
  split <;> rfl

/-- What is skipped is at least one byte. -/
theorem lt_of_skipped {r r' : ByteReader} (h : r.readToken = some (none, r')) :
    r.place < r'.place ∧ r'.source = r.source := by
  unfold readToken at h
  obtain ⟨⟨c, s⟩, hadvance, h⟩ := Option.bind_eq_some_iff.1 h
  obtain ⟨c', hc, heq⟩ := Option.map_eq_some_iff.1 hadvance
  cases heq
  have hlt := Nat.lt_succ_self r.place
  dsimp only at h
  split at h
  · cases h
    exact ⟨hlt, rfl⟩
  · split at h
    · cases h
      exact ⟨hlt, rfl⟩
    · split at h
      · next hcomment =>
        obtain ⟨hbyte, haccept⟩ :=
          accept_eq_true (Bool.and_eq_true_iff.1 hcomment).2
        have hsize := (List.getElem?_eq_some_iff.1 hbyte).1
        rw [haccept] at h
        cases h
        refine ⟨Nat.lt_of_lt_of_le ?_ (le_toLineEnd ?_), source_toLineEnd _⟩
        · show r.place < r.place + 1 + 1
          omega
        · exact length_text r ▸ hsize
      · obtain ⟨x, -, hx⟩ := Option.bind_eq_some_iff.1 h
        cases hx

/-- The next entry, if there is one, and the reader behind it. -/
def next (r : ByteReader) : Option (Option Answer × ByteReader) :=
  if r.size < r.place then some (none, r)
  else if r.place = r.size then
    some (some (.eof r.line), { r with place := r.place + 1 })
  else
    match _h : ({ r with start := r.place } : ByteReader).readToken with
    | none => none
    | some (none, r') => next r'
    | some (some (.kind k), r') => do
      let lexeme ← r'.slice r'.start r'.place
      return (some (.token k lexeme r'.line), r')
    | some (some (.fault line cause), r') =>
      some (some (.fault line cause), r')
termination_by r.size + 1 - r.place
decreasing_by
  obtain ⟨hlt, hsource⟩ := lt_of_skipped _h
  have hsize : r'.size = r.size := congrArg String.utf8ByteSize hsource
  have hlt : r.place < r'.place := hlt
  omega

/-- Before the end a token is read, and another one if that was skipped. -/
theorem next_eq {r : ByteReader} (hlt : r.place < r.size) :
    r.next = ({ r with start := r.place } : ByteReader).readToken.bind fun
      | (none, r') => r'.next
      | (some (.kind k), r') => (r'.slice r'.start r'.place).map fun lexeme =>
        (some (.token k lexeme r'.line), r')
      | (some (.fault line cause), r') =>
        some (some (.fault line cause), r') := by
  rw [next, if_neg (Nat.lt_asymm hlt), if_neg (Nat.ne_of_lt hlt)]
  split
  · next hread => rw [hread, Option.bind_none]
  · next hread => rw [hread, Option.bind_some]
  · next hread =>
    rw [hread, Option.bind_some]
    exact Option.map_eq_bind.symm
  · next hread => rw [hread, Option.bind_some]

/-- The reader after a number of entries were asked for. -/
def after : Nat → ByteReader → Option ByteReader
  | 0, r => some r
  | n + 1, r => do
    let (_, r) ← r.next
    after n r

end ByteReader

end Lox.Token
