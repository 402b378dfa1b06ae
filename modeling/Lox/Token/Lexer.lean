import Lox.Diagnostic
import Lox.Token

/-!
# From text to tokens

`Token.scan` cuts a text into tokens.  Blanks, line ends and `//` comments
separate tokens and are dropped.  At every other character the longest token
that starts there is taken; a character that starts none, or a quote that is
never closed, becomes a fault, and scanning goes on behind it.

`itemAt` does the work at one place of the text and never gives back more
text than it was given, which is why the scan ends.
-/

namespace Lox.Token

/-- What the lexer finds at one place: a token, or a fault on a line. -/
inductive Item where
  | token (t : Token)
  | fault (line : Nat) (cause : LexicalFault)
  deriving Repr

/-- A whole text as items, with the line on which the text ends. -/
structure Scan where
  items : List Item
  endLine : Nat
  deriving Repr

/-- The item at one place, the text behind it and the line reached there. -/
structure Lexed where
  item : Item
  rest : List Char
  line : Nat

/-! ## Character classes -/

/-- Characters that only separate tokens, the line end aside. -/
def isBlank (c : Char) : Bool :=
  c == ' ' || c == '\r' || c == '\t'

/-- Characters that start an identifier: ASCII letters and `_`. -/
def isNameStart (c : Char) : Bool :=
  c.isAlpha || c == '_'

/-- Characters that continue an identifier. -/
def isNamePart (c : Char) : Bool :=
  c.isAlphanum || c == '_'

/-- The symbol that a character is on its own, whatever follows. -/
def single? : Char → Option Symbol
  | '(' => some .leftParen
  | ')' => some .rightParen
  | '\x7b' => some .leftBrace
  | '\x7d' => some .rightBrace
  | ',' => some .comma
  | '.' => some .dot
  | '-' => some .minus
  | '+' => some .plus
  | ';' => some .semicolon
  | '*' => some .star
  | '/' => some .slash
  | _ => none

/-- The symbols that a character is alone and with `=` behind it. -/
def double? : Char → Option (Symbol × Symbol)
  | '!' => some (.bang, .bangEqual)
  | '=' => some (.equal, .equalEqual)
  | '<' => some (.less, .lessEqual)
  | '>' => some (.greater, .greaterEqual)
  | _ => none

/-- How many line ends a text holds. -/
def lineEnds (text : List Char) : Nat :=
  text.count '\n'

/-! ## One item -/

/-- A string, from behind its opening quote to its closing quote.  Its line
is that of the closing quote. -/
def stringFrom (text : List Char) (line : Nat) : Lexed :=
  let content := text.takeWhile (· != '"')
  let line := line + lineEnds content
  match text.dropWhile (· != '"') with
  | [] => ⟨.fault line .unterminatedString, [], line⟩
  | _ :: rest => ⟨.token ⟨.string (String.ofList content), line⟩, rest, line⟩

/-- A number, whose first digit is already taken.  A point belongs to it only
if a digit follows. -/
def numberFrom (first : Char) (text : List Char) (line : Nat) : Lexed :=
  let whole := first :: text.takeWhile Char.isDigit
  match text.dropWhile Char.isDigit with
  | '.' :: digit :: rest =>
    if digit.isDigit then
      let fraction := digit :: rest.takeWhile Char.isDigit
      let kind := .number (String.ofList (whole ++ '.' :: fraction))
        (Number.ofDigits whole fraction)
      ⟨.token ⟨kind, line⟩, rest.dropWhile Char.isDigit, line⟩
    else
      let kind := .number (String.ofList whole) (Number.ofDigits whole [])
      ⟨.token ⟨kind, line⟩, '.' :: digit :: rest, line⟩
  | rest =>
    let kind := .number (String.ofList whole) (Number.ofDigits whole [])
    ⟨.token ⟨kind, line⟩, rest, line⟩

/-- The kind of a word: a keyword if it is spelled like one. -/
def Kind.ofWord (word : String) : Kind :=
  match Keyword.ofLexeme? word with
  | some reserved => .keyword reserved
  | none => .identifier word

/-- An identifier or keyword, whose first character is already taken. -/
def wordFrom (first : Char) (text : List Char) (line : Nat) : Lexed :=
  let word := String.ofList (first :: text.takeWhile isNamePart)
  ⟨.token ⟨.ofWord word, line⟩, text.dropWhile isNamePart, line⟩

/-- The item that starts with the character `c`, where `text` is what comes
after `c`. -/
def itemAt (c : Char) (text : List Char) (line : Nat) : Lexed :=
  match single? c, double? c with
  | some symbol, _ => ⟨.token ⟨.symbol symbol, line⟩, text, line⟩
  | none, some (alone, withEqual) =>
    match text with
    | '=' :: rest => ⟨.token ⟨.symbol withEqual, line⟩, rest, line⟩
    | _ => ⟨.token ⟨.symbol alone, line⟩, text, line⟩
  | none, none =>
    if c == '"' then stringFrom text line
    else if c.isDigit then numberFrom c text line
    else if isNameStart c then wordFrom c text line
    else ⟨.fault line (.unexpected c), text, line⟩

theorem length_dropWhile_le (p : Char → Bool) (text : List Char) :
    (text.dropWhile p).length ≤ text.length :=
  (List.dropWhile_sublist p).length_le

theorem stringFrom_rest_le (text : List Char) (line : Nat) :
    (stringFrom text line).rest.length ≤ text.length := by
  have h := length_dropWhile_le (· != '"') text
  unfold stringFrom
  split
  · simp
  · next heq => rw [heq] at h; simp at h ⊢; omega

theorem numberFrom_rest_le (first : Char) (text : List Char) (line : Nat) :
    (numberFrom first text line).rest.length ≤ text.length := by
  have h := length_dropWhile_le Char.isDigit text
  unfold numberFrom
  split
  · next digit rest heq =>
    rw [heq] at h
    have h' := length_dropWhile_le Char.isDigit rest
    simp only [List.length_cons] at h
    split <;> simp <;> omega
  · simpa using h

theorem wordFrom_rest_le (first : Char) (text : List Char) (line : Nat) :
    (wordFrom first text line).rest.length ≤ text.length :=
  length_dropWhile_le isNamePart text

/-- No item gives back more text than it was given. -/
theorem itemAt_rest_le (c : Char) (text : List Char) (line : Nat) :
    (itemAt c text line).rest.length ≤ text.length := by
  unfold itemAt
  split
  · simp
  · split <;> simp
  · split
    · exact stringFrom_rest_le text line
    · split
      · exact numberFrom_rest_le c text line
      · split
        · exact wordFrom_rest_le c text line
        · simp

/-! ## The whole text -/

/-- Scans `text` from a line on.  The items found before are kept newest
first. -/
def scanFrom (text : List Char) (line : Nat) (found : List Item) : Scan :=
  match text with
  | [] => ⟨found.reverse, line⟩
  | c :: rest =>
    if c == '\n' then scanFrom rest (line + 1) found
    else if isBlank c then scanFrom rest line found
    else if c == '/' && rest.head? == some '/' then
      scanFrom (rest.dropWhile (· != '\n')) line found
    else
      let lexed := itemAt c rest line
      scanFrom lexed.rest lexed.line (lexed.item :: found)
termination_by text.length
decreasing_by
  · simp
  · simp
  · have := length_dropWhile_le (· != '\n') rest
    simp; omega
  · have := itemAt_rest_le c rest line
    simp; omega

/-- The items of a source text.  Lines count from one. -/
def scan (source : String) : Scan :=
  scanFrom source.toList 1 []

namespace Scan

/-- The tokens of a scan, without its faults. -/
def tokens (s : Scan) : List Token :=
  s.items.filterMap fun
    | .token t => some t
    | .fault _ _ => none

/-- The faults of a scan as diagnostics. -/
def diagnostics (s : Scan) : List Diagnostic :=
  s.items.filterMap fun
    | .token _ => none
    | .fault line cause => some (.lexical line cause)

end Scan

end Lox.Token
