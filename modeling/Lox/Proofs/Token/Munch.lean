import Lox.Token.Lexer
import Mathlib.Data.List.TakeWhile

/-!
# The grammar of tokens

`Spells` says which texts are tokens, and of which kind.  It knows nothing of
where a token stands, so of one text several beginnings may be tokens: `=` and
`==`, or all the beginnings of a name.  The lexer takes the longest of them
(`itemAt_munch`): what the first character is decides what can follow it
(`Spells.tail`), and of that as much is taken as there is.
-/

namespace Lox.Token

/-! ## The grammar -/

/-- The text is made of digits, and of at least one. -/
def Digits (text : List Char) : Prop :=
  text ≠ [] ∧ ∀ c ∈ text, c.isDigit = true

/-- The text is a word: a letter or `_`, and then letters, digits and `_`. -/
def IsWord : List Char → Prop
  | [] => False
  | c :: rest => isNameStart c = true ∧ ∀ d ∈ rest, isNamePart d = true

/-- The text is a token of the kind.  A word is a keyword exactly if it is
spelled like one; a string is all that stands between two quotes; a number is
made of digits, or of digits, a point and digits. -/
inductive Spells : List Char → Kind → Prop where
  | symbol (s : Symbol) : Spells s.lexeme.toList (.symbol s)
  | keyword (k : Keyword) : Spells k.lexeme.toList (.keyword k)
  | identifier {word : List Char} (h : IsWord word)
      (free : ∀ k : Keyword, k.lexeme.toList ≠ word) :
      Spells word (.identifier (String.ofList word))
  | string {content : List Char} (h : '"' ∉ content) :
      Spells ('"' :: (content ++ ['"'])) (.string (String.ofList content))
  | whole {digits : List Char} (h : Digits digits) :
      Spells digits
        (.number (String.ofList digits) (Number.ofDigits digits []))
  | fraction {digits more : List Char} (h : Digits digits)
      (h' : Digits more) :
      Spells (digits ++ '.' :: more)
        (.number (String.ofList (digits ++ '.' :: more))
          (Number.ofDigits digits more))

/-! ## Classes of characters -/

section

variable {c : Char}

theorem isDigit_of_isNameStart (h : isNameStart c = true) :
    c.isDigit = false := by
  refine Bool.eq_false_iff.2 fun hdigit => ?_
  have hle : c.val ≤ '9'.val :=
    of_decide_eq_true (Bool.and_eq_true_iff.1 hdigit).2
  rcases Bool.or_eq_true_iff.1 h with halpha | hline
  · rcases Bool.or_eq_true_iff.1 halpha with hupper | hlower
    · have hge : 'A'.val ≤ c.val := (of_decide_eq_true hupper).1
      exact absurd (UInt32.le_trans hge hle) (by decide)
    · have hge : 'a'.val ≤ c.val :=
        of_decide_eq_true (Bool.and_eq_true_iff.1 hlower).1
      exact absurd (UInt32.le_trans hge hle) (by decide)
  · obtain rfl := eq_of_beq hline
    exact absurd hle (by decide)

/-- The character is not one that starts something else. -/
theorem ne_of_isNameStart (h : isNameStart c = true) {d : Char}
    (hd : isNameStart d = false) : c ≠ d := by
  rintro rfl
  rw [h] at hd
  cases hd

/-- What kind of token a character can start. -/
inductive Start where
  | single
  | double
  | quote
  | digit
  | word
  | none
  deriving DecidableEq

/-- What the first character decides. -/
def startOf (c : Char) : Start :=
  if (single? c).isSome then .single
  else if (double? c).isSome then .double
  else if c == '"' then .quote
  else if c.isDigit then .digit
  else if isNameStart c then .word
  else .none

/-- The characters of the symbols, and the quote. -/
def marks : List Char :=
  ['(', ')', '\x7b', '\x7d', ',', '.', '-', '+', ';', '*', '/', '!', '=', '<',
    '>', '"']

/-- The characters of a class are no marks, if no mark is of the class. -/
theorem not_mem_marks {p : Char → Bool} (hmarks : marks.all (!p ·) = true)
    (h : p c = true) : c ∉ marks := by
  intro hmem
  have hc := List.all_eq_true.1 hmarks c hmem
  rw [h] at hc
  cases hc

theorem not_mem_of_isDigit (h : c.isDigit = true) : c ∉ marks :=
  not_mem_marks (by decide) h

theorem not_mem_of_isNameStart (h : isNameStart c = true) : c ∉ marks :=
  not_mem_marks (by decide) h

/-- Only marks start symbols and strings. -/
theorem starts_of_not_mem (h : c ∉ marks) :
    single? c = none ∧ double? c = none ∧ (c == '"') = false := by
  refine ⟨?_, ?_, beq_false_of_ne ?_⟩
  · unfold single?
    split
    all_goals first | rfl | exact absurd (by decide) h
  · unfold double?
    split
    all_goals first | rfl | exact absurd (by decide) h
  · rintro rfl
    exact h (by decide)

theorem startOf_of_isDigit (h : c.isDigit = true) : startOf c = .digit := by
  obtain ⟨hsingle, hdouble, hquote⟩ := starts_of_not_mem (not_mem_of_isDigit h)
  simp [startOf, hsingle, hdouble, hquote, h]

theorem startOf_of_isNameStart (h : isNameStart c = true) :
    startOf c = .word := by
  obtain ⟨hsingle, hdouble, hquote⟩ :=
    starts_of_not_mem (not_mem_of_isNameStart h)
  simp [startOf, hsingle, hdouble, hquote, isDigit_of_isNameStart h, h]

theorem itemAt_of_isDigit (h : c.isDigit = true) (text : List Char)
    (line : Nat) : itemAt c text line = numberFrom c text line := by
  obtain ⟨hsingle, hdouble, hquote⟩ := starts_of_not_mem (not_mem_of_isDigit h)
  simp [itemAt, hsingle, hdouble, hquote, h]

theorem itemAt_of_isNameStart (h : isNameStart c = true) (text : List Char)
    (line : Nat) : itemAt c text line = wordFrom c text line := by
  obtain ⟨hsingle, hdouble, hquote⟩ :=
    starts_of_not_mem (not_mem_of_isNameStart h)
  simp [itemAt, hsingle, hdouble, hquote, isDigit_of_isNameStart h, h]

end

/-! ## What follows the first character -/

/-- What can follow the first character of a token. -/
def Follows : Start → List Char → Prop
  | .single, tail => tail = []
  | .double, tail => tail = [] ∨ tail = ['=']
  | .quote, tail => ∃ content, '"' ∉ content ∧ tail = content ++ ['"']
  | .digit, tail => ∃ whole, (∀ d ∈ whole, d.isDigit = true) ∧
      (tail = whole ∨ ∃ more, Digits more ∧ tail = whole ++ '.' :: more)
  | .word, tail => ∀ d ∈ tail, isNamePart d = true
  | .none, _ => False

theorem isWord_keyword (k : Keyword) : IsWord k.lexeme.toList := by
  cases k <;> exact ⟨by decide, List.all_eq_true.1 (by decide)⟩

theorem follows_of_isWord {word : List Char} (h : IsWord word) :
    ∃ c tail, word = c :: tail ∧ Follows (startOf c) tail := by
  cases word with
  | nil => exact h.elim
  | cons c tail =>
    refine ⟨c, tail, rfl, ?_⟩
    rw [startOf_of_isNameStart h.1]
    exact h.2

/-- The first character of a token decides what follows it. -/
theorem Spells.tail {text : List Char} {kind : Kind} (h : Spells text kind) :
    ∃ c tail, text = c :: tail ∧ Follows (startOf c) tail := by
  cases h with
  | symbol s =>
    cases s with
    | bangEqual | equalEqual | greaterEqual | lessEqual =>
      exact ⟨_, ['='], rfl, .inr rfl⟩
    | bang | equal | greater | less => exact ⟨_, [], rfl, .inl rfl⟩
    | _ => exact ⟨_, [], rfl, rfl⟩
  | keyword k => exact follows_of_isWord (isWord_keyword k)
  | identifier h => exact follows_of_isWord h
  | @string content h => exact ⟨'"', _, rfl, content, h, rfl⟩
  | whole h =>
    obtain ⟨c, tail, rfl⟩ := List.exists_cons_of_ne_nil h.1
    refine ⟨c, tail, rfl, ?_⟩
    rw [startOf_of_isDigit (h.2 c List.mem_cons_self)]
    exact ⟨tail, fun d hd => h.2 d (List.mem_cons_of_mem _ hd), .inl rfl⟩
  | @fraction digits more h h' =>
    obtain ⟨c, tail, rfl⟩ := List.exists_cons_of_ne_nil h.1
    refine ⟨c, tail ++ '.' :: more, rfl, ?_⟩
    rw [startOf_of_isDigit (h.2 c List.mem_cons_self)]
    exact ⟨tail, fun d hd => h.2 d (List.mem_cons_of_mem _ hd),
      .inr ⟨more, h', rfl⟩⟩

/-! ## The longest token -/

/-- The text is a token of the kind, and no longer beginning of what is there
is a token. -/
structure Longest (taken rest : List Char) (kind : Kind) : Prop where
  spells : Spells taken kind
  longest : ∀ text other, text <+: taken ++ rest → Spells text other →
    text.length ≤ taken.length

/-- What an item makes of the text it takes: the longest token there, one
character that starts no token, or all from a quote that is never closed. -/
def Item.Takes (taken rest : List Char) : Item → Prop
  | .token t => t.lexeme.toList = taken ∧ Longest taken rest t.kind
  | .fault _ (.unexpected c) =>
    taken = [c] ∧ ∀ tail kind, ¬ Spells (c :: tail) kind
  | .fault _ .unterminatedString =>
    ∃ content, '"' ∉ content ∧ taken = '"' :: content ∧ rest = []

/-- What the lexer finds at a place takes the text from there up to what it
leaves. -/
def Lexed.Munches (text : List Char) (lexed : Lexed) : Prop :=
  ∃ taken, text = taken ++ lexed.rest ∧ taken ≠ [] ∧
    lexed.item.Takes taken lexed.rest

/-- To be the longest is to be as long as all that can follow the first
character. -/
theorem longest_of_follows {c : Char} {taken rest : List Char} {kind : Kind}
    (hspells : Spells (c :: taken) kind)
    (h : ∀ tail, tail <+: taken ++ rest → Follows (startOf c) tail →
      tail.length ≤ taken.length) : Longest (c :: taken) rest kind := by
  refine ⟨hspells, fun text other hbegins hother => ?_⟩
  obtain ⟨d, tail, rfl, hfollows⟩ := hother.tail
  obtain ⟨rfl, htail⟩ := List.cons_prefix_cons.1 hbegins
  have := h tail htail hfollows
  simp only [List.length_cons]
  omega

theorem length_le_takeWhile {p : Char → Bool} {front text : List Char}
    (h : front <+: text) (hp : ∀ c ∈ front, p c = true) :
    front.length ≤ (text.takeWhile p).length := by
  obtain ⟨rest, rfl⟩ := h
  rw [List.takeWhile_append_of_pos hp, List.length_append]
  omega

/-- A text is cut where a character first stands. -/
theorem span_of_stop {p : Char → Bool} {front : List Char} {c : Char}
    (hfront : ∀ d ∈ front, p d = true) (hc : p c = false) (rest : List Char) :
    (front ++ c :: rest).takeWhile p = front ∧
      (front ++ c :: rest).dropWhile p = c :: rest := by
  rw [List.takeWhile_append_of_pos hfront, List.dropWhile_append_of_pos hfront]
  simp [hc]

theorem bne_of_not_mem {c : Char} {text : List Char} (h : c ∉ text) :
    ∀ d ∈ text, (d != c) = true := by
  intro d hd
  have hne : d ≠ c := by
    rintro rfl
    exact h hd
  simp [hne]

/-! ### Symbols -/

theorem toList_single {c : Char} {s : Symbol} (h : single? c = some s) :
    s.lexeme.toList = [c] := by
  unfold single? at h
  split at h <;> cases h <;> rfl

theorem toList_double {c : Char} {alone withEqual : Symbol}
    (h : double? c = some (alone, withEqual)) :
    alone.lexeme.toList = [c] ∧ withEqual.lexeme.toList = [c, '='] := by
  unfold double? at h
  split at h <;> cases h <;> exact ⟨rfl, rfl⟩

theorem munches_single {c : Char} {s : Symbol} (h : single? c = some s)
    (text : List Char) (line : Nat) :
    Lexed.Munches (c :: text) ⟨.token ⟨.symbol s, line⟩, text, line⟩ := by
  have hstart : startOf c = .single := by simp [startOf, h]
  have hlexeme := toList_single h
  have hspells : Spells [c] (.symbol s) := hlexeme ▸ .symbol s
  refine ⟨[c], rfl, by simp, hlexeme, longest_of_follows hspells ?_⟩
  intro tail _ hfollows
  rw [hstart] at hfollows
  obtain rfl : tail = [] := hfollows
  exact Nat.le_refl _

theorem munches_double {c : Char} {alone withEqual : Symbol}
    (hsingle : single? c = none) (h : double? c = some (alone, withEqual))
    (text : List Char) (line : Nat) :
    Lexed.Munches (c :: text) (match text with
      | '=' :: rest => ⟨.token ⟨.symbol withEqual, line⟩, rest, line⟩
      | _ => ⟨.token ⟨.symbol alone, line⟩, text, line⟩) := by
  have hstart : startOf c = .double := by simp [startOf, hsingle, h]
  obtain ⟨halone, hwith⟩ := toList_double h
  split
  · next rest =>
    have hspells : Spells [c, '='] (.symbol withEqual) := hwith ▸ .symbol _
    refine ⟨[c, '='], rfl, by simp, hwith, longest_of_follows hspells ?_⟩
    intro tail _ hfollows
    rw [hstart] at hfollows
    rcases hfollows with rfl | rfl <;> simp
  · next hnot =>
    have hspells : Spells [c] (.symbol alone) := halone ▸ .symbol _
    refine ⟨[c], rfl, by simp, halone, longest_of_follows hspells ?_⟩
    intro tail hbegins hfollows
    rw [hstart] at hfollows
    rcases hfollows with rfl | rfl
    · simp
    · obtain ⟨rest, hrest⟩ := hbegins
      exact absurd hrest.symm (hnot rest)

/-! ### Strings -/

theorem munches_string (text : List Char) (line : Nat) :
    Lexed.Munches ('"' :: text) (stringFrom text line) := by
  by_cases hclosed : '"' ∈ text
  · obtain ⟨content, rest, rfl, hcontent⟩ := List.eq_append_cons_of_mem hclosed
    have hspan {content : List Char} (h : '"' ∉ content) :=
      span_of_stop (bne_of_not_mem h) (show ('"' != '"') = false from rfl)
    have hspells : Spells ('"' :: (content ++ ['"']))
        (.string (String.ofList content)) := .string hcontent
    have hlexeme : (Kind.string (String.ofList content)).lexeme.toList =
        '"' :: (content ++ ['"']) := by
      simp [Kind.lexeme]
    simp only [stringFrom, (hspan hcontent rest).1, (hspan hcontent rest).2]
    refine ⟨'"' :: (content ++ ['"']), by simp, by simp, hlexeme,
      longest_of_follows hspells ?_⟩
    rintro _ ⟨more, hmore⟩ ⟨other, hother, rfl⟩
    -- Both texts end with the first quote.
    have hsame : other = content := by
      simp only [List.append_assoc, List.cons_append, List.nil_append] at hmore
      rw [← (hspan hother more).1, hmore, (hspan hcontent rest).1]
    exact Nat.le_of_eq (by rw [hsame])
  · have hall := bne_of_not_mem hclosed
    have hopen : stringFrom text line = ⟨.fault (line + lineEnds text)
        .unterminatedString, [], line + lineEnds text⟩ := by
      simp only [stringFrom, List.takeWhile_eq_self_iff.2 hall,
        List.dropWhile_eq_nil_iff.2 hall]
    rw [hopen]
    exact ⟨'"' :: text, by simp, by simp, text, hclosed, rfl, rfl⟩

/-! ### Numbers and words -/

theorem mem_takeWhile {p : Char → Bool} {text : List Char} {c : Char}
    (h : c ∈ text.takeWhile p) : p c = true :=
  List.all_eq_true.1 List.all_takeWhile c h

theorem digits_cons {c : Char} (h : c.isDigit = true) (text : List Char) :
    Digits (c :: text.takeWhile Char.isDigit) := by
  refine ⟨by simp, fun d hd => ?_⟩
  rcases List.mem_cons.1 hd with rfl | hd
  · exact h
  · exact mem_takeWhile hd

/-- What follows the first digit of a number goes no further than the digits,
or the text has a point behind them and another digit. -/
theorem length_le_of_digits {text tail : List Char} (hbegins : tail <+: text)
    (h : Follows .digit tail) :
    tail.length ≤ (text.takeWhile Char.isDigit).length ∨
      ∃ d more rest, d.isDigit = true ∧ (∀ e ∈ more, e.isDigit = true) ∧
        text.dropWhile Char.isDigit = '.' :: d :: (more ++ rest) ∧
        tail.length =
          (text.takeWhile Char.isDigit).length + (more.length + 2) := by
  obtain ⟨whole, hwhole, rfl | ⟨digits, hdigits, rfl⟩⟩ := h
  · exact .inl (length_le_takeWhile hbegins hwhole)
  · obtain ⟨rest, rfl⟩ := hbegins
    obtain ⟨d, more, rfl⟩ := List.exists_cons_of_ne_nil hdigits.1
    have hspan := span_of_stop hwhole (show Char.isDigit '.' = false by decide)
      (d :: (more ++ rest))
    refine .inr ⟨d, more, rest, hdigits.2 d List.mem_cons_self,
      fun e he => hdigits.2 e (List.mem_cons_of_mem _ he), ?_, ?_⟩
    · simpa using hspan.2
    · have htake : ((whole ++ '.' :: d :: more) ++ rest).takeWhile
          Char.isDigit = whole := by
        simpa using hspan.1
      rw [htake]
      simp

/-- A number without a fraction, if no point and digit come behind it. -/
theorem munches_whole {c : Char} (h : c.isDigit = true) {text : List Char}
    (hnone : ∀ d rest, text.dropWhile Char.isDigit = '.' :: d :: rest →
      d.isDigit = false) (line : Nat) :
    let whole := c :: text.takeWhile Char.isDigit
    Lexed.Munches (c :: text) ⟨.token ⟨.number (String.ofList whole)
      (Number.ofDigits whole []), line⟩, text.dropWhile Char.isDigit, line⟩ := by
  intro whole
  refine ⟨whole, by simp [whole], by simp [whole], String.toList_ofList,
    longest_of_follows (.whole (digits_cons h text)) ?_⟩
  intro tail hbegins hfollows
  rw [startOf_of_isDigit h] at hfollows
  rw [List.takeWhile_append_dropWhile] at hbegins
  rcases length_le_of_digits hbegins hfollows with hle | hmore
  · exact hle
  · obtain ⟨d, more, rest, hd, -, hdrop, -⟩ := hmore
    rw [hnone d _ hdrop] at hd
    cases hd

/-- A number with a fraction. -/
theorem munches_fraction {c digit : Char} (h : c.isDigit = true)
    {text rest : List Char}
    (hdrop : text.dropWhile Char.isDigit = '.' :: digit :: rest)
    (hdigit : digit.isDigit = true) (line : Nat) :
    let whole := c :: text.takeWhile Char.isDigit
    let fraction := digit :: rest.takeWhile Char.isDigit
    Lexed.Munches (c :: text) ⟨.token ⟨.number
      (String.ofList (whole ++ '.' :: fraction))
      (Number.ofDigits whole fraction), line⟩, rest.dropWhile Char.isDigit,
      line⟩ := by
  intro whole fraction
  have htext : text.takeWhile Char.isDigit ++ '.' :: fraction ++
      rest.dropWhile Char.isDigit = text := by
    have hsplit := List.takeWhile_append_dropWhile (p := Char.isDigit) (l := text)
    rw [hdrop] at hsplit
    simp only [fraction, List.append_assoc, List.cons_append,
      List.takeWhile_append_dropWhile]
    exact hsplit
  have hspells := Spells.fraction (digits_cons h text) (digits_cons hdigit rest)
  refine ⟨whole ++ '.' :: fraction, ?_, by simp [whole],
    String.toList_ofList, longest_of_follows hspells ?_⟩
  · simp only [whole, List.cons_append, htext]
  · intro tail hbegins hfollows
    rw [startOf_of_isDigit h] at hfollows
    replace hbegins : tail <+: text := htext ▸ hbegins
    show tail.length ≤ (text.takeWhile Char.isDigit ++ '.' :: fraction).length
    simp only [fraction, List.length_append, List.length_cons]
    rcases length_le_of_digits hbegins hfollows with hle | hmore
    · omega
    · obtain ⟨d, more, rest', -, hdigits, hdrop', hlength⟩ := hmore
      rw [hdrop] at hdrop'
      obtain ⟨-, rfl⟩ : digit = d ∧ rest = more ++ rest' := by
        simpa using hdrop'
      have := length_le_takeWhile (List.prefix_append more rest') hdigits
      omega

theorem munches_number {c : Char} (h : c.isDigit = true) (text : List Char)
    (line : Nat) : Lexed.Munches (c :: text) (numberFrom c text line) := by
  unfold numberFrom
  split
  · next digit rest hdrop =>
    split
    · next hdigit => exact munches_fraction h hdrop hdigit line
    · next hdigit =>
      rw [← hdrop]
      refine munches_whole h ?_ line
      intro d more hmore
      rw [hdrop] at hmore
      cases hmore
      simpa using hdigit
  · next hnot =>
    refine munches_whole h ?_ line
    intro d more hmore
    exact absurd hmore (hnot d more)

/-- A word is spelled as its kind says. -/
theorem spells_ofWord {word : List Char} (h : IsWord word) :
    Spells word (.ofWord (String.ofList word)) ∧
      (Kind.ofWord (String.ofList word)).lexeme.toList = word := by
  unfold Kind.ofWord
  cases hfind : Keyword.ofLexeme? (String.ofList word) with
  | some k =>
    have hlexeme : k.lexeme = String.ofList word := by
      simpa using List.find?_some hfind
    have hword : k.lexeme.toList = word := by rw [hlexeme, String.toList_ofList]
    exact ⟨hword ▸ .keyword k, hword⟩
  | none =>
    refine ⟨.identifier h fun k hk => ?_, String.toList_ofList⟩
    have hmem : k ∈ Keyword.all := by cases k <;> decide
    have hnot := List.find?_eq_none.1 hfind k hmem
    rw [← hk] at hnot
    simp at hnot

theorem munches_word {c : Char} (h : isNameStart c = true) (text : List Char)
    (line : Nat) : Lexed.Munches (c :: text) (wordFrom c text line) := by
  have hword : IsWord (c :: text.takeWhile isNamePart) :=
    ⟨h, fun d hd => mem_takeWhile hd⟩
  obtain ⟨hspells, hlexeme⟩ := spells_ofWord hword
  refine ⟨c :: text.takeWhile isNamePart, ?_, by simp, hlexeme,
    longest_of_follows hspells ?_⟩
  · simp only [wordFrom, List.cons_append, List.takeWhile_append_dropWhile]
  · intro tail hbegins hfollows
    rw [startOf_of_isNameStart h] at hfollows
    simp only [wordFrom, List.takeWhile_append_dropWhile] at hbegins
    exact length_le_takeWhile hbegins hfollows

/-! ## One item -/

/-- The lexer takes the longest token; where there is none it takes one
character, or all the text if that starts with a quote. -/
theorem itemAt_munch (c : Char) (text : List Char) (line : Nat) :
    Lexed.Munches (c :: text) (itemAt c text line) := by
  unfold itemAt
  split
  · next s hsingle => exact munches_single hsingle text line
  · next hsingle hdouble => exact munches_double hsingle hdouble text line
  · next hsingle hdouble =>
    split
    · next hquote =>
      obtain rfl := eq_of_beq hquote
      exact munches_string text line
    · next hquote =>
      split
      · next hdigit => exact munches_number hdigit text line
      · next hdigit =>
        split
        · next hname => exact munches_word hname text line
        · next hname =>
          have hstart : startOf c = .none := by
            simp [startOf, hsingle, hdouble, hquote, hdigit, hname]
          refine ⟨[c], rfl, by simp, rfl, fun tail kind hspells => ?_⟩
          obtain ⟨d, tail', heq, hfollows⟩ := hspells.tail
          cases heq
          rw [hstart] at hfollows
          exact hfollows

end Lox.Token
