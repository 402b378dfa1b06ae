import Lox.Proofs.Token.Iteration
import Lox.Proofs.Token.Rewording

/-!
# What stands between tokens

Blanks, line ends and comments keep tokens apart and mean nothing else.  A text
is spaced if it spells some tokens and has blanks or line ends behind each of
them, and comments after these (`Spaced`); whatever the separators are, it is
scanned as those tokens and without faults (`scan_spaced`).

A token is read behind which another character stood in its source.  That it is
read before a blank as well is shown for each form of its spelling
(`Spells.itemAt`).
-/

namespace Lox.Token

/-! ## Where a token ends -/

/-- The characters that only separate. -/
def separators : List Char := [' ', '\r', '\t', '\n']

/-- No token goes on here: the text is at its end, or a separator comes
first. -/
def Apart (text : List Char) : Prop :=
  ∀ c ∈ text.head?, c ∈ separators

theorem apart_cons {c : Char} (h : c ∈ separators) (text : List Char) :
    Apart (c :: text) := by
  rintro d ⟨⟩
  exact h

theorem apart_nil : Apart [] := by
  rintro d ⟨⟩

section

variable {text : List Char}

theorem Apart.stops (h : Apart text) {p : Char → Bool}
    (hp : separators.all (!p ·) = true) : Stops p text := by
  intro c hc
  simpa using List.all_eq_true.1 hp c (h c hc)

theorem Apart.head?_ne (h : Apart text) {c : Char} (hc : c ∉ separators) :
    text.head? ≠ some c :=
  fun hhead => hc (h c hhead)

theorem Apart.noFraction (h : Apart text) : NoFraction text := by
  unfold NoFraction
  split
  · exact absurd rfl (h.head?_ne (by decide))
  · trivial

end

/-! ## Each token on its own -/

section

variable {rest : List Char}

/-- A symbol that could be longer, and is not. -/
theorem itemAt_alone {c : Char} {alone withEqual : Symbol}
    (hsingle : single? c = none) (hdouble : double? c = some (alone, withEqual))
    (h : Apart rest) (line : Nat) :
    itemAt c rest line = ⟨.token ⟨.symbol alone, line⟩, rest, line⟩ := by
  simp only [itemAt, hsingle, hdouble]
  split
  · exact absurd rfl (h.head?_ne (by decide))
  · rfl

theorem itemAt_symbol (s : Symbol) (h : Apart rest) (line : Nat) :
    ∃ c tail, s.lexeme.toList = c :: tail ∧
      itemAt c (tail ++ rest) line = ⟨.token ⟨.symbol s, line⟩, rest, line⟩ := by
  cases s with
  | bang | equal | greater | less =>
    exact ⟨_, [], rfl, itemAt_alone rfl rfl h line⟩
  | _ => exact ⟨_, _, rfl, rfl⟩

theorem itemAt_word {word : List Char} (hword : IsWord word) (h : Apart rest)
    (line : Nat) :
    ∃ c tail, word = c :: tail ∧ itemAt c (tail ++ rest) line =
      ⟨.token ⟨.ofWord (String.ofList word), line⟩, rest, line⟩ := by
  cases word with
  | nil => exact hword.elim
  | cons c tail =>
    obtain ⟨htake, hdrop⟩ :=
      takeWhile_of_stops hword.2 (h.stops (p := isNamePart) (by decide))
    refine ⟨c, tail, rfl, ?_⟩
    simp only [itemAt_of_isNameStart hword.1, wordFrom, htake, hdrop]

theorem ofWord_keyword (k : Keyword) : Kind.ofWord k.lexeme = .keyword k := by
  cases k <;> rfl

theorem ofWord_free {word : List Char}
    (free : ∀ k : Keyword, k.lexeme.toList ≠ word) :
    Kind.ofWord (String.ofList word) = .identifier (String.ofList word) := by
  have hnone : Keyword.ofLexeme? (String.ofList word) = none := by
    refine List.find?_eq_none.2 fun k _ hk => free k ?_
    rw [eq_of_beq hk, String.toList_ofList]
  rw [Kind.ofWord, hnone]

theorem itemAt_string {content : List Char} (hcontent : '"' ∉ content)
    (rest : List Char) (line : Nat) :
    itemAt '"' (content ++ ['"'] ++ rest) line =
      ⟨.token ⟨.string (String.ofList content), line + lineEnds content⟩, rest,
        line + lineEnds content⟩ := by
  obtain ⟨htake, hdrop⟩ := span_of_stop (bne_of_not_mem hcontent)
    (show ('"' != '"') = false from rfl) rest
  show stringFrom (content ++ ['"'] ++ rest) line = _
  simp only [List.append_assoc, List.singleton_append, stringFrom, htake, hdrop]

theorem itemAt_whole {digits : List Char} (hdigits : Digits digits)
    (h : Apart rest) (line : Nat) :
    ∃ c tail, digits = c :: tail ∧ itemAt c (tail ++ rest) line =
      ⟨.token ⟨.number (String.ofList digits) (Number.ofDigits digits []), line⟩,
        rest, line⟩ := by
  obtain ⟨c, tail, rfl⟩ := List.exists_cons_of_ne_nil hdigits.1
  obtain ⟨hc, htail⟩ := List.forall_mem_cons.1 hdigits.2
  refine ⟨c, tail, rfl, ?_⟩
  rw [itemAt_of_isDigit hc]
  exact numberFrom_whole htail (h.stops (by decide)) h.noFraction

theorem itemAt_fraction {digits more : List Char} (hdigits : Digits digits)
    (hmore : Digits more) (h : Apart rest) (line : Nat) :
    ∃ c tail, digits ++ '.' :: more = c :: tail ∧
      itemAt c (tail ++ rest) line =
        ⟨.token ⟨.number (String.ofList (digits ++ '.' :: more))
          (Number.ofDigits digits more), line⟩, rest, line⟩ := by
  obtain ⟨c, tail, rfl⟩ := List.exists_cons_of_ne_nil hdigits.1
  obtain ⟨d, fraction, rfl⟩ := List.exists_cons_of_ne_nil hmore.1
  obtain ⟨hc, htail⟩ := List.forall_mem_cons.1 hdigits.2
  obtain ⟨hd, hfraction⟩ := List.forall_mem_cons.1 hmore.2
  refine ⟨c, tail ++ '.' :: d :: fraction, rfl, ?_⟩
  rw [itemAt_of_isDigit hc]
  exact numberFrom_fraction htail hd hfraction (h.stops (by decide))

/-- A token is read as itself where no token goes on behind it. -/
theorem Spells.itemAt {text : List Char} {kind : Kind} (h : Spells text kind)
    (hrest : Apart rest) (line : Nat) :
    ∃ c tail line', text = c :: tail ∧ Token.itemAt c (tail ++ rest) line =
      ⟨.token ⟨kind, line'⟩, rest, line'⟩ := by
  cases h with
  | symbol s =>
    obtain ⟨c, tail, htext, hitem⟩ := itemAt_symbol s hrest line
    exact ⟨c, tail, line, htext, hitem⟩
  | keyword k =>
    obtain ⟨c, tail, htext, hitem⟩ :=
      itemAt_word (isWord_keyword k) hrest line
    rw [String.ofList_toList, ofWord_keyword] at hitem
    exact ⟨c, tail, line, htext, hitem⟩
  | identifier hword free =>
    obtain ⟨c, tail, htext, hitem⟩ := itemAt_word hword hrest line
    rw [ofWord_free free] at hitem
    exact ⟨c, tail, line, htext, hitem⟩
  | string hcontent => exact ⟨_, _, _, rfl, itemAt_string hcontent rest line⟩
  | whole hdigits =>
    obtain ⟨c, tail, htext, hitem⟩ := itemAt_whole hdigits hrest line
    exact ⟨c, tail, line, htext, hitem⟩
  | fraction hdigits hmore =>
    obtain ⟨c, tail, htext, hitem⟩ := itemAt_fraction hdigits hmore hrest line
    exact ⟨c, tail, line, htext, hitem⟩

/-- No separator is read where a token starts. -/
theorem Spells.atItem {c : Char} {tail : List Char} {kind : Kind}
    (h : Spells (c :: tail) kind) (hrest : Apart rest) :
    AtItem c (tail ++ rest) := by
  obtain ⟨d, tail', heq, hfollows⟩ := h.tail
  obtain ⟨rfl, rfl⟩ := List.cons.inj heq
  have hseparator : c ∉ separators := by
    intro hmem
    have hnone : startOf c = .none := by
      have hall : separators.all (startOf · = .none) = true := by decide
      simpa using List.all_eq_true.1 hall c hmem
    rw [hnone] at hfollows
    exact hfollows
  refine ⟨beq_false_of_ne fun hc => hseparator (by simp [hc, separators]), ?_, ?_⟩
  · refine Bool.eq_false_iff.2 fun hblank => hseparator ?_
    simp only [isBlank, Bool.or_eq_true, beq_iff_eq] at hblank
    rcases hblank with (rfl | rfl) | rfl <;> decide
  · refine Bool.eq_false_iff.2 fun hcomment => ?_
    simp only [Bool.and_eq_true, beq_iff_eq] at hcomment
    obtain ⟨rfl, hhead⟩ := hcomment
    have hslash : startOf '/' = .single := by decide
    rw [hslash] at hfollows
    obtain rfl : tail = [] := hfollows
    exact hrest.head?_ne (by decide) hhead

end

/-! ## Spaced texts -/

/-- The text is made of tokens of the kinds, with separators between them and
around them.  Behind a token comes a blank or a line end first, and behind a
comment a line end. -/
inductive Spaced : List Kind → List Char → Prop where
  | nil : Spaced [] []
  | separator {c : Char} {kinds : List Kind} {text : List Char}
      (h : c ∈ separators) (more : Spaced kinds text) :
      Spaced kinds (c :: text)
  | comment {comment : List Char} {kinds : List Kind} {text : List Char}
      (h : '\n' ∉ comment) (ends : Stops (· != '\n') text)
      (more : Spaced kinds text) :
      Spaced kinds ('/' :: '/' :: (comment ++ text))
  | token {lexeme : List Char} {kind : Kind} {kinds : List Kind}
      {text : List Char} (spells : Spells lexeme kind) (apart : Apart text)
      (more : Spaced kinds text) : Spaced (kind :: kinds) (lexeme ++ text)

theorem scanFrom_separator {c : Char} (h : c ∈ separators) (rest : List Char)
    (line : Nat) :
    ∃ line', scanFrom (c :: rest) line [] = scanFrom rest line' [] := by
  by_cases hline : c = '\n'
  · subst hline
    exact ⟨line + 1, scanFrom_lineEnd rest line⟩
  · have hblank : isBlank c = true := by
      simp only [separators, List.mem_cons, List.not_mem_nil, or_false] at h
      rcases h with rfl | rfl | rfl | rfl
      · decide
      · decide
      · decide
      · exact absurd rfl hline
    exact ⟨line, scanFrom_blank (beq_false_of_ne hline) hblank rest line⟩

/-- From any line on, a spaced text is scanned as its tokens. -/
theorem scanFrom_spaced {kinds : List Kind} {text : List Char}
    (h : Spaced kinds text) (line : Nat) :
    ∃ tokens : List Token, (scanFrom text line []).items = tokens.map .token ∧
      tokens.map Token.kind = kinds := by
  induction h generalizing line with
  | nil => exact ⟨[], by simp [scanFrom], rfl⟩
  | separator hc _ ih =>
    obtain ⟨line', hscan⟩ := scanFrom_separator hc _ line
    rw [hscan]
    exact ih line'
  | comment hcomment ends _ ih =>
    rw [scanFrom_comment (bne_of_not_mem hcomment) ends]
    exact ih line
  | token spells apart _ ih =>
    obtain ⟨c, tail, line', rfl, hitem⟩ := spells.itemAt apart line
    obtain ⟨tokens, hitems, hkinds⟩ := ih line'
    refine ⟨⟨_, line'⟩ :: tokens, ?_, by rw [List.map_cons, hkinds]⟩
    rw [List.cons_append, scanFrom_item (spells.atItem apart), hitem]
    exact congrArg (_ :: ·) hitems

/-- A spaced text is scanned as its tokens, whatever separates them. -/
theorem scan_spaced {kinds : List Kind} {source : String}
    (h : Spaced kinds source.toList) :
    (scan source).diagnostics = [] ∧
      (scan source).tokens.map Token.kind = kinds := by
  obtain ⟨tokens, hitems, hkinds⟩ := scanFrom_spaced h 1
  rw [Scan.diagnostics, Scan.tokens, scan, hitems]
  exact ⟨by simp, by simpa using hkinds⟩

/-- What has been scanned as a token is spelled like one. -/
theorem spells_of_scan {source : String} {t : Token}
    (h : t ∈ (scan source).tokens) : Spells t.lexeme.toList t.kind := by
  obtain ⟨entries, -, hfinds, htiles⟩ :=
    entries_from (List.nil_append source.toList).symm 1
  have hitem : .token t ∈ (scan source).items := by
    obtain ⟨item, hitem, ht⟩ := List.mem_filterMap.1 h
    cases item with
    | token t' =>
      cases ht
      exact hitem
    | fault line cause => cases ht
  have hentry : .item (.token t) ∈ entries.map Located.entry := by
    rw [hfinds]
    exact List.mem_append_left _ (List.mem_map_of_mem hitem)
  obtain ⟨⟨entry, start, stop⟩, he, rfl⟩ := List.mem_map.1 hentry
  exact (htiles.accurate _ he).2.1

/-- Lexemes with a space between any two, and with some separators behind the
last one. -/
theorem spaced_join {kinds : List Kind}
    (h : ∀ kind ∈ kinds, Spells kind.lexeme.toList kind) :
    Spaced kinds (" ".intercalate (kinds.map Kind.lexeme)).toList ∧
      Spaced kinds (" ".intercalate (kinds.map Kind.lexeme ++ [""])).toList := by
  have hspace : ' ' ∈ separators := by decide
  induction kinds with
  | nil => exact ⟨.nil, .nil⟩
  | cons kind kinds ih =>
    obtain ⟨hkind, hkinds⟩ := List.forall_mem_cons.1 h
    obtain ⟨hjoin, hclosed⟩ := ih hkinds
    have hcons {list : List String} (hlist : list ≠ [])
        (hmore : Spaced kinds (" ".intercalate list).toList) :
        Spaced (kind :: kinds)
          (" ".intercalate (kind.lexeme :: list)).toList := by
      rw [String.intercalate_cons_of_ne_nil hlist, String.append_assoc,
        String.toList_append, String.toList_append]
      exact .token hkind (apart_cons hspace _) (.separator hspace hmore)
    refine ⟨?_, hcons (by simp) hclosed⟩
    cases kinds with
    | nil =>
      have hlast := Spaced.token hkind apart_nil .nil
      rw [List.append_nil] at hlast
      exact hlast
    | cons => exact hcons (by simp) hjoin

/-- The lexemes of a source are scanned as its tokens.  Joined by single spaces,
with or without the empty lexeme of the end, they make a text without faults,
and its tokens are of the same kinds, payloads and lexemes included.  This holds
even of a source with faults, of which only the tokens are taken. -/
theorem lexemes_rescan {source joined : String}
    (h : joined = " ".intercalate ((scan source).tokens.map Token.lexeme) ∨
      joined =
        " ".intercalate ((scan source).tokens.map Token.lexeme ++ [""])) :
    (scan joined).diagnostics = [] ∧
      (scan joined).tokens.map Token.kind = (scan source).tokens.map Token.kind ∧
      (scan joined).tokens.map Token.lexeme =
        (scan source).tokens.map Token.lexeme := by
  have hspells : ∀ kind ∈ (scan source).tokens.map Token.kind,
      Spells kind.lexeme.toList kind := by
    intro kind hkind
    obtain ⟨t, ht, rfl⟩ := List.mem_map.1 hkind
    exact spells_of_scan ht
  have hlexemes (tokens : List Token) : tokens.map Token.lexeme =
      (tokens.map Token.kind).map Kind.lexeme := (List.map_map ..).symm
  obtain ⟨hjoin, hclosed⟩ := spaced_join hspells
  rw [← hlexemes] at hjoin hclosed
  have hspaced : Spaced ((scan source).tokens.map Token.kind) joined.toList := by
    rcases h with rfl | rfl
    · exact hjoin
    · exact hclosed
  obtain ⟨hclean, hkinds⟩ := scan_spaced hspaced
  exact ⟨hclean, hkinds, by rw [hlexemes, hkinds, ← hlexemes]⟩

/-- Operators that stand close together, and a string of two lines. -/
theorem lexemes_rescan_sample :
    (scan "a!= =b;// c\n\"x\ny\"if").tokens.map Token.kind =
        [.identifier "a", .symbol .bangEqual, .symbol .equal, .identifier "b",
          .symbol .semicolon, .string "x\ny", .keyword .kwIf] ∧
      (scan "a != = b ; \"x\ny\" if").tokens.map Token.kind =
        (scan "a!= =b;// c\n\"x\ny\"if").tokens.map Token.kind := by
  have hkinds : (scan "a!= =b;// c\n\"x\ny\"if").tokens.map Token.kind =
      [.identifier "a", .symbol .bangEqual, .symbol .equal, .identifier "b",
        .symbol .semicolon, .string "x\ny", .keyword .kwIf] := by
    with_unfolding_all rfl
  have hjoined : "a != = b ; \"x\ny\" if" = " ".intercalate
      ((scan "a!= =b;// c\n\"x\ny\"if").tokens.map Token.lexeme) := by
    with_unfolding_all rfl
  exact ⟨hkinds, (lexemes_rescan (.inl hjoined)).2.1⟩

end Lox.Token
