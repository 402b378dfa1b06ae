import Lox.Proofs.Token.ByteReader
import Lox.Proofs.Token.LineEnds

/-!
# The two readers side by side

A reader of bytes gives what a reader of characters gives, with the same ranges
of bytes, and it does not panic (`Mirrors.next`, `Mirrors.after`).  What it has
not read is a text that is left of the source (`leave`), and there is one lemma
for everything it does there: how it goes on, `advance_leave` to
`toLineEnd_leave`; what it reads, `readString_leave` to `readToken_leave`; and
what it gives, `steps_leave`.  Inside of a character that is not ASCII it stops
at no byte, since no loop ends there and no token starts there.
-/

namespace Lox.Token.ByteReader

/-! ## What is left of the source -/

/-- The reader where the text is left, on a line. -/
def leave (r : ByteReader) (rest : List Char) (line : Nat) : ByteReader :=
  { r with place := r.size - bytes rest, line := line }

section

variable {r : ByteReader} {c : Char} {rest : List Char}

theorem size_eq {front : List Char} (h : front ++ rest = r.source.toList) :
    r.size = bytes front + bytes rest := by
  rw [size, ← bytes_toList, ← h, bytes_append]

/-- The bytes from there on are those of the text that is left. -/
theorem text_leave (h : rest <:+ r.source.toList) (line i : Nat) :
    (r.leave rest line).text[(r.leave rest line).place + i]? =
      (codes rest)[i]? := by
  obtain ⟨front, hfront⟩ := h
  have hplace : (r.leave rest line).place = (codes front).length := by
    rw [length_codes]
    show r.size - bytes rest = _
    rw [size_eq hfront, Nat.add_sub_cancel]
  have htext : (r.leave rest line).text = codes front ++ codes rest := by
    rw [text_eq, ← codes_append, hfront]
    rfl
  rw [htext, hplace, List.getElem?_append_right (Nat.le_add_right _ _),
    Nat.add_sub_cancel_left]

theorem place_lt (h : c :: rest <:+ r.source.toList) (line : Nat) :
    (r.leave (c :: rest) line).place < r.size := by
  obtain ⟨front, hfront⟩ := h
  have hpos : 0 < bytes (c :: rest) := bytes_pos (List.cons_ne_nil c rest)
  have hsize := size_eq hfront
  show r.size - bytes (c :: rest) < r.size
  omega

/-- Behind an ASCII character the next byte is. -/
theorem succ_place (h : c :: rest <:+ r.source.toList) (hc : c.toNat < 128) :
    r.size - bytes (c :: rest) + 1 = r.size - bytes rest := by
  obtain ⟨front, hfront⟩ := h
  have hsize := size_eq hfront
  have hbytes := bytes_cons_ascii hc rest
  omega

theorem advance_leave (h : c :: rest <:+ r.source.toList) (hc : c.toNat < 128)
    (line : Nat) :
    (r.leave (c :: rest) line).advance = some (c, r.leave rest line) := by
  have htext := text_leave h line 0
  rw [codes_cons_ascii hc, List.getElem?_cons_zero, Nat.add_zero] at htext
  rw [advance, htext, Option.map_some]
  simp only [leave, succ_place h hc]

theorem peek_leave (h : rest <:+ r.source.toList) (line : Nat) :
    (r.leave rest line).peek = (codes rest)[0]?.getD '\x00' := by
  rw [← text_leave h line 0]
  rfl

theorem peekNext_leave (h : rest <:+ r.source.toList) (line : Nat) :
    (r.leave rest line).peekNext = (codes rest)[1]?.getD '\x00' := by
  rw [← text_leave h line 1]
  rfl

/-! ## Going on -/

theorem suffix_of_cons {text : List Char} (h : c :: rest <:+ text) :
    rest <:+ text :=
  (List.suffix_cons c rest).trans h

theorem test_peek (h : c :: rest <:+ r.source.toList) (line : Nat)
    {p : Char → Bool} {outcome : Bool} (hp : Uniform p outcome) :
    p (r.leave (c :: rest) line).peek = p c := by
  obtain ⟨d, more, hcodes, hd⟩ := head_codes c rest
  rw [peek_leave h, hcodes]
  exact hd p outcome hp

theorem advanceWhile_leave {p : Char → Bool} (hp : Uniform p false)
    (hzero : p '\x00' = false) (h : rest <:+ r.source.toList) (line : Nat) :
    (r.leave rest line).advanceWhile p =
      some (r.leave (rest.dropWhile p) line) := by
  induction rest with
  | nil =>
    have hpeek : (r.leave [] line).peek = '\x00' := peek_leave h line
    rw [advanceWhile, hpeek, hzero]
    rfl
  | cons c text ih =>
    have htest := test_peek h line hp
    by_cases hc : p c = true
    · rw [advanceWhile_eq (htest.trans hc)
        (advance_leave h (ascii_of_test hp hc) line),
        List.dropWhile_cons_of_pos hc]
      exact ih (suffix_of_cons h)
    · rw [advanceWhile, htest, if_neg hc, List.dropWhile_cons_of_neg hc]

/-- The bytes of a longer character are neither quotes nor line ends. -/
theorem toQuote_wide (front : List Char) (r : ByteReader)
    (hbytes : ∀ i e, front[i]? = some e → r.text[r.place + i]? = some e)
    (hwide : ∀ e ∈ front, 128 ≤ e.toNat) :
    r.toQuote = ({ r with place := r.place + front.length }).toQuote := by
  induction front generalizing r with
  | nil => rfl
  | cons d front ih =>
    have hd := hwide d List.mem_cons_self
    have hnext : r.text[r.place]? = some d := hbytes 0 d rfl
    have hlt : r.place < r.size := by
      rw [← length_text]
      exact (List.getElem?_eq_some_iff.1 hnext).1
    have hquote : r.peek ≠ '"' := by
      rw [peek, hnext]
      exact ne_of_wide hd (by decide)
    have hadvance : r.advance = some (d, { r with place := r.place + 1 }) := by
      rw [advance, hnext]
      rfl
    have hline : (d == '\n') = false := uniform_beq (by decide) d hd
    rw [toQuote_eq hlt hquote hadvance, hline]
    simp only [Bool.false_eq_true, if_false]
    rw [ih { r with place := r.place + 1 } ?_ fun e he =>
      hwide e (List.mem_cons_of_mem _ he)]
    · simp only [List.length_cons, Nat.add_assoc, Nat.add_comm 1]
    · intro i e he
      have hbyte := hbytes (i + 1) e he
      rw [← Nat.add_assoc, Nat.add_right_comm] at hbyte
      exact hbyte

theorem toQuote_leave (h : rest <:+ r.source.toList) (line : Nat) :
    (r.leave rest line).toQuote = some (r.leave (rest.dropWhile (· != '"'))
      (line + lineEnds (rest.takeWhile (· != '"')))) := by
  induction rest generalizing line with
  | nil =>
    have hend : (r.leave [] line).size ≤ (r.leave [] line).place := Nat.le_refl _
    rw [toQuote, if_pos (.inl hend)]
    rfl
  | cons c text ih =>
    have htext := suffix_of_cons h
    have hpeek := test_peek h line (uniform_bne (d := '"') (by decide))
    by_cases hc : c = '"'
    · subst hc
      have hquote : (r.leave ('"' :: text) line).peek = '"' := by
        simpa using hpeek
      rw [toQuote, if_pos (.inr hquote)]
      rfl
    · have hpass : (c != '"') = true := bne_iff_ne.2 hc
      simp only [List.dropWhile_cons, List.takeWhile_cons, hpass, if_true]
      by_cases hascii : c.toNat < 128
      · rw [toQuote_eq (place_lt h line) (bne_iff_ne.1 (hpeek.trans hpass))
          (advance_leave h hascii line), ← add_lineEnds_cons]
        exact ih htext _
      · -- All bytes of the character are passed over.
        have hwide := Nat.le_of_not_lt hascii
        obtain ⟨d, front, hfront, hcodes⟩ := codes_cons_wide hwide text
        have hlength := congrArg List.length hcodes
        rw [List.length_append, length_codes, length_codes] at hlength
        have hplace : (r.leave (c :: text) line).place + (d :: front).length =
            (r.leave text line).place := by
          obtain ⟨before, hbefore⟩ := h
          have hsize := size_eq hbefore
          show r.size - bytes (c :: text) + _ = r.size - bytes text
          omega
        rw [toQuote_wide (d :: front) _ ?_ hfront, hplace,
          lineEnds_cons_of_ne (ne_of_wide hwide (by decide))]
        · exact ih htext line
        · intro i e he
          rw [text_leave h, hcodes,
            List.getElem?_append_left (List.getElem?_eq_some_iff.1 he).1, he]

theorem drop_leave (h : rest <:+ r.source.toList) (line : Nat) :
    (r.leave rest line).text.drop (r.leave rest line).place = codes rest := by
  refine List.ext_getElem? fun i => ?_
  rw [List.getElem?_drop, text_leave h]

theorem toLineEnd_leave (h : rest <:+ r.source.toList) (line : Nat) :
    (r.leave rest line).toLineEnd =
      r.leave (rest.dropWhile (· != '\n')) line := by
  have hdrop := drop_leave h line
  by_cases hmem : '\n' ∈ rest
  · obtain ⟨content, more, rfl, hcontent⟩ := List.eq_append_cons_of_mem hmem
    have hfind : (codes (content ++ '\n' :: more)).findIdx? (· == '\n') =
        some (bytes content) := by
      rw [codes_append, codes_cons_ascii (by decide), List.findIdx?_append,
        findIdx?_codes hcontent, List.findIdx?_cons, length_codes]
      simp
    have hstop : ('\n' != '\n') = false := rfl
    obtain ⟨before, hbefore⟩ := h
    have hsize := size_eq hbefore
    rw [bytes_append] at hsize
    have hplace : r.size - bytes (content ++ '\n' :: more) + bytes content =
        r.size - bytes ('\n' :: more) := by
      rw [bytes_append]
      omega
    rw [toLineEnd, hdrop, hfind,
      (span_of_stop (bne_of_not_mem hcontent) hstop more).2]
    simp only [leave, hplace]
  · rw [toLineEnd, hdrop, findIdx?_codes hmem,
      List.dropWhile_eq_nil_iff.2 (bne_of_not_mem hmem)]
    rfl

/-- A range that covers a text is cut out as it. -/
theorem slice_of_covers {first last : Nat} {text : String}
    (h : Covers r.source first last text) : r.slice first last = some text := by
  have hvalid : text.toUTF8.IsValidUTF8 := text.isValidUTF8
  rw [slice, if_pos ⟨h.le, h.first, h.last⟩, h.bytes, String.fromUTF8?,
    dif_pos hvalid]
  rfl

theorem slice_leave {taken : List Char}
    (h : taken ++ rest <:+ r.source.toList) :
    r.slice (r.size - bytes (taken ++ rest)) (r.size - bytes rest) =
      some (String.ofList taken) := by
  obtain ⟨before, hbefore⟩ := h
  have hsize := size_eq hbefore
  have hcovers := covers_of_append ((List.append_assoc ..).trans hbefore).symm
  have hfirst : r.size - bytes (taken ++ rest) = bytes before := by omega
  have hlast : r.size - bytes rest = bytes (before ++ taken) := by
    rw [bytes_append] at hsize ⊢
    omega
  rw [hfirst, hlast]
  exact slice_of_covers hcovers

end

/-! ## Items -/

/-- What the lexer finds, and the reader where it leaves the rest. -/
def reads (r : ByteReader) (lexed : Lexed) : Option (Found × ByteReader) :=
  some (lexed.item.found, r.leave lexed.rest lexed.line)

section

variable {r : ByteReader} {c : Char} {text : List Char}

theorem accept_leave {d : Char} (hd : d.toNat < 128)
    (h : text <:+ r.source.toList) (line : Nat) :
    (r.leave text line).accept d =
      if text.head? = some d then (true, r.leave text.tail line)
      else (false, r.leave text line) := by
  have hbyte := text_leave h line 0
  rw [Nat.add_zero] at hbyte
  rw [accept, hbyte]
  refine ite_congr (propext (head?_codes hd text)) (fun hhead => ?_)
    fun _ => rfl
  obtain ⟨more, rfl⟩ := List.head?_eq_some_iff.1 hhead
  simp only [leave, succ_place h hd, List.tail_cons]

/-- The text of the item, from its start up to what is left. -/
theorem slice_start {taken rest : List Char}
    (h : taken ++ rest <:+ r.source.toList)
    (hstart : r.start = r.size - bytes (taken ++ rest)) (line : Nat) :
    (r.leave rest line).slice (r.leave rest line).start
      (r.leave rest line).place = some (String.ofList taken) := by
  show r.slice r.start (r.size - bytes rest) = _
  rw [hstart]
  exact slice_leave h

theorem readString_leave (h : '"' :: text <:+ r.source.toList)
    (hstart : r.start = r.size - bytes ('"' :: text)) (line : Nat) :
    (r.leave text line).readString = r.reads (stringFrom text line) := by
  have htext := suffix_of_cons h
  have hfirst : r.start + 1 = r.size - bytes text := by
    rw [hstart, succ_place h (by decide)]
  rw [readString, toQuote_leave htext]
  by_cases hclosed : '"' ∈ text
  · obtain ⟨content, rest, rfl, hcontent⟩ := List.eq_append_cons_of_mem hclosed
    obtain ⟨htake, hdrop⟩ := span_of_stop (bne_of_not_mem hcontent)
      (show ('"' != '"') = false from rfl) rest
    have hquote : '"' :: rest <:+ r.source.toList :=
      (List.suffix_append content _).trans htext
    have hplace (line : Nat) : ¬ (r.leave ('"' :: rest) line).size ≤
        (r.leave ('"' :: rest) line).place := Nat.not_le.2 (place_lt hquote line)
    have hlast (line : Nat) : (r.leave rest line).place - 1 =
        r.size - bytes ('"' :: rest) := by
      show r.size - bytes rest - 1 = _
      rw [← succ_place hquote (by decide), Nat.add_sub_cancel]
    have hslice (line : Nat) : (r.leave rest line).slice (r.start + 1)
        ((r.leave rest line).place - 1) = some (String.ofList content) := by
      rw [hfirst, hlast]
      exact slice_leave htext
    simp only [stringFrom, htake, hdrop, Option.bind_eq_bind, Option.bind_some,
      if_neg (hplace _), advance_leave hquote (by decide)]
    show ((r.leave rest _).slice (r.start + 1) _).bind _ = _
    rw [hslice]
    rfl
  · have hall := bne_of_not_mem hclosed
    have hplace (line : Nat) : (r.leave [] line).size ≤ (r.leave [] line).place :=
      Nat.le_refl _
    simp only [stringFrom, List.takeWhile_eq_self_iff.2 hall,
      List.dropWhile_eq_nil_iff.2 hall, Option.bind_eq_bind, Option.bind_some,
      if_pos (hplace _)]
    rfl

theorem readWord_leave (h : c :: text <:+ r.source.toList)
    (hstart : r.start = r.size - bytes (c :: text)) (line : Nat) :
    (r.leave text line).readWord = r.reads (wordFrom c text line) := by
  have hsplit : c :: text.takeWhile isNamePart ++ text.dropWhile isNamePart =
      c :: text := by
    rw [List.cons_append, List.takeWhile_append_dropWhile]
  have hslice := slice_start (hsplit.symm ▸ h) (hsplit.symm ▸ hstart) line
  rw [readWord, advanceWhile_leave uniform_isNamePart (by decide)
    (suffix_of_cons h)]
  simp only [Option.bind_eq_bind, Option.bind_some, hslice]
  rfl

/-- A point is taken if a digit follows. -/
theorem point_leave {d : Char} {rest : List Char}
    (h : '.' :: d :: rest <:+ r.source.toList) (line : Nat) :
    ((r.leave ('.' :: d :: rest) line).peek == '.' &&
      (r.leave ('.' :: d :: rest) line).peekNext.isDigit) = d.isDigit := by
  obtain ⟨e, more, hcodes, htests⟩ := head_codes d rest
  rw [test_peek h line (uniform_beq (d := '.') (by decide)), peekNext_leave h,
    codes_cons_ascii (by decide), List.getElem?_cons_succ, hcodes]
  exact htests _ false uniform_isDigit

theorem no_point_leave {rest : List Char} (h : rest <:+ r.source.toList)
    (hnone : ∀ d more, rest = '.' :: d :: more → d.isDigit = false)
    (line : Nat) :
    ((r.leave rest line).peek == '.' && (r.leave rest line).peekNext.isDigit) =
      false := by
  rcases rest with (_ | ⟨point, rest⟩)
  · rw [peek_leave h]
    rfl
  · rw [test_peek h line (uniform_beq (d := '.') (by decide))]
    by_cases hpoint : point = '.'
    · subst hpoint
      cases rest with
      | nil =>
        rw [peekNext_leave h]
        rfl
      | cons d rest =>
        have hpeek := point_leave h line
        rw [test_peek h line (uniform_beq (d := '.') (by decide))] at hpeek
        exact hpeek.trans (hnone d rest rfl)
    · rw [beq_false_of_ne hpoint, Bool.false_and]

theorem readNumber_whole (hdigit : c.isDigit = true)
    (h : c :: text <:+ r.source.toList)
    (hstart : r.start = r.size - bytes (c :: text))
    (hnone : ∀ d more, text.dropWhile Char.isDigit = '.' :: d :: more →
      d.isDigit = false) (line : Nat) :
    let whole := c :: text.takeWhile Char.isDigit
    (r.leave text line).readNumber = r.reads ⟨.token
      ⟨.number (String.ofList whole) (Number.ofDigits whole []), line⟩,
      text.dropWhile Char.isDigit, line⟩ := by
  intro whole
  have hwhole : ∀ d ∈ whole, d.isDigit = true := (digits_cons hdigit text).2
  have hsplit : whole ++ text.dropWhile Char.isDigit = c :: text := by
    rw [List.cons_append, List.takeWhile_append_dropWhile]
  have hslice := slice_start (hsplit.symm ▸ h) (hsplit.symm ▸ hstart) line
  have htext := suffix_of_cons h
  have hpoint :=
    no_point_leave ((List.dropWhile_suffix _).trans htext) hnone line
  rw [readNumber, advanceWhile_leave uniform_isDigit (by decide) htext]
  simp only [Option.bind_eq_bind, Option.bind_some, hpoint, Bool.false_eq_true,
    if_false, hslice]
  rw [ofNumeral_whole hwhole]
  rfl

theorem readNumber_fraction (hdigit : c.isDigit = true)
    (h : c :: text <:+ r.source.toList)
    (hstart : r.start = r.size - bytes (c :: text)) {digit : Char}
    {rest : List Char}
    (hdrop : text.dropWhile Char.isDigit = '.' :: digit :: rest)
    (hmore : digit.isDigit = true) (line : Nat) :
    let whole := c :: text.takeWhile Char.isDigit
    let fraction := digit :: rest.takeWhile Char.isDigit
    (r.leave text line).readNumber = r.reads ⟨.token ⟨.number
      (String.ofList (whole ++ '.' :: fraction))
      (Number.ofDigits whole fraction), line⟩, rest.dropWhile Char.isDigit,
      line⟩ := by
  intro whole fraction
  have hwhole : ∀ d ∈ whole, d.isDigit = true := (digits_cons hdigit text).2
  have hsplit : whole ++ '.' :: fraction ++ rest.dropWhile Char.isDigit =
      c :: text := by
    simp only [whole, fraction, List.append_assoc, List.cons_append,
      List.takeWhile_append_dropWhile]
    rw [← hdrop, List.takeWhile_append_dropWhile]
  have hslice := slice_start (hsplit.symm ▸ h) (hsplit.symm ▸ hstart) line
  have htext := suffix_of_cons h
  have hleft : '.' :: digit :: rest <:+ r.source.toList :=
    hdrop ▸ (List.dropWhile_suffix _).trans htext
  have hfraction : (digit :: rest).dropWhile Char.isDigit =
      rest.dropWhile Char.isDigit := List.dropWhile_cons_of_pos hmore
  have hpoint := (point_leave hleft line).trans hmore
  rw [readNumber, advanceWhile_leave uniform_isDigit (by decide) htext, hdrop]
  simp only [Option.bind_eq_bind, Option.bind_some, hpoint, if_true,
    advance_leave hleft (by decide),
    advanceWhile_leave uniform_isDigit (by decide) (suffix_of_cons hleft),
    hfraction, hslice]
  rw [ofNumeral_fraction hwhole]
  rfl

theorem readNumber_leave (hdigit : c.isDigit = true)
    (h : c :: text <:+ r.source.toList)
    (hstart : r.start = r.size - bytes (c :: text)) (line : Nat) :
    (r.leave text line).readNumber = r.reads (numberFrom c text line) := by
  unfold numberFrom
  split
  · next digit rest hdrop =>
    split
    · next hmore => exact readNumber_fraction hdigit h hstart hdrop hmore line
    · next hmore =>
      rw [← hdrop]
      refine readNumber_whole hdigit h hstart (fun d more hmore' => ?_) line
      rw [hdrop] at hmore'
      cases hmore'
      simpa using hmore
  · next hnot =>
    exact readNumber_whole hdigit h hstart
      (fun d more hmore => absurd hmore (hnot d more)) line

/-- The whole character is stepped over, wherever in it the reader is. -/
theorem skipCharacter_leave (h : c :: text <:+ r.source.toList)
    (hstart : r.start = r.size - bytes (c :: text)) :
    r.skipCharacter =
      r.reads ⟨.fault r.line (.unexpected c), text, r.line⟩ := by
  obtain ⟨front, hfront⟩ := h
  have hsize := size_eq hfront
  have hslice : r.slice r.start r.size = some (String.ofList (c :: text)) := by
    have hsource : c :: text ++ [] <:+ r.source.toList := by
      rw [List.append_nil]
      exact ⟨front, hfront⟩
    have hcut := slice_leave hsource
    rw [List.append_nil, ← hstart] at hcut
    exact hcut
  have hplace : r.start + c.utf8Size = r.size - bytes text := by
    rw [hstart]
    rw [bytes_cons] at hsize ⊢
    omega
  rw [skipCharacter, hslice]
  simp only [Option.bind_eq_bind, Option.bind_some, String.toList_ofList,
    List.headD_cons, hplace]
  rfl

/-- No byte of a character that is not ASCII starts a token. -/
theorem readItem_wide {d : Char} (hd : 128 ≤ d.toNat) (r : ByteReader) :
    r.readItem d = r.skipCharacter := by
  obtain ⟨hsingle, hdouble, hquote⟩ := starts_of_not_mem (not_mem_of_wide hd)
  simp [readItem, hsingle, hdouble, hquote, uniform_isDigit d hd,
    uniform_isNameStart d hd]

theorem readItem_leave (h : c :: text <:+ r.source.toList)
    (hstart : r.start = r.size - bytes (c :: text)) (line : Nat) :
    (r.leave text line).readItem c = r.reads (itemAt c text line) := by
  cases hsingle : single? c with
  | some symbol =>
    simp only [readItem, itemAt, hsingle]
    rfl
  | none =>
    rcases hdouble : double? c with _ | ⟨alone, withEqual⟩
    · simp only [readItem, itemAt, hsingle, hdouble]
      split
      · next hquote =>
        obtain rfl := eq_of_beq hquote
        exact readString_leave h hstart line
      · split
        · next hdigit => exact readNumber_leave hdigit h hstart line
        · split
          · exact readWord_leave h hstart line
          · exact skipCharacter_leave (r := r.leave text line) h hstart
    · simp only [readItem, itemAt, hsingle, hdouble,
        accept_leave (show '='.toNat < 128 by decide) (suffix_of_cons h)]
      cases text with
      | nil => rfl
      | cons d text =>
        by_cases hd : d = '='
        · subst hd
          rfl
        · simp [hd, reads, Item.found]

/-- The first byte of a longer character is passed, and then all of them are. -/
theorem readToken_wide (hwide : 128 ≤ c.toNat)
    (h : c :: text <:+ r.source.toList)
    (hstart : r.start = r.size - bytes (c :: text)) (line : Nat) :
    (r.leave (c :: text) line).readToken =
      some (some (.fault line (.unexpected c)), r.leave text line) := by
  obtain ⟨d, front, hfront, hcodes⟩ := codes_cons_wide hwide text
  have hd := hfront d List.mem_cons_self
  have hline : (d == '\n') = false := uniform_beq (by decide) d hd
  have hslash : (d == '/') = false := uniform_beq (by decide) d hd
  have hadvance : (r.leave (c :: text) line).advance =
      some (d, { r.leave (c :: text) line with
        place := (r.leave (c :: text) line).place + 1 }) := by
    have hbyte := text_leave h line 0
    rw [hcodes, List.cons_append, List.getElem?_cons_zero, Nat.add_zero]
      at hbyte
    rw [advance, hbyte]
    rfl
  rw [readToken, hadvance]
  simp only [Option.bind_eq_bind, Option.bind_some, hline,
    uniform_isBlank d hd, hslash, Bool.false_and, Bool.false_eq_true, if_false,
    readItem_wide hd]
  rw [skipCharacter_leave (r := { r.leave (c :: text) line with
    place := (r.leave (c :: text) line).place + 1 }) h hstart]
  rfl

/-- At every character the reader does what a scan of characters does. -/
theorem readToken_leave (h : c :: text <:+ r.source.toList)
    (hstart : r.start = r.size - bytes (c :: text)) (line : Nat) :
    (r.leave (c :: text) line).readToken =
      if c == '\n' then some (none, r.leave text (line + 1))
      else if isBlank c then some (none, r.leave text line)
      else if c == '/' && text.head? == some '/' then
        some (none, r.leave (text.dropWhile (· != '\n')) line)
      else (r.reads (itemAt c text line)).map fun (found, r) =>
        (some found, r) := by
  have htext := suffix_of_cons h
  by_cases hascii : c.toNat < 128
  · rw [readToken, advance_leave h hascii]
    simp only [Option.bind_eq_bind, Option.bind_some]
    split
    · rfl
    · split
      · rfl
      · rw [accept_leave (by decide) htext, readItem_leave h hstart]
        by_cases hhead : text.head? = some '/'
        · obtain ⟨more, rfl⟩ := List.head?_eq_some_iff.1 hhead
          rw [if_pos hhead, List.tail_cons,
            toLineEnd_leave (suffix_of_cons htext)]
          simp only [List.head?_cons, beq_self_eq_true]
          split <;> rfl
        · rw [if_neg hhead, beq_false_of_ne hhead]
          simp only [Bool.and_false, Bool.false_eq_true, if_false]
          rfl
  · have hwide := Nat.le_of_not_lt hascii
    have hline : (c == '\n') = false := uniform_beq (by decide) c hwide
    have hslash : (c == '/') = false := uniform_beq (by decide) c hwide
    rw [readToken_wide hwide h hstart, itemAt_wide hwide, hline,
      uniform_isBlank c hwide, hslash, Bool.false_and]
    rfl

end

/-! ## Entries -/

/-- Both readers are at the same place of the same source. -/
structure Mirrors (r : ByteReader) (s : Reader) : Prop where
  size : s.size = r.size
  suffix : s.rest <:+ r.source.toList
  place : r.place = if s.ended then s.size + 1 else s.size - bytes s.rest
  line : r.line = s.line

/-- The reader gives the entry, if there is one, and does not panic.  If the
entry is an item, then the two indices are the ends of its range. -/
def Gives (r : ByteReader) (given : Option Located) (r' : ByteReader) : Prop :=
  r.next = some (given.map (·.entry.answer), r') ∧
    ∀ e found, given = some e → e.entry = .item found →
      r'.start = e.start ∧ r'.place = e.stop

/-- Both readers give the same entry, and are then at the same place. -/
def Steps (r : ByteReader) (s : Reader) : Prop :=
  ∃ r', r.Gives s.next.1 r' ∧ r'.Mirrors s.next.2

section

variable {r : ByteReader} {c : Char} {text : List Char}

/-- The reader with an entry that starts where the text is left. -/
def startAt (r : ByteReader) (text : List Char) : ByteReader :=
  { r with start := r.size - bytes text }

theorem steps_of_skipped (h : c :: text <:+ r.source.toList)
    {left : List Char} {line line' : Nat}
    (hskip : skip (c :: text) line = skip left line')
    (hread : ((r.startAt (c :: text)).leave (c :: text) line).readToken =
      some (none, (r.startAt (c :: text)).leave left line'))
    (hsteps : ((r.startAt (c :: text)).leave left line').Steps
      ⟨r.size, left, line', false⟩) :
    (r.leave (c :: text) line).Steps ⟨r.size, c :: text, line, false⟩ := by
  have hnext : (r.leave (c :: text) line).next =
      ((r.startAt (c :: text)).leave left line').next := by
    rw [next_eq (place_lt h line)]
    show Option.bind ((r.startAt (c :: text)).leave _ line).readToken _ = _
    rw [hread, Option.bind_some]
  have hsame : Reader.next ⟨r.size, c :: text, line, false⟩ =
      Reader.next ⟨r.size, left, line', false⟩ := by
    simp only [Reader.next, hskip, Bool.false_eq_true, if_false]
  obtain ⟨r', ⟨hgiven, hrange⟩, hmirrors⟩ := hsteps
  rw [Steps, hsame]
  exact ⟨r', ⟨hnext.trans hgiven, hrange⟩, hmirrors⟩

theorem steps_of_item (h : c :: text <:+ r.source.toList) {line : Nat}
    (hskip : skip (c :: text) line = (c :: text, line))
    (hread : ((r.startAt (c :: text)).leave (c :: text) line).readToken =
      ((r.startAt (c :: text)).reads (itemAt c text line)).map
        fun (found, r) => (some found, r)) :
    (r.leave (c :: text) line).Steps ⟨r.size, c :: text, line, false⟩ := by
  obtain ⟨taken, htaken, -, htakes⟩ := itemAt_munch c text line
  have hline := line_itemAt c text line
  generalize hlexed : itemAt c text line = lexed at *
  obtain ⟨item, rest, line'⟩ := lexed
  have hnext : (r.leave (c :: text) line).next =
      some (some (Entry.item item).answer,
        (r.startAt (c :: text)).leave rest line') := by
    rw [next_eq (place_lt h line)]
    show Option.bind ((r.startAt (c :: text)).leave _ line).readToken _ = _
    rw [hread, reads, Option.map_some, Option.bind_some]
    cases item with
    | token t =>
      have hslice := slice_start (r := r.startAt (c :: text)) (htaken ▸ h)
        (htaken ▸ rfl) line'
      obtain ⟨hlexeme, -⟩ := htakes
      rw [← hlexeme, String.ofList_toList] at hslice
      obtain rfl : t.line = line' := hline
      simp only [Item.found, hslice]
      rfl
    | fault line cause => rfl
  rw [Steps, Reader.next_of_skip_cons r.size hskip hlexed]
  refine ⟨_, ⟨hnext, ?_⟩, rfl, ?_, rfl, rfl⟩
  · rintro e found he -
    cases he
    exact ⟨rfl, rfl⟩
  · rw [htaken] at h
    exact (List.suffix_append taken rest).trans h

theorem steps_leave (h : text <:+ r.source.toList) (line : Nat) :
    (r.leave text line).Steps ⟨r.size, text, line, false⟩ := by
  induction text, line using skip.induct generalizing r with
  | case1 line =>
    have hskip : skip [] line = ([], line) := by rw [skip]
    have hnext : (r.leave [] line).next =
        some (some (.eof line), { r with place := r.size + 1, line := line }) := by
      have hplace : (r.leave [] line).place = (r.leave [] line).size := rfl
      rw [next, if_neg (by omega), if_pos hplace]
      rfl
    rw [Steps, Reader.next_of_skip_nil r.size hskip]
    refine ⟨_, ⟨hnext, ?_⟩, rfl, h, rfl, rfl⟩
    rintro e found he hitem
    cases he
    cases hitem
  | case2 line c text hline ih =>
    refine steps_of_skipped h (by rw [skip, if_pos hline]) ?_
      (ih (r := r.startAt (c :: text)) (suffix_of_cons h))
    rw [readToken_leave (r := r.startAt (c :: text)) h rfl, if_pos hline]
  | case3 line c text hline hblank ih =>
    refine steps_of_skipped h (by rw [skip, if_neg hline, if_pos hblank]) ?_
      (ih (r := r.startAt (c :: text)) (suffix_of_cons h))
    rw [readToken_leave (r := r.startAt (c :: text)) h rfl, if_neg hline, if_pos hblank]
  | case4 line c text hline hblank hcomment ih =>
    refine steps_of_skipped h
      (by rw [skip, if_neg hline, if_neg hblank, if_pos hcomment]) ?_
      (ih (r := r.startAt (c :: text))
        ((List.dropWhile_suffix _).trans (suffix_of_cons h)))
    rw [readToken_leave (r := r.startAt (c :: text)) h rfl, if_neg hline, if_neg hblank, if_pos hcomment]
  | case5 line c text hline hblank hcomment =>
    refine steps_of_item h
      (by rw [skip, if_neg hline, if_neg hblank, if_neg hcomment]) ?_
    rw [readToken_leave (r := r.startAt (c :: text)) h rfl, if_neg hline, if_neg hblank, if_neg hcomment]

end

/-- The readers go through a source side by side. -/
theorem Mirrors.next {r : ByteReader} {s : Reader} (h : r.Mirrors s) :
    r.Steps s := by
  obtain ⟨size, rest, line, ended⟩ := s
  obtain ⟨rfl, hsuffix, hplace, rfl⟩ := h
  cases ended with
  | false =>
    replace hplace : r.place = r.size - bytes rest := hplace
    have hleave : r.leave rest r.line = r := by
      rw [leave, ← hplace]
    have hsteps := steps_leave hsuffix r.line
    rw [hleave] at hsteps
    exact hsteps
  | true =>
    replace hplace : r.place = r.size + 1 := hplace
    have hnext : r.next = some (none, r) := by
      rw [ByteReader.next, if_pos (by omega)]
    refine ⟨r, ⟨hnext, ?_⟩, rfl, hsuffix, hplace, rfl⟩
    rintro e found he
    cases he

theorem mirrors_new (source : String) :
    (new source).Mirrors (Reader.start source) := by
  refine ⟨rfl, List.suffix_refl _, ?_, rfl⟩
  show 0 = source.utf8ByteSize - bytes source.toList
  rw [bytes_toList, Nat.sub_self]

theorem Mirrors.after {r : ByteReader} {s : Reader} (h : r.Mirrors s)
    (n : Nat) : ∃ r', r.after n = some r' ∧ r'.Mirrors (s.after n) := by
  induction n generalizing r s with
  | zero => exact ⟨r, rfl, h⟩
  | succ n ih =>
    obtain ⟨r', ⟨hnext, -⟩, hmirrors⟩ := h.next
    rw [ByteReader.after, hnext]
    exact ih hmirrors

end Lox.Token.ByteReader
