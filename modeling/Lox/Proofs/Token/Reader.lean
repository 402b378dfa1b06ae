import Lox.Proofs.Token.Munch

/-!
# The lexer as an iterator

A `Reader` gives the items of a source one at a time, each with the range of
bytes it covers, and behind them, once, the end of the source.  A range of bytes
covers a text if the text is what the source has there (`Covers`).  What the
reader skips between two items is made of separators (`gap_skip`), and of all
that there are (`noGap_skip`).
-/

namespace Lox.Token

/-! ## Ranges of bytes -/

/-- The bytes of the source from `start` up to `stop` are those of a text, and
both places are between characters. -/
structure Covers (source : String) (start stop : Nat) (text : String) :
    Prop where
  first : (⟨start⟩ : String.Pos.Raw).IsValid source
  last : (⟨stop⟩ : String.Pos.Raw).IsValid source
  le : start ≤ stop
  bytes : source.toUTF8.extract start stop = text.toUTF8

/-- How many bytes a text has. -/
def bytes (text : List Char) : Nat :=
  (String.ofList text).utf8ByteSize

theorem bytes_append (text more : List Char) :
    bytes (text ++ more) = bytes text + bytes more := by
  rw [bytes, String.ofList_append, String.utf8ByteSize_append, bytes, bytes]

theorem bytes_toList (text : String) :
    bytes text.toList = text.utf8ByteSize := by
  rw [bytes, String.ofList_toList]

theorem bytes_pos {text : List Char} (h : text ≠ []) : 0 < bytes text := by
  refine Nat.pos_of_ne_zero fun hzero => h ?_
  have hempty := String.utf8ByteSize_eq_zero_iff.1 hzero
  rw [← String.toList_ofList (l := text), hempty]
  rfl

theorem covers_of_append {source : String} {before text after : List Char}
    (h : source.toList = before ++ text ++ after) :
    Covers source (bytes before) (bytes (before ++ text))
      (String.ofList text) := by
  have hsource : source =
      String.ofList before ++ String.ofList text ++ String.ofList after := by
    rw [← String.ofList_toList (s := source), h]
    simp only [String.ofList_append]
  refine ⟨?_, ?_, ?_, ?_⟩
  · refine String.Pos.Raw.isValid_iff_exists_append.2
      ⟨String.ofList before, String.ofList (text ++ after), ?_, rfl⟩
    rw [hsource, String.ofList_append, String.append_assoc]
  · refine String.Pos.Raw.isValid_iff_exists_append.2
      ⟨String.ofList (before ++ text), String.ofList after, ?_, rfl⟩
    rw [hsource, String.ofList_append]
  · rw [bytes_append]
    exact Nat.le_add_right _ _
  · have hsize (text : List Char) :
        bytes text = (String.ofList text).toByteArray.size :=
      String.size_toByteArray.symm
    have hskip := ByteArray.extract_append_size_add' (i := 0) (j := bytes text)
      (b := (String.ofList text).toByteArray ++
        (String.ofList after).toByteArray)
      (hsize before)
    rw [String.toUTF8_eq_toByteArray, String.toUTF8_eq_toByteArray, hsource,
      String.toByteArray_append, String.toByteArray_append,
      ByteArray.append_assoc, bytes_append, ← Nat.add_zero (bytes before),
      Nat.add_assoc, Nat.zero_add, hskip,
      ByteArray.extract_append_eq_left (hsize text)]

theorem append_of_covers {source text : String} {start stop : Nat}
    (h : Covers source start stop text) :
    ∃ before after, source = before ++ text ++ after ∧
      before.utf8ByteSize = start ∧ (before ++ text).utf8ByteSize = stop := by
  obtain ⟨before, rest, hbefore, hstart⟩ :=
    String.Pos.Raw.isValid_iff_exists_append.1 h.first
  obtain ⟨front, after, hfront, hstop⟩ :=
    String.Pos.Raw.isValid_iff_exists_append.1 h.last
  have hstart : start = before.utf8ByteSize := congrArg (·.byteIdx) hstart
  have hstop : stop = front.utf8ByteSize := congrArg (·.byteIdx) hstop
  -- The bytes before the range and those of the range are the bytes up to it.
  have hbytes := h.bytes
  rw [String.toUTF8_eq_toByteArray, String.toUTF8_eq_toByteArray] at hbytes
  have hfirst : source.toByteArray.extract 0 start = before.toByteArray := by
    rw [hbefore, String.toByteArray_append]
    exact ByteArray.extract_append_eq_left (hstart.trans
      String.size_toByteArray.symm)
  have hboth : source.toByteArray.extract 0 stop = front.toByteArray := by
    rw [hfront, String.toByteArray_append]
    exact ByteArray.extract_append_eq_left (hstop.trans
      String.size_toByteArray.symm)
  have hjoin : source.toByteArray.extract 0 start ++
      source.toByteArray.extract start stop =
        source.toByteArray.extract 0 stop := by
    rw [ByteArray.extract_append_extract, Nat.zero_min, Nat.max_eq_right h.le]
  have htext : before ++ text = front := by
    rw [← String.toByteArray_inj, String.toByteArray_append, ← hfirst, ← hbytes,
      hjoin, hboth]
  exact ⟨before, after, by rw [htext, hfront], hstart.symm,
    by rw [htext, hstop]⟩

/-- A range that starts behind some text covers a beginning of what follows. -/
theorem prefix_of_covers {source : String} {before rest : List Char}
    (h : source.toList = before ++ rest) {stop : Nat} {text : String}
    (hcovers : Covers source (bytes before) stop text) :
    text.toList <+: rest ∧ stop = bytes before + bytes text.toList := by
  obtain ⟨before', after, hsource, hstart, hstop⟩ := append_of_covers hcovers
  have hbefore : before'.toByteArray = (String.ofList before).toByteArray := by
    have hjoin : before'.toByteArray ++ (text ++ after).toByteArray =
        (String.ofList before).toByteArray ++
          (String.ofList rest).toByteArray := by
      rw [← String.toByteArray_append, ← String.toByteArray_append,
        ← String.append_assoc, ← hsource, ← String.ofList_append, ← h,
        String.ofList_toList]
    refine ByteArray.append_inj_left hjoin ?_
    rw [String.size_toByteArray, String.size_toByteArray, hstart, bytes]
  obtain rfl := String.toByteArray_inj.1 hbefore
  rw [hsource, String.toList_append, String.toList_append,
    String.toList_ofList, List.append_assoc] at h
  refine ⟨⟨after.toList, List.append_cancel_left h⟩, ?_⟩
  rw [← hstop, String.utf8ByteSize_append, bytes_toList, bytes]

/-! ## Separators -/

/-- The text is made of blanks, line ends and comments.  A comment runs up to
the next line end, or up to the end of the source if the text is the last
one. -/
inductive Gap (isLast : Bool) : List Char → Prop where
  | nil : Gap isLast []
  | blank {c : Char} {rest : List Char}
      (h : c = ' ' ∨ c = '\t' ∨ c = '\r' ∨ c = '\n') (more : Gap isLast rest) :
      Gap isLast (c :: rest)
  | comment {text rest : List Char} (h : '\n' ∉ text)
      (more : Gap isLast ('\n' :: rest)) :
      Gap isLast ('/' :: '/' :: (text ++ '\n' :: rest))
  | last {text : List Char} (h : '\n' ∉ text) (atEnd : isLast = true) :
      Gap isLast ('/' :: '/' :: text)

/-- Skips separators: the text behind them, and the line there. -/
def skip (text : List Char) (line : Nat) : List Char × Nat :=
  match text with
  | [] => ([], line)
  | c :: rest =>
    if c == '\n' then skip rest (line + 1)
    else if isBlank c then skip rest line
    else if c == '/' && rest.head? == some '/' then
      skip (rest.dropWhile (· != '\n')) line
    else (c :: rest, line)
termination_by text.length
decreasing_by
  · simp
  · simp
  · have := length_dropWhile_le (· != '\n') rest
    simp; omega

/-- A comment is skipped up to the line end or to the end. -/
theorem gap_comment (text : List Char) (line : Nat)
    (h : ∀ more : List Char, more.length < text.length + 2 → ∀ line,
      ∃ gap, more = gap ++ (skip more line).1 ∧
        Gap (skip more line).1.isEmpty gap) :
    let rest := (skip (('/' :: text).dropWhile (· != '\n')) line).1
    ∃ gap, '/' :: '/' :: text = gap ++ rest ∧ Gap rest.isEmpty gap := by
  intro rest
  by_cases hmem : '\n' ∈ text
  · obtain ⟨content, more, rfl, hcontent⟩ := List.eq_append_cons_of_mem hmem
    have hdrop : ('/' :: (content ++ '\n' :: more)).dropWhile (· != '\n') =
        '\n' :: more :=
      (span_of_stop (bne_of_not_mem hcontent) (by decide) more).2
    have hrest : rest = (skip more (line + 1)).1 := by
      simp only [rest, hdrop]
      rw [skip]
      simp
    obtain ⟨gap, hgap, hseparates⟩ := h more (by simp; omega) (line + 1)
    rw [hrest]
    refine ⟨'/' :: '/' :: (content ++ '\n' :: gap), ?_,
      .comment hcontent (.blank (.inr (.inr (.inr rfl))) hseparates)⟩
    simp only [List.cons_append, List.append_assoc, ← hgap]
  · have hnone : '\n' ∉ '/' :: text := by simp [hmem]
    have hdrop : ('/' :: text).dropWhile (· != '\n') = [] :=
      List.dropWhile_eq_nil_iff.2 (bne_of_not_mem hnone)
    have hrest : rest = [] := by
      simp only [rest, hdrop]
      rw [skip]
    rw [hrest]
    exact ⟨'/' :: '/' :: text, by simp, .last hmem rfl⟩

/-- What is skipped is made of separators. -/
theorem gap_skip (text : List Char) (line : Nat) :
    ∃ gap, text = gap ++ (skip text line).1 ∧
      Gap (skip text line).1.isEmpty gap := by
  induction hn : text.length using Nat.strongRecOn generalizing text line with
  | ind n ih =>
    subst hn
    cases text with
    | nil =>
      rw [skip]
      exact ⟨[], rfl, .nil⟩
    | cons c rest =>
      rw [skip]
      split
      · next hc =>
        obtain ⟨gap, hgap, hseparates⟩ := ih _ (by simp) rest (line + 1) rfl
        exact ⟨c :: gap, by rw [List.cons_append, ← hgap],
          .blank (.inr (.inr (.inr (eq_of_beq hc)))) hseparates⟩
      · split
        · next hc =>
          obtain ⟨gap, hgap, hseparates⟩ := ih _ (by simp) rest line rfl
          have hblank : c = ' ' ∨ c = '\t' ∨ c = '\r' ∨ c = '\n' := by
            simp only [isBlank, Bool.or_eq_true, beq_iff_eq] at hc
            rcases hc with (rfl | rfl) | rfl <;> decide
          exact ⟨c :: gap, by rw [List.cons_append, ← hgap],
            .blank hblank hseparates⟩
        · split
          · next hcomment =>
            simp only [Bool.and_eq_true, beq_iff_eq] at hcomment
            obtain ⟨rfl, hrest⟩ := hcomment
            obtain ⟨text, rfl⟩ := List.head?_eq_some_iff.1 hrest
            exact gap_comment text line fun more h line =>
              ih _ h more line rfl
          · exact ⟨[], rfl, .nil⟩

/-- No separator starts the text. -/
def NoGap (text : List Char) : Prop :=
  ∀ gap, Gap true gap → gap <+: text → gap = []

theorem noGap_cons {c : Char} {rest : List Char} (hline : (c == '\n') = false)
    (hblank : isBlank c = false)
    (hcomment : (c == '/' && rest.head? == some '/') = false) :
    NoGap (c :: rest) := by
  intro gap hgap hbegins
  cases hgap with
  | nil => rfl
  | blank hd more =>
    obtain rfl := (List.cons_prefix_cons.1 hbegins).1
    exfalso
    rcases hd with rfl | rfl | rfl | rfl <;> revert hline hblank <;> decide
  | comment | last =>
    obtain ⟨rfl, hrest⟩ := List.cons_prefix_cons.1 hbegins
    obtain ⟨more, rfl⟩ := hrest
    simp at hcomment

/-- All the separators are skipped. -/
theorem noGap_skip (text : List Char) (line : Nat) :
    NoGap (skip text line).1 := by
  fun_induction skip text line with
  | case1 => exact fun gap _ hbegins => List.prefix_nil.1 hbegins
  | case2 _ _ _ _ ih => exact ih
  | case3 _ _ _ _ _ ih => exact ih
  | case4 _ _ _ _ _ _ ih => exact ih
  | case5 line c rest hline hblank hcomment =>
    exact noGap_cons (by simpa using hline) (by simpa using hblank)
      (by simpa using hcomment)

/-- A scan skips separators and takes an item, again and again. -/
theorem scanFrom_skip (text : List Char) (line : Nat) (found : List Item) :
    scanFrom text line found =
      match skip text line with
      | ([], line) => ⟨found.reverse, line⟩
      | (c :: rest, line) =>
        let lexed := itemAt c rest line
        scanFrom lexed.rest lexed.line (lexed.item :: found) := by
  induction hn : text.length using Nat.strongRecOn generalizing text line with
  | ind n ih =>
    subst hn
    cases text with
    | nil => rw [scanFrom, skip]
    | cons c rest =>
      rw [scanFrom, skip]
      split
      · exact ih _ (by simp) rest (line + 1) rfl
      · split
        · exact ih _ (by simp) rest line rfl
        · split
          · have := length_dropWhile_le (· != '\n') rest
            exact ih _ (by simp; omega) _ line rfl
          · rfl

/-! ## Readers -/

/-- What a reader gives: an item, or the end of the source on a line. -/
inductive Entry where
  | item (found : Item)
  | eof (line : Nat)

/-- Whether the entry is the end of the source. -/
def Entry.isEnd : Entry → Bool
  | item _ => false
  | eof _ => true

/-- An entry and the bytes it covers. -/
structure Located where
  entry : Entry
  start : Nat
  stop : Nat

/-- A reader on its way through a source. -/
structure Reader where
  /-- How many bytes the source has. -/
  size : Nat
  /-- The text that is left. -/
  rest : List Char
  line : Nat
  /-- Whether the end of the source was given. -/
  ended : Bool

namespace Reader

/-- The reader at the start of a source. -/
def start (source : String) : Reader :=
  ⟨source.utf8ByteSize, source.toList, 1, false⟩

/-- The next entry, if there is one, and the reader behind it. -/
def next (r : Reader) : Option Located × Reader :=
  if r.ended then (none, r)
  else match skip r.rest r.line with
    | ([], line) =>
      (some ⟨.eof line, r.size, r.size⟩, ⟨r.size, [], line, true⟩)
    | (c :: text, line) =>
      let lexed := itemAt c text line
      (some ⟨.item lexed.item, r.size - bytes (c :: text),
          r.size - bytes lexed.rest⟩,
        ⟨r.size, lexed.rest, lexed.line, false⟩)

/-- The reader after a number of entries were asked for. -/
def after : Nat → Reader → Reader
  | 0, r => r
  | n + 1, r => after n r.next.2

section

variable (size : Nat) {line line' : Nat} {text : List Char}

theorem next_of_skip_nil (h : skip text line = ([], line')) :
    (⟨size, text, line, false⟩ : Reader).next =
      (some ⟨.eof line', size, size⟩, ⟨size, [], line', true⟩) := by
  simp only [next, h]
  rfl

theorem next_of_skip_cons {c : Char} {left : List Char}
    (h : skip text line = (c :: left, line')) {lexed : Lexed}
    (hlexed : itemAt c left line' = lexed) :
    (⟨size, text, line, false⟩ : Reader).next =
      (some ⟨.item lexed.item, size - bytes (c :: left),
          size - bytes lexed.rest⟩,
        ⟨size, lexed.rest, lexed.line, false⟩) := by
  simp only [next, h, hlexed]
  rfl

end

/-- A reader that has given the end of the source gives nothing more. -/
theorem next_after_of_ended {r : Reader} (h : r.ended = true) (n : Nat) :
    (r.after n).next.1 = none := by
  have hnext : r.next = (none, r) := by rw [next, if_pos h]
  induction n with
  | zero => rw [after, hnext]
  | succ n ih => rw [after, hnext, ih]

end Reader

end Lox.Token
