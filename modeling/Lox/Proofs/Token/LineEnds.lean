import Lox.Token.Lexer

/-!
# Counting lines

The lexer counts a line end where it skips one, and inside of strings.  No
line end is in any other token or in a comment, so the line reached and the
line ends that are still to come make up the same number all along: that of
the line on which the text ends (`itemAt_line`, `endLine_scanFrom`).  An item
is on the line that is reached behind it (`line_itemAt`).
-/

namespace Lox.Token

theorem lineEnds_append (text more : List Char) :
    lineEnds (text ++ more) = lineEnds text + lineEnds more :=
  List.count_append

theorem lineEnds_cons_lineEnd (text : List Char) :
    lineEnds ('\n' :: text) = lineEnds text + 1 :=
  List.count_cons_self

theorem lineEnds_cons_of_ne {c : Char} (h : c ≠ '\n') (text : List Char) :
    lineEnds (c :: text) = lineEnds text :=
  List.count_cons_of_ne h

/-- A line end is counted when it is passed, or while it is still to come. -/
theorem add_lineEnds_cons (line : Nat) (c : Char) (text : List Char) :
    (if c == '\n' then line + 1 else line) + lineEnds text =
      line + lineEnds (c :: text) := by
  by_cases hc : c = '\n'
  · subst hc
    rw [lineEnds_cons_lineEnd, if_pos (beq_self_eq_true _), Nat.add_right_comm,
      Nat.add_assoc]
  · rw [lineEnds_cons_of_ne hc, if_neg (by simpa using hc)]

/-- Characters of a class that the line end is not in are dropped. -/
theorem lineEnds_dropWhile {p : Char → Bool} (hp : p '\n' = false)
    (text : List Char) : lineEnds (text.dropWhile p) = lineEnds text := by
  induction text with
  | nil => rfl
  | cons c text ih =>
    by_cases hc : p c = true
    · have hne : c ≠ '\n' := by
        rintro rfl
        rw [hp] at hc
        cases hc
      rw [List.dropWhile_cons_of_pos hc, lineEnds_cons_of_ne hne, ih]
    · rw [List.dropWhile_cons_of_neg hc]

/-! ## One item -/

/-- The line of a token or of a fault. -/
def Item.line : Item → Nat
  | .token t => t.line
  | .fault line _ => line

theorem stringFrom_line (text : List Char) (line : Nat) :
    (stringFrom text line).line + lineEnds (stringFrom text line).rest =
      line + lineEnds text := by
  have hsplit := lineEnds_append (text.takeWhile (· != '"'))
    (text.dropWhile (· != '"'))
  rw [List.takeWhile_append_dropWhile] at hsplit
  unfold stringFrom
  split
  · next hopen =>
    rw [hopen] at hsplit
    rw [hsplit, Nat.add_assoc]
  · next quote rest hclosed =>
    -- What stops the content is a quote, and no line end.
    obtain rfl : quote = '"' := by
      have hstop := List.head?_dropWhile_not (· != '"') text
      simpa [hclosed] using hstop
    rw [hclosed, lineEnds_cons_of_ne (by decide)] at hsplit
    rw [hsplit, Nat.add_assoc]

theorem numberFrom_line (first : Char) (text : List Char) (line : Nat) :
    (numberFrom first text line).line +
        lineEnds (numberFrom first text line).rest = line + lineEnds text := by
  have hdigit : Char.isDigit '\n' = false := by decide
  rw [← lineEnds_dropWhile hdigit text]
  unfold numberFrom
  split
  · next digit rest hdrop =>
    rw [hdrop, lineEnds_cons_of_ne (by decide)]
    split
    · next hmore =>
      have hne : digit ≠ '\n' := by
        rintro rfl
        rw [hdigit] at hmore
        cases hmore
      rw [lineEnds_cons_of_ne hne, ← lineEnds_dropWhile hdigit rest]
    · rw [lineEnds_cons_of_ne (by decide)]
  · rfl

theorem wordFrom_line (first : Char) (text : List Char) (line : Nat) :
    (wordFrom first text line).line + lineEnds (wordFrom first text line).rest =
      line + lineEnds text :=
  congrArg (line + ·) (lineEnds_dropWhile (by decide) text)

/-- An item takes no line end that is not counted. -/
theorem itemAt_line (c : Char) (text : List Char) (line : Nat) :
    (itemAt c text line).line + lineEnds (itemAt c text line).rest =
      line + lineEnds text := by
  unfold itemAt
  split
  · rfl
  · split
    · rw [lineEnds_cons_of_ne (by decide)]
    · rfl
  · split
    · exact stringFrom_line text line
    · split
      · exact numberFrom_line c text line
      · split
        · exact wordFrom_line c text line
        · rfl

/-- An item is on the line that is reached behind it. -/
theorem line_itemAt (c : Char) (text : List Char) (line : Nat) :
    (itemAt c text line).item.line = (itemAt c text line).line := by
  unfold itemAt
  split
  · rfl
  · split <;> rfl
  · split
    · unfold stringFrom
      split <;> rfl
    · split
      · unfold numberFrom
        split
        · split <;> rfl
        · rfl
      · split <;> rfl

/-! ## The whole text -/

/-- A text ends as many lines further down as it has line ends. -/
theorem endLine_scanFrom (text : List Char) (line : Nat) (found : List Item) :
    (scanFrom text line found).endLine = line + lineEnds text := by
  fun_induction scanFrom text line found with
  | case1 => rfl
  | case2 line found c rest hline ih =>
    obtain rfl := eq_of_beq hline
    rw [ih, lineEnds_cons_lineEnd, Nat.add_right_comm, Nat.add_assoc]
  | case3 line found c rest hline hblank ih =>
    rw [ih, lineEnds_cons_of_ne (by simpa using hline)]
  | case4 line found c rest hline hblank hcomment ih =>
    rw [ih, lineEnds_dropWhile (by decide),
      lineEnds_cons_of_ne (by simpa using hline)]
  | case5 line found c rest hline hblank hcomment lexed ih =>
    rw [ih, itemAt_line, lineEnds_cons_of_ne (by simpa using hline)]

theorem endLine_scan (source : String) :
    (scan source).endLine = 1 + lineEnds source.toList :=
  endLine_scanFrom source.toList 1 []

end Lox.Token
