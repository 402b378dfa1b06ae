import Lox.Proofs.Labels
import Lox.Proofs.Token.LineEnds
import Mathlib.Data.List.TakeWhile

/-!
# Where a text can be cut

A line end is never in the middle of a token, unless it is in a string.  So a
text in which every string is closed can be scanned on its own and what comes
behind a line end after it on its own as well: `scan_closed` says that the
items are those of the one text and then those of the other, further down.
-/

namespace Lox.Token

/-! ## Taking from the front of a longer text -/

theorem takeWhile_append_of_stop {p : Char → Bool} {c : Char}
    (hc : p c = false) (text more : List Char) :
    (text ++ c :: more).takeWhile p = text.takeWhile p := by
  rw [List.takeWhile_append, List.takeWhile_cons_of_neg (by simp [hc])]
  split
  · next h => rw [(List.takeWhile_prefix p).eq_of_length h, List.append_nil]
  · rfl

theorem dropWhile_append_of_stop {p : Char → Bool} {c : Char}
    (hc : p c = false) (text more : List Char) :
    (text ++ c :: more).dropWhile p = text.dropWhile p ++ c :: more := by
  rw [List.dropWhile_append, List.dropWhile_cons_of_neg (by simp [hc])]
  split
  · next h => rw [List.isEmpty_iff.1 h, List.nil_append]
  · rfl

theorem takeWhile_append_of_ne_nil {p : Char → Bool} {text : List Char}
    (h : text.dropWhile p ≠ []) (more : List Char) :
    (text ++ more).takeWhile p = text.takeWhile p := by
  have hshort : (text.takeWhile p).length ≠ text.length := by
    intro hlength
    have hall := (List.takeWhile_prefix p).eq_of_length hlength
    exact h (List.dropWhile_eq_nil_iff.2 (List.takeWhile_eq_self_iff.1 hall))
  rw [List.takeWhile_append, if_neg hshort]

theorem dropWhile_append_of_ne_nil {p : Char → Bool} {text : List Char}
    (h : text.dropWhile p ≠ []) (more : List Char) :
    (text ++ more).dropWhile p = text.dropWhile p ++ more := by
  rw [List.dropWhile_append, if_neg (mt List.isEmpty_iff.1 h)]

/-! ## One item in a longer text -/

/-- The item is a token and not a fault. -/
def Item.isToken : Item → Bool
  | .token _ => true
  | .fault _ _ => false

/-- The item is not a string that is never closed. -/
def Item.isClosed : Item → Bool
  | .fault _ .unterminatedString => false
  | _ => true

theorem Item.isClosed_of_isToken {item : Item} (h : item.isToken = true) :
    item.isClosed = true := by
  cases item with
  | token t => rfl
  | fault line cause => cases h

/-- The same item with more text behind it. -/
def Lexed.before (lexed : Lexed) (more : List Char) : Lexed :=
  { lexed with rest := lexed.rest ++ more }

theorem stringFrom_append {text : List Char} {line : Nat}
    (h : (stringFrom text line).item.isClosed = true) (more : List Char) :
    stringFrom (text ++ more) line = (stringFrom text line).before more := by
  have hclosed : text.dropWhile (· != '"') ≠ [] := by
    intro hopen
    simp only [stringFrom, hopen] at h
    cases h
  obtain ⟨quote, rest, hrest⟩ := List.exists_cons_of_ne_nil hclosed
  simp only [stringFrom, takeWhile_append_of_ne_nil hclosed,
    dropWhile_append_of_ne_nil hclosed, hrest, List.cons_append, Lexed.before]

theorem numberFrom_append (first : Char) (text : List Char) (line : Nat)
    (more : List Char) :
    numberFrom first (text ++ '\n' :: more) line =
      (numberFrom first text line).before ('\n' :: more) := by
  have hstop : Char.isDigit '\n' = false := by decide
  unfold numberFrom
  rw [takeWhile_append_of_stop hstop, dropWhile_append_of_stop hstop]
  -- What is behind the digits decides whether there is a fraction.
  rcases text.dropWhile Char.isDigit with (_ | ⟨point, _ | ⟨digit, rest⟩⟩)
  · rfl
  · by_cases hpoint : point = '.'
    · subst hpoint
      simp [hstop, Lexed.before]
    · simp [hpoint, Lexed.before]
  · by_cases hpoint : point = '.'
    · subst hpoint
      by_cases hdigit : digit.isDigit
      · simp [hdigit, Lexed.before, takeWhile_append_of_stop hstop,
          dropWhile_append_of_stop hstop]
      · simp [hdigit, Lexed.before]
    · simp [hpoint, Lexed.before]

theorem wordFrom_append (first : Char) (text : List Char) (line : Nat)
    (more : List Char) :
    wordFrom first (text ++ '\n' :: more) line =
      (wordFrom first text line).before ('\n' :: more) := by
  have hstop : isNamePart '\n' = false := by decide
  unfold wordFrom
  rw [takeWhile_append_of_stop hstop, dropWhile_append_of_stop hstop]
  rfl

/-- A line end behind a text does not change the first item of it. -/
theorem itemAt_append {c : Char} {text : List Char} {line : Nat}
    (h : (itemAt c text line).item.isClosed = true) (more : List Char) :
    itemAt c (text ++ '\n' :: more) line =
      (itemAt c text line).before ('\n' :: more) := by
  unfold itemAt at h ⊢
  split
  · rfl
  · next alone withEqual _ _ =>
    cases text with
    | nil => rfl
    | cons a text =>
      by_cases ha : a = '='
      · subst ha; rfl
      · simp [ha, Lexed.before]
  · next hsingle hdouble =>
    simp only [hsingle, hdouble] at h
    split
    · next hquote =>
      rw [if_pos hquote] at h
      exact stringFrom_append h _
    · next hquote =>
      rw [if_neg hquote] at h
      split
      · exact numberFrom_append c text line more
      · split
        · exact wordFrom_append c text line more
        · rfl

/-! ## The whole text -/

theorem scanFrom_found (text : List Char) (line : Nat) (found : List Item) :
    scanFrom text line found =
      ⟨found.reverse ++ (scanFrom text line []).items,
        (scanFrom text line []).endLine⟩ := by
  induction hn : text.length using Nat.strongRecOn generalizing text line found with
  | ind n ih =>
    subst hn
    cases text with
    | nil => simp [scanFrom]
    | cons c rest =>
      rw [scanFrom, scanFrom]
      split
      · exact ih _ (by simp) rest _ _ rfl
      · split
        · exact ih _ (by simp) rest _ _ rfl
        · split
          · have := length_dropWhile_le (· != '\n') rest
            exact ih _ (by simp; omega) _ _ _ rfl
          · have := itemAt_rest_le c rest line
            simp only
            rw [ih _ (by simp; omega) _ _ (_ :: found) rfl,
              ih _ (by simp; omega) _ _ [_] rfl]
            simp

/-- The scan found no fault. -/
def Scan.isClean (s : Scan) : Prop :=
  ∀ item ∈ s.items, item.isToken = true

theorem Scan.isClean_iff (s : Scan) : s.isClean ↔ s.diagnostics = [] := by
  simp only [Scan.isClean, Scan.diagnostics, List.filterMap_eq_nil_iff]
  refine forall_congr' fun item => imp_congr_right fun _ => ?_
  cases item <;> simp [Item.isToken]

/-- The scan found no string that is never closed. -/
def Scan.isClosed (s : Scan) : Prop :=
  ∀ item ∈ s.items, item.isClosed = true

theorem Scan.isClean.isClosed {s : Scan} (h : s.isClean) : s.isClosed :=
  fun item hitem => Item.isClosed_of_isToken (h item hitem)

/-- A text in which every string is closed is scanned in the same way in front
of a line end. -/
theorem scanFrom_append (text more : List Char) (line : Nat)
    (h : (scanFrom text line []).isClosed) :
    scanFrom (text ++ '\n' :: more) line [] =
      ⟨(scanFrom text line []).items ++
          (scanFrom more ((scanFrom text line []).endLine + 1) []).items,
        (scanFrom more ((scanFrom text line []).endLine + 1) []).endLine⟩ := by
  induction hn : text.length using Nat.strongRecOn generalizing text line with
  | ind n ih =>
    subst hn
    cases text with
    | nil =>
      rw [List.nil_append, scanFrom]
      simp [scanFrom]
    | cons c rest =>
      rw [List.cons_append, scanFrom]
      rw [scanFrom] at h ⊢
      split
      · next hc =>
        simp only [hc, if_true] at h
        exact ih _ (by simp) rest _ h rfl
      · next hc =>
        simp only [hc, Bool.false_eq_true, if_false] at h
        split
        · next hblank =>
          simp only [hblank, if_true] at h
          exact ih _ (by simp) rest _ h rfl
        · next hblank =>
          simp only [hblank, Bool.false_eq_true, if_false] at h
          have hhead : ((rest ++ '\n' :: more).head? == some '/') =
              (rest.head? == some '/') := by
            cases rest <;> rfl
          rw [hhead]
          split
          · next hcomment =>
            simp only [hcomment, if_true] at h
            have := length_dropWhile_le (· != '\n') rest
            rw [dropWhile_append_of_stop (by decide)]
            exact ih _ (by simp; omega) _ _ h rfl
          · next hcomment =>
            simp only [hcomment, Bool.false_eq_true, if_false] at h
            rw [scanFrom_found] at h
            have hitem : (itemAt c rest line).item.isClosed = true :=
              h _ (by simp)
            have hrest : (scanFrom (itemAt c rest line).rest
                (itemAt c rest line).line []).isClosed :=
              fun item hi => h item (by simp [hi])
            have := itemAt_rest_le c rest line
            simp only [itemAt_append hitem, Lexed.before]
            rw [scanFrom_found, ih _ (by simp; omega) _ _ hrest rfl,
              scanFrom_found _ _ [(itemAt c rest line).item]]
            simp

/-! ## Moving down -/

/-- The item further down. -/
def Item.down (k : Nat) : Item → Item
  | .token t => .token (t.relabel (.down k))
  | .fault line cause => .fault (line + k) cause

theorem stringFrom_down (text : List Char) (line k : Nat) :
    stringFrom text (line + k) =
      ⟨(stringFrom text line).item.down k, (stringFrom text line).rest,
        (stringFrom text line).line + k⟩ := by
  unfold stringFrom
  split <;> simp only [Item.down, Token.relabel, Labeling.down,
    Labeling.line_lines] <;>
    rw [Nat.add_right_comm]

theorem numberFrom_down (first : Char) (text : List Char) (line k : Nat) :
    numberFrom first text (line + k) =
      ⟨(numberFrom first text line).item.down k,
        (numberFrom first text line).rest,
        (numberFrom first text line).line + k⟩ := by
  unfold numberFrom
  split
  · split <;> rfl
  · rfl

theorem itemAt_down (c : Char) (text : List Char) (line k : Nat) :
    itemAt c text (line + k) =
      ⟨(itemAt c text line).item.down k, (itemAt c text line).rest,
        (itemAt c text line).line + k⟩ := by
  unfold itemAt
  split
  · rfl
  · split <;> rfl
  · split
    · exact stringFrom_down text line k
    · split
      · exact numberFrom_down c text line k
      · split <;> rfl

/-- A text that starts further down is scanned in the same way. -/
theorem scanFrom_down (text : List Char) (line k : Nat) :
    scanFrom text (line + k) [] =
      ⟨(scanFrom text line []).items.map (Item.down k),
        (scanFrom text line []).endLine + k⟩ := by
  induction hn : text.length using Nat.strongRecOn generalizing text line with
  | ind n ih =>
    subst hn
    cases text with
    | nil => simp [scanFrom]
    | cons c rest =>
      rw [scanFrom, scanFrom]
      split
      · rw [Nat.add_right_comm]
        exact ih _ (by simp) rest _ rfl
      · split
        · exact ih _ (by simp) rest _ rfl
        · split
          · have := length_dropWhile_le (· != '\n') rest
            exact ih _ (by simp; omega) _ _ rfl
          · have := itemAt_rest_le c rest line
            simp only [itemAt_down c rest line k]
            rw [scanFrom_found, ih _ (by simp; omega) _ _ rfl,
              scanFrom_found _ _ [(itemAt c rest line).item]]
            simp

/-- A source in which every string is closed and a source behind a line end
after it are scanned one after the other. -/
theorem scan_closed {first second : String} (h : (scan first).isClosed) :
    scan (first ++ "\n" ++ second) =
      ⟨(scan first).items ++
          (scan second).items.map (Item.down (scan first).endLine),
        (scan second).endLine + (scan first).endLine⟩ := by
  have htext : (first ++ "\n" ++ second).toList =
      first.toList ++ '\n' :: second.toList := by
    simp
  unfold scan at h ⊢
  rw [htext, scanFrom_append _ _ _ h, Nat.add_comm _ 1, scanFrom_down]

/-- The same of a source without faults. -/
theorem scan_append {first second : String}
    (h : (scan first).diagnostics = []) :
    scan (first ++ "\n" ++ second) =
      ⟨(scan first).items ++
          (scan second).items.map (Item.down (scan first).endLine),
        (scan second).endLine + (scan first).endLine⟩ :=
  scan_closed ((Scan.isClean_iff _).2 h).isClosed

end Lox.Token
