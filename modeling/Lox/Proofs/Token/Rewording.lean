import Lox.Proofs.Renaming.Reading
import Lox.Proofs.Token.Munch

/-!
# Texts with new names

If of the tokens of a text some that are `old` become `new`, then the changed
tokens are those of a text too, on the same lines (`exists_reworded`): the
word is replaced where it stands.  Only the start of the text behind an item
has a part in what the item is, and for this one name is as good as another
(`Like`).
-/

namespace Lox.Token

/-! ## Texts that start alike -/

/-- The texts are the same up to a place where each has a name, or to their
end. -/
inductive Like : List Char → List Char → Prop where
  | nil : Like [] []
  | same (c : Char) {text text' : List Char} (h : Like text text') :
      Like (c :: text) (c :: text')
  | word {c c' : Char} {text text' : List Char} (h : isNameStart c = true)
      (h' : isNameStart c' = true) : Like (c :: text) (c' :: text')

namespace Like

variable {text text' : List Char}

theorem refl (text : List Char) : Like text text := by
  induction text with
  | nil => exact .nil
  | cons c text ih => exact .same c ih

theorem prepend (front : List Char) (h : Like text text') :
    Like (front ++ text) (front ++ text') := by
  induction front with
  | nil => exact h
  | cons c front ih => exact .same c ih

/-- A property of characters that holds of all that start a name, or of
none, holds of the first character of both texts or of neither. -/
theorem head_iff (h : Like text text') {p : Char → Bool} {b : Bool}
    (hp : ∀ c, isNameStart c = true → p c = b) :
    text'.head?.map p = text.head?.map p := by
  cases h with
  | nil => rfl
  | same c h => rfl
  | word h h' => simp [hp _ h, hp _ h']

end Like

/-- The text does not start with such a character. -/
def Stops (p : Char → Bool) (text : List Char) : Prop :=
  ∀ c ∈ text.head?, p c = false

theorem stops_dropWhile (p : Char → Bool) (text : List Char) :
    Stops p (text.dropWhile p) := by
  intro c hc
  have hnot := List.head?_dropWhile_not p text
  rw [hc] at hnot
  exact hnot

theorem Stops.like {p : Char → Bool} {text text' : List Char}
    (h : Stops p text) (hlike : Like text text') {b : Bool}
    (hp : ∀ c, isNameStart c = true → p c = b) : Stops p text' := by
  intro c hc
  have hhead := hlike.head_iff hp
  rw [hc] at hhead
  cases htext : text.head? with
  | none =>
    rw [htext] at hhead
    cases hhead
  | some d =>
    rw [htext] at hhead
    have heq : p c = p d := Option.some.inj hhead
    rw [heq]
    exact h d htext

theorem takeWhile_of_stops {p : Char → Bool} {taken rest : List Char}
    (htaken : ∀ c ∈ taken, p c = true) (hrest : Stops p rest) :
    (taken ++ rest).takeWhile p = taken ∧ (taken ++ rest).dropWhile p = rest := by
  rw [List.takeWhile_append_of_pos htaken, List.dropWhile_append_of_pos htaken]
  cases rest with
  | nil => simp
  | cons c rest => simp [hrest c rfl]

/-! ## Characters that start a name -/

theorem isNamePart_of_isNameStart {c : Char} (h : isNameStart c = true) :
    isNamePart c = true := by
  simp only [isNameStart, Bool.or_eq_true] at h
  simp only [isNamePart, Char.isAlphanum, Bool.or_eq_true]
  tauto

/-- Only a name is read as an identifier. -/
theorem isNameStart_of_identifier {c : Char} {text : List Char} {line l : Nat}
    {x : String} (h : (itemAt c text line).item = .token ⟨.identifier x, l⟩) :
    isNameStart c = true := by
  unfold itemAt at h
  split at h
  · cases h
  · split at h <;> cases h
  · split at h
    · unfold stringFrom at h
      split at h <;> cases h
    · split at h
      · unfold numberFrom at h
        split at h
        · split at h <;> cases h
        · cases h
      · split at h
        · next hname => exact hname
        · cases h

/-! ## One item before another text -/

/-- What is read takes some of the text, and it takes the same before every
text that starts like what it leaves. -/
def Takes (read : List Char → Lexed) (text : List Char) : Prop :=
  ∃ taken rest item line, text = taken ++ rest ∧ ∀ rest', Like rest rest' →
    read (taken ++ rest') = ⟨item, rest', line⟩

/-- A text in two parts, of which the first goes as far as it can. -/
theorem exists_span (p : Char → Bool) (text : List Char) :
    ∃ taken rest, text = taken ++ rest ∧ (∀ c ∈ taken, p c = true) ∧
      Stops p rest :=
  ⟨text.takeWhile p, text.dropWhile p, List.takeWhile_append_dropWhile.symm,
    List.all_eq_true.1 List.all_takeWhile, stops_dropWhile p text⟩

theorem takes_stringFrom {text : List Char} {line : Nat}
    (h : (stringFrom text line).item.isToken = true) :
    Takes (stringFrom · line) text := by
  obtain ⟨content, rest, rfl, hcontent, hrest⟩ := exists_span (· != '"') text
  cases rest with
  | nil =>
    obtain ⟨-, hdrop⟩ := takeWhile_of_stops hcontent hrest
    simp only [stringFrom, hdrop] at h
    cases h
  | cons quote rest =>
    obtain rfl : quote = '"' := by simpa using hrest quote rfl
    refine ⟨content ++ ['"'], rest,
      .token ⟨.string (String.ofList content), line + lineEnds content⟩,
      line + lineEnds content, by simp, fun rest' _ => ?_⟩
    have hstops : Stops (· != '"') ('"' :: rest') := by
      rintro c ⟨⟩
      rfl
    obtain ⟨htake, hdrop⟩ := takeWhile_of_stops hcontent hstops
    simp only [List.append_assoc, List.singleton_append, stringFrom, htake,
      hdrop]

theorem takes_wordFrom (first : Char) (text : List Char) (line : Nat) :
    Takes (wordFrom first · line) text := by
  obtain ⟨word, rest, rfl, hword, hrest⟩ := exists_span isNamePart text
  refine ⟨word, rest, .token ⟨.ofWord (String.ofList (first :: word)), line⟩,
    line, rfl, fun rest' hlike => ?_⟩
  obtain ⟨htake, hdrop⟩ := takeWhile_of_stops hword
    (hrest.like hlike fun _ => isNamePart_of_isNameStart)
  simp only [wordFrom, htake, hdrop]

/-- The text is not the fraction of a number. -/
def NoFraction : List Char → Prop
  | '.' :: digit :: _ => digit.isDigit = false
  | _ => True

theorem NoFraction.like {text text' : List Char} (h : NoFraction text)
    (hlike : Like text text') : NoFraction text' := by
  unfold NoFraction
  split
  · next digit rest' =>
    cases hlike with
    | word _ hname => exact absurd hname (by decide)
    | same _ hrest =>
      cases hrest with
      | same _ _ => exact h
      | word _ hname => exact isDigit_of_isNameStart hname
  · trivial

theorem numberFrom_whole {first : Char} {digits rest : List Char} {line : Nat}
    (hdigits : ∀ c ∈ digits, c.isDigit = true)
    (hrest : Stops Char.isDigit rest) (hfraction : NoFraction rest) :
    numberFrom first (digits ++ rest) line =
      ⟨.token ⟨.number (String.ofList (first :: digits))
        (Number.ofDigits (first :: digits) []), line⟩, rest, line⟩ := by
  obtain ⟨htake, hdrop⟩ := takeWhile_of_stops hdigits hrest
  simp only [numberFrom, htake, hdrop]
  split
  · next digit rest =>
    have hdigit : digit.isDigit = false := hfraction
    simp only [hdigit, Bool.false_eq_true, if_false]
  · rfl

theorem numberFrom_fraction {first digit : Char}
    {digits fraction rest : List Char} {line : Nat}
    (hdigits : ∀ c ∈ digits, c.isDigit = true) (hdigit : digit.isDigit = true)
    (hfraction : ∀ c ∈ fraction, c.isDigit = true)
    (hrest : Stops Char.isDigit rest) :
    numberFrom first (digits ++ '.' :: digit :: fraction ++ rest) line =
      ⟨.token ⟨.number
          (String.ofList (first :: digits ++ '.' :: digit :: fraction))
          (Number.ofDigits (first :: digits) (digit :: fraction)), line⟩,
        rest, line⟩ := by
  have hpoint : Stops Char.isDigit ('.' :: digit :: (fraction ++ rest)) := by
    rintro c ⟨⟩
    decide
  obtain ⟨htake, hdrop⟩ := takeWhile_of_stops hdigits hpoint
  obtain ⟨htake', hdrop'⟩ := takeWhile_of_stops hfraction hrest
  simp only [List.append_assoc, List.cons_append, numberFrom, htake, hdrop,
    hdigit, if_true, htake', hdrop']

theorem takes_numberFrom (first : Char) (text : List Char) (line : Nat) :
    Takes (numberFrom first · line) text := by
  have hnone (c : Char) (hc : isNameStart c = true) := isDigit_of_isNameStart hc
  obtain ⟨digits, rest, rfl, hdigits, hrest⟩ := exists_span Char.isDigit text
  by_cases hfraction : NoFraction rest
  · exact ⟨digits, rest, _, line, rfl, fun rest' hlike =>
      numberFrom_whole hdigits (hrest.like hlike hnone) (hfraction.like hlike)⟩
  · unfold NoFraction at hfraction
    split at hfraction
    · next digit rest =>
      obtain ⟨fraction, rest, rfl, hfraction', hstop⟩ :=
        exists_span Char.isDigit rest
      have hdigit : digit.isDigit = true := by simpa using hfraction
      exact ⟨digits ++ '.' :: digit :: fraction, rest, _, line, by simp,
        fun rest' hlike => numberFrom_fraction hdigits hdigit hfraction'
          (hstop.like hlike hnone)⟩
    · exact absurd trivial hfraction

/-- A token is the same before every text that starts alike. -/
theorem takes_itemAt {c : Char} {text : List Char} {line : Nat}
    (h : (itemAt c text line).item.isToken = true) :
    Takes (itemAt c · line) text := by
  unfold Takes
  unfold itemAt at h ⊢
  split
  · exact ⟨[], text, _, _, rfl, fun _ _ => rfl⟩
  · next alone withEqual _ _ =>
    by_cases hequal : ∃ rest, text = '=' :: rest
    · obtain ⟨rest, rfl⟩ := hequal
      exact ⟨['='], rest, _, _, rfl, fun _ _ => rfl⟩
    · refine ⟨[], text, .token ⟨.symbol alone, line⟩, line, rfl,
        fun rest' hlike => ?_⟩
      simp only [List.nil_append]
      split
      · next rest =>
        cases hlike with
        | same _ _ => exact absurd ⟨_, rfl⟩ hequal
        | word _ hname => exact absurd hname (by decide)
      · rfl
  · next hsingle hdouble =>
    simp only [hsingle, hdouble] at h
    by_cases hquote : (c == '"') = true
    · simp only [hquote, if_true] at h ⊢
      exact takes_stringFrom h
    · simp only [hquote, Bool.false_eq_true, if_false] at h ⊢
      by_cases hdigit : c.isDigit = true
      · simp only [hdigit, if_true]
        exact takes_numberFrom c text line
      · simp only [hdigit, Bool.false_eq_true, if_false] at h ⊢
        by_cases hname : isNameStart c = true
        · simp only [hname, if_true]
          exact takes_wordFrom c text line
        · simp only [hname, Bool.false_eq_true, if_false] at h
          cases h

/-! ## The whole text -/

/-- A place where an item stands. -/
structure AtItem (c : Char) (rest : List Char) : Prop where
  lineEnd : (c == '\n') = false
  blank : isBlank c = false
  comment : (c == '/' && rest.head? == some '/') = false

theorem scanFrom_item {c : Char} {rest : List Char} (h : AtItem c rest)
    (line : Nat) :
    scanFrom (c :: rest) line [] =
      ⟨(itemAt c rest line).item ::
          (scanFrom (itemAt c rest line).rest (itemAt c rest line).line []).items,
        (scanFrom (itemAt c rest line).rest
          (itemAt c rest line).line []).endLine⟩ := by
  rw [scanFrom, scanFrom_found]
  simp only [h.lineEnd, h.blank, h.comment, Bool.false_eq_true, if_false]
  rw [scanFrom_found]
  rfl

/-- What separates items is a line end, a blank, or a comment. -/
theorem atItem_of_not {c : Char} {rest : List Char} (hline : (c == '\n') = false)
    (hblank : ¬ isBlank c = true)
    (hcomment : ¬ ∃ comment, c = '/' ∧ rest = '/' :: comment) :
    AtItem c rest := by
  refine ⟨hline, by simpa using hblank, ?_⟩
  cases rest with
  | nil => simp
  | cons d rest =>
    by_cases hc : c = '/'
    · have hd : d ≠ '/' := fun hd => hcomment ⟨rest, hc, by rw [hd]⟩
      simp [hd]
    · simp [hc]

/-- A name stands before whatever follows. -/
theorem atItem_of_isNameStart {c : Char} (h : isNameStart c = true)
    (rest : List Char) : AtItem c rest where
  lineEnd := beq_false_of_ne (ne_of_isNameStart h (by decide))
  blank := by
    have hspace := ne_of_isNameStart h (d := ' ') (by decide)
    have hreturn := ne_of_isNameStart h (d := '\r') (by decide)
    have htab := ne_of_isNameStart h (d := '\t') (by decide)
    simp [isBlank, hspace, hreturn, htab]
  comment := by
    have hslash := ne_of_isNameStart h (d := '/') (by decide)
    simp [hslash]

theorem Like.isSlash {text text' : List Char} (h : Like text text') :
    (text'.head? == some '/') = (text.head? == some '/') := by
  cases h with
  | nil => rfl
  | same c h => rfl
  | @word c c' _ _ h h' =>
    have hslash := ne_of_isNameStart h (d := '/') (by decide)
    have hslash' := ne_of_isNameStart h' (d := '/') (by decide)
    simp [hslash, hslash']

/-- A name is read as an identifier before every text that stops it. -/
theorem itemAt_isName {word : String} (h : isName word = true)
    {rest : List Char} (hrest : Stops isNamePart rest) (line : Nat) :
    ∃ c more, isNameStart c = true ∧ itemAt c (more ++ rest) line =
      ⟨.token ⟨.identifier word, line⟩, rest, line⟩ := by
  unfold isName at h
  split at h
  · cases h
  · next c more hword =>
    simp only [Bool.and_eq_true, List.all_eq_true,
      Option.isNone_iff_eq_none] at h
    obtain ⟨⟨hstart, hmore⟩, hkeyword⟩ := h
    obtain ⟨htake, hdrop⟩ := takeWhile_of_stops hmore hrest
    have hlist : String.ofList (c :: more) = word := by
      rw [← hword, String.ofList_toList]
    refine ⟨c, more, hstart, ?_⟩
    simp only [itemAt_of_isNameStart hstart, wordFrom, htake, hdrop, hlist,
      Kind.ofWord, hkeyword]

/-- The token that becomes of a token, before a text that starts like what
comes behind it. -/
theorem exists_item {r : Renaming} {c : Char} {rest rest' : List Char}
    {line : Nat} {t t' : Token} (hitem : AtItem c rest)
    (ht : (itemAt c rest line).item = .token t) (htoken : Rewrites r t t')
    (hlike : Like (itemAt c rest line).rest rest') :
    ∃ text' c', Like (c :: rest) (c' :: text') ∧ AtItem c' text' ∧
      itemAt c' text' line =
        ⟨.token t', rest', (itemAt c rest line).line⟩ := by
  rcases htoken with rfl | ⟨hkind, rfl⟩
  · have hclean : (itemAt c rest line).item.isToken = true := by rw [ht]; rfl
    obtain ⟨taken, left, item, line', rfl, hread⟩ := takes_itemAt hclean
    have hself : itemAt c (taken ++ left) line = ⟨item, left, line'⟩ :=
      hread left (.refl left)
    rw [hself] at ht hlike ⊢
    have hwhole := hlike.prepend taken
    refine ⟨taken ++ rest', c, .same c hwhole, ?_, ?_⟩
    · exact ⟨hitem.lineEnd, hitem.blank, by
        rw [hwhole.isSlash]
        exact hitem.comment⟩
    · rw [← ht]
      exact hread rest' hlike
  · obtain ⟨kind, l⟩ := t
    subst hkind
    have hstart := isNameStart_of_identifier ht
    rw [itemAt_of_isNameStart hstart] at ht hlike ⊢
    obtain rfl : line = l := (Token.mk.inj (Item.token.inj ht)).2
    have hstop := (stops_dropWhile isNamePart rest).like hlike
      fun _ => isNamePart_of_isNameStart
    obtain ⟨c', more, hstart', hread⟩ :=
      itemAt_isName r.new_isName hstop line
    exact ⟨more ++ rest', c', .word hstart hstart',
      atItem_of_isNameStart hstart' _, hread⟩

-- What separates items is dropped.

theorem scanFrom_lineEnd (rest : List Char) (line : Nat) :
    scanFrom ('\n' :: rest) line [] = scanFrom rest (line + 1) [] := by
  rw [scanFrom]
  rfl

theorem scanFrom_blank {c : Char} (hline : (c == '\n') = false)
    (h : isBlank c = true) (rest : List Char) (line : Nat) :
    scanFrom (c :: rest) line [] = scanFrom rest line [] := by
  rw [scanFrom]
  simp only [hline, h, Bool.false_eq_true, if_false, if_true]

theorem scanFrom_comment {comment rest : List Char}
    (h : ∀ c ∈ comment, (c != '\n') = true) (hrest : Stops (· != '\n') rest)
    (line : Nat) :
    scanFrom ('/' :: '/' :: (comment ++ rest)) line [] =
      scanFrom rest line [] := by
  obtain ⟨-, hdrop⟩ := takeWhile_of_stops h hrest
  have hslash : ('/' :: (comment ++ rest)).dropWhile (· != '\n') = rest := by
    simp [hdrop]
  rw [scanFrom]
  simp only [List.head?_cons, BEq.rfl, Bool.and_self, if_true, hslash]
  rfl

/-- The tokens of a text with `new` put for some that are `old` are those of
another text. -/
theorem exists_reworded {r : Renaming} {text : List Char} {line : Nat}
    {w w' : List Token} (hitems : (scanFrom text line []).items = w.map .token)
    (hw : Rewritten r w w') :
    ∃ text', Like text text' ∧
      scanFrom text' line [] =
        ⟨w'.map .token, (scanFrom text line []).endLine⟩ := by
  induction hn : text.length using Nat.strongRecOn
    generalizing text line w w' with
  | ind n ih =>
    subst hn
    cases text with
    | nil =>
      rw [scanFrom] at hitems
      obtain rfl : w = [] := List.map_eq_nil_iff.1 hitems.symm
      cases hw
      exact ⟨[], .nil, by simp [scanFrom]⟩
    | cons c rest =>
      by_cases hlineEnd : c = '\n'
      · subst hlineEnd
        rw [scanFrom_lineEnd] at hitems ⊢
        obtain ⟨rest', hlike, hscan⟩ := ih _ (by simp) hitems hw rfl
        exact ⟨_, .same _ hlike, by rw [scanFrom_lineEnd, hscan]⟩
      have hline : (c == '\n') = false := beq_false_of_ne hlineEnd
      by_cases hblank : isBlank c = true
      · rw [scanFrom_blank hline hblank] at hitems ⊢
        obtain ⟨rest', hlike, hscan⟩ := ih _ (by simp) hitems hw rfl
        exact ⟨_, .same _ hlike, by rw [scanFrom_blank hline hblank, hscan]⟩
      by_cases hcomment : ∃ rest₁, c = '/' ∧ rest = '/' :: rest₁
      · obtain ⟨rest₁, rfl, rfl⟩ := hcomment
        obtain ⟨comment, rest₂, rfl, hall, hstop⟩ :=
          exists_span (· != '\n') rest₁
        rw [scanFrom_comment hall hstop] at hitems ⊢
        obtain ⟨rest', hlike, hscan⟩ := ih _ (by simp; omega) hitems hw rfl
        have hstop' := hstop.like hlike fun c hc =>
          bne_iff_ne.2 (ne_of_isNameStart hc (by decide))
        exact ⟨_, .same _ (.same _ (hlike.prepend comment)),
          by rw [scanFrom_comment hall hstop', hscan]⟩
      · have hitem := atItem_of_not hline hblank hcomment
        rw [scanFrom_item hitem] at hitems ⊢
        cases hw with
        | nil => cases hitems
        | @cons t t' w₁ w₁' htoken hrest =>
          obtain ⟨ht, hitems⟩ := List.cons.inj hitems
          have hshorter := itemAt_rest_le c rest line
          obtain ⟨rest', hlike, hscan⟩ := ih _ (by simp; omega) hitems hrest rfl
          obtain ⟨text', c', hlike', hitem', hread⟩ :=
            exists_item hitem ht htoken hlike
          refine ⟨c' :: text', hlike', ?_⟩
          rw [scanFrom_item hitem', hread, hscan]
          rfl

theorem Scan.items_of_clean {s : Scan} (h : s.diagnostics = []) :
    s.items = s.tokens.map .token := by
  have hclean := s.isClean_iff.2 h
  obtain ⟨items, endLine⟩ := s
  simp only [Scan.isClean, Scan.tokens] at hclean ⊢
  induction items with
  | nil => rfl
  | cons item items ih =>
    obtain ⟨hitem, hitems⟩ := List.forall_mem_cons.1 hclean
    cases item with
    | fault line cause => cases hitem
    | token t =>
      have hrest : (Scan.mk items endLine).diagnostics = [] :=
        (Scan.isClean_iff _).1 hitems
      simp only [List.filterMap_cons, List.map_cons, ← ih hrest hitems]

/-- The tokens of a source with `new` put for some that are `old` are those of
another source. -/
theorem exists_source {r : Renaming} {source : String} {w' : List Token}
    (hclean : (scan source).diagnostics = [])
    (hw : Rewritten r (scan source).tokens w') :
    ∃ source', (scan source').tokens = w' ∧ (scan source').diagnostics = [] := by
  obtain ⟨text', -, hscan⟩ := exists_reworded (Scan.items_of_clean hclean) hw
  refine ⟨String.ofList text', ?_, ?_⟩
  · simp [scan, hscan, Scan.tokens, List.filterMap_map]
  · simp [scan, hscan, Scan.diagnostics, List.filterMap_map]

end Lox.Token
