import Lox.Proofs.Token.Iteration

/-!
# Lines are exact

An entry of a reader is on the line that its place in the source says: one,
and one more for every line end before it ends (`lines_exact`).  A reader is
at a place where the line it has counted is right (`Reader.Stands`), and the
next entry brings it to such a place again.

So a source that is cut at a line end is scanned in two parts, the second of
them as many lines further down as there are line ends before it
(`scan_lineEnd`).
-/

namespace Lox.Token

/-- The line of an entry is that of its place.  A token is on the line on which
its lexeme ends, and a character that starts no token on the line on which it
stands; a string that is never closed, and the end of the source, are on the
line on which the source ends. -/
def Located.OnLine (source : String) (e : Located) : Prop :=
  ∃ before taken after, source = before ++ taken ++ after ∧
    e.start = before.utf8ByteSize ∧
    e.stop = (before ++ taken).utf8ByteSize ∧
    match e.entry with
    | .item (.token t) =>
      t.lexeme = taken ∧ t.line = 1 + lineEnds (before ++ taken).toList
    | .item (.fault line (.unexpected c)) =>
      taken = String.ofList [c] ∧ line = 1 + lineEnds before.toList
    | .item (.fault line .unterminatedString) =>
      line = 1 + lineEnds source.toList
    | .eof line => line = 1 + lineEnds source.toList

/-! ## Separators -/

/-- The line ends among separators are counted. -/
theorem skip_line (text : List Char) (line : Nat) :
    (skip text line).2 + lineEnds (skip text line).1 = line + lineEnds text := by
  fun_induction skip text line with
  | case1 => rfl
  | case2 line c rest hline ih =>
    obtain rfl := eq_of_beq hline
    rw [ih, lineEnds_cons_lineEnd, Nat.add_right_comm, Nat.add_assoc]
  | case3 line c rest hline hblank ih =>
    rw [ih, lineEnds_cons_of_ne (by simpa using hline)]
  | case4 line c rest hline hblank hcomment ih =>
    rw [ih, lineEnds_dropWhile (by decide),
      lineEnds_cons_of_ne (by simpa using hline)]
  | case5 => rfl

/-- Behind the separators there is no line end. -/
theorem ne_of_skip {text rest : List Char} {line line' : Nat} {c : Char}
    (h : skip text line = (c :: rest, line')) : c ≠ '\n' := by
  rintro rfl
  have hbare := noGap_skip text line
  rw [h] at hbare
  have hgap : Gap true ['\n'] := .blank (.inr (.inr (.inr rfl))) .nil
  exact absurd (hbare _ hgap ⟨rest, rfl⟩) (by simp)

/-! ## One entry -/

/-- An item is on its line, if the line that is reached behind it is right. -/
theorem onLine_item {source : String} {before taken rest : List Char}
    (h : source.toList = before ++ taken ++ rest) {found : Item}
    (hfound : found.Takes taken rest) (hends : ∀ c, taken = [c] → c ≠ '\n')
    (hline : found.line = 1 + lineEnds (before ++ taken)) :
    Located.OnLine source
      ⟨.item found, bytes before, bytes (before ++ taken)⟩ := by
  refine ⟨String.ofList before, String.ofList taken, String.ofList rest, ?_, rfl,
    ?_, ?_⟩
  · rw [← String.ofList_append, ← String.ofList_append, ← h,
      String.ofList_toList]
  · rw [← String.ofList_append]
    rfl
  cases found with
  | token t =>
    refine ⟨?_, ?_⟩
    · rw [← hfound.1, String.ofList_toList]
    · rw [← String.ofList_append, String.toList_ofList]
      exact hline
  | fault line cause =>
    cases cause with
    | unexpected c =>
      obtain ⟨rfl, -⟩ := hfound
      refine ⟨rfl, ?_⟩
      rw [lineEnds_append, lineEnds_cons_of_ne (hends c rfl)] at hline
      rw [String.toList_ofList]
      exact hline
    | unterminatedString =>
      obtain ⟨content, -, -, rfl⟩ := hfound
      rw [List.append_nil] at h
      show line = 1 + lineEnds source.toList
      rw [h]
      exact hline

theorem onLine_eof {source : String} {line : Nat}
    (hline : line = 1 + lineEnds source.toList) :
    Located.OnLine source
      ⟨.eof line, source.utf8ByteSize, source.utf8ByteSize⟩ :=
  ⟨source, "", "", by simp, rfl, by simp, hline⟩

/-! ## Readers -/

/-- The reader is on its way through the source, and the line it has counted is
that of its place. -/
structure Reader.Stands (source : String) (r : Reader) : Prop where
  size : r.size = source.utf8ByteSize
  place : r.ended = false → ∃ before, source.toList = before ++ r.rest ∧
    r.line = 1 + lineEnds before

namespace Reader

theorem stands_start (source : String) : (start source).Stands source :=
  ⟨rfl, fun _ => ⟨[], rfl, rfl⟩⟩

/-- The next entry is on its line, and the reader comes to a place where the
line it has counted is right again. -/
theorem Stands.next {source : String} {r : Reader} (h : r.Stands source) :
    (∀ e, r.next.1 = some e → e.OnLine source) ∧ r.next.2.Stands source := by
  obtain ⟨size, text, line, ended⟩ := r
  obtain ⟨hsize, hplace⟩ := h
  obtain rfl : size = source.utf8ByteSize := hsize
  cases ended with
  | true => exact ⟨nofun, rfl, nofun⟩
  | false =>
    obtain ⟨before, hsource, hline⟩ := hplace rfl
    obtain rfl : line = 1 + lineEnds before := hline
    replace hsource : source.toList = before ++ text := hsource
    obtain ⟨gap, htext, -⟩ := gap_skip text (1 + lineEnds before)
    have hcount := skip_line text (1 + lineEnds before)
    have hends : lineEnds text =
        lineEnds gap + lineEnds (skip text (1 + lineEnds before)).1 := by
      rw [← lineEnds_append, ← htext]
    rcases hskip : skip text (1 + lineEnds before) with ⟨_ | ⟨c, left⟩, line'⟩
    · rw [next_of_skip_nil _ hskip]
      refine ⟨?_, rfl, nofun⟩
      rintro e ⟨⟩
      refine onLine_eof ?_
      rw [hskip] at hcount
      rw [hsource, lineEnds_append, ← Nat.add_assoc, ← hcount]
      rfl
    · rw [hskip] at htext hcount hends
      have hc := ne_of_skip hskip
      obtain ⟨taken, htaken, hne, hfound⟩ := itemAt_munch c left line'
      have hitem := itemAt_line c left line'
      have hlineItem := line_itemAt c left line'
      generalize hlexed : itemAt c left line' = lexed
        at htaken hfound hitem hlineItem
      have hleft : source.toList = before ++ gap ++ (c :: left) := by
        rw [hsource, htext, List.append_assoc]
      have hrest : source.toList = before ++ gap ++ taken ++ lexed.rest := by
        rw [hleft, htaken, List.append_assoc _ taken]
      -- What is counted up to the item and in it makes up its line.
      have hreached : lexed.line = 1 + lineEnds (before ++ gap ++ taken) := by
        have hparts := lineEnds_append taken lexed.rest
        rw [← htaken] at hparts
        have hcons := lineEnds_cons_of_ne hc left
        simp only [lineEnds_append] at hcount hends ⊢
        omega
      rw [next_of_skip_cons _ hskip hlexed, size_sub_bytes hleft,
        size_sub_bytes hrest]
      refine ⟨?_, rfl, fun _ => ⟨_, hrest, hreached⟩⟩
      rintro e ⟨⟩
      refine onLine_item hrest hfound ?_ (hlineItem.trans hreached)
      rintro d rfl
      obtain ⟨rfl, -⟩ := List.cons.inj htaken
      exact hc

/-- All the way through a source the line is right. -/
theorem Stands.after {source : String} {r : Reader} (h : r.Stands source)
    (n : Nat) : (r.after n).Stands source := by
  induction n generalizing r with
  | zero => exact h
  | succ n ih => exact ih h.next.2

end Reader

/-- Lines are exact.  What a reader gives for a source, which is what `scan`
finds and behind it the end, is on the line that its place says: a token on
that of the end of its lexeme, a character that starts no token on its own, and
a string that is never closed and the end on the last one. -/
theorem lines_exact (source : String) :
    ∃ entries : List Located,
      (∀ n, ((Reader.start source).after n).next.1 = entries[n]?) ∧
      entries.map Located.entry =
        (scan source).items.map Entry.item ++ [.eof (scan source).endLine] ∧
      ∀ e ∈ entries, e.OnLine source := by
  obtain ⟨entries, hgiven, hfinds, -⟩ :=
    entries_from (List.nil_append source.toList).symm 1
  refine ⟨entries, hgiven, hfinds, fun e he => ?_⟩
  obtain ⟨n, hn⟩ := List.mem_iff_getElem?.1 he
  exact ((Reader.stands_start source).after n).next.1 e ((hgiven n).trans hn)

/-- A string of two lines is on the second of them. -/
example : (scan "a\n\"two\nlines\"\nb").items.map Item.line = [1, 3, 4] := by
  decide +kernel

/-- A line end cuts a source, unless a string is open there.  The items of
the source are those of what comes before the line end and, without the end
that is between them, those of what comes behind it, as many lines further
down as there are line ends up to the cut. -/
theorem scan_lineEnd {first second : String}
    (h : ∀ line, .fault line .unterminatedString ∉ (scan first).items) :
    scan (first ++ "\n" ++ second) =
      ⟨(scan first).items ++ (scan second).items.map
          (Item.down (1 + lineEnds first.toList)),
        (scan second).endLine + (1 + lineEnds first.toList)⟩ := by
  have hclosed : (scan first).isClosed := by
    intro item hitem
    unfold Item.isClosed
    split
    · next line => exact absurd hitem (h line)
    · rfl
  rw [scan_closed hclosed, endLine_scan first]

/-- A slash stays alone before a line end, even if another one follows, and
what starts no token is no obstacle. -/
theorem scan_lineEnd_sample :
    (scan "a$ \"x\ny\" /").items =
      [.token ⟨.identifier "a", 1⟩, .fault 1 (.unexpected '$'),
        .token ⟨.string "x\ny", 2⟩, .token ⟨.symbol .slash, 2⟩] ∧
    scan ("a$ \"x\ny\" /" ++ "\n" ++ "/ #") =
      ⟨[.token ⟨.identifier "a", 1⟩, .fault 1 (.unexpected '$'),
        .token ⟨.string "x\ny", 2⟩, .token ⟨.symbol .slash, 2⟩,
        .token ⟨.symbol .slash, 3⟩, .fault 3 (.unexpected '#')], 3⟩ := by
  have hfirst : (scan "a$ \"x\ny\" /").items =
      [.token ⟨.identifier "a", 1⟩, .fault 1 (.unexpected '$'),
        .token ⟨.string "x\ny", 2⟩, .token ⟨.symbol .slash, 2⟩] := by
    with_unfolding_all rfl
  have hsecond : scan "/ #" =
      ⟨[.token ⟨.symbol .slash, 1⟩, .fault 1 (.unexpected '#')], 1⟩ := by
    with_unfolding_all rfl
  refine ⟨hfirst, ?_⟩
  rw [scan_lineEnd (by simp [hfirst]), hfirst, hsecond]
  rfl

end Lox.Token
