import Lox.Proofs.Token.Mirror
import Lox.Proofs.Token.Splitting

/-!
# The lexer loses nothing

What a reader gives is what `scan` finds (`entries_from`).  The ranges of its
entries lie one behind the other, with nothing but separators between them; a
token covers the longest text that is one, and a fault one character or all the
rest (`scan_munches`).  So the lexer loses nothing of a source, and finds nothing
in it that is not there.  All that holds of a reader of bytes as well, whose
indices are the ends of the ranges.
-/

namespace Lox.Token

/-! ## Where the entries lie -/

/-- Between the entries, the first of them behind `place`, there is nothing
but separators, and no separator starts where an entry does. -/
def Separated (source : String) : (place : Nat) → List Located → Prop
  | _, [] => True
  | place, e :: rest =>
    (∃ gap, Covers source place e.start gap ∧ Gap e.entry.isEnd gap.toList) ∧
      (∀ stop text, Covers source e.start stop text → Gap true text.toList →
        text = "") ∧
      Separated source e.stop rest

theorem eq_empty_of_noGap {source : String} {before rest : List Char}
    (h : source.toList = before ++ rest) (hbare : NoGap rest) {stop : Nat}
    {text : String} (hcovers : Covers source (bytes before) stop text)
    (hgap : Gap true text.toList) : text = "" :=
  String.toList_eq_nil_iff.1
    (hbare text.toList hgap (prefix_of_covers h hcovers).1)

/-- The entry is what the source has there.  A token covers its lexeme, which
is the longest text there that is a token.  A fault covers one character that
starts no token, or all from a quote that is never closed.  The end is at the
end. -/
def Located.Accurate (source : String) (e : Located) : Prop :=
  match e.entry with
  | .item (.token t) =>
    Covers source e.start e.stop t.lexeme ∧ Spells t.lexeme.toList t.kind ∧
      ∀ stop text kind, Covers source e.start stop text →
        Spells text.toList kind → stop ≤ e.stop
  | .item (.fault _ (.unexpected c)) =>
    Covers source e.start e.stop (String.ofList [c]) ∧
      ∀ tail kind, ¬ Spells (c :: tail) kind
  | .item (.fault _ .unterminatedString) =>
    ∃ content, '"' ∉ content ∧
      Covers source e.start e.stop (String.ofList ('"' :: content)) ∧
      e.stop = source.utf8ByteSize
  | .eof _ => e.start = source.utf8ByteSize ∧ e.stop = source.utf8ByteSize

theorem accurate_item {source : String} {before taken rest : List Char}
    (h : source.toList = before ++ taken ++ rest) {found : Item}
    (hfound : found.Takes taken rest) :
    Located.Accurate source
      ⟨.item found, bytes before, bytes (before ++ taken)⟩ := by
  have hcovers := covers_of_append h
  cases found with
  | token t =>
    obtain ⟨hlexeme, hspells, hlongest⟩ := hfound
    have htext : t.lexeme = String.ofList taken := by
      rw [← hlexeme, String.ofList_toList]
    refine ⟨htext ▸ hcovers, hlexeme ▸ hspells, ?_⟩
    intro stop text kind hother hkind
    rw [List.append_assoc] at h
    obtain ⟨hbegins, rfl⟩ := prefix_of_covers h hother
    -- Of two beginnings of one text the shorter one begins the longer one.
    obtain ⟨more, hmore⟩ := List.prefix_of_prefix_length_le hbegins
      (List.prefix_append taken rest) (hlongest _ kind hbegins hkind)
    rw [← hmore, ← List.append_assoc]
    simp only [bytes_append]
    omega
  | fault line cause =>
    cases cause with
    | unexpected c =>
      obtain ⟨rfl, hnone⟩ := hfound
      exact ⟨hcovers, hnone⟩
    | unterminatedString =>
      obtain ⟨content, hcontent, rfl, rfl⟩ := hfound
      refine ⟨content, hcontent, hcovers, ?_⟩
      rw [List.append_nil] at h
      show bytes (before ++ '"' :: content) = source.utf8ByteSize
      rw [← h, bytes_toList]

/-- The entries behind `place` are accurate, lie one behind the other and have
nothing but separators between them. -/
structure Tiles (source : String) (place : Nat) (entries : List Located) :
    Prop where
  bound : ∀ e ∈ entries, place ≤ e.start
  ordered : entries.Pairwise fun e e' => e.start < e.stop ∧ e.stop ≤ e'.start
  separated : Separated source place entries
  accurate : ∀ e ∈ entries, e.Accurate source

theorem Tiles.eof {source : String} {before gap : List Char}
    (h : source.toList = before ++ gap) (hgap : Gap true gap) (line : Nat) :
    Tiles source (bytes before)
      [⟨.eof line, source.utf8ByteSize, source.utf8ByteSize⟩] := by
  have hsize : bytes (before ++ gap) = source.utf8ByteSize := by
    rw [← h, bytes_toList]
  have hcovers := covers_of_append (h.trans (List.append_nil _).symm)
  rw [hsize] at hcovers
  refine ⟨?_, List.pairwise_singleton _ _,
    ⟨⟨_, hcovers, ?_⟩, ?_, trivial⟩, ?_⟩
  · intro e he
    rw [List.mem_singleton.1 he]
    exact hcovers.le
  · rw [String.toList_ofList]
    exact hgap
  · intro stop text hcovers hgap
    rw [← hsize] at hcovers
    exact eq_empty_of_noGap (h.trans (List.append_nil _).symm)
      (fun _ _ hbegins => List.prefix_nil.1 hbegins) hcovers hgap
  · intro e he
    rw [List.mem_singleton.1 he]
    exact ⟨rfl, rfl⟩

/-- An item behind separators, before entries that tile the rest. -/
theorem Tiles.cons {source : String} {before gap taken rest : List Char}
    (h : source.toList = before ++ gap ++ taken ++ rest)
    (hgap : Gap false gap) (hbare : NoGap (taken ++ rest))
    (htaken : taken ≠ []) {found : Item} (hfound : found.Takes taken rest)
    {entries : List Located}
    (hentries : Tiles source (bytes (before ++ gap ++ taken)) entries) :
    Tiles source (bytes before)
      (⟨.item found, bytes (before ++ gap),
        bytes (before ++ gap ++ taken)⟩ :: entries) := by
  have hcovers := covers_of_append (h.trans (List.append_assoc _ _ _))
  have hpos := bytes_pos htaken
  have hstop := bytes_append (before ++ gap) taken
  refine ⟨?_, List.pairwise_cons.2 ⟨?_, hentries.ordered⟩,
    ⟨⟨_, hcovers, ?_⟩, ?_, hentries.separated⟩, ?_⟩
  · intro e he
    have hle := hcovers.le
    rcases List.mem_cons.1 he with rfl | he
    · exact hle
    · have := hentries.bound e he
      omega
  · intro e he
    refine ⟨?_, hentries.bound e he⟩
    show bytes (before ++ gap) < bytes (before ++ gap ++ taken)
    omega
  · rw [String.toList_ofList]
    exact hgap
  · intro stop text
    exact eq_empty_of_noGap (h.trans (List.append_assoc _ _ _)) hbare
  · intro e he
    rcases List.mem_cons.1 he with rfl | he
    · exact accurate_item h hfound
    · exact hentries.accurate e he

/-! ## What a reader gives -/

/-- The place of a text that is left is where the text before it ends. -/
theorem size_sub_bytes {source : String} {before rest : List Char}
    (h : source.toList = before ++ rest) :
    source.utf8ByteSize - bytes rest = bytes before := by
  rw [← bytes_toList, h, bytes_append]
  omega

/-- From a place on, a reader gives what a scan finds, and it tiles what is
left of the source. -/
theorem entries_from {source : String} {before text : List Char}
    (h : source.toList = before ++ text) (line : Nat) :
    ∃ entries : List Located,
      (∀ n, (Reader.after n ⟨source.utf8ByteSize, text, line, false⟩).next.1 =
        entries[n]?) ∧
      entries.map Located.entry =
        (scanFrom text line []).items.map Entry.item ++
          [.eof (scanFrom text line []).endLine] ∧
      Tiles source (bytes before) entries := by
  induction hn : text.length using Nat.strongRecOn
    generalizing before text line with
  | ind n ih =>
  subst hn
  obtain ⟨gap, htext, hgap⟩ := gap_skip text line
  have hbare := noGap_skip text line
  rw [scanFrom_skip text line []]
  rcases hskip : skip text line with ⟨_ | ⟨c, left⟩, line'⟩
  · -- Nothing is left but separators: the end is given, once.
    have hnext := Reader.next_of_skip_nil source.utf8ByteSize hskip
    simp only [hskip, List.append_nil] at htext hgap
    refine ⟨[⟨.eof line', source.utf8ByteSize, source.utf8ByteSize⟩], ?_, rfl,
      Tiles.eof (htext ▸ h) hgap line'⟩
    intro n
    cases n with
    | zero => rw [Reader.after, hnext, List.getElem?_cons_zero]
    | succ n => rw [Reader.after, hnext, Reader.next_after_of_ended rfl,
        List.getElem?_cons_succ, List.getElem?_nil]
  · -- An item is taken, and the entries behind it are those of what is left.
    obtain ⟨taken, htaken, hne, hfound⟩ := itemAt_munch c left line'
    generalize hlexed : itemAt c left line' = lexed at htaken hfound ⊢
    simp only [hskip] at htext hgap hbare
    have hleft : source.toList = before ++ gap ++ (c :: left) := by
      rw [h, htext, List.append_assoc]
    have hrest : source.toList = before ++ gap ++ taken ++ lexed.rest := by
      rw [hleft, htaken, List.append_assoc _ taken]
    have hlen : lexed.rest.length < text.length := by
      have := List.length_pos_iff.2 hne
      rw [htext, htaken, List.length_append, List.length_append]
      omega
    obtain ⟨entries, hgiven, hfinds, htiles⟩ := ih _ hlen hrest lexed.line rfl
    have hnext := Reader.next_of_skip_cons source.utf8ByteSize hskip hlexed
    rw [size_sub_bytes hleft, size_sub_bytes hrest] at hnext
    refine ⟨_ :: entries, ?_, ?_,
      Tiles.cons hrest hgap (htaken ▸ hbare) hne hfound htiles⟩
    · intro n
      cases n with
      | zero => rw [Reader.after, hnext, List.getElem?_cons_zero]
      | succ n => rw [Reader.after, hnext, hgiven, List.getElem?_cons_succ]
    · simp only [hlexed]
      rw [List.map_cons, hfinds, scanFrom_found lexed.rest lexed.line [_]]
      rfl

/-- What is given for the entries is given by a reader of bytes, one by one. -/
theorem gives_entries {source : String} {entries : List Located}
    (h : ∀ n, ((Reader.start source).after n).next.1 = entries[n]?) (n : Nat) :
    ∃ r r', (ByteReader.new source).after n = some r ∧
      r.Gives entries[n]? r' := by
  obtain ⟨r, hafter, hmirrors⟩ := (ByteReader.mirrors_new source).after n
  obtain ⟨r', hgives, -⟩ := hmirrors.next
  exact ⟨r, r', hafter, h n ▸ hgives⟩

/-- The lexer takes the longest token there is, again and again, and loses
nothing.  Of every source a reader gives finitely many entries and then nothing
more: the items that `scan` finds, and behind them, once, the end.  So does a
reader of bytes, with its indices at the ends of each item, and it does not
panic.  The entries cover ranges of bytes that lie one behind the other; between
them there is nothing but separators; and each is what the source has there. -/
theorem scan_munches (source : String) :
    ∃ entries : List Located,
      (∀ n, ((Reader.start source).after n).next.1 = entries[n]?) ∧
      (∀ n, ∃ r r', (ByteReader.new source).after n = some r ∧
        r.Gives entries[n]? r') ∧
      entries.map Located.entry =
        (scan source).items.map Entry.item ++ [.eof (scan source).endLine] ∧
      entries.Pairwise (fun e e' => e.start < e.stop ∧ e.stop ≤ e'.start) ∧
      Separated source 0 entries ∧
      ∀ e ∈ entries, e.Accurate source := by
  obtain ⟨entries, hgiven, hfinds, htiles⟩ :=
    entries_from (List.nil_append source.toList).symm 1
  exact ⟨entries, hgiven, gives_entries hgiven, hfinds, htiles.ordered,
    htiles.separated, htiles.accurate⟩

end Lox.Token
