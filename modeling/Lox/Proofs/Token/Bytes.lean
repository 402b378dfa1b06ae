import Lox.Proofs.Token.Reader

/-!
# The bytes of a text

A text is read as bytes in UTF-8.  An ASCII character is one byte, which has its
number; all bytes of another character are larger (`codes_cons_ascii`,
`codes_cons_wide`).  So a test that has one outcome for all characters that are
not ASCII (`Uniform`) says of the first byte of a text what it says of its first
character (`head_codes`).
-/

namespace Lox.Token

/-! ## The bytes of a text -/

/-- The bytes of the text in UTF-8, each as the character with its number. -/
def codes (text : List Char) : List Char :=
  (text.flatMap String.utf8EncodeChar).map Char.ofUInt8

theorem codes_append (text more : List Char) :
    codes (text ++ more) = codes text ++ codes more := by
  simp only [codes, List.flatMap_append, List.map_append]

theorem codes_cons (c : Char) (text : List Char) :
    codes (c :: text) =
      (String.utf8EncodeChar c).map Char.ofUInt8 ++ codes text := by
  simp only [codes, List.flatMap_cons, List.map_append]

theorem codes_toList (source : String) :
    source.toUTF8.data.toList.map Char.ofUInt8 = codes source.toList := by
  rw [codes, String.toUTF8_eq_toByteArray]
  conv => lhs; rw [← String.ofList_toList (s := source)]
  rw [String.toByteArray_ofList, List.utf8Encode, List.data_toByteArray]

theorem bytes_cons (c : Char) (text : List Char) :
    bytes (c :: text) = c.utf8Size + bytes text := by
  rw [← List.singleton_append, bytes_append]
  congr 1
  simp [bytes]

theorem length_codes (text : List Char) : (codes text).length = bytes text := by
  induction text with
  | nil => rfl
  | cons c text ih =>
    rw [codes_cons, List.length_append, List.length_map,
      String.length_utf8EncodeChar, ih, bytes_cons]

/-- An ASCII character is one byte, which has its number. -/
theorem codes_cons_ascii {c : Char} (h : c.toNat < 128) (text : List Char) :
    codes (c :: text) = c :: codes text := by
  have hsize : c.utf8Size = 1 :=
    Char.utf8Size_eq_one_iff.2 (UInt32.le_iff_toNat_le.2 (Nat.le_of_lt_succ h))
  have hcode : Char.ofUInt8 c.val.toUInt8 = c := by
    refine Char.ext (UInt32.toNat_inj.1 ?_)
    show (c.val.toUInt8.toUInt32).toNat = c.val.toNat
    have hlt : c.val.toNat < 128 := h
    simp only [UInt8.toNat_toUInt32, UInt32.toNat_toUInt8]
    omega
  rw [codes_cons, String.utf8EncodeChar_eq_singleton hsize, List.map_singleton,
    hcode, List.singleton_append]

theorem bytes_cons_ascii {c : Char} (h : c.toNat < 128) (text : List Char) :
    bytes (c :: text) = bytes text + 1 := by
  rw [← length_codes, codes_cons_ascii h, List.length_cons, length_codes]

/-- No byte of another character is one. -/
theorem wide_of_mem {c : Char} (h : 128 ≤ c.toNat) {b : UInt8}
    (hb : b ∈ String.utf8EncodeChar c) : 128 ≤ (Char.ofUInt8 b).toNat := by
  have hc : ¬ c.val.toNat ≤ 127 := Nat.not_le.2 h
  show 128 ≤ b.toNat
  simp only [String.utf8EncodeChar, if_neg hc] at hb
  split at hb
  · simp only [List.mem_cons, List.not_mem_nil, or_false] at hb
    rcases hb with rfl | rfl <;> rw [UInt8.toNat_ofNat'] <;> omega
  · split at hb <;> simp only [List.mem_cons, List.not_mem_nil, or_false] at hb
    · rcases hb with rfl | rfl | rfl <;> rw [UInt8.toNat_ofNat'] <;> omega
    · rcases hb with rfl | rfl | rfl | rfl <;> rw [UInt8.toNat_ofNat'] <;> omega

theorem codes_cons_wide {c : Char} (h : 128 ≤ c.toNat) (text : List Char) :
    ∃ d front, (∀ e ∈ d :: front, 128 ≤ e.toNat) ∧
      codes (c :: text) = d :: front ++ codes text := by
  obtain ⟨b, more, hencode⟩ :=
    List.exists_cons_of_ne_nil (String.utf8EncodeChar_ne_nil (c := c))
  refine ⟨Char.ofUInt8 b, more.map Char.ofUInt8, ?_, ?_⟩
  · rw [← List.map_cons, ← hencode]
    intro e he
    obtain ⟨b, hb, rfl⟩ := List.mem_map.1 he
    exact wide_of_mem h hb
  · rw [codes_cons, hencode, List.map_cons]

/-! ## Tests of bytes -/

/-- The test has one outcome for all characters that are not ASCII. -/
def Uniform (p : Char → Bool) (outcome : Bool) : Prop :=
  ∀ c : Char, 128 ≤ c.toNat → p c = outcome

theorem ne_of_wide {c d : Char} (hc : 128 ≤ c.toNat) (hd : d.toNat < 128) :
    c ≠ d := by
  rintro rfl
  omega

theorem uniform_beq {d : Char} (hd : d.toNat < 128) : Uniform (· == d) false :=
  fun _ hc => beq_false_of_ne (ne_of_wide hc hd)

theorem uniform_bne {d : Char} (hd : d.toNat < 128) : Uniform (· != d) true :=
  fun _ hc => bne_iff_ne.2 (ne_of_wide hc hd)

theorem uniform_isDigit : Uniform Char.isDigit false := by
  intro c hc
  refine Bool.eq_false_iff.2 fun h => ?_
  have hle : c.val ≤ '9'.val := of_decide_eq_true (Bool.and_eq_true_iff.1 h).2
  have : c.toNat ≤ 57 := UInt32.le_iff_toNat_le.1 hle
  omega

theorem uniform_isAlpha : Uniform Char.isAlpha false := by
  intro c hc
  refine Bool.eq_false_iff.2 fun h => ?_
  rcases Bool.or_eq_true_iff.1 h with hupper | hlower
  · have hle : c.val ≤ 'Z'.val := (of_decide_eq_true hupper).2
    have : c.toNat ≤ 90 := UInt32.le_iff_toNat_le.1 hle
    omega
  · have hle : c.val ≤ 'z'.val :=
      of_decide_eq_true (Bool.and_eq_true_iff.1 hlower).2
    have : c.toNat ≤ 122 := UInt32.le_iff_toNat_le.1 hle
    omega

theorem uniform_isNameStart : Uniform isNameStart false := by
  intro c hc
  simp [isNameStart, uniform_isAlpha c hc, ne_of_wide hc (d := '_') (by decide)]

theorem uniform_isNamePart : Uniform isNamePart false := by
  intro c hc
  simp [isNamePart, Char.isAlphanum, uniform_isAlpha c hc,
    uniform_isDigit c hc, ne_of_wide hc (d := '_') (by decide)]

theorem uniform_isBlank : Uniform isBlank false := by
  intro c hc
  simp [isBlank, ne_of_wide hc (d := ' ') (by decide),
    ne_of_wide hc (d := '\r') (by decide), ne_of_wide hc (d := '\t') (by decide)]

theorem not_mem_of_wide {c : Char} (hc : 128 ≤ c.toNat) : c ∉ marks :=
  not_mem_marks (p := fun c => decide (128 ≤ c.toNat)) (by decide)
    (decide_eq_true hc)

theorem ascii_of_test {p : Char → Bool} (hp : Uniform p false)
    (hc : p c = true) : c.toNat < 128 := by
  refine Nat.lt_of_not_le fun hwide => ?_
  rw [hp c hwide] at hc
  cases hc

/-- The first byte of a text passes the tests that the first character does. -/
theorem head_codes (c : Char) (text : List Char) :
    ∃ d more, codes (c :: text) = d :: more ∧
      ∀ p outcome, Uniform p outcome → p d = p c := by
  by_cases hc : c.toNat < 128
  · exact ⟨c, codes text, codes_cons_ascii hc text, fun _ _ _ => rfl⟩
  · have hwide := Nat.le_of_not_lt hc
    obtain ⟨d, front, hfront, hcodes⟩ := codes_cons_wide hwide text
    refine ⟨d, front ++ codes text, hcodes, fun p outcome hp => ?_⟩
    rw [hp c hwide, hp d (hfront d List.mem_cons_self)]

theorem head?_codes {d : Char} (hd : d.toNat < 128) (text : List Char) :
    (codes text)[0]? = some d ↔ text.head? = some d := by
  cases text with
  | nil => exact Iff.rfl
  | cons c text =>
    obtain ⟨e, more, hcodes, htests⟩ := head_codes c text
    have htest : (e == d) = (c == d) := htests _ false (uniform_beq hd)
    rw [hcodes, List.getElem?_cons_zero, List.head?_cons, Option.some_inj,
      Option.some_inj, ← beq_iff_eq, ← beq_iff_eq (a := c), htest]

/-- No line end is in the bytes of a text that has none. -/
theorem findIdx?_codes {text : List Char} (h : '\n' ∉ text) :
    (codes text).findIdx? (· == '\n') = none := by
  refine List.findIdx?_eq_none_iff.2 fun d hd => beq_false_of_ne ?_
  rintro rfl
  obtain ⟨b, hb, hcode⟩ := List.mem_map.1 hd
  obtain ⟨c, hc, hb⟩ := List.mem_flatMap.1 hb
  by_cases hascii : c.toNat < 128
  · have hsingle : codes [c] = [c] := codes_cons_ascii hascii []
    have hmem : '\n' ∈ codes [c] := by
      rw [codes_cons, ← hcode]
      exact List.mem_append_left _ (List.mem_map_of_mem hb)
    rw [hsingle, List.mem_singleton] at hmem
    exact h (hmem ▸ hc)
  · have hwide := wide_of_mem (Nat.le_of_not_lt hascii) hb
    rw [hcode] at hwide
    exact absurd hwide (by decide)

/-- A character that is not ASCII starts no token. -/
theorem itemAt_wide {c : Char} (hc : 128 ≤ c.toNat) (text : List Char)
    (line : Nat) :
    itemAt c text line = ⟨.fault line (.unexpected c), text, line⟩ := by
  obtain ⟨hsingle, hdouble, hquote⟩ := starts_of_not_mem (not_mem_of_wide hc)
  simp [itemAt, hsingle, hdouble, hquote, uniform_isDigit c hc,
    uniform_isNameStart c hc]

end Lox.Token
