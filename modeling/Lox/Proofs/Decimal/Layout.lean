import Lox.Decimal.Layout
import Lox.Proofs.Decimal.Shortest
import Mathlib.Data.List.TakeWhile

/-!
# Numerals and their values

A numeral in plain notation consists of digits and at most one point, and has a
value (`numeralValue`).  The plain notation of a decimal has the value of the
decimal (`numeralValue_positional`).
-/

namespace Lox.Decimal

variable {text whole fraction : List Char}

/-! ## Reading numerals -/

/-- The value of a numeral in plain notation. -/
def numeralValue (text : List Char) : ℚ :=
  let whole := text.takeWhile (· != '.')
  let fraction := (text.dropWhile (· != '.')).tail
  Nat.ofDigitChars 10 (whole ++ fraction) 0 / 10 ^ fraction.length

/-- There is something in the text, and nothing but digits and points. -/
structure IsNumeral (text : List Char) : Prop where
  ne_nil : text ≠ []
  plain : ∀ c ∈ text, c.isDigit = true ∨ c = '.'

theorem ne_point_of_isDigit {c : Char} (h : c.isDigit = true) :
    (c != '.') = true := by
  rw [bne_iff_ne]
  rintro rfl
  cases h

theorem numeralValue_whole (h : ∀ c ∈ whole, c.isDigit = true) :
    numeralValue whole = Nat.ofDigitChars 10 whole 0 := by
  have hkept : ∀ c ∈ whole, (c != '.') = true :=
    fun c hc => ne_point_of_isDigit (h c hc)
  rw [numeralValue, List.takeWhile_eq_self_iff.2 hkept,
    List.dropWhile_eq_nil_iff.2 hkept]
  simp

theorem numeralValue_point (h : ∀ c ∈ whole, c.isDigit = true) :
    numeralValue (whole ++ '.' :: fraction) =
      Nat.ofDigitChars 10 (whole ++ fraction) 0 / 10 ^ fraction.length := by
  have hkept : ∀ c ∈ whole, (c != '.') = true :=
    fun c hc => ne_point_of_isDigit (h c hc)
  rw [numeralValue, List.takeWhile_append_of_pos hkept,
    List.dropWhile_append_of_pos hkept]
  simp

/-! ## Writing decimals -/

/-- The text writes a decimal in plain notation: as a whole number, or with a
point in front of its last digits. -/
inductive Writes (d : Decimal) : List Char → Prop
  | whole {text : List Char} {k : Nat} (ne_nil : text ≠ [])
      (digits : ∀ c ∈ text, c.isDigit = true)
      (reads : Nat.ofDigitChars 10 text 0 = d.coefficient * 10 ^ k)
      (exponent : d.exponent = k) : Writes d text
  | point {whole fraction : List Char} (ne_nil : whole ≠ [])
      (digits : ∀ c ∈ whole ++ fraction, c.isDigit = true)
      (reads : Nat.ofDigitChars 10 (whole ++ fraction) 0 = d.coefficient)
      (exponent : d.exponent = -fraction.length) :
      Writes d (whole ++ '.' :: fraction)

theorem Writes.isNumeral {d : Decimal} (h : Writes d text) : IsNumeral text := by
  cases h with
  | whole hne hdigits => exact ⟨hne, fun c hc => .inl (hdigits c hc)⟩
  | point hne hdigits =>
    refine ⟨by simp, fun c hc => ?_⟩
    rcases List.mem_append.1 hc with hc | hc
    · exact .inl (hdigits c (List.mem_append_left _ hc))
    · rcases List.mem_cons.1 hc with rfl | hc
      · exact .inr rfl
      · exact .inl (hdigits c (List.mem_append_right _ hc))

theorem Writes.numeralValue {d : Decimal} (h : Writes d text) :
    numeralValue text = d.value := by
  cases h with
  | whole _ hdigits hreads hexponent =>
    rw [numeralValue_whole hdigits, hreads, value, hexponent, zpow_natCast]
    push_cast
    rfl
  | point _ hdigits hreads hexponent =>
    rw [numeralValue_point fun c hc => hdigits c (List.mem_append_left _ hc),
      hreads, value, hexponent, zpow_neg, zpow_natCast]
    rfl

theorem ofDigitChars_digits (d : Decimal) :
    Nat.ofDigitChars 10 d.digits 0 = d.coefficient :=
  Nat.ofDigitChars_ten_toDigits

theorem isDigit_of_mem_digits {d : Decimal} {c : Char} (h : c ∈ d.digits) :
    c.isDigit = true :=
  Nat.isDigit_of_mem_toDigits (by decide) (by decide) h

theorem isDigit_of_mem_zeros {count : Nat} {c : Char} (h : c ∈ zeros count) :
    c.isDigit = true := by
  rw [List.eq_of_mem_replicate h]
  rfl

/-- Zeros in front of the digits change nothing. -/
theorem ofDigitChars_zeros_append (count : Nat) (digits : List Char) :
    Nat.ofDigitChars 10 (zeros count ++ digits) 0 =
      Nat.ofDigitChars 10 digits 0 := by
  rw [zeros, Nat.ofDigitChars_append, Nat.ofDigitChars_replicate_zero, mul_zero]

/-- Plain notation writes the decimal. -/
theorem writes_positional (d : Decimal) : Writes d d.positional.toList := by
  have hne : d.digits ≠ [] := Nat.toDigits_ne_nil
  have hdigits : ∀ c ∈ d.digits, c.isDigit = true :=
    fun c hc => isDigit_of_mem_digits hc
  have hreads := ofDigitChars_digits d
  have hpoint : d.point = d.digits.length + d.exponent := rfl
  -- A zero, the point, and zeros in front of the digits.
  have hsmall (count : Nat) (h : d.point = -count) :
      Writes d (zeros 1 ++ '.' :: (zeros count ++ d.digits)) := by
    refine .point (by decide) ?_ ?_ ?_
    · simp only [List.mem_append]
      rintro c (hc | hc | hc)
      · exact isDigit_of_mem_zeros hc
      · exact isDigit_of_mem_zeros hc
      · exact hdigits c hc
    · rw [ofDigitChars_zeros_append, ofDigitChars_zeros_append, hreads]
    · rw [List.length_append, zeros, List.length_replicate]
      omega
  unfold positional
  dsimp only
  split
  · next h =>
    rw [String.toList_ofList]
    exact hsmall 0 h
  · next before hbefore h =>
    rw [Int.ofNat_eq_natCast] at h
    split
    · next hsize =>
      rw [String.toList_ofList]
      refine .whole (k := before - d.digits.length) (by simp [hne]) ?_ ?_ ?_
      · simp only [List.mem_append]
        rintro c (hc | hc)
        · exact hdigits c hc
        · exact isDigit_of_mem_zeros hc
      · rw [zeros, Nat.ofDigitChars_append, Nat.ofDigitChars_replicate_zero,
          hreads, mul_comm]
      · omega
    · next hsize =>
      rw [String.toList_ofList]
      have hparts := List.take_append_drop before d.digits
      refine .point ?_ ?_ ?_ ?_
      · rw [Ne, List.take_eq_nil_iff, not_or]
        exact ⟨hbefore, hne⟩
      · rw [hparts]
        exact hdigits
      · rw [hparts, hreads]
      · rw [List.length_drop]
        omega
  · next missing h =>
    rw [String.toList_ofList]
    exact hsmall (missing + 1) h

/-- So does the exact text of a whole number. -/
theorem writes_whole (w : Nat) :
    Writes ⟨10 * w, -1⟩ (Nat.toDigits 10 w ++ ['.', '0']) := by
  refine .point Nat.toDigits_ne_nil ?_ ?_ rfl
  · simp only [List.mem_append, List.mem_singleton]
    rintro c (hc | rfl)
    · exact Nat.isDigit_of_mem_toDigits (by decide) (by decide) hc
    · rfl
  · rw [Nat.ofDigitChars_append, Nat.ofDigitChars_ten_toDigits]
    rfl

theorem value_whole (w : Nat) : value ⟨10 * w, -1⟩ = w := by
  rw [value]
  push_cast
  rw [zpow_neg_one]
  ring

end Lox.Decimal
