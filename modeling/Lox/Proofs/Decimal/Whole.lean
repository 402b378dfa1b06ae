import Lox.Proofs.Decimal.Fewest
import Lox.Proofs.Decimal.Layout

/-!
# Whole numbers and their shortest decimals

A shortest decimal has no zero at the end of its coefficient
(`IsShortest.coefficient_mod`).  So one that has a whole value is written in plain
notation as that number is (`IsShortest.positional_of_value`).

Below `2 ^ 53` doubles lie at most one apart and no other whole number rounds to a
whole double: its shortest decimals have its own value
(`IsShortest.value_eq_of_lt`).  From `10 ^ 16` up the shortest decimal found is a
whole number, though it need not be the double (`exists_exponent_of_large`).
-/

namespace Lox.Decimal

open Binary64 (Between Canonical RoundsTo distance distance_value halfAbove
  halfBelow_le roundsTo_value)

variable {m n w : Nat} {e : Int} {d : Decimal}

/-! ## Zeros at the end -/

theorem toDigits_ten_mul (h : 0 < n) :
    Nat.toDigits 10 (10 * n) = Nat.toDigits 10 n ++ ['0'] :=
  (Nat.toDigits_append_toDigits (by decide) h (by decide : 0 < 10)).symm

theorem toDigits_mul_pow (h : 0 < n) (k : Nat) :
    Nat.toDigits 10 (n * 10 ^ k) = Nat.toDigits 10 n ++ zeros k := by
  induction k with
  | zero => simp [zeros]
  | succ k ih =>
    have hpos : 0 < n * 10 ^ k := Nat.mul_pos h (Nat.pow_pos (by decide))
    have hstep : n * 10 ^ (k + 1) = 10 * (n * 10 ^ k) := by ring
    rw [hstep, toDigits_ten_mul hpos, ih, List.append_assoc, zeros, zeros,
      List.replicate_succ']

theorem digitCount_ten_mul (h : 0 < n) : digitCount (10 * n) = digitCount n + 1 := by
  rw [digitCount, toDigits_ten_mul h, List.length_append]
  rfl

/-- Without the zero at its end a decimal would be shorter. -/
theorem IsShortest.coefficient_mod (hm : 0 < m) (h : IsShortest d m e) :
    d.coefficient % 10 ≠ 0 := by
  intro hmod
  obtain ⟨n, hn⟩ := Nat.dvd_of_mod_eq_zero hmod
  have hpos := coefficient_pos (h.rounds.pos hm)
  have hvalue : value ⟨n, d.exponent + 1⟩ = d.value := by
    rw [value, value, hn, zpow_add_one₀ (by norm_num)]
    push_cast
    ring
  have hle := h.fewest ⟨n, d.exponent + 1⟩ (hvalue ▸ h.rounds)
  rw [hn, digitCount_ten_mul (by omega)] at hle
  exact absurd hle (by simp)

/-! ## Plain notation of whole numbers -/

/-- Decimals without a fraction are written with zeros after their digits. -/
theorem positional_of_exponent {k : Nat} (h : d.exponent = k) :
    d.positional = String.ofList (d.digits ++ zeros k) := by
  have hpos : 0 < d.digits.length := Nat.length_toDigits_pos
  have hpoint : d.point = (d.digits.length + k : Nat) := by
    rw [point, h]
    rfl
  unfold positional
  dsimp only
  split
  · next hzero =>
    rw [hpoint, Int.ofNat_eq_natCast] at hzero
    omega
  · next before _ hbefore =>
    rw [hpoint, Int.ofNat_eq_natCast] at hbefore
    have hbefore : before = d.digits.length + k := by omega
    rw [if_pos (by omega), hbefore, Nat.add_sub_cancel_left]
  · next missing hmissing =>
    rw [hpoint] at hmissing
    omega

/-- The exponent of a shortest decimal with a whole value is not negative. -/
theorem IsShortest.exists_exponent (hm : 0 < m) (h : IsShortest d m e)
    (hw : d.value = w) : ∃ k : Nat, d.exponent = k ∧ w = d.coefficient * 10 ^ k := by
  rw [value] at hw
  cases hexponent : d.exponent with
  | ofNat k =>
    rw [hexponent, Int.ofNat_eq_natCast, zpow_natCast] at hw
    exact ⟨k, rfl, by exact_mod_cast hw.symm⟩
  | negSucc k =>
    exfalso
    rw [hexponent, zpow_negSucc, mul_inv_eq_iff_eq_mul₀ (by positivity)] at hw
    have hw : d.coefficient = w * 10 ^ (k + 1) := by exact_mod_cast hw
    refine h.coefficient_mod hm ?_
    rw [hw, pow_succ, ← mul_assoc]
    exact Nat.mul_mod_left _ _

/-- A shortest decimal with a whole value is written as that number. -/
theorem IsShortest.positional_of_value (hm : 0 < m) (h : IsShortest d m e)
    (hw : d.value = w) : d.positional = toString w := by
  obtain ⟨k, hexponent, hwhole⟩ := h.exists_exponent hm hw
  have hpos := coefficient_pos (h.rounds.pos hm)
  rw [positional_of_exponent hexponent, Nat.toString_eq_ofList_toDigits, hwhole,
    toDigits_mul_pow hpos, digits]

/-- What is written as a whole number has its value. -/
theorem value_of_positional (h : d.positional = toString w) : d.value = w := by
  have hdigits : ∀ c ∈ Nat.toDigits 10 w, c.isDigit = true :=
    fun c hc => Nat.isDigit_of_mem_toDigits (by decide) (by decide) hc
  rw [← (writes_positional d).numeralValue, h, Nat.toString_eq_ofList_toDigits,
    String.toList_ofList, numeralValue_whole hdigits, Nat.ofDigitChars_ten_toDigits]

/-! ## Whole doubles -/

/-- No other whole number rounds to a whole double below `2 ^ 53`. -/
theorem eq_of_roundsTo (h : Canonical m e) (hw : Binary64.value m e = w)
    (hlt : w < 2 ^ 53) (hn : RoundsTo n m e) : n = w := by
  have he : e ≤ 0 := by
    by_contra hpos
    have hnormal := h.normal (by omega)
    have hm : (2 : ℚ) ^ 52 ≤ m := by exact_mod_cast hnormal
    have htwo : (2 : ℚ) ^ (1 : Int) ≤ 2 ^ e :=
      zpow_le_zpow_right₀ (by norm_num) (by omega)
    have hlt : (w : ℚ) < 2 ^ 53 := by exact_mod_cast hlt
    rw [← hw, Binary64.value] at hlt
    nlinarith
  have hhalf : halfAbove e ≤ 2 ^ (-1 : Int) :=
    zpow_le_zpow_right₀ (by norm_num) (by omega)
  have hbelow := halfBelow_le m e
  have hlow := hn.low
  have hhigh := hn.high
  rw [hw] at hlow hhigh
  norm_num at hhalf
  rcases lt_trichotomy n w with hlt | heq | hgt
  · have hstep : (n : ℚ) + 1 ≤ w := by exact_mod_cast hlt
    linarith
  · exact heq
  · have hstep : (w : ℚ) + 1 ≤ n := by exact_mod_cast hgt
    linarith

/-- A decimal with a fraction and fewer digits than a whole number has one digit
less in front of its point than it has in all. -/
theorem value_le_of_fewer (hfraction : d.exponent < 0)
    (hfewer : digitCount d.coefficient < digitCount w) :
    d.value ≤ (10 ^ (digitCount w - 2) : Nat) := by
  have hpos := digitCount_pos d.coefficient
  have hpoint : d.point ≤ (digitCount w - 2 : Nat) := by
    rw [point]
    omega
  push_cast
  rw [← zpow_natCast]
  exact (value_lt_pow_point d).le.trans (zpow_le_zpow_right₀ (by norm_num) hpoint)

/-- The shortest decimals of a whole double below `2 ^ 53` have its own value. -/
theorem IsShortest.value_eq_of_lt (h : Canonical m e) (hm : 0 < m)
    (hd : IsShortest d m e) (hw : Binary64.value m e = w) (hlt : w < 2 ^ 53) :
    d.value = w := by
  have hself := roundsTo_value m e
  have hexact : value ⟨w, 0⟩ = Binary64.value m e := by simp [value, hw]
  have hexactRounds : RoundsTo (value ⟨w, 0⟩) m e := hexact ▸ hself
  have hle : digitCount d.coefficient ≤ digitCount w := hd.fewest _ hexactRounds
  rcases Nat.eq_or_lt_of_le hle with hsame | hfewer
  · have hnear := hd.nearest ⟨w, 0⟩ hexactRounds hsame.symm
    rw [hexact, distance_value] at hnear
    rw [← hw]
    exact sub_eq_zero.1 (abs_nonpos_iff.1 hnear)
  · cases hexponent : d.exponent with
    | ofNat k =>
      have hvalue : d.value = (d.coefficient * 10 ^ k : Nat) := by
        rw [value, hexponent, Int.ofNat_eq_natCast, zpow_natCast]
        push_cast
        rfl
      have hrounds := hd.rounds
      rw [hvalue] at hrounds
      rw [hvalue, eq_of_roundsTo h hw hlt hrounds]
    | negSucc k =>
      -- A power of ten that is less than `w` lies between the two.
      exfalso
      have hpos := digitCount_pos d.coefficient
      have hwpos : 0 < w := by
        have hq := hself.pos hm
        rw [hw] at hq
        exact_mod_cast hq
      have hsmaller : 10 ^ (digitCount w - 2) < w :=
        (Nat.pow_lt_pow_right (by decide) (by omega)).trans_le (pow_digitCount_le hwpos)
      have hunder : d.value ≤ (10 ^ (digitCount w - 2) : Nat) :=
        value_le_of_fewer (by omega) hfewer
      have hover : ((10 ^ (digitCount w - 2) : Nat) : ℚ) ≤ Binary64.value m e := by
        rw [hw]
        exact_mod_cast hsmaller.le
      have hrounds := hd.rounds.between hself (.inl ⟨hunder, hover⟩)
      exact hsmaller.ne (eq_of_roundsTo h hw hlt hrounds)

theorem le_exponent_dropZeros (count coefficient : Nat) (exponent : Int) :
    exponent ≤ (dropZeros count coefficient exponent).exponent := by
  induction count generalizing coefficient exponent with
  | zero => exact le_rfl
  | succ count ih =>
    rw [dropZeros]
    split
    · exact (Int.le_add_one le_rfl).trans (ih _ _)
    · exact le_rfl

/-- Seventeen digits of a double from `10 ^ 16` up leave no fraction. -/
theorem exists_exponent_of_large (tie : Tie) (h : Canonical m e) (hm : 0 < m)
    (hlarge : 10 ^ 16 ≤ Binary64.value m e) :
    ∃ k : Nat, (shortest tie m e).exponent = k := by
  obtain ⟨extra, hextra, d, hd, -, heq⟩ := exists_found tie h hm
  obtain ⟨below, haround⟩ := exists_around hm e _ tie
  obtain ⟨-, hexponent, -⟩ := haround.some d hd
  have htop : 16 < topOf m e := by
    have hlt := hlarge.trans_lt (topOf_spec hm e).2
    rw [← zpow_natCast, zpow_lt_zpow_iff_right₀ (by norm_num)] at hlt
    exact_mod_cast hlt
  have hle := le_exponent_dropZeros 20 d.coefficient d.exponent
  rw [← heq] at hle
  exact Int.eq_ofNat_of_zero_le (by omega)

end Lox.Decimal
