import Lox.Decimal.Shortest
import Lox.Proofs.Decimal.Binary64
import Mathlib.Tactic.FieldSimp

/-!
# Shortest decimals read back

The decimal that is written for a positive double rounds to it
(`roundsTo_shortest`).  A grid of seventeen significant digits is finer than the
range of numbers that round to a double is wide, so one of the two grid points
around the double lies in the range (`nearest?_isSome`).
-/

namespace Lox.Decimal

open Binary64 (Canonical RoundsTo halfAbove halfAbove_pos halfBelow halfBelow_eq
  halfBelow_pos ratio_eq ratio_pos roundsTo_of_lt)

variable {m n : Nat} {e : Int}

/-- The value of a decimal. -/
def value (d : Decimal) : ℚ := d.coefficient * 10 ^ d.exponent

/-! ## Digits -/

theorem digitCount_pos (n : Nat) : 0 < digitCount n :=
  Nat.length_toDigits_pos

theorem digitCount_le_iff {k : Nat} (hk : 0 < k) : digitCount n ≤ k ↔ n < 10 ^ k :=
  Nat.length_toDigits_le_iff (by decide) hk

theorem lt_pow_digitCount (n : Nat) : n < 10 ^ digitCount n :=
  (digitCount_le_iff (digitCount_pos n)).1 (Nat.le_refl _)

theorem pow_digitCount_le (h : 0 < n) : 10 ^ (digitCount n - 1) ≤ n := by
  have hpos := digitCount_pos n
  rcases Nat.eq_or_lt_of_le hpos with hone | hmore
  · rw [← hone]
    exact h
  · rw [← Nat.not_lt, ← digitCount_le_iff (by omega)]
    omega

section

variable {numerator denominator : Nat}

theorem pow_neg_le_div_iff (hd : 0 < denominator) (k : Nat) :
    (10 : ℚ) ^ (-k : Int) ≤ numerator / denominator ↔
      denominator ≤ numerator * 10 ^ k := by
  have hdq : (0 : ℚ) < denominator := by exact_mod_cast hd
  rw [zpow_neg, zpow_natCast, le_div_iff₀ hdq, inv_mul_le_iff₀ (by positivity),
    mul_comm]
  exact_mod_cast Iff.rfl

theorem div_le_pow_neg_iff (hd : 0 < denominator) (k : Nat) :
    (numerator / denominator : ℚ) ≤ 10 ^ (-k : Int) ↔
      numerator * 10 ^ k ≤ denominator := by
  have hdq : (0 : ℚ) < denominator := by exact_mod_cast hd
  rw [zpow_neg, zpow_natCast, div_le_iff₀ hdq, le_inv_mul_iff₀ (by positivity),
    mul_comm]
  exact_mod_cast Iff.rfl

theorem div_lt_pow_neg_iff (hd : 0 < denominator) (k : Nat) :
    (numerator / denominator : ℚ) < 10 ^ (-k : Int) ↔
      numerator * 10 ^ k < denominator := by
  rw [← not_le, pow_neg_le_div_iff hd, not_le]

/-- A fraction lies between two powers of ten. -/
theorem pointOf_spec (hn : 0 < numerator) (hd : 0 < denominator) :
    (10 : ℚ) ^ (pointOf numerator denominator - 1) ≤ numerator / denominator ∧
      (numerator / denominator : ℚ) < 10 ^ pointOf numerator denominator := by
  have hdq : (0 : ℚ) < denominator := by exact_mod_cast hd
  unfold pointOf
  split
  · next hle =>
    have hlow := pow_digitCount_le (Nat.div_pos hle hd)
    have hhigh := lt_pow_digitCount (numerator / denominator)
    have hpos := digitCount_pos (numerator / denominator)
    obtain ⟨k, hk⟩ : ∃ k, digitCount (numerator / denominator) = k + 1 :=
      ⟨_, (Nat.sub_add_cancel hpos).symm⟩
    rw [hk] at hlow hhigh ⊢
    rw [Nat.add_sub_cancel, Nat.le_div_iff_mul_le hd] at hlow
    rw [Nat.div_lt_iff_lt_mul hd] at hhigh
    rw [le_div_iff₀ hdq, div_lt_iff₀ hdq, Nat.cast_succ, add_sub_cancel_right,
      ← Nat.cast_succ, zpow_natCast, zpow_natCast]
    exact_mod_cast And.intro hlow hhigh
  · next hlt =>
    have hle : numerator ≤ denominator := by omega
    have hlow := pow_digitCount_le (Nat.div_pos hle hn)
    have hhigh := lt_pow_digitCount (denominator / numerator)
    have hpos := digitCount_pos (denominator / numerator)
    obtain ⟨k, hk⟩ : ∃ k, digitCount (denominator / numerator) = k + 1 :=
      ⟨_, (Nat.sub_add_cancel hpos).symm⟩
    rw [hk] at hlow hhigh ⊢
    simp only [Nat.add_sub_cancel, Nat.pow_eq] at hlow ⊢
    rw [Nat.le_div_iff_mul_le hn, mul_comm] at hlow
    rw [Nat.div_lt_iff_lt_mul hn, mul_comm] at hhigh
    split
    · next hends =>
      have hlower : (2 : Int) - (k + 1 : Nat) - 1 = -k := by omega
      have hupper : (2 : Int) - (k + 1 : Nat) = -k + 1 := by omega
      rw [hlower, hupper]
      refine ⟨(pow_neg_le_div_iff hd k).2 hends, ?_⟩
      calc (numerator / denominator : ℚ)
        _ ≤ 10 ^ (-k : Int) := (div_le_pow_neg_iff hd k).2 hlow
        _ < 10 ^ (-k + 1 : Int) := zpow_lt_zpow_right₀ (by norm_num) (by omega)
    · next hends =>
      have hlower : (1 : Int) - (k + 1 : Nat) - 1 = -(k + 1 : Nat) := by omega
      have hupper : (1 : Int) - (k + 1 : Nat) = -k := by omega
      rw [hlower, hupper]
      exact ⟨(pow_neg_le_div_iff hd _).2 hhigh.le,
        (div_lt_pow_neg_iff hd k).2 (Nat.lt_of_not_le hends)⟩

end

/-- Zeros at the end of a coefficient go into the power of ten. -/
theorem value_dropZeros (count coefficient : Nat) (exponent : Int) :
    (dropZeros count coefficient exponent).value = coefficient * 10 ^ exponent := by
  induction count generalizing coefficient exponent with
  | zero => rfl
  | succ count ih =>
    rw [dropZeros]
    split
    · next h =>
      simp only [Bool.and_eq_true, bne_iff_ne, beq_iff_eq] at h
      obtain ⟨k, rfl⟩ := Nat.dvd_of_mod_eq_zero h.2
      rw [ih, Nat.mul_div_cancel_left _ (by decide), zpow_add_one₀ (by norm_num)]
      push_cast
      ring
    · rfl

/-! ## The range of a double -/

theorem interval_denominator_pos (m : Nat) (e : Int) :
    0 < (interval m e).denominator :=
  ratio_pos 1 (e - 2)

theorem two_zpow_eq (e : Int) : (2 : ℚ) ^ e = 4 * 2 ^ (e - 2) := by
  rw [zpow_sub₀ (by norm_num)]
  norm_num
  ring

theorem halfAbove_eq (e : Int) : halfAbove e = 2 * 2 ^ (e - 2) := by
  rw [halfAbove, zpow_sub₀ (by norm_num), zpow_sub₀ (by norm_num)]
  norm_num
  ring

theorem interval_value (m : Nat) (e : Int) :
    ((interval m e).value : ℚ) =
      Binary64.value m e * (interval m e).denominator := by
  have hunit := ratio_eq 1 (e - 2)
  simp only [interval]
  push_cast
  rw [hunit, Binary64.value, Binary64.value, two_zpow_eq e]
  push_cast
  ring

theorem interval_high (m : Nat) (e : Int) :
    ((interval m e).high : ℚ) =
      (Binary64.value m e + halfAbove e) * (interval m e).denominator := by
  have hunit := ratio_eq 1 (e - 2)
  simp only [interval]
  push_cast
  rw [hunit, Binary64.value, Binary64.value, two_zpow_eq e, halfAbove_eq]
  push_cast
  ring

theorem interval_low (hm : 0 < m) (e : Int) :
    ((interval m e).low : ℚ) =
      (Binary64.value m e - halfBelow m e) * (interval m e).denominator := by
  have hunit := ratio_eq 1 (e - 2)
  simp only [interval, Nat.pow_eq, Bool.and_eq_true, beq_iff_eq, bne_iff_ne]
  unfold halfBelow
  split
  · push_cast [show 1 ≤ 4 * m by omega]
    rw [hunit, Binary64.value, Binary64.value, two_zpow_eq e]
    push_cast
    ring
  · have hhalf : (2 : ℚ) ^ (e - 1) = 2 * 2 ^ (e - 2) := halfAbove_eq e
    push_cast [show 2 ≤ 4 * m by omega]
    rw [hunit, Binary64.value, Binary64.value, two_zpow_eq e, hhalf]
    push_cast
    ring

section

variable {numerator denominator scale end_ : Nat} {x : ℚ}

theorem mul_le_iff_le_div (h : (end_ : ℚ) = x * denominator)
    (hd : 0 < denominator) (hs : 0 < scale) :
    end_ * scale ≤ numerator ↔ x ≤ numerator / (denominator * scale) := by
  have hpos : (0 : ℚ) < denominator * scale := by
    exact_mod_cast Nat.mul_pos hd hs
  rw [le_div_iff₀ hpos, ← mul_assoc, ← h]
  exact_mod_cast Iff.rfl

theorem le_mul_iff_div_le (h : (end_ : ℚ) = x * denominator)
    (hd : 0 < denominator) (hs : 0 < scale) :
    numerator ≤ end_ * scale ↔ numerator / (denominator * scale) ≤ x := by
  have hpos : (0 : ℚ) < denominator * scale := by
    exact_mod_cast Nat.mul_pos hd hs
  rw [div_le_iff₀ hpos, ← mul_assoc, ← h]
  exact_mod_cast Iff.rfl

end

/-- The test for a fraction is that it rounds to the double. -/
theorem holds_iff (hm : 0 < m) {numerator scale : Nat} (hs : 0 < scale) :
    (interval m e).holds numerator scale = true ↔
      RoundsTo (numerator / ((interval m e).denominator * scale)) m e := by
  have hd := interval_denominator_pos m e
  have hlow := interval_low hm e
  have hhigh := interval_high m e
  have hclosed : (interval m e).closed = (m % 2 == 0) := rfl
  rw [Interval.holds, hclosed]
  split
  · next heven =>
    rw [Bool.and_eq_true, decide_eq_true_iff, decide_eq_true_iff,
      mul_le_iff_le_div hlow hd hs, le_mul_iff_div_le hhigh hd hs]
    rw [beq_iff_eq] at heven
    exact ⟨fun ⟨hl, hh⟩ => ⟨hl, hh, by omega⟩, fun h => ⟨h.low, h.high⟩⟩
  · next hodd =>
    rw [Bool.and_eq_true, decide_eq_true_iff, decide_eq_true_iff, ← not_le,
      ← not_le, le_mul_iff_div_le hlow hd hs, mul_le_iff_le_div hhigh hd hs,
      not_le, not_le]
    rw [beq_iff_eq] at hodd
    have hodd : m % 2 = 1 := by omega
    exact ⟨fun ⟨hl, hh⟩ => ⟨hl.le, hh.le, fun _ => ⟨hl, hh⟩⟩,
      fun h => h.inside hodd⟩

/-! ## The grids -/

/-- The grid points around a double, and which of them may be found. -/
structure Around (m : Nat) (e exponent : Int) (below : Nat) (found : Option Decimal) :
    Prop where
  low : below * (10 : ℚ) ^ exponent ≤ Binary64.value m e
  high : Binary64.value m e < (below + 1) * (10 : ℚ) ^ exponent
  some : ∀ d ∈ found, RoundsTo d.value m e ∧ d.exponent = exponent ∧
    (d.coefficient = below ∨ d.coefficient = below + 1)
  none : found = none → ¬ RoundsTo (below * 10 ^ exponent) m e ∧
    ¬ RoundsTo ((below + 1) * 10 ^ exponent) m e

/-- The search on the grid of the fraction `up / down`. -/
def Interval.nearestOn? (tie : Tie) (i : Interval) (exponent : Int)
    (up down : Nat) : Option Decimal :=
  let step := up * i.denominator
  let target := i.value * down
  let below := target / step
  let above := below + 1
  let upper := takesUpper tie below (target - below * step)
    (above * step - target)
  match i.holds (below * step) down, i.holds (above * step) down with
  | true, true => some ⟨if upper then above else below, exponent⟩
  | true, false => some ⟨below, exponent⟩
  | false, true => some ⟨above, exponent⟩
  | false, false => none

theorem nearest?_eq (tie : Tie) (i : Interval) (exponent : Int) :
    ∃ up down : Nat, 0 < up ∧ 0 < down ∧ (up : ℚ) = 10 ^ exponent * down ∧
      i.nearest? tie exponent = i.nearestOn? tie exponent up down := by
  cases exponent with
  | ofNat places =>
    refine ⟨10 ^ places, 1, by positivity, Nat.one_pos, ?_, rfl⟩
    push_cast
    rw [Int.ofNat_eq_natCast, zpow_natCast, mul_one]
  | negSucc places =>
    refine ⟨1, 10 ^ (places + 1), Nat.one_pos, by positivity, ?_, rfl⟩
    push_cast
    rw [zpow_negSucc, inv_mul_cancel₀ (by positivity)]

section

variable {tie : Tie} {i : Interval} {exponent : Int} {up down : Nat}

theorem of_mem_nearestOn? {d : Decimal}
    (h : d ∈ i.nearestOn? tie exponent up down) :
    let below := i.value * down / (up * i.denominator)
    d.exponent = exponent ∧
      (d.coefficient = below ∨ d.coefficient = below + 1) ∧
      i.holds (d.coefficient * (up * i.denominator)) down = true := by
  unfold Interval.nearestOn? at h
  dsimp only at h ⊢
  split at h <;> cases h
  · next hbelow habove =>
    refine ⟨rfl, ?_, ?_⟩ <;> dsimp only <;> split
    · exact .inr rfl
    · exact .inl rfl
    · exact habove
    · exact hbelow
  · next hbelow _ => exact ⟨rfl, .inl rfl, hbelow⟩
  · next _ habove => exact ⟨rfl, .inr rfl, habove⟩

theorem of_nearestOn?_eq_none (h : i.nearestOn? tie exponent up down = none) :
    let below := i.value * down / (up * i.denominator)
    ¬ i.holds (below * (up * i.denominator)) down = true ∧
      ¬ i.holds ((below + 1) * (up * i.denominator)) down = true := by
  unfold Interval.nearestOn? at h
  dsimp only at h ⊢
  split at h <;> cases h
  next hbelow habove => exact ⟨by rw [hbelow]; decide, by rw [habove]; decide⟩

end

section

variable {exponent : Int} {up down : Nat}

/-- The test for a grid point is that it rounds to the double. -/
theorem holds_grid_iff (hm : 0 < m) (hdown : 0 < down)
    (hscale : (up : ℚ) = 10 ^ exponent * down) (k : Nat) :
    (interval m e).holds (k * (up * (interval m e).denominator)) down = true ↔
      RoundsTo (k * 10 ^ exponent) m e := by
  have hd := interval_denominator_pos m e
  rw [holds_iff hm hdown]
  have hquotient : ((k * (up * (interval m e).denominator) : Nat) : ℚ) /
      ((interval m e).denominator * down) = k * 10 ^ exponent := by
    have hdq : ((interval m e).denominator : ℚ) ≠ 0 := by exact_mod_cast hd.ne'
    have hdownq : (down : ℚ) ≠ 0 := by exact_mod_cast hdown.ne'
    push_cast
    rw [hscale]
    field_simp
  rw [hquotient]

theorem grid_eq (m : Nat) (e : Int) (hscale : (up : ℚ) = 10 ^ exponent * down)
    (k : Nat) :
    ((k * (up * (interval m e).denominator) : Nat) : ℚ) =
      k * 10 ^ exponent * ((interval m e).denominator * down) := by
  push_cast
  rw [hscale]
  ring

theorem target_eq (m : Nat) (e : Int) (down : Nat) :
    (((interval m e).value * down : Nat) : ℚ) =
      Binary64.value m e * ((interval m e).denominator * down) := by
  push_cast
  rw [interval_value, mul_assoc]

/-- The double is compared with a grid point over their common denominator. -/
theorem grid_le_iff (m : Nat) (e : Int) (hdown : 0 < down)
    (hscale : (up : ℚ) = 10 ^ exponent * down) (k : Nat) :
    k * (up * (interval m e).denominator) ≤ (interval m e).value * down ↔
      k * (10 : ℚ) ^ exponent ≤ Binary64.value m e := by
  have hpos : (0 : ℚ) < (interval m e).denominator * down := by
    exact_mod_cast Nat.mul_pos (interval_denominator_pos m e) hdown
  rw [← mul_le_mul_iff_left₀ hpos, ← target_eq, ← grid_eq m e hscale]
  exact_mod_cast Iff.rfl

/-- The grid points below and above the double. -/
theorem below_spec (m : Nat) (e : Int) (hup : 0 < up) (hdown : 0 < down)
    (hscale : (up : ℚ) = 10 ^ exponent * down) :
    let below := (interval m e).value * down / (up * (interval m e).denominator)
    below * (10 : ℚ) ^ exponent ≤ Binary64.value m e ∧
      Binary64.value m e < (below + 1) * (10 : ℚ) ^ exponent := by
  intro below
  have hstep : 0 < up * (interval m e).denominator :=
    Nat.mul_pos hup (interval_denominator_pos m e)
  refine ⟨(grid_le_iff m e hdown hscale _).1 (Nat.div_mul_le_self _ _), ?_⟩
  have habove := Nat.lt_mul_div_succ ((interval m e).value * down) hstep
  rw [mul_comm (up * _), ← not_le, grid_le_iff m e hdown hscale, not_le] at habove
  exact_mod_cast habove

end

theorem exists_around (hm : 0 < m) (e exponent : Int) (tie : Tie) :
    ∃ below, Around m e exponent below ((interval m e).nearest? tie exponent) := by
  obtain ⟨up, down, hup, hdown, hscale, hnearest⟩ :=
    nearest?_eq tie (interval m e) exponent
  rw [hnearest]
  obtain ⟨hlow, hhigh⟩ := below_spec m e hup hdown hscale
  refine ⟨_, hlow, hhigh, ?_, ?_⟩
  · intro d hd
    obtain ⟨hexponent, hcoefficient, hd⟩ := of_mem_nearestOn? hd
    rw [holds_grid_iff hm hdown hscale] at hd
    rw [value, hexponent]
    exact ⟨hd, rfl, hcoefficient⟩
  · intro hnone
    obtain ⟨hbelow, habove⟩ := of_nearestOn?_eq_none hnone
    rw [holds_grid_iff hm hdown hscale] at hbelow habove
    push_cast at habove
    exact ⟨hbelow, habove⟩

/-- A grid finer than the range is wide has a point in the range. -/
theorem nearest?_isSome (hm : 0 < m) (tie : Tie) {exponent : Int}
    (h : (10 : ℚ) ^ exponent < halfBelow m e + halfAbove e) :
    ((interval m e).nearest? tie exponent).isSome := by
  obtain ⟨below, haround⟩ := exists_around hm e exponent tie
  cases hfound : (interval m e).nearest? tie exponent with
  | some d => rfl
  | none =>
    exfalso
    obtain ⟨hbelow, habove⟩ := haround.none hfound
    have hlow := haround.low
    have hhigh := haround.high
    have hbelowPos := halfBelow_pos m e
    have habovePos := halfAbove_pos e
    have hunder : below * (10 : ℚ) ^ exponent ≤
        Binary64.value m e - halfBelow m e := by
      by_contra hnot
      exact hbelow (roundsTo_of_lt (not_le.1 hnot) (by linarith))
    have hover : Binary64.value m e + halfAbove e ≤
        (below + 1) * (10 : ℚ) ^ exponent := by
      by_contra hnot
      exact habove (roundsTo_of_lt (by linarith) (not_le.1 hnot))
    linarith

/-- The `point` of a double. -/
def topOf (m : Nat) (e : Int) : Int :=
  pointOf (interval m e).value (interval m e).denominator

theorem topOf_spec (hm : 0 < m) (e : Int) :
    (10 : ℚ) ^ (topOf m e - 1) ≤ Binary64.value m e ∧
      Binary64.value m e < 10 ^ topOf m e := by
  have hd := interval_denominator_pos m e
  have hdq : (0 : ℚ) < (interval m e).denominator := by exact_mod_cast hd
  have hvalue := interval_value m e
  have hpos := halfAbove_pos e
  have hpositive : 0 < (interval m e).value := by
    have hone : (1 : ℚ) ≤ m := by exact_mod_cast hm
    have hq : (0 : ℚ) < (interval m e).value := by
      rw [hvalue, Binary64.value_eq]
      positivity
    exact_mod_cast hq
  have hpoint := pointOf_spec hpositive hd
  rw [hvalue, mul_div_cancel_right₀ _ hdq.ne'] at hpoint
  exact hpoint

/-- The grid of seventeen significant digits is finer than the range is wide. -/
theorem seventeen_digits (h : Canonical m e) (hm : 0 < m) :
    (10 : ℚ) ^ (topOf m e - 17) < halfBelow m e + halfAbove e := by
  have hpos := halfAbove_pos e
  have hm' : (m : ℚ) + 1 ≤ 2 ^ 53 := by exact_mod_cast h.mantissa
  have hpoint := (topOf_spec hm e).1
  rw [Binary64.value_eq] at hpoint
  have hgrid : (10 : ℚ) ^ (topOf m e - 1) = 10 ^ 16 * 10 ^ (topOf m e - 17) := by
    rw [← zpow_natCast, ← zpow_add₀ (by norm_num)]
    congr 1
    omega
  rw [hgrid] at hpoint
  by_cases hpower : m = 2 ^ 52 ∧ e ≠ -1074
  · obtain ⟨rfl, hne⟩ := hpower
    rw [halfBelow_eq hne]
    push_cast at hpoint
    linarith
  · have hbelow : halfBelow m e = halfAbove e := if_neg hpower
    rw [hbelow]
    have hbound : 2 * m * halfAbove e ≤ 2 ^ 54 * halfAbove e := by
      nlinarith
    linarith

/-- A search through the numbers below a bound ends on the first hit. -/
theorem exists_first {α : Type} {f : Nat → Option α} {bound : Nat} {a : α}
    (h : (List.range bound).findSome? f = some a) :
    ∃ i < bound, f i = some a ∧ ∀ j < i, f j = none := by
  induction bound with
  | zero => cases h
  | succ bound ih =>
    rw [List.range_succ, List.findSome?_append, Option.or_eq_some_iff] at h
    rcases h with h | ⟨hnone, h⟩
    · obtain ⟨i, hi, hfirst⟩ := ih h
      exact ⟨i, by omega, hfirst⟩
    · rw [List.findSome?_eq_none_iff] at hnone
      rw [List.findSome?_singleton] at h
      exact ⟨bound, by omega, h, fun j hj => hnone j (List.mem_range.2 hj)⟩

/-- The search ends on the first grid that has a point in the range. -/
theorem exists_found (tie : Tie) (h : Canonical m e) (hm : 0 < m) :
    ∃ extra < 17, ∃ d,
      (interval m e).nearest? tie (topOf m e - (extra + 1 : Nat)) = some d ∧
      (∀ fewer < extra,
        (interval m e).nearest? tie (topOf m e - (fewer + 1 : Nat)) = none) ∧
      shortest tie m e = dropZeros 20 d.coefficient d.exponent := by
  have henough := nearest?_isSome hm tie (seventeen_digits h hm)
  cases hfound : (List.range 17).findSome? fun extra =>
      (interval m e).nearest? tie (topOf m e - (extra + 1 : Nat)) with
  | none =>
    have hlast : (interval m e).nearest? tie (topOf m e - 17) = none :=
      List.findSome?_eq_none_iff.1 hfound 16 (by decide)
    rw [hlast] at henough
    cases henough
  | some d =>
    obtain ⟨extra, hextra, hd, hfewer⟩ := exists_first hfound
    refine ⟨extra, hextra, d, hd, hfewer, ?_⟩
    rw [topOf] at hfound
    simp only [shortest, hfound, Option.getD_some]

/-- The decimal written for a double rounds to it. -/
theorem roundsTo_shortest (tie : Tie) (h : Canonical m e) (hm : 0 < m) :
    RoundsTo (shortest tie m e).value m e := by
  obtain ⟨extra, -, d, hd, -, heq⟩ := exists_found tie h hm
  obtain ⟨below, haround⟩ := exists_around hm e _ tie
  rw [heq, value_dropZeros]
  exact (haround.some d hd).1

end Lox.Decimal
