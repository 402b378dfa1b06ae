import Lox.Decimal.Binary64
import Mathlib.Algebra.Order.Field.Power
import Mathlib.Tactic.Linarith
import Mathlib.Tactic.Ring

/-!
# The values of doubles

A finite double is read as a mantissa and an exponent, which are the only ones
that its sign and value have (`canonical_ofBits`, `ofBits_inj`).  A real number
rounds to the double if it lies no further away than half way to its neighbours,
and just half way only if the mantissa is even (`RoundsTo`).  So it rounds to one
double only (`RoundsTo.unique`), larger numbers round to larger doubles
(`RoundsTo.value_le`), and what rounds to one double has no gaps
(`RoundsTo.between`).
-/

namespace Lox.Binary64

variable {m m' : Nat} {e e' : Int} {x y z : ℚ}

/-! ## Mantissas and exponents -/

/-- The value `m · 2 ^ e`. -/
def value (m : Nat) (e : Int) : ℚ := m * 2 ^ e

/-- The mantissas and exponents that finite doubles have. -/
structure Canonical (m : Nat) (e : Int) : Prop where
  mantissa : m < 2 ^ 53
  least : -1074 ≤ e
  greatest : e ≤ 971
  normal : e ≠ -1074 → 2 ^ 52 ≤ m

/-- What a finite double is read as, in its bits. -/
theorem eq_of_ofBits {bits : UInt64} {negative : Bool}
    (h : ofBits bits = .finite negative m e) :
    ∃ sign field fraction : Nat, sign < 2 ∧ field < 2047 ∧ fraction < 2 ^ 52 ∧
      bits.toNat = sign * 2 ^ 63 + field * 2 ^ 52 + fraction ∧
      negative = (sign == 1) ∧
      if field = 0 then m = fraction ∧ e = -1074
      else m = 2 ^ 52 + fraction ∧ e = (field : Int) - 1075 := by
  have hbits := bits.toNat_lt
  refine ⟨bits.toNat / 2 ^ 63, bits.toNat / 2 ^ 52 % 2 ^ 11, bits.toNat % 2 ^ 52,
    by omega, ?_, by omega, by omega, ?_⟩ <;>
  simp only [ofBits, Nat.pow_eq, beq_iff_eq] at h
  · split at h
    · split at h <;> cases h
    · next hfield => omega
  · split at h
    · split at h <;> cases h
    · split at h
      · next hzero =>
        rw [if_pos hzero]
        cases h
        exact ⟨rfl, rfl, rfl⟩
      · next hzero =>
        rw [if_neg hzero]
        cases h
        exact ⟨rfl, rfl, rfl⟩

theorem canonical_ofBits {bits : UInt64} {negative : Bool}
    (h : ofBits bits = .finite negative m e) : Canonical m e := by
  obtain ⟨sign, field, fraction, -, hfield, hfraction, -, -, hread⟩ :=
    eq_of_ofBits h
  split at hread
  · obtain ⟨rfl, rfl⟩ := hread
    exact ⟨by omega, by omega, by omega, by omega⟩
  · obtain ⟨rfl, rfl⟩ := hread
    exact ⟨by omega, by omega, by omega, by omega⟩

theorem ofBits_inj {bits bits' : UInt64} {negative : Bool}
    (h : ofBits bits = .finite negative m e)
    (h' : ofBits bits' = .finite negative m e) : bits = bits' := by
  obtain ⟨sign, field, fraction, hsign, -, hfraction, hbits, hnegative, hread⟩ :=
    eq_of_ofBits h
  obtain ⟨sign', field', fraction', hsign', -, hfraction', hbits', hnegative',
    hread'⟩ := eq_of_ofBits h'
  have hsigns : sign = sign' := by
    rw [hnegative] at hnegative'
    have hiff : sign = 1 ↔ sign' = 1 := by
      rw [← beq_iff_eq, hnegative', beq_iff_eq]
    omega
  rw [← UInt64.toNat_inj, hbits, hbits', hsigns]
  split at hread <;> split at hread' <;> omega

/-- The bits are all that there is to a double. -/
theorem ofFloat_inj {a b : Float} {negative : Bool}
    (h : ofFloat a = .finite negative m e)
    (h' : ofFloat b = .finite negative m e) : a = b := by
  have hbits : a.toModel.toBits = b.toModel.toBits := ofBits_inj h h'
  obtain ⟨⟨bits, hvalid⟩⟩ := a
  obtain ⟨⟨bits', hvalid'⟩⟩ := b
  cases hbits
  rfl

/-! ## Values as fractions -/

theorem ne_zero_of_value {w : Nat} (h : value m e = w) (hw : 0 < w) : m ≠ 0 := by
  rintro rfl
  rw [value, Nat.cast_zero, zero_mul] at h
  exact hw.ne (by exact_mod_cast h)

theorem ratio_pos (m : Nat) (e : Int) : 0 < (ratio m e).2 := by
  cases e with
  | ofNat up => exact Nat.one_pos
  | negSucc down => exact Nat.two_pow_pos _

theorem ratio_eq (m : Nat) (e : Int) :
    ((ratio m e).1 : ℚ) = value m e * (ratio m e).2 := by
  cases e with
  | ofNat up => simp [ratio, value]
  | negSucc down =>
    simp [ratio, value, zpow_negSucc]

theorem whole?_eq_some_iff {w : Nat} :
    whole? m e = some w ↔ value m e = w := by
  have hpos := ratio_pos m e
  have heq := ratio_eq m e
  unfold whole?
  generalize ratio m e = r at hpos heq
  obtain ⟨numerator, denominator⟩ := r
  have hne : (denominator : ℚ) ≠ 0 := by exact_mod_cast hpos.ne'
  simp only [beq_iff_eq] at *
  constructor
  · intro h
    split at h
    · next hmod =>
      obtain ⟨k, rfl⟩ := Nat.dvd_of_mod_eq_zero hmod
      rw [Nat.mul_div_cancel_left _ hpos] at h
      cases h
      push_cast at heq
      rw [mul_comm] at heq
      exact (mul_right_cancel₀ hne heq).symm
    · cases h
  · intro h
    rw [h] at heq
    obtain rfl : numerator = w * denominator := by exact_mod_cast heq
    rw [if_pos (Nat.mul_mod_left _ _), Nat.mul_div_cancel _ hpos]

/-! ## Rounding -/

/-- Half way down to the next double. -/
def halfBelow (m : Nat) (e : Int) : ℚ :=
  if m = 2 ^ 52 ∧ e ≠ -1074 then 2 ^ (e - 2) else 2 ^ (e - 1)

/-- Half way up to the next double. -/
def halfAbove (e : Int) : ℚ := 2 ^ (e - 1)

/-- To nearest, and to an even mantissa where two are equally near. -/
structure RoundsTo (x : ℚ) (m : Nat) (e : Int) : Prop where
  low : value m e - halfBelow m e ≤ x
  high : x ≤ value m e + halfAbove e
  inside : m % 2 = 1 →
    value m e - halfBelow m e < x ∧ x < value m e + halfAbove e

theorem halfBelow_pos (m : Nat) (e : Int) : 0 < halfBelow m e := by
  unfold halfBelow
  split <;> positivity

theorem halfAbove_pos (e : Int) : 0 < halfAbove e := by
  unfold halfAbove
  positivity

theorem roundsTo_of_lt (hlow : value m e - halfBelow m e < x)
    (hhigh : x < value m e + halfAbove e) : RoundsTo x m e :=
  ⟨hlow.le, hhigh.le, fun _ => ⟨hlow, hhigh⟩⟩

/-- A double rounds to itself. -/
theorem roundsTo_value (m : Nat) (e : Int) : RoundsTo (value m e) m e := by
  have hbelow := halfBelow_pos m e
  have habove := halfAbove_pos e
  exact roundsTo_of_lt (by linarith) (by linarith)

/-- The value over half the distance to the next double. -/
theorem value_eq (m : Nat) (e : Int) : value m e = 2 * m * halfAbove e := by
  have hstep : (2 : ℚ) ^ e = 2 * 2 ^ (e - 1) := by
    rw [← zpow_one_add₀ (by norm_num)]
    congr 1
    omega
  rw [value, halfAbove, hstep]
  ring

theorem halfBelow_le (m : Nat) (e : Int) : halfBelow m e ≤ halfAbove e := by
  unfold halfBelow halfAbove
  split
  · exact zpow_le_zpow_right₀ (by norm_num) (by omega)
  · exact le_refl _

theorem halfBelow_eq (he : e ≠ -1074) :
    halfBelow (2 ^ 52) e = halfAbove e / 2 := by
  have hstep : (2 : ℚ) ^ (e - 1) = 2 * 2 ^ (e - 2) := by
    rw [← zpow_one_add₀ (by norm_num)]
    congr 1
    omega
  rw [halfBelow, if_pos ⟨rfl, he⟩, halfAbove, hstep]
  ring

/-- The first range ends before the second one starts, or they meet at their ends
and one mantissa is odd. -/
def Apart (m : Nat) (e : Int) (m' : Nat) (e' : Int) : Prop :=
  value m e + halfAbove e ≤ value m' e' - halfBelow m' e' ∧
    (m % 2 = 0 → m' % 2 = 0 →
      value m e + halfAbove e < value m' e' - halfBelow m' e')

theorem apart_of_mantissa_lt (hlt : m < m') : Apart m e m' e := by
  have hpos := halfAbove_pos e
  have hbelow := halfBelow_le m' e
  unfold Apart
  rw [value_eq, value_eq]
  constructor
  · have hstep : (m : ℚ) + 1 ≤ m' := by exact_mod_cast hlt
    nlinarith
  · intro heven heven'
    have hstep : (m : ℚ) + 2 ≤ m' := by
      have hnat : m + 2 ≤ m' := by omega
      exact_mod_cast hnat
    nlinarith

/-- A double with the larger exponent is normal, and one with the smaller
exponent at most the last below a power of two. -/
theorem apart_of_exponent_lt (h : Canonical m e) (h' : Canonical m' e')
    (hexp : e < e') : Apart m e m' e' := by
  have hne : e' ≠ -1074 := by have := h.least; omega
  have hnormal := h'.normal hne
  obtain ⟨k, rfl⟩ : ∃ k : Nat, e' = e + 1 + k := ⟨(e' - e - 1).toNat, by omega⟩
  have hscale : halfAbove (e + 1 + k) = 2 * 2 ^ k * halfAbove e := by
    have hexponent : e + 1 + (k : Int) - 1 = 1 + (k + (e - 1)) := by ring
    rw [halfAbove, halfAbove, hexponent, zpow_one_add₀ (by norm_num),
      zpow_add₀ (by norm_num), zpow_natCast]
    ring
  have hpos := halfAbove_pos e
  have hgrow : halfAbove e ≤ 2 ^ k * halfAbove e :=
    le_mul_of_one_le_left hpos.le (one_le_pow₀ (by norm_num))
  have hbelow := halfBelow_le m' (e + 1 + k)
  have hfirst := halfBelow_eq hne
  unfold Apart
  rw [value_eq, value_eq]
  rw [hscale] at hbelow hfirst ⊢
  have hassoc : 2 * 2 ^ k * halfAbove e = 2 * (2 ^ k * halfAbove e) := by ring
  rw [hassoc] at hbelow hfirst ⊢
  generalize halfAbove e = p at *
  generalize 2 ^ k * p = q at *
  have hm : (m : ℚ) + 1 ≤ 2 ^ 53 := by exact_mod_cast h.mantissa
  rcases Nat.eq_or_lt_of_le hnormal with rfl | hlarge
  · rw [hfirst]
    push_cast
    constructor
    · nlinarith
    · intro heven _
      have hm' : (m : ℚ) + 2 ≤ 2 ^ 53 := by
        have hnat : m + 2 ≤ 2 ^ 53 := by have := h.mantissa; omega
        exact_mod_cast hnat
      nlinarith
  · have hm' : (2 : ℚ) ^ 52 + 1 ≤ m' := by exact_mod_cast hlarge
    have hstrict : 2 * m * p + p < 2 * m' * (2 * q) - halfBelow m' (e + 1 + k) := by
      nlinarith
    exact ⟨hstrict.le, fun _ _ => hstrict⟩

/-- No number rounds to both. -/
theorem Apart.not_roundsTo (h : Apart m e m' e') (hx : RoundsTo x m e) :
    ¬ RoundsTo x m' e' := by
  intro hx'
  obtain ⟨hle, hlt⟩ := h
  have hhigh := hx.high
  have hlow := hx'.low
  rcases Nat.mod_two_eq_zero_or_one m with heven | hodd
  · rcases Nat.mod_two_eq_zero_or_one m' with heven' | hodd'
    · have := hlt heven heven'
      linarith
    · have := (hx'.inside hodd').1
      linarith
  · have := (hx.inside hodd).2
    linarith

/-- Two doubles are the same, or the ranges that round to them are apart. -/
theorem eq_or_apart (h : Canonical m e) (h' : Canonical m' e') :
    (m = m' ∧ e = e') ∨ Apart m e m' e' ∨ Apart m' e' m e := by
  rcases lt_trichotomy e e' with hexp | rfl | hexp
  · exact .inr (.inl (apart_of_exponent_lt h h' hexp))
  · rcases lt_trichotomy m m' with hlt | rfl | hlt
    · exact .inr (.inl (apart_of_mantissa_lt hlt))
    · exact .inl ⟨rfl, rfl⟩
    · exact .inr (.inr (apart_of_mantissa_lt hlt))
  · exact .inr (.inr (apart_of_exponent_lt h' h hexp))

/-- A number rounds to one double at most. -/
theorem RoundsTo.unique (h : Canonical m e) (h' : Canonical m' e')
    (hx : RoundsTo x m e) (hx' : RoundsTo x m' e') : m = m' ∧ e = e' := by
  rcases eq_or_apart h h' with heq | hapart | hapart
  · exact heq
  · exact absurd hx' (hapart.not_roundsTo hx)
  · exact absurd hx (hapart.not_roundsTo hx')

/-- A finite double is given by its value. -/
theorem value_inj (h : Canonical m e) (h' : Canonical m' e')
    (heq : value m e = value m' e') : m = m' ∧ e = e' :=
  (roundsTo_value m e).unique h h' (heq ▸ roundsTo_value m' e')

/-- Rounding keeps the order. -/
theorem RoundsTo.value_le (h : Canonical m e) (h' : Canonical m' e')
    (hx : RoundsTo x m e) (hy : RoundsTo y m' e') (hxy : x ≤ y) :
    value m e ≤ value m' e' := by
  rcases eq_or_apart h h' with ⟨rfl, rfl⟩ | hapart | hapart
  · exact le_rfl
  · have habove := halfAbove_pos e
    have hbelow := halfBelow_pos m' e'
    linarith [hapart.1]
  · have heq : x = y := le_antisymm hxy (by linarith [hapart.1, hx.low, hy.high])
    exact absurd (heq ▸ hx) (hapart.not_roundsTo hy)

theorem RoundsTo.pos (hm : 0 < m) (h : RoundsTo x m e) : 0 < x := by
  have hlow := h.low
  have hpos := halfAbove_pos e
  have hbelow := halfBelow_le m e
  have hone : (1 : ℚ) ≤ m := by exact_mod_cast hm
  rw [value_eq] at hlow
  nlinarith

/-! ## Between numbers -/

/-- The second number lies between the other two, whichever of them is larger. -/
def Between (x y z : ℚ) : Prop := x ≤ y ∧ y ≤ z ∨ z ≤ y ∧ y ≤ x

/-- Nothing between two numbers that round to a double rounds to another. -/
theorem RoundsTo.between (hx : RoundsTo x m e) (hz : RoundsTo z m e)
    (h : Between x y z) : RoundsTo y m e := by
  rcases h with ⟨hxy, hyz⟩ | ⟨hzy, hyx⟩
  · refine ⟨hx.low.trans hxy, hyz.trans hz.high, fun hodd => ?_⟩
    exact ⟨(hx.inside hodd).1.trans_le hxy, hyz.trans_lt (hz.inside hodd).2⟩
  · refine ⟨hz.low.trans hzy, hyx.trans hx.high, fun hodd => ?_⟩
    exact ⟨(hz.inside hodd).1.trans_le hzy, hyx.trans_lt (hx.inside hodd).2⟩

/-- How far a number lies from the double. -/
def distance (x : ℚ) (m : Nat) (e : Int) : ℚ := |x - value m e|

theorem distance_of_le (h : x ≤ value m e) : distance x m e = value m e - x := by
  rw [distance, abs_sub_comm, abs_of_nonneg (by linarith)]

theorem distance_of_ge (h : value m e ≤ x) : distance x m e = x - value m e := by
  rw [distance, abs_of_nonneg (by linarith)]

theorem distance_value (m : Nat) (e : Int) : distance (value m e) m e = 0 := by
  rw [distance_of_le le_rfl, sub_self]

end Lox.Binary64
