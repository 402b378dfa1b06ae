import Lox.Proofs.Decimal.Shortest

/-!
# No decimal is shorter, and none as short is nearer

A decimal is shortest for a double if it rounds to it, no decimal that rounds to
it has fewer digits, and none with as few is nearer (`IsShortest`).

* On one grid the search takes the best of the points in the range
  (`nearest?_beats`).
* Between the double and any decimal of `k` digits there is a point of the grid
  of `k` digits (`exists_grid_between`).  So no grid is passed over if a decimal of
  its length rounds to the double (`nearest?_isSome_of_roundsTo`), and what is found
  beats every other of its length (`isShortest_shortest`).
* Where ties go up, the decimal found is the largest of the shortest
  (`le_shortest_up`).
* Where doubles lie dense, a power of ten stands between the shortest decimals of two
  doubles as it does between the doubles (`pow_le_iff_of_roundsTo`).
-/

namespace Lox.Decimal

open Binary64 (Between Canonical RoundsTo distance distance_of_ge distance_of_le
  halfAbove halfBelow roundsTo_value)

variable {m : Nat} {e exponent : Int} {tie : Tie} {d d' : Decimal}

/-! ## The best point of a grid -/

/-- The first number is nearer to the double than the second; or as near, and if
ties go up not smaller. -/
structure Beats (tie : Tie) (m : Nat) (e : Int) (x y : ℚ) : Prop where
  near : distance x m e ≤ distance y m e
  tied : tie = .up → distance y m e = distance x m e → y ≤ x

theorem Beats.refl (tie : Tie) (m : Nat) (e : Int) (x : ℚ) : Beats tie m e x x :=
  ⟨le_rfl, fun _ _ => le_rfl⟩

/-- What beats a number beats all that lies behind it. -/
theorem Beats.behind {x y c : ℚ} (h : Beats tie m e x c)
    (hc : Between y c (Binary64.value m e)) : Beats tie m e x y := by
  rcases hc with ⟨hyc, hcv⟩ | ⟨hvc, hcy⟩
  · have hdc := distance_of_le hcv
    have hdy := distance_of_le (hyc.trans hcv)
    refine ⟨by linarith [h.near], fun hup heq => ?_⟩
    have hle := h.tied hup (by linarith [h.near])
    linarith
  · have hdc := distance_of_ge hvc
    have hdy := distance_of_ge (hvc.trans hcy)
    refine ⟨by linarith [h.near], fun hup heq => ?_⟩
    have hle := h.tied hup (by linarith [h.near])
    linarith [h.near]

section

variable {below toBelow toAbove : Nat}

theorem le_of_takesUpper (h : takesUpper tie below toBelow toAbove = true) :
    toAbove ≤ toBelow := by
  simp only [takesUpper, Bool.or_eq_true, decide_eq_true_iff, Bool.and_eq_true,
    beq_iff_eq] at h
  omega

theorem le_of_not_takesUpper (h : takesUpper tie below toBelow toAbove = false) :
    toBelow ≤ toAbove ∧ (tie = .up → toBelow < toAbove) := by
  simp only [takesUpper, Bool.or_eq_false_iff, decide_eq_false_iff_not] at h
  refine ⟨by omega, ?_⟩
  rintro rfl
  simp only [Bool.and_true, beq_eq_false_iff_ne] at h
  omega

end

section

variable {i : Interval} {up down : Nat}

/-- Which grid point is taken: the one below the double or the one above, and if
both are in the range then as their distances and the rule for ties say. -/
theorem taken_of_mem_nearestOn? (h : d ∈ i.nearestOn? tie exponent up down) :
    let step := up * i.denominator
    let below := i.value * down / step
    let upper := takesUpper tie below (i.value * down - below * step)
      ((below + 1) * step - i.value * down)
    d.exponent = exponent ∧
      (d.coefficient = below ∧
          (i.holds ((below + 1) * step) down = true → upper = false) ∨
        d.coefficient = below + 1 ∧
          (i.holds (below * step) down = true → upper = true)) := by
  unfold Interval.nearestOn? at h
  dsimp only at h ⊢
  split at h
  · split at h
    · next hupper =>
      cases h
      exact ⟨rfl, .inr ⟨rfl, fun _ => hupper⟩⟩
    · next hupper =>
      cases h
      exact ⟨rfl, .inl ⟨rfl, fun _ => Bool.eq_false_iff.2 hupper⟩⟩
  · next _ habove =>
    cases h
    exact ⟨rfl, .inl ⟨rfl, fun hholds => by rw [habove] at hholds; cases hholds⟩⟩
  · next hbelow _ =>
    cases h
    exact ⟨rfl, .inr ⟨rfl, fun hholds => by rw [hbelow] at hholds; cases hholds⟩⟩
  · cases h

/-- The distances that the search compares, over the common denominator. -/
theorem toBelow_eq (hscale : (up : ℚ) = 10 ^ exponent * down) {k : Nat}
    (h : k * (10 : ℚ) ^ exponent ≤ Binary64.value m e) (hdown : 0 < down) :
    (((interval m e).value * down - k * (up * (interval m e).denominator) : Nat) : ℚ)
      = distance (k * 10 ^ exponent) m e * ((interval m e).denominator * down) := by
  rw [Nat.cast_sub ((grid_le_iff m e hdown hscale k).2 h), target_eq,
    grid_eq m e hscale, distance_of_le h]
  ring

theorem toAbove_eq (hscale : (up : ℚ) = 10 ^ exponent * down) {k : Nat}
    (h : Binary64.value m e < k * (10 : ℚ) ^ exponent) (hdown : 0 < down) :
    ((k * (up * (interval m e).denominator) - (interval m e).value * down : Nat) : ℚ)
      = distance (k * 10 ^ exponent) m e * ((interval m e).denominator * down) := by
  have hle := (grid_le_iff m e hdown hscale k).not.2 h.not_ge
  rw [Nat.cast_sub (Nat.le_of_not_le hle), target_eq, grid_eq m e hscale,
    distance_of_ge h.le]
  ring

end

/-- Every point of a grid lies behind one of the two around the double. -/
theorem behind_grid {below : Nat} {v : ℚ}
    (hlow : below * (10 : ℚ) ^ exponent ≤ v)
    (hhigh : v ≤ (below + 1 : Nat) * (10 : ℚ) ^ exponent) (c : Nat) :
    Between (c * 10 ^ exponent) (below * 10 ^ exponent) v ∨
      Between (c * 10 ^ exponent) ((below + 1 : Nat) * 10 ^ exponent) v := by
  have hgrid : (0 : ℚ) < 10 ^ exponent := by positivity
  rcases Nat.lt_or_ge below c with hlt | hge
  · refine .inr (.inr ⟨hhigh, ?_⟩)
    exact mul_le_mul_of_nonneg_right (by exact_mod_cast hlt) hgrid.le
  · refine .inl (.inl ⟨?_, hlow⟩)
    exact mul_le_mul_of_nonneg_right (by exact_mod_cast hge) hgrid.le

/-- The point that is found on a grid beats all others that round to the
double. -/
theorem nearest?_beats (hm : 0 < m)
    (h : (interval m e).nearest? tie exponent = some d) {c : Nat}
    (hc : RoundsTo (c * 10 ^ exponent) m e) :
    Beats tie m e d.value (c * 10 ^ exponent) := by
  obtain ⟨up, down, hup, hdown, hscale, hnearest⟩ :=
    nearest?_eq tie (interval m e) exponent
  rw [hnearest] at h
  obtain ⟨hlow, hhigh⟩ := below_spec m e hup hdown hscale
  obtain ⟨hexponent, htaken⟩ := taken_of_mem_nearestOn? h
  generalize (interval m e).value * down / (up * (interval m e).denominator) = below
    at hlow hhigh htaken
  have hhigh : Binary64.value m e < (below + 1 : Nat) * (10 : ℚ) ^ exponent := by
    exact_mod_cast hhigh
  have hdivisor : (0 : ℚ) < (interval m e).denominator * down := by
    exact_mod_cast Nat.mul_pos (interval_denominator_pos m e) hdown
  have hbelow := toBelow_eq hscale hlow hdown
  have habove := toAbove_eq hscale hhigh hdown
  have hsides := behind_grid hlow hhigh.le c
  have hself := roundsTo_value m e
  rw [value, hexponent]
  rcases htaken with ⟨hcoefficient, hupper⟩ | ⟨hcoefficient, hupper⟩
  · rw [holds_grid_iff hm hdown hscale] at hupper
    rw [hcoefficient]
    rcases hsides with hside | hside
    · exact (Beats.refl tie m e _).behind hside
    · obtain ⟨hle, hlt⟩ := le_of_not_takesUpper (hupper (hc.between hself hside))
      refine Beats.behind ⟨?_, fun hup heq => ?_⟩ hside
      · rw [← mul_le_mul_iff_left₀ hdivisor, ← hbelow, ← habove]
        exact_mod_cast hle
      · exfalso
        rw [heq, ← hbelow] at habove
        exact (hlt hup).ne (by exact_mod_cast habove.symm)
  · rw [holds_grid_iff hm hdown hscale] at hupper
    rw [hcoefficient]
    rcases hsides with hside | hside
    · have hle := le_of_takesUpper (hupper (hc.between hself hside))
      refine Beats.behind ⟨?_, fun _ _ => hlow.trans hhigh.le⟩ hside
      rw [← mul_le_mul_iff_left₀ hdivisor, ← hbelow, ← habove]
      exact_mod_cast hle
    · exact (Beats.refl tie m e _).behind hside

/-! ## Decimals of one length -/

theorem coefficient_pos (h : 0 < d.value) : 0 < d.coefficient := by
  rcases Nat.eq_zero_or_pos d.coefficient with hzero | hpos
  · rw [value, hzero, Nat.cast_zero, zero_mul] at h
    exact absurd h (lt_irrefl _)
  · exact hpos

theorem pow_point_le (h : 0 < d.coefficient) :
    (10 : ℚ) ^ (d.point - 1) ≤ d.value := by
  have hpos := digitCount_pos d.coefficient
  have hlow : (10 : ℚ) ^ (digitCount d.coefficient - 1) ≤ d.coefficient := by
    exact_mod_cast pow_digitCount_le h
  have hsplit : d.point - 1 = (digitCount d.coefficient - 1 : Nat) + d.exponent := by
    rw [point]
    omega
  rw [hsplit, zpow_add₀ (by norm_num), zpow_natCast, value]
  exact mul_le_mul_of_nonneg_right hlow (by positivity)

theorem value_lt_pow_point (d : Decimal) : d.value < 10 ^ d.point := by
  have hhigh : (d.coefficient : ℚ) < 10 ^ digitCount d.coefficient := by
    exact_mod_cast lt_pow_digitCount d.coefficient
  rw [point, zpow_add₀ (by norm_num), zpow_natCast, value]
  exact mul_lt_mul_of_pos_right hhigh (by positivity)

theorem lt_point_iff (hd : 0 < d.coefficient) (k : Int) :
    k < d.point ↔ (10 : ℚ) ^ k ≤ d.value := by
  constructor
  · intro hlt
    exact (zpow_le_zpow_right₀ (by norm_num) (by omega)).trans (pow_point_le hd)
  · intro hle
    have hlt := hle.trans_lt (value_lt_pow_point d)
    rwa [zpow_lt_zpow_iff_right₀ (by norm_num)] at hlt

/-- A power of ten is a point of each finer grid. -/
theorem pow_eq_grid (top : Int) (k : Nat) :
    (10 : ℚ) ^ top = (10 ^ k : Nat) * 10 ^ (top - k) := by
  push_cast
  rw [← zpow_natCast, ← zpow_add₀ (by norm_num)]
  congr 1
  omega

/-- Between a decimal and a number whose first digit stands in front of `top`
lies a point of the grid with as many digits as the decimal has. -/
theorem exists_grid_between {top : Int} {v : ℚ} (hd : 0 < d.coefficient)
    (hlow : 10 ^ (top - 1) ≤ v) (hhigh : v < 10 ^ top) :
    ∃ c : Nat, Between d.value (c * 10 ^ (top - digitCount d.coefficient)) v := by
  have hpos := digitCount_pos d.coefficient
  have hpoint : d.point = digitCount d.coefficient + d.exponent := rfl
  have hunder := value_lt_pow_point d
  have hover := pow_point_le hd
  rcases lt_trichotomy d.point top with hlt | heq | hgt
  · -- The least number with `top` comes in between.
    refine ⟨10 ^ (digitCount d.coefficient - 1), .inl ?_⟩
    have hgrid := pow_eq_grid (top - 1) (digitCount d.coefficient - 1)
    have hexponent : top - 1 - (digitCount d.coefficient - 1 : Nat) =
        top - digitCount d.coefficient := by omega
    rw [hexponent] at hgrid
    rw [← hgrid]
    exact ⟨hunder.le.trans (zpow_le_zpow_right₀ (by norm_num) (by omega)), hlow⟩
  · refine ⟨d.coefficient, ?_⟩
    have hexponent : top - digitCount d.coefficient = d.exponent := by omega
    rw [hexponent]
    change Between d.value d.value v
    rcases le_total d.value v with hle | hge
    · exact .inl ⟨le_rfl, hle⟩
    · exact .inr ⟨hge, le_rfl⟩
  · -- The least number above all with `top` does.
    refine ⟨10 ^ digitCount d.coefficient, .inr ?_⟩
    rw [← pow_eq_grid]
    exact ⟨hhigh.le, (zpow_le_zpow_right₀ (by norm_num) (by omega)).trans hover⟩

/-! ## Zeros at the end -/

theorem coefficient_dropZeros_le (count coefficient : Nat) (exponent : Int) :
    (dropZeros count coefficient exponent).coefficient ≤ coefficient := by
  induction count generalizing coefficient exponent with
  | zero => exact le_rfl
  | succ count ih =>
    rw [dropZeros]
    split
    · exact (ih _ _).trans (Nat.div_le_self _ _)
    · exact le_rfl

/-- A power of ten that carries over has one digit less without its last zero. -/
theorem digitCount_dropZeros_le {count coefficient k : Nat}
    (h : coefficient ≤ 10 ^ (k + 1)) :
    digitCount (dropZeros (count + 1) coefficient exponent).coefficient ≤ k + 1 := by
  rw [digitCount_le_iff (Nat.succ_pos k)]
  rcases Nat.lt_or_eq_of_le h with hlt | rfl
  · exact (coefficient_dropZeros_le _ _ _).trans_lt hlt
  · have hmod : 10 ^ (k + 1) % 10 = 0 := by rw [pow_succ]; exact Nat.mul_mod_left _ _
    have hdiv : 10 ^ (k + 1) / 10 = 10 ^ k := by
      rw [pow_succ]
      exact Nat.mul_div_cancel _ (by decide)
    have hne : (10 ^ (k + 1) != 0) = true := by
      rw [bne_iff_ne]
      exact (Nat.pow_pos (by decide)).ne'
    rw [dropZeros, hne, hmod, hdiv]
    exact (coefficient_dropZeros_le _ _ _).trans_lt
      (Nat.pow_lt_pow_right (by decide) (Nat.lt_succ_self k))

/-! ## The shortest decimals of a double -/

/-- The decimal rounds to the double, none that does has fewer digits, and none
with as few is nearer. -/
structure IsShortest (d : Decimal) (m : Nat) (e : Int) : Prop where
  rounds : RoundsTo d.value m e
  fewest : ∀ d' : Decimal, RoundsTo d'.value m e →
    digitCount d.coefficient ≤ digitCount d'.coefficient
  nearest : ∀ d' : Decimal, RoundsTo d'.value m e →
    digitCount d'.coefficient = digitCount d.coefficient →
    distance d.value m e ≤ distance d'.value m e

/-- What is found on the grid of `k` digits has `k` digits, or is the next power of
ten. -/
theorem coefficient_le_of_nearest? (hm : 0 < m) {k : Nat}
    (hd : (interval m e).nearest? tie (topOf m e - k) = some d) :
    d.coefficient ≤ 10 ^ k := by
  obtain ⟨below, haround⟩ := exists_around hm e (topOf m e - k) tie
  obtain ⟨-, -, hcoefficient⟩ := haround.some d hd
  have hbelow : (below : ℚ) < (10 ^ k : Nat) := by
    have hpos : (0 : ℚ) < 10 ^ (topOf m e - k) := by positivity
    rw [← mul_lt_mul_iff_left₀ hpos, ← pow_eq_grid]
    exact haround.low.trans_lt (topOf_spec hm e).2
  have hbelow : below < 10 ^ k := by exact_mod_cast hbelow
  omega

/-- A grid with a point that rounds to the double is not passed over. -/
theorem nearest?_isSome_of_roundsTo (hm : 0 < m) (tie : Tie) {c : Nat}
    (hc : RoundsTo (c * 10 ^ exponent) m e) :
    ((interval m e).nearest? tie exponent).isSome := by
  obtain ⟨below, haround⟩ := exists_around hm e exponent tie
  cases hfound : (interval m e).nearest? tie exponent with
  | some d => rfl
  | none =>
    exfalso
    obtain ⟨hbelow, habove⟩ := haround.none hfound
    have hhigh := haround.high
    rw [← Nat.cast_succ] at habove hhigh
    have hself := roundsTo_value m e
    rcases behind_grid haround.low hhigh.le c with hside | hside
    · exact hbelow (hc.between hself hside)
    · exact habove (hc.between hself hside)

section

variable (tie : Tie) (h : Canonical m e) (hm : 0 < m)
include h hm

/-- What the search finds is not longer than any decimal that rounds to the
double, and beats those that are as short. -/
theorem shortest_beats (hd' : RoundsTo d'.value m e) :
    digitCount (shortest tie m e).coefficient ≤ digitCount d'.coefficient ∧
      (digitCount d'.coefficient = digitCount (shortest tie m e).coefficient →
        Beats tie m e (shortest tie m e).value d'.value) := by
  obtain ⟨extra, -, d, hd, hfewer, heq⟩ := exists_found tie h hm
  obtain ⟨hlow, hhigh⟩ := topOf_spec hm e
  have hpositive := coefficient_pos (hd'.pos hm)
  obtain ⟨c, hbetween⟩ := exists_grid_between hpositive hlow hhigh
  have hc := hd'.between (roundsTo_value m e) hbetween
  -- The grid with as many digits was not passed over.
  have hleast : extra + 1 ≤ digitCount d'.coefficient := by
    by_contra hlt
    have hpos := digitCount_pos d'.coefficient
    have hnone := hfewer (digitCount d'.coefficient - 1) (by omega)
    rw [Nat.sub_add_cancel hpos] at hnone
    have hsome := nearest?_isSome_of_roundsTo hm tie hc
    rw [hnone] at hsome
    cases hsome
  -- What was found has no more digits than its grid.
  have hcount : digitCount (shortest tie m e).coefficient ≤ extra + 1 := by
    rw [heq]
    exact digitCount_dropZeros_le (coefficient_le_of_nearest? hm hd)
  refine ⟨hcount.trans hleast, fun hsame => ?_⟩
  have hlength : digitCount d'.coefficient = extra + 1 := by omega
  rw [hlength] at hc hbetween
  rw [heq, value_dropZeros]
  exact (nearest?_beats hm hd hc).behind hbetween

/-- The decimal written for a double is shortest for it. -/
theorem isShortest_shortest : IsShortest (shortest tie m e) m e where
  rounds := roundsTo_shortest tie h hm
  fewest _ hd' := (shortest_beats tie h hm hd').1
  nearest _ hd' hsame := ((shortest_beats tie h hm hd').2 hsame).near

/-- Where ties go up, no shortest decimal is larger. -/
theorem le_shortest_up (hd' : IsShortest d' m e) :
    d'.value ≤ (shortest .up m e).value := by
  have hshortest := isShortest_shortest .up h hm
  obtain ⟨hle, hbeats⟩ := shortest_beats .up h hm hd'.rounds
  have hsame := Nat.le_antisymm (hd'.fewest _ hshortest.rounds) hle
  refine (hbeats hsame).tied rfl (le_antisymm ?_ (hbeats hsame).near)
  exact hd'.nearest _ hshortest.rounds hsame.symm

end

/-! ## Powers of ten -/

/-- A one-digit decimal less than a power of ten is at most nine tenths of it. -/
theorem value_le_of_digitCount (hd : 0 < d.coefficient)
    (hone : digitCount d.coefficient ≤ 1) {k : Int}
    (hlt : d.value < 10 ^ k) : d.value ≤ 10 ^ k - 10 ^ (k - 1) := by
  have hnine : d.coefficient ≤ 9 := by
    rw [digitCount_le_iff Nat.one_pos] at hone
    omega
  have hexponent : d.exponent ≤ k - 1 := by
    have hpoint := (lt_point_iff hd k).not.2 hlt.not_ge
    have hpos := digitCount_pos d.coefficient
    rw [point] at hpoint
    omega
  have hpow : (10 : ℚ) ^ d.exponent ≤ 10 ^ (k - 1) :=
    zpow_le_zpow_right₀ (by norm_num) hexponent
  have hten : (10 : ℚ) ^ k = 10 * 10 ^ (k - 1) := by
    rw [← zpow_one_add₀ (by norm_num)]
    congr 1
    omega
  calc d.value
    _ ≤ 9 * 10 ^ (k - 1) :=
      mul_le_mul (by exact_mod_cast hnine) hpow (by positivity) (by norm_num)
    _ = 10 ^ k - 10 ^ (k - 1) := by
      rw [hten]
      ring

/-- A power of ten stands between the shortest decimals of two doubles as the double
that it rounds to stands between the two, if doubles lie dense enough there. -/
theorem pow_le_iff_of_roundsTo {m' : Nat} {e' k : Int} (h' : Canonical m' e')
    (hpow : RoundsTo (10 ^ k) m' e')
    (hdense : halfBelow m' e' + halfAbove e' < 10 ^ (k - 1)) (h : Canonical m e)
    (hm : 0 < m) (hd : IsShortest d m e) :
    (10 : ℚ) ^ k ≤ d.value ↔ Binary64.value m' e' ≤ Binary64.value m e := by
  constructor
  · exact fun hle => hpow.value_le h' h hd.rounds hle
  · intro hle
    by_contra hnot
    have hlt := lt_of_not_ge hnot
    have heq := le_antisymm hle (hd.rounds.value_le h h' hpow hlt.le)
    obtain ⟨rfl, rfl⟩ := Binary64.value_inj h' h heq
    have hvalue : value ⟨1, k⟩ = 10 ^ k := by simp [value]
    have hone : digitCount d.coefficient ≤ digitCount 1 :=
      hd.fewest ⟨1, k⟩ (hvalue.symm ▸ hpow)
    have hpos := coefficient_pos (hd.rounds.pos hm)
    have hless := value_le_of_digitCount hpos (hone.trans (by decide)) hlt
    linarith [hd.rounds.low, hpow.high]

end Lox.Decimal
