import Lox.Value
import Lox.Proofs.Decimal.Whole

/-!
# Numbers as JavaScript writes them

`IsStringOf` says which texts JavaScript's `String(n)` has: those of a shortest
decimal, in plain notation from `1e-6` up to but not including `1e21` and in exponent
notation outside that range.  Where two shortest decimals are equally near, either
will do; `Decimal.le_shortest_up` says which one is written here.

The place of the point in a shortest decimal tells whether the double is in that
range (`point_range_iff`).  This needs an argument because the double `1e-6` is less
than the number: no shortest decimal of a double from there up is below `10 ^ -6`
(`Decimal.pow_le_iff_of_roundsTo`).

All numbers are printed this way but some whole ones from `2 ^ 53` up
(`display_isStringOf_iff`): in plain notation whole numbers are printed with all
their digits, also where fewer digits round to them (`SpelledOut`).
-/

namespace Lox.Number

open Binary64 (Canonical RoundsTo canonical_ofBits halfAbove halfBelow
  whole?_eq_some_iff)
open Decimal (IsShortest isShortest_shortest lt_point_iff pow_le_iff_of_roundsTo
  zeros)

variable {v : Float} {negative : Bool} {w m : Nat} {e : Int} {d : Decimal}

/-! ## The texts of JavaScript -/

/-- Plain notation for the digits of `0.d₁d₂… · 10 ^ point`. -/
def plainNotation (digits : List Char) (point : Int) : List Char :=
  if digits.length ≤ point then digits ++ zeros (point - digits.length).toNat
  else if 0 < point then
    digits.take point.toNat ++ '.' :: digits.drop point.toNat
  else '0' :: '.' :: zeros (-point).toNat ++ digits

/-- Exponent notation: the first digit, the others after a point if there are any,
and the power of ten with its sign. -/
def exponentNotation (digits : List Char) (point : Int) : List Char :=
  (if digits.length = 1 then digits
    else digits.take 1 ++ '.' :: digits.drop 1) ++
  'e' :: (if point - 1 < 0 then '-' else '+') ::
    Nat.toDigits 10 (point - 1).natAbs

/-- The magnitude of a finite double. -/
def magnitude (v : Float) : ℚ :=
  match Binary64.ofFloat v with
  | .finite _ m e => Binary64.value m e
  | _ => 0

/-- The magnitudes that are written in plain notation. -/
def InPlainRange (m : Nat) (e : Int) : Prop :=
  magnitude 1e-6 ≤ Binary64.value m e ∧ Binary64.value m e < magnitude 1e21

/-- The texts that JavaScript's `String(n)` may have for a number. -/
inductive IsStringOf : Binary64 → String → Prop
  | nan : IsStringOf .nan "NaN"
  | infinite (negative : Bool) :
      IsStringOf (.infinite negative) (sign negative ++ "Infinity")
  | zero (negative : Bool) (e : Int) : IsStringOf (.finite negative 0 e) "0"
  | plain {negative : Bool} {m : Nat} {e : Int} {d : Decimal} (hm : 0 < m)
      (hd : IsShortest d m e) (hrange : InPlainRange m e) :
      IsStringOf (.finite negative m e)
        (sign negative ++ String.ofList (plainNotation d.digits d.point))
  | exponent {negative : Bool} {m : Nat} {e : Int} {d : Decimal} (hm : 0 < m)
      (hd : IsShortest d m e) (hrange : ¬ InPlainRange m e) :
      IsStringOf (.finite negative m e)
        (sign negative ++ String.ofList (exponentNotation d.digits d.point))

/-! ## The two notations -/

theorem positional_eq (d : Decimal) :
    d.positional = String.ofList (plainNotation d.digits d.point) := by
  have hpos : 0 < d.digits.length := Nat.length_toDigits_pos
  unfold Decimal.positional plainNotation
  dsimp only
  split
  · next h =>
    rw [h, Int.ofNat_eq_natCast, if_neg (by omega), if_neg (by omega)]
    rfl
  · next before hbefore h =>
    have hbefore : 0 < before := Nat.pos_of_ne_zero hbefore
    rw [h, Int.ofNat_eq_natCast]
    split
    · next hsize =>
      rw [if_pos (by exact_mod_cast hsize)]
      congr 3
      omega
    · next hsize =>
      rw [if_neg (by exact_mod_cast hsize), if_pos (by omega), Int.toNat_natCast]
  · next missing h =>
    rw [h, if_neg (by omega), if_neg (by omega)]
    rfl

theorem significand_eq (d : Decimal) :
    d.significand = String.ofList (if d.digits.length = 1 then d.digits
      else d.digits.take 1 ++ '.' :: d.digits.drop 1) := by
  have hne : d.digits ≠ [] := Nat.toDigits_ne_nil
  unfold Decimal.significand
  split
  · next h => exact absurd h hne
  · next digit h => simp [h]
  · next digit rest h =>
    rw [h, if_neg (by simp; assumption)]
    rfl

theorem scientific_eq (d : Decimal) :
    d.scientific = String.ofList (exponentNotation d.digits d.point) := by
  have htext (mark : Char) (power : Nat) :
      String.ofList ('e' :: mark :: Nat.toDigits 10 power) =
        String.ofList ['e', mark] ++ toString power := by
    rw [Nat.toString_eq_ofList_toDigits, ← String.ofList_append]
    rfl
  unfold Decimal.scientific exponentNotation
  rw [String.ofList_append, ← significand_eq, htext, Decimal.power]
  cases d.point - 1 with
  | ofNat power =>
    have hsign : ¬ Int.ofNat power < 0 := Int.not_lt.2 (Int.natCast_nonneg power)
    rw [if_neg hsign, ← String.append_assoc]
    rfl
  | negSucc power =>
    rw [if_pos (Int.negSucc_lt_zero power), ← String.append_assoc]
    rfl

/-! ## The range of plain notation -/

theorem ofFloat_least :
    Binary64.ofFloat 1e-6 = .finite false 4722366482869645 (-72) := by
  decide +kernel

theorem ofFloat_greatest :
    Binary64.ofFloat 1e21 = .finite false 7629394531250000 17 := by
  decide +kernel

theorem magnitude_greatest : magnitude 1e21 = 10 ^ 21 := by
  rw [magnitude, ofFloat_greatest]
  norm_num [Binary64.value]

theorem roundsTo_least : RoundsTo (10 ^ (-6 : Int)) 4722366482869645 (-72) := by
  constructor <;> norm_num [Binary64.value, halfBelow, halfAbove]

theorem roundsTo_greatest : RoundsTo (10 ^ (21 : Int)) 7629394531250000 17 := by
  constructor <;> norm_num [Binary64.value, halfBelow, halfAbove]

/-- The range of plain notation by shortest decimals: at most five zeros between the
point and the digits, and at most 21 places in front of the point. -/
theorem point_range_iff (h : Canonical m e) (hm : 0 < m) (hd : IsShortest d m e) :
    -6 < d.point ∧ d.point ≤ 21 ↔ InPlainRange m e := by
  have hpos := Decimal.coefficient_pos (hd.rounds.pos hm)
  have hleast := pow_le_iff_of_roundsTo (canonical_ofBits ofFloat_least)
    roundsTo_least (by norm_num [halfBelow, halfAbove]) h hm hd
  have hgreatest := pow_le_iff_of_roundsTo (canonical_ofBits ofFloat_greatest)
    roundsTo_greatest (by norm_num [halfBelow, halfAbove]) h hm hd
  rw [← Int.not_lt, lt_point_iff hpos, lt_point_iff hpos, hleast, hgreatest, not_le,
    InPlainRange, magnitude, magnitude, ofFloat_least, ofFloat_greatest]

/-- Positive whole numbers below `10 ^ 21` are in the range. -/
theorem inPlainRange_of_whole (hw : Binary64.value m e = w) (hpos : 0 < w)
    (hlt : w < 10 ^ 21) : InPlainRange m e := by
  have hone : (1 : ℚ) ≤ w := by exact_mod_cast hpos
  have hleast : magnitude 1e-6 ≤ 1 := by
    rw [magnitude, ofFloat_least]
    norm_num [Binary64.value]
  rw [InPlainRange, hw, magnitude_greatest]
  exact ⟨hleast.trans hone, by exact_mod_cast hlt⟩

/-! ## What is printed -/

section

variable (h : Binary64.ofFloat v = .finite negative m e) (hm : 0 < m)
include h hm

/-- Outside the range of plain notation. -/
theorem display_of_not_inPlainRange (hrange : ¬ InPlainRange m e) :
    display v = sign negative ++ (Decimal.shortest .up m e).scientific := by
  have hcanonical := canonical_ofBits h
  have hpoint := (point_range_iff hcanonical hm
    (isShortest_shortest .up hcanonical hm)).not.2 hrange
  unfold display
  simp only [h, beq_eq_false_iff_ne.2 hm.ne']
  rw [if_neg (by decide), if_pos]
  rw [Bool.or_eq_true, decide_eq_true_iff, decide_eq_true_iff]
  omega

/-- In the range of plain notation. -/
theorem display_of_inPlainRange (hrange : InPlainRange m e) :
    display v = sign negative ++
      match Binary64.whole? m e with
      | some whole => toString whole
      | none => (Decimal.shortest .up m e).positional := by
  have hcanonical := canonical_ofBits h
  have hpoint := (point_range_iff hcanonical hm
    (isShortest_shortest .up hcanonical hm)).2 hrange
  unfold display
  simp only [h, beq_eq_false_iff_ne.2 hm.ne']
  rw [if_neg (by decide), if_neg]
  · cases Binary64.whole? m e with
    | none => rfl
    | some w => rfl
  · rw [Bool.or_eq_true, decide_eq_true_iff, decide_eq_true_iff]
    omega

end

/-- A whole number that no shortest decimal equals, in the range of plain
notation. -/
inductive SpelledOut : Binary64 → Bool → Nat → Prop
  | intro {negative : Bool} {m : Nat} {e : Int} {w : Nat}
      (whole : Binary64.value m e = w) (large : 2 ^ 53 ≤ w) (small : w < 10 ^ 21)
      (longer : ∀ d, IsShortest d m e → d.value ≠ w) :
      SpelledOut (.finite negative m e) negative w

variable {x : Binary64} {text : String}

theorem SpelledOut.not_isStringOf (h : SpelledOut x negative w)
    (htext : text = sign negative ++ toString w) : ¬ IsStringOf x text := by
  obtain ⟨hwhole, hlarge, hsmall, hlonger⟩ := h
  intro hstring
  have hpos : 0 < w := (by decide : 0 < 2 ^ 53).trans_le hlarge
  cases hstring with
  | zero negative e => exact Binary64.ne_zero_of_value hwhole hpos rfl
  | @plain _ _ _ d hm hd hrange =>
    rw [← String.toList_inj, String.toList_append, String.toList_append,
      List.append_cancel_left_eq, ← positional_eq, String.toList_inj] at htext
    exact hlonger d hd (Decimal.value_of_positional htext)
  | exponent hm hd hrange => exact hrange (inPlainRange_of_whole hwhole hpos hsmall)

theorem SpelledOut.display_eq (h : SpelledOut (Binary64.ofFloat v) negative w) :
    display v = sign negative ++ toString w := by
  generalize hfinite : Binary64.ofFloat v = x at h
  obtain ⟨hwhole, hlarge, hsmall, -⟩ := h
  have hpos : 0 < w := (by decide : 0 < 2 ^ 53).trans_le hlarge
  have hm := Nat.pos_of_ne_zero (Binary64.ne_zero_of_value hwhole hpos)
  rw [display_of_inPlainRange hfinite hm (inPlainRange_of_whole hwhole hpos hsmall),
    whole?_eq_some_iff.2 hwhole]

/-- A finite number but zero that is not spelled out is printed as JavaScript
writes it. -/
theorem isStringOf_display (h : Binary64.ofFloat v = .finite negative m e)
    (hm : 0 < m) (hnot : ∀ w, ¬ SpelledOut (.finite negative m e) negative w) :
    IsStringOf (.finite negative m e) (display v) := by
  have hcanonical := canonical_ofBits h
  have hshortest := isShortest_shortest .up hcanonical hm
  by_cases hrange : InPlainRange m e
  · rw [display_of_inPlainRange h hm hrange]
    cases hwhole : Binary64.whole? m e with
    | none =>
      dsimp only
      rw [positional_eq]
      exact .plain hm hshortest hrange
    | some w =>
      rw [whole?_eq_some_iff] at hwhole
      obtain ⟨d, hd, hvalue⟩ : ∃ d, IsShortest d m e ∧ d.value = w := by
        by_contra hlonger
        push Not at hlonger
        rcases Nat.lt_or_ge w (2 ^ 53) with hlt | hge
        · exact hlonger _ hshortest (hshortest.value_eq_of_lt hcanonical hm hwhole hlt)
        · refine hnot w ⟨hwhole, hge, ?_, hlonger⟩
          have hsmall := hrange.2
          rw [hwhole, magnitude_greatest] at hsmall
          exact_mod_cast hsmall
      dsimp only
      rw [← hd.positional_of_value hm hvalue, positional_eq]
      exact .plain hm hd hrange
  · rw [display_of_not_inPlainRange h hm hrange, scientific_eq]
    exact .exponent hm hshortest hrange

/-- Numbers are printed as JavaScript writes them, but for the whole numbers from
`2 ^ 53` up to `10 ^ 21` that no shortest decimal equals.  Those are printed with all
their digits. -/
theorem display_isStringOf_iff (v : Float) :
    (IsStringOf (Binary64.ofFloat v) (Value.number v).display ↔
        ¬ ∃ negative w, SpelledOut (Binary64.ofFloat v) negative w) ∧
      ∀ negative w, SpelledOut (Binary64.ofFloat v) negative w →
        (Value.number v).display = sign negative ++ toString w := by
  have hdisplay : (Value.number v).display = display v := rfl
  rw [hdisplay]
  refine ⟨⟨?_, ?_⟩, fun negative w h => h.display_eq⟩
  · rintro hstring ⟨negative, w, h⟩
    exact h.not_isStringOf h.display_eq hstring
  · intro hnot
    cases hfinite : Binary64.ofFloat v with
    | nan =>
      unfold display
      simp only [hfinite]
      exact .nan
    | infinite negative =>
      unfold display
      simp only [hfinite]
      exact .infinite negative
    | finite negative m e =>
      rcases Nat.eq_zero_or_pos m with rfl | hm
      · unfold display
        simp only [hfinite]
        exact .zero negative e
      · refine isStringOf_display hfinite hm fun w h => hnot ⟨negative, w, ?_⟩
        rw [hfinite]
        exact h

theorem isShortest_sample : IsShortest ⟨3602879701896397, 1⟩ (2 ^ 52) 3 := by
  have hcanonical : Canonical (2 ^ 52) 3 := ⟨by decide, by decide, by decide, by simp⟩
  have hshortest := isShortest_shortest .up hcanonical (by decide)
  rwa [show Decimal.shortest .up (2 ^ 52) 3 = ⟨3602879701896397, 1⟩ by
    decide +kernel] at hshortest

/-- The least power of two that is printed with more digits than it needs. -/
theorem display_isStringOf_iff_sample :
    (Value.number 36028797018963968).display = "36028797018963968" ∧
      IsStringOf (Binary64.ofFloat 36028797018963968) "36028797018963970" ∧
      ¬ IsStringOf (Binary64.ofFloat 36028797018963968)
        (Value.number 36028797018963968).display := by
  have hfinite : Binary64.ofFloat 36028797018963968 = .finite false (2 ^ 52) 3 := by
    decide +kernel
  have hvalue : Binary64.value (2 ^ 52) 3 = (36028797018963968 : Nat) := by
    norm_num [Binary64.value]
  have hspelled : SpelledOut (Binary64.ofFloat 36028797018963968) false
      36028797018963968 := by
    rw [hfinite]
    refine ⟨hvalue, by decide, by decide, fun d hd hwhole => ?_⟩
    obtain ⟨k, -, hk⟩ := hd.exists_exponent (by decide) hwhole
    cases k with
    | zero =>
      have hle := hd.fewest _ isShortest_sample.rounds
      rw [pow_zero, mul_one] at hk
      rw [← hk] at hle
      revert hle
      decide +kernel
    | succ k =>
      rw [pow_succ, ← mul_assoc] at hk
      omega
  obtain ⟨hiff, htext⟩ := display_isStringOf_iff 36028797018963968
  refine ⟨htext false _ hspelled, ?_, fun hstring => ?_⟩
  · rw [hfinite]
    exact .plain (by decide) isShortest_sample
      (inPlainRange_of_whole hvalue (by decide) (by decide))
  · exact hiff.1 hstring ⟨false, _, hspelled⟩

end Lox.Number
