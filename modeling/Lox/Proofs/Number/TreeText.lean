import Lox.Number
import Lox.Proofs.Decimal.Layout

/-!
# Numbers in a printed tree

The text of a finite number without a sign is a numeral (`isNumeral_treeText`).
Its value rounds to the number, so the text of another number is another text
(`treeText_inj`).
-/

namespace Lox.Number

open Binary64 (RoundsTo canonical_ofBits ofFloat_inj roundsTo_value
  whole?_eq_some_iff)
open Decimal (IsNumeral Writes numeralValue roundsTo_shortest value_whole
  writes_positional writes_whole)

variable {v v' : Float} {m : Nat} {e : Int}

/-- The double is finite and has no minus sign. -/
def IsMagnitude (v : Float) : Prop :=
  ∃ m e, Binary64.ofFloat v = .finite false m e

/-- The text writes a decimal that rounds to the number. -/
theorem writes_treeText (h : Binary64.ofFloat v = .finite false m e) :
    ∃ d, Writes d (treeText v).toList ∧ RoundsTo d.value m e := by
  unfold treeText
  simp only [h]
  cases hwhole : Binary64.whole? m e with
  | some w =>
    refine ⟨⟨10 * w, -1⟩, ?_, ?_⟩
    · have htext : (sign false ++ toString w ++ ".0").toList =
          Nat.toDigits 10 w ++ ['.', '0'] := by
        simp [sign]
      rw [htext]
      exact writes_whole w
    · rw [value_whole, ← whole?_eq_some_iff.1 hwhole]
      exact roundsTo_value m e
  | none =>
    have hm : m ≠ 0 := by
      rintro rfl
      have hzero : Binary64.whole? 0 e = some 0 :=
        whole?_eq_some_iff.2 (by simp [Binary64.value])
      rw [hzero] at hwhole
      cases hwhole
    refine ⟨Decimal.shortest .up m e, ?_, roundsTo_shortest .up
      (canonical_ofBits h) (Nat.pos_of_ne_zero hm)⟩
    have htext : plain false m e =
        (Decimal.shortest .up m e).positional := by
      simp [plain, sign, hm]
    simp only [htext]
    exact writes_positional _

theorem isNumeral_treeText (h : IsMagnitude v) : IsNumeral (treeText v).toList := by
  obtain ⟨m, e, h⟩ := h
  obtain ⟨d, hwrites, -⟩ := writes_treeText h
  exact hwrites.isNumeral

/-- Different numbers have different texts. -/
theorem treeText_inj (h : IsMagnitude v) (h' : IsMagnitude v')
    (htext : treeText v = treeText v') : v = v' := by
  obtain ⟨m, e, h⟩ := h
  obtain ⟨m', e', h'⟩ := h'
  obtain ⟨d, hwrites, hrounds⟩ := writes_treeText h
  obtain ⟨d', hwrites', hrounds'⟩ := writes_treeText h'
  have hvalue : d.value = d'.value := by
    rw [← hwrites.numeralValue, ← hwrites'.numeralValue, htext]
  rw [hvalue] at hrounds
  obtain ⟨rfl, rfl⟩ :=
    hrounds.unique (canonical_ofBits h) (canonical_ofBits h') hrounds'
  exact ofFloat_inj h h'

end Lox.Number
