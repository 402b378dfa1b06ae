import Lox.Expr.Printer
import Lox.Token
import Lox.Proofs.Decimal.Whole

/-!
# Numbers in token listings and in printed trees

A token listing and a printed tree write most numbers alike.  They differ at two
kinds of whole numbers (`literal_eq_print_iff`): at zero with a minus sign, which
only the tree shows, and from `2 ^ 63` up, where the tree goes on to write the exact
value with `.0` and the token has shortest digits padded with zeros, without a point
(`tokenText_large`).  A number in a source has no minus sign, so there only the
second kind occurs.
-/

namespace Lox.Number

open Binary64 (canonical_ofBits whole?_eq_some_iff)
open Decimal (IsShortest exists_exponent_of_large isDigit_of_mem_digits
  isDigit_of_mem_zeros isShortest_shortest ne_point_of_isDigit
  positional_of_exponent zeros)

variable {v : Float} {negative : Bool} {w m : Nat} {e : Int}

/-- The double is the whole number `w`, with a minus sign or without. -/
def IsWhole (v : Float) (negative : Bool) (w : Nat) : Prop :=
  ∃ m e, Binary64.ofFloat v = .finite negative m e ∧ Binary64.value m e = w

/-! ## Whole numbers -/

theorem treeText_whole (h : IsWhole v negative w) :
    treeText v = sign negative ++ toString w ++ ".0" := by
  obtain ⟨m, e, hfinite, hw⟩ := h
  unfold treeText
  simp only [hfinite, whole?_eq_some_iff.2 hw]

theorem tokenText_whole (h : IsWhole v negative w) (hlt : w < 2 ^ 63) :
    tokenText v = sign (negative && w != 0) ++ toString w ++ ".0" := by
  obtain ⟨m, e, hfinite, hw⟩ := h
  unfold tokenText
  simp only [hfinite, whole?_eq_some_iff.2 hw, Nat.pow_eq, if_pos hlt]

/-- From `2 ^ 63` up a token has the digits of a shortest decimal, padded with
zeros. -/
theorem tokenText_large (h : IsWhole v negative w) (hge : 2 ^ 63 ≤ w) :
    ∃ m e d k, Binary64.ofFloat v = .finite negative m e ∧ IsShortest d m e ∧
      d.exponent = (k : Nat) ∧
      tokenText v = sign negative ++ String.ofList (d.digits ++ zeros k) := by
  obtain ⟨m, e, hfinite, hw⟩ := h
  have hcanonical := canonical_ofBits hfinite
  have hlarge : (10 : ℚ) ^ 16 ≤ Binary64.value m e := by
    rw [hw]
    exact_mod_cast (by decide : 10 ^ 16 ≤ 2 ^ 63).trans hge
  have hm := Binary64.ne_zero_of_value hw (by omega)
  have hpos := Nat.pos_of_ne_zero hm
  obtain ⟨k, hk⟩ := exists_exponent_of_large .up hcanonical hpos hlarge
  refine ⟨m, e, _, k, hfinite, isShortest_shortest .up hcanonical hpos, hk, ?_⟩
  unfold tokenText plain
  simp only [hfinite, whole?_eq_some_iff.2 hw, Nat.pow_eq, if_neg hge.not_gt,
    beq_eq_false_iff_ne.2 hm, positional_of_exponent hk]
  rfl

/-- Such a text has no point. -/
theorem point_not_mem_tokenText (h : IsWhole v negative w) (hge : 2 ^ 63 ≤ w) :
    '.' ∉ (tokenText v).toList := by
  obtain ⟨m, e, d, k, -, -, -, htext⟩ := tokenText_large h hge
  rw [htext, String.toList_append, String.toList_ofList]
  simp only [List.mem_append, not_or]
  refine ⟨?_, fun hmem => ?_, fun hmem => ?_⟩
  · cases negative <;> decide
  · exact bne_iff_ne.1 (ne_point_of_isDigit (isDigit_of_mem_digits hmem)) rfl
  · exact bne_iff_ne.1 (ne_point_of_isDigit (isDigit_of_mem_zeros hmem)) rfl

theorem point_mem_treeText (h : IsWhole v negative w) : '.' ∈ (treeText v).toList := by
  rw [treeText_whole h, String.toList_append]
  exact List.mem_append_right _ (by decide)

/-! ## All numbers -/

theorem tokenText_of_not_whole (h : ∀ negative w, ¬ IsWhole v negative w) :
    tokenText v = treeText v := by
  unfold tokenText treeText
  cases hfinite : Binary64.ofFloat v with
  | nan => rfl
  | infinite negative => rfl
  | finite negative m e =>
    cases hwhole : Binary64.whole? m e with
    | none => simp only [hwhole]
    | some w =>
      exact absurd ⟨m, e, hfinite, whole?_eq_some_iff.1 hwhole⟩ (h negative w)

theorem tokenText_eq_treeText_iff (v : Float) :
    tokenText v = treeText v ↔ ∀ negative w, IsWhole v negative w →
      w < 2 ^ 63 ∧ (negative = true → w ≠ 0) := by
  constructor
  · intro htext negative w h
    have hlt : w < 2 ^ 63 := by
      by_contra hge
      refine point_not_mem_tokenText h (Nat.le_of_not_lt hge) ?_
      rw [htext]
      exact point_mem_treeText h
    refine ⟨hlt, ?_⟩
    rintro rfl rfl
    rw [tokenText_whole h hlt, treeText_whole h] at htext
    revert htext
    decide
  · intro hall
    by_cases hwhole : ∃ negative w, IsWhole v negative w
    · obtain ⟨negative, w, h⟩ := hwhole
      obtain ⟨hlt, hzero⟩ := hall negative w h
      have hsign : (negative && w != 0) = negative := by
        cases negative with
        | false => rfl
        | true => simp [hzero rfl]
      rw [tokenText_whole h hlt, treeText_whole h, hsign]
    · push Not at hwhole
      exact tokenText_of_not_whole hwhole

/-- The literal of a number token is the text of the same literal in a tree, unless
the number is whole and either minus zero or at least `2 ^ 63`.  Trees show every
whole number with `.0`, tokens only those below `2 ^ 63`. -/
theorem literal_eq_print_iff (spelling : String) (v : Float) :
    ((Token.Kind.number spelling v).literal = (Expr.literal (.number v)).print ↔
      ∀ negative w, IsWhole v negative w →
        w < 2 ^ 63 ∧ (negative = true → w ≠ 0)) ∧
      ∀ negative w, IsWhole v negative w →
        (Expr.literal (.number v)).print = sign negative ++ toString w ++ ".0" ∧
          if w < 2 ^ 63 then
            (Token.Kind.number spelling v).literal =
              sign (negative && w != 0) ++ toString w ++ ".0"
          else '.' ∉ (Token.Kind.number spelling v).literal.toList := by
  have hliteral : (Token.Kind.number spelling v).literal = tokenText v := rfl
  have hprint : (Expr.literal (.number v)).print = treeText v := by
    rw [Expr.print, Literal.print]
  rw [hliteral, hprint]
  refine ⟨tokenText_eq_treeText_iff v, fun negative w h => ⟨treeText_whole h, ?_⟩⟩
  split
  · next hlt => exact tokenText_whole h hlt
  · next hge => exact point_not_mem_tokenText h (Nat.le_of_not_lt hge)

/-- The least number from a source of which only the tree has a point. -/
theorem literal_eq_print_iff_sample :
    (Token.Kind.number "9223372036854775808" 9223372036854775808).literal =
        "9223372036854776000" ∧
      (Expr.literal (.number 9223372036854775808)).print =
        "9223372036854775808.0" := by
  have hwhole : IsWhole 9223372036854775808 false (2 ^ 63) :=
    ⟨2 ^ 52, 11, by decide +kernel, by norm_num [Binary64.value]⟩
  refine ⟨by decide +kernel, ?_⟩
  exact ((literal_eq_print_iff "9223372036854775808" _).2 _ _ hwhole).1

end Lox.Number
