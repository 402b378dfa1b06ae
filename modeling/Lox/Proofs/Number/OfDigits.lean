import Lox.Proofs.Number.TreeText

/-!
# Numerals are neither negative nor undefined

Reading a numeral divides a whole number by a power of ten, or rounds the exact
quotient.  Neither step makes a sign or a NaN (`Unsigned`), in the bits of the
result as little as in its unpacked form.  So a number in a source is finite
without a sign, or infinite (`ofDigits_cases`).
-/

namespace Lox.Number

open Float.Model (Format UnpackedFloat)
open Float.Model.UnpackedFloat (Accuracy Sign packComponents roundWithAccuracy)

/-! ## Unpacked numbers -/

/-- Neither negative nor a NaN. -/
inductive Unsigned : UnpackedFloat → Prop
  | zero : Unsigned (.zero .positive)
  | finite (m : Nat) (e : Int) (h : 0 < m) : Unsigned (.finite .positive m e h)
  | infinity : Unsigned (.infinity .positive)

variable {u : UnpackedFloat} {spec : Format}

theorem unsigned_ite {p : Prop} [Decidable p] {u' : UnpackedFloat}
    (hyes : p → Unsigned u) (hno : ¬p → Unsigned u') :
    Unsigned (if p then u else u') := by
  split
  · next h => exact hyes h
  · next h => exact hno h

theorem unsigned_dite {p : Prop} [Decidable p] {yes : p → UnpackedFloat}
    {no : ¬p → UnpackedFloat} (hyes : ∀ h, Unsigned (yes h))
    (hno : ∀ h, Unsigned (no h)) : Unsigned (if h : p then yes h else no h) := by
  split
  · exact hyes _
  · exact hno _

theorem unsigned_round (m : Nat) (e : Int) (accuracy : Accuracy) :
    Unsigned (roundWithAccuracy spec .positive m e accuracy) :=
  unsigned_dite (fun _ => .zero) fun _ => .finite _ _ _

theorem unsigned_ofNat (n : Nat) : Unsigned (.ofNat spec n) := by
  unfold UnpackedFloat.ofNat UnpackedFloat.ofInt UnpackedFloat.normalize
  split
  · next h =>
    rw [Int.compare_eq_lt] at h
    omega
  · exact .zero
  · exact unsigned_round _ _ _

theorem Unsigned.div (h : Unsigned u) {m : Nat} {e : Int} (hm : 0 < m) :
    Unsigned (u.div spec (.finite .positive m e hm)) := by
  cases h with
  | zero => exact .zero
  | finite => exact unsigned_round _ _ _
  | infinity => exact .infinity

theorem unsigned_ofScientific (m : Nat) (e : Int) :
    Unsigned (.ofScientific spec m e) := by
  unfold UnpackedFloat.ofScientific
  refine unsigned_dite (fun _ => .zero) fun _ => ?_
  refine unsigned_ite (fun _ => .infinity) fun _ => ?_
  refine unsigned_ite (fun _ => .zero) fun _ => ?_
  exact unsigned_ite (fun _ => unsigned_round _ _ _) fun _ =>
    unsigned_round _ _ _

/-! ## Bits -/

/-- The bits of positive infinity.  Those of NaN are larger, and so are all
that have a sign. -/
def infinityBits : Nat := 2047 * 2 ^ 52

theorem toNat_append {n k : Nat} (x : BitVec n) (y : BitVec k) :
    (x ++ y).toNat = x.toNat * 2 ^ k + y.toNat := by
  rw [BitVec.toNat_append, ← Nat.shiftLeft_add_eq_or_of_lt y.isLt,
    Nat.shiftLeft_eq]

theorem toNat_packComponents (e : BitVec 11) (m : BitVec 52) :
    (packComponents .binary64 .positive e m).toNat = e.toNat * 2 ^ 52 + m.toNat := by
  rw [packComponents, toNat_append, toNat_append]
  simp [Sign.toBitVec]

theorem toNat_pack_le (h : Unsigned u) :
    (u.pack .binary64).toNat ≤ infinityBits := by
  cases h with
  | zero => decide
  | infinity => decide
  | finite m e h =>
    have hmantissa := (BitVec.ofNat 52 m).isLt
    unfold UnpackedFloat.pack infinityBits
    dsimp only
    split
    · decide
    · next hfits =>
      split
      · rw [toNat_packComponents, BitVec.toNat_ofNat _ 11,
          Nat.mod_eq_of_lt (by omega)]
        omega
      · rw [toNat_packComponents, BitVec.toNat_zero]
        omega

section

open Float.Model.UnpackedFloat (unpackExponent unpackMantissa unpackSign)

variable {bits : BitVec 64}

theorem toNat_unpackSign :
    (@unpackSign .binary64 bits).toNat = bits.toNat / 2 ^ 63 := by
  have hbits := bits.isLt
  show ((bits.extractLsb 63 63).cast _).toNat = _
  simp [Nat.shiftRight_eq_div_pow]
  omega

theorem toNat_unpackExponent :
    (@unpackExponent .binary64 bits).toNat = bits.toNat / 2 ^ 52 % 2 ^ 11 := by
  simp [unpackExponent, Nat.shiftRight_eq_div_pow]

theorem toNat_unpackMantissa :
    (@unpackMantissa .binary64 bits).toNat = bits.toNat % 2 ^ 52 := by
  simp [unpackMantissa]

end

theorem unsigned_unpack {bits : BitVec 64} (h : bits.toNat ≤ infinityBits) :
    Unsigned (.unpack .binary64 bits) := by
  unfold infinityBits at h
  have hsign : Sign.ofBitVec (@UnpackedFloat.unpackSign .binary64 bits) =
      .positive := by
    have hzero : @UnpackedFloat.unpackSign .binary64 bits = 0#1 := by
      rw [← BitVec.toNat_inj, toNat_unpackSign]
      exact Nat.div_eq_of_lt (by omega)
    rw [hzero]
    rfl
  unfold UnpackedFloat.unpack
  extract_lets mantissa exponentBits exponent signBit sign
  rw [show sign = .positive from hsign]
  refine unsigned_ite (fun hexponent => ?_) fun _ => ?_
  · refine unsigned_ite (fun _ => .infinity) fun hmantissa => ?_
    rw [← BitVec.toNat_inj, toNat_unpackExponent] at hexponent
    rw [← BitVec.toNat_inj, toNat_unpackMantissa] at hmantissa
    have hfield : bits.toNat / 2 ^ 52 % 2 ^ 11 = 2047 := hexponent
    have hfraction : ¬ bits.toNat % 2 ^ 52 = 0 := hmantissa
    omega
  · refine unsigned_ite (fun _ => ?_) fun _ => .finite _ _ _
    exact unsigned_dite (fun _ => .zero) fun _ => .finite _ _ _

/-- What bits without a sign mean. -/
theorem ofBits_cases {bits : UInt64} (h : bits.toNat ≤ infinityBits) :
    (∃ m e, Binary64.ofBits bits = .finite false m e) ∨
      Binary64.ofBits bits = .infinite false := by
  unfold infinityBits at h
  have hsign : (bits.toNat / 2 ^ 63 == 1) = false := by
    rw [beq_eq_false_iff_ne]
    omega
  unfold Binary64.ofBits
  simp only [Nat.pow_eq, hsign]
  split
  · next hfield =>
    rw [if_pos (by rw [beq_iff_eq] at hfield ⊢; omega)]
    exact .inr rfl
  · split
    · exact .inl ⟨_, _, rfl⟩
    · exact .inl ⟨_, _, rfl⟩

/-! ## Numerals -/

/-- The bits of a double have no sign and are not those of NaN. -/
def HasUnsignedBits (v : Float) : Prop :=
  v.toModel.toBits.toNat ≤ infinityBits

theorem hasUnsignedBits_pack (h : Unsigned u) :
    HasUnsignedBits (.ofModel (.pack u)) :=
  toNat_pack_le h

theorem unsigned_toModel {v : Float} (h : HasUnsignedBits v) :
    Unsigned v.toModel.unpack :=
  unsigned_unpack h

/-- Whether the number is finite and greater than zero. -/
def isPositive : UnpackedFloat → Bool
  | .finite .positive _ _ _ => true
  | _ => false

theorem exists_of_isPositive (h : isPositive u = true) :
    ∃ m e hm, u = .finite .positive m e hm := by
  cases u with
  | finite sign m e hm =>
    cases sign with
    | positive => exact ⟨m, e, hm, rfl⟩
    | negative => cases h
  | zero | infinity | notANumber => cases h

/-- The powers of ten that are doubles. -/
theorem isPositive_powers : ∀ i : Fin 23,
    isPositive (Float.exactlyRepresentablePowersOfTen[i]).toModel.unpack = true := by
  decide +kernel

theorem hasUnsignedBits_ofScientific (coefficient places : Nat) :
    HasUnsignedBits (.ofScientific coefficient true places) := by
  unfold Float.ofScientific
  split
  · next h =>
    obtain ⟨m, e, hm, hpower⟩ := exists_of_isPositive
      (isPositive_powers ⟨places, by omega⟩)
    have hunsigned : Unsigned coefficient.toUInt64.toFloat.toModel.unpack :=
      unsigned_toModel (hasUnsignedBits_pack (unsigned_ofNat _))
    have hquotient : Unsigned (UnpackedFloat.div .binary64
        coefficient.toUInt64.toFloat.toModel.unpack (.finite .positive m e hm)) :=
      hunsigned.div hm
    rw [← hpower] at hquotient
    exact hasUnsignedBits_pack hquotient
  · exact hasUnsignedBits_pack (unsigned_ofScientific _ _)

/-- The value of a numeral is finite without a sign, or infinite. -/
theorem ofDigits_cases (whole fraction : List Char) :
    IsMagnitude (ofDigits whole fraction) ∨
      Binary64.ofFloat (ofDigits whole fraction) = .infinite false :=
  ofBits_cases (hasUnsignedBits_ofScientific _ _)

end Lox.Number
