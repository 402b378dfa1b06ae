/-!
# Doubles as integers times a power of two

Every text this library writes for a number starts from the sixty-four bits
of the double.  `Binary64.ofFloat` sorts the bits into not-a-number, the two
infinities and finite values `± mantissa · 2 ^ exponent`, so that all later
work is exact arithmetic on natural numbers.
-/

namespace Lox

/-- A double by its meaning: no number, an infinity, or a signed integer
times a power of two. -/
inductive Binary64 where
  | nan
  | infinite (negative : Bool)
  | finite (negative : Bool) (mantissa : Nat) (exponent : Int)
  deriving Repr, DecidableEq

namespace Binary64

/-- Reads the sign bit, the eleven exponent bits and the fifty-two fraction
bits.  A zero exponent field means a subnormal: no leading one, and the
exponent of the smallest normal. -/
def ofBits (bits : UInt64) : Binary64 :=
  let word := bits.toNat
  let negative := word / Nat.pow 2 63 == 1
  let field : Nat := word / Nat.pow 2 52 % Nat.pow 2 11
  let fraction := word % Nat.pow 2 52
  if field == 2047 then
    if fraction == 0 then .infinite negative else .nan
  else if field == 0 then .finite negative fraction (-1074)
  else .finite negative (Nat.pow 2 52 + fraction) ((field : Int) - 1075)

/-- The meaning of a double. -/
def ofFloat (value : Float) : Binary64 :=
  ofBits value.toBits

/-- Numerator and denominator of `mantissa · 2 ^ exponent`. -/
def ratio (mantissa : Nat) : Int → Nat × Nat
  | .ofNat up => (mantissa * Nat.pow 2 up, 1)
  | .negSucc down => (mantissa, Nat.pow 2 (down + 1))

/-- The value `mantissa · 2 ^ exponent` when it is a whole number. -/
def whole? (mantissa : Nat) (exponent : Int) : Option Nat :=
  let (numerator, denominator) := ratio mantissa exponent
  if numerator % denominator == 0 then some (numerator / denominator)
  else none

end Binary64

end Lox
