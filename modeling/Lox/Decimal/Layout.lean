import Lox.Decimal.Shortest

/-!
# Writing decimals out

Two layouts of the digits of a decimal: `Decimal.positional` writes them
around a decimal point, padded with zeros where the point lies outside them;
`Decimal.scientific` writes one digit, the point, the others and a power of
ten.  Which of the two a text uses is decided where that text is defined.
-/

namespace Lox.Decimal

/-- `count` zeros. -/
def zeros (count : Nat) : List Char :=
  List.replicate count '0'

/-- Plain notation: `1200`, `12.5` or `0.00125`. -/
def positional (d : Decimal) : String :=
  let size := d.digits.length
  match d.point with
  | .ofNat 0 => String.ofList ('0' :: '.' :: d.digits)
  | .ofNat before =>
    if size ≤ before then
      String.ofList (d.digits ++ zeros (before - size))
    else
      String.ofList (d.digits.take before ++ '.' :: d.digits.drop before)
  | .negSucc missing =>
    String.ofList ('0' :: '.' :: zeros (missing + 1) ++ d.digits)

/-- The digits with a point after the first, or the one digit alone. -/
def significand (d : Decimal) : String :=
  match d.digits with
  | [] => ""
  | [digit] => String.ofList [digit]
  | digit :: rest => String.ofList (digit :: '.' :: rest)

/-- The power of ten that goes with `significand`. -/
def power (d : Decimal) : Int :=
  d.point - 1

/-- Exponent notation: `1.25e+21` or `5e-7`.  The power always has a sign. -/
def scientific (d : Decimal) : String :=
  match d.power with
  | .ofNat power => s!"{d.significand}e+{power}"
  | .negSucc power => s!"{d.significand}e-{power + 1}"

end Lox.Decimal
