import Lox.Decimal.Binary64

/-!
# The shortest decimal that reads back

A double stands for every real number that rounds to it: the interval that
reaches half way to its two neighbours, with its ends exactly when the
mantissa is even.  `Decimal.shortest` gives the decimal with the fewest
digits inside that interval.  Among decimals of that length it takes the one
nearest to the double; which of two equally near ones is the choice of the
caller.

The search goes through grids of one, two, … seventeen significant digits.
On each grid only the two points around the double can be the nearest point
inside the interval, so only those two are tested.
-/

namespace Lox

/-- A nonnegative decimal: `coefficient · 10 ^ exponent`. -/
structure Decimal where
  coefficient : Nat
  exponent : Int
  deriving Repr, DecidableEq

/-- Which of two equally near decimals of one length is taken: the larger, or
the one whose last digit is even. -/
inductive Tie where
  | up
  | even
  deriving Repr, DecidableEq

namespace Decimal

/-- How many decimal digits `n` has; zero has one. -/
def digitCount (n : Nat) : Nat :=
  (Nat.toDigits 10 n).length

/-- The digits of the coefficient, most significant first. -/
def digits (d : Decimal) : List Char :=
  Nat.toDigits 10 d.coefficient

/-- Where the decimal point stands: the value is `0.d₁d₂… · 10 ^ point`. -/
def point (d : Decimal) : Int :=
  digitCount d.coefficient + d.exponent

/-- Drops up to `count` zeros from the end of a coefficient. -/
def dropZeros : Nat → Nat → Int → Decimal
  | 0, coefficient, exponent => ⟨coefficient, exponent⟩
  | count + 1, coefficient, exponent =>
    if coefficient != 0 && coefficient % 10 == 0 then
      dropZeros count (coefficient / 10) (exponent + 1)
    else ⟨coefficient, exponent⟩

/-- The `point` of the positive fraction `numerator / denominator`: the `k`
with `10 ^ (k - 1) ≤ numerator / denominator < 10 ^ k`. -/
def pointOf (numerator denominator : Nat) : Int :=
  if denominator ≤ numerator then digitCount (numerator / denominator)
  else
    let places := digitCount (denominator / numerator)
    if denominator ≤ numerator * Nat.pow 10 (places - 1) then 2 - places
    else 1 - places

/-- The reals that round to one double, as fractions over one denominator:
the double itself and the two ends. -/
structure Interval where
  value : Nat
  low : Nat
  high : Nat
  denominator : Nat
  closed : Bool

/-- The interval around `mantissa · 2 ^ exponent`.  Below a power of two the
doubles lie twice as dense, so the lower end is only a quarter away there,
unless the neighbour below is subnormal. -/
def interval (mantissa : Nat) (exponent : Int) : Interval :=
  let lower := if mantissa == Nat.pow 2 52 && exponent != -1074 then 1 else 2
  let (unit, denominator) := Binary64.ratio 1 (exponent - 2)
  { value := 4 * mantissa * unit
    low := (4 * mantissa - lower) * unit
    high := (4 * mantissa + 2) * unit
    denominator := denominator
    closed := mantissa % 2 == 0 }

/-- Whether `numerator / denominator` over a common denominator lies in the
interval. -/
def Interval.holds (i : Interval) (numerator scale : Nat) : Bool :=
  if i.closed then i.low * scale ≤ numerator && numerator ≤ i.high * scale
  else i.low * scale < numerator && numerator < i.high * scale

/-- Whether the upper of two grid points is taken when both are in the
interval.  The distances of the two points are given, and the coefficient of
the lower one. -/
def takesUpper (tie : Tie) (below toBelow toAbove : Nat) : Bool :=
  toAbove < toBelow || toAbove == toBelow &&
    match tie with
    | .up => true
    | .even => below % 2 == 1

/-- The point of the grid `k · 10 ^ exponent` that the interval holds and
that is nearest to its value, if it holds one. -/
def Interval.nearest? (tie : Tie) (i : Interval) (exponent : Int) :
    Option Decimal :=
  -- Everything is brought over the denominator `i.denominator * down`.
  let (up, down) : Nat × Nat := match exponent with
    | .ofNat places => (Nat.pow 10 places, 1)
    | .negSucc places => (1, Nat.pow 10 (places + 1))
  let step := up * i.denominator
  let target := i.value * down
  let below := target / step
  let above := below + 1
  let upper := takesUpper tie below (target - below * step)
    (above * step - target)
  match i.holds (below * step) down, i.holds (above * step) down with
  | true, true => some ⟨if upper then above else below, exponent⟩
  | true, false => some ⟨below, exponent⟩
  | false, true => some ⟨above, exponent⟩
  | false, false => none

/-- The decimal with the fewest digits that rounds to the positive double
`mantissa · 2 ^ exponent`, the nearest of those, without zeros at its end. -/
def shortest (tie : Tie) (mantissa : Nat) (exponent : Int) : Decimal :=
  let i := interval mantissa exponent
  let top := pointOf i.value i.denominator
  let found := (List.range 17).findSome? fun extra =>
    i.nearest? tie (top - (extra + 1 : Nat))
  let d := found.getD ⟨0, 0⟩
  dropZeros 20 d.coefficient d.exponent

end Decimal

end Lox
