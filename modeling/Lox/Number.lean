import Lox.Decimal.Layout

/-!
# How numbers are written

The same double is written in four places, and each has its own rules:

* `Number.display` is what `print` writes;
* `Number.tokenText` is the literal of a number token;
* `Number.treeText` is a literal in the printed form of an expression;
* `Number.jsonText` is a number inside a JSON document.

All four take their digits from `Decimal.shortest` or, for whole numbers,
from the exact value.  Where two shortest decimals are equally near, JSON takes
the even one and the others take the larger.
-/

namespace Lox.Number

/-- A minus sign for negative values. -/
def sign (negative : Bool) : String :=
  if negative then "-" else ""

/-- The shortest digits in plain notation, however long that gets.  Zero is
`0` with its sign. -/
def plain (negative : Bool) (mantissa : Nat) (exponent : Int) : String :=
  if mantissa == 0 then sign negative ++ "0"
  else sign negative ++ (Decimal.shortest .up mantissa exponent).positional

/-- What `print` writes.  Zero loses its sign.  Between `10 ^ -6` and
`10 ^ 21` a whole number is written exactly and any other number with its
shortest digits in plain notation; outside that range the shortest digits go
with a signed power of ten. -/
def display (value : Float) : String :=
  match Binary64.ofFloat value with
  | .nan => "NaN"
  | .infinite negative => sign negative ++ "Infinity"
  | .finite negative mantissa exponent =>
    if mantissa == 0 then "0"
    else
      let shortest := Decimal.shortest .up mantissa exponent
      if shortest.point ≤ -6 || 21 < shortest.point then
        sign negative ++ shortest.scientific
      else match Binary64.whole? mantissa exponent with
        | some whole => sign negative ++ toString whole
        | none => sign negative ++ shortest.positional

/-- The literal of a number token.  A whole number below `2 ^ 63` is written
exactly with `.0` after it and zero has no sign; all other numbers are
written with their shortest digits in plain notation. -/
def tokenText (value : Float) : String :=
  match Binary64.ofFloat value with
  | .nan => "NaN"
  | .infinite negative => sign negative ++ "inf"
  | .finite negative mantissa exponent =>
    match Binary64.whole? mantissa exponent with
    | none => plain negative mantissa exponent
    | some whole =>
      if whole < Nat.pow 2 63 then
        sign (negative && whole != 0) ++ toString whole ++ ".0"
      else plain negative mantissa exponent

/-- A number in the printed form of an expression.  Every whole number is
written exactly with its sign and `.0`; all other numbers are written with
their shortest digits in plain notation. -/
def treeText (value : Float) : String :=
  match Binary64.ofFloat value with
  | .nan => "NaN"
  | .infinite negative => sign negative ++ "inf"
  | .finite negative mantissa exponent =>
    match Binary64.whole? mantissa exponent with
    | none => plain negative mantissa exponent
    | some whole => sign negative ++ toString whole ++ ".0"

/-- A number in a JSON document, or `null` when it is not finite.  From
`10 ^ -5` up to but not including `10 ^ 16` the shortest digits are written in
plain notation, with `.0` after a whole number; outside that range they go
with a signed power of ten. -/
def jsonText (value : Float) : String :=
  match Binary64.ofFloat value with
  | .nan => "null"
  | .infinite _ => "null"
  | .finite negative mantissa exponent =>
    if mantissa == 0 then sign negative ++ "0.0"
    else
      let shortest := Decimal.shortest .even mantissa exponent
      let point := shortest.point
      if 0 ≤ shortest.exponent && point ≤ 16 then
        sign negative ++ shortest.positional ++ ".0"
      else if -5 < point && point ≤ 16 then
        sign negative ++ shortest.positional
      else sign negative ++ shortest.scientific

/-- The value of a decimal numeral: the digits before the point and the
digits after it.  The result is the double nearest to the exact value. -/
def ofDigits (whole fraction : List Char) : Float :=
  let coefficient := (whole ++ fraction).foldl
    (fun total digit => 10 * total + (digit.toNat - '0'.toNat)) 0
  Float.ofScientific coefficient true fraction.length

end Lox.Number
