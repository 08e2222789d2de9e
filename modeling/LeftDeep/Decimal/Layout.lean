import LeftDeep.Decimal.Shortest

/-!
# Positional notation

Where the decimal point goes in a numeral, and the text estimates are shown in: the shortest
digits that read back, never with an exponent, and without a point for whole numbers.

## Main definitions

* `Positional`: the digits before and after the decimal point.
* `plainText`: the text of a double in messages and plans.
-/

namespace LeftDeep

/-- The digits before and after a decimal point. -/
structure Positional where
  whole : List Digit
  fraction : List Digit
  deriving DecidableEq, Repr

namespace Positional

/-- Places the point in `digits * 10 ^ exponent`. At least one digit stands before it. -/
def place (digits : List Digit) (exponent : Int) : Positional :=
  if 0 ≤ exponent then { whole := digits ++ List.replicate exponent.toNat Digit.zero, fraction := [] }
  else
    let places := (-exponent).toNat
    let before := digits.length - places
    if 0 < before then { whole := digits.take before, fraction := digits.drop before }
    else { whole := [Digit.zero]
           fraction := List.replicate (places - digits.length) Digit.zero ++ digits }

/-- The characters of positional notation; the point stands only before a fraction. -/
def chars (p : Positional) : List Char :=
  Digit.toChars p.whole ++ if p.fraction.isEmpty then [] else '.' :: Digit.toChars p.fraction

end Positional

/-- The minus sign of a negative numeral. -/
def signChars (negative : Bool) : List Char := if negative then ['-'] else []

namespace Numeral

/-- A numeral written out in full. -/
def plainChars : Numeral → List Char
  | .nan => "NaN".toList
  | .infinite negative => signChars negative ++ "inf".toList
  | .finite negative digits exponent =>
    signChars negative ++ (Positional.place digits exponent).chars

end Numeral

/-- The text of a cost or selectivity. Of two equally near shortest decimals it shows the larger
one. -/
def plainText (x : Float) : String := String.ofList (Numeral.ofFloat .up x).plainChars

end LeftDeep
