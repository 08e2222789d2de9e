import LeftDeep.Decimal.Layout

/-!
# JSON numbers

A JSON number keeps the digits it was written with, so that whether it is a whole number, and
whether it is in range, is decided by whoever reads it as a quantity.

A whole number has neither fraction nor exponent. As a double, a number is made of the leading
digits that fit into 64 bits, rounded once, and then multiplied or divided by a power of ten, in
at most two steps; the digits after those are dropped. A number that reaches infinity this way is
out of range.

## Main definitions

* `Number.parse?` and `Number.chars`: the written form.
* `Number.toUInt64?` and `Number.toFloat?`: the quantities a number may denote.
* `Number.ofUInt64` and `Number.ofFloat?`: the number a quantity is written as.
-/

namespace LeftDeep.Json

/-- A number as written. -/
structure Number where
  negative : Bool
  /-- The digits before the point: `0`, or no leading zero. -/
  whole : List Digit
  /-- The digits after the point, at least one if there is a point. -/
  fraction : Option (List Digit)
  exponent : Option Int
  deriving DecidableEq, Repr

namespace Number

/-! ## Written form -/

/-- A non-empty run of digits, and what follows it. -/
def digits? (cs : List Char) : Option (List Digit × List Char) :=
  match Digit.span cs with
  | ([], _) => none
  | (d :: ds, rest) => some (d :: ds, rest)

/-- Leading zeros are refused: zero is the one digit `0`. -/
def noLeadingZero : List Digit → Bool
  | d :: _ :: _ => d.val != 0
  | _ => true

/-- The fraction a text begins with, if it begins with a point. -/
def fraction? : List Char → Option (Option (List Digit) × List Char)
  | '.' :: cs => (digits? cs).map fun (ds, rest) => (some ds, rest)
  | cs => some (none, cs)

/-- The digits of an exponent after its sign. -/
def signedExponent? : List Char → Option (Int × List Char)
  | '+' :: cs => (digits? cs).map fun (ds, rest) => ((Digit.value ds : Int), rest)
  | '-' :: cs => (digits? cs).map fun (ds, rest) => (-(Digit.value ds : Int), rest)
  | cs => (digits? cs).map fun (ds, rest) => ((Digit.value ds : Int), rest)

/-- The exponent a text begins with, if it begins with the letter. -/
def exponent? : List Char → Option (Option Int × List Char)
  | 'e' :: cs => (signedExponent? cs).map fun (e, rest) => (some e, rest)
  | 'E' :: cs => (signedExponent? cs).map fun (e, rest) => (some e, rest)
  | cs => some (none, cs)

/-- The number after its sign. -/
def unsigned? (negative : Bool) (cs : List Char) : Option Number := do
  let (whole, cs) ← digits? cs
  let (fraction, cs) ← fraction? cs
  let (exponent, cs) ← exponent? cs
  if noLeadingZero whole && cs.isEmpty then some { negative, whole, fraction, exponent }
  else none

/-- Reads a text that is a number and nothing else. -/
def parse? : List Char → Option Number
  | '-' :: cs => unsigned? true cs
  | cs => unsigned? false cs

/-- The characters of an exponent; its sign is always written. -/
def exponentChars (e : Int) : List Char :=
  'e' :: (if e < 0 then '-' else '+') :: Digit.toChars (Digit.ofNat e.natAbs)

/-- The written form. -/
def chars (n : Number) : List Char :=
  signChars n.negative ++ Digit.toChars n.whole
    ++ (n.fraction.map fun ds => '.' :: Digit.toChars ds).getD []
    ++ (n.exponent.map exponentChars).getD []

/-! ## Quantities -/

/-- Whether the number has neither fraction nor exponent. -/
def isWhole (n : Number) : Bool := n.fraction.isNone && n.exponent.isNone

/-- The number as an unsigned 64-bit quantity. Negative zero is none. -/
def toUInt64? (n : Number) : Option UInt64 :=
  let v := Digit.value n.whole
  if n.isWhole && !n.negative && v < UInt64.size then some v.toUInt64 else none

/-- Continues a significand with the digits that fit into 64 bits. Returns it with the number of
digits taken; from the first digit that does not fit, all are dropped. -/
def absorb (significand : Nat) : List Digit → Nat × Nat
  | [] => (significand, 0)
  | d :: ds =>
    let longer := 10 * significand + d.val
    if longer < UInt64.size then
      let (s, taken) := absorb longer ds
      (s, taken + 1)
    else (significand, 0)

/-- A power of ten within the range of doubles, rounded once. -/
def powerOfTen (n : Nat) : Float := Float.ofScientific 1 false n

/-- Multiplies by `10 ^ exponent`, if that stays finite. Dividing by a power of ten past the
largest one takes two steps, and past the second always gives zero. -/
def scale? (x : Float) (exponent : Int) : Option Float :=
  if 0 ≤ exponent then
    if exponent ≤ 308 then
      let y := x * powerOfTen exponent.toNat
      if y.isInf then none else some y
    else if x == 0 then some x
    else none
  else if -308 ≤ exponent then some (x / powerOfTen (-exponent).toNat)
  else if -616 ≤ exponent then some (x / powerOfTen 308 / powerOfTen (-exponent - 308).toNat)
  else some 0

/-- The number as a double, if it is in range. -/
def toFloat? (n : Number) : Option Float :=
  let (head, taken) := absorb 0 n.whole
  let (significand, places) := absorb head (n.fraction.getD [])
  let exponent := (n.whole.length - taken : Int) - places + n.exponent.getD 0
  (scale? significand.toUInt64.toFloat exponent).map fun x => if n.negative then -x else x

/-- The number an unsigned quantity is written as. -/
def ofUInt64 (n : UInt64) : Number :=
  { negative := false, whole := Digit.ofNat n.toNat, fraction := none, exponent := none }

/-- Whether a leading digit of this decimal exponent is written without an exponent part. -/
def isPlainExponent (e : Int) : Bool := -5 ≤ e && e ≤ 15

/-- The number a double is written as; infinities and NaN are no numbers. There is always a
fraction or an exponent, so a whole double shows as `1.0`. -/
def ofFloat? (x : Float) : Option Number :=
  match Numeral.ofFloat .even x with
  | .nan => none
  | .infinite _ => none
  | .finite negative digits exponent =>
    let leading := digits.length + exponent - 1
    if isPlainExponent leading then
      let p := Positional.place digits exponent
      some { negative, whole := p.whole
             fraction := some (if p.fraction.isEmpty then [Digit.zero] else p.fraction)
             exponent := none }
    else
      some { negative, whole := digits.take 1
             fraction := if digits.length ≤ 1 then none else some (digits.drop 1)
             exponent := some leading }

end Number
end LeftDeep.Json
