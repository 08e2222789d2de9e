import LeftDeep.Decimal.Digits

/-!
# The fewest digits that read back

A finite double is the only double in an interval of reals around it: every real of the interval
rounds to it. Of the decimals in that interval the ones with the fewest digits are looked for,
and of those the one nearest to the double. The work is in exact integers.

The decimals with last place `10 ^ t` form a grid, on which only the two neighbours of the double
matter. Grids are tried from coarse to fine, and the first with a neighbour inside the interval
gives the digits.

## Main definitions

* `Magnitude`: a positive double as `mantissa * 2 ^ exponent`.
* `Magnitude.neighbour?`: the nearer grid neighbour inside the interval.
* `Numeral`: a double as a text shows it, and `Numeral.ofFloat`.
-/

namespace LeftDeep

/-- Which of two equally near decimals is taken. -/
inductive Tie where
  /-- The larger one. -/
  | up
  /-- The one with an even last digit. -/
  | even
  deriving DecidableEq, Repr

/-- A positive double, `mantissa * 2 ^ exponent`. -/
structure Magnitude where
  mantissa : Nat
  exponent : Int
  /-- Whether the next smaller double is only half as far away as the next larger one, as it is
  for powers of two. -/
  narrowBelow : Bool
  deriving DecidableEq, Repr

namespace Magnitude

/-- The magnitude of a finite double with the given bits. The sign bit is ignored. -/
def ofBits (bits : UInt64) : Magnitude :=
  let fraction := (bits &&& 0xFFFFFFFFFFFFF).toNat
  let biased := ((bits >>> 52) &&& 0x7FF).toNat
  if biased = 0 then { mantissa := fraction, exponent := -1074, narrowBelow := false }
  else
    { mantissa := 0x10000000000000 + fraction
      exponent := (biased : Int) - 1075
      narrowBelow := fraction = 0 && biased > 1 }

/-- A quarter of the magnitude's unit in the last place, in the scale of the grid `t`. -/
def quarter (m : Magnitude) (t : Int) : Nat := Nat.pow 2 m.exponent.toNat * Nat.pow 10 (-t).toNat

/-- One step of the grid `t`, in the same scale as `quarter`. -/
def step (m : Magnitude) (t : Int) : Nat :=
  4 * Nat.pow 2 (-m.exponent).toNat * Nat.pow 10 t.toNat

/-- Whether `d * 10 ^ t` rounds to the magnitude. The ends of the interval belong to it when the
mantissa is even, since ties between doubles go to the even mantissa. -/
def roundsBack (m : Magnitude) (t : Int) (d : Nat) : Bool :=
  let point := d * m.step t
  let low := (4 * m.mantissa - if m.narrowBelow then 1 else 2) * m.quarter t
  let high := (4 * m.mantissa + 2) * m.quarter t
  if m.mantissa % 2 = 0 then low ≤ point && point ≤ high else low < point && point < high

/-- Whether the grid point after `below` is taken rather than `below`, both being candidates. -/
def takesUpper (tie : Tie) (m : Magnitude) (t : Int) (below : Nat) : Bool :=
  let doubled := 8 * m.mantissa * m.quarter t
  let middle := (2 * below + 1) * m.step t
  if doubled = middle then tie = .up || below % 2 = 1 else middle < doubled

/-- The point of the grid `t` that rounds to the magnitude, the nearer one if there are two. -/
def neighbour? (tie : Tie) (m : Magnitude) (t : Int) : Option Nat :=
  let below := 4 * m.mantissa * m.quarter t / m.step t
  match m.roundsBack t below, m.roundsBack t (below + 1) with
  | false, false => none
  | true, false => some below
  | false, true => some (below + 1)
  | true, true => some (if m.takesUpper tie t below then below + 1 else below)

/-- The first grid with a point that rounds to the magnitude, from the grid `t` to finer ones. -/
def search (tie : Tie) (m : Magnitude) : Nat → Int → Nat × Int
  | 0, t => (0, t)
  | grids + 1, t =>
    match m.neighbour? tie t with
    | some d => (d, t)
    | none => search tie m grids (t - 1)

/-- A grid on which the magnitude lies below the first point: a power of ten above it, since
`0.30103` is just above the logarithm of two. -/
def coarsest (m : Magnitude) : Int :=
  (m.mantissa.log2 + m.exponent + 1) * 30103 / 100000 + 2

/-- The shortest decimal `d * 10 ^ t` that rounds to the magnitude, as `(d, t)`. Seventeen digits
always suffice, so the search ends within the grids it is given. -/
def shortest (tie : Tie) (m : Magnitude) : Nat × Int := m.search tie 24 m.coarsest

end Magnitude

/-- A double as a text shows it. -/
inductive Numeral where
  | nan
  | infinite (negative : Bool)
  /-- The digits, read as a whole number, times `10 ^ exponent`. -/
  | finite (negative : Bool) (digits : List Digit) (exponent : Int)
  deriving DecidableEq, Repr

namespace Numeral

/-- The shortest numeral of a double; zeros keep their sign. -/
def ofFloat (tie : Tie) (x : Float) : Numeral :=
  let bits := x.toBits
  let negative := bits >>> 63 != 0
  if x.isNaN then .nan
  else if x.isInf then .infinite negative
  else if x == 0 then .finite negative [Digit.zero] 0
  else
    let (d, t) := (Magnitude.ofBits bits).shortest tie
    .finite negative (Digit.ofNat d) t

end Numeral
end LeftDeep
