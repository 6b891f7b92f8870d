import Bytecode.FloatingPoint

/-!
# The shortest decimal

A finite double is written with the fewest digits that still read back as the same double, and among
those with the digits nearest to it.  The search compares integers only: the double and the two ends
of the interval that rounds to it are first brought to one power of ten.
-/

namespace Bytecode

/-- The number `coefficient * 10 ^ exponent`. -/
structure Decimal where
  coefficient : Nat
  exponent : Int
deriving DecidableEq, Repr

namespace Decimal

/-- The numbers that round to `value`: those between `lower` and `upper`, the ends included if
`closed`.  All three are counted in units of `10 ^ exponent`. -/
structure Interval where
  lower : Nat
  value : Nat
  upper : Nat
  closed : Bool
  exponent : Int
deriving DecidableEq, Repr

namespace Interval

/-- Whether a number, in the unit of the interval, rounds to its value. -/
def holds (i : Interval) (n : Nat) : Bool :=
  if i.closed then i.lower ≤ n && n ≤ i.upper else i.lower < n && n < i.upper

/-- The interval of `significand * 2 ^ exponent`, whose significand has the full width of the format
unless the exponent is the least one.  The ends lie halfway to the neighbouring numbers; below a
power of two the neighbour is twice as near.  An end rounds to the number whose significand is
even. -/
def ofFinite (f : FloatFormat) (significand : Nat) (exponent : Int) : Interval :=
  let narrow := significand = Nat.pow 2 f.fraction ∧ exponent ≠ f.leastExponent
  let quarters := exponent - 2
  let scale := if 0 ≤ quarters then Nat.pow 2 quarters.toNat else Nat.pow 5 (-quarters).toNat
  { lower := (4 * significand - if narrow then 1 else 2) * scale
    value := 4 * significand * scale
    upper := (4 * significand + 2) * scale
    closed := significand % 2 == 0
    exponent := min quarters 0 }

/-- The number of decimal digits of the value. -/
def width (i : Interval) : Nat := (Nat.toDigits 10 i.value).length

/-- The nearest number of the interval with at most `places` significant digits, if there is one.  Of two
that are equally near it is the one with the even last digit. -/
def roundTo? (i : Interval) (places : Nat) : Option Decimal :=
  let dropped := i.width - places
  let grid := Nat.pow 10 dropped
  let below := i.value / grid
  let above := below + 1
  let pick (n : Nat) : Option Decimal := some ⟨n, i.exponent + dropped⟩
  match i.holds (below * grid), i.holds (above * grid) with
  | true, true =>
    let down := i.value - below * grid
    let up := above * grid - i.value
    if down < up then pick below
    else if up < down then pick above
    else if below % 2 = 0 then pick below
    else pick above
  | true, false => pick below
  | false, true => pick above
  | false, false => none

/-- The first of the roundings to one place, two places and so on that lies in the interval. -/
def shortest (i : Interval) : Decimal :=
  ((List.range i.width).findSome? fun n ↦ i.roundTo? (n + 1)).getD ⟨i.value, i.exponent⟩

end Interval

/-- Takes zeros off the end of the coefficient; `fuel` bounds how many. -/
def stripZeros : Nat → Decimal → Decimal
  | 0, d => d
  | fuel + 1, d =>
    if d.coefficient ≠ 0 ∧ d.coefficient % 10 = 0 then
      stripZeros fuel ⟨d.coefficient / 10, d.exponent + 1⟩
    else d

/-- The same number with no zero at the end of the coefficient. -/
def strip (d : Decimal) : Decimal := stripZeros (Nat.toDigits 10 d.coefficient).length d

/-- The shortest decimal that reads back as `significand * 2 ^ exponent` in a format. -/
def ofFinite (f : FloatFormat) (significand : Nat) (exponent : Int) : Decimal :=
  let (significand, exponent) := f.normalize significand exponent
  (Interval.ofFinite f significand exponent).shortest.strip

end Decimal

end Bytecode
