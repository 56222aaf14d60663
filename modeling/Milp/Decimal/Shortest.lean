/-
  The shortest decimal of a double: the fewest digits that read back as the same double, and of
  these the decimal nearest to it.

  A decimal reads back as `m · 2^e` if it lies between the midpoints to the two neighbouring
  doubles; the midpoints themselves belong to the double with the even mantissa.

  * `Interval.around`: the two midpoints.
  * `shortest`: the first grid of one, two, … seventeen digits that meets the interval decides the
    number of digits; of two candidates the nearer wins, and a tie goes up.
-/
import Milp.Scalar.Double
import Milp.Decimal.Grid

namespace Milp.Decimal

open Double (Parts)

/-- The decimals that read back as one double. -/
structure Interval where
  low : Fraction
  value : Fraction
  high : Fraction
  closed : Bool

/-- The fraction `n · 2^e`. -/
def binary (n : Nat) (e : Int) : Fraction :=
  if 0 ≤ e then ⟨n * Nat.pow 2 e.toNat, 1⟩ else ⟨n, Nat.pow 2 (-e).toNat⟩

/-- The midpoints to the neighbours.  Below a power of two doubles are twice as dense. -/
def Interval.around (p : Parts) : Interval :=
  let quarters := 4 * p.mantissa
  let narrow := p.mantissa = Double.hidden && -1074 < p.exponent
  { low := binary (if narrow then quarters - 1 else quarters - 2) (p.exponent - 2)
    value := binary quarters (p.exponent - 2)
    high := binary (quarters + 2) (p.exponent - 2)
    closed := p.mantissa % 2 = 0 }

/-- Does the decimal read back as the double? -/
def Interval.mem (i : Interval) (d : Number) : Bool :=
  let low := i.low.shift d.exponent
  let high := i.high.shift d.exponent
  if i.closed then low.num ≤ d.digits * low.den && d.digits * high.den ≤ high.num
  else low.num < d.digits * low.den && d.digits * high.den < high.num

/-- The candidate of the interval on the grid of `10^e`, if there is one. -/
def Interval.onGrid (i : Interval) (e : Int) : Option Number :=
  let v := i.value.shift e
  let q := v.num / v.den
  let lower : Number := ⟨q, e⟩
  let upper : Number := ⟨q + 1, e⟩
  let lowerIn := i.mem lower && q != 0
  if lowerIn && i.mem upper then
    if 2 * (v.num % v.den) < v.den then some lower else some upper
  else if lowerIn then some lower
  else if i.mem upper then some upper
  else none

/-- The shortest decimal of a positive double. -/
def shortest (p : Parts) : Number :=
  let i := Interval.around p
  let leading := i.value.leading
  let found := (List.range 17).findSome? fun (k : Nat) => i.onGrid (leading - (k : Int))
  (found.getD ⟨i.value.nearest (leading - 16), leading - 16⟩).trim 17

end Milp.Decimal
