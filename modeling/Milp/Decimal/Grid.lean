/-
  Decimal grids: the multiples of a power of ten around a positive fraction.

  * `Fraction`: a positive fraction of natural numbers.
  * `Fraction.leading`: the exponent of its first significant decimal digit.
  * `Fraction.nearest`: the nearest multiple of `10^e`, a tie going to the even one.
  * `Fraction.below`: the last multiple of `10^e` that is not above.
-/

namespace Milp.Decimal

/-- The value `num / den`, with both parts positive. -/
structure Fraction where
  num : Nat
  den : Nat

namespace Fraction

/-- The fraction divided by `10^e`. -/
def shift (v : Fraction) (e : Int) : Fraction :=
  if 0 ≤ e then ⟨v.num, v.den * Nat.pow 10 e.toNat⟩ else ⟨v.num * Nat.pow 10 (-e).toNat, v.den⟩

/-- The last multiple of `10^e` that is not above the value, as a multiplier. -/
def below (v : Fraction) (e : Int) : Nat :=
  let s := v.shift e
  s.num / s.den

/-- The multiple of `10^e` nearest to the value, as a multiplier.  A tie goes to the even one. -/
def nearest (v : Fraction) (e : Int) : Nat :=
  let s := v.shift e
  let q := s.num / s.den
  let rest := s.num % s.den
  if s.den < 2 * rest || (s.den = 2 * rest && q % 2 = 1) then q + 1 else q

/-- The exponent of the first significant digit: the largest `e` with `10^e ≤ num / den`.  The
    numbers of digits of the two parts leave only two exponents to choose from. -/
def leading (v : Fraction) : Int :=
  let guess : Int := (toString v.num).length - (toString v.den).length
  if v.below guess = 0 then guess - 1 else guess

end Fraction

/-- A positive decimal `digits · 10^exponent`. -/
structure Number where
  digits : Nat
  exponent : Int

/-- Drop trailing zeros of the digits, at most `k` of them. -/
def Number.trim : Nat → Number → Number
  | 0, d => d
  | k + 1, d =>
    if d.digits % 10 = 0 && d.digits != 0 then trim k ⟨d.digits / 10, d.exponent + 1⟩ else d

end Milp.Decimal
