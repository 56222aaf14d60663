/-
  Scalars: the numbers that programs, tableaus and search trees are written over.

  * `Scalar F`: arithmetic, comparison and rounding to whole numbers.  The solver and the search
    are written once over any `Scalar`, so the definitions that run on doubles are the ones that
    are read over exact rationals.
  * `Extended F`: a scalar with the two infinities and a value that is no number.
  * `Scalar.max`, `Scalar.min`: the larger and the smaller of two values, where a value that is
    no number loses against every other.
  * `Scalar.sum`: the sum from left to right, started at negative zero.
-/

namespace Milp

/-- Ordered arithmetic.  `order` is a total order, `toRat?` the exact value of a finite scalar. -/
class Scalar (F : Type) extends Add F, Sub F, Mul F, Div F, Neg F, LT F, LE F, BEq F where
  /-- The decimal `m · 10^e`, or `m · 10^-e` if the flag is set. -/
  ofDecimal : Nat → Bool → Nat → F
  decidableLT : DecidableLT F
  decidableLE : DecidableLE F
  abs : F → F
  /-- The nearest whole number below. -/
  floor : F → F
  /-- The nearest whole number above. -/
  ceil : F → F
  /-- The nearest whole number, a half going away from zero. -/
  round : F → F
  isFinite : F → Bool
  isNaN : F → Bool
  order : F → F → Ordering
  toRat? : F → Option Rat

/-- A scalar with infinities and a value that is no number. -/
class Extended (F : Type) extends Scalar F where
  infinity : F
  nan : F

instance decidableLessThan {F : Type} [Scalar F] : DecidableLT F := Scalar.decidableLT

instance decidableAtMost {F : Type} [Scalar F] : DecidableLE F := Scalar.decidableLE

instance (priority := low) decimalLiteral {F : Type} [Scalar F] : OfScientific F :=
  ⟨Scalar.ofDecimal⟩

instance (priority := low) naturalLiteral {F : Type} [Scalar F] (n : Nat) : OfNat F n :=
  ⟨Scalar.ofDecimal n false 0⟩

namespace Scalar

variable {F : Type} [Scalar F]

/-- A whole number as a scalar. -/
def ofNat (n : Nat) : F := ofDecimal n false 0

/-- One of the two infinities. -/
def isInfinite (a : F) : Bool := !isFinite a && !isNaN a

/-- The larger of two values; of two equal ones the first. -/
def max (a b : F) : F :=
  if isNaN a then b else if isNaN b then a else if a < b then b else a

/-- The smaller of two values; of two equal ones the first. -/
def min (a b : F) : F :=
  if isNaN a then b else if isNaN b then a else if b < a then b else a

/-- The sum from left to right.  It starts at negative zero, which is neutral for every value,
    so the sum of one value is that value. -/
def sum (xs : List F) : F := xs.foldl (· + ·) (-0)

/-- The inner product of two vectors, as far as the shorter one goes. -/
def dot (xs ys : List F) : F := sum (List.zipWith (· * ·) xs ys)

/-- Negative zero becomes zero, every other value stays. -/
def positiveZero (a : F) : F := if a == 0 then 0 else a

/-- The distance to the nearest whole number. -/
def fractionality (a : F) : F := abs (a - round a)

end Scalar

end Milp
