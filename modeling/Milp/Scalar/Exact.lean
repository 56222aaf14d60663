/-
  Exact scalars: the rationals, and the rationals with two infinities and a value that is no
  number.

  Reading a definition over `Exact` instead of doubles takes away all round-off and nothing else:
  an infinite bound is still there, and an operation without a result (`∞ - ∞`, `0 · ∞`, `0 / 0`)
  gives `nan`.
-/
import Milp.Scalar.Basic

namespace Milp

namespace Rational

/-- The decimal `m · 10^e`, or `m · 10^-e` if the flag is set. -/
def ofDecimal (m : Nat) (negative : Bool) (e : Nat) : Rat :=
  if negative then mkRat m (Nat.pow 10 e) else mkRat (m * Nat.pow 10 e) 1

/-- The nearest whole number, a half going away from zero. -/
def round (q : Rat) : Int :=
  if 0 ≤ q then (q + mkRat 1 2).floor else -(-q + mkRat 1 2).floor

def order (a b : Rat) : Ordering := if a < b then .lt else if b < a then .gt else .eq

end Rational

instance rationalScalar : Scalar Rat where
  ofDecimal := Rational.ofDecimal
  decidableLT := inferInstance
  decidableLE := inferInstance
  abs q := if 0 ≤ q then q else -q
  floor q := q.floor
  ceil q := q.ceil
  round q := Rational.round q
  isFinite _ := true
  isNaN _ := false
  order := Rational.order
  toRat? := some

/-- A rational, an infinity, or no number. -/
inductive Exact where
  | nan
  | negInf
  | fin (q : Rat)
  | posInf
  deriving DecidableEq, Repr

namespace Exact

/-- The infinity with the sign of a rational; zero has none. -/
def infOf (q : Rat) : Exact := if 0 < q then posInf else if q < 0 then negInf else nan

protected def neg : Exact → Exact
  | nan => nan
  | negInf => posInf
  | fin q => fin (-q)
  | posInf => negInf

protected def add : Exact → Exact → Exact
  | nan, _ | _, nan => nan
  | fin a, fin b => fin (a + b)
  | fin _, b => b
  | a, fin _ => a
  | negInf, negInf => negInf
  | posInf, posInf => posInf
  | negInf, posInf | posInf, negInf => nan

protected def mul : Exact → Exact → Exact
  | nan, _ | _, nan => nan
  | fin a, fin b => fin (a * b)
  | fin a, posInf | posInf, fin a => infOf a
  | fin a, negInf | negInf, fin a => infOf (-a)
  | posInf, posInf | negInf, negInf => posInf
  | posInf, negInf | negInf, posInf => negInf

protected def div : Exact → Exact → Exact
  | nan, _ | _, nan => nan
  | fin a, fin b => if b = 0 then infOf a else fin (a / b)
  | fin _, posInf | fin _, negInf => fin 0
  | posInf, fin b => if b < 0 then negInf else posInf
  | negInf, fin b => if b < 0 then posInf else negInf
  | posInf, posInf | posInf, negInf | negInf, posInf | negInf, negInf => nan

/-- Strictly below.  A value that is no number is below nothing, and nothing is below it. -/
def below : Exact → Exact → Bool
  | nan, _ | _, nan => false
  | fin a, fin b => a < b
  | negInf, negInf => false
  | negInf, _ => true
  | _, negInf => false
  | posInf, _ => false
  | fin _, posInf => true

/-- Numerically equal.  A value that is no number equals nothing. -/
def same : Exact → Exact → Bool
  | nan, _ => false
  | a, b => decide (a = b)

/-- The total order: `-∞`, the rationals, `∞`, and last the value that is no number. -/
def order : Exact → Exact → Ordering
  | fin a, fin b => Rational.order a b
  | a, b => compare (place a) (place b)
where
  place : Exact → Nat
    | negInf => 0
    | fin _ => 1
    | posInf => 2
    | nan => 3

/-- Apply a function to a rational; infinities stay. -/
def map (f : Rat → Rat) : Exact → Exact
  | fin q => fin (f q)
  | a => a

def abs : Exact → Exact
  | negInf => posInf
  | a => a.map fun q => if 0 ≤ q then q else -q

end Exact

instance exactScalar : Extended Exact where
  add := Exact.add
  sub a b := Exact.add a (Exact.neg b)
  mul := Exact.mul
  div := Exact.div
  neg := Exact.neg
  lt a b := Exact.below a b = true
  le a b := (Exact.below a b || Exact.same a b) = true
  beq := Exact.same
  ofDecimal m negative e := .fin (Rational.ofDecimal m negative e)
  decidableLT a b := inferInstanceAs (Decidable (Exact.below a b = true))
  decidableLE a b := inferInstanceAs (Decidable ((Exact.below a b || Exact.same a b) = true))
  abs := Exact.abs
  floor := Exact.map fun q => q.floor
  ceil := Exact.map fun q => q.ceil
  round := Exact.map fun q => Rational.round q
  isFinite
    | .fin _ => true
    | _ => false
  isNaN a := decide (a = .nan)
  order := Exact.order
  toRat?
    | .fin q => some q
    | _ => none
  infinity := .posInf
  nan := .nan

end Milp
