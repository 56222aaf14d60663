/-
  Doubles as scalars.

  A finite double is `± mantissa · 2^exponent`; rounding to a whole number and the exact value are
  computed from these parts, in natural numbers, so that both can be evaluated and reasoned about.

  * `Double.parts`: the sign, mantissa and exponent of a finite double.
  * `Double.order`: the total order that puts `-0` before `0`, the infinities outside the finite
    values and values that are no number outside the infinities.
-/
import Milp.Scalar.Basic

namespace Milp

namespace Double

/-- The value `± mantissa · 2^exponent`. -/
structure Parts where
  negative : Bool
  mantissa : Nat
  exponent : Int

/-- The bit of the mantissa that is not stored: the highest one of a normal double. -/
def hidden : Nat := Nat.pow 2 52

/-- The bit of the sign. -/
def signBit : Nat := Nat.pow 2 63

/-- The parts of a finite double.  The mantissa of a normal double has its highest bit at 52. -/
def parts (x : Float) : Parts :=
  let bits : Nat := x.toBits.toNat
  let biased : Nat := bits / hidden % Nat.pow 2 11
  let fraction : Nat := bits % hidden
  let negative := decide (signBit ≤ bits)
  if biased = 0 then ⟨negative, fraction, -1074⟩
  else ⟨negative, hidden + fraction, (biased : Int) - 1075⟩

/-- The exact value of the parts. -/
def Parts.toRat (p : Parts) : Rat :=
  let m : Int := if p.negative then -(p.mantissa : Int) else p.mantissa
  if 0 ≤ p.exponent then mkRat (m * Nat.pow 2 p.exponent.toNat) 1
  else mkRat m (Nat.pow 2 (-p.exponent).toNat)

/-- The exact value of a finite double. -/
def toRat? (x : Float) : Option Rat :=
  if x.isFinite then some (parts x).toRat else none

/-- Round to a whole number.  `up negative rest unit` tells whether a magnitude that exceeds a whole
    number by `rest / unit` goes to the next one.  The sign stays, also that of a zero. -/
def toWhole (up : Bool → Nat → Nat → Bool) (x : Float) : Float :=
  let p := parts x
  if !x.isFinite || 0 ≤ p.exponent then x
  else
    let unit := Nat.pow 2 (-p.exponent).toNat
    let whole := p.mantissa / unit
    let rest := p.mantissa % unit
    let n := if up p.negative rest unit then whole + 1 else whole
    if p.negative then -(Float.ofNat n) else Float.ofNat n

def floor : Float → Float := toWhole fun negative rest _ => negative && rest != 0

def ceil : Float → Float := toWhole fun negative rest _ => !negative && rest != 0

def round : Float → Float := toWhole fun _ rest unit => unit ≤ 2 * rest

/-- The place of a double in the total order. -/
def rank (x : Float) : Int :=
  let bits : Nat := x.toBits.toNat
  if bits < signBit then bits else (signBit : Int) - 1 - (bits : Int)

/-- Compare by place in the total order. -/
def order (x y : Float) : Ordering := compare (rank x) (rank y)

end Double

instance doubleScalar : Scalar Float where
  ofDecimal := Float.ofScientific
  decidableLT := inferInstance
  decidableLE := inferInstance
  abs := Float.abs
  floor := Double.floor
  ceil := Double.ceil
  round := Double.round
  isFinite := Float.isFinite
  isNaN := Float.isNaN
  order := Double.order
  toRat? := Double.toRat?

instance doubleExtended : Extended Float where
  infinity := 1.0 / 0.0
  nan := 0.0 / 0.0

end Milp
