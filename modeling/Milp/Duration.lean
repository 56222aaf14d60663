/-
  Durations in whole nanoseconds.

  * `Duration.ofSeconds?`: seconds rounded to the nearest nanosecond, a tie going to the even one.
    Negative values, values that are not finite, and 2^64 seconds or more are no duration.
-/
import Milp.Decimal.Grid
import Milp.Scalar.Basic

namespace Milp

variable {F : Type}

/-- A number of nanoseconds. -/
structure Duration where
  nanoseconds : Nat
  deriving DecidableEq, Repr

namespace Duration

/-- Nanoseconds in a second. -/
def perSecond : Nat := 1000000000

/-- The duration of so many seconds and nanoseconds. -/
def ofParts (secs nanos : Nat) : Duration := ⟨secs * perSecond + nanos⟩

/-- The whole seconds. -/
def secs (d : Duration) : Nat := d.nanoseconds / perSecond

/-- The nanoseconds beyond the whole seconds. -/
def nanos (d : Duration) : Nat := d.nanoseconds % perSecond

def ofMillis (ms : Nat) : Duration := ⟨ms * 1000000⟩

/-- A number of seconds as a duration. -/
def ofSeconds? [Scalar F] (seconds : F) : Option Duration :=
  match Scalar.toRat? seconds with
  | none => none
  | some q =>
    if q < 0 || (UInt64.size : Rat) ≤ q then none
    else some ⟨Decimal.Fraction.nearest ⟨q.num.toNat * perSecond, q.den⟩ 0⟩

/-- The duration in seconds. -/
def toSeconds [Scalar F] (d : Duration) : F :=
  Scalar.ofNat d.secs + Scalar.ofNat d.nanos / Scalar.ofNat perSecond

end Duration

end Milp
