/-
  Written scalars.

  * `Legible F`: the three ways in which messages write a scalar: the shortest decimal that reads
    back, always positional; a fixed number of places; and a fixed number of places with an
    exponent.
  * A negative sign is kept, also that of zero.  The infinities are written `inf` and `-inf`, a
    value that is no number `NaN`.
-/
import Milp.Decimal.Shortest

namespace Milp

/-- Scalars that can be written in messages. -/
class Legible (F : Type) where
  /-- The shortest decimal that reads back, without an exponent. -/
  plain : F → String
  /-- A fixed number of places after the point. -/
  fixed : Nat → F → String
  /-- One digit, a fixed number of places, and an exponent. -/
  scientific : Nat → F → String

namespace Decimal

open Double (Parts)

/-- `n` zeros. -/
def zeros (n : Nat) : String := String.ofList (List.replicate n '0')

/-- The digits of `n` with a point before the last `places` of them. -/
def pointed (n places : Nat) : String :=
  if places = 0 then toString n
  else
    let short := toString n
    let digits := (zeros (places + 1 - short.length) ++ short).toList
    let whole := digits.length - places
    String.ofList (digits.take whole) ++ "." ++ String.ofList (digits.drop whole)

/-- A decimal written out, without an exponent. -/
def Number.plain (d : Number) : String :=
  if 0 ≤ d.exponent then toString d.digits ++ zeros d.exponent.toNat
  else pointed d.digits (-d.exponent).toNat

/-- The magnitude of a finite double as a fraction. -/
def magnitude (p : Parts) : Fraction := binary p.mantissa p.exponent

/-- A magnitude with a fixed number of places. -/
def fixed (places : Nat) (p : Parts) : String :=
  pointed ((magnitude p).nearest (-(places : Int))) places

/-- A magnitude with one digit before the point and an exponent.  Rounding may carry into a new
    first digit, which moves the exponent. -/
def scientific (places : Nat) (p : Parts) : String :=
  if p.mantissa = 0 then s!"{pointed 0 places}e0"
  else
    let v := magnitude p
    let e := v.leading
    let q := v.nearest (e - (places : Int))
    if q = Nat.pow 10 (places + 1) then s!"{pointed (q / 10) places}e{e + 1}"
    else s!"{pointed q places}e{e}"

/-- The sign and the text of the magnitude of a double. -/
def signed (write : Parts → String) (x : Float) : String :=
  if x.isNaN then "NaN"
  else
    let p := Double.parts x
    let text := if x.isFinite then write p else "inf"
    if p.negative then "-" ++ text else text

end Decimal

instance legibleDouble : Legible Float where
  plain := Decimal.signed fun p =>
    if p.mantissa = 0 then "0" else (Decimal.shortest p).plain
  fixed places := Decimal.signed (Decimal.fixed places)
  scientific places := Decimal.signed (Decimal.scientific places)

end Milp
