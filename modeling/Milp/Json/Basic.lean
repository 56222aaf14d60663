/-
  JSON values.

  A number is kept either as a whole number or as a scalar, since a reader may take the one and not
  the other.  An object is the list of its fields; no name occurs twice in a value that was read.

  * `Json.ofScalar`: a finite scalar is a number, any other is `null`.
  * `Json.scalar?`, `Json.natural?`: the two ways to take a number.
-/
import Milp.Scalar.Basic

namespace Milp

variable {F : Type}

/-- A JSON value whose fractional numbers are scalars. -/
inductive Json (F : Type) where
  | null
  | bool (b : Bool)
  | whole (n : Int)
  | real (x : F)
  | string (s : String)
  | array (items : List (Json F))
  | object (fields : List (String × Json F))

namespace Json

/-- A natural number. -/
def ofNat (n : Nat) : Json F := whole n

/-- A finite scalar is a number, any other value is `null`. -/
def ofScalar [Scalar F] (x : F) : Json F := if Scalar.isFinite x then real x else null

/-- The field of an object. -/
def field? (j : Json F) (name : String) : Option (Json F) :=
  match j with
  | object fields => fields.lookup name
  | _ => none

/-- Any number, as a scalar. -/
def scalar? [Scalar F] : Json F → Option F
  | real x => some x
  | whole (.ofNat n) => some (Scalar.ofNat n)
  | whole (.negSucc n) => some (-Scalar.ofNat (n + 1))
  | _ => none

/-- A whole number below a bound. -/
def natural? (bound : Nat) : Json F → Option Nat
  | whole (.ofNat n) => if n < bound then some n else none
  | _ => none

def string? : Json F → Option String
  | string s => some s
  | _ => none

def array? : Json F → Option (List (Json F))
  | array items => some items
  | _ => none

/-- An array of numbers. -/
def scalars? [Scalar F] (j : Json F) : Option (List F) := do (← j.array?).mapM scalar?

end Json

end Milp
