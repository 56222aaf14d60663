/-
  What a point does to a linear program: its objective, its row activities, and by how much it
  violates rows and bounds.

  * `Program.activities`: `A x`, summed column by column; a variable at zero contributes nothing.
  * `Program.violation`: the largest violation of a row, zero for a point that satisfies all.
  * `Program.boundViolation`: the same for the bounds in force.
-/
import Milp.Program.Basic

namespace Milp

variable {F : Type}

/-- By how much a value leaves an interval, zero if it does not. -/
def Interval.excess [Scalar F] (i : Interval F) (x : F) : F :=
  Scalar.max (Scalar.max (i.lower - x) (x - i.upper)) 0

/-- The largest violation of a list of intervals. -/
def Box.violation [Scalar F] (box : Box F) (x : List F) : F :=
  (List.zipWith Interval.excess (List.zipWith Interval.mk box.lower box.upper) x).foldl
    Scalar.max 0

namespace Program

/-- The objective value. -/
def objective [Scalar F] (P : Program F) (x : List F) : F := Scalar.dot P.cost x

/-- Add the contribution of one column at value `xj` to the activities. -/
def contribute [Scalar F] (xj : F) (column : Column F) (ax : List F) : Except Fault (List F) :=
  column.foldlM (fun ax (row, v) => amend ax row fun a => a + v * xj) ax

/-- Add up the contributions of columns, from the first to the last. -/
def gather [Scalar F] : List (Column F) → List F → List F → Except Fault (List F)
  | [], _, ax => .ok ax
  | _ :: _, [], _ => .error .outOfRange
  | c :: cs, xj :: xs, ax =>
    if xj == 0 then gather cs xs ax else contribute xj c ax >>= gather cs xs

/-- The row activities `A x`. -/
def activities [Scalar F] (P : Program F) (x : List F) : Except Fault (List F) :=
  gather P.matrix.columns x (List.replicate P.height 0)

/-- By how much an activity violates its row. -/
def rowExcess [Scalar F] (activity rhs : F) (equality : Bool) : F :=
  if equality then Scalar.abs (activity - rhs) else Scalar.max (activity - rhs) 0

/-- The largest violation of a row. -/
def violation [Scalar F] (P : Program F) (x : List F) : Except Fault F := do
  let ax ← P.activities x
  let flags ← P.firstEqualities P.height
  let excesses := List.zipWith (fun a (b, e) => rowExcess a b e) ax (P.rhs.zip flags)
  return excesses.foldl Scalar.max 0

/-- The largest violation of a bound in force. -/
def boundViolation [Extended F] (P : Program F) (x : List F) : Except Fault F := do
  return (← P.box).violation x

/-- The matrix as rows of cells, one row for each entry of the right-hand side and one cell for
    each entry of the cost. -/
def cells [Scalar F] (P : Program F) : Except Fault (Vector (Vector F P.vars) P.height) :=
  if P.matrix.fits P.height P.vars then
    .ok (Vector.ofFn fun i => Vector.ofFn fun j => P.matrix.cell i j)
  else .error .outOfRange

end Program

end Milp
