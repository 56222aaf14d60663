/-
  Mixed-integer programs.

  * `MixedProgram`: a linear program that was checked, with its bounds in force and its integer
    variables.
  * `MixedProgram.ofProgram`: check a program; it must be valid, and no variable may have an empty
    domain.
  * `integralOn`, `fractional`: which of some variables are whole at a point.
  * `MixedProgram.feasible`: does a point satisfy bounds and rows within a tolerance?
-/
import Milp.Program.Residual
import Milp.Program.Validity

namespace Milp

variable {F : Type}

/-- A checked linear program with its integer variables and its bounds in force. -/
structure MixedProgram (F : Type) where
  lp : Program F
  integers : List Nat
  binaries : List Nat
  box : Box F

/-- A variable with a value that is not whole, and its place in the list it was taken from. -/
structure FractionalVar (F : Type) where
  place : Nat
  var : Nat
  value : F
  deriving DecidableEq, Repr

/-- Are all these variables whole at `x`, within a tolerance?  The first that is not decides. -/
def integralOn [Scalar F] (x : List F) (tolerance : F) : List Nat → Except Fault Bool
  | [] => return true
  | var :: rest => do
    if Scalar.fractionality (← fetch x var) ≤ tolerance then integralOn x tolerance rest
    else return false

/-- The variables of a list that are not whole at `x`, in order; `place` numbers the list. -/
def fractionalFrom [Scalar F] (x : List F) (tolerance : F) :
    Nat → List Nat → Except Fault (List (FractionalVar F))
  | _, [] => return []
  | place, var :: rest => do
    let value ← fetch x var
    let others ← fractionalFrom x tolerance (place + 1) rest
    if tolerance < Scalar.fractionality value then return ⟨place, var, value⟩ :: others
    else return others

/-- The variables of a list that are not whole at `x`, in order. -/
def fractional [Scalar F] (x : List F) (tolerance : F) (vars : List Nat) :
    Except Fault (List (FractionalVar F)) :=
  fractionalFrom x tolerance 0 vars

/-- Why a program is not accepted. -/
inductive MixedProgramError (F : Type) where
  | invalid (error : ProgramError F)
  | emptyDomain (var : Nat) (interval : Interval F)
  | fault (fault : Fault)
  deriving DecidableEq, Repr

namespace MixedProgram

/-- The variables of some kinds. -/
def varsOf (P : Program F) (p : VarKind → Bool) : List Nat :=
  ((P.kinds.getD []).zipIdx.filter fun (kind, _) => p kind).map Prod.snd

/-- Check a program. -/
def ofProgram [Extended F] (P : Program F) : Except (MixedProgramError F) (MixedProgram F) := do
  P.validate.mapError .invalid
  let box ← P.box.mapError .fault
  let intervals := List.zipWith Interval.mk box.lower box.upper
  match intervals.zipIdx.find? fun (i, _) => decide (i.upper < i.lower) with
  | some (i, var) => throw (.emptyDomain var i)
  | none =>
    return {
      lp := P, box
      integers := varsOf P (· ≠ .continuous)
      binaries := varsOf P (· = .binary) }

/-- The number of variables. -/
def vars (M : MixedProgram F) : Nat := M.lp.vars

/-- The number of rows. -/
def height (M : MixedProgram F) : Nat := M.lp.height

/-- The objective value. -/
def objective [Scalar F] (M : MixedProgram F) (x : List F) : F := M.lp.objective x

/-- Does a point satisfy the bounds within a tolerance? -/
def boundsHold [Scalar F] (M : MixedProgram F) (x : List F) (tolerance : F) : Bool :=
  (x.zip (M.box.lower.zip M.box.upper)).all fun (v, l, u) =>
    decide (l - tolerance ≤ v) && decide (v ≤ u + tolerance)

/-- Does a point satisfy the rows within a tolerance? -/
def rowsHold [Scalar F] (M : MixedProgram F) (x : List F) (tolerance : F) : Except Fault Bool := do
  return decide ((← M.lp.violation x) ≤ tolerance)

/-- Does a point have the right size and satisfy bounds and rows within a tolerance? -/
def feasible [Scalar F] (M : MixedProgram F) (x : List F) (tolerance : F) : Except Fault Bool :=
  if x.length = M.vars && M.boundsHold x tolerance then M.rowsHold x tolerance
  else return false

end MixedProgram

end Milp
