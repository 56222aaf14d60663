/-
  Proposals: points that a callback offers as incumbents.

  * `Proposal.check`: the objective of a proposal that may become the incumbent, computed anew.  The
    first of its faults is reported, in the order of `Violation`: it has a finite value for every
    variable and a finite objective, satisfies the bounds, is whole on the candidates, satisfies the
    rows, has the objective it is said to have, and improves on the incumbent.
-/
import Milp.Incumbent
import Milp.Settings

namespace Milp

variable {F : Type}

/-- A point, and the objective it is said to have. -/
structure Proposal (F : Type) where
  x : List F
  objective : F
  deriving DecidableEq, Repr

/-- A point with its own objective. -/
def Proposal.evaluated [Scalar F] (M : MixedProgram F) (x : List F) : Proposal F :=
  ⟨x, M.objective x⟩

/-- Why a proposal is refused. -/
inductive Violation (F : Type) where
  | wrongLength (got expected : Nat)
  | nonFiniteValue (var : Nat)
  | nonFiniteObjective
  | outOfBounds (var : Nat) (value : F) (bounds : Interval F)
  | fractional (var : Nat) (value : F)
  | infeasible (amount : F)
  | objectiveMismatch (reported actual : F)
  | notImproving (objective incumbent : F)
  deriving DecidableEq, Repr

/-- The text of a violation. -/
def Violation.message [Legible F] : Violation F → String
  | wrongLength got expected => s!"assignment has {got} values, expected {expected}"
  | nonFiniteValue var => s!"non-finite value for x[{var}]"
  | nonFiniteObjective => "non-finite value for objective"
  | outOfBounds var value bounds =>
    let v := Legible.plain value
    let l := Legible.plain bounds.lower
    let u := Legible.plain bounds.upper
    s!"x[{var}] = {v} is outside [{l}, {u}]"
  | fractional var value =>
    s!"candidate x[{var}] = {Legible.plain value} is not integral"
  | infeasible amount => s!"constraint violation {Legible.scientific 3 amount}"
  | objectiveMismatch reported actual =>
    s!"reported objective {Legible.plain reported} but q^T x = {Legible.plain actual}"
  | notImproving objective incumbent =>
    let o := Legible.plain objective
    s!"objective {o} does not improve on incumbent {Legible.plain incumbent}"

namespace Proposal

variable [Scalar F]

/-- Every variable has a finite value, and so has the objective. -/
def checkShape (vars : Nat) (p : Proposal F) : Except (Violation F) Unit :=
  if p.x.length ≠ vars then .error (.wrongLength p.x.length vars)
  else
    match p.x.findIdx? fun v => !Scalar.isFinite v with
    | some var => .error (.nonFiniteValue var)
    | none => if Scalar.isFinite p.objective then .ok () else .error .nonFiniteObjective

/-- Is a value outside an interval by more than the tolerance? -/
def outside (tolerance : F) (i : Interval F) (x : F) : Bool :=
  x < i.lower - tolerance || i.upper + tolerance < x

/-- The bounds hold within the tolerance. -/
def checkBounds (box : Box F) (tolerance : F) (p : Proposal F) : Except (Violation F) Unit :=
  let valued := (List.zipWith Interval.mk box.lower box.upper).zip p.x
  match valued.zipIdx.find? fun ((i, x), _) => outside tolerance i x with
  | some ((i, x), var) => .error (.outOfBounds var x i)
  | none => .ok ()

/-- The candidates are whole within the tolerance. -/
def checkWhole (tolerance : F) (p : Proposal F) :
    List Nat → Except Fault (Except (Violation F) Unit)
  | [] => return .ok ()
  | var :: rest => do
    let value ← fetch p.x var
    if tolerance < Scalar.fractionality value then return .error (.fractional var value)
    else checkWhole tolerance p rest

/-- The rows hold within the tolerance. -/
def checkRows (M : MixedProgram F) (tolerance : F) (p : Proposal F) :
    Except Fault (Except (Violation F) Unit) := do
  let amount ← M.lp.violation p.x
  return if tolerance < amount then .error (.infeasible amount) else .ok ()

/-- The objective is the one it is said to be, and improves on the incumbent. -/
def checkObjective {F : Type} [Extended F] (tracker : Tracker F) (tolerance actual : F)
    (p : Proposal F) : Except (Violation F) F :=
  if tolerance * (1 + Scalar.abs actual) < Scalar.abs (p.objective - actual) then
    .error (.objectiveMismatch p.objective actual)
  else if tracker.improves actual tolerance then .ok actual
  else .error (.notImproving actual tracker.objective)

/-- Check a proposal: the objective of its point, or the first fault. -/
def check {F : Type} [Extended F] (M : MixedProgram F) (candidates : List Nat)
    (tracker : Tracker F) (settings : Settings F) (p : Proposal F) :
    Except Fault (Except (Violation F) F) := ExceptT.run do
  p.checkShape M.vars
  p.checkBounds M.box settings.feasibility
  ExceptT.mk (p.checkWhole settings.integrality candidates)
  ExceptT.mk (p.checkRows M settings.feasibility)
  p.checkObjective tracker settings.tolerance (M.objective p.x)

end Proposal

end Milp
