/-
  The simplex solver as a relaxation.

  Between solves the working box is the box of the program.  A solve lays the restrictions over it,
  solves the program over the result, and takes the overlay off again.
-/
import Milp.MixedProgram
import Milp.Relaxation.Basic

namespace Milp

variable {F : Type}

/-- The working box, and the number of solves so far. -/
structure Workspace (F : Type) where
  box : Box F
  solves : Nat := 0
  deriving DecidableEq, Repr

/-- The answer that a report stands for. -/
def Answer.ofReport (r : Simplex.Report F) : Answer F :=
  match r.verdict with
  | .optimal x objective => optimal x objective
  | .infeasible => infeasible
  | .unbounded => unbounded
  | verdict => failed (.stopped verdict (r.phase1 + r.phase2))

/-- The simplex solver for the relaxation of a program. -/
def Relaxation.simplex [Scalar F] (M : MixedProgram F) (opts : Simplex.Options F)
    (clock : Simplex.PivotClock) : Relaxation F (Workspace F) where
  name := "simplex"
  vars := M.vars
  solve w r := do
    let overlay ← Overlay.apply w.box r
    let state : Workspace F := ⟨overlay.restore, w.solves + 1⟩
    match M.lp.solveOver overlay.box opts clock with
    | .ok report => return ⟨state, Answer.ofReport report, report.notes⟩
    | .error (.invalid error) => return ⟨state, .failed (.refused error), []⟩
    | .error (.fault fault) => throw fault

end Milp
