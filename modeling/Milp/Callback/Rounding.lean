/-
  The rounding heuristic.

  It rounds the candidates of an optimal relaxation point and proposes the result if that is
  feasible and better than the incumbent.  A point that is whole on the candidates is left to the
  search.
-/
import Milp.Callback.Basic

namespace Milp

variable {F : Type} [Scalar F]

/-- Nodes on which rounding was tried, and proposals made. -/
structure RoundingCounts where
  attempts : Nat := 0
  proposals : Nat := 0
  deriving DecidableEq, Repr

namespace Rounding

/-- Round the candidates of a point; a candidate that the point does not have is passed over. -/
def round (x : List F) (candidates : List Nat) : List F :=
  candidates.foldl (fun x var => x.modify var Scalar.round) x

/-- The rounded point of a view as a proposal, if it is feasible and better than the incumbent. -/
def propose (tolerance : F) (view : View F) (candidates : List Nat) (x : List F) :
    Except Fault (Option (Proposal F)) := do
  let rounded := round x candidates
  if ← view.problem.feasible rounded tolerance then
    let proposal := Proposal.evaluated view.problem rounded
    let better := view.incumbent.all fun i => view.sense.better proposal.objective i 0
    return if better then some proposal else none
  else return none

/-- The violation of bounds and rows that is put up with where none is given. -/
def standardTolerance : F := 1e-6

end Rounding

/-- The rounding heuristic with a tolerance for whole values and for feasibility. -/
def Callback.rounding (tolerance : F) : Callback F RoundingCounts where
  name := "rounding"
  onSolved view candidates counts := do
    match view.answer with
    | .optimal x _ =>
      if ← integralOn x tolerance candidates then return (none, counts)
      let tried := { counts with attempts := counts.attempts + 1 }
      match ← Rounding.propose tolerance view candidates x with
      | some proposal => return (some proposal, { tried with proposals := tried.proposals + 1 })
      | none => return (none, tried)
    | _ => return (none, counts)

end Milp
