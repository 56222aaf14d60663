/-
  Branching rules without memory.

  * `bestBy`: of the candidates that are not whole the one with the highest score; of equal scores
    the earliest.
  * `Strategy.mostFractional`: the value nearest to a half.
  * `Strategy.firstFractional`: the first candidate that is not whole.
  * `Strategy.always`: one variable, whatever its value.
-/
import Milp.Branching.Decision

namespace Milp

variable {F : Type} [Scalar F]

/-- The best variable so far and its score, after looking at `var`. -/
def considerBy (x : List F) (tolerance : F) (score : Nat → F → Except Fault F)
    (best : Option (Nat × F)) (var : Nat) : Except Fault (Option (Nat × F)) := do
  let value ← fetch x var
  if Scalar.fractionality value ≤ tolerance then return best
  let s ← score var value
  match best with
  | none => return some (var, s)
  | some (_, b) => if b < s then return some (var, s) else return best

/-- Split the candidate with the highest score among those that are not whole. -/
def bestBy (q : BranchQuery F) (score : Nat → F → Except Fault F) :
    Except Fault (Option (Decision F)) := do
  match ← q.candidates.foldlM (considerBy q.x q.tolerance score) none with
  | none => return none
  | some (var, s) => return some (← q.split var s)

namespace Strategy

/-- Branch on the candidate whose value is nearest to a half. -/
def mostFractional : Strategy F Unit where
  name := "most-fractional"
  select _ q := do return (← bestBy q fun _ value => return Scalar.fractionality value, ())
  learn _ _ _ := return ()

/-- The first variable of a list that is not whole at `x`. -/
def firstNotWhole (x : List F) (tolerance : F) : List Nat → Except Fault (Option Nat)
  | [] => return none
  | var :: rest => do
    if tolerance < Scalar.fractionality (← fetch x var) then return some var
    else firstNotWhole x tolerance rest

/-- Branch on the first candidate that is not whole. -/
def firstFractional : Strategy F Unit where
  name := "first-fractional"
  select _ q := do
    match ← firstNotWhole q.x q.tolerance q.candidates with
    | none => return (none, ())
    | some var => return (some (← q.split var 0), ())
  learn _ _ _ := return ()

/-- Always branch on one variable, or never on any. -/
def always (var? : Option Nat) : Strategy F Unit where
  name := "fixed"
  select _ q := do
    match var? with
    | none => return (none, ())
    | some var => return (some (← q.split var 0), ())
  learn _ _ _ := return ()

end Strategy

end Milp
