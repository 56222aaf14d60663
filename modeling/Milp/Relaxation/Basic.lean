/-
  Relaxations: solvers for the program without its integrality conditions.

  * `Answer`: what a solver says about the program under some restrictions.
  * `Relaxation F σ`: a solver with state `σ`.  Nothing is assumed of its answers; `Answer.check`
    turns an optimal answer of the wrong size, or with a value that is not finite, into a failure.
-/
import Milp.Restrictions
import Milp.Simplex.Solve

namespace Milp

variable {F : Type}

/-- Why a solver failed. -/
inductive Cause (F : Type) where
  | stopped (verdict : Simplex.Verdict F) (pivots : Nat)
  | refused (error : ProgramError F)
  | wrongSize (got expected : Nat)
  | nonFinite
  | reported (text : String)
  deriving DecidableEq, Repr

/-- The text of a cause. -/
def Cause.message [Legible F] : Cause F → String
  | stopped verdict pivots =>
    s!"simplex stopped with status {verdict.label} after {pivots} pivots"
  | refused error => error.message
  | wrongSize got expected => s!"relaxation returned {got} values for {expected} variables"
  | nonFinite => "relaxation returned non-finite values"
  | reported text => text

/-- The answer of a relaxation. -/
inductive Answer (F : Type) where
  | optimal (x : List F) (objective : F)
  | infeasible
  | unbounded
  | failed (cause : Cause F)
  deriving DecidableEq, Repr

namespace Answer

def isOptimal : Answer F → Bool
  | optimal _ _ => true
  | _ => false

/-- The point of an optimal answer; any other answer has none. -/
def point : Answer F → List F
  | optimal x _ => x
  | _ => []

/-- The objective of an optimal answer. -/
def objective? : Answer F → Option F
  | optimal _ objective => some objective
  | _ => none

/-- The answer without its point. -/
def dropPoint : Answer F → Answer F
  | optimal _ objective => optimal [] objective
  | a => a

/-- An optimal answer has to carry one finite value for each variable and a finite objective. -/
def check [Scalar F] (vars : Nat) : Answer F → Answer F
  | optimal x objective =>
    if x.length ≠ vars then failed (.wrongSize x.length vars)
    else if !Scalar.isFinite objective || !x.all Scalar.isFinite then failed .nonFinite
    else optimal x objective
  | a => a

end Answer

/-- What a solver hands back: its new state, its answer, and what happened on the way. -/
structure Reply (F σ : Type) where
  state : σ
  answer : Answer F
  notes : List (Simplex.Note F) := []

/-- A solver for the relaxation of one program. -/
structure Relaxation (F σ : Type) where
  name : String
  /-- The number of variables of its answers. -/
  vars : Nat
  solve : σ → Restrictions F → Except Fault (Reply F σ)

end Milp
