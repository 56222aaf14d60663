/-
  What a search returns.

  * `SearchStatus`: how it ended.
  * `Statistics`: what it did.
  * `Solution`: the status, the incumbent if there is one, and the statistics.
-/
import Milp.Duration
import Milp.Incumbent

namespace Milp

variable {F : Type}

/-- How a search ended. -/
inductive SearchStatus where
  /-- All nodes are closed, and the incumbent is optimal within the tolerance. -/
  | optimal
  /-- All nodes are closed, and there is no feasible point. -/
  | infeasible
  | timeLimitReached
  | nodeLimitReached
  /-- All nodes are closed, but some without proof: their relaxation failed or was unbounded. -/
  | unsolved
  deriving DecidableEq, Repr

namespace SearchStatus

def label : SearchStatus → String
  | optimal => "Optimal"
  | infeasible => "Infeasible"
  | timeLimitReached => "Time Limit Reached"
  | nodeLimitReached => "Node Limit Reached"
  | unsolved => "Unsolved"

/-- Is optimality or infeasibility proven? -/
def isProven : SearchStatus → Bool
  | optimal | infeasible => true
  | _ => false

/-- Did the search stop on a limit? -/
def isLimit : SearchStatus → Bool
  | timeLimitReached | nodeLimitReached => true
  | _ => false

end SearchStatus

/-- What a search did. -/
structure Statistics (F : Type) where
  /-- Nodes taken from the frontier. -/
  processed : Nat := 0
  /-- Nodes created, the root among them. -/
  created : Nat := 0
  /-- Nodes closed because of their bound. -/
  pruned : Nat := 0
  /-- Nodes closed because nothing is feasible below them. -/
  infeasible : Nat := 0
  unbounded : Nat := 0
  branched : Nat := 0
  /-- Nodes still pending at the end. -/
  pending : Nat := 0
  solverErrors : Nat := 0
  /-- Proposals of callbacks that were refused. -/
  rejections : Nat := 0
  incumbentUpdates : Nat := 0
  maxDepth : Nat := 0
  /-- The bound on the objective, in the direction of the program. -/
  bestBound : F
  gap : F
  elapsed : Duration := ⟨0⟩
  deriving DecidableEq, Repr

/-- The result of a search. -/
structure Solution (F : Type) where
  status : SearchStatus
  incumbent : Option (Incumbent F)
  statistics : Statistics F
  deriving DecidableEq, Repr

namespace Solution

def hasSolution (s : Solution F) : Bool := s.incumbent.isSome

def objective? (s : Solution F) : Option F := s.incumbent.map Incumbent.objective

def point? (s : Solution F) : Option (List F) := s.incumbent.map Incumbent.x

end Solution

end Milp
