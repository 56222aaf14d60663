/-
  Search nodes.

  * `BoundChange`: one variable gets a new interval; `down` and `up` split at a value.
  * `NodeStatus`: a node is pending, then solved, then closed; a pending node may also be closed.
  * `Node`: a subproblem.  Its dual bound, in minimisation, starts as its parent's and never gets
    worse; its answer is recorded once.
-/
import Milp.Relaxation.Basic

namespace Milp

variable {F : Type}

/-- Nodes are numbered in the order in which they are created; the root has number 0. -/
abbrev NodeId := Nat

def NodeId.label (id : NodeId) : String := s!"#{id}"

/-- Why a node was discarded. -/
inductive PruneReason where
  | infeasible
  | unbounded
  | bound
  | solverError
  | emptyDomain
  deriving DecidableEq, Repr

def PruneReason.label : PruneReason → String
  | infeasible => "Infeasible"
  | unbounded => "Unbounded"
  | bound => "Bound"
  | solverError => "SolverError"
  | emptyDomain => "EmptyDomain"

/-- How far a node has come. -/
inductive NodeStatus where
  | pending
  | solved
  | pruned (reason : PruneReason)
  | branched
  | accepted
  deriving DecidableEq, Repr

namespace NodeStatus

def label : NodeStatus → String
  | pending => "Pending"
  | solved => "Solved"
  | pruned reason => s!"Pruned({reason.label})"
  | branched => "Branched"
  | accepted => "AcceptedIncumbent"

/-- Is the decision about the node final? -/
def isClosed : NodeStatus → Bool
  | pruned _ | branched | accepted => true
  | pending | solved => false

end NodeStatus

/-- A variable gets a new interval.  `value` is the value that was branched at. -/
structure BoundChange (F : Type) where
  var : Nat
  old : Interval F
  new : Interval F
  value : F
  deriving DecidableEq, Repr

namespace BoundChange

variable [Scalar F]

/-- At most the next whole number below the value. -/
def down (var : Nat) (old : Interval F) (value : F) : BoundChange F :=
  ⟨var, old, ⟨old.lower, Scalar.min (Scalar.floor value) old.upper⟩, value⟩

/-- At least the next whole number above the value. -/
def up (var : Nat) (old : Interval F) (value : F) : BoundChange F :=
  ⟨var, old, ⟨Scalar.max (Scalar.ceil value) old.lower, old.upper⟩, value⟩

/-- Is the new interval empty? -/
def isEmpty (c : BoundChange F) : Bool := c.new.upper + 1e-9 < c.new.lower

/-- Does the change raise the lower bound? -/
def isUp (c : BoundChange F) : Bool := c.old.lower < c.new.lower

/-- How far the change moves the variable away from its value. -/
def distance (c : BoundChange F) : F :=
  if c.isUp then c.new.lower - c.value else c.value - c.new.upper

end BoundChange

/-- A subproblem of the search. -/
structure Node (F : Type) where
  id : NodeId
  parent : Option NodeId
  depth : Nat
  changes : List (BoundChange F)
  dualBound : F
  parentBound : F
  status : NodeStatus
  answer : Option (Answer F)
  deriving DecidableEq, Repr

namespace Node

/-- The root with a given number. -/
def root [Extended F] (id : NodeId) : Node F where
  id
  parent := none
  depth := 0
  changes := []
  dualBound := -Extended.infinity
  parentBound := -Extended.infinity
  status := .pending
  answer := none

/-- A child; it inherits the dual bound. -/
def child (node : Node F) (id : NodeId) (change : BoundChange F) : Node F where
  id
  parent := some node.id
  depth := node.depth + 1
  changes := [change]
  dualBound := node.dualBound
  parentBound := node.dualBound
  status := .pending
  answer := none

/-- Record the answer of the relaxation and its objective in minimisation.  A node that has an
    answer, or is not pending, takes none. -/
def record? [Scalar F] (node : Node F) (answer : Answer F) (normalized : F) : Option (Node F) :=
  if node.answer.isSome || node.status ≠ .pending then none
  else
    some { node with
      dualBound :=
        if answer.isOptimal then Scalar.max node.dualBound normalized else node.dualBound
      answer := some answer
      status := .solved }

/-- Forget the point of the answer. -/
def dropPoint (node : Node F) : Node F :=
  { node with answer := node.answer.map Answer.dropPoint }

/-- Can an incumbent with this objective, in minimisation, not be improved on below the node? -/
def canPrune [Scalar F] (node : Node F) (incumbent tolerance : F) : Bool :=
  incumbent - tolerance ≤ node.dualBound

/-- The objective of an optimal answer. -/
def objective? (node : Node F) : Option F := node.answer.bind Answer.objective?

end Node

end Milp
