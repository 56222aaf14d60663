/-
  Incumbents: the best feasible points found so far.

  * `Tracker.update?`: a candidate replaces the incumbent only if it is better by more than the
    tolerance, so of equally good ones the earliest is kept; the first one only has to be finite.
  * `relativeGap`: the distance between an objective and a bound, relative to the objective.
-/
import Milp.Node

namespace Milp

variable {F : Type}

/-- Where an incumbent came from. -/
inductive Origin where
  | relaxation
  | heuristic (name : String)
  deriving DecidableEq, Repr

def Origin.label : Origin → String
  | relaxation => "relaxation"
  | heuristic name => s!"heuristic:{name}"

/-- A feasible point.  The objective is in the direction of the program. -/
structure Incumbent (F : Type) where
  objective : F
  x : List F
  origin : Origin
  /-- The node in which it was found. -/
  node : NodeId
  /-- The number of nodes processed by then. -/
  foundAt : Nat
  deriving DecidableEq, Repr

/-- The relative gap `|primal - dual| / max(|primal|, 1e-10)`. -/
def relativeGap [Extended F] (primal dual : F) : F :=
  if Scalar.isInfinite primal || Scalar.isInfinite dual then Extended.infinity
  else Scalar.abs (primal - dual) / Scalar.max (Scalar.abs primal) 1e-10

/-- The incumbent of a search, if there is one, and how often it changed. -/
structure Tracker (F : Type) where
  sense : Sense
  best : Option (Incumbent F) := none
  updates : Nat := 0
  deriving DecidableEq, Repr

namespace Tracker

def hasIncumbent (t : Tracker F) : Bool := t.best.isSome

/-- The objective of the incumbent, or the worst value of all. -/
def objective [Extended F] (t : Tracker F) : F :=
  match t.best with
  | some i => i.objective
  | none => t.sense.worst

/-- The same in minimisation. -/
def normalized [Extended F] (t : Tracker F) : F := t.sense.normalize t.objective

/-- Would this objective replace the incumbent? -/
def improves [Scalar F] (t : Tracker F) (objective tolerance : F) : Bool :=
  match t.best with
  | none => Scalar.isFinite objective
  | some i => t.sense.better objective i.objective tolerance

/-- The tracker with a new incumbent, if the candidate improves on the current one. -/
def update? [Scalar F] (t : Tracker F) (candidate : Incumbent F) (tolerance : F) :
    Option (Tracker F) :=
  if t.improves candidate.objective tolerance then
    some { t with best := some candidate, updates := t.updates + 1 }
  else none

/-- The relative gap to a bound in the direction of the program. -/
def gap [Extended F] (t : Tracker F) (bound : F) : F := relativeGap t.objective bound

end Tracker

end Milp
