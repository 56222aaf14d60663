/-
  Branching decisions and the strategies that make them.

  * `Decision`: a variable, the two halves of its interval around its value, and a score.
  * `Decision.children`: the halves that are not empty, the lower one first.
  * `Strategy F β`: chooses the variable to branch on, with state `β`, and is told how the bound of
    each child moved.
-/
import Milp.MixedProgram
import Milp.Node

namespace Milp

variable {F : Type}

/-- A variable to branch on. -/
structure Decision (F : Type) where
  var : Nat
  value : F
  down : BoundChange F
  up : BoundChange F
  score : F
  deriving DecidableEq, Repr

namespace Decision

variable [Scalar F]

/-- Split an interval at a value. -/
def split (var : Nat) (value : F) (interval : Interval F) (score : F) : Decision F :=
  ⟨var, value, BoundChange.down var interval value, BoundChange.up var interval value, score⟩

/-- The changes of the children worth creating. -/
def children (d : Decision F) : List (BoundChange F) :=
  [d.down, d.up].filter fun c => !c.isEmpty

end Decision

/-- What a strategy decides on: the point, the variables it may choose, the intervals of all
    variables at the node, and the tolerance within which a value counts as whole. -/
structure BranchQuery (F : Type) where
  x : List F
  candidates : List Nat
  problem : MixedProgram F
  box : Box F
  tolerance : F

/-- Split the interval of a variable at its value. -/
def BranchQuery.split [Scalar F] (q : BranchQuery F) (var : Nat) (score : F) :
    Except Fault (Decision F) := do
  return Decision.split var (← fetch q.x var) (← q.box.interval var) score

/-- A way of choosing the variable to branch on. -/
structure Strategy (F β : Type) where
  name : String
  /-- Choose a variable; `none` if there is nothing to branch on. -/
  select : β → BranchQuery F → Except Fault (Option (Decision F) × β)
  /-- Learn from a child: its change, and how much its bound rose, if its relaxation was optimal. -/
  learn : β → BoundChange F → Option F → Except Fault β

end Milp
