/-
  Limits of a search.  They are looked at before each node, the time limit first; a limit of zero
  stops before the first node.
-/
import Milp.Settings
import Milp.Solution

namespace Milp

variable {F : Type}

/-- Why a search stopped early. -/
inductive StopReason where
  | timeLimit
  | nodeLimit
  deriving DecidableEq, Repr

namespace StopReason

def label : StopReason → String
  | timeLimit => "time limit"
  | nodeLimit => "node limit"

/-- The status of a search that stopped for this reason. -/
def status : StopReason → SearchStatus
  | timeLimit => .timeLimitReached
  | nodeLimit => .nodeLimitReached

end StopReason

/-- The limits of a search. -/
structure Limits where
  time : Option Duration
  nodes : Option Nat
  deriving DecidableEq, Repr

namespace Limits

/-- The limits that settings ask for. -/
def ofSettings [Scalar F] (s : Settings F) : Limits := ⟨s.duration?, s.nodeLimit⟩

/-- Is a limit reached, so much time and so many nodes after the start? -/
def check (l : Limits) (elapsed : Duration) (processed : Nat) : Option StopReason :=
  if l.time.any fun limit => limit.nanoseconds ≤ elapsed.nanoseconds then some .timeLimit
  else if l.nodes.any (· ≤ processed) then some .nodeLimit
  else none

end Limits

/-- The time gone by when so many nodes are processed. -/
abbrev SearchClock := Nat → Duration

/-- A clock that does not move: it shows the same time throughout. -/
def SearchClock.stopped (elapsed : Duration) : SearchClock := fun _ => elapsed

end Milp
