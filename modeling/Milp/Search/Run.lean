/-
  Searches from start to end.

  A search need not end by itself: if the candidates are unbounded there may always be another node.
  So a run is given a number of steps, and answers `none` if they do not suffice.  More steps do not
  change an answer.

  * `run`, `solve`: process nodes until the search ends, and sum up.
  * `Engine.standard`: the simplex solver as relaxation, and branching on the most fractional value.
  * `MixedProgram.redirect`: the program in the direction that the settings ask for.
-/
import Milp.Branching.Rules
import Milp.Relaxation.Simplex
import Milp.Search.Step

namespace Milp

variable {F σ β κ : Type} [Extended F]

namespace Search

section

variable (E : Engine F σ β κ)

/-- Process nodes until the search ends, but not more than so many. -/
def run : Nat → SearchM F σ β κ (Option SearchStatus)
  | 0 => return none
  | steps + 1 => do
    match ← step E with
    | some status => return some status
    | none => run steps

/-- Sum up a search that has ended.  No objective and no bound is a negative zero. -/
def conclude (status : SearchStatus) : SearchM F σ β κ (Solution F) := do
  let s ← get
  let bestBound := Scalar.positiveZero (E.sense.normalize s.bound)
  tally fun t =>
    { t with
      pending := s.frontier.size
      bestBound
      gap := s.tracker.gap bestBound
      elapsed := E.clock t.processed }
  let statistics := (← get).statistics
  emit (.finished status s.tracker.objective statistics)
  let incumbent := s.tracker.best.map fun i =>
    { i with objective := Scalar.positiveZero i.objective }
  return { status, incumbent, statistics }

/-- Say what is searched, and with what. -/
def announce {F σ β κ : Type} (E : Engine F σ β κ) : SearchM F σ β κ Unit :=
  emit (.started E.problem.vars E.problem.height E.candidates.length E.relaxation.name
    E.strategy.name E.callbacks.length E.sense)

/-- Search to the end and sum up. -/
def solve (steps : Nat) : SearchM F σ β κ (Option (Solution F)) := do
  announce E
  match ← run E steps with
  | none => return none
  | some status => return some (← conclude E status)

end

/-- The simplex solver as relaxation, branching on the most fractional value, no callbacks. -/
def Engine.standard (M : MixedProgram F) (candidates : List Nat) (settings : Settings F)
    (clock : SearchClock) (pivotClock : Simplex.PivotClock) :
    Engine F (Workspace F) Unit Unit where
  problem := M
  candidates
  settings
  relaxation := Relaxation.simplex M settings.relaxation pivotClock
  strategy := Strategy.mostFractional
  callbacks := []
  clock

end Search

namespace MixedProgram

/-- The program in another direction, if one is asked for. -/
def redirect {F : Type} (M : MixedProgram F) (sense : Option Sense) : MixedProgram F :=
  { M with lp := { M.lp with sense := sense.getD M.lp.sense } }

/-- Solve a program with the standard engine, in the direction that the settings ask for. -/
def solve (M : MixedProgram F) (candidates : List Nat) (settings : Settings F)
    (clock : SearchClock) (pivotClock : Simplex.PivotClock) (steps : Nat) :
    EStateM.Result (SearchError F) (Search.State F (Workspace F) Unit Unit)
      (Option (Solution F)) :=
  let M := M.redirect settings.sense
  let E := Search.Engine.standard M candidates settings clock pivotClock
  let start := Search.State.initial E ⟨M.box, 0⟩ () ()
  match E.check with
  | .error cause => .error (.misconfigured cause) start
  | .ok () => (Search.solve E steps).run start

end MixedProgram

end Milp
