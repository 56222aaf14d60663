/-
  The parts of a search: a program, the variables to branch on, and what the search may be given
  from outside: a relaxation, a strategy, callbacks and a clock.

  * `Engine.check`: what keeps an engine from starting.
-/
import Milp.Branching.Decision
import Milp.Callback.Basic
import Milp.Error
import Milp.Limits

namespace Milp.Search

variable {F σ β κ : Type}

/-- The parts of a search.  Relaxation, strategy and callbacks keep states of the types `σ`, `β` and
    `κ`. -/
structure Engine (F σ β κ : Type) where
  problem : MixedProgram F
  /-- The variables to branch on, in the order of preference. -/
  candidates : List Nat
  settings : Settings F
  relaxation : Relaxation F σ
  strategy : Strategy F β
  callbacks : Callbacks F κ
  clock : SearchClock

namespace Engine

variable (E : Engine F σ β κ)

/-- The direction of the search is that of the program. -/
def sense : Sense := E.problem.lp.sense

/-- A candidate is a variable of the program and not among those seen before. -/
def checkCandidates (vars : Nat) : List Nat → List Nat → Except (Misconfiguration F) Unit
  | _, [] => .ok ()
  | seen, var :: rest =>
    if vars ≤ var then .error (.candidateOutOfRange var vars)
    else if var ∈ seen then .error (.candidateRepeated var)
    else checkCandidates vars (var :: seen) rest

/-- A program with integer variables needs candidates. -/
def checkSomeCandidate : Except (Misconfiguration F) Unit :=
  if E.candidates.isEmpty && !E.problem.integers.isEmpty then
    .error (.noCandidates E.problem.integers.length)
  else .ok ()

/-- The relaxation answers for as many variables as the program has. -/
def checkRelaxation : Except (Misconfiguration F) Unit :=
  if E.relaxation.vars ≠ E.problem.vars then
    .error (.relaxationSize E.relaxation.name E.relaxation.vars E.problem.vars)
  else .ok ()

/-- The settings do not ask for the other direction: the relaxation optimises in that of the
    program, so a search in the other one would bound against the wrong side. -/
def checkSense : Except (Misconfiguration F) Unit :=
  match E.settings.sense with
  | some requested =>
    if requested ≠ E.sense then .error (.directions requested E.sense) else .ok ()
  | none => .ok ()

/-- Check an engine; the first thing that keeps it from starting is reported. -/
def check [Scalar F] : Except (Misconfiguration F) Unit := do
  E.settings.validate
  checkCandidates E.problem.vars [] E.candidates
  E.checkSomeCandidate
  E.checkRelaxation
  E.checkSense

end Engine

end Milp.Search
