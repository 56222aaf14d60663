/-
  Settings of a search.

  * `Settings.validate`: the first setting that cannot be used.
  * `Misconfiguration`: everything about settings, candidates and relaxation that keeps a search
    from starting, with its `message`.
-/
import Milp.Duration
import Milp.Frontier.Order
import Milp.MixedProgram

namespace Milp

variable {F : Type}

/-- The tolerances of a search. -/
inductive ToleranceName where
  | improvement
  | integrality
  | feasibility
  deriving DecidableEq, Repr

def ToleranceName.label : ToleranceName → String
  | improvement => "tolerance"
  | integrality => "int_feas_tol"
  | feasibility => "feas_tol"

/-- Why a search cannot start. -/
inductive Misconfiguration (F : Type) where
  | timeLimit (seconds : F)
  | tolerance (name : ToleranceName) (value : F)
  | integralityTooLoose (value : F)
  | logFrequencyZero
  | candidateOutOfRange (var vars : Nat)
  | candidateRepeated (var : Nat)
  | noCandidates (integers : Nat)
  | relaxationSize (name : String) (got expected : Nat)
  | directions (requested own : Sense)
  | emptyDomain (var : Nat) (interval : Interval F)
  deriving DecidableEq, Repr

/-- The text of a misconfiguration. -/
def Misconfiguration.message [Legible F] : Misconfiguration F → String
  | timeLimit seconds =>
    s!"time limit must be a nonnegative number of seconds, got {Legible.plain seconds}"
  | tolerance name value =>
    s!"{name.label} must be finite and nonnegative, got {Legible.plain value}"
  | integralityTooLoose value => s!"int_feas_tol must be below 0.5, got {Legible.plain value}"
  | logFrequencyZero => "log_freq must be positive"
  | candidateOutOfRange var vars =>
    s!"branching candidate {var} out of range (problem has {vars} variables)"
  | candidateRepeated var => s!"branching candidate {var} listed twice"
  | noCandidates integers =>
    s!"empty candidate set but the problem has {integers} integer variables"
  | relaxationSize name got expected =>
    s!"relaxation solver '{name}' has {got} variables, problem has {expected}"
  | directions requested own =>
    s!"search direction {requested.label} differs from the problem's {own.label}; "
      ++ "use solve_mip or set the direction on the problem"
  | emptyDomain var interval =>
    let l := Legible.plain interval.lower
    let u := Legible.plain interval.upper
    s!"variable {var} has empty domain [{l}, {u}]"

/-- The settings of a search. -/
structure Settings (F : Type) where
  /-- The time limit in seconds. -/
  timeLimit : Option F
  /-- The largest number of nodes to process. -/
  nodeLimit : Option Nat
  /-- The number of solver failures to put up with. -/
  maxSolverErrors : Option Nat
  /-- By how much an incumbent has to be better than the one before. -/
  tolerance : F
  /-- The distance from a whole number that still counts as whole. -/
  integrality : F
  /-- The violation of bounds and rows that a proposal may have. -/
  feasibility : F
  /-- The direction of optimisation; the direction of the program if there is none. -/
  sense : Option Sense
  selection : Selection F
  relaxation : Simplex.Options F
  verbose : Bool
  /-- Progress is logged every so many nodes. -/
  logEvery : Nat

namespace Settings

/-- The settings used where none are given. -/
def standard [Scalar F] : Settings F where
  timeLimit := none
  nodeLimit := none
  maxSolverErrors := none
  tolerance := 1e-6
  integrality := 1e-6
  feasibility := 1e-6
  sense := none
  selection := .bestBound
  relaxation := Simplex.Options.standard
  verbose := false
  logEvery := 100

/-- The standard settings, with progress logged at every node. -/
def talkative [Scalar F] : Settings F := { standard with verbose := true, logEvery := 1 }

/-- The time limit as a duration.  One that is too large for a duration is no limit. -/
def duration? [Scalar F] (s : Settings F) : Option Duration :=
  s.timeLimit.bind Duration.ofSeconds?

/-- A tolerance has to be finite and nonnegative. -/
def validateTolerance [Scalar F] (name : ToleranceName) (value : F) :
    Except (Misconfiguration F) Unit :=
  if !Scalar.isFinite value || value < 0 then .error (.tolerance name value) else .ok ()

/-- A time limit has to be finite and nonnegative. -/
def validateTimeLimit [Scalar F] (seconds : F) : Except (Misconfiguration F) Unit :=
  if !Scalar.isFinite seconds || seconds < 0 then .error (.timeLimit seconds) else .ok ()

/-- Check the settings; the first one that cannot be used is reported. -/
def validate [Scalar F] (s : Settings F) : Except (Misconfiguration F) Unit := do
  s.timeLimit.forM validateTimeLimit
  validateTolerance .improvement s.tolerance
  validateTolerance .integrality s.integrality
  validateTolerance .feasibility s.feasibility
  if 0.5 ≤ s.integrality then throw (.integralityTooLoose s.integrality)
  if s.logEvery = 0 then throw .logFrequencyZero

end Settings

end Milp
