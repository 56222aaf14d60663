/-
  The two-phase simplex method.

  Phase 1 minimises the sum of the artificial columns to find a basis of the rows; phase 2 minimises
  the objective from there.  The point found is put back into its bounds where round-off pushed it
  out, and measured against rows and bounds before it is answered.

  * `Verdict`, `Report`: what a solve answers, with its pivots, residual and notes.
  * `Program.solve`, `Program.solveOver`: solve a program over its own bounds, or over others.
  * A form without rows has no columns to read values from: only a program without variables can
    be recovered from it.
-/
import Milp.Program.Validity
import Milp.Simplex.EqualityForm

namespace Milp

variable {F : Type}

namespace Simplex

/-- The answer of a solve. -/
inductive Verdict (F : Type) where
  | optimal (x : List F) (objective : F)
  | infeasible
  | unbounded
  | pivotLimit
  | timeLimit
  | numericalError
  deriving DecidableEq, Repr

def Verdict.label : Verdict F → String
  | optimal _ _ => "Optimal"
  | infeasible => "Primal Infeasible"
  | unbounded => "Unbounded"
  | pivotLimit => "MaxIters"
  | timeLimit => "Time Limit"
  | numericalError => "Numerical Error"

/-- What happened on the way. -/
inductive Note (F : Type) where
  | emptyDomain (var : Nat)
  | infeasible (amount : F)
  | redundant (rows : Nat)
  | violated (amount : F)
  | optimal (objective : F) (phase1 phase2 rows : Nat)
  deriving DecidableEq, Repr

/-- A solve: its answer, the pivots of the two phases, and the largest violation of the point. -/
structure Report (F : Type) where
  verdict : Verdict F
  phase1 : Nat := 0
  phase2 : Nat := 0
  residual : F
  notes : List (Note F) := []
  deriving DecidableEq, Repr

/-- Why a program cannot be solved at all. -/
inductive Refusal (F : Type) where
  | invalid (error : ProgramError F)
  | fault (fault : Fault)
  deriving DecidableEq, Repr

/-- The milliseconds gone by when so many pivots are made. -/
abbrev PivotClock := Nat → Nat

/-- A clock that does not move. -/
def PivotClock.still : PivotClock := fun _ => 0

/-- Is the time up once `k` pivots are made? -/
def Options.late (opts : Options F) (clock : PivotClock) (k : Nat) : Bool :=
  opts.timeLimit.any fun limit => limit ≤ clock k

section Phases

variable {n : Nat} [Scalar F] (opts : Options F) (late : Nat → Bool) (form : EqualityForm F n)

/-- The cost of phase 1: one for every artificial column. -/
def EqualityForm.artificialCost : Vector F form.width :=
  Vector.ofFn fun c => if form.firstArtificial ≤ c.val then 1 else 0

/-- Where phase 2 starts: a tableau whose basic solution is feasible, and what it took. -/
structure Basis (F : Type) (m w : Nat) where
  tableau : Tableau F m w
  pivots : Nat := 0
  notes : List (Note F) := []

/-- The end of phase 1.  If the artificial columns cannot be brought down to zero the program is
    infeasible; otherwise they are kept from entering and exchanged for other columns. -/
def EqualityForm.feasible (halt : Tableau.Halt F form.height form.width) :
    Except (Report F) (Basis F form.height form.width) :=
  let amount := halt.tableau.value
  if opts.feasibility * form.scale < amount then
    .error
      { verdict := .infeasible, phase1 := halt.pivots, residual := 0
        notes := [.infeasible amount] }
  else
    let blocked := halt.tableau.block form.firstArtificial
    let (tableau, redundant) := blocked.driveOut opts form.firstArtificial
    .ok ⟨tableau, halt.pivots, if redundant = 0 then [] else [.redundant redundant]⟩

/-- Phase 1.  Its objective is bounded below by zero, so an unbounded one is a numerical error. -/
def EqualityForm.phase1 : Except (Report F) (Basis F form.height form.width) :=
  let start := Tableau.ofRows form.rows
  if form.firstArtificial < form.width then
    let halt := (start.setCost form.artificialCost).run opts late opts.maxPivots 0
    let stopped (verdict : Verdict F) : Report F :=
      { verdict, phase1 := halt.pivots, residual := 0 }
    match halt.stop with
    | .optimal => form.feasible opts halt
    | .unbounded | .numerical => .error (stopped .numericalError)
    | .pivotLimit => .error (stopped .pivotLimit)
    | .interrupted => .error (stopped .timeLimit)
  else .ok { tableau := start }

/-- Phase 2, on a form with rows: the values of the columns and the number of pivots. -/
def EqualityForm.phase2 (basis : Basis F form.height form.width) :
    Except (Report F) (List F × Nat) :=
  let halt := (basis.tableau.setCost form.cost).run opts late (opts.maxPivots - basis.pivots)
    basis.pivots
  let pivots := halt.pivots - basis.pivots
  let stopped (verdict : Verdict F) : Report F :=
    { verdict, phase1 := basis.pivots, phase2 := pivots, residual := 0, notes := basis.notes }
  match halt.stop with
  | .optimal => .ok (halt.tableau.primal.toList, pivots)
  | .unbounded => .error (stopped .unbounded)
  | .numerical => .error (stopped .numericalError)
  | .pivotLimit => .error (stopped .pivotLimit)
  | .interrupted => .error (stopped .timeLimit)

/-- Both phases: the values of the columns, the number of pivots of phase 2, and where it
    started. -/
def EqualityForm.solve :
    Except (Report F) (List F × Nat × Basis F form.height form.width) := do
  let basis ← form.phase1 opts late
  if form.height = 0 then return ([], 0, basis)
  let (y, pivots) ← form.phase2 opts late basis
  return (y, pivots, basis)

end Phases

/-- Put a value back into an interval if it is outside by less than `slack`. -/
def snap [Scalar F] (slack : F) (i : Interval F) (x : F) : F :=
  let x := if x < i.lower && i.lower - slack < x then i.lower else x
  if i.upper < x && x < i.upper + slack then i.upper else x

/-- The report on a point: it is answered only if its largest violation is within tolerance. -/
def assess [Scalar F] (P : Program F) (box : Box F) (opts : Options F) {n : Nat}
    (form : EqualityForm F n) (basis : Basis F form.height form.width) (phase2 : Nat)
    (x : List F) : Except Fault (Report F) := do
  let residual := Scalar.max (← P.violation x) (box.violation x)
  let report (verdict : Verdict F) (note : Note F) : Report F :=
    { verdict, phase1 := basis.pivots, phase2, residual, notes := basis.notes ++ [note] }
  if !Scalar.isFinite residual || opts.residual * form.scale < residual then
    return report .numericalError (.violated residual)
  let objective := P.objective x
  return report (.optimal x objective) (.optimal objective basis.pivots phase2 form.height)

/-- Solve a program over a box of the right size.  An empty domain is found before the rows are
    looked at. -/
def solveBox [Scalar F] (P : Program F) (box : Box F) (opts : Options F) (clock : PivotClock) :
    Except Fault (Report F) := do
  if let some var := box.emptyDomain? opts.feasibility then
    return { verdict := .infeasible, residual := 0, notes := [.emptyDomain var] }
  let D ← DenseProgram.of P box
  let form := EqualityForm.build D
  match form.solve opts (opts.late clock) with
  | .error report => return report
  | .ok (y, phase2, basis) =>
    let slack := opts.feasibility * form.scale
    let intervals := List.zipWith Interval.mk box.lower box.upper
    let x := List.zipWith (snap slack) intervals (← form.recover y)
    assess P box opts form basis phase2 x

end Simplex

namespace Program

open Simplex

/-- Solve a program over a box in place of its own bounds. -/
def solveOver [Scalar F] (P : Program F) (box : Box F) (opts : Options F) (clock : PivotClock) :
    Except (Refusal F) (Report F) := do
  P.validate.mapError .invalid
  if box.lower.length ≠ P.vars ∨ box.upper.length ≠ P.vars then
    throw (.invalid (.boundCount box.lower.length box.upper.length P.vars))
  (solveBox P box opts clock).mapError .fault

/-- Solve a program over its own bounds. -/
def solve [Extended F] (P : Program F) (opts : Options F) (clock : PivotClock) :
    Except (Refusal F) (Report F) := do
  P.validate.mapError .invalid
  let box ← P.box.mapError .fault
  (solveBox P box opts clock).mapError .fault

end Program

end Milp
