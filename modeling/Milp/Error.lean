/-
  Errors of a search.

  * `SearchError`: why a search did not start, or did not return.
  * `Defect`: a broken invariant of the search itself, or of the strategy it was given.
-/
import Milp.Incumbent
import Milp.Settings
import Milp.Tree

namespace Milp

variable {F : Type}

/-- Something that a search takes for granted does not hold. -/
inductive Defect where
  | tree (error : TreeError)
  | noAnswer (id : NodeId)
  | vanished (id : NodeId)
  | solvedTwice (id : NodeId)
  | nothingToBranchOn (strategy : String) (id : NodeId) (fractional : Nat)
  | notACandidate (strategy : String) (var : Nat)
  deriving DecidableEq, Repr

/-- The text of a defect. -/
def Defect.message : Defect → String
  | tree error => error.message
  | noAnswer id => s!"node {id.label} has no result"
  | vanished id => s!"node {id.label} vanished during solve"
  | solvedTwice id => s!"node {id.label} solved twice"
  | nothingToBranchOn strategy id fractional =>
    s!"branching strategy '{strategy}' found nothing to branch on at node {id.label} "
      ++ s!"({fractional} fractional candidates)"
  | notACandidate strategy var =>
    s!"branching strategy '{strategy}' chose x[{var}], which is not a candidate"

/-- Why a search did not start, or did not return. -/
inductive SearchError (F : Type) where
  | misconfigured (cause : Misconfiguration F)
  | invalidProgram (error : ProgramError F)
  | aborted (solverErrors processed : Nat) (incumbent : Option (Incumbent F))
  | internal (defect : Defect)
  | fault (fault : Fault)
  deriving DecidableEq, Repr

namespace SearchError

/-- The text of an error. -/
def message [Legible F] : SearchError F → String
  | misconfigured cause => s!"Invalid configuration: {cause.message}"
  | invalidProgram error => s!"Invalid problem: {error.message}"
  | aborted solverErrors processed _ =>
    s!"Engine aborted after {solverErrors} relaxation failures ({processed} nodes processed)"
  | internal defect => s!"Internal error: {defect.message}"
  | fault .outOfRange => "index out of range"
  | fault .tooLarge => "list too large"

/-- A program that is not accepted, as an error of the search for it. -/
def ofProgramError : MixedProgramError F → SearchError F
  | .invalid error => invalidProgram error
  | .emptyDomain var interval => misconfigured (.emptyDomain var interval)
  | .fault f => fault f

end SearchError

end Milp
