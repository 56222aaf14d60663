import Milp.Branching.Decision
import Milp.Branching.Pseudocost
import Milp.Branching.Rules
import Milp.Callback.Basic
import Milp.Callback.Rounding
import Milp.Callback.Scripted
import Milp.Checked
import Milp.Decimal.Grid
import Milp.Decimal.Shortest
import Milp.Decimal.Text
import Milp.Duration
import Milp.Error
import Milp.Frontier.Basic
import Milp.Frontier.Order
import Milp.Heap
import Milp.Incumbent
import Milp.Json.Basic
import Milp.Json.Reader
import Milp.Json.Writer
import Milp.Limits
import Milp.Log
import Milp.Matrix
import Milp.MixedProgram
import Milp.Node
import Milp.Presort
import Milp.Program.Basic
import Milp.Program.Residual
import Milp.Program.Validity
import Milp.Proofs.Activity
import Milp.Proofs.Bound
import Milp.Proofs.Branching
import Milp.Proofs.Coherence
import Milp.Proofs.Configuration
import Milp.Proofs.Coupling
import Milp.Proofs.Cover
import Milp.Proofs.Frontier
import Milp.Proofs.Moves
import Milp.Proofs.Program
import Milp.Proofs.Proposal
import Milp.Proofs.Provenance
import Milp.Proofs.Refinement
import Milp.Proofs.Relaxation
import Milp.Proofs.Residual
import Milp.Proofs.Restrictions
import Milp.Proofs.Scalar.Basic
import Milp.Proofs.Scalar.Double
import Milp.Proofs.Scalar.Exact
import Milp.Proofs.Scalar.Faithful
import Milp.Proofs.Scalar.Ordered
import Milp.Proofs.Scalar.Rounding
import Milp.Proofs.Simplex.Bland
import Milp.Proofs.Simplex.Correctness
import Milp.Proofs.Simplex.Form
import Milp.Proofs.Simplex.Layout
import Milp.Proofs.Simplex.Lift
import Milp.Proofs.Simplex.Optimum
import Milp.Proofs.Simplex.Phases
import Milp.Proofs.Simplex.Pivoting
import Milp.Proofs.Span
import Milp.Proofs.Termination
import Milp.Proofs.Tree
import Milp.Proofs.Width
import Milp.Proposal
import Milp.Relaxation.Basic
import Milp.Relaxation.Scripted
import Milp.Relaxation.Simplex
import Milp.Restrictions
import Milp.Scalar.Basic
import Milp.Scalar.Double
import Milp.Scalar.Exact
import Milp.Search.Engine
import Milp.Search.Event
import Milp.Search.Run
import Milp.Search.State
import Milp.Search.Step
import Milp.Settings
import Milp.Simplex.EqualityForm
import Milp.Simplex.Solve
import Milp.Simplex.Tableau
import Milp.Solution
import Milp.Solution.Json
import Milp.Tree
import Milp.Proofs.Release
import Milp.Proofs.Exploration
import Milp.Proofs.Trace
import Milp.Proofs.Accounting
import Milp.Proofs.Contract
import Milp.Proofs.Pruning
import Milp.Proofs.Noninterference
import Milp.Proofs.Truncation
import Milp.Proofs.Agreement
import Milp.Proofs.Failures
import Milp.Proofs.Nesting
import Milp.Proofs.Simplex.Mirror
import Milp.Proofs.Mirror
import Milp.Proofs.Simplex.Equivalence
import Milp.Proofs.Simplex.Canonical
import Milp.Proofs.Simplex.Faults
import Milp.Proofs.Inheritance
import Milp.Proofs.Triage
import Milp.Proofs.Calls
import Milp.Proofs.Protocol
import Milp.Proofs.Simplex.Budget
import Milp.Proofs.Workspace
import Milp.Proofs.Scalar.Ranked
import Milp.Proofs.Lineage
import Milp.Proofs.Advance
import Milp.Proofs.Acceptance
import Milp.Proofs.DepthFirst
import Milp.Proofs.Scalar.Placed
import Milp.Proofs.Dichotomy
import Milp.Proofs.FullTree
import Milp.Proofs.Scalar.Gap
import Milp.Proofs.Verdict
import Milp.Proofs.Scalar.Tolerance
import Milp.Proofs.Choice
import Milp.Proofs.Averages
import Milp.Proofs.Heuristic
import Milp.Proofs.Triplets
import Milp.Proofs.Feasibility
import Milp.Proofs.Offers
import Milp.Proofs.Scalar.Strict
import Milp.Proofs.Overflow
import Milp.Proofs.RoundTrip
import Milp.Proofs.Simplex.Expulsion
import Milp.Proofs.Scalar.Accuracy
import Milp.Proofs.Simplex.RatioTest
import Milp.Proofs.Simplex.Conservation
