/-
  What happens in a search.

  A search keeps the list of its events; the log is written from them, and every closed node is
  among them with its record.
-/
import Milp.Branching.Decision
import Milp.Callback.Basic
import Milp.Frontier.Order
import Milp.Limits

namespace Milp.Search

/-- An event of a search.  Bounds of nodes are in minimisation; all other bounds and objectives are
    in the direction of the program. -/
inductive Event (F : Type) where
  | started (vars rows candidates : Nat) (relaxation strategy : String) (callbacks : Nat)
      (sense : Sense)
  /-- A limit was reached after so many nodes. -/
  | stopped (reason : StopReason) (processed : Nat)
  /-- A node was taken from the frontier. -/
  | taken (key : NodeKey F)
  /-- A node was discarded for the bound of its parent, without a solve. -/
  | dominated (id : NodeId) (bound : F)
  | emptyDomain (id : NodeId) (var : Nat)
  /-- The relaxation of a node was solved. -/
  | solved (id : NodeId) (notes : List (Simplex.Note F))
  /-- A solved node was shown to a callback. -/
  | offered (callback : String) (view : View F)
  /-- A proposal was refused. -/
  | rejected (callback : String) (id : NodeId) (violation : Violation F)
  /-- There is a new incumbent, and so many pending nodes were discarded for it. -/
  | improved (objective : F) (origin : Origin) (pruned : Nat)
  | failed (id : NodeId) (cause : Cause F)
  | infeasible (id : NodeId)
  | unbounded (id : NodeId)
  /-- A node was discarded for its own bound. -/
  | pruned (id : NodeId) (bound : F)
  /-- A node was to be branched on, but neither half is worth a child. -/
  | barren (id : NodeId) (var : Nat)
  | branched (id : NodeId) (decision : Decision F) (children : Nat)
  | closed (record : Record F)
  /-- How far the search is. -/
  | progress (processed pending : Nat) (bound incumbent gap : F) (elapsed : Duration)
  | finished (status : SearchStatus) (objective : F) (statistics : Statistics F)

end Milp.Search
