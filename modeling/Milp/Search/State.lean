/-
  The state of a search, and the few ways in which it changes.

  * `State`: tree, frontier, incumbent and statistics, the states of relaxation, strategy and
    callbacks, and the events so far.  The pending nodes of the tree are the nodes of the frontier.
  * `SearchM`: a computation on the state that may end in an error; the state up to there remains.
  * `close`: a node gets its final status, and the callbacks are told.
  * `install`: the only way to a new incumbent; the frontier is pruned against it.
-/
import Milp.Frontier.Basic
import Milp.Search.Engine
import Milp.Search.Event

namespace Milp.Search

variable {F σ β κ : Type} {ε α : Type}

/-- The state of a search. -/
structure State (F σ β κ : Type) where
  tree : Tree F
  frontier : Frontier F
  tracker : Tracker F
  statistics : Statistics F
  /-- Was a node closed without proof? -/
  incomplete : Bool
  relaxation : σ
  strategy : β
  callbacks : κ
  /-- The events so far, the latest first. -/
  history : List (Event F)

/-- A computation on the state of a search. -/
abbrev SearchM (F σ β κ α : Type) := EStateM (SearchError F) (State F σ β κ) α

/-- The root is pending, and nothing has been done. -/
def State.initial [Extended F] (E : Engine F σ β κ) (relaxation : σ) (strategy : β)
    (callbacks : κ) : State F σ β κ :=
  let (tree, root) : Tree F × NodeId := Tree.empty.createRoot
  { tree
    frontier := Frontier.pushNode ⟨E.settings.selection, #[], 0, 0⟩ (Node.root root)
    tracker := ⟨E.sense, none, 0⟩
    statistics := { created := 1, bestBound := 0, gap := 0 }
    incomplete := false
    relaxation, strategy, callbacks
    history := [] }

namespace State

/-- Is there an incumbent that cannot be improved on below this node? -/
def dominates [Extended F] (s : State F σ β κ) (node : Node F) (tolerance : F) : Bool :=
  s.tracker.hasIncumbent && node.canPrune s.tracker.normalized tolerance

/-- The best bound over pending nodes and incumbent, in minimisation. -/
def bound [Extended F] (s : State F σ β κ) : F :=
  Scalar.min s.frontier.bestBound s.tracker.normalized

/-- The status of a search without pending nodes. -/
def exhausted (s : State F σ β κ) : SearchStatus :=
  if s.incomplete then .unsolved
  else if s.tracker.hasIncumbent then .optimal
  else .infeasible

end State

/-- Add an event. -/
def emit (event : Event F) : SearchM F σ β κ Unit :=
  modify fun s => { s with history := event :: s.history }

/-- Change the statistics. -/
def tally (f : Statistics F → Statistics F) : SearchM F σ β κ Unit :=
  modify fun s => { s with statistics := f s.statistics }

/-- Go on with a result, or end with its error. -/
def ensure (wrap : ε → SearchError F) : Except ε α → SearchM F σ β κ α
  | .ok a => return a
  | .error e => throw (wrap e)

/-- Go on with the answer of the tree. -/
def ofTree : Except TreeError α → SearchM F σ β κ α :=
  ensure fun e => .internal (.tree e)

/-- Go on with a value read from a vector. -/
def ofRead : Except Fault α → SearchM F σ β κ α := ensure .fault

variable (E : Engine F σ β κ)

/-- The record of a node with its final status. -/
def Engine.record [Scalar F] (node : Node F) (status : NodeStatus) : Record F where
  id := node.id
  parent := node.parent
  depth := node.depth
  parentBound := E.sense.normalize node.parentBound
  dualBound := E.sense.normalize node.dualBound
  objective := node.objective?
  status

/-- Close a node and tell the callbacks. -/
def close [Scalar F] (id : NodeId) (status : NodeStatus) : SearchM F σ β κ Unit := do
  let node ← ofTree ((← get).tree.node id)
  let record := E.record node status
  let (tree, _) ← ofTree ((← get).tree.close id status)
  modify fun s =>
    { s with
      tree
      callbacks := E.callbacks.notify record s.callbacks
      history := .closed record :: s.history }

/-- Take the pending nodes that a new incumbent rules out from the frontier, and close them. -/
def pruneFrontier [Extended F] : SearchM F σ β κ Nat := do
  let s ← get
  let (pruned, frontier) := s.frontier.pruneByBound s.tracker.normalized E.settings.tolerance
  modify fun s => { s with frontier }
  tally fun t => { t with pruned := t.pruned + pruned.length }
  pruned.forM fun key => close E key.id (.pruned .bound)
  return pruned.length

/-- Install an incumbent if it is better than the one before; was it installed? -/
def install [Extended F] (candidate : Incumbent F) : SearchM F σ β κ Bool := do
  match (← get).tracker.update? candidate E.settings.tolerance with
  | none => return false
  | some tracker =>
    modify fun s => { s with tracker }
    tally fun t => { t with incumbentUpdates := t.incumbentUpdates + 1 }
    let pruned ← pruneFrontier E
    emit (.improved candidate.objective candidate.origin pruned)
    return true

end Milp.Search
