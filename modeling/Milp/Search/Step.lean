/-
  One node of a search.

  A node taken from the frontier is discarded if its parent's bound rules it out or a domain is
  empty.  Otherwise its relaxation is solved, the strategy and the callbacks see the answer, and
  then the node is closed: it is infeasible, unbounded or failed, is ruled out by its own bound, gives a
  new incumbent, or is branched on.

  * `process`: all of this for one node.
  * `step`: look at the limits, take the next node and process it.
-/
import Milp.Search.State

namespace Milp.Search

variable {F σ β κ : Type} [Extended F] (E : Engine F σ β κ)

/-- Solve the relaxation.  An optimal answer that is malformed counts as a failure. -/
def relax (id : NodeId) (r : Restrictions F) : SearchM F σ β κ (Answer F) := do
  let reply ← ofRead (E.relaxation.solve (← get).relaxation r)
  modify fun s => { s with relaxation := reply.state }
  emit (.solved id reply.notes)
  return reply.answer.check E.problem.vars

/-- Record the answer at the node, and let the strategy learn from it how far the bound rose. -/
def recordAnswer (id : NodeId) (answer : Answer F) : SearchM F σ β κ Unit := do
  let normalized := E.sense.normalize (answer.objective?.getD Extended.nan)
  match (← get).tree.get? id with
  | none => throw (.internal (.vanished id))
  | some before =>
    match before.record? answer normalized with
    | none => throw (.internal (.solvedTwice id))
    | some node =>
      modify fun s => { s with tree := s.tree.modify id fun _ => node }
      let rise := if answer.isOptimal then some (node.dualBound - node.parentBound) else none
      if node.parent.isSome then
        node.changes.head?.forM fun change => do
          let strategy ← ofRead (E.strategy.learn (← get).strategy change rise)
          modify fun s => { s with strategy }

/-- A solved node as callbacks see it. -/
def Engine.view (node : Node F) (answer : Answer F) (r : Restrictions F) (tracker : Tracker F) :
    View F where
  id := node.id
  parent := node.parent
  depth := node.depth
  parentBound := E.sense.normalize node.parentBound
  answer
  restrictions := r
  problem := E.problem
  sense := E.sense
  incumbent := tracker.best.map Incumbent.objective

/-- Check a proposal, and install or refuse it. -/
def weigh (id : NodeId) (name : String) (p : Proposal F) : SearchM F σ β κ Unit := do
  match ← ofRead (p.check E.problem E.candidates (← get).tracker E.settings) with
  | .ok objective =>
    let foundAt := (← get).statistics.processed
    discard <| install E ⟨objective, p.x, .heuristic name, id, foundAt⟩
  | .error violation =>
    tally fun t => { t with rejections := t.rejections + 1 }
    emit (.rejected name id violation)

/-- Show a solved node to a callback. -/
def consult (id : NodeId) (r : Restrictions F) (callback : Callback F κ) :
    SearchM F σ β κ Unit := do
  let s ← get
  let node ← ofTree (s.tree.node id)
  match node.answer with
  | none => throw (.internal (.noAnswer id))
  | some answer =>
    let view := E.view node answer r s.tracker
    emit (.offered callback.name view)
    let (proposal, callbacks) ← ofRead (callback.onSolved view E.candidates s.callbacks)
    modify fun s => { s with callbacks }
    proposal.forM (weigh E id callback.name)

/-- Accept a point that is whole on the candidates, unless the incumbent is as good. -/
def accept (id : NodeId) (x : List F) (objective : F) : SearchM F σ β κ Unit := do
  let foundAt := (← get).statistics.processed
  if ← install E ⟨objective, x, .relaxation, id, foundAt⟩ then
    close E id .accepted
  else
    tally fun t => { t with pruned := t.pruned + 1 }
    close E id (.pruned .bound)

/-- Let the strategy select a candidate. -/
def select (id : NodeId) (x : List F) (fractional : Nat) :
    SearchM F σ β κ (Decision F) := do
  let s ← get
  let r ← ofTree (s.tree.restrictions id)
  let box ← ofRead (r.applyTo E.problem.box)
  let query : BranchQuery F := ⟨x, E.candidates, E.problem, box, E.settings.integrality⟩
  let (decision, strategy) ← ofRead (E.strategy.select s.strategy query)
  modify fun s => { s with strategy }
  match decision with
  | none => throw (.internal (.nothingToBranchOn E.strategy.name id fractional))
  | some d =>
    if d.var ∈ E.candidates then return d
    else throw (.internal (.notACandidate E.strategy.name d.var))

/-- Create a child and put it into the frontier. -/
def spawn (id : NodeId) (change : BoundChange F) : SearchM F σ β κ Unit := do
  let (tree, child) ← ofTree ((← get).tree.createChild id change)
  modify fun s => { s with tree }
  let node ← ofTree (tree.node child)
  modify fun s => { s with frontier := s.frontier.pushNode node }
  tally fun t => { t with created := t.created + 1 }

/-- Create the children of a node and close it. -/
def branch (id : NodeId) (x : List F) (fractional : Nat) : SearchM F σ β κ Unit := do
  let d ← select E id x fractional
  d.children.forM (spawn id)
  if d.children.isEmpty then
    emit (.barren id d.var)
    tally fun t => { t with infeasible := t.infeasible + 1 }
    close E id (.pruned .emptyDomain)
  else
    emit (.branched id d d.children.length)
    tally fun t => { t with branched := t.branched + 1 }
    close E id .branched

/-- Close a node whose relaxation is optimal, or branch on it. -/
def settle (id : NodeId) : SearchM F σ β κ Unit := do
  let s ← get
  let node ← ofTree (s.tree.node id)
  if s.dominates node E.settings.tolerance then
    emit (.pruned id node.dualBound)
    tally fun t => { t with pruned := t.pruned + 1 }
    close E id (.pruned .bound)
  else
    match node.answer with
    | some (.optimal x objective) =>
      let split ← ofRead (fractional x E.settings.integrality E.candidates)
      if split.isEmpty then accept E id x objective else branch E id x split.length
    | _ => throw (.internal (.noAnswer id))

/-- Close a node whose relaxation failed.  Too many failures end the search. -/
def writeOff (id : NodeId) (cause : Cause F) : SearchM F σ β κ Unit := do
  tally fun t => { t with solverErrors := t.solverErrors + 1 }
  modify fun s => { s with incomplete := true }
  emit (.failed id cause)
  close E id (.pruned .solverError)
  let s ← get
  if E.settings.maxSolverErrors.any (· < s.statistics.solverErrors) then
    throw (.aborted s.statistics.solverErrors s.statistics.processed s.tracker.best)

/-- Close a solved node by its answer, or branch on it. -/
def dispatch (id : NodeId) : Answer F → SearchM F σ β κ Unit
  | .failed cause => writeOff E id cause
  | .infeasible => do
    emit (.infeasible id)
    tally fun t => { t with infeasible := t.infeasible + 1 }
    close E id (.pruned .infeasible)
  | .unbounded => do
    emit (.unbounded id)
    tally fun t => { t with unbounded := t.unbounded + 1 }
    modify fun s => { s with incomplete := true }
    close E id (.pruned .unbounded)
  | .optimal _ _ => settle E id

/-- Solve a node that nothing rules out, and close it or branch on it. -/
def explore (id : NodeId) (r : Restrictions F) : SearchM F σ β κ Unit := do
  let answer ← relax E id r
  recordAnswer E id answer
  E.callbacks.forM (consult E id r)
  dispatch E id answer

/-- Process a node taken from the frontier. -/
def process (id : NodeId) : SearchM F σ β κ Unit := do
  tally fun t => { t with processed := t.processed + 1 }
  let s ← get
  let node ← ofTree (s.tree.node id)
  tally fun t => { t with maxDepth := max t.maxDepth node.depth }
  if s.dominates node E.settings.tolerance then
    emit (.dominated id node.dualBound)
    tally fun t => { t with pruned := t.pruned + 1 }
    close E id (.pruned .bound)
  else
    let r ← ofTree (s.tree.restrictions id)
    match r.emptyDomain? E.settings.tolerance with
    | some var =>
      emit (.emptyDomain id var)
      tally fun t => { t with infeasible := t.infeasible + 1 }
      close E id (.pruned .emptyDomain)
    | none => explore E id r

/-- Every so many nodes, say how far the search is. -/
def report : SearchM F σ β κ Unit := do
  let s ← get
  let processed := s.statistics.processed
  if processed % E.settings.logEvery = 0 then
    let bound := E.sense.normalize s.bound
    emit (.progress processed s.frontier.size bound s.tracker.objective (s.tracker.gap bound)
      (E.clock processed))

/-- Process the next node.  If there is none, or a limit is reached, the search ends with a
    status. -/
def step : SearchM F σ β κ (Option SearchStatus) := do
  let s ← get
  let processed := s.statistics.processed
  match (Limits.ofSettings E.settings).check (E.clock processed) processed with
  | some reason =>
    emit (.stopped reason processed)
    return some reason.status
  | none =>
    match s.frontier.pop? with
    | none => return some s.exhausted
    | some (key, frontier) =>
      modify fun s => { s with frontier }
      emit (.taken key)
      process E key.id
      report E
      return none

end Milp.Search
