/-
  A search as a sequence of small moves.

  A search is a program that works on a state.  For its invariants it is cut into moves, between
  which every invariant holds.

  * `Stage`: where the search stands between two moves; `Config` adds the state, and the nodes that
    a new incumbent took out of the frontier and that are still to be closed.
  * `Move`: what one move does, and under which conditions it is made.
  * `Concludes`, `Adopts`: the ways of deciding on a node, and of getting a new incumbent.
  * `Fails`: where a search may end with an error, and with which.
-/
import Milp.Search.Step
import Milp.Proofs.Tree
import Mathlib.Logic.Relation

namespace Milp

variable {F σ β κ : Type}

/-- Does a node with this final status stay without proof? -/
def NodeStatus.isUnproven : NodeStatus → Bool
  | pruned .solverError | pruned .unbounded => true
  | _ => false

/-- Count a node that gets this final status. -/
def Statistics.count : NodeStatus → Statistics F → Statistics F
  | .pruned .bound, t => { t with pruned := t.pruned + 1 }
  | .pruned .infeasible, t | .pruned .emptyDomain, t => { t with infeasible := t.infeasible + 1 }
  | .pruned .unbounded, t => { t with unbounded := t.unbounded + 1 }
  | .pruned .solverError, t => { t with solverErrors := t.solverErrors + 1 }
  | .branched, t => { t with branched := t.branched + 1 }
  | _, t => t

@[simp] theorem Statistics.count_created (status : NodeStatus) (t : Statistics F) :
    (t.count status).created = t.created := by
  unfold count
  split <;> rfl

@[simp] theorem Statistics.count_processed (status : NodeStatus) (t : Statistics F) :
    (t.count status).processed = t.processed := by
  unfold count
  split <;> rfl

@[simp] theorem Statistics.count_maxDepth (status : NodeStatus) (t : Statistics F) :
    (t.count status).maxDepth = t.maxDepth := by
  unfold count
  split <;> rfl

@[simp] theorem Statistics.count_incumbentUpdates (status : NodeStatus) (t : Statistics F) :
    (t.count status).incumbentUpdates = t.incumbentUpdates := by
  unfold count
  split <;> rfl

namespace Search

/-- Is this event only for the log? -/
def Event.isRemark : Event F → Bool
  | .started .. | .stopped .. | .improved .. | .progress .. | .finished .. => true
  | _ => false

/-- Where a search stands between two moves. -/
inductive Stage (F κ : Type) where
  /-- Between two nodes. -/
  | idle
  /-- A node was taken from the frontier. -/
  | opened (id : NodeId)
  /-- The relaxation of a node was solved, and its answer is to be recorded. -/
  | relaxed (id : NodeId) (r : Restrictions F) (answer : Answer F)
  /-- A node is to be shown to the callbacks that are left. -/
  | consulting (id : NodeId) (r : Restrictions F) (answer : Answer F) (left : Callbacks F κ)
  /-- A proposal is to be checked. -/
  | weighing (id : NodeId) (r : Restrictions F) (answer : Answer F) (left : Callbacks F κ)
      (name : String) (p : Proposal F)
  /-- A node is branched on, and the children for the changes left are to be created. -/
  | splitting (id : NodeId) (d : Decision F) (left : List (BoundChange F))
  /-- The decision about a node is made, and it is to be closed. -/
  | closing (id : NodeId) (status : NodeStatus)

namespace Stage

/-- The node that is being processed. -/
def current? : Stage F κ → Option NodeId
  | idle => none
  | opened id | relaxed id .. | consulting id .. | weighing id .. | splitting id ..
  | closing id _ => some id

/-- The stage after a callback was asked. -/
def offered (id : NodeId) (r : Restrictions F) (answer : Answer F) (left : Callbacks F κ)
    (name : String) : Option (Proposal F) → Stage F κ
  | none => consulting id r answer left
  | some p => weighing id r answer left name p

end Stage

/-- A search between two moves: its stage, the nodes still to be closed for a new incumbent, and
    its state. -/
structure Config (F σ β κ : Type) where
  stage : Stage F κ
  doomed : List (NodeKey F)
  state : State F σ β κ

/-- Between two nodes. -/
def Config.idle (s : State F σ β κ) : Config F σ β κ := ⟨.idle, [], s⟩

namespace State

/-- An event more. -/
def logged (s : State F σ β κ) (event : Event F) : State F σ β κ :=
  { s with history := event :: s.history }

/-- A node was taken from the frontier. -/
def taken (s : State F σ β κ) (key : NodeKey F) (rest : Frontier F) (node : Node F) :
    State F σ β κ :=
  { s with
    frontier := rest
    statistics := { s.statistics with
      processed := s.statistics.processed + 1
      maxDepth := max s.statistics.maxDepth node.depth }
    history := .taken key :: s.history }

/-- The decision about a node was made. -/
def concluded (s : State F σ β κ) (status : NodeStatus) (events : List (Event F)) :
    State F σ β κ :=
  { s with
    statistics := s.statistics.count status
    incomplete := status.isUnproven || s.incomplete
    history := events ++ s.history }

/-- A node was closed, and the callbacks were told. -/
def closed [Scalar F] (E : Engine F σ β κ) (s : State F σ β κ) (node : Node F)
    (status : NodeStatus) (tree : Tree F) : State F σ β κ :=
  { s with
    tree
    callbacks := E.callbacks.notify (E.record node status) s.callbacks
    history := .closed (E.record node status) :: s.history }

/-- There is a new incumbent, and some pending nodes left the frontier. -/
def adopted (s : State F σ β κ) (tracker : Tracker F) (frontier : Frontier F) (pruned : Nat) :
    State F σ β κ :=
  { s with
    tracker, frontier
    statistics := { s.statistics with
      incumbentUpdates := s.statistics.incumbentUpdates + 1
      pruned := s.statistics.pruned + pruned } }

/-- A child was created. -/
def spawned [Scalar F] (s : State F σ β κ) (tree : Tree F) (node : Node F) : State F σ β κ :=
  { s with
    tree
    frontier := s.frontier.pushNode node
    statistics := { s.statistics with created := s.statistics.created + 1 } }

end State

variable [Extended F] (E : Engine F σ β κ)

/-- What the strategy knows after an answer was recorded at a node. -/
def Engine.learned (node : Node F) (answer : Answer F) (strategy : β) : Except Fault β :=
  match node.parent, node.changes with
  | some _, change :: _ =>
    E.strategy.learn strategy change
      (if answer.isOptimal then some (node.dualBound - node.parentBound) else none)
  | _, _ => .ok strategy

/-- What a strategy is asked about a point. -/
def Engine.query (x : List F) (box : Box F) : BranchQuery F :=
  ⟨x, E.candidates, E.problem, box, E.settings.integrality⟩

/-- The incumbent that the point of a node would be. -/
def State.found (s : State F σ β κ) (id : NodeId) (x : List F) (objective : F) : Incumbent F :=
  ⟨objective, x, .relaxation, id, s.statistics.processed⟩

/-- The incumbent that a proposal would be. -/
def State.proposed (s : State F σ β κ) (id : NodeId) (name : String) (p : Proposal F)
    (objective : F) : Incumbent F :=
  ⟨objective, p.x, .heuristic name, id, s.statistics.processed⟩

/-- The relaxation of a node is optimal, and its bound does not rule it out. -/
def Survives (s : State F σ β κ) (id : NodeId) (x : List F) (objective : F) : Prop :=
  ∃ node, s.tree.get? id = some node ∧ s.dominates node E.settings.tolerance = false ∧
    node.answer = some (.optimal x objective)

/-- A decision about a node: its final status, and what is said of it. -/
inductive Concludes (s : State F σ β κ) :
    Stage F κ → NodeId → NodeStatus → List (Event F) → Prop where
  | dominated {id node} (hnode : s.tree.get? id = some node)
      (h : s.dominates node E.settings.tolerance = true) :
      Concludes s (.opened id) id (.pruned .bound) [.dominated id node.dualBound]
  | emptyDomain {id r var} (hr : s.tree.restrictions id = .ok r)
      (h : r.emptyDomain? E.settings.tolerance = some var) :
      Concludes s (.opened id) id (.pruned .emptyDomain) [.emptyDomain id var]
  | failed {id r cause} :
      Concludes s (.consulting id r (.failed cause) []) id (.pruned .solverError)
        [.failed id cause]
  | infeasible {id r} :
      Concludes s (.consulting id r .infeasible []) id (.pruned .infeasible) [.infeasible id]
  | unbounded {id r} :
      Concludes s (.consulting id r .unbounded []) id (.pruned .unbounded) [.unbounded id]
  | bounded {id r x objective node} (hnode : s.tree.get? id = some node)
      (h : s.dominates node E.settings.tolerance = true) :
      Concludes s (.consulting id r (.optimal x objective) []) id (.pruned .bound)
        [.pruned id node.dualBound]
  | refused {id r answer x objective} (h : Survives E s id x objective)
      (hwhole : fractional x E.settings.integrality E.candidates = .ok [])
      (hupdate : s.tracker.update? (s.found id x objective) E.settings.tolerance = none) :
      Concludes s (.consulting id r answer []) id (.pruned .bound) []
  | barren {id d} (h : d.children = []) :
      Concludes s (.splitting id d []) id (.pruned .emptyDomain) [.barren id d.var]
  | branched {id d} (h : d.children ≠ []) :
      Concludes s (.splitting id d []) id .branched [.branched id d d.children.length]

/-- A point that may become the incumbent, and the stage after that. -/
inductive Adopts (s : State F σ β κ) : Stage F κ → Incumbent F → Stage F κ → Prop where
  | proposed {id r answer left name p objective}
      (hcheck : p.check E.problem E.candidates s.tracker E.settings = .ok (.ok objective)) :
      Adopts s (.weighing id r answer left name p) (s.proposed id name p objective)
        (.consulting id r answer left)
  | accepted {id r answer x objective} (h : Survives E s id x objective)
      (hwhole : fractional x E.settings.integrality E.candidates = .ok []) :
      Adopts s (.consulting id r answer []) (s.found id x objective) (.closing id .accepted)

/-- One move of a search. -/
inductive Move : Config F σ β κ → Config F σ β κ → Prop where
  | remark {stage doomed s event} (h : event.isRemark = true) :
      Move ⟨stage, doomed, s⟩ ⟨stage, doomed, s.logged event⟩
  | take {s key rest node} (hpop : s.frontier.pop? = some (key, rest))
      (hnode : s.tree.get? key.id = some node) :
      Move ⟨.idle, [], s⟩ ⟨.opened key.id, [], s.taken key rest node⟩
  | conclude {s stage id status events} (h : Concludes E s stage id status events) :
      Move ⟨stage, [], s⟩ ⟨.closing id status, [], s.concluded status events⟩
  | relax {s id node r reply} (hnode : s.tree.get? id = some node)
      (hbound : s.dominates node E.settings.tolerance = false)
      (hr : s.tree.restrictions id = .ok r)
      (hdomain : r.emptyDomain? E.settings.tolerance = none)
      (hsolve : E.relaxation.solve s.relaxation r = .ok reply) :
      Move ⟨.opened id, [], s⟩
        ⟨.relaxed id r (reply.answer.check E.problem.vars), [],
          { s with
            relaxation := reply.state
            history := .solved id reply.notes :: s.history }⟩
  | record {s id r answer before node strategy} (hbefore : s.tree.get? id = some before)
      (hrecord : before.record? answer
        (E.sense.normalize (answer.objective?.getD Extended.nan)) = some node)
      (hlearn : E.learned node answer s.strategy = .ok strategy) :
      Move ⟨.relaxed id r answer, [], s⟩
        ⟨.consulting id r answer E.callbacks, [],
          { s with tree := s.tree.modify id fun _ => node, strategy }⟩
  | offer {s id r answer callback left node shown proposal callbacks}
      (hnode : s.tree.get? id = some node) (hanswer : node.answer = some shown)
      (hsolved : callback.onSolved (E.view node shown r s.tracker) E.candidates s.callbacks =
        .ok (proposal, callbacks)) :
      Move ⟨.consulting id r answer (callback :: left), [], s⟩
        ⟨.offered id r answer left callback.name proposal, [],
          { s with
            callbacks
            history := .offered callback.name (E.view node shown r s.tracker) :: s.history }⟩
  | refuse {s id r answer left name p violation}
      (hcheck : p.check E.problem E.candidates s.tracker E.settings = .ok (.error violation)) :
      Move ⟨.weighing id r answer left name p, [], s⟩
        ⟨.consulting id r answer left, [],
          { s with
            statistics := { s.statistics with rejections := s.statistics.rejections + 1 }
            history := .rejected name id violation :: s.history }⟩
  | adopt {s stage candidate next tracker pruned frontier} (h : Adopts E s stage candidate next)
      (hupdate : s.tracker.update? candidate E.settings.tolerance = some tracker)
      (hprune : s.frontier.pruneByBound tracker.normalized E.settings.tolerance =
        (pruned, frontier)) :
      Move ⟨stage, [], s⟩ ⟨next, pruned, s.adopted tracker frontier pruned.length⟩
  | sweep {s stage key doomed node tree released} (hnode : s.tree.get? key.id = some node)
      (hclose : s.tree.close key.id (.pruned .bound) = .ok (tree, released)) :
      Move ⟨stage, key :: doomed, s⟩ ⟨stage, doomed, s.closed E node (.pruned .bound) tree⟩
  | select {s id r answer x objective split restrictions box d strategy}
      (h : Survives E s id x objective)
      (hsplit : fractional x E.settings.integrality E.candidates = .ok split) (hne : split ≠ [])
      (hr : s.tree.restrictions id = .ok restrictions)
      (hbox : restrictions.applyTo E.problem.box = .ok box)
      (hselect : E.strategy.select s.strategy (E.query x box) = .ok (some d, strategy))
      (hvar : d.var ∈ E.candidates) :
      Move ⟨.consulting id r answer [], [], s⟩
        ⟨.splitting id d d.children, [], { s with strategy }⟩
  | spawn {s id d change left tree child node}
      (hcreate : s.tree.createChild id change = .ok (tree, child))
      (hnode : tree.get? child = some node) :
      Move ⟨.splitting id d (change :: left), [], s⟩ ⟨.splitting id d left, [], s.spawned tree node⟩
  | close {s id status node tree released} (hnode : s.tree.get? id = some node)
      (hclose : s.tree.close id status = .ok (tree, released))
      (hgo : status = .pruned .solverError →
        E.settings.maxSolverErrors.any (· < s.statistics.solverErrors) = false) :
      Move ⟨.closing id status, [], s⟩ ⟨.idle, [], s.closed E node status tree⟩

/-- Any number of moves. -/
abbrev Moves : Config F σ β κ → Config F σ β κ → Prop := Relation.ReflTransGen (Move E)

/-- The nodes that a search looks up at this point. -/
def Config.looksUp (c : Config F σ β κ) (id : NodeId) : Prop :=
  match c.doomed, c.stage with
  | key :: _, _ => key.id = id
  | [], .idle => ∃ key rest, c.state.frontier.pop? = some (key, rest) ∧ key.id = id
  | [], stage => stage.current? = some id

/-- A search that cannot go on. -/
inductive Fails : Config F σ β κ → SearchError F → Prop where
  | missing {c id operation} (hlook : c.looksUp id) (h : c.state.tree.get? id = none) :
      Fails c (.internal (.tree (.missing operation id)))
  | vanished {s id r answer} (h : s.tree.get? id = none) :
      Fails ⟨.relaxed id r answer, [], s⟩ (.internal (.vanished id))
  | unrestricted {stage id s error} (hid : stage.current? = some id)
      (h : s.tree.restrictions id = .error error) : Fails ⟨stage, [], s⟩ (.internal (.tree error))
  | unsolved {s id r fault} (hr : s.tree.restrictions id = .ok r)
      (h : E.relaxation.solve s.relaxation r = .error fault) :
      Fails ⟨.opened id, [], s⟩ (.fault fault)
  | solvedTwice {s id r answer before} (hbefore : s.tree.get? id = some before)
      (h : before.record? answer
        (E.sense.normalize (answer.objective?.getD Extended.nan)) = none) :
      Fails ⟨.relaxed id r answer, [], s⟩ (.internal (.solvedTwice id))
  | unlearned {s id r answer node fault} (h : E.learned node answer s.strategy = .error fault) :
      Fails ⟨.relaxed id r answer, [], s⟩ (.fault fault)
  | unanswered {s id r answer left node} (hnode : s.tree.get? id = some node)
      (h : node.answer = none) :
      Fails ⟨.consulting id r answer left, [], s⟩ (.internal (.noAnswer id))
  | notOptimal {s id r x objective node} (hnode : s.tree.get? id = some node)
      (h : ∀ y value, node.answer ≠ some (.optimal y value)) :
      Fails ⟨.consulting id r (.optimal x objective) [], [], s⟩ (.internal (.noAnswer id))
  | callback {s id r answer callback left view fault}
      (h : callback.onSolved view E.candidates s.callbacks = .error fault) :
      Fails ⟨.consulting id r answer (callback :: left), [], s⟩ (.fault fault)
  | unchecked {s id r answer left name p fault}
      (h : p.check E.problem E.candidates s.tracker E.settings = .error fault) :
      Fails ⟨.weighing id r answer left name p, [], s⟩ (.fault fault)
  | unread {s id r answer x objective fault} (h : Survives E s id x objective)
      (hread : fractional x E.settings.integrality E.candidates = .error fault) :
      Fails ⟨.consulting id r answer [], [], s⟩ (.fault fault)
  | boxless {s id r answer restrictions fault} (hr : s.tree.restrictions id = .ok restrictions)
      (h : restrictions.applyTo E.problem.box = .error fault) :
      Fails ⟨.consulting id r answer [], [], s⟩ (.fault fault)
  | unselected {s id r answer x objective restrictions box fault} (h : Survives E s id x objective)
      (hr : s.tree.restrictions id = .ok restrictions)
      (hbox : restrictions.applyTo E.problem.box = .ok box)
      (hselect : E.strategy.select s.strategy (E.query x box) = .error fault) :
      Fails ⟨.consulting id r answer [], [], s⟩ (.fault fault)
  | undecided {s id r answer x objective split restrictions box strategy}
      (h : Survives E s id x objective)
      (hsplit : fractional x E.settings.integrality E.candidates = .ok split) (hne : split ≠ [])
      (hr : s.tree.restrictions id = .ok restrictions)
      (hbox : restrictions.applyTo E.problem.box = .ok box)
      (hselect : E.strategy.select s.strategy (E.query x box) = .ok (none, strategy)) :
      Fails ⟨.consulting id r answer [], [], s⟩
        (.internal (.nothingToBranchOn E.strategy.name id split.length))
  | notACandidate {s id r answer x objective restrictions box d strategy}
      (h : Survives E s id x objective) (hr : s.tree.restrictions id = .ok restrictions)
      (hbox : restrictions.applyTo E.problem.box = .ok box)
      (hselect : E.strategy.select s.strategy (E.query x box) = .ok (some d, strategy))
      (hvar : d.var ∉ E.candidates) :
      Fails ⟨.consulting id r answer [], [], s⟩
        (.internal (.notACandidate E.strategy.name d.var))
  | aborted {s id node tree released} (hnode : s.tree.get? id = some node)
      (hclose : s.tree.close id (.pruned .solverError) = .ok (tree, released))
      (h : E.settings.maxSolverErrors.any (· < s.statistics.solverErrors) = true) :
      Fails ⟨.closing id (.pruned .solverError), [], s⟩
        (.aborted s.statistics.solverErrors s.statistics.processed s.tracker.best)

end Search

end Milp
