/-
  When callbacks are called, and what they are shown.

  A node whose relaxation was solved is shown to the callbacks, one after the other, and a closed
  node is reported to all of them.  The calls for different nodes are mixed: what one callback
  proposes may close pending nodes before the next one is asked.

  * `Engine.Asked`: the states in which the callbacks are asked about a node, one after the other.
  * `Engine.Presents`: what a view says of its node.
  * `Config.Protocol`: which calls were made so far.
  * `Config.Attended`: the invariant behind it; `Move.attended`: every move keeps it.
  * `solve_protocol`: every search keeps to the protocol.
-/
import Milp.Proofs.Calls
import Milp.Proofs.Inheritance
import Milp.Proofs.Trace
import Milp.Proofs.Triage

namespace Milp.Search

variable {F σ β κ : Type}

/-! ## Asking about a node -/

variable [Extended F]

section Asking

variable (E : Engine F σ β κ) (start : State F σ β κ)

/-- The incumbent after what a callback proposed was weighed. -/
def Engine.weighed (s : State F σ β κ) (id : NodeId) (name : String) :
    Option (Proposal F) → Except Fault (Tracker F)
  | none => .ok s.tracker
  | some p => do
    match ← p.check E.problem E.candidates s.tracker E.settings with
    | .ok objective =>
      let candidate := s.proposed id name p objective
      return (s.tracker.update? candidate E.settings.tolerance).getD s.tracker
    | .error _ => return s.tracker

/-- On the way to this history the relaxation was solved for these restrictions of a node, and this
    is its answer, after its check. -/
def Engine.Replied (history : List (Event F)) (id : NodeId) (r : Restrictions F)
    (answer : Answer F) : Prop :=
  ∃ s reply, Moves E (.idle start) ⟨.opened id, [], s⟩ ∧ s.tree.restrictions id = .ok r ∧
    E.relaxation.solve s.relaxation r = .ok reply ∧ answer = reply.answer.check E.problem.vars ∧
    (.solved id reply.notes :: s.history) <:+ history

/-- The search is in this state, and the first so many callbacks were shown this node and had what
    they proposed weighed.  Nothing else changed the incumbent meanwhile. -/
inductive Engine.Asked (id : NodeId) (r : Restrictions F) (answer : Answer F) :
    Nat → State F σ β κ → Prop where
  | first {doomed s}
      (hreached : Moves E (.idle start) ⟨.consulting id r answer E.callbacks, doomed, s⟩) :
      Asked id r answer 0 s
  | next {place callback before node proposal callbacks doomed s}
      (h : Asked id r answer place before) (hcallback : E.callbacks[place]? = some callback)
      (hnode : before.tree.get? id = some node)
      (hsolved : callback.onSolved (E.view node answer r before.tracker) E.candidates
        before.callbacks = .ok (proposal, callbacks))
      (hweighed : E.weighed before id callback.name proposal = .ok s.tracker)
      (hhistory : .offered callback.name (E.view node answer r before.tracker) :: before.history <:+
        s.history)
      (hreached : Moves E (.idle start)
        ⟨.consulting id r answer (E.callbacks.drop (place + 1)), doomed, s⟩) :
      Asked id r answer (place + 1) s

/-- What a callback is shown of a node, after these events. -/
structure Engine.Presents (earlier : List (Event F)) (name : String) (view : View F) : Prop where
  /-- The callbacks before this one were shown the node, and the others were not. -/
  callback : ∃ callback, E.callbacks[earlier.countP (Event.shows view.id)]? = some callback ∧
    callback.name = name
  /-- The answer is that of the relaxation for these restrictions, after its check. -/
  replied : E.Replied start earlier view.id view.restrictions view.answer
  /-- The node is not closed yet. -/
  pending : ∀ record, .closed record ∈ earlier → record.id ≠ view.id
  /-- The parent was closed with the bound that the node inherited. -/
  inherits : match view.parent with
    | none => view.id = 0 ∧ view.depth = 0 ∧
      view.parentBound = E.sense.normalize (-Extended.infinity)
    | some parent => ∃ record, .closed record ∈ earlier ∧ record.id = parent ∧
      record.status = .branched ∧ view.depth = record.depth + 1 ∧
      view.parentBound = record.dualBound
  /-- Parent, depth and restrictions are those in the tree, and the incumbent is the one after the
      callbacks before this one. -/
  asked : ∃ s node, s.history = earlier ∧
    E.Asked start view.id view.restrictions view.answer (earlier.countP (Event.shows view.id)) s ∧
    s.tree.get? view.id = some node ∧ view.parent = node.parent ∧ view.depth = node.depth ∧
    s.tree.restrictions view.id = .ok view.restrictions ∧
    view.incumbent = s.tracker.best.map Incumbent.objective

/-- The current node was solved, and the callbacks before those that are left were asked about it. -/
def Stage.Attends (s : State F σ β κ) : Stage F κ → Prop
  | relaxed id r answer => E.Replied start s.history id r answer
  | consulting id r answer left => E.Replied start s.history id r answer ∧
      ∃ place, left = E.callbacks.drop place ∧ E.Asked start id r answer place s
  | weighing id r answer left name p => E.Replied start s.history id r answer ∧
      ∃ place, left = E.callbacks.drop (place + 1) ∧
        ∀ {doomed s'}, Moves E (.idle start) ⟨.consulting id r answer left, doomed, s'⟩ →
          E.weighed s id name (some p) = .ok s'.tracker → s.history <:+ s'.history →
            E.Asked start id r answer (place + 1) s'
  | _ => True

end Asking

variable {E : Engine F σ β κ} {start s s' : State F σ β κ} {c c' : Config F σ β κ}

theorem Engine.Replied.mono {history history' : List (Event F)} {id : NodeId} {r : Restrictions F}
    {answer : Answer F} (h : E.Replied start history id r answer) (hhistory : history <:+ history') :
    E.Replied start history' id r answer := by
  obtain ⟨s, reply, hmoves, hr, hsolve, hanswer, hsuffix⟩ := h
  exact ⟨s, reply, hmoves, hr, hsolve, hanswer, hsuffix.trans hhistory⟩

/-- What comes of a proposal depends on the incumbent and the number of processed nodes. -/
theorem Engine.weighed_congr (htracker : s'.tracker = s.tracker)
    (hprocessed : s'.statistics.processed = s.statistics.processed) (id : NodeId) (name : String)
    (p : Option (Proposal F)) : E.weighed s' id name p = E.weighed s id name p := by
  cases p <;> simp only [weighed, State.proposed, htracker, hprocessed]

theorem Engine.weighed_refused {id : NodeId} {name : String} {p : Proposal F}
    {violation : Violation F}
    (hcheck : p.check E.problem E.candidates s.tracker E.settings = .ok (.error violation)) :
    E.weighed s id name (some p) = .ok s.tracker := by
  simp only [weighed, hcheck]
  rfl

theorem Engine.weighed_adopted {id : NodeId} {name : String} {p : Proposal F} {objective : F}
    {tracker : Tracker F}
    (hcheck : p.check E.problem E.candidates s.tracker E.settings = .ok (.ok objective))
    (hupdate : s.tracker.update? (s.proposed id name p objective) E.settings.tolerance =
      some tracker) : E.weighed s id name (some p) = .ok tracker := by
  simp only [weighed, hcheck, bind, Except.bind, hupdate]
  rfl

/-- What was replied to was solved. -/
theorem Engine.Replied.mem_solvedIds {id : NodeId} {r : Restrictions F} {answer : Answer F}
    (h : E.Replied start s.history id r answer) : id ∈ s.solvedIds := by
  obtain ⟨_, reply, -, -, -, -, hsuffix⟩ := h
  exact List.mem_filterMap.2 ⟨_, hsuffix.subset List.mem_cons_self, rfl⟩

/-- More events, with the same incumbent. -/
theorem Engine.Asked.of_tracker_eq {id : NodeId} {r : Restrictions F} {answer : Answer F}
    {place : Nat} {doomed : List (NodeKey F)} (h : E.Asked start id r answer place s)
    (hreached : Moves E (.idle start)
      ⟨.consulting id r answer (E.callbacks.drop place), doomed, s'⟩)
    (htracker : s'.tracker = s.tracker) (hhistory : s.history <:+ s'.history) :
    E.Asked start id r answer place s' := by
  cases h with
  | first => exact .first hreached
  | next h hcallback hnode hsolved hweighed hsuffix =>
    exact .next h hcallback hnode hsolved (htracker ▸ hweighed) (hsuffix.trans hhistory) hreached

namespace Stage.Attends

/-- More events about other nodes. -/
theorem of_tracker_eq {stage : Stage F κ} {doomed : List (NodeKey F)}
    (h : stage.Attends E start s) (hreached : Moves E (.idle start) ⟨stage, doomed, s'⟩)
    (htracker : s'.tracker = s.tracker)
    (hprocessed : s'.statistics.processed = s.statistics.processed)
    (hhistory : s.history <:+ s'.history) : stage.Attends E start s' := by
  cases stage with
  | relaxed => exact Engine.Replied.mono h hhistory
  | consulting id r answer left =>
    obtain ⟨hreplied, place, rfl, hasked⟩ := h
    exact ⟨hreplied.mono hhistory, place, rfl, hasked.of_tracker_eq hreached htracker hhistory⟩
  | weighing id r answer left name p =>
    obtain ⟨hreplied, place, hleft, hasked⟩ := h
    refine ⟨hreplied.mono hhistory, place, hleft, fun hmoves hweighed hsuffix => ?_⟩
    rw [Engine.weighed_congr htracker hprocessed] at hweighed
    exact hasked hmoves hweighed (hhistory.trans hsuffix)
  | _ => trivial

/-- A callback is asked. -/
theorem offer {id : NodeId} {r : Restrictions F} {answer : Answer F} {callback : Callback F κ}
    {left : Callbacks F κ} {node : Node F} {proposal : Option (Proposal F)} {callbacks : κ}
    (h : (Stage.consulting id r answer (callback :: left)).Attends E start s)
    (hnode : s.tree.get? id = some node)
    (hsolved : callback.onSolved (E.view node answer r s.tracker) E.candidates s.callbacks =
      .ok (proposal, callbacks))
    (hreached : Moves E (.idle start) ⟨.offered id r answer left callback.name proposal, [],
      { s with
        callbacks
        history := .offered callback.name (E.view node answer r s.tracker) :: s.history }⟩) :
    (Stage.offered id r answer left callback.name proposal).Attends E start
      { s with
        callbacks
        history := .offered callback.name (E.view node answer r s.tracker) :: s.history } := by
  obtain ⟨hreplied, place, hleft, hasked⟩ := h
  have hcallback : E.callbacks[place]? = some callback := by
    rw [← List.head?_drop, ← hleft, List.head?_cons]
  obtain rfl : left = E.callbacks.drop (place + 1) := by
    rw [← List.tail_drop, ← hleft, List.tail_cons]
  rcases proposal with _ | p
  · exact ⟨hreplied.mono (List.suffix_cons _ _), place + 1, rfl,
      .next hasked hcallback hnode hsolved rfl (List.suffix_refl _) hreached⟩
  · exact ⟨hreplied.mono (List.suffix_cons _ _), place, rfl, fun hmoves hweighed hsuffix =>
      .next hasked hcallback hnode hsolved hweighed hsuffix hmoves⟩

/-- The proposal of a callback was weighed. -/
theorem weighed {id : NodeId} {r : Restrictions F} {answer : Answer F} {left : Callbacks F κ}
    {name : String} {p : Proposal F} {doomed : List (NodeKey F)}
    (h : (Stage.weighing id r answer left name p).Attends E start s)
    (hreached : Moves E (.idle start) ⟨.consulting id r answer left, doomed, s'⟩)
    (hweighed : E.weighed s id name (some p) = .ok s'.tracker)
    (hhistory : s.history <:+ s'.history) :
    (Stage.consulting id r answer left).Attends E start s' := by
  obtain ⟨hreplied, place, rfl, hasked⟩ := h
  exact ⟨hreplied.mono hhistory, place + 1, rfl, hasked hreached hweighed hhistory⟩

end Stage.Attends

/-- Every move keeps track of the callbacks that were asked. -/
theorem Move.attends (h : Move E c c') (hreached : Moves E (.idle start) c) (hc : c.Coherent)
    (hstage : c.stage.Attends E start c.state) : c'.stage.Attends E start c'.state := by
  have hreached' := hreached.tail h
  cases h with
  | remark | sweep => exact hstage.of_tracker_eq hreached' rfl rfl (List.suffix_cons _ _)
  | relax hnode hbound hr hdomain hsolve =>
    exact ⟨_, _, hreached, hr, hsolve, rfl, List.suffix_refl _⟩
  | record => exact ⟨hstage, 0, rfl, .first hreached'⟩
  | @offer s id r answer callback left node shown proposal callbacks hnode hanswer hsolved =>
    obtain ⟨-, fresh, hfresh, -, hsame⟩ := hc.fits
    cases hnode.symm.trans hfresh
    cases hanswer.symm.trans hsame
    exact hstage.offer hnode hsolved hreached'
  | refuse hcheck =>
    exact hstage.weighed hreached' (Engine.weighed_refused hcheck) (List.suffix_cons _ _)
  | adopt h hupdate hprune =>
    cases h with
    | accepted => trivial
    | proposed hcheck =>
      exact hstage.weighed hreached' (Engine.weighed_adopted hcheck hupdate) (List.suffix_refl _)
  | _ => trivial

/-! ## The protocol -/

/-- The number of callbacks that are still to be asked about a node. -/
def Stage.unasked (E : Engine F σ β κ) : Stage F κ → NodeId → Nat
  | relaxed id .., other => if other = id then E.callbacks.length else 0
  | consulting id _ _ left, other | weighing id _ _ left .., other =>
    if other = id then left.length else 0
  | _, _ => 0

omit [Extended F] in
/-- Only about the current node callbacks are still to be asked. -/
theorem Stage.unasked_eq_zero {stage : Stage F κ} {id : NodeId} (h : stage.current? ≠ some id) :
    stage.unasked E id = 0 := by
  cases stage with
  | relaxed | consulting | weighing => exact if_neg fun heq => h (congrArg some heq.symm)
  | _ => rfl

omit [Extended F] in
theorem Stage.unasked_offered {id other : NodeId} {r : Restrictions F} {answer : Answer F}
    {left : Callbacks F κ} {name : String} {proposal : Option (Proposal F)} :
    (Stage.offered id r answer left name proposal).unasked E other =
      if other = id then left.length else 0 := by
  cases proposal <;> rfl

/-- Which calls were made so far.  Between two nodes there is no current node, and no callback is
    still to be asked. -/
structure Config.Protocol (E : Engine F σ β κ) (start : State F σ β κ) (c : Config F σ β κ) :
    Prop where
  /-- The callbacks are in the state in which these calls leave them. -/
  replay : E.replay (E.calls c.state.history) start.callbacks = .ok c.state.callbacks
  /-- A node whose relaxation was solved is shown to every callback once, in their order.  No other
      node is shown to a callback. -/
  shown : ∀ id, (E.calls c.state.history).filterMap (Call.shown? id) =
    if id ∈ c.state.solvedIds then List.range (E.callbacks.length - c.stage.unasked E id) else []
  /-- A closed node is reported to every callback once, in their order.  No other node is. -/
  reported : ∀ id, (E.calls c.state.history).filterMap (Call.reported? id) =
    if id ∈ c.state.trace.map Record.id then List.range E.callbacks.length else []
  /-- No callback is still to be asked about a node that is closed, -/
  asked : ∀ id ∈ c.state.trace.map Record.id, c.stage.unasked E id = 0
  /-- and none was asked about it later. -/
  inOrder : (E.calls c.state.history).Pairwise Call.InOrder
  /-- Every node whose relaxation was solved is closed, except for the current one. -/
  closed : ∀ id ∈ c.state.solvedIds, id ∈ c.state.trace.map Record.id ∨ c.stage.current? = some id
  /-- A node that was ruled out before its relaxation was solved, or never taken from the frontier,
      is not among those whose relaxation was solved. -/
  unsolved : ∀ id, (∃ bound, .dominated id bound ∈ c.state.history) ∨
    (∃ var, .emptyDomain id var ∈ c.state.history) ∨ id ∉ c.state.takenIds →
      id ∉ c.state.solvedIds
  /-- What a new incumbent takes out of the frontier was never taken from it before. -/
  doomed : ∀ key ∈ c.doomed, key.id ∉ c.state.takenIds
  /-- No other nodes are closed. -/
  fates : ∀ record ∈ c.state.trace, record.id ∈ c.state.solvedIds ∨
    (∃ bound, .dominated record.id bound ∈ c.state.history) ∨
    (∃ var, .emptyDomain record.id var ∈ c.state.history) ∨
    record.id ∉ c.state.takenIds ∧ record.status = .pruned .bound
  presents : ∀ {name view earlier}, .offered name view :: earlier <:+ c.state.history →
    E.Presents start earlier name view

/-- What every move keeps. -/
structure Config.Attended (E : Engine F σ β κ) (start : State F σ β κ) (c : Config F σ β κ) :
    Prop where
  chronicled : c.Chronicled
  inherited : c.Inherited E
  triaged : c.Triaged
  replay : E.replay (E.calls c.state.history) start.callbacks = .ok c.state.callbacks
  /-- Every callback was asked about a node that was solved, or is still to be asked. -/
  balance : ∀ id, c.state.history.countP (Event.shows id) + c.stage.unasked E id =
    if id ∈ c.state.solvedIds then E.callbacks.length else 0
  attends : c.stage.Attends E start c.state
  presents : ∀ {name view earlier}, .offered name view :: earlier <:+ c.state.history →
    E.Presents start earlier name view

namespace Config.Attended

/-- A move that calls no callback. -/
theorem of_isQuiet (hc : c.Attended E start) (events : List (Event F)) (h : Move E c c')
    (hreached : Moves E (.idle start) c) (hhistory : c'.state.history = events ++ c.state.history)
    (hquiet : ∀ event ∈ events, event.isQuiet = true)
    (hcallbacks : c'.state.callbacks = c.state.callbacks)
    (hbalance : ∀ id,
      c'.stage.unasked E id + (if id ∈ c.state.solvedIds then E.callbacks.length else 0) =
        c.stage.unasked E id + if id ∈ c'.state.solvedIds then E.callbacks.length else 0) :
    c'.Attended E start where
  chronicled := h.chronicled hc.chronicled
  inherited := h.inherited hc.chronicled hc.inherited
  triaged := h.triaged hc.chronicled hc.triaged
  replay := by
    rw [hhistory, Engine.calls_of_isQuiet hquiet, hcallbacks]
    exact hc.replay
  balance id := by
    have hbefore := hc.balance id
    have hafter := hbalance id
    rw [hhistory, countP_of_isQuiet hquiet]
    omega
  attends := h.attends hreached hc.chronicled.tidy.coherent hc.attends
  presents hsuffix := hc.presents (suffix_of_isQuiet hquiet (hhistory ▸ hsuffix))

/-- A node is closed, and reported to all callbacks. -/
theorem of_closed {node : Node F} {status : NodeStatus} {tree : Tree F} (hc : c.Attended E start)
    (hchronicled : c'.Chronicled) (hinherited : c'.Inherited E) (htriaged : c'.Triaged)
    (hstate : c'.state = c.state.closed E node status tree)
    (hunasked : ∀ id, c'.stage.unasked E id = c.stage.unasked E id)
    (hattends : c'.stage.Attends E start c'.state) : c'.Attended E start where
  chronicled := hchronicled
  inherited := hinherited
  triaged := htriaged
  replay := by
    rw [hstate]
    show E.replay (E.calls c.state.history ++ _) _ = _
    rw [Engine.replay_append, hc.replay]
    exact Engine.replay_reports ..
  balance id := by
    rw [hstate, hunasked]
    exact hc.balance id
  attends := hattends
  presents hsuffix := by
    rw [hstate] at hsuffix
    rcases List.suffix_cons_iff.1 hsuffix with heq | hsuffix
    · cases heq
    · exact hc.presents hsuffix

/-- As many callbacks were asked about the current node as come before those that are left. -/
theorem asked {id : NodeId} {r : Restrictions F} {answer : Answer F} {callback : Callback F κ}
    {left : Callbacks F κ}
    (hc : Config.Attended E start ⟨.consulting id r answer (callback :: left), [], s⟩) :
    E.callbacks[s.history.countP (Event.shows id)]? = some callback ∧
      E.Asked start id r answer (s.history.countP (Event.shows id)) s := by
  obtain ⟨hreplied, place, hleft, hasked⟩ := hc.attends
  have hbalance : s.history.countP (Event.shows id) + (if id = id then (callback :: left).length
      else 0) = if id ∈ s.solvedIds then E.callbacks.length else 0 := hc.balance id
  rw [if_pos rfl, if_pos hreplied.mem_solvedIds, hleft, List.length_drop] at hbalance
  have hlength := congrArg List.length hleft
  rw [List.length_drop, List.length_cons] at hlength
  have hplace : s.history.countP (Event.shows id) = place := by omega
  rw [hplace, ← List.head?_drop, ← hleft, List.head?_cons]
  exact ⟨rfl, hasked⟩

/-- What the next callback is shown of the current node. -/
theorem presents_view {id : NodeId} {r : Restrictions F} {answer : Answer F}
    {callback : Callback F κ} {left : Callbacks F κ} {node : Node F}
    (hc : Config.Attended E start ⟨.consulting id r answer (callback :: left), [], s⟩)
    (hnode : s.tree.get? id = some node) :
    E.Presents start s.history callback.name (E.view node answer r s.tracker) := by
  obtain rfl : node.id = id := hc.chronicled.tidy.coherent.id_eq hnode
  obtain ⟨hcallback, hasked⟩ := hc.asked
  constructor
  · exact ⟨callback, hcallback, rfl⟩
  · exact hc.attends.1
  · intro record hrecord heq
    refine hc.chronicled.not_open (List.mem_filterMap.2 ⟨_, hrecord, rfl⟩) ?_
    rw [heq]
    exact mem_openIds_of_current rfl
  · show match node.parent with
      | none => node.id = 0 ∧ node.depth = 0 ∧
        E.sense.normalize node.parentBound = E.sense.normalize (-Extended.infinity)
      | some parent => ∃ record, .closed record ∈ s.history ∧ record.id = parent ∧
        record.status = .branched ∧ node.depth = record.depth + 1 ∧
        E.sense.normalize node.parentBound = record.dualBound
    cases hparent : node.parent with
    | none =>
      obtain ⟨hzero, hdepth⟩ := hc.chronicled.graded.root hnode hparent
      exact ⟨hzero, hdepth, congrArg _ (hc.inherited.inherits.root hnode hparent)⟩
    | some parent =>
      obtain ⟨record, hmem, hrest⟩ :=
        hc.inherited.parent_record hc.chronicled hnode hparent (fun h => h)
      obtain ⟨event, hevent, hrecord⟩ := List.mem_filterMap.1 hmem
      refine ⟨record, ?_, hrest⟩
      cases event <;> cases hrecord
      exact hevent
  · exact ⟨s, node, rfl, hasked, hnode, rfl, rfl, hc.chronicled.tidy.coherent.fits.1, rfl⟩

/-- A callback is shown the current node. -/
theorem offer {id : NodeId} {r : Restrictions F} {answer : Answer F}
    {callback : Callback F κ} {left : Callbacks F κ} {node : Node F}
    {proposal : Option (Proposal F)} {callbacks : κ}
    (hc : Config.Attended E start ⟨.consulting id r answer (callback :: left), [], s⟩)
    (hreached : Moves E (.idle start) ⟨.consulting id r answer (callback :: left), [], s⟩)
    (hnode : s.tree.get? id = some node) (hanswer : node.answer = some answer)
    (hsolved : callback.onSolved (E.view node answer r s.tracker) E.candidates s.callbacks =
      .ok (proposal, callbacks)) :
    Config.Attended E start ⟨.offered id r answer left callback.name proposal, [],
      { s with
        callbacks
        history := .offered callback.name (E.view node answer r s.tracker) :: s.history }⟩ := by
  have h : Move E ⟨.consulting id r answer (callback :: left), [], s⟩ _ :=
    .offer hnode hanswer hsolved
  obtain rfl : node.id = id := hc.chronicled.tidy.coherent.id_eq hnode
  have hpresents := hc.presents_view hnode
  constructor
  · exact h.chronicled hc.chronicled
  · exact h.inherited hc.chronicled hc.inherited
  · exact h.triaged hc.chronicled hc.triaged
  · show E.replay (E.calls s.history ++ [.solved (s.history.countP (Event.shows node.id)) _]) _ = _
    rw [Engine.replay_append, hc.replay]
    show Except.bind (Except.map Prod.snd (E.callbacks.invoke _ _ _ s.callbacks)) _ = _
    rw [Callbacks.invoke, hc.asked.1]
    simp only [hsolved]
    rfl
  · intro other
    have hbalance : s.history.countP (Event.shows other) +
        (if other = node.id then left.length + 1 else 0) =
          if other ∈ s.solvedIds then E.callbacks.length else 0 := hc.balance other
    have hcount : (Event.offered callback.name (E.view node answer r s.tracker) ::
        s.history).countP (Event.shows other) =
          s.history.countP (Event.shows other) + if other = node.id then 1 else 0 := by
      simp only [List.countP_cons, Event.shows, Engine.view, decide_eq_true_eq, @eq_comm _ other]
    rw [Stage.unasked_offered, hcount]
    show _ = if other ∈ s.solvedIds then E.callbacks.length else 0
    rw [← hbalance]
    split <;> omega
  · exact h.attends hreached hc.chronicled.tidy.coherent hc.attends
  · intro name view earlier hsuffix
    rcases List.suffix_cons_iff.1 hsuffix with heq | hsuffix
    · cases heq
      exact hpresents
    · exact hc.presents hsuffix

/-- The relaxation of the current node is solved. -/
theorem relax {id : NodeId} {node : Node F} {r : Restrictions F} {reply : Reply F σ}
    (hc : Config.Attended E start ⟨.opened id, [], s⟩)
    (hreached : Moves E (.idle start) ⟨.opened id, [], s⟩) (hnode : s.tree.get? id = some node)
    (hbound : s.dominates node E.settings.tolerance = false) (hr : s.tree.restrictions id = .ok r)
    (hdomain : r.emptyDomain? E.settings.tolerance = none)
    (hsolve : E.relaxation.solve s.relaxation r = .ok reply) :
    Config.Attended E start ⟨.relaxed id r (reply.answer.check E.problem.vars), [],
      { s with
        relaxation := reply.state
        history := .solved id reply.notes :: s.history }⟩ := by
  refine hc.of_isQuiet [.solved id reply.notes] (.relax hnode hbound hr hdomain hsolve) hreached rfl
    (by simp [Event.isQuiet]) rfl fun other => ?_
  show (if other = id then E.callbacks.length else 0) +
      (if other ∈ s.solvedIds then E.callbacks.length else 0) =
    0 + if other ∈ id :: s.solvedIds then E.callbacks.length else 0
  by_cases hid : other = id
  · subst hid
    have hnew : other ∉ s.solvedIds := fun hmem =>
      (hc.triaged.opened other rfl).2 (State.mem_examinedIds_of_solved hmem)
    simp [hnew]
  · simp [hid]

end Config.Attended

theorem Move.attended (h : Move E c c') (hreached : Moves E (.idle start) c)
    (hc : c.Attended E start) : c'.Attended E start := by
  have hmove := h
  have hcoherent := hc.chronicled.tidy.coherent
  have hattends := h.attends hreached hcoherent hc.attends
  cases h with
  | @remark stage doomed s event h =>
    refine hc.of_isQuiet [event] hmove hreached rfl ?_ rfl fun id => ?_
    · simpa using Event.isQuiet_of_isRemark h
    · simp [State.solvedIds, State.logged, (Event.silent_of_isRemark h).2]
  | @take s key rest node hpop hnode =>
    exact hc.of_isQuiet [.taken key] hmove hreached rfl (by simp [Event.isQuiet]) rfl
      fun _ => rfl
  | @conclude s stage id status events h =>
    refine hc.of_isQuiet events hmove hreached rfl ?_ rfl fun other => ?_
    · cases h <;> simp [Event.isQuiet]
    · simp only [State.solvedIds, State.concluded, List.filterMap_append, h.silent.2,
        List.nil_append]
      cases h <;> simp [Stage.unasked]
  | relax hnode hbound hr hdomain hsolve =>
    exact hc.relax hreached hnode hbound hr hdomain hsolve
  | @offer s id r answer callback left node shown proposal callbacks hnode hanswer hsolved =>
    obtain ⟨-, fresh, hfresh, -, hsame⟩ := hcoherent.fits
    cases hnode.symm.trans hfresh
    cases hanswer.symm.trans hsame
    exact hc.offer hreached hnode hanswer hsolved
  | @refuse s id r answer left name p violation hcheck =>
    exact hc.of_isQuiet [.rejected name id violation] hmove hreached rfl
      (by simp [Event.isQuiet]) rfl fun _ => rfl
  | adopt h =>
    refine hc.of_isQuiet [] hmove hreached rfl (by simp) rfl fun id => ?_
    cases h <;> simp [Stage.unasked, State.solvedIds, State.adopted]
  | select =>
    refine hc.of_isQuiet [] hmove hreached rfl (by simp) rfl fun id => ?_
    simp [Stage.unasked, State.solvedIds]
  | sweep | close =>
    exact hc.of_closed (hmove.chronicled hc.chronicled)
      (hmove.inherited hc.chronicled hc.inherited) (hmove.triaged hc.chronicled hc.triaged) rfl
      (fun _ => rfl) hattends
  | _ =>
    exact hc.of_isQuiet [] hmove hreached rfl (by simp) rfl fun _ => rfl

theorem Moves.attended (h : Moves E (.idle start) c) (hstart : (Config.idle start).Attended E start) :
    c.Attended E start := by
  induction h with
  | refl => exact hstart
  | tail hmoves hmove ih => exact hmove.attended hmoves ih

theorem Config.attended_initial (E : Engine F σ β κ) (relaxation : σ) (strategy : β)
    (callbacks : κ) : (Config.idle (State.initial E relaxation strategy callbacks)).Attended E
      (State.initial E relaxation strategy callbacks) where
  chronicled := Config.chronicled_initial E relaxation strategy callbacks
  inherited := Config.inherited_initial E relaxation strategy callbacks
  triaged := Config.triaged_initial E relaxation strategy callbacks
  replay := rfl
  balance _ := rfl
  attends := trivial
  presents h := nomatch List.eq_nil_of_suffix_nil h

omit [Extended F] in
theorem State.mem_trace_ids {id : NodeId} :
    id ∈ s.trace.map Record.id ↔ id ∈ s.records.map Record.id := by
  rw [State.trace, List.map_reverse, List.mem_reverse]

/-- What the invariant says of the calls. -/
theorem Config.Attended.protocol (hc : c.Attended E start) : c.Protocol E start := by
  constructor
  · exact hc.replay
  · intro id
    have hbalance := hc.balance id
    rw [Engine.shown_calls]
    split <;> rename_i hsolved <;> simp only [hsolved, if_true, if_false] at hbalance
    · rw [← hbalance, Nat.add_sub_cancel]
    · rw [Nat.eq_zero_of_add_eq_zero_right hbalance]
      rfl
  · intro id
    have hnodup := hc.chronicled.perm.nodup_iff.2 List.nodup_range
    rw [Engine.reported_calls (List.nodup_append.1 hnodup).1]
    simp only [State.mem_trace_ids]
    rfl
  · intro id hid
    obtain ⟨record, hrecord, rfl⟩ := List.mem_map.1 (State.mem_trace_ids.1 hid)
    refine Stage.unasked_eq_zero fun hcurrent => ?_
    exact hc.chronicled.not_open hrecord (mem_openIds_of_current hcurrent)
  · exact Engine.calls_inOrder fun h => (hc.presents h).pending
  · intro id hsolved
    exact (hc.triaged.closed_or_current hc.chronicled (hc.triaged.taken_of_solved hsolved)).imp_left
      State.mem_trace_ids.2
  · rintro id (⟨bound, h⟩ | ⟨var, h⟩ | huntaken)
    · exact hc.triaged.not_solved h rfl rfl
    · exact hc.triaged.not_solved h rfl rfl
    · exact fun hsolved => huntaken (hc.triaged.taken_of_solved hsolved)
  · intro key hkey
    exact hc.triaged.not_taken (List.mem_map_of_mem (List.mem_append_right _ hkey))
  · exact fun record hrecord => hc.triaged.fate (List.mem_reverse.1 hrecord)
  · exact hc.presents

/-- The protocol is about the stage, the events and the state of the callbacks. -/
theorem Config.Protocol.of_eq (h : c.Protocol E start) (hstage : c'.stage = c.stage)
    (hdoomed : c'.doomed = c.doomed) (hhistory : c'.state.history = c.state.history)
    (hcallbacks : c'.state.callbacks = c.state.callbacks) : c'.Protocol E start := by
  obtain ⟨stage, doomed, ⟨tree, frontier, tracker, statistics, incomplete, relaxation, strategy,
    callbacks, history⟩⟩ := c
  obtain ⟨stage', doomed', ⟨tree', frontier', tracker', statistics', incomplete', relaxation',
    strategy', callbacks', history'⟩⟩ := c'
  obtain rfl : stage' = stage := hstage
  obtain rfl : doomed' = doomed := hdoomed
  obtain rfl : history' = history := hhistory
  obtain rfl : callbacks' = callbacks := hcallbacks
  exact ⟨h.replay, h.shown, h.reported, h.asked, h.inOrder, h.closed, h.unsolved, h.doomed,
    h.fates, h.presents⟩

/-- The same engine, which puts up with any number of failures. -/
def Engine.patient (E : Engine F σ β κ) : Engine F σ β κ :=
  { E with settings := { E.settings with maxSolverErrors := none } }

/-- Where a search gives up, a patient search goes on. -/
theorem Move.patient {id : NodeId} {node : Node F} {tree : Tree F} {released : Nat}
    (hnode : s.tree.get? id = some node)
    (hclose : s.tree.close id (.pruned .solverError) = .ok (tree, released)) :
    Move E.patient ⟨.closing id (.pruned .solverError), [], s⟩
      (.idle (s.closed E node (.pruned .solverError) tree)) :=
  .close hnode hclose fun _ => rfl

/-- A search that gives up has told the callbacks about the last failed node. -/
theorem Config.Attended.abort {id : NodeId} {node : Node F} {tree : Tree F} {released : Nat}
    (hc : Config.Attended E start ⟨.closing id (.pruned .solverError), [], s⟩)
    (hnode : s.tree.get? id = some node)
    (hclose : s.tree.close id (.pruned .solverError) = .ok (tree, released)) :
    (Config.idle (s.closed E node (.pruned .solverError) tree)).Attended E start := by
  have h := Move.patient (E := E) hnode hclose
  have hinherited := h.inherited hc.chronicled ⟨hc.inherited.inherits, hc.inherited.recorded⟩
  exact hc.of_closed (h.chronicled hc.chronicled) ⟨hinherited.inherits, hinherited.recorded⟩
    (h.triaged hc.chronicled hc.triaged) rfl (fun _ => rfl) trivial

/-- An internal error is met only where all callbacks were asked about the current node. -/
theorem Config.Coherent.consulted {defect : Defect} (hc : c.Coherent)
    (h : Fails E c (.internal defect)) :
    ∃ id r answer, c.stage = .consulting id r answer [] ∧ c.doomed = [] := by
  rcases hc.internal h with ⟨_, _, _, rfl⟩ | ⟨_, _, rfl⟩
  · cases h
    exact ⟨_, _, _, rfl, rfl⟩
  · cases h
    exact ⟨_, _, _, rfl, rfl⟩

/-- **The protocol of the callbacks.**  At every moment of every search each solved node was shown to
    the callbacks in their order, up to those that are still to be asked, and each closed node was
    reported to all of them.  No callback is left where the search ends: with a result, because there
    were too many failures, or because the strategy has no decision about a node. -/
theorem solve_protocol (E : Engine F σ β κ) (start : σ) (strategy : β) (callbacks : κ)
    (steps : Nat) :
    let s₀ := State.initial E start strategy callbacks
    (∀ c, Moves E (.idle s₀) c → c.Protocol E s₀) ∧
    match (solve E steps).run s₀ with
    | .ok _ s | .error (.aborted ..) s => (Config.idle s).Protocol E s₀
    | .error (.internal _) s => ∃ id r answer,
        Config.Protocol E s₀ ⟨.consulting id r answer [], [], s⟩
    | .error e _ => ∃ c, Moves E (.idle s₀) c ∧ Fails E c e := by
  intro s₀
  have hattended : ∀ {c}, Moves E (.idle s₀) c → c.Attended E s₀ := fun hmoves =>
    Moves.attended hmoves (Config.attended_initial E start strategy callbacks)
  refine ⟨fun c hmoves => (hattended hmoves).protocol, ?_⟩
  rcases hsolve : (solve E steps).run s₀ with ⟨outcome, s⟩ | ⟨e, s⟩
  · obtain ⟨s₁, hmoves, ⟨-, rfl⟩ | ⟨status, solution, -, hsummary⟩⟩ := solve_ok hsolve
    · exact (hattended hmoves).protocol
    · obtain rfl := hsummary.final_eq
      exact (hattended (hmoves.tail (.remark rfl))).protocol.of_eq rfl rfl rfl rfl
  · have hcases := solve_cases E steps s₀
    rw [hsolve] at hcases
    obtain ⟨c, hmoves, hfails, hleaves⟩ := hcases
    have hc := hattended hmoves
    have hcoherent := hc.chronicled.tidy.coherent
    cases hleaves with
    | fault => exact ⟨c, hmoves, hfails⟩
    | missing => rcases hcoherent.internal hfails with ⟨_, _, _, h⟩ | ⟨_, _, h⟩ <;> cases h
    | internal _ hhistory hcallbacks =>
      obtain ⟨id, r, answer, hstage, hdoomed⟩ := hcoherent.consulted hfails
      exact ⟨id, r, answer, hc.protocol.of_eq hstage.symm hdoomed.symm hhistory hcallbacks⟩
    | aborted hnode hclose => exact (hc.abort hnode hclose).protocol

/-- Two callbacks in the search of the segment: both are shown the root, and it is reported to both;
    then the same for its upper child. -/
example :
    let E : Engine Exact Unit Unit (List (Record Exact)) :=
      { recordedSegment with callbacks := [recorder, recorder] }
    read? (fun _ s => (E.calls s.history).map fun
        | .solved place view => (view.id, "shown", place)
        | .closed place record => (record.id, "reported", place))
      ((solve E 3).run (State.initial E () () [])) =
        some [(0, "shown", 0), (0, "shown", 1), (0, "reported", 0), (0, "reported", 1),
          (1, "shown", 0), (1, "shown", 1), (1, "reported", 0), (1, "reported", 1)] := by
  decide +kernel

end Milp.Search
