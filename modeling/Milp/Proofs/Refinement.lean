/-
  Every search is a sequence of moves.

  * `Runs`: a computation makes moves and returns, or makes moves and fails; `Leaves` is about the
    state in which that leaves the search.
  * `runs_step`, `runs_run`: processing one node, or a number of them, is a sequence of moves from
    one stop between two nodes to the next.
  * `solve_cases`, `solve_ok`: what a search comes to, and where one ends that does not fail;
    `solve_keeps`: what holds between two nodes and where it ends.
-/
import Milp.Proofs.Moves
import Milp.Proofs.Proposal
import Milp.Search.Run

namespace Milp

namespace Search

variable {F σ β κ α γ : Type}

@[simp] theorem throw_run (e : SearchError F) (s : State F σ β κ) :
    (throw e : SearchM F σ β κ α).run s = .error e s := rfl

@[simp] theorem ofTree_ok (a : α) : (ofTree (.ok a) : SearchM F σ β κ α) = pure a := rfl

@[simp] theorem ofTree_error (e : TreeError) :
    (ofTree (.error e) : SearchM F σ β κ α) = throw (.internal (.tree e)) := rfl

@[simp] theorem ofRead_ok (a : α) : (ofRead (.ok a) : SearchM F σ β κ α) = pure a := rfl

@[simp] theorem ofRead_error (e : Fault) :
    (ofRead (.error e) : SearchM F σ β κ α) = throw (.fault e) := rfl

variable [Extended F] {E : Engine F σ β κ}

/-- Where a search fails with this error, it leaves this state behind.  It created no other nodes than
    those of its moves. -/
inductive Leaves (E : Engine F σ β κ) : Config F σ β κ → SearchError F → State F σ β κ → Prop where
  /-- Something that was given from outside did not return. -/
  | fault {c fault s} (hcreated : s.statistics.created = c.state.statistics.created) :
      Leaves E c (.fault fault) s
  /-- A node is not in the tree. -/
  | missing {c operation id s} (hcreated : s.statistics.created = c.state.statistics.created) :
      Leaves E c (.internal (.tree (.missing operation id))) s
  /-- There is no way to go on, and no callback was called. -/
  | internal {c defect s} (hcreated : s.statistics.created = c.state.statistics.created)
      (hhistory : s.history = c.state.history) (hcallbacks : s.callbacks = c.state.callbacks) :
      Leaves E c (.internal defect) s
  /-- There were too many failures, and the last failed node was closed. -/
  | aborted {id s node tree released failed processed best} (hnode : s.tree.get? id = some node)
      (hclose : s.tree.close id (.pruned .solverError) = .ok (tree, released)) :
      Leaves E ⟨.closing id (.pruned .solverError), [], s⟩ (.aborted failed processed best)
        (s.closed E node (.pruned .solverError) tree)

theorem Leaves.created_eq {c : Config F σ β κ} {e : SearchError F} {s : State F σ β κ}
    (h : Leaves E c e s) : s.statistics.created = c.state.statistics.created := by
  cases h with
  | aborted => rfl
  | _ => assumption

/-- From `c` the computation makes moves and returns so that `Q` holds, or makes moves and fails.
    It takes no node from the frontier. -/
def Runs (E : Engine F σ β κ) (m : SearchM F σ β κ α) (c : Config F σ β κ)
    (Q : α → Config F σ β κ → Prop) : Prop :=
  match m.run c.state with
  | .ok a s => ∃ c', Moves E c c' ∧ c'.state = s ∧
      s.statistics.processed = c.state.statistics.processed ∧ Q a c'
  | .error e s => ∃ c', Moves E c c' ∧ Fails E c' e ∧ Leaves E c' e s

namespace Runs

variable {m : SearchM F σ β κ α} {c c' : Config F σ β κ} {Q R : α → Config F σ β κ → Prop}

/-- Moves first, and then what is left of the computation. -/
theorem after {k : SearchM F σ β κ α} (h : Moves E c c') (heq : m.run c.state = k.run c'.state)
    (h' : Runs E k c' Q)
    (hprocessed : c'.state.statistics.processed = c.state.statistics.processed) :
    Runs E m c Q := by
  unfold Runs at h' ⊢
  rw [heq]
  split at h'
  · obtain ⟨c'', hmoves, hs, hsame, hQ⟩ := h'
    exact ⟨c'', h.trans hmoves, hs, hsame.trans hprocessed, hQ⟩
  · obtain ⟨c'', hmoves, hfails, hleaves⟩ := h'
    exact ⟨c'', h.trans hmoves, hfails, hleaves⟩

/-- A computation that comes down to another one on the same state. -/
theorem congr {k : SearchM F σ β κ α} (heq : m.run c.state = k.run c.state)
    (h : Runs E k c Q) : Runs E m c Q := after .refl heq h rfl

/-- Moves, and nothing else. -/
theorem done {a : α} (h : Moves E c c') (heq : m.run c.state = .ok a c'.state) (hQ : Q a c')
    (hprocessed : c'.state.statistics.processed = c.state.statistics.processed) :
    Runs E m c Q := by
  unfold Runs
  rw [heq]
  exact ⟨c', h, rfl, hprocessed, hQ⟩

theorem pure {a : α} (hQ : Q a c) : Runs E (pure a) c Q := done .refl rfl hQ rfl

theorem fail {e : SearchError F} {s : State F σ β κ} (heq : m.run c.state = .error e s)
    (hleaves : Leaves E c e s) (h : Fails E c e) : Runs E m c Q := by
  unfold Runs
  rw [heq]
  exact ⟨c, .refl, h, hleaves⟩

theorem bind {f : α → SearchM F σ β κ γ} {R : γ → Config F σ β κ → Prop} (h : Runs E m c Q)
    (h' : ∀ a c', Q a c' → Runs E (f a) c' R) : Runs E (m >>= f) c R := by
  unfold Runs at h ⊢
  rw [EStateM.run_bind]
  split at h
  · rename_i a s heq
    obtain ⟨c', hmoves, rfl, hsame, hQ⟩ := h
    have hf := h' a c' hQ
    unfold Runs at hf
    rw [heq]
    simp only
    split at hf
    · obtain ⟨c'', hmoves', hs, hsame', hR⟩ := hf
      exact ⟨c'', hmoves.trans hmoves', hs, hsame'.trans hsame, hR⟩
    · obtain ⟨c'', hmoves', hfails, hleaves⟩ := hf
      exact ⟨c'', hmoves.trans hmoves', hfails, hleaves⟩
  · rename_i e s heq
    rw [heq]
    exact h

end Runs

/-- The stage that is reached, with nothing to sweep up. -/
def At (stage : Stage F κ) (_ : α) (c : Config F σ β κ) : Prop := c.stage = stage ∧ c.doomed = []

variable {s : State F σ β κ} {id : NodeId} {r : Restrictions F} {answer : Answer F}

/-! ## Closing nodes -/

/-- Closing a node that is not there is an error, and otherwise it succeeds. -/
theorem close_run (E : Engine F σ β κ) (s : State F σ β κ) (id : NodeId) (status : NodeStatus)
    (hstatus : status.isClosed = true) :
    (s.tree.get? id = none ∧ (close E id status).run s =
      .error (.internal (.tree (.missing .node id))) s) ∨
    ∃ node tree released, s.tree.get? id = some node ∧
      s.tree.close id status = .ok (tree, released) ∧
      (close E id status).run s = .ok () (s.closed E node status tree) := by
  rcases hnode : s.tree.get? id with _ | node
  · refine .inl ⟨rfl, ?_⟩
    simp [close, Tree.node, hnode]
  · obtain ⟨released, hclose⟩ := Tree.close_ok hnode hstatus
    refine .inr ⟨node, _, released, rfl, hclose, ?_⟩
    simp [close, Tree.node, hnode, hclose, State.closed]

/-- Closing the current node, where no failures are counted. -/
theorem runs_close {status : NodeStatus} (hstatus : status.isClosed = true)
    (hok : status ≠ .pruned .solverError) :
    Runs E (close E id status) ⟨.closing id status, [], s⟩ (At .idle) := by
  rcases close_run E s id status hstatus with
    ⟨hnone, hrun⟩ | ⟨node, tree, released, hnode, hclose, hrun⟩
  · exact .fail hrun (.missing rfl) (.missing rfl hnone)
  · exact .done (.single (.close hnode hclose (absurd · hok))) hrun ⟨rfl, rfl⟩ rfl

/-- Closing the nodes that a new incumbent ruled out. -/
theorem runs_sweep (stage : Stage F κ) (doomed : List (NodeKey F)) (s : State F σ β κ) :
    Runs E (doomed.forM fun key => close E key.id (.pruned .bound)) ⟨stage, doomed, s⟩
      (At stage) := by
  induction doomed generalizing s with
  | nil => exact .pure ⟨rfl, rfl⟩
  | cons key doomed ih =>
    rw [List.forM_eq_forM, List.forM_cons]
    rcases close_run E s key.id (.pruned .bound) rfl with
      ⟨hnone, hrun⟩ | ⟨node, tree, released, hnode, hclose, hrun⟩
    · exact .fail (by rw [EStateM.run_bind, hrun]) (.missing rfl) (.missing rfl hnone)
    · refine .after (.single (.sweep hnode hclose)) ?_
        (ih (s.closed E node (.pruned .bound) tree)) rfl
      rw [EStateM.run_bind, hrun]
      rfl

/-! ## New incumbents -/

/-- Installing a better incumbent: the pruned nodes are swept up, and then it is announced. -/
theorem install_run {candidate : Incumbent F} {tracker : Tracker F} {pruned : List (NodeKey F)}
    {frontier : Frontier F}
    (hupdate : s.tracker.update? candidate E.settings.tolerance = some tracker)
    (hprune : s.frontier.pruneByBound tracker.normalized E.settings.tolerance =
      (pruned, frontier)) :
    (install E candidate).run s =
      ((pruned.forM fun key => close E key.id (.pruned .bound)) >>= fun _ =>
        emit (.improved candidate.objective candidate.origin pruned.length) >>= fun _ =>
          pure true : SearchM F σ β κ Bool).run (s.adopted tracker frontier pruned.length) := by
  simp only [install, pruneFrontier, tally, EStateM.run_bind, EStateM.run_get, hupdate,
    EStateM.run_modify, hprune, State.adopted]
  generalize EStateM.run (forM pruned _) _ = swept
  cases swept <;> rfl

/-- A point that is adopted leads to the next stage; one that is not leaves everything alone. -/
theorem runs_install {stage next : Stage F κ} {candidate : Incumbent F}
    (h : Adopts E s stage candidate next) :
    Runs E (install E candidate) ⟨stage, [], s⟩ fun installed c =>
      if installed then At next installed c
      else c = ⟨stage, [], s⟩ ∧ s.tracker.update? candidate E.settings.tolerance = none := by
  rcases hupdate : s.tracker.update? candidate E.settings.tolerance with _ | tracker
  · have hrun : (install E candidate).run s = .ok false s := by simp [install, hupdate]
    exact .done (a := false) .refl hrun ⟨rfl, rfl⟩ rfl
  · rcases hprune : s.frontier.pruneByBound tracker.normalized E.settings.tolerance
      with ⟨pruned, frontier⟩
    refine .after (.single (.adopt h hupdate hprune)) (install_run hupdate hprune) ?_ rfl
    refine (runs_sweep next pruned _).bind fun _ c hc => ?_
    obtain ⟨stage', doomed', s'⟩ := c
    obtain ⟨rfl, rfl⟩ := hc
    exact .done (.single (.remark rfl)) rfl (by exact ⟨rfl, rfl⟩) rfl

/-- A proposal that passed its check is installed. -/
theorem weigh_run {name : String} {p : Proposal F} {objective : F}
    (hcheck : p.check E.problem E.candidates s.tracker E.settings = .ok (.ok objective)) :
    (weigh E id name p).run s = (install E (s.proposed id name p objective) >>= fun _ => pure () :
      SearchM F σ β κ Unit).run s := by
  simp only [weigh, EStateM.run_bind, EStateM.run_get, hcheck, ofRead_ok, EStateM.run_pure,
    discard, Functor.mapConst]
  rfl

/-- A proposal is adopted or refused. -/
theorem runs_weigh {left : Callbacks F κ} {name : String} {p : Proposal F} :
    Runs E (weigh E id name p) ⟨.weighing id r answer left name p, [], s⟩
      (At (.consulting id r answer left)) := by
  rcases hcheck : p.check E.problem E.candidates s.tracker E.settings with fault | violation | obj
  · refine .fail ?_ (.fault rfl) (.unchecked hcheck)
    simp [weigh, hcheck]
  · refine .done (a := ()) (.single (.refuse hcheck)) ?_ ⟨rfl, rfl⟩ rfl
    simp [weigh, hcheck, tally, emit]
  · have himproves := (Proposal.check_ok hcheck).improves.2
    refine .congr (weigh_run hcheck) ((runs_install (.proposed hcheck)).bind
      fun installed c hc => ?_)
    rcases installed with _ | _
    · obtain ⟨-, hnone⟩ := hc
      simp [Tracker.update?, State.proposed, himproves] at hnone
    · exact .pure hc

/-- A callback is shown the node, and what it proposes is weighed. -/
theorem runs_consult {callback : Callback F κ} {left : Callbacks F κ} :
    Runs E (consult E id r callback) ⟨.consulting id r answer (callback :: left), [], s⟩
      (At (.consulting id r answer left)) := by
  rcases hnode : s.tree.get? id with _ | node
  · refine .fail (e := .internal (.tree (.missing .node id))) (s := s) ?_ (.missing rfl)
      (.missing rfl hnode)
    simp [consult, Tree.node, hnode]
  rcases hanswer : node.answer with _ | shown
  · refine .fail (s := s) ?_ (.internal rfl rfl rfl) (.unanswered hnode hanswer)
    simp [consult, Tree.node, hnode, hanswer]
  rcases hsolved : callback.onSolved (E.view node shown r s.tracker) E.candidates s.callbacks with
    fault | ⟨proposal, callbacks⟩
  · refine .fail (s := s.logged (.offered callback.name (E.view node shown r s.tracker)))
      ?_ (.fault rfl) (.callback hsolved)
    simp [consult, Tree.node, hnode, hanswer, hsolved, emit, State.logged]
  · refine .after (k := proposal.forM (weigh E id callback.name))
      (.single (.offer hnode hanswer hsolved)) ?_ ?_ rfl
    · simp [consult, Tree.node, hnode, hanswer, hsolved, emit]
    · rcases proposal with _ | p
      · exact .pure ⟨rfl, rfl⟩
      · exact runs_weigh

/-- All callbacks are asked, one after the other. -/
theorem runs_callbacks (left : Callbacks F κ) (s : State F σ β κ) :
    Runs E (left.forM (consult E id r)) ⟨.consulting id r answer left, [], s⟩
      (At (.consulting id r answer [])) := by
  induction left generalizing s with
  | nil => exact .pure ⟨rfl, rfl⟩
  | cons callback left ih =>
    rw [List.forM_eq_forM, List.forM_cons]
    refine runs_consult.bind fun _ c hc => ?_
    obtain ⟨stage', doomed', s'⟩ := c
    obtain ⟨rfl, rfl⟩ := hc
    exact ih s'

/-! ## Decisions -/

/-- A decision that is followed by closing the node. -/
theorem runs_conclude {stage : Stage F κ} {status : NodeStatus} {events : List (Event F)}
    {m : SearchM F σ β κ Unit} (h : Concludes E s stage id status events)
    (hstatus : status.isClosed = true) (hok : status ≠ .pruned .solverError)
    (heq : m.run s = (close E id status).run (s.concluded status events)) :
    Runs E m ⟨stage, [], s⟩ (At .idle) :=
  .after (.single (.conclude h)) heq (runs_close hstatus hok) (Statistics.count_processed ..)

/-- A point that is whole on the candidates becomes the incumbent, or its node is discarded. -/
theorem runs_accept {x : List F} {objective : F} (h : Survives E s id x objective)
    (hwhole : fractional x E.settings.integrality E.candidates = .ok []) :
    Runs E (accept E id x objective) ⟨.consulting id r answer [], [], s⟩ (At .idle) := by
  refine (runs_install (.accepted h hwhole)).bind fun installed c hc => ?_
  rcases installed with _ | _
  · obtain ⟨rfl, hnone⟩ := hc
    exact runs_conclude (.refused h hwhole hnone) rfl (by simp) rfl
  · obtain ⟨stage', doomed', s'⟩ := c
    obtain ⟨rfl, rfl⟩ := hc
    exact runs_close rfl (by simp)

/-- The children for the changes left are created. -/
theorem runs_spawn {d : Decision F} (left : List (BoundChange F)) (s : State F σ β κ) :
    Runs E (left.forM (spawn id)) ⟨.splitting id d left, [], s⟩ (At (.splitting id d [])) := by
  induction left generalizing s with
  | nil => exact .pure ⟨rfl, rfl⟩
  | cons change left ih =>
    rw [List.forM_eq_forM, List.forM_cons]
    rcases hnode : s.tree.get? id with _ | node
    · refine .fail (e := .internal (.tree (.missing .createChild id))) (s := s) ?_ (.missing rfl)
        (.missing rfl hnode)
      simp [spawn, Tree.createChild, hnode]
    · obtain ⟨slot, hslot, -⟩ := Tree.get?_eq_some.1 hnode
      obtain ⟨tree, hcreate⟩ := Tree.createChild_ok hslot change
      have hchild : tree.get? s.tree.created = some (node.child s.tree.created change) := by
        rw [Tree.get?_createChild hcreate hnode, if_pos rfl]
      refine .after (.single (.spawn hcreate hchild)) ?_ (ih _) rfl
      simp [spawn, hcreate, Tree.node, hchild, tally, State.spawned]

/-- The strategy decides, the children are created, and the node is closed. -/
theorem runs_branch {x : List F} {objective : F} {split : List (FractionalVar F)}
    (h : Survives E s id x objective)
    (hsplit : fractional x E.settings.integrality E.candidates = .ok split) (hne : split ≠ []) :
    Runs E (branch E id x split.length) ⟨.consulting id r answer [], [], s⟩ (At .idle) := by
  -- up to the decision
  have hselect : Runs E (select E id x split.length) ⟨.consulting id r answer [], [], s⟩
      fun d => At (.splitting id d d.children) d := by
    rcases hr : s.tree.restrictions id with error | restrictions
    · refine .fail (s := s) ?_ (.internal rfl rfl rfl) (.unrestricted rfl hr)
      simp [select, hr]
    rcases hbox : restrictions.applyTo E.problem.box with fault | box
    · refine .fail (s := s) ?_ (.fault rfl) (.boxless hr hbox)
      simp [select, hr, hbox]
    rcases hstrategy : E.strategy.select s.strategy
        ⟨x, E.candidates, E.problem, box, E.settings.integrality⟩ with fault | ⟨_ | d, strategy⟩
    · refine .fail (s := s) ?_ (.fault rfl) (.unselected h hr hbox hstrategy)
      simp [select, hr, hbox, hstrategy]
    · refine .fail (s := { s with strategy }) ?_ (.internal rfl rfl rfl)
        (.undecided h hsplit hne hr hbox hstrategy)
      simp [select, hr, hbox, hstrategy]
    · by_cases hvar : d.var ∈ E.candidates
      · refine .done (.single (.select h hsplit hne hr hbox hstrategy hvar)) ?_ ⟨rfl, rfl⟩ rfl
        simp [select, hr, hbox, hstrategy, hvar, -bind_pure_comp]
      · refine .fail (s := { s with strategy }) ?_ (.internal rfl rfl rfl)
          (.notACandidate h hr hbox hstrategy hvar)
        simp [select, hr, hbox, hstrategy, hvar]
  refine hselect.bind fun d c hc => ?_
  obtain ⟨stage', doomed', s'⟩ := c
  obtain ⟨rfl, rfl⟩ := hc
  refine (runs_spawn d.children s').bind fun _ c hc => ?_
  obtain ⟨stage', doomed', s'⟩ := c
  obtain ⟨rfl, rfl⟩ := hc
  rcases hchildren : d.children with _ | ⟨change, others⟩
  · exact runs_conclude (.barren hchildren) rfl (by simp) rfl
  · exact runs_conclude (.branched (by simp [hchildren])) rfl (by simp) (by rw [hchildren]; rfl)

/-- A node with an optimal relaxation is discarded, gives the incumbent, or is branched on. -/
theorem runs_settle {x : List F} {objective : F} :
    Runs E (settle E id) ⟨.consulting id r (.optimal x objective) [], [], s⟩ (At .idle) := by
  rcases hnode : s.tree.get? id with _ | node
  · refine .fail (e := .internal (.tree (.missing .node id))) (s := s) ?_ (.missing rfl)
      (.missing rfl hnode)
    simp [settle, Tree.node, hnode]
  rcases hbound : s.dominates node E.settings.tolerance with _ | _
  · by_cases hanswer : ∃ y value, node.answer = some (.optimal y value)
    · obtain ⟨y, value, hanswer⟩ := hanswer
      have survives : Survives E s id y value := ⟨node, hnode, hbound, hanswer⟩
      rcases hsplit : fractional y E.settings.integrality E.candidates with fault | split
      · refine .fail (s := s) ?_ (.fault rfl) (.unread survives hsplit)
        simp [settle, Tree.node, hnode, hbound, hanswer, hsplit]
      · rcases split with _ | ⟨first, others⟩
        · refine .congr (k := accept E id y value) ?_ (runs_accept survives hsplit)
          simp [settle, Tree.node, hnode, hbound, hanswer, hsplit]
        · refine .congr (k := branch E id y (first :: others).length) ?_
            (runs_branch survives hsplit (by simp))
          simp [settle, Tree.node, hnode, hbound, hanswer, hsplit]
    · have hne : ∀ y value, node.answer ≠ some (.optimal y value) :=
        fun y value heq => hanswer ⟨y, value, heq⟩
      refine .fail (s := s) ?_ (.internal rfl rfl rfl) (.notOptimal hnode hne)
      simp [settle, Tree.node, hnode, hbound]
  · refine runs_conclude (.bounded hnode hbound) rfl (by simp) ?_
    simp [settle, Tree.node, hnode, hbound]
    rfl

/-- A failed node is closed, and too many failures end the search. -/
theorem runs_close_failed :
    Runs E
      (close E id (.pruned .solverError) >>= fun _ => do
        let s ← get
        if E.settings.maxSolverErrors.any (· < s.statistics.solverErrors) then
          throw (.aborted s.statistics.solverErrors s.statistics.processed s.tracker.best))
      ⟨.closing id (.pruned .solverError), [], s⟩ (At .idle) := by
  rcases close_run E s id (.pruned .solverError) rfl with
    ⟨hnone, hclose⟩ | ⟨node, tree, released, hnode, htree, hclose⟩
  · exact .fail (by rw [EStateM.run_bind, hclose]) (.missing rfl) (.missing rfl hnone)
  · rcases habort : E.settings.maxSolverErrors.any (· < s.statistics.solverErrors) with _ | _
    · refine .done (a := ()) (.single (.close hnode htree fun _ => habort)) ?_ ⟨rfl, rfl⟩ rfl
      simp [hclose, State.closed, habort]
    · refine .fail (s := s.closed E node (.pruned .solverError) tree) ?_ (.aborted hnode htree)
        (.aborted hnode htree habort)
      simp [hclose, State.closed, habort]

theorem runs_writeOff {cause : Cause F} :
    Runs E (writeOff E id cause) ⟨.consulting id r (.failed cause) [], [], s⟩ (At .idle) :=
  .after (.single (.conclude .failed)) rfl runs_close_failed rfl

theorem runs_dispatch :
    Runs E (dispatch E id answer) ⟨.consulting id r answer [], [], s⟩ (At .idle) := by
  rcases answer with ⟨x, objective⟩ | _ | _ | cause
  · exact runs_settle
  · exact runs_conclude .infeasible rfl (by simp) rfl
  · exact runs_conclude .unbounded rfl (by simp) rfl
  · exact runs_writeOff

/-! ## Nodes -/

/-- The relaxation of a node that nothing rules out is solved. -/
theorem runs_relax {node : Node F} (hnode : s.tree.get? id = some node)
    (hbound : s.dominates node E.settings.tolerance = false) (hr : s.tree.restrictions id = .ok r)
    (hdomain : r.emptyDomain? E.settings.tolerance = none) :
    Runs E (relax E id r) ⟨.opened id, [], s⟩ fun answer => At (.relaxed id r answer) answer := by
  rcases hsolve : E.relaxation.solve s.relaxation r with fault | reply
  · refine .fail (s := s) ?_ (.fault rfl) (.unsolved hr hsolve)
    simp [relax, hsolve]
  · refine .done (.single (.relax hnode hbound hr hdomain hsolve)) ?_ ⟨rfl, rfl⟩ rfl
    simp [relax, hsolve, emit, -bind_pure_comp]

/-- The answer is recorded at the node, and the strategy learns from it. -/
theorem runs_recordAnswer :
    Runs E (recordAnswer E id answer) ⟨.relaxed id r answer, [], s⟩
      (At (.consulting id r answer E.callbacks)) := by
  rcases hbefore : s.tree.get? id with _ | before
  · refine .fail (s := s) ?_ (.internal rfl rfl rfl) (.vanished hbefore)
    simp [recordAnswer, hbefore]
  rcases hrecord : before.record? answer
      (E.sense.normalize (answer.objective?.getD Extended.nan)) with _ | node
  · refine .fail (s := s) ?_ (.internal rfl rfl rfl) (.solvedTwice hbefore hrecord)
    simp [recordAnswer, hbefore, hrecord]
  -- the strategy learns only from a child that has a change
  rcases hlearn : E.learned node answer s.strategy with fault | strategy
  · refine .fail (s := { s with tree := s.tree.modify id fun _ => node }) ?_ (.fault rfl)
      (.unlearned hlearn)
    unfold Engine.learned at hlearn
    split at hlearn
    · rename_i parent change rest hparent hchanges
      simp [recordAnswer, hbefore, hrecord, hparent, hchanges, hlearn, Option.forM]
    · cases hlearn
  · refine .done (a := ()) (.single (.record hbefore hrecord hlearn)) ?_ ⟨rfl, rfl⟩ rfl
    unfold Engine.learned at hlearn
    split at hlearn
    · rename_i parent change rest hparent hchanges
      simp [recordAnswer, hbefore, hrecord, hparent, hchanges, hlearn, Option.forM]
    · rename_i hnone
      injection hlearn with hlearn
      subst hlearn
      rcases hparent : node.parent with _ | parent
      · simp [recordAnswer, hbefore, hrecord, hparent]
      · rcases hchanges : node.changes with _ | ⟨change, rest⟩
        · simp [recordAnswer, hbefore, hrecord, hparent, hchanges, Option.forM]
        · exact absurd hchanges (hnone parent change rest hparent)

/-- A node that nothing rules out is solved and decided on. -/
theorem runs_explore {node : Node F} (hnode : s.tree.get? id = some node)
    (hbound : s.dominates node E.settings.tolerance = false) (hr : s.tree.restrictions id = .ok r)
    (hdomain : r.emptyDomain? E.settings.tolerance = none) :
    Runs E (explore E id r) ⟨.opened id, [], s⟩ (At .idle) := by
  refine (runs_relax hnode hbound hr hdomain).bind fun answer c hc => ?_
  obtain ⟨stage', doomed', s₁⟩ := c
  obtain ⟨rfl, rfl⟩ := hc
  refine runs_recordAnswer.bind fun _ c hc => ?_
  obtain ⟨stage', doomed', s₂⟩ := c
  obtain ⟨rfl, rfl⟩ := hc
  refine (runs_callbacks E.callbacks s₂).bind fun _ c hc => ?_
  obtain ⟨stage', doomed', s₃⟩ := c
  obtain ⟨rfl, rfl⟩ := hc
  exact runs_dispatch

/-- What is done with a node that was taken from the frontier. -/
def examine (E : Engine F σ β κ) (s : State F σ β κ) (node : Node F) (id : NodeId) :
    SearchM F σ β κ Unit := do
  if s.dominates node E.settings.tolerance then
    emit (.dominated id node.dualBound)
    tally fun t => { t with pruned := t.pruned + 1 }
    close E id (.pruned .bound)
  else
    let r ← ofTree (s.tree.restrictions id)
    match r.emptyDomain? E.settings.tolerance with
    | some var =>
      emit (.emptyDomain id var)
      tally fun t => { t with infeasible := t.infeasible + 1 }
      close E id (.pruned .emptyDomain)
    | none => explore E id r

theorem process_run {node : Node F} (hnode : s.tree.get? id = some node) :
    (process E id).run s =
      (examine E s node id).run
        { s with statistics := { s.statistics with
            processed := s.statistics.processed + 1
            maxDepth := max s.statistics.maxDepth node.depth } } := by
  simp only [process, tally, EStateM.run_bind, EStateM.run_modify, EStateM.run_get, Tree.node,
    hnode, ofTree_ok, EStateM.run_pure]
  rfl

theorem runs_examine {node : Node F} (hnode : s.tree.get? id = some node) :
    Runs E (examine E s node id) ⟨.opened id, [], s⟩ (At .idle) := by
  unfold examine
  rcases hbound : s.dominates node E.settings.tolerance with _ | _
  · simp only [Bool.false_eq_true, if_false]
    rcases hr : s.tree.restrictions id with error | r
    · exact .fail rfl (.internal rfl rfl rfl) (.unrestricted rfl hr)
    rcases hdomain : r.emptyDomain? E.settings.tolerance with _ | var
    · refine .congr (k := explore E id r) ?_ (runs_explore hnode hbound hr hdomain)
      simp [hdomain]
    · refine runs_conclude (.emptyDomain hr hdomain) rfl (by simp) ?_
      simp [hdomain]
      rfl
  · exact runs_conclude (.dominated hnode hbound) rfl (by simp) rfl

theorem runs_report : Runs E (report E) ⟨.idle, [], s⟩ (At .idle) := by
  by_cases hevery : s.statistics.processed % E.settings.logEvery = 0
  · have hmove : Move E ⟨.idle, [], s⟩ ⟨.idle, [], s.logged (.progress s.statistics.processed
        s.frontier.size (E.sense.normalize s.bound) s.tracker.objective
        (s.tracker.gap (E.sense.normalize s.bound)) (E.clock s.statistics.processed))⟩ :=
      .remark rfl
    refine .done (a := ()) (.single hmove) ?_ ⟨rfl, rfl⟩ rfl
    simp [report, hevery, emit, State.logged]
  · refine .done (a := ()) .refl ?_ ⟨rfl, rfl⟩ rfl
    simp [report, hevery]

/-- A search ends between two nodes: at a limit, or because no node is left. -/
inductive State.Ends (E : Engine F σ β κ) (s : State F σ β κ) :
    SearchStatus → State F σ β κ → Prop where
  | limit (reason : StopReason) (h : (Limits.ofSettings E.settings).check
      (E.clock s.statistics.processed) s.statistics.processed = some reason) :
      s.Ends E reason.status (s.logged (.stopped reason s.statistics.processed))
  | exhausted (h : s.frontier.pop? = none) : s.Ends E s.exhausted s

/-- A step at a limit. -/
theorem step_limited {reason : StopReason} (h : (Limits.ofSettings E.settings).check
    (E.clock s.statistics.processed) s.statistics.processed = some reason) :
    (step E).run s =
      .ok (some reason.status) (s.logged (.stopped reason s.statistics.processed)) := by
  simp [step, h, emit, State.logged, -bind_pure_comp]

/-- A step that finds no node. -/
theorem step_exhausted (hlimit : (Limits.ofSettings E.settings).check
    (E.clock s.statistics.processed) s.statistics.processed = none)
    (hpop : s.frontier.pop? = none) : (step E).run s = .ok (some s.exhausted) s := by
  simp [step, hlimit, hpop]

/-- A step that takes a node that is not in the tree. -/
theorem step_missing {key : NodeKey F} {rest : Frontier F}
    (hlimit : (Limits.ofSettings E.settings).check
      (E.clock s.statistics.processed) s.statistics.processed = none)
    (hpop : s.frontier.pop? = some (key, rest)) (hnode : s.tree.get? key.id = none) :
    (step E).run s = .error (.internal (.tree (.missing .node key.id)))
      { s with
        frontier := rest
        statistics := { s.statistics with processed := s.statistics.processed + 1 }
        history := .taken key :: s.history } := by
  simp [step, hlimit, hpop, emit, process, tally, Tree.node, hnode]

/-- A step that takes a node: it is examined, and then the search says how far it is. -/
theorem step_taken {key : NodeKey F} {rest : Frontier F} {node : Node F}
    (hlimit : (Limits.ofSettings E.settings).check
      (E.clock s.statistics.processed) s.statistics.processed = none)
    (hpop : s.frontier.pop? = some (key, rest)) (hnode : s.tree.get? key.id = some node) :
    (step E).run s =
      (examine E (s.taken key rest node) node key.id >>= fun _ => report E >>= fun _ => pure none
        : SearchM F σ β κ (Option SearchStatus)).run (s.taken key rest node) := by
  simp only [step, EStateM.run_bind, EStateM.run_get, hlimit, hpop, EStateM.run_modify, emit]
  rw [process_run (s := { s with frontier := rest, history := .taken key :: s.history }) hnode]
  rfl

/-- What one step does.  It ends the search; or it takes a node and makes moves until it is between
    two nodes again; or it fails after some moves. -/
theorem step_cases (E : Engine F σ β κ) (s : State F σ β κ) :
    match (step E).run s with
    | .ok (some status) s' => s.Ends E status s'
    | .ok none s' => ∃ key rest node, s.frontier.pop? = some (key, rest) ∧
        s.tree.get? key.id = some node ∧
        Moves E ⟨.opened key.id, [], s.taken key rest node⟩ (.idle s') ∧
        s'.statistics.processed = s.statistics.processed + 1
    | .error e s' => ∃ c, Moves E (.idle s) c ∧ Fails E c e ∧ Leaves E c e s' := by
  rcases hlimit : (Limits.ofSettings E.settings).check (E.clock s.statistics.processed)
      s.statistics.processed with _ | reason
  · rcases hpop : s.frontier.pop? with _ | ⟨key, rest⟩
    · rw [step_exhausted hlimit hpop]
      exact .exhausted hpop
    rcases hnode : s.tree.get? key.id with _ | node
    · rw [step_missing hlimit hpop hnode]
      exact ⟨.idle s, .refl, .missing ⟨key, rest, hpop, rfl⟩ hnode, .missing rfl⟩
    · have hruns : Runs E (examine E (s.taken key rest node) node key.id >>= fun _ =>
          report E >>= fun _ => pure none) ⟨.opened key.id, [], s.taken key rest node⟩
          fun (o : Option SearchStatus) c => o = none ∧ At .idle o c := by
        refine (runs_examine (s := s.taken key rest node) hnode).bind fun _ c hc => ?_
        obtain ⟨stage', doomed', s'⟩ := c
        obtain ⟨rfl, rfl⟩ := hc
        exact runs_report.bind fun _ c hc => .pure ⟨rfl, hc⟩
      rw [step_taken hlimit hpop hnode]
      unfold Runs at hruns
      simp only at hruns
      split at hruns
      · rename_i o s' heq
        obtain ⟨c, hmoves, rfl, hprocessed, rfl, hstage, hdoomed⟩ := hruns
        rw [heq]
        obtain ⟨stage', doomed', s'⟩ := c
        obtain rfl : stage' = .idle := hstage
        obtain rfl : doomed' = [] := hdoomed
        exact ⟨key, rest, node, rfl, hnode, hmoves, hprocessed⟩
      · rename_i e s' heq
        obtain ⟨c, hmoves, hfails, hleaves⟩ := hruns
        rw [heq]
        exact ⟨c, .head (.take hpop hnode) hmoves, hfails, hleaves⟩
  · rw [step_limited hlimit]
    exact .limit reason hlimit

/-- What a number of steps does.  If they do not suffice, each of them has processed one node. -/
theorem run_cases (E : Engine F σ β κ) (steps : Nat) (s : State F σ β κ) :
    match (run E steps).run s with
    | .ok (some status) s' => ∃ s₁, Moves E (.idle s) (.idle s₁) ∧ s₁.Ends E status s'
    | .ok none s' => Moves E (.idle s) (.idle s') ∧
        s'.statistics.processed = s.statistics.processed + steps
    | .error e s' => ∃ c, Moves E (.idle s) c ∧ Fails E c e ∧ Leaves E c e s' := by
  induction steps generalizing s with
  | zero => exact ⟨.refl, rfl⟩
  | succ steps ih =>
    have hstep := step_cases E s
    rw [run, EStateM.run_bind]
    rcases hres : (step E).run s with ⟨_ | status, s'⟩ | ⟨e, s'⟩ <;> rw [hres] at hstep
    · obtain ⟨key, rest, node, hpop, hnode, hmoves, hone⟩ := hstep
      have hfirst : Moves E (.idle s) (.idle s') := .head (.take hpop hnode) hmoves
      have hrest := ih s'
      simp only
      split at hrest
      · obtain ⟨s₁, hmoves', hends⟩ := hrest
        exact ⟨s₁, hfirst.trans hmoves', hends⟩
      · obtain ⟨hmoves', hprocessed⟩ := hrest
        exact ⟨hfirst.trans hmoves', by omega⟩
      · obtain ⟨c, hmoves', hfails⟩ := hrest
        exact ⟨c, hfirst.trans hmoves', hfails⟩
    · exact ⟨s, .refl, hstep⟩
    · exact hstep

/-- Steps that do not suffice are moves. -/
theorem moves_of_run {steps : Nat} {s s' : State F σ β κ} (h : (run E steps).run s = .ok none s') :
    Moves E (.idle s) (.idle s') := by
  have hcases := run_cases E steps s
  rw [h] at hcases
  exact hcases.1

/-- Each step that does not end a search processes a node. -/
theorem processed_of_run {steps : Nat} {s s' : State F σ β κ}
    (h : (run E steps).run s = .ok none s') :
    s'.statistics.processed = s.statistics.processed + steps := by
  have hcases := run_cases E steps s
  rw [h] at hcases
  exact hcases.2

/-- Steps after steps that did not suffice. -/
theorem run_add {steps : Nat} {s s' : State F σ β κ} (h : (run E steps).run s = .ok none s')
    (more : Nat) : (run E (steps + more)).run s = (run E more).run s' := by
  induction steps generalizing s with
  | zero =>
    cases h
    rw [Nat.zero_add]
  | succ steps ih =>
    rw [run, EStateM.run_bind] at h
    rw [Nat.succ_add, run, EStateM.run_bind]
    rcases hstep : (step E).run s with ⟨_ | status, s₁⟩ | ⟨e, s₁⟩ <;> rw [hstep] at h
    · exact ih h
    · cases h
    · cases h

/-- One more step that does not end the search. -/
theorem run_snoc {steps : Nat} {s s₁ s₂ : State F σ β κ} (h : (run E steps).run s = .ok none s₁)
    (hstep : (step E).run s₁ = .ok none s₂) : (run E (steps + 1)).run s = .ok none s₂ := by
  rw [run_add h, run, EStateM.run_bind, hstep]
  rfl

/-- Fewer steps than some that did not suffice. -/
theorem run_take {steps more : Nat} {s s' : State F σ β κ}
    (h : (run E (steps + more)).run s = .ok none s') :
    ∃ t, (run E steps).run s = .ok none t ∧ (run E more).run t = .ok none s' := by
  induction steps generalizing s with
  | zero => exact ⟨s, rfl, Nat.zero_add more ▸ h⟩
  | succ steps ih =>
    rw [Nat.succ_add, run, EStateM.run_bind] at h
    rw [run, EStateM.run_bind]
    rcases hstep : (step E).run s with ⟨_ | status, s₁⟩ | ⟨e, s₁⟩ <;> rw [hstep] at h
    · exact ih h
    · cases h
    · cases h

/-- Before the step that ends a search there are steps that do not. -/
theorem run_eq_some {steps : Nat} {s s' : State F σ β κ} {status : SearchStatus}
    (h : (run E steps).run s = .ok (some status) s') : ∃ n t,
      (run E n).run s = .ok none t ∧ (step E).run t = .ok (some status) s' := by
  induction steps generalizing s with
  | zero => cases h
  | succ steps ih =>
    rw [run, EStateM.run_bind] at h
    rcases hstep : (step E).run s with ⟨_ | ended, s₁⟩ | ⟨e, s₁⟩ <;> rw [hstep] at h
    · obtain ⟨n, t, hrun, hlast⟩ := ih h
      refine ⟨n + 1, t, ?_, hlast⟩
      rw [run, EStateM.run_bind, hstep]
      exact hrun
    · cases h
      exact ⟨0, s, rfl, hstep⟩
    · cases h

/-- The statistics that a search ends with. -/
def State.total (E : Engine F σ β κ) (s : State F σ β κ) : Statistics F :=
  { s.statistics with
    pending := s.frontier.size
    bestBound := Scalar.positiveZero (E.sense.normalize s.bound)
    gap := s.tracker.gap (Scalar.positiveZero (E.sense.normalize s.bound))
    elapsed := E.clock s.statistics.processed }

/-- What is summed up at the end of a search, and where that leaves it: it only counted the pending
    nodes and said so. -/
structure Summary (E : Engine F σ β κ) (s s' : State F σ β κ) (status : SearchStatus)
    (solution : Solution F) : Prop where
  status_eq : solution.status = status
  incumbent_eq : solution.incumbent =
    s.tracker.best.map fun i => { i with objective := Scalar.positiveZero i.objective }
  bestBound_eq : solution.statistics.bestBound =
    Scalar.positiveZero (E.sense.normalize s.bound)
  statistics_eq : solution.statistics = s.total E
  final_eq : s' = State.logged { s with statistics := s.total E }
    (.finished status s.tracker.objective (s.total E))

theorem conclude_run (E : Engine F σ β κ) (status : SearchStatus) (s : State F σ β κ) :
    ∃ solution s', (conclude E status).run s = .ok solution s' ∧ Summary E s s' status solution := by
  simp only [conclude, EStateM.run_bind, EStateM.run_get, tally, EStateM.run_modify, emit,
    EStateM.run_pure]
  exact ⟨_, _, rfl, rfl, rfl, rfl, rfl, rfl⟩

/-- It was said what is searched, and with what. -/
def State.announced (E : Engine F σ β κ) (s : State F σ β κ) : State F σ β κ :=
  s.logged (.started E.problem.vars E.problem.height E.candidates.length E.relaxation.name
    E.strategy.name E.callbacks.length E.sense)

theorem moves_announced (E : Engine F σ β κ) (s : State F σ β κ) :
    Moves E (.idle s) (.idle (s.announced E)) :=
  .single (.remark rfl)

/-- A search whose steps suffice is summed up. -/
theorem solve_ended {steps : Nat} {s s' : State F σ β κ} {status : SearchStatus}
    (h : (run E steps).run (s.announced E) = .ok (some status) s') : ∃ solution t,
      (solve E steps).run s = .ok (some solution) t ∧ Summary E s' t status solution := by
  obtain ⟨solution, t, hconclude, hsummary⟩ := conclude_run E status s'
  refine ⟨solution, t, ?_, hsummary⟩
  rw [solve, EStateM.run_bind]
  show EStateM.run _ (s.announced E) = _
  rw [EStateM.run_bind, h]
  show EStateM.run (conclude E status >>= fun solution => pure (some solution)) s' = _
  rw [EStateM.run_bind, hconclude]
  rfl

/-- A search is unfinished if its steps do not suffice. -/
theorem solve_unfinished {steps : Nat} {s s' : State F σ β κ}
    (h : (run E steps).run (s.announced E) = .ok none s') : (solve E steps).run s = .ok none s' := by
  rw [solve, EStateM.run_bind]
  show EStateM.run _ (s.announced E) = _
  rw [EStateM.run_bind, h]
  rfl

/-- A search fails if one of its steps does. -/
theorem solve_failed {steps : Nat} {s s' : State F σ β κ} {e : SearchError F}
    (h : (run E steps).run (s.announced E) = .error e s') : (solve E steps).run s = .error e s' := by
  rw [solve, EStateM.run_bind]
  show EStateM.run _ (s.announced E) = _
  rw [EStateM.run_bind, h]

/-- Its steps are the only reason for a search to be unfinished. -/
theorem solve_eq_none {steps : Nat} {s s' : State F σ β κ} :
    (solve E steps).run s = .ok none s' ↔ (run E steps).run (s.announced E) = .ok none s' := by
  refine ⟨fun h => ?_, solve_unfinished⟩
  rcases hrun : (run E steps).run (s.announced E) with ⟨_ | status, t⟩ | ⟨e, t⟩
  · cases (solve_unfinished hrun).symm.trans h
    rfl
  · obtain ⟨solution, u, hsolve, -⟩ := solve_ended hrun
    cases hsolve.symm.trans h
  · cases (solve_failed hrun).symm.trans h

/-- A search that is summed up has ended. -/
theorem solve_eq_some {steps : Nat} {s t : State F σ β κ} {solution : Solution F}
    (h : (solve E steps).run s = .ok (some solution) t) : ∃ status s',
      (run E steps).run (s.announced E) = .ok (some status) s' ∧
      Summary E s' t status solution := by
  rcases hrun : (run E steps).run (s.announced E) with ⟨_ | status, s'⟩ | ⟨e, s'⟩
  · cases (solve_unfinished hrun).symm.trans h
  · obtain ⟨solution', u, hsolve, hsummary⟩ := solve_ended hrun
    cases hsolve.symm.trans h
    exact ⟨status, s', rfl, hsummary⟩
  · cases (solve_failed hrun).symm.trans h

/-- What a search does: it makes moves until it ends and sums up, or until the steps do not suffice,
    or until it fails. -/
theorem solve_cases (E : Engine F σ β κ) (steps : Nat) (s : State F σ β κ) :
    match (solve E steps).run s with
    | .ok (some solution) s' => ∃ s₁ s₂ status, Moves E (.idle s) (.idle s₁) ∧ s₁.Ends E status s₂ ∧
        Summary E s₂ s' status solution ∧ (∃ event, s'.history = event :: s₂.history) ∧
        s'.statistics.created = s₁.statistics.created
    | .ok none s' => Moves E (.idle s) (.idle s') ∧
        s'.statistics.processed = s.statistics.processed + steps
    | .error e s' => ∃ c, Moves E (.idle s) c ∧ Fails E c e ∧ Leaves E c e s' := by
  have hannounced := moves_announced E s
  have hrun := run_cases E steps (s.announced E)
  rcases hres : (run E steps).run (s.announced E) with ⟨_ | status, s'⟩ | ⟨e, s'⟩ <;>
    rw [hres] at hrun
  · obtain ⟨hmoves, hprocessed⟩ := hrun
    rw [solve_unfinished hres]
    exact ⟨hannounced.trans hmoves, hprocessed⟩
  · obtain ⟨s₁, hmoves, hends⟩ := hrun
    obtain ⟨solution, t, hsolve, hsummary⟩ := solve_ended hres
    rw [hsolve]
    obtain rfl := hsummary.final_eq
    refine ⟨s₁, s', status, hannounced.trans hmoves, hends, hsummary, ⟨_, rfl⟩, ?_⟩
    cases hends <;> rfl
  · obtain ⟨c, hmoves, hfails⟩ := hrun
    rw [solve_failed hres]
    exact ⟨c, hannounced.trans hmoves, hfails⟩

/-- Where a search ends that does not fail: between two nodes, or where it summed up there. -/
theorem solve_ok {steps : Nat} {s s' : State F σ β κ} {outcome : Option (Solution F)}
    (h : (solve E steps).run s = .ok outcome s') : ∃ s₁, Moves E (.idle s) (.idle s₁) ∧
      (outcome = none ∧ s' = s₁ ∨
        ∃ status solution, outcome = some solution ∧ Summary E s₁ s' status solution) := by
  have hcases := solve_cases E steps s
  rw [h] at hcases
  rcases outcome with _ | solution
  · exact ⟨s', hcases.1, .inl ⟨rfl, rfl⟩⟩
  · obtain ⟨s₁, s₂, status, hmoves, hends, hsummary, -⟩ := hcases
    have hlast : Moves E (.idle s₁) (.idle s₂) := by
      cases hends with
      | limit => exact .single (.remark rfl)
      | exhausted => exact .refl
    exact ⟨s₂, hmoves.trans hlast, .inr ⟨status, solution, rfl, hsummary⟩⟩

/-- What holds between two nodes holds where a search ends with a result, or because of too many
    failures, if it stays when the search is summed up and when the last failed node is closed. -/
theorem solve_keeps {P : State F σ β κ → Prop} {s : State F σ β κ} (steps : Nat)
    (hidle : ∀ {s'}, Moves E (.idle s) (.idle s') → P s')
    (hsummary : ∀ {s₁ s' status solution}, P s₁ → Summary E s₁ s' status solution → P s')
    (habort : ∀ {id s' node tree released},
      Moves E (.idle s) ⟨.closing id (.pruned .solverError), [], s'⟩ →
      s'.tree.get? id = some node → s'.tree.close id (.pruned .solverError) = .ok (tree, released) →
        P (s'.closed E node (.pruned .solverError) tree)) :
    match (solve E steps).run s with
    | .ok _ s' | .error (.aborted ..) s' => P s'
    | .error e _ => ∃ c, Moves E (.idle s) c ∧ Fails E c e := by
  rcases hsolve : (solve E steps).run s with ⟨outcome, s'⟩ | ⟨e, s'⟩
  · obtain ⟨s₁, hmoves, ⟨-, rfl⟩ | ⟨status, solution, -, hsum⟩⟩ := solve_ok hsolve
    · exact hidle hmoves
    · exact hsummary (hidle hmoves) hsum
  · have hcases := solve_cases E steps s
    rw [hsolve] at hcases
    obtain ⟨c, hmoves, hfails, hleaves⟩ := hcases
    cases hleaves with
    | fault | missing | internal => exact ⟨c, hmoves, hfails⟩
    | aborted hnode hclose => exact habort hmoves hnode hclose

end Search

end Milp
