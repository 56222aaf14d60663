/-
  Whole points of nodes that survive become the incumbent.

  Whether a node is ruled out is asked of its bound, in minimisation; whether a point improves on
  the incumbent is asked of its objective, in the direction of the program.  The bound of a solved
  node is at least its objective, so where the first answer is no, the second one is yes.

  * `Config.Lineal.improves`: the two comparisons.
  * `Config.Accepts`: no whole point is refused; `settle_accepts`: what happens instead.
  * `Engine.proposals`: the proposals that callbacks make, found by calling them again.
  * `Config.Credited`: every update of the incumbent is an accepted node or an accepted proposal;
    `Move.credited`: every move keeps this.
  * `solve_accepts`: what a search can rely on.
-/
import Milp.Proofs.Accounting
import Milp.Proofs.Contract
import Milp.Proofs.Lineage
import Milp.Proofs.Protocol

namespace Milp

variable {F σ β κ : Type} [Extended F]

/-- The incumbent as far as a view shows it. -/
def View.tracker (view : View F) : Tracker F where
  sense := view.sense
  best := view.incumbent.map fun objective => ⟨objective, [], .relaxation, 0, 0⟩

/-- Whether an objective improves on the incumbent depends on the direction and the objective of the
    incumbent. -/
theorem Tracker.congr {t t' : Tracker F} (hsense : t.sense = t'.sense)
    (hbest : t.best.map Incumbent.objective = t'.best.map Incumbent.objective) :
    t.improves = t'.improves ∧ t.objective = t'.objective := by
  obtain ⟨sense, best, updates⟩ := t
  obtain ⟨sense', best', updates'⟩ := t'
  obtain rfl : sense = sense' := hsense
  rcases best with _ | i <;> rcases best' with _ | i'
  · exact ⟨rfl, rfl⟩
  · cases hbest
  · cases hbest
  · obtain heq : i.objective = i'.objective := Option.some.inj hbest
    constructor
    · funext objective tolerance
      simp only [improves, heq]
    · exact heq

/-- A value turned to minimisation is a number if the value is one. -/
theorem Sense.normalize_le_self [Scalar.Signed F] {s : Sense} {a : F} :
    s.normalize a ≤ s.normalize a ↔ a ≤ a := by
  cases s with
  | minimize => exact Iff.rfl
  | maximize => exact Scalar.Signed.neg_le_neg_iff

/-- An objective that improves on the incumbent is a number. -/
theorem Tracker.number_of_improves [Scalar.Ordered F] [Scalar.Signed F] {t : Tracker F}
    {objective tolerance : F} (h : t.improves objective tolerance = true) :
    objective ≤ objective := by
  unfold improves at h
  split at h
  · exact Scalar.Ordered.le_of_isFinite h
  · have hle := Scalar.Ordered.le_of_lt (of_decide_eq_true h)
    exact Sense.normalize_le_self.1 (Scalar.Ordered.refl_of_le hle).1

namespace Search

variable {E : Engine F σ β κ} {c c' : Config F σ β κ} {s : State F σ β κ}

/-! ## Points of nodes -/

section
variable [Scalar.Ordered F] [Scalar.Signed F] {start : σ}

/-- The objective of an incumbent is a number. -/
theorem Engine.Earned.number {i : Incumbent F} (h : E.Earned start i) :
    i.objective ≤ i.objective := by
  cases h with
  | relaxation h => exact Scalar.Ordered.le_of_isFinite h.finite.2.1
  | heuristic _ h => exact Tracker.number_of_improves h.improves.2

/-- The point of a node that survives improves on the incumbent: its objective is at most the bound
    of the node, and this is below the incumbent by more than the tolerance. -/
theorem Config.Lineal.improves [Scalar.Ranked F] (hE : E.Checked) (hc : c.Lineal E start)
    {id : NodeId} {x : List F} {objective : F} (h : Survives E c.state id x objective) :
    c.state.tracker.improves objective E.settings.tolerance = true := by
  obtain ⟨node, hnode, hbound, hanswer⟩ := h
  obtain ⟨hraised, hfinite⟩ := hc.derives hnode
  have hobjective : node.objective? = some objective := by
    rw [Node.objective?, hanswer]
    rfl
  rw [hobjective] at hraised
  have hvalue := hfinite objective hobjective
  unfold Tracker.improves
  cases hbest : c.state.tracker.best with
  | none => exact hvalue
  | some i =>
    have hnumber := Scalar.Ordered.le_of_isFinite (E.sense.isFinite_normalize hvalue)
    have hle : E.sense.normalize objective ≤ node.dualBound :=
      hraised ▸ Scalar.le_max_right hnumber
    have hincumbent : E.sense.normalize i.objective - E.settings.tolerance ≤
        E.sense.normalize i.objective - E.settings.tolerance :=
      Scalar.Ordered.sub_le_sub_right
        (Sense.normalize_le_self.2 (hc.traced.incumbent i hbest).number)
        hE.settings.tolerance.1
    have hprune : ¬ E.sense.normalize i.objective - E.settings.tolerance ≤ node.dualBound := by
      simpa [State.dominates, Tracker.hasIncumbent, Node.canPrune, Tracker.normalized,
        Tracker.objective, hbest, hc.traced.sense] using hbound
    simp only [hc.traced.sense]
    refine decide_eq_true (by_contra fun hnot => hprune ?_)
    exact Scalar.Ordered.le_trans ((Scalar.Ordered.not_lt hnumber hincumbent).1 hnot) hle

end

/-- A whole point that improves on the incumbent is installed, and its node is accepted. -/
theorem settle_accepts {id : NodeId} {r : Restrictions F} {answer : Answer F} {x : List F}
    {objective : F} {tracker : Tracker F}
    (hc : Config.Coherent ⟨.consulting id r answer [], [], s⟩) (h : Survives E s id x objective)
    (hwhole : fractional x E.settings.integrality E.candidates = .ok [])
    (hupdate : s.tracker.update? (s.found id x objective) E.settings.tolerance = some tracker) :
    ∃ (s' : State F σ β κ) (node : Node F) (tree : Tree F),
      (settle E id).run s = .ok () (s'.closed E node .accepted tree) ∧ node.id = id ∧
        s'.tracker = tracker := by
  have hadopts : Adopts E s (.consulting id r answer []) (s.found id x objective)
    (.closing id .accepted) := .accepted h hwhole
  obtain ⟨s', hinstall, htracker, -⟩ := install_ok hc hadopts hupdate
  -- the node is still there after others were closed for the new incumbent
  have hruns := runs_install hadopts
  simp only [Runs, hinstall] at hruns
  obtain ⟨⟨stage, doomed, _⟩, hmoves, rfl, -, hstage, hdoomed⟩ := hruns
  obtain rfl : stage = .closing id .accepted := hstage
  obtain rfl : doomed = [] := hdoomed
  have hcoherent := Moves.coherent hmoves hc
  obtain ⟨node, hnode, -⟩ := hcoherent.fits.live rfl
  rcases close_run E _ id .accepted rfl with
    ⟨hnone, -⟩ | ⟨node', tree, -, hnode', -, hclose⟩
  · cases hnone.symm.trans hnode
  · refine ⟨_, node', tree, ?_, hcoherent.id_eq hnode', htracker⟩
    obtain ⟨before, hbefore, hbound, hanswer⟩ := h
    have hrun : (settle E id).run s = (accept E id x objective).run s := by
      simp [settle, Tree.node, hbefore, hbound, hanswer, hwhole]
    have haccept : (accept E id x objective).run s =
        (install E (s.found id x objective) >>= fun installed =>
          if installed then close E id .accepted
          else do
            tally fun t => { t with pruned := t.pruned + 1 }
            close E id (.pruned .bound) : SearchM F σ β κ Unit).run s := rfl
    rw [hrun, haccept, EStateM.run_bind, hinstall]
    exact hclose

/-- The point of a node that survives improves on the incumbent; if it is whole, it is the new
    incumbent, and the node is accepted. -/
structure Config.Accepts (E : Engine F σ β κ) (c : Config F σ β κ) : Prop where
  improves : ∀ id x objective, Survives E c.state id x objective →
    ∃ tracker, c.state.tracker.update? (c.state.found id x objective) E.settings.tolerance =
      some tracker
  settles : ∀ id r answer x objective, c.stage = .consulting id r answer [] → c.doomed = [] →
    Survives E c.state id x objective →
    fractional x E.settings.integrality E.candidates = .ok [] →
      ∃ (s : State F σ β κ) (node : Node F) (tree : Tree F),
        (settle E id).run c.state = .ok () (s.closed E node .accepted tree) ∧ node.id = id ∧
          s.tracker.best = some (c.state.found id x objective)

theorem Config.Lineal.accepts [Scalar.Ordered F] [Scalar.Signed F] [Scalar.Ranked F] {start : σ}
    (hE : E.Checked) (hc : c.Lineal E start) : c.Accepts E := by
  have himproves : ∀ id x objective, Survives E c.state id x objective →
      ∃ tracker, c.state.tracker.update? (c.state.found id x objective) E.settings.tolerance =
        some tracker := fun id x objective h => ⟨_, if_pos (hc.improves hE h)⟩
  refine ⟨himproves, fun id r answer x objective hstage hdoomed h hwhole => ?_⟩
  obtain ⟨stage, doomed, s⟩ := c
  obtain rfl : stage = _ := hstage
  obtain rfl : doomed = [] := hdoomed
  obtain ⟨tracker, hupdate⟩ := himproves id x objective h
  obtain ⟨s', node, tree, hsettle, hid, rfl⟩ :=
    settle_accepts hc.chronicled.tidy.coherent h hwhole hupdate
  exact ⟨s', node, tree, hsettle, hid, (update?_eq_some hupdate).2.1⟩

/-! ## Proposals -/

/-- What a callback proposes when it is called, and what it was shown. -/
def Engine.proposal? (E : Engine F σ β κ) (k : κ) : Call F → Option (View F × Proposal F)
  | .solved place view =>
    match E.callbacks.invoke place view E.candidates k with
    | .ok (some p, _) => some (view, p)
    | _ => none
  | .closed .. => none

/-- What is proposed in some calls. -/
def Engine.proposals (E : Engine F σ β κ) : List (Call F) → κ → List (View F × Proposal F)
  | [], _ => []
  | call :: calls, k => (E.proposal? k call).toList ++
    match E.call k call with
    | .ok k => E.proposals calls k
    | .error _ => []

/-- Does a proposal pass its check? -/
def Engine.passes (E : Engine F σ β κ) (tracker : Tracker F) (p : Proposal F) : Bool :=
  match p.check E.problem E.candidates tracker E.settings with
  | .ok (.ok _) => true
  | _ => false

/-- Does a proposal pass its check against the incumbent that was shown with the node? -/
def Engine.accepts (E : Engine F σ β κ) : View F × Proposal F → Bool
  | (view, p) => E.passes view.tracker p

omit [Extended F] in
/-- The calls after some that return start where these leave the callbacks. -/
theorem Engine.proposals_append {calls : List (Call F)} {k k' : κ}
    (h : E.replay calls k = .ok k') (calls' : List (Call F)) :
    E.proposals (calls ++ calls') k = E.proposals calls k ++ E.proposals calls' k' := by
  induction calls generalizing k with
  | nil =>
    cases h
    rfl
  | cons call calls ih =>
    have hreplay : E.replay (call :: calls) k = (E.call k call).bind (E.replay calls) :=
      List.foldlM_cons ..
    rw [hreplay] at h
    rw [List.cons_append, proposals, proposals, List.append_assoc]
    rcases hcall : E.call k call with fault | after
    · rw [hcall] at h
      cases h
    · rw [hcall] at h
      simp only
      rw [ih h]

omit [Extended F] in
theorem Engine.proposals_singleton (call : Call F) (k : κ) :
    E.proposals [call] k = (E.proposal? k call).toList := by
  rw [proposals]
  cases E.call k call <;> exact List.append_nil _

omit [Extended F] in
/-- When a node is reported nothing is proposed. -/
theorem Engine.proposals_reports (record : Record F) (places : List Nat) (k : κ) :
    E.proposals (places.map (.closed · record)) k = [] := by
  induction places generalizing k with
  | nil => rfl
  | cons place places ih => exact ih _

/-- A check depends on the direction of the search and the objective of the incumbent. -/
theorem Engine.passes_congr {t t' : Tracker F} (hsense : t.sense = t'.sense)
    (hbest : t.best.map Incumbent.objective = t'.best.map Incumbent.objective) (p : Proposal F) :
    E.passes t p = E.passes t' p := by
  have hcheck : ∀ tolerance actual,
      p.checkObjective t tolerance actual = p.checkObjective t' tolerance actual := by
    intro tolerance actual
    obtain ⟨himproves, hobjective⟩ := Tracker.congr hsense hbest
    rw [Proposal.checkObjective, Proposal.checkObjective, himproves, hobjective]
  simp only [Engine.passes, Proposal.check, hcheck]

/-! ## Updates of the incumbent -/

/-- Is a proposal to be adopted that passes its check? -/
def Stage.pledged (E : Engine F σ β κ) (tracker : Tracker F) : Stage F κ → Nat
  | weighing _ _ _ _ _ p => (E.passes tracker p).toNat
  | _ => 0

/-- The proposals that passed their checks. -/
def Engine.acceptedProposals (E : Engine F σ β κ) (start s : State F σ β κ) :
    List (View F × Proposal F) :=
  (E.proposals (E.calls s.history) start.callbacks).filter E.accepts

/-- The statistics count the updates of the incumbent, and each of them is an accepted node or a
    proposal that passed its check. -/
structure Config.Credited (E : Engine F σ β κ) (start : State F σ β κ) (c : Config F σ β κ) :
    Prop where
  counted : c.state.statistics.incumbentUpdates = c.state.tracker.updates
  credited : c.state.tracker.updates + c.stage.pledged E c.state.tracker =
    c.decided.countP (· = .accepted) + (E.acceptedProposals start c.state).length

namespace Config.Credited

variable {start : State F σ β κ}

/-- A move that calls no callback. -/
theorem of_isQuiet (hc : c.Credited E start) (events : List (Event F))
    (hhistory : c'.state.history = events ++ c.state.history)
    (hquiet : ∀ event ∈ events, event.isQuiet = true)
    (hupdates : c'.state.statistics.incumbentUpdates = c.state.statistics.incumbentUpdates)
    (htracker : c'.state.tracker.updates = c.state.tracker.updates)
    (hpledged : c'.stage.pledged E c'.state.tracker = c.stage.pledged E c.state.tracker)
    (hdecided : c'.decided.countP (· = .accepted) = c.decided.countP (· = .accepted)) :
    c'.Credited E start where
  counted := by rw [hupdates, htracker, hc.counted]
  credited := by
    rw [htracker, hpledged, hdecided, Engine.acceptedProposals, hhistory,
      Engine.calls_of_isQuiet hquiet]
    exact hc.credited

/-- A node is closed, with a decision that was made before. -/
theorem of_closed {node : Node F} {status : NodeStatus} {tree : Tree F} (hc : c.Credited E start)
    (hreplay : E.replay (E.calls c.state.history) start.callbacks = .ok c.state.callbacks)
    (hstate : c'.state = c.state.closed E node status tree)
    (hpledged : c'.stage.pledged E c.state.tracker = c.stage.pledged E c.state.tracker)
    (hdecided : c'.decided.Perm c.decided) : c'.Credited E start where
  counted := by
    rw [hstate]
    exact hc.counted
  credited := by
    have hcalls : E.calls c'.state.history = E.calls c.state.history ++
        (List.range E.callbacks.length).map (.closed · (E.record node status)) := by
      rw [hstate]
      rfl
    have haccepted : E.acceptedProposals start c'.state = E.acceptedProposals start c.state := by
      rw [Engine.acceptedProposals, hcalls, Engine.proposals_append hreplay,
        Engine.proposals_reports, List.append_nil]
      rfl
    rw [haccepted, hdecided.countP_eq, hstate]
    exact hpledged ▸ hc.credited

/-- A callback is asked, and what it proposes is to be adopted if it passes its check. -/
theorem offer {id : NodeId} {r : Restrictions F} {answer : Answer F}
    {callback : Callback F κ} {left : Callbacks F κ} {node : Node F}
    {proposal : Option (Proposal F)} {callbacks : κ}
    (hc : Config.Credited E start ⟨.consulting id r answer (callback :: left), [], s⟩)
    (hattended : Config.Attended E start ⟨.consulting id r answer (callback :: left), [], s⟩)
    (hsense : s.tracker.sense = E.sense) (hnode : s.tree.get? id = some node)
    (hsolved : callback.onSolved (E.view node answer r s.tracker) E.candidates s.callbacks =
      .ok (proposal, callbacks)) :
    Config.Credited E start ⟨.offered id r answer left callback.name proposal, [],
      { s with
        callbacks
        history := .offered callback.name (E.view node answer r s.tracker) :: s.history }⟩ := by
  obtain rfl : node.id = id := hattended.chronicled.tidy.coherent.id_eq hnode
  have hreplay : E.replay (E.calls s.history) start.callbacks = .ok s.callbacks := hattended.replay
  have hmade : E.proposal? s.callbacks (.solved (s.history.countP (Event.shows node.id))
      (E.view node answer r s.tracker)) =
        proposal.map ((E.view node answer r s.tracker, ·)) := by
    simp only [Engine.proposal?, Callbacks.invoke, hattended.asked.1, hsolved]
    cases proposal <;> rfl
  have haccepted : E.acceptedProposals start { s with
      callbacks
      history := .offered callback.name (E.view node answer r s.tracker) :: s.history } =
        E.acceptedProposals start s ++
          (proposal.map ((E.view node answer r s.tracker, ·))).toList.filter E.accepts := by
    show List.filter E.accepts (E.proposals (E.calls s.history ++
      [.solved (s.history.countP (Event.shows node.id)) (E.view node answer r s.tracker)]) _) = _
    rw [Engine.proposals_append hreplay, Engine.proposals_singleton, hmade, List.filter_append]
    rfl
  have hbefore : s.tracker.updates = (Config.decided _).countP _ + _ := hc.credited
  refine ⟨hc.counted, ?_⟩
  show s.tracker.updates + _ = List.countP _ (Config.decided _) + _
  rw [haccepted, List.length_append, ← Nat.add_assoc]
  rcases proposal with _ | p
  · exact hbefore
  · have hview : E.accepts (E.view node answer r s.tracker, p) = E.passes s.tracker p :=
      Engine.passes_congr hsense.symm (by simp [View.tracker, Engine.view, Function.comp_def]) p
    refine congrArg₂ (· + ·) hbefore ?_
    show (E.passes s.tracker p).toNat = ([(_, p)].filter E.accepts).length
    rw [List.filter_singleton, hview]
    cases E.passes s.tracker p <;> rfl

/-- A proposal that passed its check is adopted, or the point of an accepted node. -/
theorem adopt {stage next : Stage F κ} {candidate : Incumbent F} {tracker : Tracker F}
    {pruned : List (NodeKey F)} {frontier : Frontier F}
    (hc : Config.Credited E start ⟨stage, [], s⟩) (h : Adopts E s stage candidate next)
    (hupdate : s.tracker.update? candidate E.settings.tolerance = some tracker) :
    Config.Credited E start ⟨next, pruned, s.adopted tracker frontier pruned.length⟩ := by
  have hupdates : tracker.updates = s.tracker.updates + 1 := by
    have himproves := (update?_eq_some hupdate).2.2
    rw [Tracker.update?, if_pos himproves] at hupdate
    exact congrArg Tracker.updates (Option.some.inj hupdate).symm
  have hbefore : s.tracker.updates + stage.pledged E s.tracker =
      List.countP _ (s.records.map Record.status ++ stage.decision?.toList) +
        (E.acceptedProposals start s).length := hc.credited
  have hdoomed : (pruned.map fun _ => NodeStatus.pruned .bound).countP (· = .accepted) = 0 := by
    simp
  -- before, a proposal was to be adopted; or now, an accepted node is to be closed
  have hone : next.pledged E tracker = 0 ∧ stage.pledged E s.tracker +
      next.decision?.toList.countP (· = .accepted) =
        1 + stage.decision?.toList.countP (· = .accepted) := by
    cases h with
    | proposed hcheck =>
      exact ⟨rfl, by simp [Stage.pledged, Stage.decision?, Engine.passes, hcheck]⟩
    | accepted => exact ⟨rfl, rfl⟩
  constructor
  · show s.statistics.incumbentUpdates + 1 = tracker.updates
    rw [hupdates]
    exact congrArg (· + 1) hc.counted
  · show tracker.updates + next.pledged E tracker = List.countP _ (s.records.map Record.status ++
      (pruned.map (fun _ => NodeStatus.pruned .bound) ++ next.decision?.toList)) +
        (E.acceptedProposals start s).length
    rw [List.countP_append] at hbefore
    rw [List.countP_append, List.countP_append, hdoomed, hupdates]
    omega

end Config.Credited

/-- Every update of the incumbent is accounted for. -/
theorem Move.credited {start : State F σ β κ} (h : Move E c c') (hattended : c.Attended E start)
    (hsense : c.state.tracker.sense = E.sense) (hc : c.Credited E start) :
    c'.Credited E start := by
  cases h with
  | @remark stage doomed s event h =>
    refine hc.of_isQuiet [event] rfl ?_ rfl rfl rfl ?_
    · simpa using Event.isQuiet_of_isRemark h
    · rw [Config.decided, State.records_logged h]
      rfl
  | @take s key rest node hpop hnode =>
    exact hc.of_isQuiet [.taken key] rfl (by simp [Event.isQuiet]) rfl rfl rfl rfl
  | @conclude s stage id status events h =>
    refine hc.of_isQuiet events rfl ?_ (Statistics.count_incumbentUpdates ..) rfl ?_ ?_
    · cases h <;> simp [Event.isQuiet]
    · cases h <;> rfl
    · have hstatus : status ≠ .accepted := by cases h <;> simp
      show List.countP _ ((s.concluded status events).records.map Record.status ++ [status]) =
        List.countP _ (s.records.map Record.status ++ stage.decision?.toList)
      rw [h.records_eq, h.decision?]
      simp [hstatus]
  | @relax s id node r reply =>
    exact hc.of_isQuiet [.solved id reply.notes] rfl (by simp [Event.isQuiet]) rfl rfl rfl rfl
  | @offer s id r answer callback left node shown proposal callbacks hnode hanswer hsolved =>
    obtain ⟨-, fresh, hfresh, -, hsame⟩ := hattended.chronicled.tidy.coherent.fits
    cases hnode.symm.trans hfresh
    cases hanswer.symm.trans hsame
    exact hc.offer hattended hsense hnode hsolved
  | @refuse s id r answer left name p violation hcheck =>
    refine hc.of_isQuiet [.rejected name id violation] rfl (by simp [Event.isQuiet]) rfl rfl ?_ rfl
    simp [Stage.pledged, Engine.passes, hcheck]
  | adopt h hupdate => exact hc.adopt h hupdate
  | @sweep s stage key doomed node tree released =>
    exact hc.of_closed hattended.replay rfl rfl List.perm_middle.symm
  | close => exact hc.of_closed hattended.replay rfl rfl (Config.decided_closed ..)
  | record | select | spawn =>
    exact hc.of_isQuiet [] rfl (by simp) rfl rfl rfl rfl

/-- At the start there is no incumbent. -/
theorem Config.credited_initial (E : Engine F σ β κ) (relaxation : σ) (strategy : β)
    (callbacks : κ) : (Config.idle (State.initial E relaxation strategy callbacks)).Credited E
      (State.initial E relaxation strategy callbacks) := ⟨rfl, rfl⟩

theorem Moves.credited {relaxation : σ} {strategy : β} {callbacks : κ}
    (h : Moves E (.idle (State.initial E relaxation strategy callbacks)) c) :
    c.Credited E (State.initial E relaxation strategy callbacks) := by
  induction h with
  | refl => exact Config.credited_initial E relaxation strategy callbacks
  | tail hmoves hmove ih =>
    refine hmove.credited ?_ ?_ ih
    · exact Moves.attended hmoves (Config.attended_initial E relaxation strategy callbacks)
    · exact (Moves.traced hmoves (traced_initial E relaxation strategy callbacks)).sense

/-- Every update of the incumbent is counted, and is a node that was accepted or a proposal that
    passed its check. -/
structure State.Credited (E : Engine F σ β κ) (start s : State F σ β κ) : Prop where
  counted : s.statistics.incumbentUpdates = s.tracker.updates
  credited : s.tracker.updates = s.trace.countP (fun record => record.status = .accepted) +
    (E.acceptedProposals start s).length

/-- Between two nodes no decision is left. -/
theorem Config.Credited.state {start : State F σ β κ} (hc : (Config.idle s).Credited E start) :
    State.Credited E start s where
  counted := hc.counted
  credited := by
    have hcredited := hc.credited
    simp only [Config.decided, Config.idle, Stage.decision?, Stage.pledged] at hcredited
    rw [State.countP_accepted]
    simpa using hcredited

/-- Summing up calls no callback. -/
theorem State.Credited.of_summary {start s' : State F σ β κ} {status : SearchStatus}
    {solution : Solution F} (h : State.Credited E start s)
    (hsummary : Summary E s s' status solution) : State.Credited E start s' := by
  obtain rfl := hsummary.final_eq
  refine ⟨h.counted, ?_⟩
  show _ = _ + (List.filter _ (E.proposals (E.calls s.history ++ []) _)).length
  rw [List.append_nil]
  exact h.credited

/-- **Whole points that survive are accepted.**  Whatever relaxation, strategy and callbacks do, at
    every moment of every search the point of a solved node that its bound does not rule out
    improves on the incumbent, and if it is whole its node is accepted: none is pruned because its
    point was refused.  So before each node is taken, and where the search ends, the updates of the
    incumbent are the accepted nodes and the proposals that passed their check. -/
theorem solve_accepts [Scalar.Ordered F] [Scalar.Signed F] [Scalar.Ranked F]
    (hE : E.check = .ok ()) (start : σ) (strategy : β) (callbacks : κ) (steps : Nat) :
    let s₀ := State.initial E start strategy callbacks
    (∀ c, Moves E (.idle s₀) c → c.Accepts E) ∧
    (∀ s, Moves E (.idle s₀) (.idle s) → State.Credited E s₀ s) ∧
    match (solve E steps).run s₀ with
    | .ok _ s | .error (.aborted ..) s => State.Credited E s₀ s
    | .error e _ => ∃ c, Moves E (.idle s₀) c ∧ Fails E c e := by
  intro s₀
  refine ⟨fun c hmoves => ?_, fun s hmoves => (Moves.credited hmoves).state, ?_⟩
  · exact (Moves.lineal hmoves (Config.lineal_initial E start strategy callbacks)).accepts
      (Engine.check_eq_ok hE)
  · refine solve_keeps steps (fun hmoves => (Moves.credited hmoves).state)
      State.Credited.of_summary fun {id s node tree _} hmoves _ _ => ?_
    have hattended := Moves.attended hmoves (Config.attended_initial E start strategy callbacks)
    have hclosed : (Config.idle (s.closed E node (.pruned .solverError) tree)).Credited E s₀ :=
      (Moves.credited hmoves).of_closed hattended.replay rfl rfl (Config.decided_closed ..)
    exact hclosed.state

/-- The search for the least whole number of the segment, with a callback that always proposes 2. -/
def outbidSegment : Engine Exact Unit Unit Unit :=
  { segmentSearch with callbacks := [.scripted "guess" [⟨none, ⟨[.fin 2], .fin 2⟩⟩]] }

theorem outbid_check : outbidSegment.check = .ok () := rfl

/-- The proposal is accepted at the root.  At the upper child it is refused, and the point of that
    child is accepted. -/
theorem solve_accepts_outbid : ∃ s,
    (∃ outcome, (solve outbidSegment 3).run (State.initial outbidSegment () () ()) =
      .ok outcome s) ∧
    State.Credited outbidSegment (State.initial outbidSegment () () ()) s ∧
    (s.tracker.updates, s.statistics.rejections) = (2, 1) ∧
    s.trace.countP (fun record => record.status = .accepted) = 1 ∧
    (outbidSegment.acceptedProposals (State.initial outbidSegment () () ()) s).length = 1 := by
  have hrun : read? (fun _ s => (s.tracker.updates, s.statistics.rejections,
        s.trace.countP fun record => record.status = .accepted))
      ((solve outbidSegment 3).run (State.initial outbidSegment () () ())) = some (2, 1, 1) := by
    decide +kernel
  obtain ⟨outcome, s, hsolve, hread⟩ := read?_eq_some hrun
  obtain ⟨hupdates, hread⟩ := Prod.mk.inj hread
  obtain ⟨hrejections, haccepted⟩ := Prod.mk.inj hread
  have hcredited := (solve_accepts outbid_check () () () 3).2.2
  rw [hsolve] at hcredited
  have hbalance := hcredited.credited
  rw [hupdates, haccepted] at hbalance
  exact ⟨s, ⟨outcome, hsolve⟩, hcredited, Prod.ext hupdates hrejections, haccepted,
    (Nat.add_left_cancel hbalance).symm⟩

end Search

end Milp
