/-
  Nodes that are ruled out by their bounds, and the incumbents that rule them out.

  A node is pruned at four places, against the incumbent of that moment and by its own bound, the
  bound of its parent, or the copy of it in the frontier.  Incumbents only get better, so what one
  of them ruled out, the last one rules out.

  * `Engine.Rises`: the incumbent is replaced only by one that is better by more than the tolerance;
    `Moves.rises`: so it is in every search.
  * `Config.Justified`: the incumbent rules out every node that was pruned by its bound, and those
    that are about to be; `Move.justified`: every move keeps it.
  * `solve_justified`: the incumbent that a search ends with rules out every node that was pruned on
    the way.
-/
import Milp.Proofs.Chronicle
import Milp.Proofs.Contract
import Milp.Proofs.Cover

namespace Milp.Search

variable {σ β κ : Type} {E : Engine Exact σ β κ} {start : σ} {s s' : State Exact σ β κ}
  {c c' : Config Exact σ β κ}

/-! ## Incumbents -/

/-- The incumbent is the same as before, or better by more than the tolerance. -/
def Engine.Rises (E : Engine Exact σ β κ) (before after : Tracker Exact) : Prop :=
  after = before ∨ ∃ new, after.best = some new ∧ ∀ old, before.best = some old →
    E.sense.better new.objective old.objective E.settings.tolerance = true

theorem Engine.Rises.trans {t₁ t₂ t₃ : Tracker Exact} (hE : E.Checked) (h : E.Rises t₁ t₂)
    (h' : E.Rises t₂ t₃) : E.Rises t₁ t₃ := by
  rcases h with rfl | ⟨mid, hmid, hbetter⟩
  · exact h'
  · rcases h' with rfl | ⟨new, hnew, hbetter'⟩
    · exact .inr ⟨mid, hmid, hbetter⟩
    · refine .inr ⟨new, hnew, fun old hold => ?_⟩
      obtain ⟨t, ht, hnonneg⟩ := tolerance_eq hE
      have hfirst := hbetter old hold
      have hsecond := hbetter' mid hmid
      simp only [Sense.better, decide_eq_true_eq] at hfirst hsecond ⊢
      refine Exact.lt_of_lt_of_le hsecond (Exact.le_trans ?_ (Exact.le_of_lt hfirst))
      rw [ht]
      exact Exact.sub_le (Exact.le_refl (Exact.ne_nan_of_le_left (Exact.le_of_lt hfirst))) hnonneg

theorem Move.rises (h : Move E c c') (hsense : c.state.tracker.sense = E.sense) :
    E.Rises c.state.tracker c'.state.tracker := by
  cases h with
  | @adopt s stage candidate next tracker pruned frontier h hupdate hprune =>
    obtain ⟨-, hbest, himproves⟩ := update?_eq_some hupdate
    refine .inr ⟨candidate, hbest, fun old hold => ?_⟩
    have hold' : s.tracker.best = some old := hold
    have hsense' : s.tracker.sense = E.sense := hsense
    rwa [Tracker.improves, hold', hsense'] at himproves
  | _ => exact .inl rfl

/-- In the course of a search the incumbent is only replaced by better ones. -/
theorem Moves.rises (hE : E.Checked) (hc : c.Traced E start) (h : Moves E c c') :
    E.Rises c.state.tracker c'.state.tracker := by
  induction h with
  | refl => exact .inl rfl
  | tail hmoves hmove ih => exact ih.trans hE (hmove.rises (Moves.traced hmoves hc).sense)

/-! ## Pruned nodes -/

theorem State.Beats.of_tracker {value : Exact} (h : s.Beats E value)
    (htracker : s'.tracker = s.tracker) : s'.Beats E value := by
  unfold State.Beats at h ⊢
  rwa [htracker]

/-- The bound of a solved node is at least its objective, and a node that is about to be pruned by
    its bound is ruled out. -/
def Stage.Justified (E : Engine Exact σ β κ) (s : State Exact σ β κ) : Stage Exact κ → Prop
  | consulting id _ answer _ | weighing id _ answer .. => ∀ node x objective,
      s.tree.get? id = some node → answer = .optimal x objective →
        E.sense.normalize objective ≤ node.dualBound
  | closing id status => ∀ node, s.tree.get? id = some node → status = .pruned .bound →
      s.Beats E node.dualBound
  | _ => True

theorem Stage.Justified.of_eq {stage : Stage Exact κ} (h : stage.Justified E s)
    (htracker : s'.tracker = s.tracker)
    (hget : ∀ id, stage.current? = some id → s'.tree.get? id = s.tree.get? id) :
    stage.Justified E s' := by
  cases stage with
  | consulting id r answer left =>
    intro node x objective hnode hanswer
    exact h node x objective ((hget id rfl).symm.trans hnode) hanswer
  | weighing id r answer left name p =>
    intro node x objective hnode hanswer
    exact h node x objective ((hget id rfl).symm.trans hnode) hanswer
  | closing id status =>
    intro node hnode hstatus
    exact (h node ((hget id rfl).symm.trans hnode) hstatus).of_tracker htracker
  | _ => trivial

/-- The incumbent rules out every node that was pruned by its bound, and those that are about to
    be. -/
structure Config.Justified (E : Engine Exact σ β κ) (start : σ) (c : Config Exact σ β κ) :
    Prop where
  traced : c.Traced E start
  records : ∀ record ∈ c.state.records, record.status = .pruned .bound →
    c.state.Beats E (E.sense.normalize record.dualBound)
  doomed : ∀ key ∈ c.doomed, c.state.Beats E key.bound
  stage : c.stage.Justified E c.state

/-- The decision to prune a node by its bound is justified. -/
theorem Concludes.justified {stage : Stage Exact κ} {id : NodeId} {status : NodeStatus}
    {events : List (Event Exact)} (hE : E.Checked) (hM : E.problem.lp.Valid)
    (hc : Config.Justified E start ⟨stage, [], s⟩) (h : Concludes E s stage id status events) :
    (Stage.closing id status : Stage Exact κ).Justified E (s.concluded status events) := by
  intro node hget hstatus
  have hnode' : s.tree.get? id = some node := hget
  cases h with
  | dominated hnode h | bounded hnode h =>
    cases hnode.symm.trans hnode'
    simp only [State.dominates, Node.canPrune, Bool.and_eq_true, decide_eq_true_eq] at h
    exact h
  | refused h hwhole hupdate =>
    -- the tracker refuses the point of a node only if its bound rules it out
    obtain ⟨rfl, -⟩ := hc.traced.coherent.survives h
    have hbeats := beats_of_refused hE hc.traced.sense
      (fun i hi => (hc.traced.incumbent i hi).finite hM) hc.traced.stage.1.finite.2.1 hupdate
      (hc.stage node _ _ hnode' rfl)
    exact hbeats
  | _ => cases hstatus

/-- A node that was pruned by its bound is recorded with that bound. -/
theorem records_closed {node : Node Exact} {status : NodeStatus} {tree : Tree Exact}
    (hrecords : ∀ record ∈ s.records, record.status = .pruned .bound →
      s.Beats E (E.sense.normalize record.dualBound))
    (hnode : status = .pruned .bound → s.Beats E node.dualBound) :
    ∀ record ∈ (s.closed E node status tree).records, record.status = .pruned .bound →
      (s.closed E node status tree).Beats E (E.sense.normalize record.dualBound) := by
  intro record hmem hstatus
  rcases List.mem_cons.1 (show record ∈ E.record node status :: s.records from hmem) with
    rfl | hmem
  · have hbeats := hnode hstatus
    rw [Engine.record, Exact.normalize_normalize]
    exact hbeats
  · exact (hrecords record hmem hstatus).of_tracker rfl

/-- Every move keeps the incumbent better than what was pruned. -/
theorem Move.justified (hE : E.Checked) (hM : E.problem.lp.Valid) (h : Move E c c')
    (hc : c.Justified E start) : c'.Justified E start := by
  have htraced := h.traced hc.traced
  have hstage := hc.stage
  cases h with
  | @remark stage doomed s event h =>
    refine ⟨htraced, fun record hmem => ?_, hc.doomed, hstage.of_eq rfl fun _ _ => rfl⟩
    exact hc.records record (State.records_logged h ▸ hmem)
  | take | relax | select => exact ⟨htraced, hc.records, hc.doomed, trivial⟩
  | @conclude s stage id status events h =>
    refine ⟨htraced, fun record hmem => ?_, by simp, h.justified hE hM hc⟩
    exact hc.records record (h.records_eq ▸ hmem)
  | @record s id r answer before node strategy hbefore hrecord hlearn =>
    refine ⟨htraced, hc.records, hc.doomed, fun n x objective hn hanswer => ?_⟩
    obtain ⟨-, -, -, -, -, hbound⟩ := record?_spec hrecord
    have hsame : n = node := by
      have hget : (s.tree.modify id fun _ => node).get? id = some n := hn
      rw [Tree.get?_modify, if_pos rfl, hbefore] at hget
      exact (Option.some.inj hget).symm
    have hanswers : E.Answers start r (.optimal x objective) := hanswer ▸ hc.traced.stage
    obtain ⟨v, hv⟩ := Exact.isFinite_iff.1 hanswers.finite.2.1
    obtain ⟨w, hw⟩ := Exact.normalize_fin E.sense v
    rw [hsame, hbound, hanswer, hv]
    show E.sense.normalize (.fin v) ≤ Scalar.max before.dualBound (E.sense.normalize (.fin v))
    rw [hw]
    exact Scalar.le_max_right (Exact.le_refl (by simp))
  | @offer s id r answer callback left node shown proposal callbacks hnode hanswer hsolved =>
    refine ⟨htraced, hc.records, hc.doomed, ?_⟩
    rcases proposal with _ | p
    · exact hstage
    · exact hstage
  | refuse => exact ⟨htraced, hc.records, hc.doomed, hstage⟩
  | @adopt s stage candidate next tracker pruned frontier h hupdate hprune =>
    refine ⟨htraced, fun record hmem hstatus => ?_, fun key hkey => ?_, ?_⟩
    · exact beats_of_adopted frontier pruned.length _ hE hc.traced.sense hupdate
        (.inl (hc.records record hmem hstatus))
    · obtain ⟨-, hbest, -⟩ := update?_eq_some hupdate
      exact ⟨by simp [State.adopted, Tracker.hasIncumbent, hbest],
        Frontier.prunable_of_mem_pruned hprune hkey⟩
    · cases h with
      | proposed => exact hstage
      | accepted => exact fun _ _ hstatus => by cases hstatus
  | @sweep s stage key doomed node tree released hnode hclose =>
    obtain ⟨hkey, hdoomed⟩ := List.forall_mem_cons.1 hc.doomed
    obtain ⟨node', hnode', -, -, hbound, -⟩ := hc.traced.coherent.holds key (by
      simp [Config.waiting])
    cases hnode.symm.trans hnode'
    refine ⟨htraced, records_closed hc.records fun _ => hbound ▸ hkey, hdoomed, ?_⟩
    -- the current node is another one, and stays
    have hclosed := Tree.close_spec hc.traced.coherent.wellFormed hc.traced.coherent.settled hclose
    have hopen := openIds_swept E stage key doomed s node tree
    refine hstage.of_eq rfl fun id hid =>
      (hc.traced.coherent.keep_of_closed (by exact hclosed) hopen ?_).1
    exact List.mem_append_right _ (Option.mem_toList.2 hid)
  | spawn => exact ⟨htraced, hc.records, hc.doomed, trivial⟩
  | @close s id status node tree released hnode hclose hgo =>
    exact ⟨htraced, records_closed hc.records fun hstatus => hstage node hnode hstatus, by simp,
      trivial⟩

theorem Moves.justified (hE : E.Checked) (hM : E.problem.lp.Valid) (h : Moves E c c')
    (hc : c.Justified E start) : c'.Justified E start := by
  induction h with
  | refl => exact hc
  | tail _ hmove ih => exact hmove.justified hE hM ih

theorem justified_initial (E : Engine Exact σ β κ) (start : σ) (strategy : β) (callbacks : κ) :
    (Config.idle (State.initial E start strategy callbacks)).Justified E start :=
  ⟨traced_initial E start strategy callbacks, by simp [State.records, State.initial, Config.idle],
    by simp [Config.idle], trivial⟩

/-! ## Searches -/

/-- There is an incumbent that rules out every node that was pruned by its bound, if one was. -/
def Engine.RulesOut (E : Engine Exact σ β κ) (best : Option (Incumbent Exact))
    (records : List (Record Exact)) : Prop :=
  ∀ record ∈ records, record.status = .pruned .bound → ∃ i, best = some i ∧
    E.sense.normalize i.objective - E.settings.tolerance ≤ E.sense.normalize record.dualBound

theorem Config.Justified.rulesOut (hc : c.Justified E start) :
    E.RulesOut c.state.tracker.best c.state.records := by
  intro record hmem hstatus
  obtain ⟨hhas, hle⟩ := hc.records record hmem hstatus
  obtain ⟨i, hi⟩ := Option.isSome_iff_exists.1 hhas
  rw [normalized_of_best hi, hc.traced.sense] at hle
  exact ⟨i, hi, hle⟩

/-- What a search ends with: an incumbent that rules out every node that was pruned by its bound.
    The one that it returns does, the one that it has if it was not finished, and the one that it
    hands over if it was aborted. -/
def Engine.Settles (E : Engine Exact σ β κ) (initial : State Exact σ β κ) :
    EStateM.Result (SearchError Exact) (State Exact σ β κ) (Option (Solution Exact)) → Prop
  | .ok (some solution) s => E.RulesOut solution.incumbent s.records
  | .ok none s => E.RulesOut s.tracker.best s.records
  | .error (.aborted errors processed best) _ => ∃ c, Moves E (.idle initial) c ∧
      Fails E c (.aborted errors processed best) ∧ E.RulesOut best c.state.records
  | .error _ _ => True

/-- **Pruning is never regretted.**  Whatever the relaxation answers, the strategy decides and the
    callbacks propose: in the course of a search the incumbent is only replaced by one that is better
    by more than the tolerance; at every moment there is an incumbent that rules out the nodes that
    were pruned by their bounds so far, if there are any; and the incumbent that the search returns
    rules out all of them. -/
theorem solve_justified {P : Program Exact} (start : σ) (strategy : β) (callbacks : κ)
    (hP : MixedProgram.ofProgram P = .ok E.problem) (hE : E.check = .ok ()) :
    (∀ c c', Moves E (.idle (State.initial E start strategy callbacks)) c → Moves E c c' →
      E.Rises c.state.tracker c'.state.tracker) ∧
    (∀ c, Moves E (.idle (State.initial E start strategy callbacks)) c →
      E.RulesOut c.state.tracker.best c.state.records) ∧
    ∀ steps, E.Settles (State.initial E start strategy callbacks)
      ((solve E steps).run (State.initial E start strategy callbacks)) := by
  obtain ⟨hlp, hvalid, -⟩ := MixedProgram.ofProgram_eq_ok hP
  have hchecked := Engine.check_eq_ok hE
  have hjustified : ∀ c, Moves E (.idle (State.initial E start strategy callbacks)) c →
      c.Justified E start := fun c hmoves =>
    Moves.justified hchecked (hlp ▸ hvalid) hmoves (justified_initial E start strategy callbacks)
  refine ⟨fun c c' hmoves hmoves' => Moves.rises hchecked (hjustified c hmoves).traced hmoves',
    fun c hmoves => (hjustified c hmoves).rulesOut, fun steps => ?_⟩
  rcases hsolve : (solve E steps).run (State.initial E start strategy callbacks) with
    ⟨outcome, s'⟩ | ⟨e, s'⟩
  · obtain ⟨s₁, hmoves, ⟨rfl, rfl⟩ | ⟨status, solution, rfl, hsummary⟩⟩ := solve_ok hsolve
    · exact (hjustified _ hmoves).rulesOut
    · have hrules := (hjustified _ hmoves).rulesOut
      obtain rfl := hsummary.final_eq
      intro record hmem hstatus
      obtain ⟨i, hi, hle⟩ := hrules record hmem hstatus
      have hbest : s₁.tracker.best = some i := hi
      exact ⟨i, by simp [hsummary.incumbent_eq, hbest, Exact.positiveZero_eq], hle⟩
  · have hcases := solve_cases E steps (State.initial E start strategy callbacks)
    rw [hsolve] at hcases
    obtain ⟨c, hmoves, hfails, -⟩ := hcases
    cases hfails with
    | aborted hnode hclose h =>
      exact ⟨_, hmoves, .aborted hnode hclose h, (hjustified _ hmoves).rulesOut⟩
    | _ => trivial

/-- The root is branched on although a callback proposed the optimum, and the child is pruned after
    its solve. -/
theorem solve_justified_guess : ∃ solution s,
    (solve guessedSegment 3).run (State.initial guessedSegment () () ()) =
      .ok (some solution) s ∧
    s.records.map (fun record => (record.id, record.status)) =
      [(1, .pruned .bound), (0, .branched)] ∧
    guessedSegment.RulesOut solution.incumbent s.records := by
  have hrun : read? (fun solution s => (solution.isSome,
        s.records.map fun record => (record.id, record.status)))
      ((solve guessedSegment 3).run (State.initial guessedSegment () () ())) =
        some (true, [(1, .pruned .bound), (0, .branched)]) := by
    decide +kernel
  obtain ⟨outcome, s, hsolve, hread⟩ := read?_eq_some hrun
  simp only [Prod.mk.injEq, Option.isSome_iff_exists] at hread
  obtain ⟨⟨solution, rfl⟩, hrecords⟩ := hread
  have hsettles :=
    (solve_justified (E := guessedSegment) () () () segment_ok guessed_check).2.2 3
  rw [hsolve] at hsettles
  exact ⟨solution, s, hsolve, hrecords, hsettles⟩

end Milp.Search
