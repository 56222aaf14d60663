/-
  Proposals that are rejected do not matter.

  A search whose callbacks propose nothing, or only what is rejected, comes to the same as the
  search without them: to the same status, incumbent and trace, or to the same error.  Two things
  besides proposals pass from callbacks to the search, and have to be ruled out for that: a callback
  that fails ends the search, and the time that callbacks take counts for the time limit.

  * `Engine.Visits`, `Config.Declines`: the callbacks of a search fail nowhere, and each of their
    proposals is rejected.
  * `Engine.mute`: the same search without callbacks.
  * `callbacks_declined`: callbacks whose proposals are rejected leave alone what the search
    without callbacks has.
  * `solve_muted`: the two searches come to the same.
  * `Config.Refuses`: only the part about the proposals; `refusing_differs`: it is not enough.
-/
import Milp.Callback.Scripted
import Milp.Proofs.Heuristic
import Milp.Proofs.Lockstep

namespace Milp.Search

variable {F σ β κ : Type} [Extended F]

/-! ## Searches whose proposals are rejected -/

/-- A configuration that a search comes through while it processes a node. -/
inductive Engine.Visits (E : Engine F σ β κ) (start : State F σ β κ) (c : Config F σ β κ) :
    Prop where
  | node {steps s key rest node} (hrun : (solve E steps).run start = .ok none s)
      (hlimit : E.limit? s.statistics.processed = none)
      (hpop : s.frontier.pop? = some (key, rest)) (hnode : s.tree.get? key.id = some node)
      (hmoves : Moves E ⟨.opened key.id, [], s.taken key rest node⟩ c)
      (hprocessed : c.state.statistics.processed = s.statistics.processed + 1)

/-- A callback that is asked does not fail, and a proposal that is made is rejected. -/
def Config.Declines (E : Engine F σ β κ) (c : Config F σ β κ) : Prop :=
  match c.stage with
  | .consulting id r _ (callback :: _) => ∀ node shown, c.state.tree.get? id = some node →
      node.answer = some shown → ∃ proposal callbacks,
        callback.onSolved (E.view node shown r c.state.tracker) E.candidates c.state.callbacks =
          .ok (proposal, callbacks)
  | .weighing _ _ _ _ _ p => ∃ violation,
      p.check E.problem E.candidates c.state.tracker E.settings = .ok (.error violation)
  | _ => True

/-- The same search without callbacks. -/
def Engine.mute {F : Type} (E : Engine F σ β κ) (clock : SearchClock) : Engine F σ β Unit :=
  E.vary E.settings.nodeLimit [] clock

/-- The search without callbacks rejects nothing. -/
def RejectsNothing (_ : κ) (_ : Nat) (_ : Unit) (rejections : Nat) : Prop := rejections = 0

variable {E : Engine F σ β κ} {s : State F σ β κ} {s' : State F σ β Unit} {id : NodeId}
  {r : Restrictions F} {answer : Answer F}

omit [Extended F] in
theorem mute_paired (clock : SearchClock) : E.Paired RejectsNothing (E.mute clock) where
  varied := ⟨_, _, _, rfl⟩
  notify _ _ _ _ _ h := h

omit [Extended F] in
/-- What a callback and the check of its proposal change is nothing that the search without
    callbacks has. -/
theorem Alike.consulted (h : Alike RejectsNothing s s') (callbacks : κ) (rejections : Nat)
    (events : List (Event F)) (hevents : events.filterMap Event.record? = []) :
    Alike RejectsNothing
      { s with
        callbacks
        statistics := { s.statistics with rejections }
        history := events ++ s.history } s' := by
  obtain ⟨hrecords, hcallbacks⟩ := h
  refine .dressed (hrecords.trans ?_) hcallbacks
  show _ = List.filterMap Event.record? (events ++ s.history)
  rw [List.filterMap_append, hevents]
  rfl

/-- A callback that does not fail and whose proposal is rejected. -/
theorem consult_declined {callback : Callback F κ} {left : Callbacks F κ}
    (hc : Config.Coherent ⟨.consulting id r answer (callback :: left), [], s⟩)
    (hdeclines : ∀ c, Moves E ⟨.consulting id r answer (callback :: left), [], s⟩ c →
      c.state.statistics.processed = s.statistics.processed → c.Declines E)
    (h : Alike RejectsNothing s s') :
    Lockstep RejectsNothing (consult E id r callback) (pure ()) s s' := by
  -- the node is there and has an answer, so the callback is asked
  have hfits : Stage.Fits s.tree (.consulting id r answer (callback :: left)) := hc.fits
  obtain ⟨-, node, hnode, -, hanswer⟩ := hfits
  obtain ⟨proposal, callbacks, hsolved⟩ := hdeclines _ .refl rfl node answer hnode hanswer
  have hoffer := @Move.offer F σ β κ _ E s id r answer callback left node answer proposal callbacks
    hnode hanswer hsolved
  unfold Lockstep
  cases proposal with
  | none =>
    have hrun : (consult E id r callback).run s = .ok () { s with
        callbacks
        history := .offered callback.name (E.view node answer r s.tracker) :: s.history } := by
      simp [consult, Tree.node, hnode, hanswer, hsolved, emit]
    rw [hrun]
    exact .ok (h.consulted callbacks s.statistics.rejections [.offered ..] rfl)
  | some p =>
    obtain ⟨violation, hcheck⟩ := hdeclines _ (.single hoffer) rfl
    have hrun : (consult E id r callback).run s = .ok () { s with
        callbacks
        statistics := { s.statistics with rejections := s.statistics.rejections + 1 }
        history := .rejected callback.name id violation ::
          .offered callback.name (E.view node answer r s.tracker) :: s.history } := by
      simp [consult, Tree.node, hnode, hanswer, hsolved, emit, weigh, hcheck, tally]
    rw [hrun]
    exact .ok (h.consulted callbacks _ [.rejected .., .offered ..] rfl)

/-- Callbacks whose proposals are rejected leave alone what the search without callbacks has. -/
theorem callbacks_declined (left : Callbacks F κ)
    (hc : Config.Coherent ⟨.consulting id r answer left, [], s⟩)
    (hdeclines : ∀ c, Moves E ⟨.consulting id r answer left, [], s⟩ c →
      c.state.statistics.processed = s.statistics.processed → c.Declines E)
    (h : Alike RejectsNothing s s') :
    Lockstep RejectsNothing (left.forM (consult E id r)) (pure ()) s s' := by
  induction left generalizing s s' with
  | nil => exact .returns h
  | cons callback left ih =>
    rw [List.forM_eq_forM, List.forM_cons]
    show Lockstep RejectsNothing _ (pure () >>= fun _ => pure ()) s s'
    have hruns : Runs E (consult E id r callback) ⟨.consulting id r answer (callback :: left), [], s⟩
        (At (.consulting id r answer left)) := runs_consult
    refine .bind_runs hruns (consult_declined hc hdeclines h)
      fun _ c s₁' hmoves hsame hstage h => ?_
    obtain ⟨stage, doomed, s₁⟩ := c
    obtain ⟨rfl, rfl⟩ := hstage
    exact ih (hmoves.coherent hc)
      (fun c hmoves' hsame' => hdeclines c (hmoves.trans hmoves') (hsame'.trans hsame)) h

/-! ## The two searches -/

/-- What a search whose proposals are rejected, and then the search without callbacks, come to: the
    solutions differ in the number of rejections and in the time only, or the errors are the same,
    and the same nodes were closed. -/
inductive Unaffected : EStateM.Result (SearchError F) (State F σ β κ) (Option (Solution F)) →
    EStateM.Result (SearchError F) (State F σ β Unit) (Option (Solution F)) → Prop where
  | unfinished {t t'} (htrace : t'.trace = t.trace) : Unaffected (.ok none t) (.ok none t')
  | solved {solution t t'} (elapsed : Duration) (htrace : t'.trace = t.trace) :
      Unaffected (.ok (some solution) t) (.ok (some { solution with
        statistics := { solution.statistics with rejections := 0, elapsed } }) t')
  | failed {e t t'} (htrace : t'.trace = t.trace) : Unaffected (.error e t) (.error e t')

/-- **Rejected proposals do not influence a search.**  If in a search no callback fails and every
    proposal is rejected, the search without callbacks closes the same nodes and comes to the same
    solution, but for the number of rejections and the time, or to the same error.  The time that
    callbacks take may not matter to the limits. -/
theorem solve_muted (E : Engine F σ β κ) (start : σ) (strategy : β) (callbacks : κ)
    (clock : SearchClock) (hlimit : ∀ n, (E.mute clock).limit? n = E.limit? n)
    (hdeclines : ∀ c, E.Visits (State.initial E start strategy callbacks) c → c.Declines E) :
    (E.mute clock).check = E.check ∧ ∀ steps,
      Unaffected ((solve E steps).run (State.initial E start strategy callbacks))
        ((solve (E.mute clock) steps).run (State.initial (E.mute clock) start strategy ())) := by
  refine ⟨rfl, fun steps => ?_⟩
  have hpair := mute_paired (E := E) clock
  have hstart : Alike RejectsNothing ((State.initial E start strategy callbacks).announced E)
      ((State.initial (E.mute clock) start strategy ()).announced (E.mute clock)) :=
    .dressed rfl rfl
  have hconcur := solve_lockstep (run_lockstep steps
    (P := fun _ s => ∃ n, (run E n).run ((State.initial E start strategy callbacks).announced E) =
      .ok none s) ?_ ?_ ⟨0, rfl⟩ hstart)
  · generalize (solve E steps).run _ = result at hconcur ⊢
    generalize (solve (E.mute clock) steps).run _ = result' at hconcur ⊢
    cases hconcur with
    | unfinished h => exact .unfinished h.trace_eq
    | @ended u u' t t' status solution solution' h hsummary hsummary' =>
      have hnothing : u'.statistics.rejections = 0 := h.related
      have hsolution := h.solution_eq hpair hsummary hsummary'
      rw [hnothing] at hsolution
      subst hsolution
      exact .solved _ (hsummary'.trace_eq.trans (h.trace_eq.trans hsummary.trace_eq.symm))
    | failed h => exact .failed h.trace_eq
  · rintro n s s' ⟨done, hdone⟩ h
    have hcoherent : (Config.idle s).Coherent :=
      Moves.coherent ((moves_announced E _).trans (moves_of_run hdone))
        (Config.coherent_initial E start strategy callbacks)
    refine step_lockstep hpair (hlimit _) (fun key rest node r hnone hpop hnode => ?_) h
    intro answer s₁ s₁' hmoves hsame h
    have htake : Move E (.idle s) ⟨.opened key.id, [], s.taken key rest node⟩ := .take hpop hnode
    refine callbacks_declined E.callbacks (hmoves.coherent (htake.coherent hcoherent))
      (fun c hmoves' hsame' => hdeclines c ?_) h
    exact .node (solve_unfinished hdone) hnone hpop hnode (hmoves.trans hmoves')
      (hsame'.trans hsame)
  · rintro n s s₁ ⟨done, hdone⟩ hstep
    exact ⟨done + 1, run_snoc hdone hstep⟩

/-! ## Callbacks whose proposals are always rejected -/

/-- The callbacks that are asked, and the one that made a proposal, are those of the engine, and
    they see the program of the engine. -/
def Stage.Asks (E : Engine F σ β κ) : Stage F κ → Prop
  | .consulting _ _ _ left => left ⊆ E.callbacks
  | .weighing _ _ _ left _ p => left ⊆ E.callbacks ∧ ∃ callback ∈ E.callbacks, ∃ view k k',
      view.problem = E.problem ∧ callback.onSolved view E.candidates k = .ok (some p, k')
  | _ => True

theorem Move.asks {c c' : Config F σ β κ} (h : Move E c c') (hc : c.stage.Asks E) :
    c'.stage.Asks E := by
  cases h with
  | record => exact List.Subset.refl _
  | @offer s id r answer callback left node shown proposal callbacks hnode hanswer hsolved =>
    obtain ⟨hcallback, hleft⟩ := List.cons_subset.1 hc
    cases proposal with
    | none => exact hleft
    | some p => exact ⟨hleft, callback, hcallback, _, _, _, rfl, hsolved⟩
  | refuse => exact hc.1
  | adopt h =>
    cases h with
    | proposed => exact hc.1
    | accepted => trivial
  | remark | sweep => exact hc
  | _ => trivial

/-- A proposal that is made is rejected; a callback that is asked may fail. -/
def Config.Refuses (E : Engine F σ β κ) (c : Config F σ β κ) : Prop :=
  match c.stage with
  | .weighing _ _ _ _ _ p => ∃ violation,
      p.check E.problem E.candidates c.state.tracker E.settings = .ok (.error violation)
  | _ => True

section Visits

variable {start : State F σ β κ} {c : Config F σ β κ}

theorem Engine.Visits.asks (h : E.Visits start c) : c.stage.Asks E := by
  obtain ⟨-, -, -, -, hmoves, -⟩ := h
  induction hmoves with
  | refl => trivial
  | tail _ hmove ih => exact hmove.asks ih

/-- Every proposal is rejected if what a callback proposes for the program is rejected whatever the
    incumbent is. -/
theorem Engine.Visits.refuses
    (hrejected : ∀ callback ∈ E.callbacks, ∀ view k p k', view.problem = E.problem →
      callback.onSolved view E.candidates k = .ok (some p, k') → ∀ tracker, ∃ violation,
        p.check E.problem E.candidates tracker E.settings = .ok (.error violation))
    (h : E.Visits start c) : c.Refuses E := by
  have hasks := h.asks
  unfold Config.Refuses
  split
  · rename_i id r answer left name p hstage
    rw [hstage] at hasks
    obtain ⟨-, callback, hcallback, view, k, k', hview, hsolved⟩ := hasks
    exact hrejected callback hcallback view k p k' hview hsolved _
  · trivial

/-- Callbacks decline if they never fail and every proposal is rejected. -/
theorem Engine.Visits.declines
    (hreturns : ∀ callback ∈ E.callbacks, ∀ view k, ∃ reply,
      callback.onSolved view E.candidates k = .ok reply)
    (hrefuses : c.Refuses E) (h : E.Visits start c) : c.Declines E := by
  have hasks := h.asks
  unfold Config.Refuses at hrefuses
  unfold Config.Declines
  split
  · rename_i id r answer callback left hstage
    rw [hstage] at hasks
    intro node shown _ _
    obtain ⟨⟨proposal, k'⟩, hsolved⟩ := hreturns callback (hasks List.mem_cons_self) _ _
    exact ⟨proposal, k', hsolved⟩
  · rename_i id r answer left name p hstage
    rwa [hstage] at hrefuses
  · trivial

end Visits

/-- The search for the least whole number of the segment, with a callback that always proposes 0,
    which is below the segment. -/
def zeroSegment : Engine Exact Unit Unit Unit :=
  { segmentSearch with callbacks := [.scripted "zero" [⟨none, ⟨[.fin 0], .fin 0⟩⟩]] }

theorem zeroSegment_rejects (tracker : Tracker Exact) :
    (⟨[.fin 0], .fin 0⟩ : Proposal Exact).check zeroSegment.problem zeroSegment.candidates tracker
      zeroSegment.settings = .ok (.error (.outOfBounds 0 (.fin 0) ⟨.fin (1 / 2), .fin 3⟩)) := by
  have hshape : (⟨[.fin 0], .fin 0⟩ : Proposal Exact).checkShape zeroSegment.problem.vars =
      .ok () := by
    decide +kernel
  have hbounds : (⟨[.fin 0], .fin 0⟩ : Proposal Exact).checkBounds zeroSegment.problem.box
      zeroSegment.settings.feasibility =
        .error (.outOfBounds 0 (.fin 0) ⟨.fin (1 / 2), .fin 3⟩) := by
    decide +kernel
  unfold Proposal.check
  rw [hshape, hbounds]
  rfl

/-- The same search with a time limit and a clock. -/
def Engine.timed {F : Type} (E : Engine F σ β κ) (limit : Option F) (clock : SearchClock) :
    Engine F σ β κ :=
  { E with
    settings := { E.settings with timeLimit := limit }
    clock }

theorem zeroSegment_refuses (limit : Option Exact) (clock : SearchClock)
    {start : State Exact Unit Unit Unit} {c : Config Exact Unit Unit Unit}
    (h : (zeroSegment.timed limit clock).Visits start c) :
    c.Refuses (zeroSegment.timed limit clock) := by
  refine h.refuses fun callback hcallback view k p k' _ hsolved tracker => ?_
  obtain rfl := List.mem_singleton.1 hcallback
  cases hsolved
  exact ⟨_, zeroSegment_rejects tracker⟩

/-- Both proposals are rejected, and without the callback the search comes to the same solution, with
    another clock too. -/
theorem solve_muted_zero : ∃ solution elapsed s s',
    (solve zeroSegment 3).run (State.initial zeroSegment () () ()) = .ok (some solution) s ∧
    solution.statistics.rejections = 2 ∧
    (solve (zeroSegment.mute (SearchClock.stopped ⟨1⟩)) 3).run
        (State.initial (zeroSegment.mute (SearchClock.stopped ⟨1⟩)) () () ()) =
      .ok (some { solution with
        statistics := { solution.statistics with rejections := 0, elapsed } }) s' ∧
    s'.trace = s.trace := by
  have hrun : read? (fun solution _ => solution.map fun r => r.statistics.rejections)
      ((solve zeroSegment 3).run (State.initial zeroSegment () () ())) = some (some 2) := by
    decide +kernel
  have hdeclines : ∀ c, zeroSegment.Visits (State.initial zeroSegment () () ()) c →
      c.Declines zeroSegment := fun c h => by
    refine h.declines (fun callback hcallback view k => ?_) (zeroSegment_refuses none _ h)
    obtain rfl := List.mem_singleton.1 hcallback
    exact ⟨_, rfl⟩
  obtain ⟨outcome, s, hsolve, hread⟩ := read?_eq_some hrun
  obtain ⟨solution, rfl, hrejections⟩ := Option.map_eq_some_iff.1 hread
  have hsame := (solve_muted zeroSegment () () () (SearchClock.stopped ⟨1⟩) (fun _ => rfl)
    hdeclines).2 3
  rw [hsolve] at hsame
  generalize (solve (zeroSegment.mute (SearchClock.stopped ⟨1⟩)) 3).run _ = result at hsame
  cases hsame with
  | solved elapsed htrace => exact ⟨solution, elapsed, s, _, hsolve, hrejections, rfl, htrace⟩

/-! ## Time and failures -/

/-- The search of `zeroSegment` with a time limit of one second and a callback that takes two. -/
def lateSegment : Engine Exact Unit Unit Unit :=
  zeroSegment.timed (some 1) fun processed => .ofParts (2 * processed) 0

/-- The segment with two blocks whose sizes wrap to zero together. -/
def crowded : Program Exact :=
  { segment with blocks := [.equality 9223372036854775808, .equality 9223372036854775808] }

/-- The search for the least whole number of the segment, with the rounding heuristic, which asks
    for the rows of the blocks.  There is no room for them. -/
def crowdedSearch : Engine Exact Unit Unit RoundingCounts where
  problem := { segmentSearch.problem with lp := crowded }
  candidates := segmentSearch.candidates
  settings := Settings.standard
  relaxation := lowerEnd
  strategy := Strategy.mostFractional
  callbacks := [.rounding Rounding.standardTolerance]
  clock := SearchClock.stopped ⟨0⟩

/-- No point is found feasible. -/
theorem crowded_feasible {x : List Exact} {tolerance : Exact} :
    crowdedSearch.problem.feasible x tolerance ≠ .ok true := by
  intro h
  unfold MixedProgram.feasible at h
  split at h
  · unfold MixedProgram.rowsHold Program.violation at h
    rcases hactivities : crowdedSearch.problem.lp.activities x with e | ax
    · rw [hactivities] at h
      cases h
    · rw [hactivities] at h
      cases h
  · cases h

/-- So nothing is proposed. -/
theorem crowdedSearch_refuses {c : Config Exact Unit Unit RoundingCounts}
    (h : crowdedSearch.Visits (State.initial crowdedSearch () () {}) c) :
    c.Refuses crowdedSearch := by
  refine h.refuses fun callback hcallback view k p k' hview hsolved tracker => ?_
  obtain rfl := List.mem_singleton.1 hcallback
  obtain ⟨x, objective, -, hpropose⟩ := Callback.rounding_eq_some hsolved
  obtain ⟨-, hfeasible, -⟩ := Rounding.propose_eq_some hpropose
  rw [hview] at hfeasible
  exact absurd hfeasible crowded_feasible

/-- The error that a run ends with. -/
def error? {ε τ α : Type} : EStateM.Result ε τ α → Option ε
  | .ok _ _ => none
  | .error e _ => some e

/-- **That every proposal is rejected is not enough.**  With a callback that takes longer than the
    time limit the search stops, and with one that fails it fails, where the search without
    callbacks comes to the optimum. -/
theorem refusing_differs :
    (MixedProgram.ofProgram segment = .ok lateSegment.problem ∧ lateSegment.check = .ok () ∧
      (∀ c, lateSegment.Visits (State.initial lateSegment () () ()) c → c.Refuses lateSegment) ∧
      outcome? Incumbent.objective
        ((solve lateSegment 3).run (State.initial lateSegment () () ())) =
          some (.timeLimitReached, none) ∧
      outcome? Incumbent.objective ((solve (lateSegment.mute (SearchClock.stopped ⟨0⟩)) 3).run
        (State.initial (lateSegment.mute (SearchClock.stopped ⟨0⟩)) () () ())) =
          some (.optimal, some (.fin 1))) ∧
    (MixedProgram.ofProgram crowded = .ok crowdedSearch.problem ∧ crowdedSearch.check = .ok () ∧
      (∀ c, crowdedSearch.Visits (State.initial crowdedSearch () () {}) c →
        c.Refuses crowdedSearch) ∧
      error? ((solve crowdedSearch 3).run (State.initial crowdedSearch () () {})) =
        some (.fault .tooLarge) ∧
      outcome? Incumbent.objective ((solve (crowdedSearch.mute (SearchClock.stopped ⟨0⟩)) 3).run
        (State.initial (crowdedSearch.mute (SearchClock.stopped ⟨0⟩)) () () ())) =
          some (.optimal, some (.fin 1))) := by
  have hcrowded : MixedProgram.ofProgram crowded = .ok crowdedSearch.problem :=
    MixedProgram.ofProgram_ok (by decide +kernel) (by decide +kernel) (by decide +kernel)
  refine ⟨⟨segment_ok, rfl, fun _ h => zeroSegment_refuses _ _ h, ?_, ?_⟩,
    hcrowded, rfl, fun _ h => crowdedSearch_refuses h, ?_, ?_⟩
  · decide +kernel
  · decide +kernel
  · decide +kernel
  · decide +kernel

end Milp.Search
