/-
  The summary of a search.

  A search that ran out of nodes says so by its status, and what it says fits its counters, its
  incumbent and its bound.

  * `limit?_of_run`, `solve_halts`: a search ends at the first limit that it comes to, or without
    a node that waits.
  * `State.Aware`: the search knows what it left without proof, and whether it has an incumbent;
    `Move.aware`: every move keeps this.
  * `Summary.closes`: without a node that waits the bound is the objective, bit by bit.
  * `Engine.Consistent`, `solve_consistent`: what every summary comes to.
-/
import Milp.Proofs.Cover
import Milp.Proofs.Lockstep
import Milp.Proofs.Scalar.Gap
import Milp.Proofs.Scalar.Ranked
import Milp.Proofs.Span

namespace Milp

variable {F σ β κ : Type}

/-- What is counted for the nodes that are closed without proof. -/
theorem Statistics.count_unproven (status : NodeStatus) (t : Statistics F) :
    0 < (t.count status).solverErrors + (t.count status).unbounded ↔
      status.isUnproven = true ∨ 0 < t.solverErrors + t.unbounded := by
  cases status with
  | pruned reason => cases reason <;> simp [count, NodeStatus.isUnproven]
  | _ => simp [count, NodeStatus.isUnproven]

namespace Search

variable [Extended F] {E : Engine F σ β κ} {c c' : Config F σ β κ} {s s' : State F σ β κ}

/-! ## Where a search ends -/

/-- A search goes on only if it is at no limit. -/
theorem limit?_of_step (h : (step E).run s = .ok none s') :
    E.limit? s.statistics.processed = none := by
  rcases hlimit : E.limit? s.statistics.processed with _ | reason
  · rfl
  · rw [step_limited hlimit] at h
    cases h

/-- There was no limit at any of the nodes that were processed. -/
theorem limit?_of_run {steps : Nat} (h : (run E steps).run s = .ok none s') :
    ∀ n, s.statistics.processed ≤ n → n < s'.statistics.processed → E.limit? n = none := by
  induction steps generalizing s with
  | zero =>
    cases h
    exact fun n hle hlt => absurd hlt (Nat.not_lt_of_le hle)
  | succ steps ih =>
    rw [run, EStateM.run_bind] at h
    rcases hstep : (step E).run s with ⟨_ | status, s₁⟩ | ⟨e, s₁⟩ <;> rw [hstep] at h
    · intro n hle hlt
      rcases Nat.eq_or_lt_of_le hle with rfl | hlater
      · exact limit?_of_step hstep
      · have hcases := step_cases E s
        rw [hstep] at hcases
        obtain ⟨-, -, -, -, -, -, hone⟩ := hcases
        exact ih h n (hone ▸ hlater) hlt
    · cases h
    · cases h

/-- A search that is summed up came to a limit, or it ran out of nodes, and it came to no limit
    before. -/
theorem solve_halts {steps : Nat} {solution : Solution F}
    (h : (solve E steps).run s = .ok (some solution) s') : ∃ s₁, Moves E (.idle s) (.idle s₁) ∧
      (∀ n, s.statistics.processed ≤ n → n < s₁.statistics.processed → E.limit? n = none) ∧
      ((∃ reason, E.limit? s₁.statistics.processed = some reason ∧
        Summary E (s₁.logged (.stopped reason s₁.statistics.processed)) s' reason.status solution) ∨
      (E.limit? s₁.statistics.processed = none ∧ s₁.frontier.keys = [] ∧
        Summary E s₁ s' s₁.exhausted solution)) := by
  obtain ⟨status, s₂, hrun, hsummary⟩ := solve_eq_some h
  obtain ⟨n, s₁, hbefore, hlast⟩ := run_eq_some hrun
  refine ⟨s₁, (moves_announced E s).trans (moves_of_run hbefore),
    fun n hle hlt => limit?_of_run hbefore n hle hlt, ?_⟩
  rcases hlimit : E.limit? s₁.statistics.processed with _ | reason
  · have hends := step_cases E s₁
    rw [hlast] at hends
    cases hends with
    | limit reason hreason => cases hlimit.symm.trans hreason
    | exhausted hpop => exact .inr ⟨rfl, Frontier.pop?_eq_none.1 hpop, hsummary⟩
  · rw [step_limited hlimit] at hlast
    cases hlast
    exact .inl ⟨reason, rfl, hsummary⟩

/-! ## What a search knows of itself -/

/-- The search knows whether a node was closed without proof, and whether there is an incumbent. -/
structure State.Aware (s : State F σ β κ) : Prop where
  incomplete : s.incomplete = true ↔ 0 < s.statistics.solverErrors + s.statistics.unbounded
  incumbent : s.tracker.best = none ↔ s.statistics.incumbentUpdates = 0

theorem Move.aware (h : Move E c c') (hc : c.state.Aware) : c'.state.Aware := by
  obtain ⟨hincomplete, hincumbent⟩ := hc
  cases h with
  | @conclude s stage id status events h =>
    constructor
    · show (status.isUnproven || s.incomplete) = true ↔ _
      rw [Bool.or_eq_true, hincomplete]
      exact (Statistics.count_unproven status s.statistics).symm
    · show s.tracker.best = none ↔ (s.statistics.count status).incumbentUpdates = 0
      rw [Statistics.count_incumbentUpdates]
      exact hincumbent
  | adopt h hupdate hprune =>
    obtain ⟨-, hbest, -⟩ := update?_eq_some hupdate
    refine ⟨hincomplete, iff_of_false ?_ (Nat.succ_ne_zero _)⟩
    rw [State.adopted, hbest]
    exact Option.some_ne_none _
  | _ => exact ⟨hincomplete, hincumbent⟩

theorem Moves.aware (h : Moves E c c') (hc : c.state.Aware) : c'.state.Aware := by
  induction h with
  | refl => exact hc
  | tail _ hmove ih => exact hmove.aware ih

/-! ## The summary -/

/-- At the start no node is closed, and there is no incumbent. -/
theorem State.aware_initial (E : Engine F σ β κ) (start : σ) (strategy : β) (callbacks : κ) :
    (State.initial E start strategy callbacks).Aware where
  incomplete := iff_of_false Bool.false_ne_true (Nat.lt_irrefl 0)
  incumbent := iff_of_true rfl rfl

/-- What is printed has no negative zero. -/
theorem Summary.not_isNegativeZero {status : SearchStatus} {solution : Solution F}
    (h : Summary E s s' status solution) :
    ¬ Scalar.IsNegativeZero solution.statistics.bestBound ∧
      ∀ i, solution.incumbent = some i → ¬ Scalar.IsNegativeZero i.objective := by
  refine ⟨h.bestBound_eq ▸ Scalar.not_isNegativeZero_positiveZero, fun i hi => ?_⟩
  rw [h.incumbent_eq] at hi
  obtain ⟨best, -, rfl⟩ := Option.map_eq_some_iff.1 hi
  exact Scalar.not_isNegativeZero_positiveZero

theorem Summary.updates {status : SearchStatus} {solution : Solution F}
    (h : Summary E s s' status solution) (hs : s.Aware) :
    solution.incumbent = none ↔ solution.statistics.incumbentUpdates = 0 := by
  rw [h.incumbent_eq, Option.map_eq_none_iff, h.statistics_eq]
  exact hs.incumbent

/-- The summary fits.  A status that is not that of a limit means that no node waits and that there
    was no limit at any number of nodes; and then the counters of the nodes without proof and the
    incumbent decide which status it is.  An optimal incumbent has the bound as its objective. -/
structure Engine.Consistent (E : Engine F σ β κ) (solution : Solution F) : Prop where
  ended : solution.status.isLimit = false → solution.statistics.pending = 0 ∧
    ∀ n ≤ solution.statistics.processed, E.limit? n = none
  verdict : solution.statistics.pending = 0 → E.limit? solution.statistics.processed = none →
    solution.status =
      if 0 < solution.statistics.solverErrors + solution.statistics.unbounded then .unsolved
      else if solution.incumbent.isSome then .optimal else .infeasible
  optimal : solution.status = .optimal → ∃ i, solution.incumbent = some i ∧
    (Scalar.isFinite i.objective = true →
      solution.statistics.bestBound = i.objective ∧ solution.statistics.gap = 0)
  updates : solution.incumbent = none ↔ solution.statistics.incumbentUpdates = 0
  bound : ¬ Scalar.IsNegativeZero solution.statistics.bestBound
  objective : ∀ i, solution.incumbent = some i → ¬ Scalar.IsNegativeZero i.objective

/-- The summary of a search that stopped at a limit. -/
theorem Summary.consistent_of_limit {reason : StopReason} {event : Event F}
    {solution : Solution F} (h : Summary E (s.logged event) s' reason.status solution)
    (hs : s.Aware) (hlimit : E.limit? s.statistics.processed = some reason) :
    E.Consistent solution := by
  have hstatus : solution.status.isLimit = true := by
    rw [h.status_eq]
    cases reason <;> rfl
  obtain ⟨hbound, hobjective⟩ := h.not_isNegativeZero
  exact {
    ended := fun hother => absurd hstatus (Bool.eq_false_iff.1 hother)
    verdict := fun _ hother => by
      rw [h.statistics_eq] at hother
      cases hlimit.symm.trans hother
    optimal := fun hoptimal => by
      rw [hoptimal] at hstatus
      cases hstatus
    updates := h.updates ⟨hs.incomplete, hs.incumbent⟩
    bound := hbound
    objective := hobjective }

variable [Scalar.Faithful F] [Scalar.Ordered F] [Scalar.Placed F] [Scalar.Signed F]
  [Scalar.Ranked F] [Scalar.Gapless F]

/-- Without a node that waits, the bound is the objective of the incumbent, and there is no gap. -/
theorem Summary.closes {status : SearchStatus} {solution : Solution F} {i : Incumbent F}
    (h : Summary E s s' status solution) (hnone : s.frontier.keys = [])
    (hsense : s.tracker.sense = E.sense) (hi : solution.incumbent = some i)
    (hfinite : Scalar.isFinite i.objective = true) :
    solution.statistics.bestBound = i.objective ∧ solution.statistics.gap = 0 := by
  rw [h.incumbent_eq] at hi
  obtain ⟨best, hbest, rfl⟩ := Option.map_eq_some_iff.1 hi
  have hobjective := Scalar.isFinite_positiveZero.1 hfinite
  have hbound : E.sense.normalize s.bound = best.objective := by
    have hempty : s.frontier.bestBound = Extended.infinity := by
      show s.frontier.keys.foldl _ _ = _
      rw [hnone]
      rfl
    rw [State.bound, hempty, normalized_of_best hbest, hsense,
      Scalar.min_infinity (E.sense.isFinite_normalize hobjective), Sense.normalize_normalize]
  refine ⟨by rw [h.bestBound_eq, hbound], ?_⟩
  rw [h.statistics_eq]
  show s.tracker.gap (Scalar.positiveZero (E.sense.normalize s.bound)) = 0
  rw [hbound, Tracker.gap, Tracker.objective, hbest]
  exact Scalar.relativeGap_positiveZero hobjective

/-- The summary of a search that ran out of nodes. -/
theorem Summary.consistent_of_exhausted {solution : Solution F}
    (h : Summary E s s' s.exhausted solution) (hs : s.Aware)
    (hsense : s.tracker.sense = E.sense) (hempty : s.frontier.keys = [])
    (hlimit : ∀ n ≤ s.statistics.processed, E.limit? n = none) : E.Consistent solution := by
  have hsome : solution.incumbent.isSome = s.tracker.hasIncumbent := by
    rw [h.incumbent_eq, Option.isSome_map]
    rfl
  obtain ⟨hbound, hobjective⟩ := h.not_isNegativeZero
  exact {
    ended := fun _ => by
      rw [h.statistics_eq]
      exact ⟨Array.length_toList.symm.trans (congrArg List.length hempty), hlimit⟩
    verdict := fun _ _ => by
      rw [h.status_eq, State.exhausted, hsome, h.statistics_eq]
      exact if_congr hs.incomplete rfl rfl
    optimal := fun hoptimal => by
      rw [h.status_eq] at hoptimal
      obtain ⟨i, hi⟩ :=
        Option.isSome_iff_exists.1 (hsome.trans (exhausted_eq_optimal hoptimal).2)
      exact ⟨i, hi, h.closes hempty hsense hi⟩
    updates := h.updates hs
    bound := hbound
    objective := hobjective }

/-- **The summary of every search is consistent.**  Whatever relaxation, strategy and callbacks do,
    a search that does not fail and does not stop at a limit has no node left, and its status, its
    incumbent, its bound and its gap are what its counters say. -/
theorem solve_consistent {steps : Nat} {start : σ} {strategy : β} {callbacks : κ}
    {solution : Solution F} (h : (solve E steps).run (State.initial E start strategy callbacks) =
      .ok (some solution) s) : E.Consistent solution := by
  obtain ⟨s₁, hmoves, hbefore, hend⟩ := solve_halts h
  have haware := Moves.aware hmoves (State.aware_initial E start strategy callbacks)
  rcases hend with ⟨reason, hlimit, hsummary⟩ | ⟨hlast, hempty, hsummary⟩
  · exact hsummary.consistent_of_limit haware hlimit
  · have hsense := (Moves.traced hmoves (traced_initial E start strategy callbacks)).sense
    refine hsummary.consistent_of_exhausted haware hsense hempty fun n hle => ?_
    rcases Nat.lt_or_eq_of_le hle with hlt | rfl
    · exact hbefore n (Nat.zero_le n) hlt
    · exact hlast

/-- A relaxation of one variable whose objective is the negative zero. -/
def negativeZero : Relaxation Float Unit where
  name := "negative zero"
  vars := 1
  solve _ _ := return ⟨(), .optimal [1] (-0), []⟩

/-- The search for the greatest multiple of zero. -/
def zeroSearch : Engine Float Unit Unit Unit :=
  { leastSearch with
    problem := { leastSearch.problem with
      lp := { leastSearch.problem.lp with cost := [0], sense := .maximize } }
    relaxation := negativeZero }

/-- The root is accepted, with a negative zero that is not printed. -/
theorem solve_consistent_zero : ∃ solution s i,
    (solve zeroSearch 2).run (State.initial zeroSearch () () ()) = .ok (some solution) s ∧
    zeroSearch.Consistent solution ∧ solution.status = .optimal ∧
    s.tracker.objective = -0 ∧ solution.incumbent = some i ∧ i.objective = 0 ∧
    solution.statistics.bestBound = 0 ∧ solution.statistics.gap = 0 := by
  have hrun : read? (fun outcome s => (outcome.map fun solution : Solution Float =>
        (solution.status, solution.incumbent.map Incumbent.objective), s.tracker.objective))
      ((solve zeroSearch 2).run (State.initial zeroSearch () () ())) =
        some (some (.optimal, some 0), -0) := by
    decide +kernel
  obtain ⟨outcome, s, hsolve, hread⟩ := read?_eq_some hrun
  obtain ⟨hsolution, htracker⟩ := Prod.mk.inj hread
  obtain ⟨solution, rfl, hpair⟩ := Option.map_eq_some_iff.1 hsolution
  obtain ⟨hstatus, hincumbent⟩ := Prod.mk.inj hpair
  obtain ⟨i, hi, hzero⟩ := Option.map_eq_some_iff.1 hincumbent
  have hconsistent := solve_consistent hsolve
  obtain ⟨i', hi', hclosed⟩ := hconsistent.optimal hstatus
  obtain rfl : i' = i := Option.some.inj (hi'.symm.trans hi)
  obtain ⟨hbound, hgap⟩ := hclosed (by rw [hzero]; decide +kernel)
  exact ⟨solution, s, i', hsolve, hconsistent, hstatus, htracker, hi, hzero, hbound.trans hzero,
    hgap⟩

end Search

end Milp
