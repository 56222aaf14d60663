/-
  Where the answers and the incumbents of a search come from.

  * `Engine.Answers`: what the relaxation answered for a region, after its check.
  * `Engine.Earned`: an incumbent is such an answer, whole on the candidates, or a proposal of one
    of the callbacks that passed its check.
  * `Config.Traced`: the invariant; `Move.traced`: every move keeps it.
  * `solve_earned`: the incumbent that a search ends with was earned.
  * `read?`, `outcome?`: what a run came to, for runs that are evaluated.
-/
import Milp.Proofs.Coherence
import Milp.Proofs.Relaxation

namespace Milp.Search

variable {F σ β κ : Type} [Extended F] {E : Engine F σ β κ} {c c' : Config F σ β κ}
  {s : State F σ β κ} {start : σ}

/-- What the relaxation answered for a region, in a state that it can be in. -/
def Engine.Answers (E : Engine F σ β κ) (start : σ) (r : Restrictions F) (answer : Answer F) :
    Prop :=
  ∃ s reply, E.relaxation.Visited start s ∧ E.relaxation.solve s r = .ok reply ∧
    answer = reply.answer.check E.problem.vars

/-- An optimal answer has one finite value for each variable. -/
theorem Engine.Answers.finite {r : Restrictions F} {x : List F} {objective : F}
    (h : E.Answers start r (.optimal x objective)) : x.length = E.problem.vars ∧
      Scalar.isFinite objective = true ∧ x.all Scalar.isFinite = true := by
  obtain ⟨_, _, -, -, hanswer⟩ := h
  exact (Answer.check_eq_optimal hanswer.symm).2

/-- The ways of becoming the incumbent. -/
inductive Engine.Earned (E : Engine F σ β κ) (start : σ) : Incumbent F → Prop where
  | relaxation {r x objective id foundAt} (h : E.Answers start r (.optimal x objective))
      (hwhole : fractional x E.settings.integrality E.candidates = .ok []) :
      Earned E start ⟨objective, x, .relaxation, id, foundAt⟩
  | heuristic {callback} {p : Proposal F} {tracker objective id foundAt}
      (hcallback : callback ∈ E.callbacks)
      (h : p.Passes E.problem E.candidates tracker E.settings objective) :
      Earned E start ⟨objective, p.x, .heuristic callback.name, id, foundAt⟩

/-- The answer of the current node is one of the relaxation, and the callbacks that it is shown to
    are those of the search. -/
def Stage.Traced (E : Engine F σ β κ) (start : σ) : Stage F κ → Prop
  | relaxed _ r answer => E.Answers start r answer
  | consulting _ r answer left => E.Answers start r answer ∧ left ⊆ E.callbacks
  | weighing _ r answer left name _ => (E.Answers start r answer ∧ left ⊆ E.callbacks) ∧
      ∃ callback ∈ E.callbacks, callback.name = name
  | _ => True

/-- Everything that a search goes by comes from the relaxation and the callbacks. -/
structure Config.Traced (E : Engine F σ β κ) (start : σ) (c : Config F σ β κ) : Prop where
  coherent : c.Coherent
  visited : E.relaxation.Visited start c.state.relaxation
  sense : c.state.tracker.sense = E.sense
  incumbent : ∀ i, c.state.tracker.best = some i → E.Earned start i
  stage : c.stage.Traced E start

/-- The node that survives has the answer and the restrictions of the stage. -/
theorem Config.Coherent.survives {id : NodeId} {r : Restrictions F} {answer : Answer F}
    {left : Callbacks F κ} {doomed : List (NodeKey F)} {x : List F} {objective : F}
    (hc : Config.Coherent ⟨.consulting id r answer left, doomed, s⟩)
    (h : Survives E s id x objective) :
    answer = .optimal x objective ∧ s.tree.restrictions id = .ok r := by
  obtain ⟨node, hnode, -, hanswer⟩ := h
  obtain ⟨hr, node', hnode', -, hanswer'⟩ := hc.fits
  obtain rfl : node = node' := Option.some.inj (hnode.symm.trans hnode')
  exact ⟨Option.some.inj (hanswer'.symm.trans hanswer), hr⟩

/-- The tracker with a new incumbent: the direction stays, and the new one is better. -/
theorem update?_eq_some {t t' : Tracker F} {candidate : Incumbent F} {tolerance : F}
    (h : t.update? candidate tolerance = some t') : t'.sense = t.sense ∧
      t'.best = some candidate ∧ t.improves candidate.objective tolerance = true := by
  unfold Tracker.update? at h
  split at h
  · cases h
    exact ⟨rfl, rfl, ‹_›⟩
  · cases h

/-- Whatever is adopted was earned. -/
theorem Adopts.earned {stage next : Stage F κ} {candidate : Incumbent F}
    (hc : Config.Traced E start ⟨stage, [], s⟩) (h : Adopts E s stage candidate next) :
    E.Earned start candidate ∧ next.Traced E start := by
  have hstage := hc.stage
  cases h with
  | proposed hcheck =>
    obtain ⟨hanswer, callback, hcallback, rfl⟩ := hstage
    exact ⟨.heuristic hcallback (Proposal.check_ok hcheck), hanswer⟩
  | accepted h hwhole =>
    obtain ⟨rfl, -⟩ := hc.coherent.survives h
    exact ⟨.relaxation hstage.1 hwhole, trivial⟩

/-- Every move can be traced. -/
theorem Move.traced (h : Move E c c') (hc : c.Traced E start) : c'.Traced E start := by
  have hcoherent := h.coherent hc.coherent
  have hstage := hc.stage
  cases h with
  | remark | sweep => exact ⟨hcoherent, hc.visited, hc.sense, hc.incumbent, hstage⟩
  | take | conclude | select | spawn | close =>
    exact ⟨hcoherent, hc.visited, hc.sense, hc.incumbent, trivial⟩
  | relax hnode hbound hr hdomain hsolve =>
    exact ⟨hcoherent, hc.visited.solve hsolve, hc.sense, hc.incumbent, _, _, hc.visited, hsolve,
      rfl⟩
  | record =>
    exact ⟨hcoherent, hc.visited, hc.sense, hc.incumbent, hstage, List.Subset.refl _⟩
  | @offer s id r answer callback left node shown proposal callbacks hnode hanswer hsolved =>
    obtain ⟨hanswer, hleft⟩ := hstage
    obtain ⟨hcallback, hrest⟩ := List.cons_subset.1 hleft
    refine ⟨hcoherent, hc.visited, hc.sense, hc.incumbent, ?_⟩
    rcases proposal with _ | p
    · exact ⟨hanswer, hrest⟩
    · exact ⟨⟨hanswer, hrest⟩, callback, hcallback, rfl⟩
  | refuse => exact ⟨hcoherent, hc.visited, hc.sense, hc.incumbent, hstage.1⟩
  | @adopt s stage candidate next tracker pruned frontier h hupdate hprune =>
    obtain ⟨hearned, hnext⟩ := h.earned hc
    obtain ⟨hsense, hbest, -⟩ := update?_eq_some hupdate
    refine ⟨hcoherent, hc.visited, hsense.trans hc.sense, fun i hi => ?_, hnext⟩
    obtain rfl : candidate = i := Option.some.inj (hbest.symm.trans hi)
    exact hearned

theorem Moves.traced (h : Moves E c c') (hc : c.Traced E start) : c'.Traced E start := by
  induction h with
  | refl => exact hc
  | tail _ hmove ih => exact hmove.traced ih

theorem traced_initial (E : Engine F σ β κ) (start : σ) (strategy : β) (callbacks : κ) :
    (Config.idle (State.initial E start strategy callbacks)).Traced E start :=
  ⟨Config.coherent_initial E start strategy callbacks, .start, rfl, fun _ h => (by cases h),
    trivial⟩

/-- What is read off the value and the state that a run ends with. -/
def read? {ε τ α γ : Type} (f : α → τ → γ) : EStateM.Result ε τ α → Option γ
  | .ok a s => some (f a s)
  | .error _ _ => none

theorem read?_eq_some {ε τ α γ : Type} {f : α → τ → γ} {c : γ} {result : EStateM.Result ε τ α}
    (h : read? f result = some c) : ∃ a s, result = .ok a s ∧ f a s = c := by
  rcases result with ⟨a, s⟩ | ⟨e, s⟩
  · exact ⟨a, s, rfl, Option.some.inj h⟩
  · cases h

/-- What a run came to: its status, and what matters of the incumbent. -/
def outcome? {α : Type} (f : Incumbent F → α) :
    EStateM.Result (SearchError F) (State F σ β κ) (Option (Solution F)) →
      Option (SearchStatus × Option α)
  | .ok (some solution) _ => some (solution.status, solution.incumbent.map f)
  | _ => none

omit [Extended F] in
theorem outcome?_eq_some {α : Type} {f : Incumbent F → α} {status : SearchStatus} {a : α}
    {result : EStateM.Result (SearchError F) (State F σ β κ) (Option (Solution F))}
    (h : outcome? f result = some (status, some a)) :
    ∃ solution s, result = .ok (some solution) s ∧ solution.status = status ∧
      ∃ i, solution.incumbent = some i ∧ f i = a := by
  rcases result with ⟨_ | solution, s⟩ | ⟨e, s⟩
  · cases h
  · obtain ⟨hstatus, hincumbent⟩ := Prod.mk.inj (Option.some.inj h)
    exact ⟨solution, s, rfl, hstatus, Option.map_eq_some_iff.1 hincumbent⟩
  · cases h

/-- The incumbent that a search ends with was earned, apart from the sign of a zero objective. -/
theorem solve_earned {steps : Nat} {strategy : β} {callbacks : κ} {s' : State F σ β κ}
    {solution : Solution F} {i : Incumbent F}
    (hsolve : (solve E steps).run (State.initial E start strategy callbacks) =
      .ok (some solution) s') (hi : solution.incumbent = some i) :
    ∃ earned, E.Earned start earned ∧
      i = { earned with objective := Scalar.positiveZero earned.objective } := by
  have hcases := solve_cases E steps (State.initial E start strategy callbacks)
  rw [hsolve] at hcases
  obtain ⟨s₁, s₂, status, hmoves, hends, hsummary, -⟩ := hcases
  have htraced := Moves.traced hmoves (traced_initial E start strategy callbacks)
  have hbest : s₂.tracker.best = s₁.tracker.best := by
    cases hends with
    | limit => rfl
    | exhausted => rfl
  rw [hsummary.incumbent_eq, hbest] at hi
  obtain ⟨earned, hearned, rfl⟩ := Option.map_eq_some_iff.1 hi
  exact ⟨earned, htraced.incumbent earned hearned, rfl⟩

end Milp.Search
