/-
  What a node limit does to a search.

  A search with a node limit does what the search without it does, up to the limit, and then it
  stops.  So its closed nodes are the first ones of the search without limit, and a larger limit
  never leads to a worse incumbent.

  * `Engine.limited`: the same search with a node limit.
  * `run_limited`: below the limit the steps of both searches are the same.
  * `Moves.climbs`: in the course of a search the incumbent never gets worse.
  * `solve_truncated`: what the search with a limit comes to.
-/
import Milp.Proofs.Contract
import Milp.Proofs.Lockstep
import Milp.Proofs.Scalar.Signed
import Milp.Proofs.Termination

namespace Milp.Search

variable {F σ β κ : Type} [Extended F]

/-! ## The same callbacks -/

/-- The callbacks of two searches have the same, and as many proposals were rejected. -/
def SameCallbacks (k : κ) (rejections : Nat) (k' : κ) (rejections' : Nat) : Prop :=
  k' = k ∧ rejections' = rejections

/-- The same search with a node limit. -/
def Engine.limited {F : Type} (E : Engine F σ β κ) (limit : Nat) (clock : SearchClock) :
    Engine F σ β κ :=
  E.vary (some limit) E.callbacks clock

variable {E : Engine F σ β κ} {s s' : State F σ β κ} {id : NodeId} {r : Restrictions F}
  {limit : Nat} {clock : SearchClock}

omit [Extended F] in
theorem limited_paired : E.Paired SameCallbacks (E.limited limit clock) where
  varied := ⟨_, _, _, rfl⟩
  notify record _ _ _ _ h := ⟨congrArg (E.callbacks.notify record) h.1, h.2⟩

theorem weigh_lockstep {name : String} {p : Proposal F} (h : Alike SameCallbacks s s') :
    Lockstep SameCallbacks (weigh E id name p) (weigh (E.limited limit clock) id name p) s s' := by
  obtain @⟨callbacks, rejections, history, hrecords, hcallbacks, hrejections⟩ := h
  refine .look (.bind (.ensure (.dressed hrecords ⟨hcallbacks, hrejections⟩)) fun result _ _ h => ?_)
  cases result with
  | ok objective =>
    obtain ⟨hrecords, hcallbacks⟩ := h
    refine .look (.bind (install_lockstep limited_paired (.dressed hrecords hcallbacks))
      fun _ _ _ h => ?_)
    exact .returns h
  | error violation =>
    obtain ⟨hrecords, hcallbacks, hrejections⟩ := h
    refine .change (.emit (.dressed hrecords ⟨hcallbacks, ?_⟩) rfl)
    exact congrArg (· + 1) hrejections

theorem consult_lockstep {callback : Callback F κ} (h : Alike SameCallbacks s s') :
    Lockstep SameCallbacks (consult E id r callback) (consult (E.limited limit clock) id r callback)
      s s' := by
  obtain @⟨callbacks, rejections, history, hrecords, rfl, hrejections⟩ := h
  refine .look (.bind (.ensure (.dressed hrecords ⟨rfl, hrejections⟩)) fun node _ _ h => ?_)
  cases node.answer with
  | none => exact .throws h
  | some answer =>
    refine .bind (.emit h rfl) fun _ _ _ h => .bind (.ensure h) fun reply _ _ h => ?_
    obtain ⟨hrecords, -, hrejections⟩ := h
    refine .change ?_
    cases reply.1 with
    | none => exact .returns (.dressed hrecords ⟨rfl, hrejections⟩)
    | some p => exact weigh_lockstep (.dressed hrecords ⟨rfl, hrejections⟩)

/-! ## Steps below the limit -/

theorem limit?_limited (htime : E.settings.timeLimit = none) (processed : Nat) :
    (E.limited limit clock).limit? processed =
      if limit ≤ processed then some .nodeLimit else none := by
  simp [Limits.check, Limits.ofSettings, Engine.limited, Engine.vary, Settings.duration?, htime]

theorem limit?_unlimited (htime : E.settings.timeLimit = none)
    (hnodes : E.settings.nodeLimit = none) (processed : Nat) : E.limit? processed = none := by
  simp [Limits.check, Limits.ofSettings, Settings.duration?, htime, hnodes]

/-- As long as the limit is not reached, the steps of both searches are the same. -/
theorem run_limited (limit : Nat) (clock : SearchClock) {steps : Nat}
    (htime : E.settings.timeLimit = none)
    (hnodes : E.settings.nodeLimit = none) (hzero : s.statistics.processed = 0)
    (hless : ∀ n t, n < steps → (run E n).run s = .ok none t → n < limit) :
    Lockstep SameCallbacks (run E steps) (run (E.limited limit clock) steps) s s := by
  refine run_lockstep steps (P := fun left t => ∃ n, n + left = steps ∧ (run E n).run s = .ok none t)
    ?_ ?_ ⟨0, Nat.zero_add _, rfl⟩ (.dressed rfl ⟨rfl, rfl⟩)
  · rintro left t t' ⟨n, hn, hrun⟩ h
    have hprocessed := processed_of_run hrun
    refine step_lockstep limited_paired ?_ (fun _ _ _ _ _ _ _ answer s₁ s₁' _ _ h => ?_) h
    · have hlt := hless n t (by omega) hrun
      rw [limit?_limited htime, limit?_unlimited htime hnodes, if_neg (by omega)]
    · exact .forM (fun callback _ _ h => consult_lockstep h) _ h
  · rintro left t t₁ ⟨n, hn, hrun⟩ hstep
    exact ⟨n + 1, by omega, run_snoc hrun hstep⟩

/-! ## Incumbents -/

/-- An incumbent stays, or gives way to one that is no worse. -/
def Engine.Climbs (E : Engine F σ β κ) (before after : Tracker F) : Prop :=
  ∀ old, before.best = some old → ∃ new, after.best = some new ∧
    E.sense.normalize new.objective ≤ E.sense.normalize old.objective

section Climbs

variable [Scalar.Ordered F] {t₁ t₂ t₃ : Tracker F} {start : σ} {c c' : Config F σ β κ}

theorem Engine.Climbs.trans (h : E.Climbs t₁ t₂) (h' : E.Climbs t₂ t₃) : E.Climbs t₁ t₃ := by
  intro old hold
  obtain ⟨mid, hmid, hle⟩ := h old hold
  obtain ⟨new, hnew, hle'⟩ := h' mid hmid
  exact ⟨new, hnew, Scalar.Ordered.le_trans hle' hle⟩

variable [Scalar.Measured F] [Scalar.Signed F]

/-- What replaces an incumbent is no worse, and compares with itself: it is a number. -/
theorem Move.climbs (hE : E.Checked) (hsense : c.state.tracker.sense = E.sense)
    (hc : E.Climbs c.state.tracker c.state.tracker) (h : Move E c c') :
    E.Climbs c.state.tracker c'.state.tracker ∧
      E.Climbs c'.state.tracker c'.state.tracker := by
  cases h with
  | @adopt s stage candidate next tracker pruned frontier h hupdate hprune =>
    obtain ⟨-, hbest, himproves⟩ := update?_eq_some hupdate
    have hself : tracker.best = some candidate := hbest
    have htracker : s.tracker.sense = E.sense := hsense
    rw [Tracker.improves] at himproves
    cases hold : s.tracker.best with
    | none =>
      rw [hold] at himproves
      have hnumber := Scalar.Ordered.le_of_isFinite himproves
      refine ⟨fun old h => ?_, fun old h => ?_⟩
      · cases hold.symm.trans h
      · obtain rfl : candidate = old := Option.some.inj (hself.symm.trans h)
        refine ⟨candidate, hself, ?_⟩
        cases E.sense with
        | minimize => exact hnumber
        | maximize => exact Scalar.Signed.neg_le_neg_iff.2 hnumber
    | some current =>
      rw [hold] at himproves
      simp only [Sense.better, htracker, decide_eq_true_eq] at himproves
      have hle := Scalar.Ordered.le_of_lt himproves
      refine ⟨fun old h => ?_, fun old h => ?_⟩
      · obtain rfl : current = old := Option.some.inj (hold.symm.trans h)
        obtain ⟨_, hcurrent, hnumber⟩ := hc current hold
        obtain ⟨htolerance, hnonneg⟩ := hE.settings.tolerance
        refine ⟨candidate, hself, Scalar.Ordered.le_trans hle ?_⟩
        exact Scalar.Measured.sub_le_self (Scalar.Ordered.refl_of_le hnumber).2 htolerance hnonneg
      · obtain rfl : candidate = old := Option.some.inj (hself.symm.trans h)
        exact ⟨candidate, hself, (Scalar.Ordered.refl_of_le hle).1⟩
  | _ => exact ⟨hc, hc⟩

/-- In the course of a search the incumbent never gets worse. -/
theorem Moves.climbs (hE : E.Checked) (hc : c.Traced E start)
    (hnumber : E.Climbs c.state.tracker c.state.tracker) (h : Moves E c c') :
    E.Climbs c.state.tracker c'.state.tracker ∧
      E.Climbs c'.state.tracker c'.state.tracker := by
  induction h with
  | refl => exact ⟨hnumber, hnumber⟩
  | tail hmoves hmove ih =>
    obtain ⟨hlast, hnumber'⟩ := hmove.climbs hE (Moves.traced hmoves hc).sense ih.2
    exact ⟨ih.1.trans hlast, hnumber'⟩

end Climbs

/-! ## The search with a limit -/

/-- The incumbent of a state as a search returns it: no objective is a negative zero. -/
def State.held (s : State F σ β κ) : Option (Incumbent F) :=
  s.tracker.best.map fun i => { i with objective := Scalar.positiveZero i.objective }

/-- The search stops at its limit: it has processed as many nodes, and it returns the incumbent, and
    has closed the nodes, that the search without limit has by then. -/
structure Engine.StopsAt (E : Engine F σ β κ) (initial : State F σ β κ) (limit : Nat)
    (solution : Solution F) (t : State F σ β κ) : Prop where
  status_eq : solution.status = .nodeLimitReached
  processed_eq : solution.statistics.processed = limit
  by_then : ∃ s, (solve E limit).run initial = .ok none s ∧ s.statistics.processed = limit ∧
    solution.incumbent = s.held ∧ t.trace = s.trace

/-- What a search with so many steps that suffice comes to with a limit.  The clocks may show other
    times. -/
structure Engine.Truncates (E : Engine F σ β κ) (start : σ) (strategy : β) (callbacks : κ)
    (steps : Nat) (solution : Solution F) (t : State F σ β κ) : Prop where
  /-- Up to the nodes that the search processes, it stops at the limit. -/
  stops : ∀ limit clock, limit ≤ solution.statistics.processed → ∃ stopped u,
    (∀ n, limit < n → (solve (E.limited limit clock) n).run
      (State.initial (E.limited limit clock) start strategy callbacks) = .ok (some stopped) u) ∧
    E.StopsAt (State.initial E start strategy callbacks) limit stopped u ∧ u.trace <+: t.trace
  /-- With a larger limit it comes to the same. -/
  completes : ∀ limit clock, solution.statistics.processed < limit → ∃ u,
    (solve (E.limited limit clock) steps).run
      (State.initial (E.limited limit clock) start strategy callbacks) =
        .ok (some { solution with statistics := { solution.statistics with
          elapsed := clock solution.statistics.processed } }) u ∧ u.trace = t.trace
  /-- A larger limit does not lead to a worse incumbent. -/
  not_worse : ∀ small large clock clock' n m solution₁ solution₂ u₁ u₂, small ≤ large →
    (solve (E.limited small clock) n).run
      (State.initial (E.limited small clock) start strategy callbacks) = .ok (some solution₁) u₁ →
    (solve (E.limited large clock') m).run
      (State.initial (E.limited large clock') start strategy callbacks) = .ok (some solution₂) u₂ →
    ∀ i, solution₁.incumbent = some i → ∃ i', solution₂.incumbent = some i' ∧
      E.sense.normalize i'.objective ≤ E.sense.normalize i.objective

/-- Steps that suffice lead to one solution. -/
theorem solve_unique {n m : Nat} {a b : Solution F} {t u : State F σ β κ}
    (h : (solve E n).run s = .ok (some a) t) (h' : (solve E m).run s = .ok (some b) u) : a = b := by
  have hn : (solve E (n + m)).run s = (solve E n).run s :=
    solve_add (fun _ hnone => by cases h.symm.trans hnone) m
  have hm : (solve E (m + n)).run s = (solve E m).run s :=
    solve_add (fun _ hnone => by cases h'.symm.trans hnone) n
  rw [Nat.add_comm, hm] at hn
  cases h.symm.trans (hn.symm.trans h')
  rfl

/-- A search with a limit that is reached stops there. -/
theorem solve_stopsAt (clock : SearchClock) (htime : E.settings.timeLimit = none)
    (hnodes : E.settings.nodeLimit = none) {initial : State F σ β κ} (hzero : initial.statistics.processed = 0)
    (hrun : (run E limit).run (initial.announced E) = .ok none s) : ∃ stopped u,
      (∀ n, limit < n → (solve (E.limited limit clock) n).run initial = .ok (some stopped) u) ∧
      E.StopsAt initial limit stopped u ∧ u.trace = s.trace := by
  have hprocessed : s.statistics.processed = limit := by
    rw [processed_of_run hrun]
    exact (congrArg (· + limit) hzero).trans (Nat.zero_add limit)
  have hlock := run_limited limit clock htime hnodes
    (show (initial.announced E).statistics.processed = 0 from hzero) (fun n t hlt _ => hlt)
  unfold Lockstep at hlock
  rw [hrun] at hlock
  generalize hlimited : (run (E.limited limit clock) limit).run (initial.announced E) = result
    at hlock
  cases hlock with
  | @ok ended _ s' h =>
    have hreached : (E.limited limit clock).limit? s'.statistics.processed = some .nodeLimit := by
      obtain ⟨-, -⟩ := h
      rw [limit?_limited htime, State.dress_processed, if_pos (Nat.le_of_eq hprocessed.symm)]
    have hlast : (run (E.limited limit clock) (limit + 1)).run (initial.announced E) =
        .ok (some .nodeLimitReached)
          (s'.logged (.stopped .nodeLimit s'.statistics.processed)) := by
      rw [run_add hlimited, run, EStateM.run_bind, step_limited hreached]
      rfl
    obtain ⟨stopped, u, hsolve, hsummary⟩ := solve_ended (s := initial) hlast
    have htrace : u.trace = s.trace := hsummary.trace_eq.trans h.trace_eq
    refine ⟨stopped, u, fun n hn => ?_, ⟨hsummary.status_eq, ?_, s, ?_, hprocessed, ?_, htrace⟩,
      htrace⟩
    · obtain ⟨more, rfl⟩ := Nat.exists_eq_add_of_lt hn
      rw [Nat.add_right_comm, solve_add (fun t hnone => by cases hsolve.symm.trans hnone), hsolve]
    · rw [hsummary.statistics_eq]
      obtain ⟨-, -⟩ := h
      exact hprocessed
    · exact solve_unfinished hrun
    · rw [hsummary.incumbent_eq]
      obtain ⟨-, -⟩ := h
      rfl

/-- A search that ends without a limit: before its end it made as many steps as it processed
    nodes. -/
theorem solve_unlimited {steps : Nat} {initial t : State F σ β κ} {solution : Solution F}
    (htime : E.settings.timeLimit = none) (hnodes : E.settings.nodeLimit = none)
    (hzero : initial.statistics.processed = 0)
    (hsolve : (solve E steps).run initial = .ok (some solution) t) : ∃ s,
      (run E solution.statistics.processed).run (initial.announced E) = .ok none s ∧
      (∀ n u, (run E n).run (initial.announced E) = .ok none u →
        n ≤ solution.statistics.processed) ∧
      solution.incumbent = s.held ∧ t.trace = s.trace := by
  obtain ⟨status, last, hrun, hsummary⟩ := solve_eq_some hsolve
  obtain ⟨n, s, hbefore, hstep⟩ := run_eq_some hrun
  have hends := step_cases E s
  rw [hstep] at hends
  cases hends with
  | limit reason h =>
    rw [show (Limits.ofSettings E.settings).check _ _ = none from
      limit?_unlimited htime hnodes _] at h
    cases h
  | exhausted hpop =>
    have hprocessed : solution.statistics.processed = n := by
      rw [hsummary.statistics_eq]
      show last.statistics.processed = n
      rw [processed_of_run hbefore]
      exact (congrArg (· + n) hzero).trans (Nat.zero_add n)
    rw [hprocessed]
    refine ⟨last, hbefore, fun m u hm => not_lt.1 fun hlt => ?_, hsummary.incumbent_eq,
      hsummary.trace_eq⟩
    -- the step after the last one has ended the search
    obtain ⟨more, rfl⟩ := Nat.exists_eq_add_of_lt hlt
    rw [Nat.add_assoc, run_add hbefore, run, EStateM.run_bind, hstep] at hm
    cases hm

/-- The first steps of a search that goes on after them. -/
theorem run_before {n N : Nat} {t : State F σ β κ} (hrun : (run E N).run s = .ok none t)
    (hle : n ≤ N) : ∃ u, (run E n).run s = .ok none u ∧ Moves E (.idle u) (.idle t) := by
  obtain ⟨more, rfl⟩ := Nat.exists_eq_add_of_le hle
  obtain ⟨u, hfirst, hrest⟩ := run_take hrun
  exact ⟨u, hfirst, moves_of_run hrest⟩

/-- Moves only add records. -/
theorem Moves.trace_prefix {t : State F σ β κ} (h : Moves E (.idle s) (.idle t)) :
    s.trace <+: t.trace := by
  have hsuffix : ∀ {c c' : Config F σ β κ}, Moves E c c' →
      c.state.history <:+ c'.state.history := fun hmoves => by
    induction hmoves with
    | refl => exact List.suffix_refl _
    | tail _ hmove ih => exact ih.trans hmove.history_suffix
  obtain ⟨later, hlater⟩ := hsuffix h
  refine ⟨(later.filterMap Event.record?).reverse, ?_⟩
  show s.records.reverse ++ _ = (t.history.filterMap Event.record?).reverse
  rw [show t.history = later ++ s.history from hlater.symm, List.filterMap_append,
    List.reverse_append]
  rfl

/-- With a limit that is not reached a search comes to the same. -/
theorem solve_completes (clock : SearchClock) {steps : Nat} {initial t : State F σ β κ} {solution : Solution F}
    (htime : E.settings.timeLimit = none) (hnodes : E.settings.nodeLimit = none)
    (hzero : initial.statistics.processed = 0)
    (hsolve : (solve E steps).run initial = .ok (some solution) t)
    (hlimit : ∀ n u, (run E n).run (initial.announced E) = .ok none u → n < limit) : ∃ u,
      (solve (E.limited limit clock) steps).run initial =
        .ok (some { solution with statistics := { solution.statistics with
          elapsed := clock solution.statistics.processed } }) u ∧ u.trace = t.trace := by
  have hconcur := solve_lockstep (run_limited limit clock htime hnodes
    (show (initial.announced E).statistics.processed = 0 from hzero)
    (fun n u (_ : n < steps) hrun => hlimit n u hrun))
  rw [hsolve] at hconcur
  generalize (solve (E.limited limit clock) steps).run initial = result at hconcur ⊢
  cases hconcur with
  | @ended v v' _ u status _ solution' h hsummary hsummary' =>
    have hsolution := h.solution_eq limited_paired hsummary hsummary'
    rw [h.related.2] at hsolution
    subst hsolution
    refine ⟨u, ?_, hsummary'.trace_eq.trans (h.trace_eq.trans hsummary.trace_eq.symm)⟩
    obtain ⟨status', incumbent, statistics⟩ := solution
    obtain rfl : statistics = _ := hsummary.statistics_eq
    rfl

section Incumbent

variable [Scalar.Ordered F] [Scalar.Measured F] [Scalar.Signed F] {start : σ} {strategy : β}
  {callbacks : κ}

/-- After more steps the incumbent that would be returned is no worse. -/
theorem held_not_worse {n m : Nat} {t u : State F σ β κ} (hE : E.Checked) (hle : n ≤ m)
    (hn : (run E n).run ((State.initial E start strategy callbacks).announced E) = .ok none t)
    (hm : (run E m).run ((State.initial E start strategy callbacks).announced E) = .ok none u)
    {i : Incumbent F} (hi : t.held = some i) : ∃ i', u.held = some i' ∧
      E.sense.normalize i'.objective ≤ E.sense.normalize i.objective := by
  have hstart := traced_initial E start strategy callbacks
  have hfirst := (moves_announced E _).trans (moves_of_run hn)
  obtain ⟨t', ht', hmoves⟩ := run_before hm hle
  obtain rfl : t = t' := by
    cases hn.symm.trans ht'
    rfl
  obtain ⟨-, hnumber⟩ := Moves.climbs hE hstart (fun old hold => by cases hold)
    hfirst
  obtain ⟨hclimbs, -⟩ := Moves.climbs hE (Moves.traced hfirst hstart) hnumber hmoves
  obtain ⟨old, hold, rfl⟩ := Option.map_eq_some_iff.1 hi
  obtain ⟨new, hnew, hobjective⟩ := hclimbs old hold
  exact ⟨_, Option.map_eq_some_iff.2 ⟨new, hnew, rfl⟩, Scalar.normalize_positiveZero_le hobjective⟩

end Incumbent

/-- What is returned with a limit is held there by the search without limit, or at its end. -/
theorem limited_returns {steps n : Nat} {initial t u : State F σ β κ} {solution result : Solution F}
    (htime : E.settings.timeLimit = none) (hnodes : E.settings.nodeLimit = none)
    (hzero : initial.statistics.processed = 0)
    (hsolve : (solve E steps).run initial = .ok (some solution) t)
    (hresult : (solve (E.limited limit clock) n).run initial = .ok (some result) u) : ∃ s,
      (run E (min limit solution.statistics.processed)).run (initial.announced E) = .ok none s ∧
      result.incumbent = s.held := by
  obtain ⟨last, hlast, hmost, hheld, -⟩ := solve_unlimited htime hnodes hzero hsolve
  rcases Nat.lt_or_ge solution.statistics.processed limit with hlt | hle
  · obtain ⟨u', hsame, -⟩ := solve_completes clock htime hnodes hzero hsolve
      fun n u hrun => Nat.lt_of_le_of_lt (hmost n u hrun) hlt
    rw [Nat.min_eq_right hlt.le, solve_unique hresult hsame]
    exact ⟨last, hlast, hheld⟩
  · obtain ⟨s, hrun, -⟩ := run_before hlast hle
    obtain ⟨stopped, u', hstopped, ⟨-, -, s', hsolve', -, hincumbent, -⟩, -⟩ :=
      solve_stopsAt clock htime hnodes hzero hrun
    rw [Nat.min_eq_left hle, solve_unique hresult (hstopped _ (Nat.lt_succ_self _))]
    exact ⟨s', solve_eq_none.1 hsolve', hincumbent⟩

/-- **Node limits truncate a search and do nothing else.**  If a search without limits comes to a
    solution, then with a node limit up to the number of its nodes it stops there, with the nodes
    closed and the incumbent found until then; with a larger one it comes to the same solution; and
    a larger limit does not lead to a worse incumbent. -/
theorem solve_truncated [Scalar.Ordered F] [Scalar.Measured F] [Scalar.Signed F]
    (E : Engine F σ β κ) (start : σ) (strategy : β) (callbacks : κ) (hE : E.check = .ok ())
    (htime : E.settings.timeLimit = none) (hnodes : E.settings.nodeLimit = none) {steps : Nat}
    {solution : Solution F} {t : State F σ β κ}
    (hsolve : (solve E steps).run (State.initial E start strategy callbacks) =
      .ok (some solution) t) :
    (∀ limit clock, (E.limited limit clock).check = .ok ()) ∧
      E.Truncates start strategy callbacks steps solution t := by
  have hzero : (State.initial E start strategy callbacks).statistics.processed = 0 := rfl
  obtain ⟨last, hlast, hmost, -, htrace⟩ := solve_unlimited htime hnodes hzero hsolve
  refine ⟨fun _ _ => hE, ?_, ?_, ?_⟩
  · intro limit clock hle
    obtain ⟨s, hrun, hmoves⟩ := run_before hlast hle
    obtain ⟨stopped, u, hstopped, hstops, hsame⟩ := solve_stopsAt clock htime hnodes hzero hrun
    exact ⟨stopped, u, hstopped, hstops, by rw [hsame, htrace]; exact hmoves.trace_prefix⟩
  · intro limit clock hlt
    exact solve_completes clock htime hnodes hzero hsolve fun n u hrun =>
      Nat.lt_of_le_of_lt (hmost n u hrun) hlt
  · intro small large clock clock' n m solution₁ solution₂ u₁ u₂ hle h₁ h₂ i hi
    obtain ⟨s₁, hrun₁, hheld₁⟩ := limited_returns htime hnodes hzero hsolve h₁
    obtain ⟨s₂, hrun₂, hheld₂⟩ := limited_returns htime hnodes hzero hsolve h₂
    rw [hheld₁] at hi
    rw [hheld₂]
    exact held_not_worse (Engine.check_eq_ok hE) (min_le_min_right _ hle) hrun₁ hrun₂ hi

/-- The search with the callback that proposes 1 processes two nodes; with a limit of one node it
    stops after the root. -/
theorem solve_truncated_guess : ∃ solution s stopped u,
    (solve guessedSegment 3).run (State.initial guessedSegment () () ()) =
      .ok (some solution) s ∧
    solution.statistics.processed = 2 ∧ guessedSegment.Truncates () () () 3 solution s ∧
    (solve (guessedSegment.limited 1 (SearchClock.stopped ⟨1⟩)) 2).run
        (State.initial (guessedSegment.limited 1 (SearchClock.stopped ⟨1⟩)) () () ()) =
      .ok (some stopped) u ∧
    stopped.status = .nodeLimitReached ∧ stopped.statistics.processed = 1 ∧
    u.trace <+: s.trace := by
  have hrun : read? (fun solution _ => solution.map fun r => r.statistics.processed)
      ((solve guessedSegment 3).run (State.initial guessedSegment () () ())) = some (some 2) := by
    decide +kernel
  obtain ⟨outcome, s, hsolve, hread⟩ := read?_eq_some hrun
  obtain ⟨solution, rfl, hprocessed⟩ := Option.map_eq_some_iff.1 hread
  obtain ⟨-, htruncates⟩ := solve_truncated guessedSegment () () () guessed_check rfl rfl hsolve
  obtain ⟨stopped, u, hstopped, hstops, hprefix⟩ := htruncates.stops 1 (SearchClock.stopped ⟨1⟩)
    (by rw [hprocessed]; decide)
  exact ⟨solution, s, stopped, u, hsolve, hprocessed, htruncates, hstopped 2 (by decide),
    hstops.status_eq, hstops.processed_eq, hprefix⟩

end Milp.Search
