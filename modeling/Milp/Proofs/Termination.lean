/-
  When a search ends.

  A search need not end: a relaxation may answer with a value outside the interval of a variable,
  and then one of the children of a branching is its parent once more.  This is the only way not to
  end.

  * `solve_add`: a search that has ended does not change with more steps.
  * `solve_ends_iff`, `standard_ends_iff`: a search ends exactly if its branchings repeat their
    intervals only so often.
  * `Loop`: regions on which a relaxation always answers the same, with a value that sends the
    search back to one of them; `Loop.never_ends`: a search that gets there does not end.
  * `drift`: a program for which this happens with the simplex solver; `drift_never_ends`.
-/
import Milp.Proofs.Program
import Milp.Proofs.Span

namespace Milp

namespace Search

variable {F σ β κ : Type} [Extended F] {E : Engine F σ β κ}

/-! ## More steps -/

theorem run_succ {steps : Nat} {s : State F σ β κ} (h : ∀ s', (run E steps).run s ≠ .ok none s') :
    (run E (steps + 1)).run s = (run E steps).run s := by
  induction steps generalizing s with
  | zero => exact absurd rfl (h s)
  | succ steps ih =>
    rw [run, EStateM.run_bind] at h
    rw [run, EStateM.run_bind, run, EStateM.run_bind]
    rcases hstep : (step E).run s with ⟨_ | status, s'⟩ | ⟨e, s'⟩
    · rw [hstep] at h
      exact ih h
    · rfl
    · rfl

/-- One step more does not change a search that has ended. -/
theorem solve_succ {steps : Nat} {s : State F σ β κ}
    (h : ∀ s', (solve E steps).run s ≠ .ok none s') :
    (solve E (steps + 1)).run s = (solve E steps).run s := by
  rw [solve, EStateM.run_bind] at h
  rw [solve, EStateM.run_bind, solve, EStateM.run_bind]
  simp only [announce, emit, EStateM.run_modify, EStateM.run_bind] at h ⊢
  rw [run_succ fun s' hrun => ?_]
  rw [hrun] at h
  exact h s' rfl

/-- More steps do not change a search that has ended. -/
theorem solve_add {steps : Nat} {s : State F σ β κ}
    (h : ∀ s', (solve E steps).run s ≠ .ok none s') (more : Nat) :
    (solve E (steps + more)).run s = (solve E steps).run s := by
  induction more with
  | zero => rfl
  | succ more ih => rw [← add_assoc, solve_succ (ih ▸ h), ih]

/-! ## The repetitions of a search -/

variable [Scalar.Faithful F] {start : σ} {strategy : β} {callbacks : κ}

/-- The steps that do not suffice are bounded by the branchings that repeat their interval. -/
theorem lt_of_unfinished {steps : Nat} {s : State F σ β κ} (hstrategy : E.strategy.BuiltIn)
    (hfinite : E.problem.box.FiniteOn E.candidates)
    (h : (solve E steps).run (State.initial E start strategy callbacks) = .ok none s) :
    steps < (s.repeats + 1) * E.capacity := by
  have hcases := solve_cases E steps (State.initial E start strategy callbacks)
  rw [h] at hcases
  obtain ⟨hmoves, hprocessed⟩ := hcases
  have hwithin := Moves.within hstrategy hfinite (traced_initial E start strategy callbacks) hmoves
    (within_initial E start strategy callbacks)
  have hcreated : s.statistics.created + Config.room E (.idle s) <
      (s.repeats + 0 + 1) * E.capacity := hwithin.created
  have hle : s.statistics.processed + s.frontier.keys.length ≤ s.statistics.created :=
    hwithin.processed
  rw [Nat.add_zero] at hcreated
  omega

/-- A search ends exactly if the branchings that repeat their interval are bounded in number. -/
theorem solve_ends_iff (hstrategy : E.strategy.BuiltIn)
    (hfinite : E.problem.box.FiniteOn E.candidates) :
    (∃ steps, ∀ s, (solve E steps).run (State.initial E start strategy callbacks) ≠ .ok none s) ↔
      ∃ bound, ∀ steps s, (solve E steps).run (State.initial E start strategy callbacks) =
        .ok none s → s.repeats ≤ bound := by
  constructor
  · rintro ⟨enough, hends⟩
    -- only the runs with less steps are unfinished, and they are finite in number
    have hless : ∀ n, ∃ bound, ∀ steps s, steps < n →
        (solve E steps).run (State.initial E start strategy callbacks) = .ok none s →
          s.repeats ≤ bound := by
      intro n
      induction n with
      | zero => exact ⟨0, fun _ _ h => absurd h (Nat.not_lt_zero _)⟩
      | succ n ih =>
        obtain ⟨bound, hbound⟩ := ih
        rcases hrun : (solve E n).run (State.initial E start strategy callbacks) with
          ⟨_ | solution, last⟩ | ⟨e, last⟩
        all_goals
          refine ⟨max bound last.repeats, fun steps s hlt h => ?_⟩
          rcases Nat.lt_succ_iff_lt_or_eq.1 hlt with hlt | rfl
          · exact (hbound steps s hlt h).trans (le_max_left _ _)
          · cases hrun.symm.trans h
            try exact le_max_right _ _
    obtain ⟨bound, hbound⟩ := hless enough
    refine ⟨bound, fun steps s h => hbound steps s (not_le.1 fun hle => ?_) h⟩
    obtain ⟨more, rfl⟩ := Nat.exists_eq_add_of_le hle
    exact hends s ((solve_add hends more).symm.trans h)
  · rintro ⟨bound, hbound⟩
    refine ⟨(bound + 1) * E.capacity, fun s h => ?_⟩
    have hlt := lt_of_unfinished hstrategy hfinite h
    have hle := Nat.mul_le_mul_right E.capacity (Nat.succ_le_succ (hbound _ s h))
    exact absurd (hlt.trans_le hle) (lt_irrefl _)

/-! ## Loops -/

/-- Regions on which a relaxation always answers the same optimal point, which is not whole, and on
    which the strategy then leaves a single child, which is such a region again. -/
structure Loop (E : Engine F σ β κ) (working : σ → Prop) (region : Restrictions F → Prop)
    (x : List F) (objective : F) : Prop where
  callbacks : E.callbacks = []
  unlimited : E.settings.timeLimit = none ∧ E.settings.nodeLimit = none
  domain : ∀ {r}, region r → r.emptyDomain? E.settings.tolerance = none
  answers : ∀ {s r}, working s → region r → ∃ reply, E.relaxation.solve s r = .ok reply ∧
    working reply.state ∧ reply.answer.check E.problem.vars = .optimal x objective
  learns : ∀ b change rise, ∃ b', E.strategy.learn b change rise = .ok b'
  notWhole : ∃ split, fractional x E.settings.integrality E.candidates = .ok split ∧ split ≠ []
  splits : ∀ {r}, region r → ∃ box, r.applyTo E.problem.box = .ok box ∧ ∀ b, ∃ d change b',
    E.strategy.select b (E.query x box) = .ok (some d, b') ∧ d.var ∈ E.candidates ∧
      d.children = [change] ∧ region (r.set change.var change.new)

/-- One node waits, and its region is one of the loop. -/
def Tree.Waits (t : Tree F) (region : Restrictions F → Prop) (keys : List (NodeKey F)) : Prop :=
  ∃ key r, keys = [key] ∧ t.restrictions key.id = .ok r ∧ region r

/-- Where a search in a loop stands. -/
def Stage.Loops (region : Restrictions F → Prop) (x : List F) (objective : F) (t : Tree F)
    (keys : List (NodeKey F)) : Stage F κ → Prop
  | idle => Tree.Waits t region keys
  | opened id => keys = [] ∧ ∃ r, t.restrictions id = .ok r ∧ region r
  | relaxed _ r answer => keys = [] ∧ region r ∧ answer = .optimal x objective
  | consulting _ r answer left => keys = [] ∧ region r ∧ answer = .optimal x objective ∧ left = []
  | weighing .. => False
  | splitting id d left => ∃ r change, t.restrictions id = .ok r ∧ d.children = [change] ∧
      region (r.set change.var change.new) ∧
        (keys = [] ∧ left = [change] ∨ left = [] ∧ Tree.Waits t region keys)
  | closing _ status => status ≠ .pruned .solverError ∧ Tree.Waits t region keys

/-- A search in a loop: there is one node at a time, and never an incumbent. -/
structure Config.Loops (working : σ → Prop) (region : Restrictions F → Prop) (x : List F)
    (objective : F) (c : Config F σ β κ) : Prop where
  coherent : c.Coherent
  doomed : c.doomed = []
  best : c.state.tracker.best = none
  working : working c.state.relaxation
  stage : c.stage.Loops region x objective c.state.tree c.state.frontier.keys

section Loop

omit [Scalar.Faithful F]

variable {working : σ → Prop} {region : Restrictions F → Prop} {x : List F} {objective : F}
  {c c' : Config F σ β κ} {s : State F σ β κ}

omit [Extended F] in
theorem Tree.Waits.of_eq {t t' : Tree F} {keys : List (NodeKey F)} (h : Tree.Waits t region keys)
    (heq : ∀ key ∈ keys, t'.restrictions key.id = t.restrictions key.id) :
    Tree.Waits t' region keys := by
  obtain ⟨key, r, rfl, hr, hregion⟩ := h
  exact ⟨key, r, rfl, (heq key List.mem_cons_self).trans hr, hregion⟩

/-- Without an incumbent no node is ruled out. -/
theorem not_dominates (h : s.tracker.best = none) (node : Node F) :
    s.dominates node E.settings.tolerance = false := by
  simp [State.dominates, Tracker.hasIncumbent, h]

/-- A node that survives has the answer of the loop. -/
theorem Config.Loops.point {id : NodeId} {r : Restrictions F} {answer : Answer F} {y : List F}
    {value : F} (hc : Config.Loops working region x objective ⟨.consulting id r answer [], [], s⟩)
    (h : Survives E s id y value) : y = x ∧ s.tree.restrictions id = .ok r := by
  obtain ⟨-, -, hanswer, -⟩ := hc.stage
  obtain ⟨hsurvives, hr⟩ := hc.coherent.survives h
  cases hanswer.symm.trans hsurvives
  exact ⟨rfl, hr⟩

/-- In a loop no node is decided on but by branching. -/
theorem Loop.concludes {stage : Stage F κ} {id : NodeId} {status : NodeStatus}
    {events : List (Event F)} (hE : Loop E working region x objective)
    (hc : Config.Loops working region x objective ⟨stage, [], s⟩)
    (h : Concludes E s stage id status events) :
    status ≠ .pruned .solverError ∧ Tree.Waits s.tree region s.frontier.keys := by
  have hstage := hc.stage
  obtain ⟨split, hsplit, hne⟩ := hE.notWhole
  cases h with
  | dominated hnode h | bounded hnode h =>
    rw [not_dominates hc.best] at h
    cases h
  | emptyDomain hr h =>
    obtain ⟨-, r, hr', hregion⟩ := hstage
    cases hr.symm.trans hr'
    rw [hE.domain hregion] at h
    cases h
  | failed | infeasible | unbounded =>
    obtain ⟨-, -, hanswer, -⟩ := hstage
    cases hanswer
  | @refused id r answer y value h hwhole hupdate =>
    obtain ⟨rfl, -⟩ := hc.point h
    exact absurd (Except.ok.inj (hsplit.symm.trans hwhole)) hne
  | barren h =>
    obtain ⟨r, change, -, hchildren, -⟩ := hstage
    cases h.symm.trans hchildren
  | branched h =>
    obtain ⟨r, change, -, -, -, ⟨-, hleft⟩ | ⟨-, hwaits⟩⟩ := hstage
    · cases hleft
    · exact ⟨by simp, hwaits⟩

/-- Every move of a search in a loop leads on in the loop. -/
theorem Loop.move (hE : Loop E working region x objective)
    (hc : c.Loops working region x objective) (h : Move E c c') :
    c'.Loops working region x objective := by
  have hcoherent := h.coherent hc.coherent
  have hstage := hc.stage
  cases h with
  | remark => exact ⟨hcoherent, hc.doomed, hc.best, hc.working, hstage⟩
  | @take s key rest node hpop hnode =>
    obtain ⟨key', r, hkeys, hr, hregion⟩ := hstage
    have hperm := Frontier.pop?_keys hpop
    rw [show s.frontier.keys = [key'] from hkeys] at hperm
    obtain ⟨rfl, hrest⟩ := List.cons.inj (List.singleton_perm.1 hperm).symm
    exact ⟨hcoherent, rfl, hc.best, hc.working, hrest, r, hr, hregion⟩
  | conclude h =>
    have hdone := hE.concludes hc h
    exact ⟨hcoherent, rfl, hc.best, hc.working, hdone⟩
  | @relax s id node r reply hnode hbound hr hdomain hsolve =>
    obtain ⟨hkeys, r', hr', hregion⟩ := hstage
    cases hr.symm.trans hr'
    obtain ⟨reply', hsolve', hworking, hanswer⟩ := hE.answers hc.working hregion
    cases hsolve.symm.trans hsolve'
    exact ⟨hcoherent, rfl, hc.best, hworking, hkeys, hregion, hanswer⟩
  | record =>
    obtain ⟨hkeys, hregion, hanswer⟩ := hstage
    exact ⟨hcoherent, rfl, hc.best, hc.working, hkeys, hregion, hanswer, hE.callbacks⟩
  | offer =>
    obtain ⟨-, -, -, hleft⟩ := hstage
    cases hleft
  | refuse => exact absurd hstage id
  | adopt h =>
    cases h with
    | proposed => exact absurd hstage id
    | @accepted id r answer y value h hwhole =>
      obtain ⟨rfl, -⟩ := hc.point h
      obtain ⟨split, hsplit, hne⟩ := hE.notWhole
      exact absurd (Except.ok.inj (hsplit.symm.trans hwhole)) hne
  | sweep => cases hc.doomed
  | @select s id r answer y value split restrictions box d strategy h hsplit hne hr hbox hselect
      hvar =>
    obtain ⟨hkeys, hregion, -, -⟩ := hstage
    obtain ⟨rfl, hr'⟩ := hc.point h
    cases hr.symm.trans hr'
    obtain ⟨box', hbox', hsplits⟩ := hE.splits hregion
    cases hbox.symm.trans hbox'
    obtain ⟨d', change, b', hselect', -, hchildren, hnext⟩ := hsplits s.strategy
    cases hselect.symm.trans hselect'
    exact ⟨hcoherent, rfl, hc.best, hc.working, r, change, hr, hchildren, hnext,
      .inl ⟨hkeys, hchildren⟩⟩
  | @spawn s id d change left tree child node hcreate hnode =>
    obtain ⟨r, only, hr, hchildren, hnext, ⟨hkeys, hleft⟩ | ⟨hleft, -⟩⟩ := hstage
    · obtain ⟨rfl, rfl⟩ := List.cons.inj hleft
      have hid : id ∈ Config.openIds ⟨.splitting id d [change], [], s⟩ :=
        List.mem_append_right _ (List.mem_singleton_self _)
      obtain ⟨n, hn, -⟩ := hc.coherent.live hid
      have hparent := (hc.coherent.keep_of_spawned hcreate hn).2
      have hchild := hc.coherent.child_of_spawned hcreate hnode hr
      have hperm := Frontier.pushNode_keys s.frontier node
      rw [show s.frontier.keys = [] from hkeys] at hperm
      refine ⟨hcoherent, rfl, hc.best, hc.working, r, change, hparent.trans hr, hchildren, hnext,
        .inr ⟨rfl, s.frontier.keyOf node, _, List.perm_singleton.1 hperm, hchild, hnext⟩⟩
    · cases hleft
  | @close s id status node tree released hnode hclose hgo =>
    obtain ⟨-, hwaits⟩ := hstage
    have hclosed := Tree.close_spec hc.coherent.wellFormed hc.coherent.settled hclose
    refine ⟨hcoherent, rfl, hc.best, hc.working, hwaits.of_eq fun key hkey => ?_⟩
    refine (hc.coherent.keep_of_closed hclosed (openIds_closed ..) ?_).2
    exact List.mem_append_left _ (List.mem_map_of_mem (List.mem_append_left _ hkey))

/-- A search in a loop does not fail. -/
theorem Loop.not_fails {e : SearchError F} (hE : Loop E working region x objective)
    (hc : c.Loops working region x objective) : ¬ Fails E c e := by
  intro h
  have hcopy := h
  have hstage := hc.stage
  cases h with
  | missing | vanished | unrestricted | solvedTwice | unanswered | notOptimal =>
    rcases hc.coherent.internal hcopy with ⟨_, _, _, h⟩ | ⟨_, _, h⟩ <;> cases h
  | unsolved hr h =>
    obtain ⟨-, r', hr', hregion⟩ := hstage
    cases hr.symm.trans hr'
    obtain ⟨reply, hsolve, -⟩ := hE.answers hc.working hregion
    cases h.symm.trans hsolve
  | @unlearned s id r answer node fault h =>
    unfold Engine.learned at h
    split at h
    · obtain ⟨b', hlearn⟩ := hE.learns _ _ _
      cases h.symm.trans hlearn
    · cases h
  | callback =>
    obtain ⟨-, -, -, hleft⟩ := hstage
    cases hleft
  | unchecked => exact hstage
  | unread h hread =>
    obtain ⟨split, hsplit, -⟩ := hE.notWhole
    obtain ⟨rfl, -⟩ := hc.point h
    cases hsplit.symm.trans hread
  | boxless hr h =>
    obtain ⟨-, hregion, -⟩ := hstage
    cases hr.symm.trans hc.coherent.fits.1
    obtain ⟨box, hbox, -⟩ := hE.splits hregion
    cases h.symm.trans hbox
  | unselected h hr hbox hselect | undecided h _ _ hr hbox hselect
  | notACandidate h hr hbox hselect hvar =>
    obtain ⟨-, hregion, -⟩ := hstage
    obtain ⟨rfl, hr'⟩ := hc.point h
    cases hr.symm.trans hr'
    obtain ⟨box, hbox', hsplits⟩ := hE.splits hregion
    cases hbox.symm.trans hbox'
    obtain ⟨d', change, b', hselect', hmem, -⟩ := hsplits _
    cases hselect.symm.trans hselect'
    try exact hvar hmem
  | aborted => exact hstage.1 rfl

/-- A search that gets into a loop never ends. -/
theorem Loop.never_ends (hE : Loop E working region x objective)
    (hc : (Config.idle s).Loops working region x objective) (steps : Nat) :
    ∃ s', (run E steps).run s = .ok none s' := by
  have hmoves : ∀ {c}, Moves E (.idle s) c → c.Loops working region x objective := by
    intro c h
    induction h with
    | refl => exact hc
    | tail _ hmove ih => exact hE.move ih hmove
  have hcases := run_cases E steps s
  split at hcases
  · rename_i status s' heq
    obtain ⟨s₁, hrun, hends⟩ := hcases
    obtain ⟨key, r, hkeys, -⟩ := (hmoves hrun).stage
    cases hends with
    | limit reason h =>
      simp [Limits.check, Limits.ofSettings, Settings.duration?, hE.unlimited] at h
    | exhausted h =>
      cases (Frontier.pop?_eq_none.1 h).symm.trans hkeys
  · rename_i s' heq
    exact ⟨s', heq⟩
  · rename_i e s' heq
    obtain ⟨c, hrun, hfails, -⟩ := hcases
    exact absurd hfails (hE.not_fails (hmoves hrun))

theorem Loop.solve_never_ends (hE : Loop E working region x objective)
    (hc : (Config.idle s).Loops working region x objective) (steps : Nat) :
    ∃ s', (solve E steps).run s = .ok none s' := by
  have hmove : Move E (.idle s) (.idle (s.logged (.started E.problem.vars E.problem.height
      E.candidates.length E.relaxation.name E.strategy.name E.callbacks.length E.sense))) :=
    .remark rfl
  obtain ⟨s', hrun⟩ := hE.never_ends (hE.move hc hmove) steps
  rw [solve, EStateM.run_bind]
  simp only [announce, emit, EStateM.run_modify, EStateM.run_bind]
  simp only [State.logged] at hrun
  rw [hrun]
  exact ⟨s', rfl⟩

/-- A search whose root is a region of a loop is in that loop from the start. -/
theorem loops_initial (start : σ) (strategy : β) (callbacks : κ) (hworking : working start)
    (hregion : region Restrictions.empty) :
    (Config.idle (State.initial E start strategy callbacks)).Loops working region x objective :=
  ⟨Config.coherent_initial E start strategy callbacks, rfl, rfl, hworking, _, _,
    keys_initial E start strategy callbacks, restrictions_initial E start strategy callbacks,
    hregion⟩

end Loop

end Search

/-! ## A program with a loop -/

open Search

/-- The row `0.02 x₀ = 0.009` has no solution with `x₀` in `[0, 0]`.  The tolerance of phase 1
    grows with the largest bound, which is the one of `x₁`, so that it lets a violation of `0.009`
    pass; the artificial variable of the row is then exchanged for `x₀`, which takes the value
    `0.45`. -/
def drift : MixedProgram Float where
  lp :=
    { cost := [0, 0]
      matrix := ⟨1, 2, [[(0, 0.02)], []], rfl, by simp, by simp [Column.Sorted]⟩
      rhs := [0.009]
      blocks := [.equality 1]
      bounds := some [⟨0, some 0, some 0⟩, ⟨1, some 0, some 1e7⟩]
      kinds := some [.integer, .continuous] }
  integers := [0]
  binaries := []
  box := ⟨[0, 0], [0, 1e7]⟩

/-- The point that the solver answers for `drift`. -/
def driftPoint : List Float := [0.009 / 0.02, 0]

theorem drift_ok : MixedProgram.ofProgram drift.lp = .ok drift :=
  MixedProgram.ofProgram_ok (by decide +kernel) (by decide +kernel) (by decide +kernel)

/-- The value is more than `0.4` outside of the bounds. -/
theorem drift_solveOver (clock : Simplex.PivotClock) :
    ∃ report, drift.lp.solveOver drift.box Simplex.Options.standard clock = .ok report ∧
      report.verdict = .optimal driftPoint 0 := by
  have hstill : drift.lp.solveOver drift.box Simplex.Options.standard clock =
      drift.lp.solveOver drift.box Simplex.Options.standard Simplex.PivotClock.still := rfl
  have hsolve : (drift.lp.solveOver drift.box Simplex.Options.standard
      Simplex.PivotClock.still).map Simplex.Report.verdict = .ok (.optimal driftPoint 0) := by
    decide +kernel
  rw [hstill]
  rcases hreport : drift.lp.solveOver drift.box Simplex.Options.standard
    Simplex.PivotClock.still with e | report
  · rw [hreport] at hsolve; cases hsolve
  · rw [hreport] at hsolve
    exact ⟨report, rfl, Except.ok.inj hsolve⟩

/-- The region of every node of a search of `drift`. -/
def DriftRegion (r : Restrictions Float) : Prop := r.entries = [] ∨ r.entries = [(0, ⟨0, 0⟩)]

/-- What the search decides on at every node of `drift`. -/
def driftDecision : Decision Float :=
  Decision.split 0 (0.009 / 0.02) ⟨0, 0⟩ (Scalar.fractionality (0.009 / 0.02))

theorem drift_decision : driftDecision.children = [⟨0, ⟨0, 0⟩, ⟨0, 0⟩, 0.009 / 0.02⟩] := rfl

theorem drift_select :
    Strategy.mostFractional.select () ⟨driftPoint, [0], drift, drift.box, 1e-6⟩ =
      .ok (some driftDecision, ()) := rfl

theorem drift_cut : drift.box.cut 0 ⟨0, 0⟩ = .ok drift.box := rfl

section DriftRegion

variable {r : Restrictions Float}

theorem DriftRegion.apply (h : DriftRegion r) : ∃ overlay, Overlay.apply drift.box r = .ok overlay ∧
    overlay.box = drift.box ∧ overlay.restore = drift.box := by
  rcases h with h | h
  · exact ⟨⟨drift.box, []⟩, by rw [Overlay.apply, h]; rfl, rfl, rfl⟩
  · refine ⟨⟨drift.box, [(0, ⟨0, 0⟩)]⟩, ?_, rfl, rfl⟩
    rw [Overlay.apply, h]
    show Overlay.push ⟨drift.box, []⟩ 0 ⟨0, 0⟩ >>= _ = _
    rw [Overlay.push, if_pos (show 0 < drift.box.lower.length by decide), drift_cut]
    rfl

theorem DriftRegion.applyTo (h : DriftRegion r) : r.applyTo drift.box = .ok drift.box := by
  rcases h with h | h
  · rw [Restrictions.applyTo, h]
    rfl
  · rw [Restrictions.applyTo, h]
    show (if 0 < drift.box.lower.length then _ else _) >>= _ = _
    rw [if_pos (by decide), drift_cut]
    rfl

theorem DriftRegion.emptyDomain? (h : DriftRegion r) :
    r.emptyDomain? (Settings.standard : Settings Float).tolerance = none := by
  rcases h with h | h
  · rw [Restrictions.emptyDomain?, h]
    rfl
  · rw [Restrictions.emptyDomain?, h]
    decide +kernel

theorem DriftRegion.set (h : DriftRegion r) : DriftRegion (r.set 0 ⟨0, 0⟩) := by
  rcases h with h | h
  · exact .inr (by simp [Restrictions.set, h, Restrictions.insert])
  · exact .inr (by simp [Restrictions.set, h, Restrictions.insert])

end DriftRegion

/-- Every node of a search of `drift` has the same answer, and the same node as its only child. -/
theorem drift_loop (clock : SearchClock) (pivotClock : Simplex.PivotClock) :
    Loop (Engine.standard drift [0] Settings.standard clock pivotClock) (·.box = drift.box)
      DriftRegion driftPoint 0 where
  callbacks := rfl
  unlimited := ⟨rfl, rfl⟩
  domain h := h.emptyDomain?
  answers {w r} hw h := by
    obtain ⟨overlay, happly, hbox, hrestore⟩ := h.apply
    obtain ⟨report, hsolve, hverdict⟩ := drift_solveOver pivotClock
    have hcheck : (Answer.optimal driftPoint 0).check 2 = .optimal driftPoint 0 := rfl
    refine ⟨⟨⟨drift.box, w.solves + 1⟩, .optimal driftPoint 0, report.notes⟩, ?_, rfl, hcheck⟩
    show (Overlay.apply w.box r >>= _) = _
    rw [show w.box = drift.box from hw, happly]
    simp only [Bind.bind, Except.bind, hbox, hrestore]
    rw [show drift.lp.solveOver drift.box Settings.standard.relaxation pivotClock = _ from hsolve]
    simp only [Answer.ofReport, hverdict]
    rfl
  learns b change rise := ⟨(), rfl⟩
  notWhole := by
    have hfractional : fractional driftPoint 1e-6 [0] = .ok [⟨0, 0, 0.009 / 0.02⟩] := rfl
    exact ⟨_, hfractional, by simp⟩
  splits h := ⟨drift.box, h.applyTo, fun _ => ⟨driftDecision, _, (), drift_select,
    List.mem_singleton_self _, drift_decision, h.set⟩⟩

/-- No number of steps suffices for the search of `drift`. -/
theorem drift_endless (clock : SearchClock) (pivotClock : Simplex.PivotClock) (steps : Nat) :
    ∃ s, drift.solve [0] Settings.standard clock pivotClock steps = .ok none s := by
  have hcheck : (Engine.standard (drift.redirect none) [0] Settings.standard clock
      pivotClock).check = .ok () := by
    show (Engine.standard drift [0] Settings.standard (SearchClock.stopped ⟨0⟩)
      Simplex.PivotClock.still).check = .ok ()
    rfl
  obtain ⟨s, hsolve⟩ := (drift_loop clock pivotClock).solve_never_ends
    (loops_initial ⟨drift.box, 0⟩ () () rfl (.inl rfl)) steps
  refine ⟨s, ?_⟩
  unfold MixedProgram.solve
  rw [show (Settings.standard : Settings Float).sense = none from rfl]
  simp only [hcheck]
  exact hsolve

/-- `drift` is a program with a row and an integer variable in `[0, 0]`, and its search never
    ends. -/
theorem drift_never_ends : MixedProgram.ofProgram drift.lp = .ok drift ∧
    ∀ clock pivotClock steps,
      ∃ s, drift.solve [0] Settings.standard clock pivotClock steps = .ok none s :=
  ⟨drift_ok, drift_endless⟩

/-! ## The standard search -/

/-- **Termination of the standard search.**  If the candidates have finite bounds, a search that is
    not over after some steps has branched on repeated intervals: the steps are less than the nodes
    that fit between the bounds, once for each such branching and once more.  So it ends exactly if
    the branchings that repeat their interval are bounded in number. -/
theorem Search.standard_ends_iff {F : Type} [Extended F] [Scalar.Faithful F] (M : MixedProgram F)
    (candidates : List Nat) (settings : Settings F) (clock : SearchClock)
    (pivotClock : Simplex.PivotClock) (hfinite : M.box.FiniteOn candidates) :
    (∀ steps s, M.solve candidates settings clock pivotClock steps = .ok none s →
      steps < (s.repeats + 1) * 2 ^ (Restrictions.empty.span M.box candidates + 1)) ∧
    ((∃ steps, ∀ s, M.solve candidates settings clock pivotClock steps ≠ .ok none s) ↔
      ∃ bound, ∀ steps s, M.solve candidates settings clock pivotClock steps = .ok none s →
        s.repeats ≤ bound) := by
  unfold MixedProgram.solve
  rcases hcheck : (Engine.standard (M.redirect settings.sense) candidates settings clock
    pivotClock).check with cause | _
  · simp only [hcheck]
    refine ⟨fun _ _ h => (by cases h), ?_⟩
    exact ⟨fun _ => ⟨0, fun _ _ h => (by cases h)⟩, fun _ => ⟨0, fun _ h => (by cases h)⟩⟩
  · simp only [hcheck]
    refine ⟨fun steps s h => ?_, solve_ends_iff .mostFractional hfinite⟩
    have hlt := lt_of_unfinished (E := Engine.standard (M.redirect settings.sense) candidates
      settings clock pivotClock) .mostFractional hfinite h
    exact hlt

/-- The search of `drift` branches on as many repeated intervals as it likes. -/
theorem Search.standard_ends_iff_drift : drift.box.FiniteOn [0] ∧
    (∀ steps, ∃ s, drift.solve [0] Settings.standard (SearchClock.stopped ⟨0⟩)
      Simplex.PivotClock.still steps = .ok none s ∧ steps < (s.repeats + 1) * 2) ∧
    ¬ ∃ bound, ∀ steps s, drift.solve [0] Settings.standard (SearchClock.stopped ⟨0⟩)
      Simplex.PivotClock.still steps = .ok none s → s.repeats ≤ bound := by
  have hfinite : drift.box.FiniteOn [0] := by
    intro var hvar
    obtain rfl : var = 0 := List.mem_singleton.1 hvar
    exact ⟨⟨0, 0⟩, rfl, 0, 0, by decide +kernel, by decide +kernel⟩
  obtain ⟨hless, hiff⟩ := Search.standard_ends_iff drift [0] Settings.standard
    (SearchClock.stopped ⟨0⟩) Simplex.PivotClock.still hfinite
  refine ⟨hfinite, fun steps => ?_, fun hbound => ?_⟩
  · obtain ⟨s, hsolve⟩ := drift_endless (SearchClock.stopped ⟨0⟩) Simplex.PivotClock.still steps
    refine ⟨s, hsolve, (hless steps s hsolve).trans_eq (congrArg ((s.repeats + 1) * ·) ?_)⟩
    decide +kernel
  · obtain ⟨steps, hends⟩ := hiff.2 hbound
    obtain ⟨s, hsolve⟩ := drift_endless (SearchClock.stopped ⟨0⟩) Simplex.PivotClock.still steps
    exact hends s hsolve

end Milp
