/-
  Failures of the relaxation, and the number of them that a search puts up with.

  * `Answer.isFailure`: an answer that counts as a failure, as it was given.
  * `Visit`, `Engine.visit?`: the node that the next step asks the relaxation about.
  * `Engine.failures`: the number of failed nodes that a run processes.
  * `Steady`: a computation that counts no failure and does not give up; all but `writeOff` are.
  * `step_failures`: a step counts the failure of its node, and gives up if it is one too many.
  * `solve_aborts`: when a search gives up, and what it then says.
-/
import Milp.Callback.Scripted
import Milp.Proofs.Accounting
import Milp.Proofs.Coupling
import Milp.Relaxation.Scripted

namespace Milp

variable {F σ β κ α γ : Type}

/-- Does an answer count as a failure?  It does if it says so, or if it is called optimal and has
    the wrong number of values or a value or an objective that is not finite. -/
def Answer.isFailure [Scalar F] (vars : Nat) : Answer F → Bool
  | failed _ => true
  | optimal x objective =>
    x.length ≠ vars || !Scalar.isFinite objective || !x.all Scalar.isFinite
  | _ => false

/-- The answers that the check turns into failures, and those that are failures already. -/
theorem Answer.isFailure_iff [Scalar F] {vars : Nat} {answer : Answer F} :
    answer.isFailure vars = true ↔ ∃ cause, answer.check vars = .failed cause := by
  rcases answer with ⟨x, objective⟩ | _ | _ | cause
  · rw [isFailure, check, Bool.or_assoc]
    by_cases hlength : x.length = vars
    · rw [if_neg (not_not.2 hlength)]
      by_cases hfinite : (!Scalar.isFinite objective || !x.all Scalar.isFinite) = true
      · simp only [hfinite, Bool.or_true, if_true, failed.injEq, exists_eq']
      · simp [hlength, hfinite]
    · simp [hlength]
  · simp [isFailure, check]
  · simp [isFailure, check]
  · simp [isFailure, check]

namespace Search

/-! ## The failed nodes of a run -/

/-- A node that a step asks the relaxation about: its key, what is left of the frontier without it,
    the node itself and its restrictions. -/
structure Visit (F : Type) where
  key : NodeKey F
  rest : Frontier F
  node : Node F
  region : Restrictions F

variable [Extended F] (E : Engine F σ β κ)

/-- The node that the next step asks the relaxation about.  There is none if a limit is reached, if
    no node is left, or if the next node is discarded without an answer. -/
def Engine.visit? (s : State F σ β κ) : Option (Visit F) :=
  if ((Limits.ofSettings E.settings).check (E.clock s.statistics.processed)
      s.statistics.processed).isSome then none
  else do
    let (key, rest) ← s.frontier.pop?
    let node ← s.tree.get? key.id
    let region ← (s.tree.restrictions key.id).toOption
    if s.dominates node E.settings.tolerance ||
        (region.emptyDomain? E.settings.tolerance).isSome then none
    else some ⟨key, rest, node, region⟩

/-- Does the relaxation fail in the next step? -/
def Engine.failsAt (s : State F σ β κ) : Bool :=
  (E.visit? s).any fun v =>
    match E.relaxation.solve s.relaxation v.region with
    | .ok reply => reply.answer.isFailure E.problem.vars
    | .error _ => false

/-- The number of failed nodes among those that a number of steps process. -/
def Engine.failures : Nat → State F σ β κ → Nat
  | 0, _ => 0
  | steps + 1, s =>
    (if E.failsAt s then 1 else 0) +
      match (step E).run s with
      | .ok none s' => failures steps s'
      | _ => 0

/-- What is done with an answer before the node is decided on: it is recorded, and the callbacks
    see it and may make proposals. -/
def share (id : NodeId) (r : Restrictions F) (answer : Answer F) : SearchM F σ β κ Unit := do
  recordAnswer E id answer
  E.callbacks.forM (consult E id r)

/-- The relaxation of a node that was taken was answered. -/
def State.answered {F σ β κ : Type} (s : State F σ β κ) (v : Visit F) (reply : Reply F σ) :
    State F σ β κ :=
  { s.taken v.key v.rest v.node with
    relaxation := reply.state
    history := .solved v.key.id reply.notes :: (s.taken v.key v.rest v.node).history }

/-- In the next step the relaxation answers, and this is the state after all callbacks have seen the
    answer and all of their proposals were weighed. -/
def Engine.Shared (s s' : State F σ β κ) : Prop :=
  ∃ v reply, E.visit? s = some v ∧ E.relaxation.solve s.relaxation v.region = .ok reply ∧
    (share E v.key.id v.region (reply.answer.check E.problem.vars)).run (s.answered v reply) =
      .ok () s'

/-! ## Computations that count no failure -/

/-- Does the error say that there were too many failures? -/
def SearchError.isAborted {F : Type} : SearchError F → Bool
  | .aborted .. => true
  | _ => false

/-- Since this state no failure was counted, and the search was not given up. -/
def Uncounted (s : State F σ β κ) :
    EStateM.Result (SearchError F) (State F σ β κ) α → Prop
  | .ok _ s' => s'.statistics.solverErrors = s.statistics.solverErrors
  | .error e _ => SearchError.isAborted e = false

/-- A computation that counts no failure and does not give up. -/
def Steady (m : SearchM F σ β κ α) : Prop := ∀ s, Uncounted s (m.run s)

namespace Steady

variable {m : SearchM F σ β κ α} {f : α → SearchM F σ β κ γ} {s : State F σ β κ}

omit [Extended F]

theorem returns (a : α) : Steady (pure a : SearchM F σ β κ α) := fun _ => rfl

theorem throws {e : SearchError F} (h : SearchError.isAborted e = false) :
    Steady (throw e : SearchM F σ β κ α) := fun _ => h

theorem bind (h : Steady m) (hf : ∀ a, Steady (f a)) : Steady (m >>= f) := by
  intro s
  have hm := h s
  rw [EStateM.run_bind]
  rcases hrun : m.run s with ⟨a, s'⟩ | ⟨e, s'⟩ <;> rw [hrun] at hm
  · have hfa := hf a s'
    simp only
    rcases hrun' : (f a).run s' with ⟨b, s''⟩ | ⟨e, s''⟩ <;> rw [hrun'] at hfa
    · exact Eq.trans hfa hm
    · exact hfa
  · exact hm

/-- Looking at the state. -/
theorem look {f : State F σ β κ → SearchM F σ β κ γ} (h : ∀ s, Steady (f s)) :
    Steady (get >>= f) := fun s => h s s

theorem change {g : State F σ β κ → State F σ β κ}
    (h : ∀ s, (g s).statistics.solverErrors = s.statistics.solverErrors) :
    Steady (modify g) := h

theorem ite {p : Prop} [Decidable p] {m₁ m₂ : SearchM F σ β κ α} (h₁ : Steady m₁)
    (h₂ : Steady m₂) : Steady (if p then m₁ else m₂) := by
  split
  · exact h₁
  · exact h₂

theorem ofTree {x : Except TreeError α} : Steady (ofTree x : SearchM F σ β κ α) := by
  cases x with
  | ok a => exact .returns a
  | error e => exact .throws rfl

theorem ofRead {x : Except Fault α} : Steady (ofRead x : SearchM F σ β κ α) := by
  cases x with
  | ok a => exact .returns a
  | error e => exact .throws rfl

theorem emit (event : Event F) : Steady (emit event : SearchM F σ β κ Unit) := .change fun _ => rfl

theorem tally {f : Statistics F → Statistics F} (h : ∀ t, (f t).solverErrors = t.solverErrors) :
    Steady (tally f : SearchM F σ β κ Unit) := .change fun s => h s.statistics

theorem forM {ι : Type} {f : ι → SearchM F σ β κ Unit} (hf : ∀ i, Steady (f i)) (is : List ι) :
    Steady (is.forM f) := by
  induction is with
  | nil => exact .returns ()
  | cons i is ih => exact (hf i).bind fun _ => ih

end Steady

variable {E : Engine F σ β κ} {id : NodeId}

theorem close_steady (status : NodeStatus) : Steady (close E id status) := by
  refine .look fun s => .bind .ofTree fun node => .look fun s' => .bind .ofTree fun ⟨tree, _⟩ => ?_
  exact .change fun _ => rfl

/-- Closing a node for a reason that is logged and counted, unless it is a failure. -/
theorem conclude_steady {event : Event F} {count : Statistics F → Statistics F}
    (hcount : ∀ t, (count t).solverErrors = t.solverErrors) (status : NodeStatus) :
    Steady (do emit event; tally count; close E id status) :=
  .bind (.emit event) fun _ => .bind (.tally hcount) fun _ => close_steady status

theorem install_steady (candidate : Incumbent F) : Steady (install E candidate) := by
  refine .look fun s => ?_
  split
  · exact .returns false
  · refine .bind (.change fun _ => rfl) fun _ => .bind (.tally fun _ => rfl) fun _ => ?_
    refine .bind (.look fun s => ?_) fun pruned => .bind (.emit _) fun _ => .returns true
    refine .bind (.change fun _ => rfl) fun _ => .bind (.tally fun _ => rfl) fun _ => ?_
    exact .bind (.forM (fun _ => close_steady _) _) fun _ => .returns _

theorem weigh_steady (name : String) (p : Proposal F) : Steady (weigh E id name p) := by
  refine .look fun s => .bind .ofRead fun checked => ?_
  split
  · exact .look fun s => .bind (install_steady _) fun _ => .returns ()
  · exact .bind (.tally fun _ => rfl) fun _ => .emit _

theorem consult_steady (r : Restrictions F) (callback : Callback F κ) :
    Steady (consult E id r callback) := by
  refine .look fun s => .bind .ofTree fun node => ?_
  split
  · exact .throws rfl
  · refine .bind (.emit _) fun _ => .bind .ofRead fun ⟨proposal, callbacks⟩ => ?_
    refine .bind (.change fun _ => rfl) fun _ => ?_
    rcases proposal with _ | p
    · exact .returns ()
    · exact weigh_steady _ p

theorem accept_steady (x : List F) (objective : F) : Steady (accept E id x objective) := by
  refine .look fun s => .bind (install_steady _) fun installed => .ite (close_steady _) ?_
  exact .bind (.tally fun _ => rfl) fun _ => close_steady _

theorem select_steady (x : List F) (n : Nat) : Steady (select E id x n) := by
  refine .look fun s => .bind .ofTree fun r => .bind .ofRead fun box => ?_
  refine .bind .ofRead fun ⟨decision, strategy⟩ => .bind (.change fun _ => rfl) fun _ => ?_
  rcases decision with _ | d
  · exact .throws rfl
  · exact .ite (.returns d) (.throws rfl)

theorem spawn_steady (change : BoundChange F) :
    Steady (spawn id change : SearchM F σ β κ Unit) := by
  refine .look fun s => .bind .ofTree fun ⟨tree, child⟩ => .bind (.change fun _ => rfl) fun _ => ?_
  refine .bind .ofTree fun node => .bind (.change fun _ => rfl) fun _ => ?_
  exact .tally fun _ => rfl

theorem branch_steady (x : List F) (n : Nat) : Steady (branch E id x n) := by
  refine .bind (select_steady x n) fun d => .bind (.forM spawn_steady _) fun _ => ?_
  exact .ite (conclude_steady (fun _ => by rfl) _) (conclude_steady (fun _ => by rfl) _)

theorem settle_steady : Steady (settle E id) := by
  refine .look fun s => .bind .ofTree fun node => .ite (conclude_steady (fun _ => by rfl) _) ?_
  split
  · exact .bind .ofRead fun split => .ite (accept_steady _ _) (branch_steady _ _)
  · exact .throws rfl

/-- Only a failed node makes a decision that counts a failure. -/
theorem dispatch_steady {answer : Answer F} (h : ∀ cause, answer ≠ .failed cause) :
    Steady (dispatch E id answer) := by
  rcases answer with ⟨x, objective⟩ | _ | _ | cause
  · exact settle_steady
  · exact conclude_steady (fun _ => by rfl) _
  · exact .bind (.emit _) fun _ => .bind (.tally fun _ => rfl) fun _ =>
      .bind (.change fun _ => rfl) fun _ => close_steady _
  · exact absurd rfl (h cause)

theorem share_steady (r : Restrictions F) (answer : Answer F) : Steady (share E id r answer) := by
  refine .bind (.look fun s => ?_) fun _ => .forM (consult_steady r) _
  split
  · exact .throws rfl
  · split
    · exact .throws rfl
    · refine .bind (.change fun _ => rfl) fun _ => .ite ?_ (.returns ())
      rename_i node _ _
      rcases node.changes.head? with _ | change
      · exact .returns ()
      · exact .look fun s => .bind .ofRead fun strategy => .change fun _ => rfl

theorem report_steady : Steady (report E) := .look fun _ => .ite (.emit _) (.returns ())

/-! ## One step -/

theorem Engine.visit?_eq_some {v : Visit F} {s : State F σ β κ} (h : E.visit? s = some v) :
    (Limits.ofSettings E.settings).check (E.clock s.statistics.processed) s.statistics.processed =
        none ∧
      s.frontier.pop? = some (v.key, v.rest) ∧ s.tree.get? v.key.id = some v.node ∧
      s.dominates v.node E.settings.tolerance = false ∧
      s.tree.restrictions v.key.id = .ok v.region ∧
      v.region.emptyDomain? E.settings.tolerance = none := by
  unfold visit? at h
  split at h
  · cases h
  rename_i hlimit
  rcases hpop : s.frontier.pop? with _ | ⟨key, rest⟩
  · rw [hpop] at h; cases h
  rcases hnode : s.tree.get? key.id with _ | node
  · simp [hpop, hnode] at h
  rcases hr : s.tree.restrictions key.id with error | region
  · simp [hpop, hnode, hr, Except.toOption] at h
  simp only [hpop, hnode, hr, Except.toOption, Option.bind_eq_bind, Option.bind_some,
    Bool.or_eq_true, Option.ite_none_left_eq_some, not_or, Bool.not_eq_true,
    Option.isSome_eq_false_iff, Option.isNone_iff_eq_none] at h
  obtain ⟨⟨hbound, hdomain⟩, heq⟩ := h
  cases heq
  exact ⟨by simpa using hlimit, rfl, hnode, hbound, hr, hdomain⟩

/-- A step that asks the relaxation explores the node that it takes. -/
theorem step_visited {v : Visit F} {s : State F σ β κ} (h : E.visit? s = some v) :
    (step E).run s = (explore E v.key.id v.region >>= fun _ => report E >>= fun _ => pure none
      : SearchM F σ β κ (Option SearchStatus)).run (s.taken v.key v.rest v.node) := by
  obtain ⟨hlimit, hpop, hnode, hbound, hr, hdomain⟩ := Engine.visit?_eq_some h
  have hexamine : examine E (s.taken v.key v.rest v.node) v.node v.key.id =
      explore E v.key.id v.region := by
    have hbound : (s.taken v.key v.rest v.node).dominates v.node E.settings.tolerance = false :=
      hbound
    have hr : (s.taken v.key v.rest v.node).tree.restrictions v.key.id = .ok v.region := hr
    simp only [examine, hbound, hr, ofTree_ok, pure_bind, hdomain, Bool.false_eq_true, if_false]
  rw [step_taken hlimit hpop hnode, hexamine]

/-- A step that does not ask the relaxation counts no failure. -/
theorem step_unvisited {s : State F σ β κ} (h : E.visit? s = none) :
    Uncounted s ((step E).run s) := by
  rcases hlimit : (Limits.ofSettings E.settings).check (E.clock s.statistics.processed)
      s.statistics.processed with _ | reason
  swap
  · rw [step_limited hlimit]
    rfl
  rcases hpop : s.frontier.pop? with _ | ⟨key, rest⟩
  · rw [step_exhausted hlimit hpop]
    rfl
  rcases hnode : s.tree.get? key.id with _ | node
  · rw [step_missing hlimit hpop hnode]
    rfl
  rw [step_taken hlimit hpop hnode]
  have hexamine : Steady (examine E (s.taken key rest node) node key.id) := by
    unfold examine
    split
    · exact conclude_steady (fun _ => by rfl) _
    rename_i hbound
    rcases hr : (s.taken key rest node).tree.restrictions key.id with error | region
    · exact .throws rfl
    rcases hdomain : region.emptyDomain? E.settings.tolerance with _ | var
    · -- such a node is one that the relaxation is asked about
      have hr : s.tree.restrictions key.id = .ok region := hr
      have hbound : ¬ s.dominates node E.settings.tolerance = true := hbound
      simp [Engine.visit?, hlimit, hpop, hnode, hr, hbound, hdomain, Except.toOption] at h
    · simp only [ofTree_ok, pure_bind, hdomain]
      exact conclude_steady (fun _ => by rfl) _
  exact (hexamine.bind fun _ => report_steady.bind fun _ => .returns none) (s.taken key rest node)

theorem relax_run {v : Visit F} {s : State F σ β κ} {reply : Reply F σ}
    (h : E.relaxation.solve s.relaxation v.region = .ok reply) :
    (relax E v.key.id v.region).run (s.taken v.key v.rest v.node) =
      .ok (reply.answer.check E.problem.vars) (s.answered v reply) := by
  have h : E.relaxation.solve (s.taken v.key v.rest v.node).relaxation v.region = .ok reply := h
  simp only [relax, EStateM.run_bind, EStateM.run_get, h, ofRead_ok, EStateM.run_pure, emit,
    EStateM.run_modify]
  rfl

/-- A node whose relaxation is answered. -/
theorem explore_run {v : Visit F} {s : State F σ β κ} {reply : Reply F σ}
    (h : E.relaxation.solve s.relaxation v.region = .ok reply) :
    (explore E v.key.id v.region).run (s.taken v.key v.rest v.node) =
      (share E v.key.id v.region (reply.answer.check E.problem.vars) >>= fun _ =>
        dispatch E v.key.id (reply.answer.check E.problem.vars)).run (s.answered v reply) := by
  rw [explore, EStateM.run_bind, relax_run h]
  simp only [share, bind_assoc]

/-- Closing a failed node: the failure is counted, and then it may be one too many. -/
theorem writeOff_run (E : Engine F σ β κ) (s : State F σ β κ) (id : NodeId) (cause : Cause F) :
    (∃ e s', (writeOff E id cause).run s = .error e s' ∧ SearchError.isAborted e = false) ∨
    ∃ s', s'.statistics.solverErrors = s.statistics.solverErrors + 1 ∧
      s'.statistics.processed = s.statistics.processed ∧ s'.tracker = s.tracker ∧
      s'.frontier = s.frontier ∧
      (writeOff E id cause).run s =
        if E.settings.maxSolverErrors.any (· < s'.statistics.solverErrors) then
          .error (.aborted s'.statistics.solverErrors s'.statistics.processed s'.tracker.best) s'
        else .ok () s' := by
  have hrun : (writeOff E id cause).run s = (close E id (.pruned .solverError) >>= fun _ => do
      let s ← get
      if E.settings.maxSolverErrors.any (· < s.statistics.solverErrors) then
        throw (.aborted s.statistics.solverErrors s.statistics.processed s.tracker.best)).run
      (s.concluded (.pruned .solverError) [.failed id cause]) := rfl
  rw [hrun, EStateM.run_bind]
  rcases close_run E (s.concluded (.pruned .solverError) [.failed id cause]) id
      (.pruned .solverError) rfl with ⟨-, hclose⟩ | ⟨node, tree, released, -, -, hclose⟩
  · rw [hclose]
    exact .inl ⟨_, _, rfl, rfl⟩
  · rw [hclose]
    refine .inr ⟨(s.concluded (.pruned .solverError) [.failed id cause]).closed E node
      (.pruned .solverError) tree, rfl, rfl, rfl, rfl, ?_⟩
    simp only [EStateM.run_bind, EStateM.run_get]
    split <;> rfl

/-- A step from `s` gives the search up in the state `s'`: the relaxation failed, this was counted,
    and it was one failure too many. -/
structure Engine.GivesUp (E : Engine F σ β κ) (s : State F σ β κ) (e : SearchError F)
    (s' : State F σ β κ) : Prop where
  fails : E.failsAt s = true
  counted : s'.statistics.solverErrors = s.statistics.solverErrors + 1
  exceeded : E.settings.maxSolverErrors.any (· < s'.statistics.solverErrors) = true
  error_eq : e =
    .aborted s'.statistics.solverErrors s'.statistics.processed s'.tracker.best
  /-- The incumbent is the one after all callbacks have seen the failed node. -/
  shared : ∃ t, E.Shared s t ∧ s'.tracker = t.tracker ∧ s'.frontier = t.frontier ∧
    s'.statistics.processed = t.statistics.processed

/-- What a step does about failures: it counts that of its node, if there is one; and it goes on
    after that only if this was not one too many. -/
def Engine.Tallies (E : Engine F σ β κ) (s : State F σ β κ) :
    EStateM.Result (SearchError F) (State F σ β κ) α → Prop
  | .ok _ s' => s'.statistics.solverErrors =
        s.statistics.solverErrors + (if E.failsAt s then 1 else 0) ∧
      (E.failsAt s = true →
        E.settings.maxSolverErrors.any (· < s'.statistics.solverErrors) = false)
  | .error e s' => SearchError.isAborted e = true → E.GivesUp s e s'

/-- Nothing is said of other errors. -/
theorem Engine.tallies_error {s s' : State F σ β κ} {e : SearchError F}
    (h : SearchError.isAborted e = false) :
    E.Tallies s (.error e s' : EStateM.Result _ _ α) := by
  intro haborted
  cases h.symm.trans haborted

/-- Where nothing fails it is enough that nothing is counted. -/
theorem Uncounted.tallies {s : State F σ β κ}
    {result : EStateM.Result (SearchError F) (State F σ β κ) α} (h : Uncounted s result)
    (hfails : E.failsAt s = false) : E.Tallies s result := by
  rcases result with ⟨a, s'⟩ | ⟨e, s'⟩
  · refine ⟨?_, fun hfailed => ?_⟩
    · rw [hfails]
      exact h
    · cases hfails.symm.trans hfailed
  · exact Engine.tallies_error h

theorem Engine.failsAt_eq {s : State F σ β κ} {v : Visit F} {reply : Reply F σ}
    (hvisit : E.visit? s = some v) (hsolve : E.relaxation.solve s.relaxation v.region = .ok reply) :
    E.failsAt s = reply.answer.isFailure E.problem.vars := by
  rw [failsAt, hvisit, Option.any_some, hsolve]

/-- A failed node is counted, after the callbacks have seen it. -/
theorem step_failed {s : State F σ β κ} {v : Visit F} {reply : Reply F σ}
    (hvisit : E.visit? s = some v) (hsolve : E.relaxation.solve s.relaxation v.region = .ok reply)
    (hfails : E.failsAt s = true) : E.Tallies s ((step E).run s) := by
  obtain ⟨cause, hcheck⟩ :=
    Answer.isFailure_iff.1 ((Engine.failsAt_eq hvisit hsolve).symm.trans hfails)
  have hsteady : Steady (share E v.key.id v.region (reply.answer.check E.problem.vars)) :=
    share_steady _ _
  have hshared := hsteady (s.answered v reply)
  rw [step_visited hvisit, EStateM.run_bind, explore_run hsolve, EStateM.run_bind]
  rcases hshare : (share E v.key.id v.region (reply.answer.check E.problem.vars)).run
      (s.answered v reply) with ⟨_, t⟩ | ⟨e, t⟩ <;> rw [hshare] at hshared
  swap
  · exact Engine.tallies_error hshared
  rw [hcheck]
  have hcount : t.statistics.solverErrors = s.statistics.solverErrors := hshared
  rcases writeOff_run E t v.key.id cause with ⟨e, s', hrun, he⟩ |
    ⟨s', hcounted, hprocessed, htracker, hfrontier, hrun⟩
  · simp only [dispatch, hrun]
    exact Engine.tallies_error he
  rw [hcount] at hcounted
  rcases hexceeded : E.settings.maxSolverErrors.any (· < s'.statistics.solverErrors) with _ | _ <;>
    rw [hexceeded] at hrun
  · have hreport := report_steady (E := E) s'
    simp only [dispatch, hrun, Bool.false_eq_true, if_false, EStateM.run_bind]
    rcases hrun' : (report E).run s' with ⟨_, s''⟩ | ⟨e, s''⟩ <;> rw [hrun'] at hreport
    · have hsame : s''.statistics.solverErrors = s'.statistics.solverErrors := hreport
      refine ⟨?_, fun _ => ?_⟩
      · rw [hsame, hcounted, hfails, if_pos rfl]
      · rw [hsame, hexceeded]
    · exact Engine.tallies_error hreport
  · simp only [dispatch, hrun, if_true]
    intro _
    exact ⟨hfails, hcounted, hexceeded, rfl, t, ⟨v, reply, hvisit, hsolve, hshare⟩, htracker,
      hfrontier, hprocessed⟩

/-- A step counts the failure of its node, and gives up if it is one too many. -/
theorem step_failures (E : Engine F σ β κ) (s : State F σ β κ) :
    E.Tallies s ((step E).run s) := by
  rcases hvisit : E.visit? s with _ | v
  · exact (step_unvisited hvisit).tallies (by rw [Engine.failsAt, hvisit]; rfl)
  rcases hsolve : E.relaxation.solve s.relaxation v.region with fault | reply
  · have hrelax : (relax E v.key.id v.region).run (s.taken v.key v.rest v.node) =
        .error (.fault fault) (s.taken v.key v.rest v.node) := by
      have hsolve : E.relaxation.solve (s.taken v.key v.rest v.node).relaxation v.region =
        .error fault := hsolve
      simp only [relax, EStateM.run_bind, EStateM.run_get, hsolve, ofRead_error, throw_run]
    rw [step_visited hvisit, EStateM.run_bind, explore, EStateM.run_bind, hrelax]
    exact Engine.tallies_error rfl
  rcases hfails : E.failsAt s with _ | _
  swap
  · exact step_failed hvisit hsolve hfails
  have hanswer : ∀ cause, reply.answer.check E.problem.vars ≠ .failed cause := by
    intro cause hcause
    have hfailed :=
      (Engine.failsAt_eq hvisit hsolve).trans (Answer.isFailure_iff.2 ⟨cause, hcause⟩)
    cases hfails.symm.trans hfailed
  refine Uncounted.tallies ?_ hfails
  rw [step_visited hvisit, EStateM.run_bind, explore_run hsolve, ← EStateM.run_bind]
  exact ((share_steady _ _).bind fun _ => dispatch_steady hanswer).bind
    (fun _ => report_steady.bind fun _ => .returns none) (s.answered v reply)

/-! ## A run -/

/-- A run from `s` gives the search up in the state `s'`, in one of its steps. -/
structure Engine.Abandons (E : Engine F σ β κ) (steps : Nat) (s : State F σ β κ)
    (e : SearchError F) (s' : State F σ β κ) : Prop where
  counted : s'.statistics.solverErrors = s.statistics.solverErrors + E.failures steps s
  last : ∃ n t, n < steps ∧ (run E n).run s = .ok none t ∧ E.GivesUp t e s' ∧
    E.settings.maxSolverErrors.any (· < t.statistics.solverErrors) = false

/-- A run counts the failures of its nodes, and ends before there are too many or because of
    that. -/
theorem run_failures (E : Engine F σ β κ) (steps : Nat) {s : State F σ β κ}
    (hgo : E.settings.maxSolverErrors.any (· < s.statistics.solverErrors) = false) :
    match (run E steps).run s with
    | .ok _ s' => s'.statistics.solverErrors = s.statistics.solverErrors + E.failures steps s ∧
        E.settings.maxSolverErrors.any (· < s'.statistics.solverErrors) = false
    | .error e s' => SearchError.isAborted e = true → E.Abandons steps s e s' := by
  induction steps generalizing s with
  | zero => exact ⟨rfl, hgo⟩
  | succ steps ih =>
    have hstep := step_failures E s
    rw [run, EStateM.run_bind, Engine.failures]
    rcases hrun : (step E).run s with ⟨o, s₁⟩ | ⟨e, s₁⟩ <;> rw [hrun] at hstep
    · obtain ⟨hcounted, hmore⟩ := hstep
      have hgo₁ : E.settings.maxSolverErrors.any (· < s₁.statistics.solverErrors) = false := by
        rcases hfails : E.failsAt s with _ | _
        · rw [hcounted, hfails]
          exact hgo
        · exact hmore hfails
      rcases o with _ | status
      · have hrest := ih hgo₁
        simp only
        rcases hrun' : (run E steps).run s₁ with ⟨o, s'⟩ | ⟨e, s'⟩ <;> rw [hrun'] at hrest
        · obtain ⟨hcounted', hgo'⟩ := hrest
          exact ⟨by rw [hcounted', hcounted, Nat.add_assoc], hgo'⟩
        · intro haborted
          obtain ⟨hcounted', n, t, hn, hbefore, hlast⟩ := hrest haborted
          refine ⟨?_, n + 1, t, by omega, ?_, hlast⟩
          · rw [hcounted', hcounted, Nat.add_assoc, Engine.failures, hrun]
          rw [run, EStateM.run_bind, hrun]
          exact hbefore
      · exact ⟨hcounted, hgo₁⟩
    · intro haborted
      have hgives := hstep haborted
      refine ⟨?_, 0, s, Nat.succ_pos _, rfl, hgives, hgo⟩
      simp only [hgives.counted, Engine.failures, hgives.fails, if_true, hrun, Nat.add_zero]

/-- Up to the decision about a node a step is a sequence of moves, and takes one node. -/
theorem Engine.Shared.moves {s t : State F σ β κ} (h : E.Shared s t) :
    (∃ stage, Moves E (.idle s) ⟨stage, [], t⟩) ∧
      t.statistics.processed = s.statistics.processed + 1 := by
  obtain ⟨v, reply, hvisit, hsolve, hshare⟩ := h
  obtain ⟨-, hpop, hnode, hbound, hr, hdomain⟩ := Engine.visit?_eq_some hvisit
  have hruns : Runs E (share E v.key.id v.region (reply.answer.check E.problem.vars))
      ⟨.relaxed v.key.id v.region (reply.answer.check E.problem.vars), [], s.answered v reply⟩
      (At (.consulting v.key.id v.region (reply.answer.check E.problem.vars) [])) := by
    refine runs_recordAnswer.bind fun _ c hc => ?_
    obtain ⟨stage', doomed', s'⟩ := c
    obtain ⟨rfl, rfl⟩ := hc
    exact runs_callbacks E.callbacks s'
  have hfirst : Moves E (.idle s) ⟨.relaxed v.key.id v.region (reply.answer.check E.problem.vars),
      [], s.answered v reply⟩ :=
    .head (.take hpop hnode)
      (.single (.relax (s := s.taken v.key v.rest v.node) hnode hbound hr hdomain hsolve))
  unfold Runs at hruns
  simp only [hshare] at hruns
  obtain ⟨⟨stage, doomed, s'⟩, hmoves, rfl, hprocessed, -, rfl⟩ := hruns
  exact ⟨⟨stage, hfirst.trans hmoves⟩, hprocessed⟩

/-- A search fails exactly if one of its steps does. -/
theorem solve_eq_error {steps : Nat} {s s' : State F σ β κ} {e : SearchError F} :
    (solve E steps).run s = .error e s' ↔ (run E steps).run (s.announced E) = .error e s' := by
  refine ⟨fun h => ?_, solve_failed⟩
  rcases hrun : (run E steps).run (s.announced E) with ⟨_ | status, t⟩ | ⟨e', t⟩
  · cases (solve_unfinished hrun).symm.trans h
  · obtain ⟨solution, u, hsolve, -⟩ := solve_ended hrun
    cases hsolve.symm.trans h
  · cases (solve_failed hrun).symm.trans h
    rfl

/-- A search that does not fail ends with the counters of its run. -/
theorem solverErrors_of_solve {steps : Nat} {s s' : State F σ β κ} {outcome : Option (Solution F)}
    (h : (solve E steps).run s = .ok outcome s') : ∃ o t,
      (run E steps).run (s.announced E) = .ok o t ∧
      s'.statistics.solverErrors = t.statistics.solverErrors ∧
      ∀ solution, outcome = some solution →
        solution.statistics.solverErrors = t.statistics.solverErrors := by
  rcases outcome with _ | solution
  · exact ⟨none, s', solve_eq_none.1 h, rfl, fun _ h => nomatch h⟩
  · obtain ⟨status, t, hrun, hsummary⟩ := solve_eq_some h
    refine ⟨some status, t, hrun, ?_, fun solution' heq => ?_⟩
    · rw [hsummary.final_eq]
      rfl
    · obtain rfl := Option.some.inj heq
      rw [hsummary.statistics_eq]
      rfl

/-- A search with a built-in strategy ends with an error only if it gives up, or if something that
    it was given from outside does not return. -/
theorem isAborted_of_solve [Scalar.Ordered F] (hstrategy : E.strategy.BuiltIn) {start : σ}
    {strategy : β} {callbacks : κ} {steps : Nat} {e : SearchError F} {s : State F σ β κ}
    (h : (solve E steps).run (State.initial E start strategy callbacks) = .error e s)
    (hfault : ∀ fault, e ≠ .fault fault) : SearchError.isAborted e = true := by
  have hcases := solve_cases E steps (State.initial E start strategy callbacks)
  rw [h] at hcases
  obtain ⟨c, -, hfails, -⟩ := hcases
  cases e with
  | misconfigured | invalidProgram => cases hfails
  | aborted => rfl
  | internal defect => exact absurd h ((solve_coupled E (.inl hstrategy) start strategy callbacks
      steps).2 defect s)
  | fault fault => exact absurd rfl (hfault fault)

/-- What a search that gives up says, and when it does. -/
structure Engine.Surrenders (E : Engine F σ β κ) (s₀ : State F σ β κ) (steps k : Nat)
    (e : SearchError F) (s : State F σ β κ) : Prop where
  threshold : E.settings.maxSolverErrors = some k
  failures : E.failures steps s₀ = k + 1
  /-- It counts the failures and the nodes taken from the frontier, and keeps the incumbent. -/
  error_eq : e = .aborted (k + 1) s.frontier.popped s.tracker.best
  /-- The last step processes the failed node that is one too many, and the incumbent is the one
      after all callbacks have seen that node. -/
  last : ∃ n t t', n < steps ∧ s.frontier.popped = n + 1 ∧ (run E n).run s₀ = .ok none t ∧
    E.failures n s₀ = k ∧ E.failsAt t = true ∧ E.Shared t t' ∧ s.tracker = t'.tracker

theorem Engine.Abandons.surrenders {start : σ} {strategy : β} {callbacks : κ} {steps : Nat}
    {e : SearchError F} {s : State F σ β κ}
    (h : E.Abandons steps ((State.initial E start strategy callbacks).announced E) e s) :
    ∃ k, E.Surrenders ((State.initial E start strategy callbacks).announced E) steps k e s := by
  obtain ⟨hcounted, n, t, hn, hbefore, hgives, hgo⟩ := h
  obtain ⟨t', hshared, htracker, hfrontier, hprocessed⟩ := hgives.shared
  rcases hmax : E.settings.maxSolverErrors with _ | k
  · cases hmax ▸ hgives.exceeded
  have hexceeded := hgives.exceeded
  rw [hmax, Option.any_some, decide_eq_true_eq] at hexceeded
  rw [hmax, Option.any_some, decide_eq_false_iff_not] at hgo
  have hlast := hgives.counted
  have herrors : s.statistics.solverErrors = k + 1 := by omega
  have hzero : ((State.initial E start strategy callbacks).announced E).statistics.solverErrors =
    0 := rfl
  have hearlier := run_failures E n (s := (State.initial E start strategy callbacks).announced E)
    (by rw [hmax]; rfl)
  rw [hbefore] at hearlier
  -- the nodes taken are counted by the frontier too
  obtain ⟨⟨stage, hmoves⟩, htaken⟩ := hshared.moves
  have hpopped := (Moves.accounted
    (((moves_announced E _).trans (moves_of_run hbefore)).trans hmoves)
    (Config.accounted_initial E start strategy callbacks)).popped_eq
  have hpopped : s.frontier.popped = s.statistics.processed := by
    rw [hfrontier, hprocessed]
    exact hpopped
  have hsteps : t.statistics.processed = 0 + n := processed_of_run hbefore
  refine ⟨k, hmax, ?_, ?_, n, t, t', hn, ?_, hbefore, ?_, hgives.fails, hshared, htracker⟩
  · omega
  · rw [hgives.error_eq, herrors, hpopped]
  · omega
  · have := hearlier.1
    omega

/-- **Too many failures.**  Of a search with a built-in strategy that returns: with a threshold it
    returns an error exactly if it processes more failed nodes than that; the error then has the
    number of failures, the number of nodes taken from the frontier, and the incumbent that there is
    after all callbacks have seen the last of the failed nodes.  Without a threshold there is no
    error.  A result that is no error has the number of failed nodes. -/
theorem solve_aborts [Scalar.Ordered F] (hstrategy : E.strategy.BuiltIn) (start : σ) (strategy : β)
    (callbacks : κ) (steps : Nat)
    (hreturns : ∀ fault s, (solve E steps).run (State.initial E start strategy callbacks) ≠
      .error (.fault fault) s) :
    let s₀ := State.initial E start strategy callbacks
    (∀ k, E.settings.maxSolverErrors = some k →
      ((∃ e s, (solve E steps).run s₀ = .error e s) ↔ k < E.failures steps (s₀.announced E))) ∧
    (∀ e s, (solve E steps).run s₀ = .error e s →
      ∃ k, E.Surrenders (s₀.announced E) steps k e s) ∧
    (E.settings.maxSolverErrors = none → ∃ outcome s, (solve E steps).run s₀ = .ok outcome s) ∧
    ∀ outcome s, (solve E steps).run s₀ = .ok outcome s →
      s.statistics.solverErrors = E.failures steps (s₀.announced E) ∧
      ∀ solution, outcome = some solution →
        solution.statistics.solverErrors = E.failures steps (s₀.announced E) := by
  intro s₀
  have hgo : E.settings.maxSolverErrors.any (· < (s₀.announced E).statistics.solverErrors) =
      false := by
    show E.settings.maxSolverErrors.any (· < 0) = false
    cases E.settings.maxSolverErrors <;> rfl
  have hrun := run_failures E steps hgo
  have herror : ∀ e s, (solve E steps).run s₀ = .error e s →
      ∃ k, E.Surrenders (s₀.announced E) steps k e s := by
    intro e s hsolve
    have haborted := isAborted_of_solve hstrategy hsolve
      fun fault hfault => hreturns fault s (hfault ▸ hsolve)
    rw [solve_eq_error] at hsolve
    rw [hsolve] at hrun
    exact (hrun haborted).surrenders
  have hok : ∀ outcome s, (solve E steps).run s₀ = .ok outcome s →
      (s.statistics.solverErrors = E.failures steps (s₀.announced E) ∧
      ∀ solution, outcome = some solution →
        solution.statistics.solverErrors = E.failures steps (s₀.announced E)) ∧
      ∀ k, E.settings.maxSolverErrors = some k → E.failures steps (s₀.announced E) ≤ k := by
    intro outcome s hsolve
    obtain ⟨o, t, hends, hs, hsolution⟩ := solverErrors_of_solve hsolve
    rw [hends] at hrun
    obtain ⟨hcounted, hgo'⟩ := hrun
    have hcounted : t.statistics.solverErrors = E.failures steps (s₀.announced E) :=
      hcounted.trans (Nat.zero_add _)
    rw [hcounted] at hs hsolution hgo'
    refine ⟨⟨hs, hsolution⟩, fun k hk => ?_⟩
    rw [hk, Option.any_some, decide_eq_false_iff_not] at hgo'
    exact Nat.not_lt.1 hgo'
  refine ⟨fun k hk => ⟨?_, fun hlt => ?_⟩, herror, fun hnone => ?_,
    fun outcome s h => (hok outcome s h).1⟩
  · rintro ⟨e, s, hsolve⟩
    obtain ⟨k', hsurrenders⟩ := herror e s hsolve
    obtain rfl : k' = k := Option.some.inj (hsurrenders.threshold.symm.trans hk)
    exact hsurrenders.failures ▸ Nat.lt_succ_self k'
  · rcases hsolve : (solve E steps).run s₀ with ⟨outcome, s⟩ | ⟨e, s⟩
    · exact absurd hlt (Nat.not_lt.2 ((hok outcome s hsolve).2 k hk))
    · exact ⟨e, s, rfl⟩
  · rcases hsolve : (solve E steps).run s₀ with ⟨outcome, s⟩ | ⟨e, s⟩
    · exact ⟨outcome, s, rfl⟩
    · obtain ⟨k, hsurrenders⟩ := herror e s hsolve
      cases hnone.symm.trans hsurrenders.threshold

/-- What a search says that gives up. -/
def surrender? {ε : Type} :
    EStateM.Result (SearchError F) ε α → Option (Nat × Nat × Option (Incumbent F))
  | .error (.aborted failures processed incumbent) _ => some (failures, processed, incumbent)
  | _ => none

omit [Extended F] in
theorem surrender?_eq_some {ε : Type} {result : EStateM.Result (SearchError F) ε α} {n m : Nat}
    {incumbent : Option (Incumbent F)} (h : surrender? result = some (n, m, incumbent)) :
    ∃ s, result = .error (.aborted n m incumbent) s := by
  rcases result with ⟨a, s⟩ | ⟨e, s⟩
  · cases h
  · cases e <;> cases h
    exact ⟨s, rfl⟩

/-- The search for the cheapest choice that puts up with no failure.  On the upper child of the
    root, where the relaxation fails, a callback proposes the best choice. -/
def impatientChoice : Engine Exact Unit Unit Unit where
  problem := choiceSearch.problem
  candidates := choiceSearch.candidates
  settings := { Settings.standard with maxSolverErrors := some 0, selection := .depthFirst }
  relaxation := halfChoice
  strategy := Strategy.mostFractional
  callbacks := [Callback.scripted "hint" [⟨some 2, ⟨[.fin 1, .fin 0], .fin 1⟩⟩]]
  clock := SearchClock.stopped ⟨0⟩

/-- The proposal for the failed node is in the error. -/
theorem solve_aborts_choice : ∃ e s,
    (solve impatientChoice 3).run (State.initial impatientChoice () () ()) = .error e s ∧
    e = .aborted 1 2 (some ⟨.fin 1, [.fin 1, .fin 0], .heuristic "hint", 2, 2⟩) ∧
    ∃ k, impatientChoice.Surrenders
      ((State.initial impatientChoice () () ()).announced impatientChoice) 3 k e s := by
  have hrun : surrender?
      ((solve impatientChoice 3).run (State.initial impatientChoice () () ())) =
        some (1, 2, some ⟨.fin 1, [.fin 1, .fin 0], .heuristic "hint", 2, 2⟩) := by
    decide +kernel
  obtain ⟨s, hsolve⟩ := surrender?_eq_some hrun
  have hreturns : ∀ fault t,
      (solve impatientChoice 3).run (State.initial impatientChoice () () ()) ≠
        .error (.fault fault) t := by
    intro fault t h
    cases hsolve.symm.trans h
  obtain ⟨-, herror, -⟩ := solve_aborts .mostFractional () () () 3 hreturns
  exact ⟨_, s, hsolve, rfl, herror _ s hsolve⟩

end Search

end Milp
