/-
  Two searches in lockstep.

  Engines that differ only in their node limit, their callbacks and their clocks do the same with
  every node, as long as the callbacks leave the search alone.  So their runs can be compared step
  by step.

  * `Alike`: two states that agree, apart from what belongs to the callbacks and what is only logged.
  * `Lockstep`: from two states, two computations come to the same result, and to states that are
    alike again.
  * `Engine.vary`, `Engine.Paired`: the engines that are compared.
  * `explore_lockstep`, `step_lockstep`: a node, and a step, if the callbacks keep in step.
-/
import Milp.Proofs.Chronicle

namespace Milp.Search

variable {F σ β κ κ' α γ : Type}

/-! ## States -/

namespace State

variable (s : State F σ β κ) (callbacks : κ') (rejections : Nat) (history : List (Event F))

/-- The same state of a search with other callbacks, which had other proposals rejected and another
    history. -/
def dress : State F σ β κ' where
  tree := s.tree
  frontier := s.frontier
  tracker := s.tracker
  statistics := { s.statistics with rejections }
  incomplete := s.incomplete
  relaxation := s.relaxation
  strategy := s.strategy
  callbacks
  history

@[simp] theorem dress_tree : (s.dress callbacks rejections history).tree = s.tree := rfl

@[simp] theorem dress_tracker : (s.dress callbacks rejections history).tracker = s.tracker := rfl

@[simp] theorem dress_processed :
    (s.dress callbacks rejections history).statistics.processed = s.statistics.processed := rfl

@[simp] theorem dress_solverErrors :
    (s.dress callbacks rejections history).statistics.solverErrors = s.statistics.solverErrors := rfl

@[simp] theorem dress_dominates [Extended F] (node : Node F) (tolerance : F) :
    (s.dress callbacks rejections history).dominates node tolerance = s.dominates node tolerance :=
  rfl

end State

/-- Two states agree, apart from what belongs to the callbacks and what is only logged: they have
    the same records, and what their callbacks have, and how many proposals were rejected, is
    related. -/
inductive Alike (K : κ → Nat → κ' → Nat → Prop) (s : State F σ β κ) : State F σ β κ' → Prop where
  | dressed {callbacks rejections history}
      (hrecords : history.filterMap Event.record? = s.records)
      (hcallbacks : K s.callbacks s.statistics.rejections callbacks rejections) :
      Alike K s (s.dress callbacks rejections history)

/-- Two results agree: the same value or the same error, in states that are alike. -/
inductive Agree (K : κ → Nat → κ' → Nat → Prop) :
    EStateM.Result (SearchError F) (State F σ β κ) α →
      EStateM.Result (SearchError F) (State F σ β κ') α → Prop where
  | ok {a s s'} (h : Alike K s s') : Agree K (.ok a s) (.ok a s')
  | error {e s s'} (h : Alike K s s') : Agree K (.error e s) (.error e s')

/-- Two computations, each from a state, come to results that agree. -/
def Lockstep (K : κ → Nat → κ' → Nat → Prop) (m : SearchM F σ β κ α) (m' : SearchM F σ β κ' α)
    (s : State F σ β κ) (s' : State F σ β κ') : Prop :=
  Agree K (m.run s) (m'.run s')

namespace Lockstep

variable {K : κ → Nat → κ' → Nat → Prop} {m : SearchM F σ β κ α} {m' : SearchM F σ β κ' α}
  {f : α → SearchM F σ β κ γ} {f' : α → SearchM F σ β κ' γ} {s : State F σ β κ}
  {s' : State F σ β κ'}

theorem returns {a : α} (h : Alike K s s') :
    Lockstep K (pure a : SearchM F σ β κ α) (pure a) s s' := .ok h

theorem throws {e : SearchError F} (h : Alike K s s') :
    Lockstep K (throw e : SearchM F σ β κ α) (throw e) s s' := .error h

theorem bind (h : Lockstep K m m' s s')
    (hf : ∀ a s s', Alike K s s' → Lockstep K (f a) (f' a) s s') :
    Lockstep K (m >>= f) (m' >>= f') s s' := by
  unfold Lockstep at h ⊢
  rw [EStateM.run_bind, EStateM.run_bind]
  generalize m.run s = r at h ⊢
  generalize m'.run s' = r' at h ⊢
  cases h with
  | ok h => exact hf _ _ _ h
  | error h => exact .error h

/-- Looking at the states. -/
theorem look {f : State F σ β κ → SearchM F σ β κ γ} {f' : State F σ β κ' → SearchM F σ β κ' γ}
    (h : Lockstep K (f s) (f' s') s s') : Lockstep K (get >>= f) (get >>= f') s s' := h

/-- Changing the states, and going on. -/
theorem change {g : State F σ β κ → State F σ β κ} {g' : State F σ β κ' → State F σ β κ'}
    {k : SearchM F σ β κ γ} {k' : SearchM F σ β κ' γ}
    (h : Lockstep K k k' (g s) (g' s')) :
    Lockstep K (modify g >>= fun _ => k) (modify g' >>= fun _ => k') s s' := h

theorem ite {p : Prop} [Decidable p] {m₁ m₂ : SearchM F σ β κ α} {m₁' m₂' : SearchM F σ β κ' α}
    (h₁ : p → Lockstep K m₁ m₁' s s') (h₂ : ¬ p → Lockstep K m₂ m₂' s s') :
    Lockstep K (if p then m₁ else m₂) (if p then m₁' else m₂') s s' := by
  by_cases hp : p
  · simpa only [if_pos hp] using h₁ hp
  · simpa only [if_neg hp] using h₂ hp

theorem ensure {ε : Type} {wrap : ε → SearchError F} {x : Except ε α} (h : Alike K s s') :
    Lockstep K (ensure wrap x : SearchM F σ β κ α) (ensure wrap x) s s' := by
  cases x with
  | ok a => exact .ok h
  | error e => exact .error h

/-- What is only logged may differ. -/
theorem emit {event event' : Event F} (h : Alike K s s') (hrecord : event'.record? = event.record?) :
    Lockstep K (emit event) (emit event') s s' := by
  obtain ⟨hrecords, hcallbacks⟩ := h
  refine .ok (.dressed ?_ hcallbacks)
  show List.filterMap Event.record? (event' :: _) = List.filterMap Event.record? (event :: s.history)
  rw [List.filterMap_cons, List.filterMap_cons, hrecord]
  cases event.record? with
  | none => exact hrecords
  | some record => exact congrArg (record :: ·) hrecords

/-- Counting something else than rejections. -/
theorem tally {f : Statistics F → Statistics F} (h : Alike K s s')
    (hkeep : ∀ t rejections, f { t with rejections } = { f t with rejections }) :
    Lockstep K (tally f) (tally f) s s' := by
  obtain @⟨callbacks, rejections, history, hrecords, hcallbacks⟩ := h
  show Agree K (.ok () { s with statistics := f s.statistics })
    (.ok () { s.dress callbacks rejections history with
      statistics := f { s.statistics with rejections } })
  rw [hkeep s.statistics rejections]
  refine .ok (.dressed hrecords ?_)
  show K s.callbacks (f s.statistics).rejections callbacks rejections
  have hsame : (f s.statistics).rejections = s.statistics.rejections :=
    (congrArg Statistics.rejections (hkeep s.statistics s.statistics.rejections) :)
  rw [hsame]
  exact hcallbacks

theorem forM {ι : Type} {f : ι → SearchM F σ β κ Unit} {f' : ι → SearchM F σ β κ' Unit}
    (hf : ∀ i s s', Alike K s s' → Lockstep K (f i) (f' i) s s') (is : List ι) (h : Alike K s s') :
    Lockstep K (is.forM f) (is.forM f') s s' := by
  induction is generalizing s s' with
  | nil => exact .ok h
  | cons i is ih => exact (hf i s s' h).bind fun _ _ _ h => ih h

end Lockstep

/-! ## Engines -/

variable [Extended F]

/-- The same engine with another node limit, other callbacks and another clock. -/
def Engine.vary {F : Type} (E : Engine F σ β κ) (nodeLimit : Option Nat) (callbacks : Callbacks F κ')
    (clock : SearchClock) : Engine F σ β κ' where
  problem := E.problem
  candidates := E.candidates
  settings := { E.settings with nodeLimit }
  relaxation := E.relaxation
  strategy := E.strategy
  callbacks
  clock

section Vary

variable {F : Type} (E : Engine F σ β κ) (nodeLimit : Option Nat) (callbacks : Callbacks F κ')
  (clock : SearchClock)

@[simp] theorem vary_sense : (E.vary nodeLimit callbacks clock).sense = E.sense := rfl

@[simp] theorem vary_candidates : (E.vary nodeLimit callbacks clock).candidates = E.candidates := rfl

@[simp] theorem vary_strategy : (E.vary nodeLimit callbacks clock).strategy = E.strategy := rfl

@[simp] theorem vary_tolerance :
    (E.vary nodeLimit callbacks clock).settings.tolerance = E.settings.tolerance := rfl

@[simp] theorem vary_integrality :
    (E.vary nodeLimit callbacks clock).settings.integrality = E.settings.integrality := rfl

@[simp] theorem vary_maxSolverErrors :
    (E.vary nodeLimit callbacks clock).settings.maxSolverErrors = E.settings.maxSolverErrors := rfl

@[simp] theorem vary_logEvery :
    (E.vary nodeLimit callbacks clock).settings.logEvery = E.settings.logEvery := rfl

end Vary

/-- An engine and one that differs from it in node limit, callbacks and clock, where telling the
    callbacks of a record keeps what they have related. -/
structure Engine.Paired (K : κ → Nat → κ' → Nat → Prop) (E : Engine F σ β κ)
    (E' : Engine F σ β κ') : Prop where
  varied : ∃ nodeLimit callbacks clock, E' = E.vary nodeLimit callbacks clock
  notify : ∀ record k r k' r', K k r k' r' →
    K (E.callbacks.notify record k) r (E'.callbacks.notify record k') r'

variable {K : κ → Nat → κ' → Nat → Prop} {E : Engine F σ β κ} {E' : Engine F σ β κ'}
  {s : State F σ β κ} {s' : State F σ β κ'} {id : NodeId}

/-! ## Closing nodes, and new incumbents -/

theorem close_lockstep (hpair : E.Paired K E') {status : NodeStatus}
    (hstatus : status.isClosed = true) (h : Alike K s s') :
    Lockstep K (close E id status) (close E' id status) s s' := by
  unfold Lockstep
  obtain ⟨hrecords, hcallbacks⟩ := h
  rcases close_run E s id status hstatus with
    ⟨hnone, hrun⟩ | ⟨node, tree, released, hnode, hclose, hrun⟩
  · rcases close_run E' (s.dress _ _ _) id status hstatus with
      ⟨-, hrun'⟩ | ⟨node', tree', released', hnode', -⟩
    · rw [hrun, hrun']
      exact .error (.dressed hrecords hcallbacks)
    · cases hnone.symm.trans hnode'
  · rcases close_run E' (s.dress _ _ _) id status hstatus with
      ⟨hnone', -⟩ | ⟨node', tree', released', hnode', hclose', hrun'⟩
    · cases hnone'.symm.trans hnode
    · obtain rfl : node' = node := Option.some.inj (hnode'.symm.trans hnode)
      obtain ⟨rfl, -⟩ := Prod.mk.inj (Except.ok.inj (hclose'.symm.trans hclose))
      rw [hrun, hrun']
      have hnotify := hpair.notify (E.record node' status) _ _ _ _ hcallbacks
      obtain ⟨nodeLimit, callbacks, clock, rfl⟩ := hpair.varied
      exact .ok (.dressed (congrArg (E.record node' status :: ·) hrecords) hnotify)

/-- Closing a node for a reason that is logged and counted. -/
theorem conclude_lockstep (hpair : E.Paired K E') {event : Event F}
    {count : Statistics F → Statistics F} {status : NodeStatus}
    (hcount : ∀ t rejections, count { t with rejections } = { count t with rejections })
    (hstatus : status.isClosed = true) (h : Alike K s s') :
    Lockstep K (do emit event; tally count; close E id status)
      (do emit event; tally count; close E' id status) s s' := by
  refine .bind (.emit h rfl) fun _ _ _ h => .bind (.tally h hcount) fun _ _ _ h => ?_
  exact close_lockstep hpair hstatus h

theorem pruneFrontier_lockstep (hpair : E.Paired K E') (h : Alike K s s') :
    Lockstep K (pruneFrontier E) (pruneFrontier E') s s' := by
  obtain ⟨nodeLimit, callbacks, clock, rfl⟩ := hpair.varied
  obtain ⟨hrecords, hcallbacks⟩ := h
  refine .look (.change (.bind (.tally (.dressed hrecords hcallbacks) fun _ _ => rfl)
    fun _ _ _ h => ?_))
  refine .bind (.forM (fun key _ _ h => ?_) _ h) fun _ _ _ h => .returns h
  exact close_lockstep hpair rfl h

theorem install_lockstep (hpair : E.Paired K E') {candidate : Incumbent F} (h : Alike K s s') :
    Lockstep K (install E candidate) (install E' candidate) s s' := by
  obtain ⟨nodeLimit, callbacks, clock, rfl⟩ := hpair.varied
  obtain ⟨hrecords, hcallbacks⟩ := h
  refine .look ?_
  simp only [State.dress_tracker, vary_tolerance]
  rcases s.tracker.update? candidate E.settings.tolerance with _ | tracker
  · exact .returns (.dressed hrecords hcallbacks)
  · refine .change (.bind (.tally (.dressed hrecords hcallbacks) fun _ _ => rfl) fun _ _ _ h => ?_)
    refine .bind (pruneFrontier_lockstep hpair h) fun pruned _ _ h => ?_
    exact .bind (.emit h rfl) fun _ _ _ h => .returns h

theorem accept_lockstep (hpair : E.Paired K E') {x : List F} {objective : F} (h : Alike K s s') :
    Lockstep K (accept E id x objective) (accept E' id x objective) s s' := by
  obtain ⟨hrecords, hcallbacks⟩ := h
  refine .look (.bind (install_lockstep hpair (.dressed hrecords hcallbacks))
    fun installed _ _ h => ?_)
  cases installed with
  | true => exact close_lockstep hpair rfl h
  | false => exact .bind (.tally h fun _ _ => rfl) fun _ _ _ h => close_lockstep hpair rfl h

/-! ## Decisions -/

theorem select_lockstep (hpair : E.Paired K E') {x : List F} {fractional : Nat} (h : Alike K s s') :
    Lockstep K (select E id x fractional) (select E' id x fractional) s s' := by
  obtain ⟨nodeLimit, callbacks, clock, rfl⟩ := hpair.varied
  obtain ⟨hrecords, hcallbacks⟩ := h
  refine .look ?_
  refine .bind (.ensure (.dressed hrecords hcallbacks)) fun r _ _ h => ?_
  refine .bind (.ensure h) fun box _ _ h => ?_
  refine .bind (.ensure h) fun choice _ _ h => ?_
  obtain ⟨decision, strategy⟩ := choice
  obtain ⟨hrecords, hcallbacks⟩ := h
  refine .change ?_
  simp only [vary_strategy, vary_candidates]
  cases decision with
  | none => exact .throws (.dressed hrecords hcallbacks)
  | some d =>
    exact .ite (fun _ => .returns (.dressed hrecords hcallbacks)) fun _ =>
      .throws (.dressed hrecords hcallbacks)

theorem spawn_lockstep {change : BoundChange F} (h : Alike K s s') :
    Lockstep K (spawn id change) (spawn id change) s s' := by
  obtain ⟨hrecords, hcallbacks⟩ := h
  refine .look (.bind (.ensure (.dressed hrecords hcallbacks)) fun created _ _ h => ?_)
  obtain ⟨tree, child⟩ := created
  obtain ⟨hrecords, hcallbacks⟩ := h
  refine .change (.bind (.ensure (.dressed hrecords hcallbacks)) fun node _ _ h => ?_)
  obtain ⟨hrecords, hcallbacks⟩ := h
  exact .change (.tally (.dressed hrecords hcallbacks) fun _ _ => rfl)

theorem branch_lockstep (hpair : E.Paired K E') {x : List F} {fractional : Nat} (h : Alike K s s') :
    Lockstep K (branch E id x fractional) (branch E' id x fractional) s s' := by
  refine .bind (select_lockstep hpair h) fun d _ _ h => ?_
  refine .bind (.forM (fun change _ _ h => spawn_lockstep h) _ h) fun _ _ _ h => ?_
  cases d.children.isEmpty with
  | true => exact conclude_lockstep hpair (fun _ _ => by rfl) rfl h
  | false => exact conclude_lockstep hpair (fun _ _ => by rfl) rfl h

theorem settle_lockstep (hpair : E.Paired K E') (h : Alike K s s') :
    Lockstep K (settle E id) (settle E' id) s s' := by
  obtain ⟨nodeLimit, callbacks, clock, rfl⟩ := hpair.varied
  obtain ⟨hrecords, hcallbacks⟩ := h
  refine .look (.bind (.ensure (.dressed hrecords hcallbacks)) fun node _ _ h => ?_)
  simp only [State.dress_dominates, vary_tolerance, vary_integrality, vary_candidates]
  refine .ite (fun _ => ?_) fun _ => ?_
  · exact conclude_lockstep hpair (fun _ _ => by rfl) rfl h
  · rcases node.answer with _ | ⟨x, objective⟩ | _ | _ | _
    · exact .throws h
    · refine .bind (.ensure h) fun split _ _ h => ?_
      exact .ite (fun _ => accept_lockstep hpair h) fun _ => branch_lockstep hpair h
    all_goals exact .throws h

theorem writeOff_lockstep (hpair : E.Paired K E') {cause : Cause F} (h : Alike K s s') :
    Lockstep K (writeOff E id cause) (writeOff E' id cause) s s' := by
  refine .bind (.tally h fun _ _ => rfl) fun _ _ _ h => ?_
  obtain ⟨hrecords, hcallbacks⟩ := h
  refine .change (.bind (.emit (.dressed hrecords hcallbacks) rfl) fun _ _ _ h => ?_)
  refine .bind (close_lockstep hpair rfl h) fun _ _ _ h => ?_
  obtain ⟨nodeLimit, callbacks, clock, rfl⟩ := hpair.varied
  obtain ⟨hrecords, hcallbacks⟩ := h
  refine .look ?_
  simp only [vary_maxSolverErrors, State.dress_solverErrors, State.dress_processed,
    State.dress_tracker]
  exact .ite (fun _ => .throws (.dressed hrecords hcallbacks)) fun _ =>
    .returns (.dressed hrecords hcallbacks)

theorem dispatch_lockstep (hpair : E.Paired K E') {answer : Answer F} (h : Alike K s s') :
    Lockstep K (dispatch E id answer) (dispatch E' id answer) s s' := by
  cases answer with
  | optimal x objective => exact settle_lockstep hpair h
  | infeasible => exact conclude_lockstep hpair (fun _ _ => by rfl) rfl h
  | unbounded =>
    refine .bind (.emit h rfl) fun _ _ _ h => .bind (.tally h fun _ _ => rfl) fun _ _ _ h => ?_
    obtain ⟨hrecords, hcallbacks⟩ := h
    exact .change (close_lockstep hpair rfl (.dressed hrecords hcallbacks))
  | failed cause => exact writeOff_lockstep hpair h

/-! ## Nodes -/

theorem relax_lockstep (hpair : E.Paired K E') {r : Restrictions F} (h : Alike K s s') :
    Lockstep K (relax E id r) (relax E' id r) s s' := by
  obtain ⟨nodeLimit, callbacks, clock, rfl⟩ := hpair.varied
  obtain ⟨hrecords, hcallbacks⟩ := h
  refine .look (.bind (.ensure (.dressed hrecords hcallbacks)) fun reply _ _ h => ?_)
  obtain ⟨hrecords, hcallbacks⟩ := h
  refine .change (.bind (.emit (.dressed hrecords hcallbacks) rfl) fun _ _ _ h => ?_)
  exact .returns h

theorem recordAnswer_lockstep (hpair : E.Paired K E') {answer : Answer F} (h : Alike K s s') :
    Lockstep K (recordAnswer E id answer) (recordAnswer E' id answer) s s' := by
  obtain ⟨nodeLimit, callbacks, clock, rfl⟩ := hpair.varied
  obtain ⟨hrecords, hcallbacks⟩ := h
  refine .look ?_
  simp only [State.dress_tree]
  rcases s.tree.get? id with _ | before
  · exact .throws (.dressed hrecords hcallbacks)
  simp only [vary_sense]
  rcases before.record? answer (E.sense.normalize (answer.objective?.getD Extended.nan))
    with _ | node
  · exact .throws (.dressed hrecords hcallbacks)
  refine .change (.ite (fun _ => ?_) fun _ => .returns (.dressed hrecords hcallbacks))
  rcases node.changes.head? with _ | change
  · exact .returns (.dressed hrecords hcallbacks)
  · refine .look (.bind (.ensure (.dressed hrecords hcallbacks)) fun strategy _ _ h => ?_)
    obtain ⟨hrecords, hcallbacks⟩ := h
    exact .ok (.dressed hrecords hcallbacks)

/-- If it is known where the first computation leads, the rest may rely on it. -/
theorem Lockstep.bind_runs {m : SearchM F σ β κ α} {m' : SearchM F σ β κ' α}
    {f : α → SearchM F σ β κ γ} {f' : α → SearchM F σ β κ' γ} {c : Config F σ β κ}
    {Q : α → Config F σ β κ → Prop} (hruns : Runs E m c Q) (h : Lockstep K m m' c.state s')
    (hf : ∀ a c₁ s₁', Moves E c c₁ →
      c₁.state.statistics.processed = c.state.statistics.processed → Q a c₁ →
        Alike K c₁.state s₁' → Lockstep K (f a) (f' a) c₁.state s₁') :
    Lockstep K (m >>= f) (m' >>= f') c.state s' := by
  unfold Lockstep at h ⊢
  unfold Runs at hruns
  rw [EStateM.run_bind, EStateM.run_bind]
  generalize m.run c.state = result at h hruns ⊢
  generalize m'.run s' = result' at h ⊢
  cases h with
  | ok h =>
    obtain ⟨c₁, hmoves, rfl, hsame, hQ⟩ := hruns
    exact hf _ _ _ hmoves hsame hQ h
  | error h => exact .error h

/-- At this node the callbacks keep in step: once its relaxation is solved and recorded, all of
    them are consulted in lockstep. -/
def Engine.KeepsStep (K : κ → Nat → κ' → Nat → Prop) (E : Engine F σ β κ) (E' : Engine F σ β κ')
    (id : NodeId) (r : Restrictions F) (s : State F σ β κ) : Prop :=
  ∀ answer s₁ s₁', Moves E ⟨.opened id, [], s⟩ ⟨.consulting id r answer E.callbacks, [], s₁⟩ →
    s₁.statistics.processed = s.statistics.processed → Alike K s₁ s₁' →
      Lockstep K (E.callbacks.forM (consult E id r)) (E'.callbacks.forM (consult E' id r)) s₁ s₁'

theorem explore_lockstep {r : Restrictions F} {node : Node F} (hpair : E.Paired K E')
    (hnode : s.tree.get? id = some node) (hbound : s.dominates node E.settings.tolerance = false)
    (hr : s.tree.restrictions id = .ok r)
    (hdomain : r.emptyDomain? E.settings.tolerance = none) (hkeeps : E.KeepsStep K E' id r s)
    (h : Alike K s s') : Lockstep K (explore E id r) (explore E' id r) s s' := by
  refine .bind_runs (runs_relax hnode hbound hr hdomain) (relax_lockstep hpair h)
    fun answer c s₁' hmoves hsame hc h => ?_
  obtain ⟨stage, doomed, s₁⟩ := c
  obtain ⟨rfl, rfl⟩ := hc
  refine .bind_runs runs_recordAnswer (recordAnswer_lockstep hpair h)
    fun _ c s₂' hmoves' hsame' hc h => ?_
  obtain ⟨stage, doomed, s₂⟩ := c
  obtain ⟨rfl, rfl⟩ := hc
  refine .bind (hkeeps answer s₂ s₂' (hmoves.trans hmoves') (hsame'.trans hsame) h)
    fun _ _ _ h => ?_
  exact dispatch_lockstep hpair h

theorem examine_lockstep {node : Node F} (hpair : E.Paired K E')
    (hnode : s.tree.get? id = some node)
    (hkeeps : ∀ r, s.tree.restrictions id = .ok r → E.KeepsStep K E' id r s) (h : Alike K s s') :
    Lockstep K (examine E s node id) (examine E' s' node id) s s' := by
  have hpair' := hpair
  obtain ⟨nodeLimit, callbacks, clock, rfl⟩ := hpair.varied
  obtain ⟨hrecords, hcallbacks⟩ := h
  unfold examine
  simp only [State.dress_dominates, vary_tolerance, State.dress_tree]
  refine .ite (fun _ => ?_) fun hbound => ?_
  · exact conclude_lockstep hpair' (fun _ _ => by rfl) rfl (.dressed hrecords hcallbacks)
  · rcases hr : s.tree.restrictions id with error | r
    · exact .throws (.dressed hrecords hcallbacks)
    · simp only [ofTree_ok, pure_bind]
      rcases hdomain : r.emptyDomain? E.settings.tolerance with _ | var
      · exact explore_lockstep hpair' hnode (Bool.not_eq_true _ ▸ hbound) hr hdomain (hkeeps r hr)
          (.dressed hrecords hcallbacks)
      · exact conclude_lockstep hpair' (fun _ _ => by rfl) rfl (.dressed hrecords hcallbacks)

theorem report_lockstep (hpair : E.Paired K E') (h : Alike K s s') :
    Lockstep K (report E) (report E') s s' := by
  obtain ⟨nodeLimit, callbacks, clock, rfl⟩ := hpair.varied
  obtain ⟨hrecords, hcallbacks⟩ := h
  refine .look ?_
  simp only [vary_logEvery, State.dress_processed]
  -- the clocks may show different times
  exact .ite (fun _ => .emit (.dressed hrecords hcallbacks) rfl) fun _ =>
    .returns (.dressed hrecords hcallbacks)

/-! ## Steps -/

/-- The limit that is reached when so many nodes are processed. -/
abbrev Engine.limit? (E : Engine F σ β κ) (processed : Nat) : Option StopReason :=
  (Limits.ofSettings E.settings).check (E.clock processed) processed

/-- A step, if both searches are at the same limit or at none, and the callbacks keep in step at
    the node that is taken. -/
theorem step_lockstep (hpair : E.Paired K E')
    (hlimit : E'.limit? s.statistics.processed = E.limit? s.statistics.processed)
    (hkeeps : ∀ key rest node r, E.limit? s.statistics.processed = none →
      s.frontier.pop? = some (key, rest) → s.tree.get? key.id = some node →
        E.KeepsStep K E' key.id r (s.taken key rest node)) (h : Alike K s s') :
    Lockstep K (step E) (step E') s s' := by
  obtain @⟨callbacks, rejections, history, hrecords, hcallbacks⟩ := h
  have hsame : E'.limit? (s.dress callbacks rejections history).statistics.processed =
    E.limit? s.statistics.processed := hlimit
  unfold Lockstep
  rcases hnone : E.limit? s.statistics.processed with _ | reason
  · rw [hnone] at hsame
    rcases hpop : s.frontier.pop? with _ | ⟨key, rest⟩
    · rw [step_exhausted hnone hpop, step_exhausted hsame hpop]
      exact .ok (.dressed hrecords hcallbacks)
    rcases hnode : s.tree.get? key.id with _ | node
    · rw [step_missing hnone hpop hnode, step_missing hsame hpop hnode]
      exact .error (.dressed hrecords hcallbacks)
    · rw [step_taken hnone hpop hnode, step_taken hsame hpop hnode]
      have htaken : Alike K (s.taken key rest node)
          ((s.dress callbacks rejections history).taken key rest node) :=
        .dressed hrecords hcallbacks
      refine Lockstep.bind (examine_lockstep hpair hnode
        (fun r _ => hkeeps key rest node r hnone hpop hnode) htaken) fun _ _ _ h => ?_
      exact .bind (report_lockstep hpair h) fun _ _ _ h => .returns h
  · rw [hnone] at hsame
    rw [step_limited hnone, step_limited hsame]
    exact .ok (.dressed hrecords hcallbacks)

/-- A number of steps, if every step from a state that is met is made in lockstep.  What holds of
    the states may depend on how many steps are left. -/
theorem run_lockstep (steps : Nat) {P : Nat → State F σ β κ → Prop}
    (hstep : ∀ {n s s'}, P (n + 1) s → Alike K s s' → Lockstep K (step E) (step E') s s')
    (hnext : ∀ {n s s₁}, P (n + 1) s → (step E).run s = .ok none s₁ → P n s₁)
    (hP : P steps s) (h : Alike K s s') : Lockstep K (run E steps) (run E' steps) s s' := by
  induction steps generalizing s s' with
  | zero => exact .returns h
  | succ n ih =>
    have hfirst := hstep hP h
    have hafter : ∀ {s₁}, (step E).run s = .ok none s₁ → P n s₁ := hnext hP
    unfold Lockstep at hfirst ⊢
    rw [run, run, EStateM.run_bind, EStateM.run_bind]
    generalize (step E).run s = result at hfirst hafter ⊢
    generalize (step E').run s' = result' at hfirst ⊢
    cases hfirst with
    | @ok ended s₁ s₁' h =>
      cases ended with
      | none => exact ih (hafter rfl) h
      | some status => exact .ok h
    | error h => exact .error h

/-! ## Searches -/

/-- What two searches come to: they are both unfinished, are summed up with the same status, or
    fail with the same error, in states that were alike until then. -/
inductive Concur (K : κ → Nat → κ' → Nat → Prop) (E : Engine F σ β κ) (E' : Engine F σ β κ') :
    EStateM.Result (SearchError F) (State F σ β κ) (Option (Solution F)) →
      EStateM.Result (SearchError F) (State F σ β κ') (Option (Solution F)) → Prop where
  | unfinished {u u'} (h : Alike K u u') : Concur K E E' (.ok none u) (.ok none u')
  | ended {u u' t t' status solution solution'} (h : Alike K u u')
      (hsummary : Summary E u t status solution) (hsummary' : Summary E' u' t' status solution') :
      Concur K E E' (.ok (some solution) t) (.ok (some solution') t')
  | failed {e u u'} (h : Alike K u u') : Concur K E E' (.error e u) (.error e u')

theorem solve_lockstep {steps : Nat}
    (h : Lockstep K (run E steps) (run E' steps) (s.announced E) (s'.announced E')) :
    Concur K E E' ((solve E steps).run s) ((solve E' steps).run s') := by
  unfold Lockstep at h
  rcases hrun : (run E steps).run (s.announced E) with ⟨ended, t⟩ | ⟨e, t⟩ <;>
    rcases hrun' : (run E' steps).run (s'.announced E') with ⟨ended', t'⟩ | ⟨e', t'⟩ <;>
    rw [hrun, hrun'] at h <;> cases h
  · rename_i h
    cases ended with
    | none =>
      rw [solve_unfinished hrun, solve_unfinished hrun']
      exact .unfinished h
    | some status =>
      obtain ⟨solution, u, hsolve, hsummary⟩ := solve_ended hrun
      obtain ⟨solution', u', hsolve', hsummary'⟩ := solve_ended hrun'
      rw [hsolve, hsolve']
      exact .ended h hsummary hsummary'
  · rename_i h
    rw [solve_failed hrun, solve_failed hrun']
    exact .failed h

omit [Extended F] in
theorem Alike.related (h : Alike K s s') :
    K s.callbacks s.statistics.rejections s'.callbacks s'.statistics.rejections := by
  obtain ⟨-, hcallbacks⟩ := h
  exact hcallbacks

omit [Extended F] in
theorem Alike.trace_eq (h : Alike K s s') : s'.trace = s.trace := by
  obtain ⟨hrecords, -⟩ := h
  exact congrArg List.reverse hrecords

/-- A summary adds no record. -/
theorem Summary.trace_eq {t : State F σ β κ} {status : SearchStatus} {solution : Solution F}
    (h : Summary E s t status solution) : t.trace = s.trace := by
  rw [h.final_eq]
  rfl

/-- Summaries of states that are alike differ in the number of rejections and in the time only. -/
theorem Alike.solution_eq {t : State F σ β κ} {t' : State F σ β κ'} {status : SearchStatus}
    {solution solution' : Solution F} (h : Alike K s s') (hpair : E.Paired K E')
    (hsummary : Summary E s t status solution) (hsummary' : Summary E' s' t' status solution') :
    solution' = { solution with
      statistics := { solution.statistics with
        rejections := s'.statistics.rejections
        elapsed := E'.clock s.statistics.processed } } := by
  obtain ⟨nodeLimit, callbacks, clock, rfl⟩ := hpair.varied
  obtain ⟨-, -⟩ := h
  obtain ⟨status', incumbent, statistics⟩ := solution'
  obtain rfl : status' = solution.status := hsummary'.status_eq.trans hsummary.status_eq.symm
  obtain rfl : incumbent = solution.incumbent :=
    hsummary'.incumbent_eq.trans hsummary.incumbent_eq.symm
  obtain rfl : statistics = _ := hsummary'.statistics_eq
  rw [hsummary.statistics_eq]
  rfl

end Milp.Search
