/-
  Maximisation as the mirror image of minimisation.

  The search keeps bounds in minimisation and shows objectives in the direction of the program, so
  a change of direction passes through all of it.  Over exact scalars a program and its mirror image
  are searched in lockstep: the same nodes, decisions and counters, and the same points with
  negative objectives.

  * `Tree.mirror`, `Tracker.mirror`, `Search.State.mirror`: the state of the other search.
  * `Search.Facing`: a computation and one on the mirror image come to mirror images.
  * `Search.Engine.Symmetric`: what the parts of an engine have to make of the other direction.
  * `Search.step_facing`, `Search.run_facing`: a step, and a run.
  * `MixedProgram.solve_mirrored`: what the two standard searches come to, and that it does not
    matter whether the direction stands in the settings or in the program.
-/
import Milp.Proofs.Provenance
import Milp.Proofs.Simplex.Mirror

namespace Milp

/-! ## Nodes and trees -/

theorem Answer.check_mirror (answer : Answer Exact) (vars : Nat) :
    answer.mirror.check vars = (answer.check vars).mirror := by
  cases answer with
  | optimal x objective =>
    simp only [mirror, check, Exact.isFinite_neg]
    split
    · rfl
    · split <;> rfl
  | _ => rfl

@[simp] theorem Answer.isOptimal_mirror (answer : Answer Exact) :
    answer.mirror.isOptimal = answer.isOptimal := by
  cases answer <;> rfl

theorem Answer.dropPoint_mirror (answer : Answer Exact) :
    answer.mirror.dropPoint = answer.dropPoint.mirror := by
  cases answer <;> rfl

/-- The value to minimise is the same; an answer without one has none in either direction. -/
theorem Answer.normalize_mirror (answer : Answer Exact) (s : Sense) :
    s.flip.normalize (answer.mirror.objective?.getD Extended.nan) =
      s.normalize (answer.objective?.getD Extended.nan) := by
  cases answer with
  | optimal x objective => simp [mirror, objective?]
  | _ => cases s <;> rfl

/-- The node of the other search.  The bounds of a node are in minimisation, so they stay. -/
def Node.mirror (node : Node Exact) : Node Exact :=
  { node with answer := node.answer.map Answer.mirror }

/-- The other search records the same bound. -/
theorem Node.record?_mirror (node : Node Exact) (answer : Answer Exact) (normalized : Exact) :
    node.mirror.record? answer.mirror normalized =
      (node.record? answer normalized).map Node.mirror := by
  unfold record?
  rw [apply_ite (Option.map Node.mirror)]
  simp only [mirror, Option.isSome_map, Answer.isOptimal_mirror]
  rfl

def Slot.mirror (slot : Slot Exact) : Slot Exact := { slot with node := slot.node.mirror }

/-- The tree of the other search. -/
def Tree.mirror (t : Tree Exact) : Tree Exact :=
  { t with slots := t.slots.map (Option.map Slot.mirror) }

/-- Changing an entry of the image is changing the entry. -/
theorem map_modify {α β : Type} {g : α → β} {f : α → α} {f' : β → β} (h : ∀ a, f' (g a) = g (f a))
    (xs : Array α) (i : Nat) : (xs.map g).modify i f' = (xs.modify i f).map g := by
  refine Array.ext_getElem? fun j => ?_
  rw [Array.getElem?_modify, Array.getElem?_map, Array.getElem?_map, Array.getElem?_modify]
  split
  · cases xs[j]? <;> simp [h]
  · rfl

namespace Tree

variable (t : Tree Exact)

theorem slot?_mirror (id : NodeId) : t.mirror.slot? id = (t.slot? id).map Slot.mirror := by
  simp only [slot?, mirror, Array.getElem?_map]
  rcases t.slots[id]? with _ | _ | slot <;> rfl

theorem get?_mirror (id : NodeId) : t.mirror.get? id = (t.get? id).map Node.mirror := by
  simp only [get?, slot?_mirror, Option.map_map]
  rfl

theorem node_mirror (id : NodeId) : t.mirror.node id = (t.node id).map Node.mirror := by
  simp only [node, get?_mirror]
  cases t.get? id <;> rfl

theorem modifySlot_mirror (id : NodeId) {f f' : Slot Exact → Slot Exact}
    (h : ∀ slot, f' slot.mirror = (f slot).mirror) :
    t.mirror.modifySlot id f' = (t.modifySlot id f).mirror := by
  simp only [modifySlot, mirror]
  rw [map_modify (f := Option.map f)]
  rintro (_ | slot)
  · rfl
  · exact congrArg some (h slot)

theorem modify_mirror (id : NodeId) {f f' : Node Exact → Node Exact}
    (h : ∀ node, f' node.mirror = (f node).mirror) :
    t.mirror.modify id f' = (t.modify id f).mirror :=
  t.modifySlot_mirror id fun slot => congrArg (Slot.mk · slot.liveChildren) (h slot.node)

theorem insert_mirror (node : Node Exact) :
    t.mirror.insert node.mirror = (t.insert node).mirror := by
  simp only [insert, mirror, Array.map_push]
  rfl

theorem created_mirror : t.mirror.created = t.created := Array.size_map

theorem createChild_mirror (parent : NodeId) (change : BoundChange Exact) :
    t.mirror.createChild parent change =
      (t.createChild parent change).map fun (t, child) => (t.mirror, child) := by
  simp only [createChild, get?_mirror]
  rcases t.get? parent with _ | node
  · rfl
  · simp only [Option.map_some, Except.map]
    rw [t.modifySlot_mirror parent (f := fun slot =>
      { slot with liveChildren := slot.liveChildren + 1 }) fun _ => rfl, created_mirror]
    exact congrArg (fun t => Except.ok (t, _)) (insert_mirror _ (node.child t.created change))

theorem path_mirror (id : NodeId) : t.mirror.path id = (t.path id).map (List.map Node.mirror) := by
  induction id using Nat.strongRecOn with
  | _ id ih =>
    rw [path, path, get?_mirror]
    rcases t.get? id with _ | node
    · rfl
    simp only [Option.map_some]
    rcases hp : node.parent with _ | parent
    · simp only [show node.mirror.parent = none from hp]
      rfl
    · simp only [show node.mirror.parent = some parent from hp]
      split
      · rw [ih parent ‹_›]
        cases t.path parent <;> rfl
      · rfl

/-- The other search has the same domains. -/
theorem restrictions_mirror (id : NodeId) : t.mirror.restrictions id = t.restrictions id := by
  rw [restrictions, restrictions, path_mirror]
  rcases t.path id with e | nodes
  · rfl
  · simp only [Except.map, Bind.bind, Except.bind, ← List.map_reverse, List.flatMap_map]
    rfl

theorem detach_mirror (id : NodeId) (parent : Option NodeId) :
    t.mirror.detach id parent = (t.detach id parent).mirror := by
  have hslots : t.mirror.slots.modify id (fun _ => none) =
      (t.slots.modify id fun _ => none).map (Option.map Slot.mirror) :=
    map_modify (g := Option.map Slot.mirror) (f := fun _ => none) (fun _ => rfl) t.slots id
  unfold detach
  rw [hslots]
  rcases parent with _ | p
  · rfl
  · exact modifySlot_mirror ⟨_, _⟩ p fun _ => rfl

/-- The other search releases the same nodes. -/
theorem release_mirror (id : NodeId) : (t.mirror.release id).1 = (t.release id).1.mirror := by
  induction id using Nat.strongRecOn generalizing t with
  | _ id ih =>
    rw [release_eq, release_eq, slot?_mirror]
    rcases t.slot? id with _ | slot
    · rfl
    simp only [Option.map_some, show slot.mirror.node.parent = slot.node.parent from rfl,
      show slot.mirror.node.status = slot.node.status from rfl,
      show slot.mirror.liveChildren = slot.liveChildren from rfl]
    split
    · rcases slot.node.parent with _ | p
      · exact t.detach_mirror id none
      · simp only [detach_mirror]
        split
        · exact ih p ‹_› _
        · rfl
    · rfl

theorem finish_mirror (status : NodeStatus) (node : Node Exact) :
    finish status node.mirror = (finish status node).mirror := by
  unfold finish
  simp only
  split
  · simp only [Node.dropPoint, Node.mirror, Option.map_map]
    rw [show Answer.dropPoint ∘ Answer.mirror = Answer.mirror ∘ Answer.dropPoint from
      funext Answer.dropPoint_mirror]
  · rfl

theorem close_mirror {t t' t'' : Tree Exact} {id : NodeId} {status : NodeStatus}
    {released released' : Nat} (h : t.close id status = .ok (t', released))
    (h' : t.mirror.close id status = .ok (t'', released')) : t'' = t'.mirror := by
  obtain ⟨-, -, rfl⟩ := close_eq h
  obtain ⟨-, -, rfl⟩ := close_eq h'
  rw [t.modify_mirror id (finish_mirror status), release_mirror]

end Tree

/-! ## Incumbents -/

def Incumbent.mirror (i : Incumbent Exact) : Incumbent Exact := { i with objective := -i.objective }

/-- The distance between objective and bound is the same, and so is the size of the objective. -/
theorem relativeGap_neg (primal dual : Exact) :
    relativeGap (-primal) (-dual) = relativeGap primal dual := by
  simp only [relativeGap, Scalar.isInfinite, Exact.isFinite_neg, Exact.isNaN_neg,
    Exact.neg_sub_neg, Exact.abs_neg]
  rfl

/-- The incumbent of the other search. -/
def Tracker.mirror (t : Tracker Exact) : Tracker Exact :=
  { t with sense := t.sense.flip, best := t.best.map Incumbent.mirror }

namespace Tracker

variable (t : Tracker Exact)

theorem hasIncumbent_mirror : t.mirror.hasIncumbent = t.hasIncumbent := Option.isSome_map

theorem objective_mirror : t.mirror.objective = -t.objective := by
  unfold objective
  rcases h : t.best with _ | i
  · simp [mirror, h, Sense.worst]
  · simp [mirror, h, Incumbent.mirror]

/-- Both searches compare with the same value. -/
theorem normalized_mirror : t.mirror.normalized = t.normalized := by
  rw [normalized, objective_mirror]
  simp [mirror, normalized]

theorem improves_mirror (objective tolerance : Exact) :
    t.mirror.improves (-objective) tolerance = t.improves objective tolerance := by
  unfold improves
  rcases h : t.best with _ | i
  · simp [mirror, h, Exact.isFinite_neg]
  · simp [mirror, h, Sense.better, Incumbent.mirror]

theorem update?_mirror (candidate : Incumbent Exact) (tolerance : Exact) :
    t.mirror.update? candidate.mirror tolerance =
      (t.update? candidate tolerance).map Tracker.mirror := by
  unfold update?
  rw [apply_ite (Option.map Tracker.mirror), ← improves_mirror t candidate.objective]
  rfl

theorem gap_mirror (bound : Exact) : t.mirror.gap (-bound) = t.gap bound := by
  rw [gap, objective_mirror, relativeGap_neg, gap]

end Tracker

/-- The error of the other search. -/
def SearchError.mirror : SearchError Exact → SearchError Exact
  | aborted solverErrors processed incumbent =>
    aborted solverErrors processed (incumbent.map Incumbent.mirror)
  | e => e

/-- What the other search returns. -/
def Solution.mirror (s : Solution Exact) : Solution Exact :=
  { s with
    incumbent := s.incumbent.map Incumbent.mirror
    statistics := { s.statistics with bestBound := -s.statistics.bestBound } }

namespace Search

variable {σ β κ α α' γ γ' : Type}

/-- The state of the other search, with what it logged. -/
def State.mirror (s : State Exact σ β κ) (history : List (Event Exact)) : State Exact σ β κ :=
  { s with tree := s.tree.mirror, tracker := s.tracker.mirror, history }

namespace State

variable (s : State Exact σ β κ) (history : List (Event Exact))

@[simp] theorem mirror_tree : (s.mirror history).tree = s.tree.mirror := rfl

@[simp] theorem mirror_tracker : (s.mirror history).tracker = s.tracker.mirror := rfl

@[simp] theorem mirror_frontier : (s.mirror history).frontier = s.frontier := rfl

@[simp] theorem mirror_statistics : (s.mirror history).statistics = s.statistics := rfl

@[simp] theorem mirror_relaxation : (s.mirror history).relaxation = s.relaxation := rfl

@[simp] theorem mirror_strategy : (s.mirror history).strategy = s.strategy := rfl

theorem dominates_mirror (node : Node Exact) (tolerance : Exact) :
    (s.mirror history).dominates node.mirror tolerance = s.dominates node tolerance := by
  simp only [dominates, mirror_tracker, Tracker.hasIncumbent_mirror, Tracker.normalized_mirror]
  rfl

theorem bound_mirror : (s.mirror history).bound = s.bound := by
  simp only [bound, mirror_tracker, mirror_frontier, Tracker.normalized_mirror]

theorem exhausted_mirror : (s.mirror history).exhausted = s.exhausted := by
  simp only [exhausted, mirror_tracker, Tracker.hasIncumbent_mirror]
  rfl

end State

/-! ## Two searches, face to face -/

/-- Two results face each other: the value of the one is made from the value of the other, or both
    are the same error, in states that are mirror images. -/
inductive Reflects (f : α → α') : EStateM.Result (SearchError Exact) (State Exact σ β κ) α →
    EStateM.Result (SearchError Exact) (State Exact σ β κ) α' → Prop where
  | ok {a s history} : Reflects f (.ok a s) (.ok (f a) (s.mirror history))
  | error {e s history} : Reflects f (.error e s) (.error e.mirror (s.mirror history))

/-- A computation from a state, and another from its mirror image, come to results that face each
    other. -/
def Facing (f : α → α') (m : SearchM Exact σ β κ α) (m' : SearchM Exact σ β κ α')
    (s : State Exact σ β κ) : Prop :=
  ∀ history, Reflects f (m.run s) (m'.run (s.mirror history))

namespace Facing

variable {f : α → α'} {g : γ → γ'} {m : SearchM Exact σ β κ α} {m' : SearchM Exact σ β κ α'}
  {k : α → SearchM Exact σ β κ γ} {k' : α' → SearchM Exact σ β κ γ'} {s : State Exact σ β κ}

theorem returns (a : α) : Facing f (pure a) (pure (f a)) s := fun _ => .ok

theorem throws (e : SearchError Exact) : Facing f (throw e) (throw e.mirror) s := fun _ => .error

theorem bind (h : Facing f m m' s) (hk : ∀ a t, Facing g (k a) (k' (f a)) t) :
    Facing g (m >>= k) (m' >>= k') s := by
  intro history
  have hfirst := h history
  rw [EStateM.run_bind, EStateM.run_bind]
  generalize m.run s = result at hfirst ⊢
  generalize m'.run (s.mirror history) = result' at hfirst ⊢
  cases hfirst with
  | ok => exact hk _ _ _
  | error => exact .error

/-- Going on with the same value. -/
theorem next {m m' : SearchM Exact σ β κ α} {k : α → SearchM Exact σ β κ γ}
    {k' : α → SearchM Exact σ β κ γ'} (h : Facing id m m' s) (hk : ∀ a t, Facing g (k a) (k' a) t) :
    Facing g (m >>= k) (m' >>= k') s := h.bind hk

/-- Looking at the states. -/
theorem look {k : State Exact σ β κ → SearchM Exact σ β κ γ}
    {k' : State Exact σ β κ → SearchM Exact σ β κ γ'}
    (h : ∀ history, Facing g (k s) (k' (s.mirror history)) s) :
    Facing g (get >>= k) (get >>= k') s := fun history => h history history

/-- Changing the states, and going on. -/
theorem change {m : SearchM Exact σ β κ γ} {m' : SearchM Exact σ β κ γ'}
    {update update' : State Exact σ β κ → State Exact σ β κ}
    (hupdate : ∀ history, update' (s.mirror history) = (update s).mirror history)
    (h : Facing g m m' (update s)) :
    Facing g (modify update >>= fun _ => m) (modify update' >>= fun _ => m') s := by
  intro history
  have hnext := h history
  rw [← hupdate] at hnext
  exact hnext

theorem ite {p : Prop} [Decidable p] {m₁ m₂ : SearchM Exact σ β κ α}
    {m₁' m₂' : SearchM Exact σ β κ α'} (h₁ : p → Facing f m₁ m₁' s) (h₂ : ¬ p → Facing f m₂ m₂' s) :
    Facing f (if p then m₁ else m₂) (if p then m₁' else m₂') s := by
  by_cases hp : p
  · simpa only [if_pos hp] using h₁ hp
  · simpa only [if_neg hp] using h₂ hp

/-- Going on with an answer, where errors are the same in both directions. -/
theorem ensure {ε : Type} {wrap : ε → SearchError Exact} (hwrap : ∀ e, (wrap e).mirror = wrap e)
    {x : Except ε α} {x' : Except ε α'} (h : x' = x.map f) :
    Facing f (ensure wrap x) (ensure wrap x') s := by
  subst h
  cases x with
  | ok a => exact returns a
  | error e =>
    have hthrows := throws (f := f) (s := s) (wrap e)
    rwa [hwrap e] at hthrows

theorem ofTree {x : Except TreeError α} {x' : Except TreeError α'} (h : x' = x.map f) :
    Facing f (ofTree x) (ofTree x') s := ensure (fun _ => rfl) h

/-- Going on with the same answer. -/
theorem same {ε : Type} {wrap : ε → SearchError Exact} (hwrap : ∀ e, (wrap e).mirror = wrap e)
    (x : Except ε α) : Facing id (Search.ensure wrap x) (Search.ensure wrap x) s :=
  ensure hwrap (by cases x <;> rfl)

/-- What is logged may differ. -/
theorem emit (event event' : Event Exact) : Facing id (emit event) (emit event') s :=
  fun _ => .ok

theorem tally (count : Statistics Exact → Statistics Exact) :
    Facing id (tally count) (tally count) s := fun _ => .ok

theorem forM {ι : Type} {k k' : ι → SearchM Exact σ β κ Unit}
    (h : ∀ i t, Facing id (k i) (k' i) t) (is : List ι) : Facing id (is.forM k) (is.forM k') s := by
  induction is generalizing s with
  | nil => exact returns ()
  | cons i is ih => exact (h i s).bind fun _ _ => ih

end Facing

/-! ## Engines -/

/-- The engine for the mirrored program, with a relaxation for it and a clock of its own. -/
def Engine.mirror (E : Engine Exact σ β κ) (relaxation : Relaxation Exact σ) (clock : SearchClock) :
    Engine Exact σ β κ :=
  { E with problem := E.problem.mirror, relaxation, clock }

section Parts

variable (E : Engine Exact σ β κ) (relaxation : Relaxation Exact σ) (clock : SearchClock)

@[simp] theorem mirror_sense : (E.mirror relaxation clock).sense = E.sense.flip := rfl

@[simp] theorem mirror_settings : (E.mirror relaxation clock).settings = E.settings := rfl

@[simp] theorem mirror_candidates : (E.mirror relaxation clock).candidates = E.candidates := rfl

@[simp] theorem mirror_strategy : (E.mirror relaxation clock).strategy = E.strategy := rfl

@[simp] theorem mirror_callbacks : (E.mirror relaxation clock).callbacks = E.callbacks := rfl

end Parts

/-- The relaxation answers for the mirrored program with the same points, the strategy does not look
    at the direction, and there is nothing else that could: no callback and no time limit. -/
structure Engine.Symmetric (E : Engine Exact σ β κ) (relaxation : Relaxation Exact σ) : Prop where
  solve : ∀ w r, (relaxation.solve w r).map Reply.result =
    (E.relaxation.solve w r).map fun reply => (reply.state, reply.answer.mirror)
  select : ∀ b q, E.strategy.select b { q with problem := q.problem.mirror } =
    E.strategy.select b q
  callbacks : E.callbacks = []
  timeLimit : E.settings.timeLimit = none

variable {E : Engine Exact σ β κ} {relaxation : Relaxation Exact σ} {s : State Exact σ β κ}
  {node : NodeId}

section Symmetric

variable (hE : E.Symmetric relaxation) (clock : SearchClock)

include hE

/-! ## Closing nodes, and new incumbents -/

theorem close_facing {status : NodeStatus} (hstatus : status.isClosed = true) :
    Facing id (close E node status) (close (E.mirror relaxation clock) node status) s := by
  intro history
  have hget : (s.mirror history).tree.get? node = (s.tree.get? node).map Node.mirror :=
    s.tree.get?_mirror node
  rcases close_run E s node status hstatus with
    ⟨hnone, hrun⟩ | ⟨n, tree, released, hnode, hclose, hrun⟩ <;>
    rcases close_run (E.mirror relaxation clock) (s.mirror history) node status hstatus with
      ⟨hnone', hrun'⟩ | ⟨n', tree', released', hnode', hclose', hrun'⟩
  · rw [hrun, hrun']
    exact .error
  · rw [hget, hnone] at hnode'
    cases hnode'
  · rw [hget, hnode] at hnone'
    cases hnone'
  · obtain rfl := Tree.close_mirror hclose hclose'
    rw [hrun, hrun']
    have hclosed : (s.mirror history).closed (E.mirror relaxation clock) n' status tree.mirror =
        (s.closed E n status tree).mirror
          (.closed ((E.mirror relaxation clock).record n' status) :: history) := by
      simp only [State.closed, State.mirror, Engine.mirror, hE.callbacks]
      rfl
    rw [hclosed]
    exact .ok

/-- Closing a node for a reason that is logged and counted. -/
theorem conclude_facing {event event' : Event Exact} {count : Statistics Exact → Statistics Exact}
    {status : NodeStatus} (hstatus : status.isClosed = true) :
    Facing id (do emit event; tally count; close E node status)
      (do emit event'; tally count; close (E.mirror relaxation clock) node status) s :=
  .next (.emit _ _) fun _ _ => .next (.tally _) fun _ _ => close_facing hE clock hstatus

theorem pruneFrontier_facing :
    Facing id (pruneFrontier E) (pruneFrontier (E.mirror relaxation clock)) s := by
  refine .look fun history => ?_
  simp only [mirror_settings, State.mirror_tracker, Tracker.normalized_mirror]
  refine .change (fun _ => rfl) (.next (.tally _) fun _ _ => ?_)
  refine .next (.forM (fun key _ => close_facing hE clock rfl) _) fun _ _ => ?_
  exact .returns _

theorem install_facing (candidate : Incumbent Exact) :
    Facing id (install E candidate) (install (E.mirror relaxation clock) candidate.mirror) s := by
  refine .look fun history => ?_
  simp only [mirror_settings, State.mirror_tracker, Tracker.update?_mirror]
  rcases s.tracker.update? candidate E.settings.tolerance with _ | tracker
  · exact .returns false
  · refine .change (fun _ => rfl) (.next (.tally _) fun _ _ => ?_)
    refine .next (pruneFrontier_facing hE clock) fun pruned _ => ?_
    exact .next (.emit _ _) fun _ _ => .returns true

theorem accept_facing (x : List Exact) (objective : Exact) :
    Facing id (accept E node x objective)
      (accept (E.mirror relaxation clock) node x (-objective)) s := by
  refine .look fun history => .next (install_facing hE clock _) fun installed _ => ?_
  cases installed with
  | true => exact close_facing hE clock rfl
  | false => exact .next (.tally _) fun _ _ => close_facing hE clock rfl

/-! ## Decisions -/

theorem select_facing (x : List Exact) (fractional : Nat) :
    Facing id (select E node x fractional) (select (E.mirror relaxation clock) node x fractional)
      s := by
  refine .look fun history => ?_
  simp only [mirror_settings, mirror_candidates, mirror_strategy, State.mirror_tree,
    State.mirror_strategy, Tree.restrictions_mirror]
  refine .next (.same (fun _ => rfl) _) fun r _ => .next (.same (fun _ => rfl) _) fun box _ => ?_
  have hselect : E.strategy.select s.strategy ((E.mirror relaxation clock).query x box) =
      E.strategy.select s.strategy (E.query x box) := hE.select s.strategy (E.query x box)
  unfold Engine.query at hselect
  rw [mirror_candidates, mirror_settings] at hselect
  rw [hselect]
  refine .next (.same (fun _ => rfl) _) fun choice _ => ?_
  obtain ⟨decision, strategy⟩ := choice
  refine .change (fun _ => rfl) ?_
  cases decision with
  | none => exact .throws _
  | some d => exact .ite (fun _ => .returns d) fun _ => .throws _

omit hE in
theorem spawn_facing (change : BoundChange Exact) :
    Facing id (spawn node change : SearchM Exact σ β κ Unit) (spawn node change) s := by
  refine .look fun history => ?_
  refine .bind (.ofTree (s.tree.createChild_mirror node change)) fun created t => ?_
  obtain ⟨tree, child⟩ := created
  refine .change (fun _ => rfl) (.bind (.ofTree (tree.node_mirror child)) fun n _ => ?_)
  exact .change (fun _ => rfl) (.tally _)

theorem branch_facing (x : List Exact) (fractional : Nat) :
    Facing id (branch E node x fractional) (branch (E.mirror relaxation clock) node x fractional)
      s := by
  refine .next (select_facing hE clock x fractional) fun d _ => ?_
  refine .next (.forM (fun change _ => spawn_facing change) _) fun _ _ => ?_
  exact .ite (fun _ => conclude_facing hE clock rfl) fun _ => conclude_facing hE clock rfl

theorem settle_facing : Facing id (settle E node) (settle (E.mirror relaxation clock) node) s := by
  refine .look fun history => .bind (.ofTree (s.tree.node_mirror node)) fun n _ => ?_
  simp only [mirror_settings, mirror_candidates, State.dominates_mirror]
  refine .ite (fun _ => conclude_facing hE clock rfl) fun _ => ?_
  rw [show n.mirror.answer = n.answer.map Answer.mirror from rfl]
  rcases n.answer with _ | ⟨x, objective⟩ | _ | _ | _
  · exact .throws _
  · refine .next (.same (fun _ => rfl) _) fun split _ => ?_
    exact .ite (fun _ => accept_facing hE clock x objective) fun _ =>
      branch_facing hE clock x split.length
  all_goals exact .throws _

theorem writeOff_facing (cause : Cause Exact) :
    Facing id (writeOff E node cause) (writeOff (E.mirror relaxation clock) node cause) s := by
  refine .next (.tally _) fun _ _ => .change (fun _ => rfl) (.next (.emit _ _) fun _ _ => ?_)
  refine .next (close_facing hE clock rfl) fun _ t => .look fun history => ?_
  exact .ite (fun _ => .throws (.aborted _ _ t.tracker.best)) fun _ => .returns ()

theorem dispatch_facing (answer : Answer Exact) :
    Facing id (dispatch E node answer) (dispatch (E.mirror relaxation clock) node answer.mirror)
      s := by
  cases answer with
  | optimal x objective => exact settle_facing hE clock
  | infeasible => exact conclude_facing hE clock rfl
  | unbounded =>
    exact .next (.emit _ _) fun _ _ => .next (.tally _) fun _ _ => .change (fun _ => rfl)
      (close_facing hE clock rfl)
  | failed cause => exact writeOff_facing hE clock cause

/-! ## Nodes -/

theorem relax_facing (r : Restrictions Exact) :
    Facing Answer.mirror (relax E node r) (relax (E.mirror relaxation clock) node r) s := by
  refine .look fun history => ?_
  simp only [State.mirror_relaxation]
  obtain ⟨e, h', h⟩ | ⟨reply', reply, h', h, hresult⟩ := map_eq_map (hE.solve s.relaxation r)
  · rw [h, show (E.mirror relaxation clock).relaxation.solve s.relaxation r = _ from h']
    exact .throws _
  · obtain ⟨hstate, hanswer⟩ := Prod.mk.inj hresult
    rw [h, show (E.mirror relaxation clock).relaxation.solve s.relaxation r = _ from h']
    simp only [ofRead_ok, pure_bind, hstate, hanswer]
    refine .change (fun _ => rfl) (.next (.emit _ _) fun _ _ => ?_)
    rw [show (E.mirror relaxation clock).problem.vars = _ from E.problem.vars_mirror,
      Answer.check_mirror]
    exact .returns _

omit hE in
theorem recordAnswer_facing (answer : Answer Exact) :
    Facing id (recordAnswer E node answer)
      (recordAnswer (E.mirror relaxation clock) node answer.mirror) s := by
  refine .look fun history => ?_
  simp only [mirror_sense, mirror_strategy, State.mirror_tree, Answer.normalize_mirror,
    Tree.get?_mirror, Answer.isOptimal_mirror]
  rcases s.tree.get? node with _ | before
  · exact .throws _
  simp only [Option.map_some, Node.record?_mirror]
  rcases before.record? answer (E.sense.normalize (answer.objective?.getD Extended.nan))
    with _ | n
  · exact .throws _
  simp only [Option.map_some]
  refine .change (fun _ => ?_) (.ite (fun _ => ?_) fun _ => .returns ())
  · rw [State.mirror_tree, Tree.modify_mirror s.tree node (f := fun _ => n) fun _ => rfl]
    rfl
  · show Facing id (n.changes.head?.forM _) (n.changes.head?.forM _) _
    rcases n.changes.head? with _ | change
    · exact .returns ()
    · exact .look fun _ => .next (.same (fun _ => rfl) _) fun _ _ _ => .ok

theorem explore_facing (r : Restrictions Exact) :
    Facing id (explore E node r) (explore (E.mirror relaxation clock) node r) s := by
  refine .bind (relax_facing hE clock r) fun answer _ => ?_
  refine .next (recordAnswer_facing clock answer) fun _ _ => ?_
  simp only [mirror_callbacks, hE.callbacks]
  exact .next (.returns ()) fun _ _ => dispatch_facing hE clock answer

theorem process_facing :
    Facing id (process E node) (process (E.mirror relaxation clock) node) s := by
  refine .next (.tally _) fun _ t => .look fun history => ?_
  refine .bind (.ofTree (t.tree.node_mirror node)) fun n _ => .next (.tally _) fun _ _ => ?_
  simp only [mirror_settings, State.dominates_mirror, State.mirror_tree, Tree.restrictions_mirror]
  refine .ite (fun _ => conclude_facing hE clock rfl) fun _ => ?_
  refine .next (.same (fun _ => rfl) _) fun r _ => ?_
  rcases r.emptyDomain? E.settings.tolerance with _ | var
  · exact explore_facing hE clock r
  · exact conclude_facing hE clock rfl

omit hE in
theorem report_facing : Facing id (report E) (report (E.mirror relaxation clock)) s :=
  .look fun _ => .ite (fun _ => .emit _ _) fun _ => .returns ()

/-! ## Steps -/

/-- Without a time limit the clocks do not matter. -/
theorem limit_mirror (processed : Nat) :
    (Limits.ofSettings E.settings).check (clock processed) processed =
      (Limits.ofSettings E.settings).check (E.clock processed) processed := by
  simp [Limits.check, Limits.ofSettings, Settings.duration?, hE.timeLimit]

theorem step_facing : Facing id (step E) (step (E.mirror relaxation clock)) s := by
  refine .look fun history => ?_
  simp only [mirror_settings, State.mirror_statistics, State.mirror_frontier,
    State.exhausted_mirror]
  rw [show (E.mirror relaxation clock).clock = clock from rfl, limit_mirror hE clock]
  rcases (Limits.ofSettings E.settings).check (E.clock s.statistics.processed)
    s.statistics.processed with _ | reason
  · rcases s.frontier.pop? with _ | ⟨key, rest⟩
    · exact .returns _
    · refine .change (fun _ => rfl) (.next (.emit _ _) fun _ _ => ?_)
      refine .next (process_facing hE clock) fun _ _ => .next (report_facing clock) fun _ _ => ?_
      exact .returns none
  · exact .next (.emit _ _) fun _ _ => .returns _

theorem run_facing (steps : Nat) :
    Facing id (run E steps) (run (E.mirror relaxation clock) steps) s := by
  induction steps generalizing s with
  | zero => exact .returns none
  | succ steps ih =>
    refine .next (step_facing hE clock) fun ended _ => ?_
    cases ended with
    | none => exact ih
    | some status => exact .returns (some status)

/-! ## Searches -/

/-- What two searches in opposite directions come to: both are unfinished, or have solutions or
    errors that are mirror images, apart from the time. -/
inductive Mirrored :
    EStateM.Result (SearchError Exact) (State Exact σ β κ) (Option (Solution Exact)) →
    EStateM.Result (SearchError Exact) (State Exact σ β κ) (Option (Solution Exact)) → Prop where
  | unfinished {s s'} : Mirrored (.ok none s) (.ok none s')
  | solved {solution s s'} (elapsed : Duration) :
      Mirrored (.ok (some solution) s) (.ok (some { solution.mirror with
        statistics := { solution.mirror.statistics with elapsed } }) s')
  | failed {e s s'} : Mirrored (.error e s) (.error e.mirror s')

omit hE in
/-- The two searches sum up to mirror images. -/
theorem Summary.mirror {t t' : State Exact σ β κ} {history : List (Event Exact)}
    {status : SearchStatus} {solution solution' : Solution Exact}
    (h : Summary E s t status solution)
    (h' : Summary (E.mirror relaxation clock) (s.mirror history) t' status solution') :
    solution' = { solution.mirror with
      statistics := { solution.mirror.statistics with
        elapsed := clock s.statistics.processed } } := by
  have hbound : Scalar.positiveZero ((E.mirror relaxation clock).sense.normalize
      (s.mirror history).bound) = -Scalar.positiveZero (E.sense.normalize s.bound) := by
    rw [mirror_sense, State.bound_mirror, Exact.positiveZero_eq, Exact.positiveZero_eq,
      Sense.flip_normalize]
  have hincumbent : solution'.incumbent = solution.incumbent.map Incumbent.mirror := by
    rw [h.incumbent_eq, h'.incumbent_eq]
    simp only [Exact.positiveZero_eq]
    show (s.tracker.best.map Incumbent.mirror).map _ = _
    cases s.tracker.best <;> rfl
  have hstatistics : (s.mirror history).total (E.mirror relaxation clock) =
      { s.total E with
        bestBound := -(s.total E).bestBound
        elapsed := clock s.statistics.processed } := by
    simp only [State.total, hbound, State.mirror_tracker, Tracker.gap_mirror]
    rfl
  obtain ⟨status', incumbent, statistics⟩ := solution'
  obtain rfl : status' = solution.status := h'.status_eq.trans h.status_eq.symm
  obtain rfl : incumbent = _ := hincumbent
  obtain rfl : statistics = _ := h'.statistics_eq
  rw [hstatistics, ← h.statistics_eq]
  rfl

theorem solve_facing (steps : Nat) (history : List (Event Exact)) :
    Mirrored ((solve E steps).run s)
      ((solve (E.mirror relaxation clock) steps).run (s.mirror history)) := by
  have h : Reflects id ((run E steps).run (s.announced E))
      ((run (E.mirror relaxation clock) steps).run
        ((s.mirror history).announced (E.mirror relaxation clock))) :=
    run_facing hE clock steps _
  rcases hrun : (run E steps).run (s.announced E) with ⟨ended, t⟩ | ⟨e, t⟩ <;>
    rcases hrun' : (run (E.mirror relaxation clock) steps).run
      ((s.mirror history).announced (E.mirror relaxation clock)) with ⟨ended', t'⟩ | ⟨e', t'⟩ <;>
    rw [hrun, hrun'] at h <;> cases h
  · cases ended with
    | none =>
      rw [solve_unfinished hrun, solve_unfinished hrun']
      exact .unfinished
    | some status =>
      obtain ⟨solution, u, hsolve, hsummary⟩ := solve_ended hrun
      obtain ⟨solution', u', hsolve', hsummary'⟩ := solve_ended hrun'
      rw [hsolve, hsolve', hsummary.mirror clock hsummary']
      exact .solved _
  · rw [solve_failed hrun, solve_failed hrun']
    exact .failed

end Symmetric

/-- The two searches start from mirror images. -/
theorem initial_mirror (clock : SearchClock) (w : σ) (b : β) (k : κ) :
    State.initial (E.mirror relaxation clock) w b k = (State.initial E w b k).mirror [] := by
  have htree : (Tree.empty.insert (Node.root 0)).mirror = Tree.empty.insert (Node.root 0) := by
    have hempty : (Tree.empty : Tree Exact).mirror = Tree.empty := by
      simp [Tree.mirror, Tree.empty]
    rw [← Tree.insert_mirror, hempty]
    rfl
  show ({ State.initial E w b k with tracker := ⟨E.sense.flip, none, 0⟩ } : State Exact σ β κ) =
    { State.initial E w b k with
      tree := (Tree.empty.insert (Node.root 0)).mirror
      tracker := ⟨E.sense.flip, none, 0⟩ }
  rw [htree]
  rfl

/-- If the direction stands in the program alone then both engines may start, or neither. -/
theorem check_mirror (clock : SearchClock) (hsense : E.settings.sense = none)
    (hname : relaxation.name = E.relaxation.name) (hvars : relaxation.vars = E.relaxation.vars) :
    (E.mirror relaxation clock).check = E.check := by
  simp only [Engine.check, Engine.checkSomeCandidate, Engine.checkRelaxation, Engine.checkSense,
    Engine.mirror, hsense, hname, hvars, MixedProgram.vars_mirror]
  rfl

/-- Check an engine, and search. -/
def Engine.launch {F : Type} [Extended F] (E : Engine F σ Unit Unit) (w : σ) (steps : Nat) :
    EStateM.Result (SearchError F) (State F σ Unit Unit) (Option (Solution F)) :=
  match E.check with
  | .error cause => .error (.misconfigured cause) (State.initial E w () ())
  | .ok () => (solve E steps).run (State.initial E w () ())

theorem launch_mirror {E : Engine Exact σ Unit Unit} (hE : E.Symmetric relaxation)
    (hsense : E.settings.sense = none) (hname : relaxation.name = E.relaxation.name)
    (hvars : relaxation.vars = E.relaxation.vars) (clock : SearchClock) (w : σ) (steps : Nat) :
    Mirrored (E.launch w steps) ((E.mirror relaxation clock).launch w steps) := by
  unfold Engine.launch
  rw [check_mirror clock hsense hname hvars, initial_mirror]
  rcases E.check with cause | _
  · exact .failed (e := .misconfigured cause)
  · exact solve_facing hE clock steps []

/-! ## The direction in the settings -/

/-- The same engine with a direction in its settings. -/
def Engine.ask {F : Type} (E : Engine F σ β κ) (sense : Option Sense) : Engine F σ β κ :=
  { E with settings := { E.settings with sense } }

section Ask

variable {F : Type} [Extended F]

/-- Asking for the direction of the program is asking for none. -/
theorem check_ask (E : Engine F σ β κ) (hsense : E.settings.sense = none) :
    (E.ask (some E.sense)).check = E.check := by
  have hask : (E.ask (some E.sense)).checkSense = E.checkSense := by
    simp [Engine.checkSense, Engine.ask, Engine.sense, hsense]
  unfold Engine.check
  rw [hask]
  rfl

theorem step_ask (E : Engine F σ β κ) (sense : Option Sense) : step (E.ask sense) = step E := rfl

theorem run_ask (E : Engine F σ β κ) (sense : Option Sense) (steps : Nat) :
    run (E.ask sense) steps = run E steps := by
  induction steps with
  | zero => rfl
  | succ steps ih => rw [run, run, step_ask, ih]

/-- A search does not look at the direction in the settings. -/
theorem solve_ask (E : Engine F σ β κ) (sense : Option Sense) (steps : Nat) :
    solve (E.ask sense) steps = solve E steps := by
  rw [solve, solve, run_ask]
  rfl

theorem launch_ask (E : Engine F σ Unit Unit) (hsense : E.settings.sense = none) (w : σ)
    (steps : Nat) : (E.ask (some E.sense)).launch w steps = E.launch w steps := by
  unfold Engine.launch
  rw [check_ask E hsense, solve_ask]
  rfl

end Ask

end Search

/-! ## Standard searches -/

/-- The direction of a program has no part in whether it is accepted. -/
theorem MixedProgram.ofProgram_redirect (P : Program Exact) (sense : Sense) :
    MixedProgram.ofProgram { P with sense } =
      (MixedProgram.ofProgram P).map fun M => M.redirect (some sense) :=
  ofProgram_edit (f := fun P => { P with sense }) rfl rfl rfl

/-- The standard engine only hands the program on, to a relaxation and a strategy that do not mind
    the direction. -/
theorem Search.Engine.standard_symmetric (M : MixedProgram Exact) (candidates : List Nat)
    {settings : Settings Exact} (clock : SearchClock) (pivotClock pivotClock' : Simplex.PivotClock)
    (htime : settings.timeLimit = none) (hpivots : settings.relaxation.timeLimit = none) :
    (Search.Engine.standard M candidates settings clock pivotClock).Symmetric
      (Relaxation.simplex M.mirror settings.relaxation pivotClock') where
  solve := Relaxation.simplex_mirror M hpivots pivotClock pivotClock'
  select _ _ := rfl
  callbacks := rfl
  timeLimit := htime

/-- A program is searched in the direction that the settings ask for. -/
theorem MixedProgram.solve_eq {F : Type} [Extended F] (M : MixedProgram F) (candidates : List Nat)
    (settings : Settings F) (clock : SearchClock) (pivotClock : Simplex.PivotClock) (steps : Nat) :
    M.solve candidates settings clock pivotClock steps =
      (Search.Engine.standard (M.redirect settings.sense) candidates settings clock
        pivotClock).launch ⟨M.box, 0⟩ steps := rfl

/-- The search for the program in the other direction comes to the mirror image. -/
theorem MixedProgram.solve_mirror (M : MixedProgram Exact) (candidates : List Nat)
    {settings : Settings Exact} (hsense : settings.sense = none) (htime : settings.timeLimit = none)
    (hpivots : settings.relaxation.timeLimit = none) (clock clock' : SearchClock)
    (pivotClock pivotClock' : Simplex.PivotClock) (steps : Nat) :
    Search.Mirrored (M.solve candidates settings clock pivotClock steps)
      (M.mirror.solve candidates settings clock' pivotClock' steps) := by
  rw [solve_eq, solve_eq, hsense]
  exact Search.launch_mirror (Search.Engine.standard_symmetric M candidates clock pivotClock
    pivotClock' htime hpivots) hsense rfl M.vars_mirror clock' ⟨M.box, 0⟩ steps

/-- The direction may stand in the settings or in the program. -/
theorem MixedProgram.solve_redirect {F : Type} [Extended F] (M : MixedProgram F)
    (candidates : List Nat) {settings : Settings F} (hsense : settings.sense = none) (sense : Sense)
    (clock : SearchClock) (pivotClock : Simplex.PivotClock) (steps : Nat) :
    M.solve candidates { settings with sense := some sense } clock pivotClock steps =
      (M.redirect (some sense)).solve candidates settings clock pivotClock steps := by
  rw [solve_eq, solve_eq, hsense]
  exact Search.launch_ask (Search.Engine.standard (M.redirect (some sense)) candidates settings
    clock pivotClock) hsense ⟨M.box, 0⟩ steps

/-- Maximisation is minimisation of the negative cost: over exact scalars the program with the
    negative cost in the other direction is accepted as well, and the two searches come to the same,
    apart from the sign of objectives and bounds.  A direction in the settings counts as if it stood
    in the program. -/
theorem MixedProgram.solve_mirrored {P : Program Exact} {M : MixedProgram Exact}
    (hP : MixedProgram.ofProgram P = .ok M) (candidates : List Nat) (settings : Settings Exact)
    (hsense : settings.sense = none) (steps : Nat) :
    (settings.timeLimit = none → settings.relaxation.timeLimit = none →
      ∃ M', MixedProgram.ofProgram P.mirror = .ok M' ∧
        ∀ clock clock' pivotClock pivotClock',
          Search.Mirrored (M.solve candidates settings clock pivotClock steps)
            (M'.solve candidates settings clock' pivotClock' steps)) ∧
    ∀ sense, ∃ M', MixedProgram.ofProgram { P with sense } = .ok M' ∧
      ∀ clock pivotClock,
        M.solve candidates { settings with sense := some sense } clock pivotClock steps =
          M'.solve candidates settings clock pivotClock steps := by
  refine ⟨fun htime hpivots => ⟨M.mirror, ?_, fun clock clock' pivotClock pivotClock' => ?_⟩,
    fun sense => ⟨M.redirect (some sense), ?_, fun clock pivotClock => ?_⟩⟩
  · rw [ofProgram_mirror, hP]
    rfl
  · exact M.solve_mirror candidates hsense htime hpivots clock clock' pivotClock pivotClock' steps
  · rw [ofProgram_redirect, hP]
    rfl
  · exact M.solve_redirect candidates hsense sense clock pivotClock steps

/-- As much as possible of one good that comes in whole pieces and of which there is room for one
    and a half. -/
def pieces : Program Exact where
  cost := [.fin 1]
  matrix := ⟨1, 1, [[(0, .fin 2)]], rfl, by simp, by simp [Column.Sorted]⟩
  rhs := [.fin 3]
  blocks := [.atMost 1]
  bounds := some [⟨0, some (.fin 0), some (.fin 3)⟩]
  kinds := some [.integer]
  sense := .maximize

/-- The program of the pieces, checked. -/
def checkedPieces : MixedProgram Exact := ⟨pieces, [0], [], ⟨[.fin 0], [.fin 3]⟩⟩

theorem pieces_ok : MixedProgram.ofProgram pieces = .ok checkedPieces :=
  MixedProgram.ofProgram_ok (by decide +kernel) (by decide +kernel) (by decide +kernel)

/-- One piece fits, which is found after branching; the other search finds the same piece, at minus
    one. -/
theorem MixedProgram.solve_mirrored_pieces : ∃ M' solution solution' s s',
    MixedProgram.ofProgram pieces.mirror = .ok M' ∧
    checkedPieces.solve [0] Settings.standard (SearchClock.stopped ⟨0⟩) .still 4 =
      .ok (some solution) s ∧
    M'.solve [0] Settings.standard (SearchClock.stopped ⟨1⟩) .still 4 =
      .ok (some solution') s' ∧
    solution.statistics.branched = 1 ∧ solution'.statistics.branched = 1 ∧
    solution.incumbent.map (fun i => (i.x, i.objective)) = some ([.fin 1], .fin 1) ∧
    solution'.incumbent.map (fun i => (i.x, i.objective)) = some ([.fin 1], .fin (-1)) := by
  have hrun : Search.read? (fun solution _ => solution.map fun r =>
        (r.statistics.branched, r.incumbent.map fun i => (i.x, i.objective)))
      (checkedPieces.solve [0] Settings.standard (SearchClock.stopped ⟨0⟩) .still 4) =
        some (some (1, some ([.fin 1], .fin 1))) := by
    decide +kernel
  obtain ⟨outcome, s, hsolve, hread⟩ := Search.read?_eq_some hrun
  obtain ⟨solution, rfl, hvalue⟩ := Option.map_eq_some_iff.1 hread
  obtain ⟨hbranched, hincumbent⟩ := Prod.mk.inj hvalue
  obtain ⟨M', hM', hmirrored⟩ :=
    (MixedProgram.solve_mirrored pieces_ok [0] Settings.standard rfl 4).1 rfl rfl
  have hsame := hmirrored (SearchClock.stopped ⟨0⟩) (SearchClock.stopped ⟨1⟩) .still .still
  rw [hsolve] at hsame
  generalize hsolve' : M'.solve [0] Settings.standard (SearchClock.stopped ⟨1⟩) .still 4 = result
    at hsame
  cases hsame with
  | solved elapsed =>
    refine ⟨M', solution, _, s, _, hM', hsolve, hsolve', hbranched, hbranched, hincumbent, ?_⟩
    obtain ⟨i, hi, hvalues⟩ := Option.map_eq_some_iff.1 hincumbent
    obtain ⟨hx, hobjective⟩ := Prod.mk.inj hvalues
    simp [Solution.mirror, Incumbent.mirror, hi, hx, hobjective]

end Milp
