/-
  The statistics of a search count every node once.

  A node is counted when the decision about it is made, which is before it is closed; nodes that a
  new incumbent rules out are counted all at once and then closed one by one.  So what the counters
  say is the number of records, of nodes still to be closed for an incumbent, and of the decision
  just made.

  * `Tally`: the counters for closed nodes; `NodeStatus.tally?`: the one for a final status.
  * `Config.decided`: the final statuses given so far; `Config.Counted`: the counters count them.
  * `Config.Accounted`: the invariant; `Move.accounted`: every move keeps it.
  * `State.Balanced`: the balance of created nodes between two nodes.
  * `solve_balanced`: it holds before each node is taken, and in the statistics of every search.
-/
import Milp.Proofs.Bound
import Milp.Proofs.Chronicle

namespace Milp

variable {F σ β κ : Type}

/-! ## Counters -/

/-- The counters for closed nodes. -/
inductive Tally where
  | pruned
  | infeasible
  | unbounded
  | failed
  | branched
  deriving DecidableEq

/-- The counter for nodes with this status.  Accepted nodes are not counted. -/
def NodeStatus.tally? : NodeStatus → Option Tally
  | pruned .bound => some .pruned
  | pruned .infeasible | pruned .emptyDomain => some .infeasible
  | pruned .unbounded => some .unbounded
  | pruned .solverError => some .failed
  | branched => some .branched
  | _ => none

namespace Statistics

/-- Read a counter. -/
def read (t : Statistics F) : Tally → Nat
  | .pruned => t.pruned
  | .infeasible => t.infeasible
  | .unbounded => t.unbounded
  | .failed => t.solverErrors
  | .branched => t.branched

theorem read_count (status : NodeStatus) (t : Statistics F) (k : Tally) :
    (t.count status).read k = t.read k + [status].countP (·.tally? = some k) := by
  rcases status with _ | _ | reason | _ | _
  case pruned => cases reason <;> cases k <;> rfl
  all_goals cases k <;> rfl

end Statistics

/-- A list of final statuses, split by counters. -/
theorem NodeStatus.length_eq {statuses : List NodeStatus}
    (h : ∀ status ∈ statuses, status.isClosed = true) :
    statuses.length =
      statuses.countP (·.tally? = some .branched) + statuses.countP (·.tally? = some .pruned) +
      statuses.countP (·.tally? = some .infeasible) +
      statuses.countP (·.tally? = some .unbounded) + statuses.countP (·.tally? = some .failed) +
      statuses.countP (· = .accepted) := by
  induction statuses with
  | nil => rfl
  | cons status statuses ih =>
    obtain ⟨hstatus, hrest⟩ := List.forall_mem_cons.1 h
    have hone : [status].countP (·.tally? = some .branched) +
        [status].countP (·.tally? = some .pruned) + [status].countP (·.tally? = some .infeasible) +
        [status].countP (·.tally? = some .unbounded) + [status].countP (·.tally? = some .failed) +
        [status].countP (· = .accepted) = 1 := by
      rcases status with _ | _ | reason | _ | _
      case pruned => cases reason <;> rfl
      all_goals first | rfl | cases hstatus
    have hcons : ∀ p : NodeStatus → Bool,
        (status :: statuses).countP p = [status].countP p + statuses.countP p := fun p =>
      (List.countP_append : ([status] ++ statuses).countP p = _)
    simp only [hcons, List.length_cons, ih hrest]
    omega

namespace Search

/-- The decision that was just made. -/
def Stage.decision? : Stage F κ → Option NodeStatus
  | closing _ status => some status
  | _ => none

/-- The final statuses given so far: those of closed nodes, and those of nodes still to be closed. -/
def Config.decided (c : Config F σ β κ) : List NodeStatus :=
  c.state.records.map Record.status ++
    (c.doomed.map (fun _ => NodeStatus.pruned .bound) ++ c.stage.decision?.toList)

/-- The counters count the final statuses given. -/
def Config.Counted (c : Config F σ β κ) : Prop :=
  ∀ k, c.state.statistics.read k = c.decided.countP (·.tally? = some k)

theorem Config.Counted.of_perm {c c' : Config F σ β κ} (hc : c.Counted)
    (hread : ∀ k, c'.state.statistics.read k = c.state.statistics.read k)
    (hdecided : c'.decided.Perm c.decided) : c'.Counted := by
  intro k
  rw [hread, hc k, hdecided.countP_eq]

variable [Extended F] {E : Engine F σ β κ} {c c' : Config F σ β κ} {s : State F σ β κ}

/-- The decision is made once. -/
theorem Concludes.decision? {stage : Stage F κ} {id : NodeId} {status : NodeStatus}
    {events : List (Event F)} (h : Concludes E s stage id status events) :
    stage.decision? = none := by
  cases h <;> rfl

/-- A new incumbent is counted as such, and its node is not counted. -/
theorem Adopts.decision? {stage next : Stage F κ} {candidate : Incumbent F}
    (h : Adopts E s stage candidate next) (k : Tally) :
    stage.decision? = none ∧ next.decision?.toList.countP (·.tally? = some k) = 0 := by
  cases h <;> exact ⟨rfl, rfl⟩

/-- Closing the current node makes no decision. -/
theorem Config.decided_closed (E : Engine F σ β κ) (s : State F σ β κ) (id : NodeId)
    (node : Node F) (status : NodeStatus) (tree : Tree F) :
    (Config.idle (s.closed E node status tree)).decided.Perm
      (Config.decided ⟨.closing id status, [], s⟩) := by
  show ((status :: s.records.map Record.status) ++ []).Perm
    (s.records.map Record.status ++ [status])
  rw [List.append_nil]
  exact (List.perm_append_singleton _ _).symm

/-- Every decision is counted once. -/
theorem Move.counted (h : Move E c c') (hc : c.Counted) : c'.Counted := by
  cases h with
  | @remark stage doomed s event h =>
    refine hc.of_perm (fun _ => rfl) ?_
    rw [Config.decided, State.records_logged h]
    rfl
  | take => exact hc.of_perm (fun k => by cases k <;> rfl) (.refl _)
  | @conclude s stage id status events h =>
    intro k
    have hbefore : s.statistics.read k =
        (s.records.map Record.status).countP (·.tally? = some k) := by
      simpa [Config.decided, h.decision?] using hc k
    show (s.statistics.count status).read k = _
    rw [Statistics.read_count, hbefore, ← List.countP_append, Config.decided, h.records_eq]
    rfl
  | relax | record | select => exact hc.of_perm (fun _ => rfl) (.refl _)
  | @offer s id r answer callback left node shown proposal callbacks hnode hanswer hsolved =>
    rcases proposal with _ | p
    · exact hc.of_perm (fun _ => rfl) (.refl _)
    · exact hc.of_perm (fun _ => rfl) (.refl _)
  | refuse => exact hc.of_perm (fun k => by cases k <;> rfl) (.refl _)
  | @adopt s stage candidate next tracker pruned frontier h hupdate hprune =>
    intro k
    obtain ⟨hstage, hnext⟩ := h.decision? k
    have hbefore : s.statistics.read k =
        (s.records.map Record.status).countP (·.tally? = some k) := by
      simpa [Config.decided, hstage] using hc k
    have hpruned : (s.adopted tracker frontier pruned.length).statistics.read k =
        s.statistics.read k +
          (pruned.map fun _ => NodeStatus.pruned .bound).countP (·.tally? = some k) := by
      rw [List.map_const', List.countP_replicate]
      cases k <;> rfl
    have hsplit : ∀ statuses, (statuses ++ next.decision?.toList).countP (·.tally? = some k) =
        statuses.countP (·.tally? = some k) := fun statuses => by
      rw [List.countP_append, hnext, Nat.add_zero]
    rw [hpruned, hbefore, ← List.countP_append, Config.decided, ← List.append_assoc, hsplit]
    rfl
  | @sweep s stage key doomed node tree released hnode hclose =>
    exact hc.of_perm (fun _ => rfl) List.perm_middle.symm
  | spawn => exact hc.of_perm (fun k => by cases k <;> rfl) (.refl _)
  | close => exact hc.of_perm (fun _ => rfl) (Config.decided_closed ..)

/-! ## The balance of created nodes -/

/-- All counters are right: those for closed nodes, and those of tree and frontier. -/
structure Config.Accounted (c : Config F σ β κ) : Prop where
  chronicled : c.Chronicled
  counted : c.Counted
  closed : ∀ record ∈ c.state.records, record.status.isClosed = true
  added_eq : c.state.frontier.added = c.state.statistics.created
  popped_eq : c.state.frontier.popped = c.state.statistics.processed

theorem Move.accounted (h : Move E c c') (hc : c.Accounted) : c'.Accounted := by
  have hchronicled := h.chronicled hc.chronicled
  have hcounted := h.counted hc.counted
  have hclosed : ∀ record ∈ c'.state.records, record.status.isClosed = true := by
    cases h.effect hc.chronicled.tidy.coherent hc.chronicled.calm with
    | keeps _ _ _ _ hrecords | spawns _ _ _ hrecords => exact hrecords ▸ hc.closed
    | closes _ _ hclose _ _ hrecords =>
      rw [hrecords]
      exact List.forall_mem_cons.2 ⟨(Tree.close_eq hclose).1, hc.closed⟩
  obtain ⟨-, -, -, added_eq, popped_eq⟩ := hc
  cases h with
  | take hpop =>
    obtain ⟨hadded, hpopped⟩ := Frontier.pop?_counts hpop
    exact ⟨hchronicled, hcounted, hclosed, hadded.trans added_eq,
      hpopped.trans (congrArg (· + 1) popped_eq)⟩
  | conclude =>
    exact ⟨hchronicled, hcounted, hclosed, added_eq.trans (Statistics.count_created ..).symm,
      popped_eq.trans (Statistics.count_processed ..).symm⟩
  | adopt h hupdate hprune =>
    obtain ⟨hadded, hpopped⟩ := Frontier.pruneByBound_counts hprune
    exact ⟨hchronicled, hcounted, hclosed, hadded.trans added_eq, hpopped.trans popped_eq⟩
  | spawn =>
    exact ⟨hchronicled, hcounted, hclosed, congrArg (· + 1) added_eq, popped_eq⟩
  | _ => exact ⟨hchronicled, hcounted, hclosed, added_eq, popped_eq⟩

theorem Moves.accounted (h : Moves E c c') (hc : c.Accounted) : c'.Accounted := by
  induction h with
  | refl => exact hc
  | tail _ hmove ih => exact hmove.accounted ih

theorem Config.accounted_initial (E : Engine F σ β κ) (relaxation : σ) (strategy : β)
    (callbacks : κ) : (Config.idle (State.initial E relaxation strategy callbacks)).Accounted where
  chronicled := Config.chronicled_initial E relaxation strategy callbacks
  counted := fun k => by cases k <;> rfl
  closed := fun _ h => nomatch h
  added_eq := rfl
  popped_eq := rfl

omit [Extended F] in
/-- The accepted nodes among those that were closed. -/
theorem State.countP_accepted (s : State F σ β κ) :
    s.trace.countP (fun record => record.status = .accepted) =
      (s.records.map Record.status).countP (· = .accepted) := by
  rw [State.trace, (List.reverse_perm _).countP_eq, List.countP_map]
  rfl

/-- Every node created is counted once: by a counter, as accepted, or as pending. -/
structure State.Balanced (s : State F σ β κ) : Prop where
  balance : s.statistics.created =
    s.statistics.branched + s.statistics.pruned + s.statistics.infeasible +
      s.statistics.unbounded + s.statistics.solverErrors +
      s.trace.countP (fun record => record.status = .accepted) + s.frontier.size
  created_eq : s.statistics.created = s.tree.created
  added_eq : s.statistics.created = s.frontier.added
  processed_eq : s.statistics.processed = s.frontier.popped

theorem Config.Accounted.balanced (hc : (Config.idle s).Accounted) : s.Balanced where
  balance := by
    have hstatuses : ∀ status ∈ s.records.map Record.status, status.isClosed = true := by
      intro status hstatus
      obtain ⟨record, hrecord, rfl⟩ := List.mem_map.1 hstatus
      exact hc.closed record hrecord
    have hlength := NodeStatus.length_eq hstatuses
    have hcounted : ∀ k, s.statistics.read k =
        (s.records.map Record.status).countP (·.tally? = some k) := fun k => by
      simpa [Config.decided, Config.idle, Stage.decision?] using hc.counted k
    simp only [← hcounted, List.length_map, ← State.countP_accepted] at hlength
    -- the nodes created are those with a record and those in the frontier
    have hsplit : s.statistics.created = s.records.length + s.frontier.size := by
      have hperm := hc.chronicled.perm_idle.length_eq
      rw [List.length_append, List.length_map, List.length_map, List.length_range] at hperm
      exact hperm.symm.trans (congrArg _ Array.length_toList)
    rw [hsplit, hlength]
    rfl
  created_eq := hc.chronicled.count_eq
  added_eq := hc.added_eq.symm
  processed_eq := hc.popped_eq.symm

/-- Summing up changes no counter. -/
theorem State.Balanced.of_summary {s' : State F σ β κ} {status : SearchStatus}
    {solution : Solution F} (h : s.Balanced) (hsummary : Summary E s s' status solution) :
    s'.Balanced := by
  obtain rfl := hsummary.final_eq
  exact {
    balance := h.balance
    created_eq := h.created_eq
    added_eq := h.added_eq
    processed_eq := h.processed_eq }

/-- **The balance of nodes.**  Whatever the relaxation, the strategy and the callbacks do, every node
    created is counted once, before each node is taken and in the statistics of every search. -/
theorem solve_balanced {steps : Nat} {start : σ} {strategy : β} {callbacks : κ}
    {outcome : Option (Solution F)}
    (h : (solve E steps).run (State.initial E start strategy callbacks) = .ok outcome s) :
    s.Balanced ∧ ∀ solution, outcome = some solution →
      solution.statistics = s.statistics ∧ solution.statistics.pending = s.frontier.size := by
  obtain ⟨s₁, hmoves, hend⟩ := solve_ok h
  have hbalanced :=
    (Moves.accounted hmoves (Config.accounted_initial E start strategy callbacks)).balanced
  rcases hend with ⟨rfl, rfl⟩ | ⟨status, solution, rfl, hsummary⟩
  · exact ⟨hbalanced, fun _ h => nomatch h⟩
  · refine ⟨hbalanced.of_summary hsummary, fun solution' hsolution => ?_⟩
    cases hsolution
    obtain rfl := hsummary.final_eq
    exact ⟨hsummary.statistics_eq, congrArg Statistics.pending hsummary.statistics_eq⟩

/-- The search for the cheapest choice has created five nodes when it is stopped: two are branched
    on, one failed, and two are pending. -/
theorem solve_balanced_choice : ∃ solution s,
    (solve choiceSearch 4).run (State.initial choiceSearch () () ()) = .ok (some solution) s ∧
      s.Balanced ∧ solution.statistics = s.statistics ∧
      (s.statistics.created, s.statistics.branched, s.statistics.solverErrors, s.frontier.size) =
        (5, 2, 1, 2) := by
  have hrun : read? (fun solution s => (solution.isSome, s.statistics.created,
        s.statistics.branched, s.statistics.solverErrors, s.frontier.size))
      ((solve choiceSearch 4).run (State.initial choiceSearch () () ())) =
        some (true, 5, 2, 1, 2) := by
    decide +kernel
  obtain ⟨outcome, s, hsolve, hread⟩ := read?_eq_some hrun
  obtain ⟨hsome, hcounts⟩ := Prod.mk.inj hread
  obtain ⟨solution, rfl⟩ := Option.isSome_iff_exists.1 hsome
  obtain ⟨hbalanced, hstatistics⟩ := solve_balanced hsolve
  exact ⟨solution, s, hsolve, hbalanced, (hstatistics solution rfl).1, hcounts⟩

end Search

end Milp
