/-
  What a search says of the program: soundness of its answers, in exact arithmetic.

  A point that satisfies the program and is whole on the candidates is never lost: as long as the
  relaxation is right about the regions it is asked about, the point lies in the region of an open
  node whose bound does not exceed its objective, or the incumbent is as good within the tolerance,
  or some node was closed without proof.

  * `Relaxation.Sound`: what is assumed of the relaxation.
  * `Covered`: the invariant; `Move.covered`: every move keeps it.
  * `solve_sound`: what follows from it for each way in which a search can end.
-/
import Milp.Proofs.Branching
import Milp.Proofs.Configuration
import Milp.Proofs.Dichotomy
import Milp.Proofs.Program
import Milp.Proofs.Provenance
import Milp.Proofs.Scalar.Exact

namespace Milp

variable {σ β κ : Type}

/-- A point satisfies the program exactly and is whole on the candidates. -/
structure MixedProgram.Solves (M : MixedProgram Exact) (candidates : List Nat)
    (p : List Exact) : Prop where
  finite : p.all Scalar.isFinite = true
  feasible : M.feasible p 0 = .ok true
  whole : ∀ var ∈ candidates, ∃ z : Int, p[var]? = some (.fin z)

/-- A point lies in the region of some restrictions. -/
def Restrictions.Admits (r : Restrictions Exact) (p : List Exact) : Prop :=
  ∀ var i, r.get? var = some i → ∃ x, p[var]? = some x ∧ i.lower ≤ x ∧ x ≤ i.upper

/-- The objective of a point, in minimisation. -/
def MixedProgram.value (M : MixedProgram Exact) (p : List Exact) : Exact :=
  M.lp.sense.normalize (M.objective p)

/-- A relaxation is right about the points that satisfy the program and are whole on the
    candidates: where it finds nothing there are none of them, and an optimal objective is a bound on
    theirs. -/
structure Relaxation.Sound (R : Relaxation Exact σ) (start : σ) (M : MixedProgram Exact)
    (candidates : List Nat) : Prop where
  infeasible : ∀ {s r reply}, R.Visited start s → R.solve s r = .ok reply →
    reply.answer = .infeasible → ∀ p, M.Solves candidates p → ¬ r.Admits p
  optimal : ∀ {s r reply x objective}, R.Visited start s → R.solve s r = .ok reply →
    reply.answer = .optimal x objective → ∀ p, M.Solves candidates p → r.Admits p →
      M.lp.sense.normalize objective ≤ M.value p

/-! ## Regions -/

variable {p : List Exact}

/-- A point of a region lies in the effective interval of every variable of the program. -/
theorem effective_of_admits {M : MixedProgram Exact} {candidates : List Nat}
    {r : Restrictions Exact} {var : Nat} {i : Interval Exact} {x : Exact}
    (hp : M.Solves candidates p) (h : r.Admits p)
    (hi : M.box.interval var = .ok i) (hx : p[var]? = some x) :
    (r.effective var i).lower ≤ x ∧ x ≤ (r.effective var i).upper := by
  have hbounds : i.lower ≤ x ∧ x ≤ i.upper := by
    have hfeasible := hp.feasible
    unfold MixedProgram.feasible at hfeasible
    split at hfeasible
    · rename_i hshape
      simp only [Bool.and_eq_true, decide_eq_true_eq] at hshape
      obtain ⟨hlower, hupper⟩ := Box.interval_eq_ok.1 hi
      have hmem : (x, i.lower, i.upper) ∈ p.zip (M.box.lower.zip M.box.upper) :=
        List.mem_of_getElem? (i := var) (by simp [List.getElem?_zip_eq_some, hx, hlower, hupper])
      simpa [Exact.zero_eq] using List.all_eq_true.1 hshape.2 _ hmem
    · cases hfeasible
  unfold Restrictions.effective
  split
  · rename_i j hj
    obtain ⟨x', hx', hlower, hupper⟩ := h var j hj
    cases hx.symm.trans hx'
    constructor
    · rcases Scalar.max_choice i.lower j.lower with heq | heq <;> simp only [Interval.cut, heq]
      · exact hbounds.1
      · exact hlower
    · rcases Scalar.min_choice i.upper j.upper with heq | heq <;> simp only [Interval.cut, heq]
      · exact hbounds.2
      · exact hupper
  · exact hbounds

/-- A restriction more, which the point satisfies. -/
theorem Restrictions.Admits.set {r : Restrictions Exact} {var : Nat} {i : Interval Exact}
    {x : Exact} (h : r.Admits p) (hx : p[var]? = some x) (hlower : i.lower ≤ x)
    (hupper : x ≤ i.upper) : (r.set var i).Admits p := by
  intro other j hj
  rw [Restrictions.get?_set] at hj
  split at hj
  · subst_vars
    cases hj
    exact ⟨x, hx, hlower, hupper⟩
  · exact h other j hj

/-- Branching loses no point that is whole on the candidates: it lies in one of the children. -/
theorem child_of_splits {M : MixedProgram Exact} {candidates : List Nat} {r : Restrictions Exact}
    {q : BranchQuery Exact} {d : Decision Exact} {interval : Interval Exact}
    (hp : M.Solves candidates p) (hq : q.candidates = candidates)
    (hbox : r.applyTo M.box = .ok q.box) (hx : q.x.all Scalar.isFinite = true)
    (hsplits : q.Splits d interval) (hadmits : r.Admits p) :
    ∃ change ∈ d.children, (r.set change.var change.new).Admits p := by
  obtain ⟨z, hz⟩ := hp.whole d.var (hq ▸ hsplits.mem)
  obtain ⟨w, hw⟩ := Exact.isFinite_iff.1
    (List.all_eq_true.1 hx _ (List.mem_of_getElem? hsplits.value))
  obtain ⟨i, hi, rfl⟩ := Restrictions.interval_of_applyTo hbox hsplits.box
  have hhas : (r.effective d.var i).Has (.fin z) :=
    Interval.has_iff.2 (effective_of_admits hp hadmits hi hz)
  -- the value of the point is a whole number, so it is on one side of the value branched at
  rw [hsplits.eq]
  rcases Decision.half_has d.var d.score (Exact.toRat?_eq_some.2 hw) hhas with hhalf | hhalf <;>
    obtain ⟨hlower, hupper⟩ := Interval.has_iff.1 hhalf
  · exact ⟨_, Decision.mem_children List.mem_cons_self hhalf, hadmits.set hz hlower hupper⟩
  · exact ⟨_, Decision.mem_children (List.mem_cons_of_mem _ (List.mem_singleton_self _)) hhalf,
      hadmits.set hz hlower hupper⟩

namespace Search

variable {E : Engine Exact σ β κ} {c c' : Config Exact σ β κ} {s : State Exact σ β κ}
  {start : σ}

/-! ## Answers -/

/-- A region that is answered to be infeasible has no solution. -/
theorem Engine.Answers.not_admits {r : Restrictions Exact}
    (hsound : E.relaxation.Sound start E.problem E.candidates) (h : E.Answers start r .infeasible)
    (hp : E.problem.Solves E.candidates p) : ¬ r.Admits p := by
  obtain ⟨s, reply, hvisited, hsolve, hanswer⟩ := h
  exact hsound.infeasible hvisited hsolve (Answer.check_eq_infeasible hanswer.symm) p hp

/-- No solution in a region is better than the answer for it. -/
theorem Engine.Answers.le_value {r : Restrictions Exact} {x : List Exact} {objective : Exact}
    (hsound : E.relaxation.Sound start E.problem E.candidates)
    (h : E.Answers start r (.optimal x objective)) (hp : E.problem.Solves E.candidates p)
    (hadmits : r.Admits p) : E.sense.normalize objective ≤ E.problem.value p := by
  obtain ⟨s, reply, hvisited, hsolve, hanswer⟩ := h
  exact hsound.optimal hvisited hsolve (Answer.check_eq_optimal hanswer.symm).1 p hp hadmits

theorem normalized_of_best {F : Type} [Extended F] {t : Tracker F} {i : Incumbent F}
    (h : t.best = some i) : t.normalized = t.sense.normalize i.objective := by
  rw [Tracker.normalized, Tracker.objective, h]

/-- A proposal that passes its check has a finite objective. -/
theorem finite_of_passes {M : MixedProgram Exact} {candidates : List Nat} {tracker : Tracker Exact}
    {settings : Settings Exact} {q : Proposal Exact} {objective : Exact} (hM : M.lp.Valid)
    (h : q.Passes M candidates tracker settings objective) :
    Scalar.isFinite objective = true := by
  obtain ⟨v, hv⟩ := Exact.dot_fin hM.finite.1 h.finite.2
  rw [h.improves.1, Exact.isFinite_iff]
  exact ⟨v, hv⟩

/-- An incumbent has a finite objective. -/
theorem Engine.Earned.finite {i : Incumbent Exact} (hM : E.problem.lp.Valid)
    (h : E.Earned start i) : Scalar.isFinite i.objective = true := by
  cases h with
  | relaxation h => exact h.finite.2.1
  | heuristic _ h => exact finite_of_passes hM h

/-! ## The covering invariant -/

/-- The point lies in the region of a node whose bound does not exceed its objective. -/
def Tree.Covers (t : Tree Exact) (id : NodeId) (p : List Exact) (value : Exact) : Prop :=
  ∃ r node, t.restrictions id = .ok r ∧ t.get? id = some node ∧ r.Admits p ∧ node.dualBound ≤ value

/-- The point is covered by the current node, or by a child of it that is still to be created. -/
def Stage.Covers (t : Tree Exact) (p : List Exact) (value : Exact) : Stage Exact κ → Prop
  | idle | closing .. => False
  | opened id | relaxed id .. | consulting id .. | weighing id .. => Tree.Covers t id p value
  | splitting id _ left => ∃ r node, ∃ change ∈ left, t.restrictions id = .ok r ∧
      t.get? id = some node ∧ (r.set change.var change.new).Admits p ∧ node.dualBound ≤ value

/-- The incumbent is as good as the point, within the tolerance. -/
def State.Beats (E : Engine Exact σ β κ) (s : State Exact σ β κ) (value : Exact) : Prop :=
  s.tracker.hasIncumbent = true ∧ s.tracker.normalized - E.settings.tolerance ≤ value

/-- The point is not lost. -/
inductive Covered (E : Engine Exact σ β κ) (p : List Exact) (c : Config Exact σ β κ) : Prop where
  | waiting (key : NodeKey Exact) (hkey : key ∈ c.state.frontier.keys)
      (h : Tree.Covers c.state.tree key.id p (E.problem.value p))
  | current (h : c.stage.Covers c.state.tree p (E.problem.value p))
  | beaten (h : c.state.Beats E (E.problem.value p))
  | incomplete (h : c.state.incomplete = true)

theorem Tree.Covers.of_eq {t t' : Tree Exact} {id : NodeId} {value : Exact}
    (h : Tree.Covers t id p value) (hget : t'.get? id = t.get? id)
    (hr : t'.restrictions id = t.restrictions id) : Tree.Covers t' id p value := by
  obtain ⟨r, node, hrestrictions, hnode, hrest⟩ := h
  exact ⟨r, node, hr.trans hrestrictions, hget.trans hnode, hrest⟩

theorem Stage.Covers.of_eq {t t' : Tree Exact} {stage : Stage Exact κ} {value : Exact}
    (h : stage.Covers t p value) (heq : ∀ id, stage.current? = some id →
      t'.get? id = t.get? id ∧ t'.restrictions id = t.restrictions id) :
    stage.Covers t' p value := by
  cases stage with
  | idle | closing => exact h
  | splitting id => simpa only [Stage.Covers, heq id rfl] using h
  | opened id | relaxed id | consulting id | weighing id =>
    exact Tree.Covers.of_eq h (heq id rfl).1 (heq id rfl).2

/-- The open nodes that are left cover what they covered before. -/
theorem Covered.of_keep (h : Covered E p c)
    (hkeys : c'.state.frontier.keys = c.state.frontier.keys)
    (hstage : ∀ t, c.stage.Covers t p (E.problem.value p) → c'.stage.Covers t p (E.problem.value p))
    (hkeep : ∀ id ∈ c'.openIds, c'.state.tree.get? id = c.state.tree.get? id ∧
      c'.state.tree.restrictions id = c.state.tree.restrictions id)
    (htracker : c'.state.tracker = c.state.tracker)
    (hincomplete : c'.state.incomplete = c.state.incomplete) : Covered E p c' := by
  cases h with
  | waiting key hkey h =>
    have hopen : key.id ∈ c'.openIds := by
      refine List.mem_append_left _ (List.mem_map_of_mem (List.mem_append_left _ ?_))
      rwa [hkeys]
    exact .waiting key (hkeys ▸ hkey) (h.of_eq (hkeep _ hopen).1 (hkeep _ hopen).2)
  | current h =>
    refine .current ((hstage _ h).of_eq fun id hid => hkeep id ?_)
    exact List.mem_append_right _ (Option.mem_toList.2 hid)
  | beaten h => exact .beaten (by unfold State.Beats at h ⊢; rwa [htracker])
  | incomplete h => exact .incomplete (hincomplete.trans h)

/-! ## Decisions -/

/-- What the bound of a node rules out, the incumbent beats. -/
theorem beats_of_dominates {node : Node Exact} {value : Exact}
    (h : s.dominates node E.settings.tolerance = true) (hbound : node.dualBound ≤ value) :
    s.Beats E value := by
  simp only [State.dominates, Node.canPrune, Bool.and_eq_true, decide_eq_true_eq] at h
  exact ⟨h.1, Exact.le_trans h.2 hbound⟩

/-- A tolerance that is accepted is a rational that is not negative. -/
theorem tolerance_eq (hE : E.Checked) : ∃ t : Rat, E.settings.tolerance = .fin t ∧ 0 ≤ t := by
  obtain ⟨hfinite, hneg⟩ := hE.settings.tolerance
  obtain ⟨t, ht⟩ := Exact.isFinite_iff.1 hfinite
  rw [ht, Exact.zero_eq, Exact.fin_lt_fin, not_lt] at hneg
  exact ⟨t, ht, hneg⟩

/-- A region with a point in it has no empty domain. -/
theorem emptyDomain?_eq_none (hE : E.Checked) {r : Restrictions Exact} (h : r.Admits p) :
    r.emptyDomain? E.settings.tolerance = none := by
  obtain ⟨t, ht, hnonneg⟩ := tolerance_eq hE
  simp only [Restrictions.emptyDomain?, Option.map_eq_none_iff, List.find?_eq_none,
    decide_eq_true_eq]
  rintro ⟨var, i⟩ hmem
  obtain ⟨x, -, hlower, hupper⟩ := h var i (r.mem_entries.1 hmem)
  rw [ht]
  exact Exact.not_lt_of_le (Exact.le_add (Exact.le_trans hlower hupper) hnonneg)

/-- A point that the tracker refuses is no better than the incumbent. -/
theorem beats_of_refused {id : NodeId} {x : List Exact} {objective value : Exact}
    (hE : E.Checked) (hsense : s.tracker.sense = E.sense)
    (hbest : ∀ i, s.tracker.best = some i → Scalar.isFinite i.objective = true)
    (hfinite : Scalar.isFinite objective = true)
    (hupdate : s.tracker.update? (s.found id x objective) E.settings.tolerance = none)
    (hvalue : E.sense.normalize objective ≤ value) : s.Beats E value := by
  obtain ⟨t, ht, -⟩ := tolerance_eq hE
  have hnot : s.tracker.improves objective E.settings.tolerance = false := by
    unfold Tracker.update? at hupdate
    split at hupdate
    · cases hupdate
    · rename_i hnot
      simpa [State.found] using hnot
  rcases hincumbent : s.tracker.best with _ | i
  · rw [Tracker.improves, hincumbent] at hnot
    simp [hfinite] at hnot
  · refine ⟨by simp [Tracker.hasIncumbent, hincumbent], Exact.le_trans ?_ hvalue⟩
    obtain ⟨v, hv⟩ := Exact.isFinite_iff.1 (hbest i hincumbent)
    obtain ⟨w, hw⟩ := Exact.isFinite_iff.1 hfinite
    obtain ⟨v', hv'⟩ := Exact.normalize_fin E.sense v
    obtain ⟨w', hw'⟩ := Exact.normalize_fin E.sense w
    rw [Tracker.improves, hincumbent] at hnot
    simp only [Sense.better, hsense, hv, hw, hv', hw', ht, Exact.fin_sub_fin, Exact.fin_lt_fin,
      decide_eq_false_iff_not, not_lt] at hnot
    simpa [Tracker.normalized, Tracker.objective, hincumbent, hsense, hv, hv', hw, hw', ht]
      using hnot

/-- Whatever is decided about a node, the points that it covers are not lost. -/
theorem Concludes.covered {stage : Stage Exact κ} {id : NodeId} {status : NodeStatus}
    {events : List (Event Exact)} (hE : E.Checked) (hM : E.problem.lp.Valid)
    (hsound : E.relaxation.Sound start E.problem E.candidates)
    (hp : E.problem.Solves E.candidates p) (hc : Config.Traced E start ⟨stage, [], s⟩)
    (h : Concludes E s stage id status events)
    (hcovers : stage.Covers s.tree p (E.problem.value p)) :
    s.Beats E (E.problem.value p) ∨ status.isUnproven = true := by
  cases h with
  | dominated hnode h | bounded hnode h =>
    obtain ⟨r, node', -, hnode', -, hbound⟩ := hcovers
    cases hnode.symm.trans hnode'
    exact .inl (beats_of_dominates h hbound)
  | emptyDomain hr h =>
    obtain ⟨r', node, hr', -, hadmits, -⟩ := hcovers
    cases hr.symm.trans hr'
    rw [emptyDomain?_eq_none hE hadmits] at h
    cases h
  | failed | unbounded => exact .inr rfl
  | infeasible =>
    obtain ⟨r', node, hr', -, hadmits, -⟩ := hcovers
    cases hc.coherent.fits.1.symm.trans hr'
    exact absurd hadmits (Engine.Answers.not_admits hsound hc.stage.1 hp)
  | refused h hwhole hupdate =>
    obtain ⟨r', node, hr', -, hadmits, -⟩ := hcovers
    obtain ⟨rfl, hr⟩ := hc.coherent.survives h
    cases hr.symm.trans hr'
    have hanswer := hc.stage.1
    exact .inl (beats_of_refused hE hc.sense (fun i hi => (hc.incumbent i hi).finite hM)
      hanswer.finite.2.1 hupdate (hanswer.le_value hsound hp hadmits))
  | barren | branched =>
    obtain ⟨r, node, change, hmem, -⟩ := hcovers
    cases hmem

/-- What a new incumbent is at least as good as, and what the old one beat, it beats. -/
theorem beats_of_adopted {candidate : Incumbent Exact} {tracker : Tracker Exact}
    (frontier : Frontier Exact) (pruned : Nat) (value : Exact) (hE : E.Checked)
    (hsense : s.tracker.sense = E.sense)
    (hupdate : s.tracker.update? candidate E.settings.tolerance = some tracker)
    (h : s.Beats E value ∨ E.sense.normalize candidate.objective ≤ value) :
    (s.adopted tracker frontier pruned).Beats E value := by
  obtain ⟨t, ht, hnonneg⟩ := tolerance_eq hE
  obtain ⟨hsame, hbest, himproves⟩ := update?_eq_some hupdate
  have hnormalized : tracker.normalized = E.sense.normalize candidate.objective := by
    rw [normalized_of_best hbest, hsame, hsense]
  refine ⟨by simp [State.adopted, Tracker.hasIncumbent, hbest], ?_⟩
  simp only [State.adopted, hnormalized, ht]
  refine Exact.sub_le ?_ hnonneg
  rcases h with ⟨hhas, hvalue⟩ | h
  · obtain ⟨i, hi⟩ := Option.isSome_iff_exists.1 hhas
    rw [Tracker.improves, hi] at himproves
    simp only [Sense.better, hsense, decide_eq_true_eq] at himproves
    rw [normalized_of_best hi, hsense] at hvalue
    exact Exact.le_trans (Exact.le_of_lt himproves) hvalue
  · exact h

/-! ## Moves -/

/-- Asking a callback changes nothing about what the current node covers. -/
theorem Stage.covers_offered {t : Tree Exact} {id : NodeId} {r : Restrictions Exact}
    {answer : Answer Exact} {left : Callbacks Exact κ} {name : String}
    {proposal : Option (Proposal Exact)} {value : Exact} (h : Tree.Covers t id p value) :
    (Stage.offered id r answer left name proposal).Covers t p value := by
  cases proposal <;> exact h

/-- After its answer was recorded, the current node covers the points that it covered before. -/
theorem covers_of_recorded {id : NodeId} {r : Restrictions Exact} {answer : Answer Exact}
    {before node : Node Exact} (hsound : E.relaxation.Sound start E.problem E.candidates)
    (hp : E.problem.Solves E.candidates p)
    (hc : Config.Traced E start ⟨.relaxed id r answer, [], s⟩)
    (hbefore : s.tree.get? id = some before)
    (hrecord : before.record? answer (E.sense.normalize (answer.objective?.getD Extended.nan)) =
      some node)
    (h : Tree.Covers s.tree id p (E.problem.value p)) :
    Tree.Covers (s.tree.modify id fun _ => node) id p (E.problem.value p) := by
  obtain ⟨r', node', hr', hnode', hadmits, hbound⟩ := h
  cases hc.coherent.fits.1.symm.trans hr'
  cases hbefore.symm.trans hnode'
  refine ⟨r, node, ?_, by rw [Tree.get?_modify, if_pos rfl, hbefore]; rfl, hadmits, ?_⟩
  · rw [(hc.coherent.keep_of_recorded hbefore hrecord hbefore).2, hr']
  · rw [(record?_spec hrecord).2.2.2.2.2]
    cases answer with
    | optimal x objective =>
      simp only [Answer.isOptimal, if_true, Answer.objective?, Option.getD_some]
      rcases Scalar.max_choice before.dualBound (E.sense.normalize objective) with heq | heq
      · rwa [heq]
      · rw [heq]
        exact Engine.Answers.le_value hsound hc.stage hp hadmits
    | _ => exact hbound

/-- A new incumbent: what it rules out it beats. -/
theorem Covered.adopt {stage next : Stage Exact κ} {candidate : Incumbent Exact}
    {tracker : Tracker Exact} {pruned : List (NodeKey Exact)} {frontier : Frontier Exact}
    (hE : E.Checked) (hsound : E.relaxation.Sound start E.problem E.candidates)
    (hp : E.problem.Solves E.candidates p) (hc : Config.Traced E start ⟨stage, [], s⟩)
    (h : Adopts E s stage candidate next)
    (hupdate : s.tracker.update? candidate E.settings.tolerance = some tracker)
    (hprune : s.frontier.pruneByBound tracker.normalized E.settings.tolerance = (pruned, frontier))
    (hcovered : Covered E p ⟨stage, [], s⟩) :
    Covered E p ⟨next, pruned, s.adopted tracker frontier pruned.length⟩ := by
  have hbeats := beats_of_adopted frontier pruned.length (E.problem.value p) hE hc.sense
    hupdate
  cases hcovered with
  | waiting key hkey h' =>
    rcases List.mem_append.1 ((Frontier.pruneByBound_keys hprune).mem_iff.1 hkey) with hkey | hkey
    · -- the node was ruled out by the new incumbent
      obtain ⟨r, node, -, hnode, -, hbound⟩ := h'
      obtain ⟨node', hnode', -, -, hkeyBound, -⟩ := hc.coherent.holds key (by
        simpa [Config.waiting] using
          (Frontier.pruneByBound_keys hprune).mem_iff.2 (List.mem_append_left _ hkey))
      cases hnode.symm.trans hnode'
      have hbest := (update?_eq_some hupdate).2.1
      refine .beaten ⟨by simp [State.adopted, Tracker.hasIncumbent, hbest],
        Exact.le_trans (Frontier.prunable_of_mem_pruned hprune hkey) (hkeyBound ▸ hbound)⟩
    · exact .waiting key hkey h'
  | current h' =>
    cases h with
    | proposed => exact .current h'
    | accepted h hwhole =>
      obtain ⟨r', node, hr', -, hadmits, -⟩ := h'
      obtain ⟨rfl, hr⟩ := hc.coherent.survives h
      cases hr.symm.trans hr'
      exact .beaten (hbeats (.inr (hc.stage.1.le_value hsound hp hadmits)))
  | beaten h' => exact .beaten (hbeats (.inl h'))
  | incomplete h' => exact .incomplete h'

/-- A new child covers what its change admits. -/
theorem Covered.spawn {id child : NodeId} {d : Decision Exact} {change : BoundChange Exact}
    {left : List (BoundChange Exact)} {tree : Tree Exact} {node : Node Exact}
    (hc : Config.Coherent ⟨.splitting id d (change :: left), [], s⟩)
    (hcreate : s.tree.createChild id change = .ok (tree, child))
    (hnode : tree.get? child = some node)
    (hcovered : Covered E p ⟨.splitting id d (change :: left), [], s⟩) :
    Covered E p ⟨.splitting id d left, [], s.spawned tree node⟩ := by
  have hkeys := Frontier.pushNode_keys s.frontier node
  have hkeep : ∀ {other n}, s.tree.get? other = some n →
      tree.get? other = s.tree.get? other ∧ tree.restrictions other = s.tree.restrictions other :=
    fun hn => hc.keep_of_spawned hcreate hn
  cases hcovered with
  | waiting key hkey h =>
    have hcovers := h
    obtain ⟨-, n, -, hn, -⟩ := hcovers
    exact .waiting key (hkeys.mem_iff.2 (List.mem_cons_of_mem _ hkey))
      (h.of_eq (hkeep hn).1 (hkeep hn).2)
  | current h =>
    obtain ⟨r, parent, other, hmem, hr, hparent, hadmits, hbound⟩ := h
    rcases List.mem_cons.1 hmem with rfl | hmem
    · -- the point is covered by the new child
      have hchild := hc.child_of_spawned hcreate hnode hr
      obtain ⟨slot, -, rfl, -⟩ := Tree.createChild_eq hcreate
      have hnew := Tree.get?_createChild hcreate hparent s.tree.created
      rw [if_pos rfl, hnode] at hnew
      obtain rfl := Option.some.inj hnew
      exact .waiting _ (hkeys.mem_iff.2 List.mem_cons_self) ⟨_, _, hchild, hnode, hadmits, hbound⟩
    · exact .current ⟨r, parent, other, hmem, (hkeep hparent).2.trans hr,
        (hkeep hparent).1.trans hparent, hadmits, hbound⟩
  | beaten h => exact .beaten h
  | incomplete h => exact .incomplete h

/-- Every move keeps a point covered. -/
theorem Move.covered (hE : E.Checked) (hM : E.problem.lp.Valid) (hstrategy : E.strategy.BuiltIn)
    (hsound : E.relaxation.Sound start E.problem E.candidates)
    (hp : E.problem.Solves E.candidates p) (hc : c.Traced E start) (h : Move E c c')
    (hcovered : Covered E p c) : Covered E p c' := by
  cases h with
  | remark | relax | refuse =>
    exact hcovered.of_keep rfl (fun _ h => h) (fun _ _ => ⟨rfl, rfl⟩) rfl rfl
  | @take s key rest node hpop hnode =>
    cases hcovered with
    | waiting key' hkey' h =>
      rcases List.mem_cons.1 ((Frontier.pop?_keys hpop).mem_iff.1 hkey') with rfl | hkey'
      · exact .current h
      · exact .waiting key' hkey' h
    | current h => exact absurd h id
    | beaten h => exact .beaten h
    | incomplete h => exact .incomplete h
  | @conclude s stage id status events h =>
    cases hcovered with
    | waiting key hkey h' => exact .waiting key hkey h'
    | current hcovers =>
      rcases h.covered hE hM hsound hp hc hcovers with hbeats | hunproven
      · exact .beaten hbeats
      · exact .incomplete (by simp [State.concluded, hunproven])
    | beaten h' => exact .beaten h'
    | incomplete h' =>
      exact .incomplete (by simp [State.concluded, show s.incomplete = true from h'])
  | @record s id r answer before node strategy hbefore hrecord hlearn =>
    cases hcovered with
    | waiting key hkey h =>
      have hcovers := h
      obtain ⟨-, n, -, hn, -⟩ := hcovers
      have hkeep := hc.coherent.keep_of_recorded hbefore hrecord hn
      exact .waiting key hkey (h.of_eq (hkeep.1 (List.mem_map_of_mem hkey)) hkeep.2)
    | current h => exact .current (covers_of_recorded hsound hp hc hbefore hrecord h)
    | beaten h => exact .beaten h
    | incomplete h => exact .incomplete h
  | offer =>
    exact hcovered.of_keep rfl (fun _ h => Stage.covers_offered h) (fun _ _ => ⟨rfl, rfl⟩) rfl rfl
  | adopt h hupdate hprune => exact hcovered.adopt hE hsound hp hc h hupdate hprune
  | sweep hnode hclose =>
    refine hcovered.of_keep rfl (fun _ h => h) (fun id hid => ?_) rfl rfl
    exact hc.coherent.keep_of_closed
      (Tree.close_spec hc.coherent.wellFormed hc.coherent.settled hclose) (openIds_swept ..) hid
  | @select s id r answer x objective split restrictions box d strategy h hsplit hne hr hbox hselect
      hvar =>
    cases hcovered with
    | waiting key hkey h' => exact .waiting key hkey h'
    | current h' =>
      obtain ⟨r', node, hr', hnode, hadmits, hbound⟩ := h'
      cases hr.symm.trans hr'
      obtain ⟨rfl, -⟩ := hc.coherent.survives h
      obtain ⟨interval, hsplits⟩ := hstrategy.splits hselect
      obtain ⟨change, hmem, hchild⟩ := child_of_splits (q := E.query x box) hp rfl hbox
        hc.stage.1.finite.2.2 hsplits hadmits
      exact .current ⟨restrictions, node, change, hmem, hr, hnode, hchild, hbound⟩
    | beaten h' => exact .beaten h'
    | incomplete h' => exact .incomplete h'
  | spawn hcreate hnode => exact hcovered.spawn hc.coherent hcreate hnode
  | close hnode hclose hgo =>
    refine hcovered.of_keep rfl (fun _ h => absurd h id) (fun id hid => ?_) rfl rfl
    exact hc.coherent.keep_of_closed
      (Tree.close_spec hc.coherent.wellFormed hc.coherent.settled hclose) (openIds_closed ..) hid

/-- A run of moves keeps a point covered. -/
theorem Moves.covered (hE : E.Checked) (hM : E.problem.lp.Valid) (hstrategy : E.strategy.BuiltIn)
    (hsound : E.relaxation.Sound start E.problem E.candidates)
    (hp : E.problem.Solves E.candidates p) (hc : c.Traced E start) (h : Moves E c c')
    (hcovered : Covered E p c) : Covered E p c' := by
  induction h with
  | refl => exact hcovered
  | tail hmoves hmove ih =>
    exact hmove.covered hE hM hstrategy hsound hp (Moves.traced hmoves hc) ih

/-- At the start every point is covered by the root. -/
theorem covered_initial (hM : E.problem.lp.Valid) (hp : E.problem.Solves E.candidates p)
    (start : σ) (strategy : β) (callbacks : κ) :
    Covered E p (.idle (State.initial E start strategy callbacks)) := by
  obtain ⟨v, hv⟩ := Exact.dot_fin hM.finite.1 hp.finite
  obtain ⟨w, hw⟩ := Exact.normalize_fin E.problem.lp.sense v
  have hvalue : E.problem.value p = .fin w := by
    rw [← hw, ← hv]
    rfl
  have hkeys := keys_initial E start strategy callbacks
  refine .waiting ⟨0, (Node.root 0 : Node Exact).dualBound, 0, 0⟩
    (hkeys ▸ List.mem_cons_self)
    ⟨.empty, _, restrictions_initial E start strategy callbacks,
      get?_initial E start strategy callbacks, fun _ _ h => (by cases h), ?_⟩
  rw [hvalue]
  rfl

/-! ## Nodes closed without proof -/

/-- A node that is closed without proof leaves a record of that. -/
def Confessed (c : Config Exact σ β κ) : Prop :=
  c.state.incomplete = true →
    (∃ record, .closed record ∈ c.state.history ∧ record.status.isUnproven = true) ∨
    ∃ id status, c.stage = .closing id status ∧ status.isUnproven = true

theorem Confessed.of_suffix (h : Confessed c)
    (hincomplete : c'.state.incomplete = c.state.incomplete)
    (hhistory : c.state.history <:+ c'.state.history)
    (hstage : ∀ id status, c.stage = .closing id status → c'.stage = .closing id status) :
    Confessed c' := by
  intro hinc
  rcases h (hincomplete ▸ hinc) with ⟨record, hmem, hstatus⟩ | ⟨id, status, hclosing, hstatus⟩
  · exact .inl ⟨record, hhistory.mem hmem, hstatus⟩
  · exact .inr ⟨id, status, hstage id status hclosing, hstatus⟩

theorem Move.confessed (h : Move E c c') (hc : Confessed c) : Confessed c' := by
  have hhistory := h.history_suffix
  cases h with
  | remark | sweep => exact hc.of_suffix rfl hhistory fun _ _ h => h
  | take | relax | record | offer | refuse | select | spawn =>
    exact hc.of_suffix rfl hhistory fun _ _ h => (by cases h)
  | adopt h => exact hc.of_suffix rfl hhistory fun _ _ heq => (by cases heq; cases h)
  | @conclude s stage id status events h =>
    intro hinc
    rcases Bool.or_eq_true _ _ ▸ hinc with hunproven | hinc
    · exact .inr ⟨id, status, rfl, hunproven⟩
    · rcases hc hinc with ⟨record, hmem, hstatus⟩ | ⟨id', status', hclosing, -⟩
      · exact .inl ⟨record, hhistory.mem hmem, hstatus⟩
      · obtain rfl : stage = .closing id' status' := hclosing
        cases h
  | @close s id status node tree released hnode hclose hgo =>
    intro hinc
    rcases hc hinc with ⟨record, hmem, hstatus⟩ | ⟨id', status', hclosing, hstatus⟩
    · exact .inl ⟨record, hhistory.mem hmem, hstatus⟩
    · cases hclosing
      exact .inl ⟨E.record node status, List.mem_cons_self, hstatus⟩

theorem Moves.confessed (h : Moves E c c') (hc : Confessed c) : Confessed c' := by
  induction h with
  | refl => exact hc
  | tail _ hmove ih => exact hmove.confessed ih

/-! ## The answer of a search -/

/-- The least of some bounds is at most each of them that is a number. -/
theorem foldl_min_le (keys : List (NodeKey Exact)) (acc : Exact) :
    (acc ≠ .nan → keys.foldl (fun acc key => Scalar.min acc key.bound) acc ≤ acc) ∧
    ∀ key ∈ keys, key.bound ≠ .nan →
      keys.foldl (fun acc key => Scalar.min acc key.bound) acc ≤ key.bound := by
  induction keys generalizing acc with
  | nil => exact ⟨Exact.le_refl, by simp⟩
  | cons first rest ih =>
    obtain ⟨hacc, hrest⟩ := ih (Scalar.min acc first.bound)
    refine ⟨fun h => ?_, fun key hkey h => ?_⟩
    · have hle : Scalar.min acc first.bound ≤ acc := Exact.min_le_left h
      exact Exact.le_trans (hacc (Exact.ne_nan_of_le_left hle)) hle
    · rcases List.mem_cons.1 hkey with rfl | hkey
      · have hle : Scalar.min acc key.bound ≤ key.bound := Exact.min_le_right h
        exact Exact.le_trans (hacc (Exact.ne_nan_of_le_left hle)) hle
      · exact hrest key hkey h

/-- What covers a point between two nodes bounds the search from below. -/
theorem bound_le_of_covered (hE : E.Checked) (hM : E.problem.lp.Valid)
    (hc : (Config.idle s).Traced E start)
    (hcovered : Covered E p (.idle s)) (hproved : s.incomplete = false) :
    s.bound - E.settings.tolerance ≤ E.problem.value p := by
  obtain ⟨t, ht, hnonneg⟩ := tolerance_eq hE
  cases hcovered with
  | waiting key hkey h =>
    obtain ⟨r, node, -, hnode, -, hbound⟩ := h
    obtain ⟨node', hnode', -, -, hkeyBound, -⟩ := hc.coherent.holds key (by
      simpa [Config.waiting, Config.idle] using hkey)
    cases hnode.symm.trans hnode'
    have hne : key.bound ≠ .nan := hkeyBound ▸ Exact.ne_nan_of_le_left hbound
    have hleast : s.frontier.bestBound ≤ key.bound :=
      (foldl_min_le s.frontier.keys _).2 key hkey hne
    have hle : s.bound ≤ s.frontier.bestBound :=
      Exact.min_le_left (Exact.ne_nan_of_le_left hleast)
    rw [ht]
    exact Exact.sub_le (Exact.le_trans (Exact.le_trans hle hleast) (hkeyBound ▸ hbound)) hnonneg
  | current h => exact absurd h id
  | beaten h =>
    obtain ⟨hhas, hvalue⟩ := h
    obtain ⟨i, hi⟩ := Option.isSome_iff_exists.1 hhas
    obtain ⟨v, hv⟩ := Exact.isFinite_iff.1 ((hc.incumbent i hi).finite hM)
    obtain ⟨w, hw⟩ := Exact.normalize_fin E.sense v
    have hi' : s.tracker.best = some i := hi
    have hsense : s.tracker.sense = E.sense := hc.sense
    have hnormalized : s.tracker.normalized = .fin w := by
      rw [normalized_of_best hi', hsense, hv, hw]
    have hle : s.bound ≤ s.tracker.normalized := Exact.min_le_right (by rw [hnormalized]; simp)
    exact Exact.le_trans (ht ▸ Exact.sub_le_sub hle) hvalue
  | incomplete h => cases hproved.symm.trans h

/-- A search whose history proves every node closed is complete. -/
theorem complete_of_proved {strategy : β} {callbacks : κ}
    (hmoves : Moves E (.idle (State.initial E start strategy callbacks)) (.idle s))
    (hproved : ∀ record, .closed record ∈ s.history → record.status ≠ .pruned .solverError ∧
      record.status ≠ .pruned .unbounded) : s.incomplete = false := by
  have hconfessed : Confessed (Config.idle s) := Moves.confessed hmoves fun h => by cases h
  refine Bool.eq_false_iff.2 fun hincomplete => ?_
  rcases hconfessed hincomplete with ⟨record, hmem, hunproven⟩ | ⟨id, status, hclosing, -⟩
  · have hrecord := hproved record hmem
    unfold NodeStatus.isUnproven at hunproven
    split at hunproven <;> simp_all
  · cases hclosing

/-- When nothing is open, a point is covered by the incumbent if no node was given up. -/
theorem Covered.beats (h : Covered E p (.idle s)) (hempty : s.frontier.keys = [])
    (hcomplete : s.incomplete = false) : s.Beats E (E.problem.value p) := by
  cases h with
  | waiting key hkey =>
    rw [show (Config.idle s).state.frontier.keys = [] from hempty] at hkey
    cases hkey
  | current h => exact absurd h id
  | beaten h => exact h
  | incomplete h => cases hcomplete.symm.trans h

theorem exhausted_eq_optimal {F : Type} {s : State F σ β κ} (h : s.exhausted = .optimal) :
    s.incomplete = false ∧ s.tracker.hasIncumbent = true := by
  unfold State.exhausted at h
  split at h
  · cases h
  · split at h
    · exact ⟨Bool.eq_false_iff.2 ‹_›, ‹_›⟩
    · cases h

theorem exhausted_eq_infeasible {F : Type} {s : State F σ β κ} (h : s.exhausted = .infeasible) :
    s.incomplete = false ∧ s.tracker.hasIncumbent = false := by
  unfold State.exhausted at h
  split at h
  · cases h
  · split at h
    · cases h
    · exact ⟨Bool.eq_false_iff.2 ‹_›, Bool.eq_false_iff.2 ‹_›⟩

theorem not_isLimit_exhausted (s : State Exact σ β κ) : s.exhausted.isLimit = false := by
  unfold State.exhausted
  split
  · rfl
  · split <;> rfl

/-- **Soundness.**  Let the relaxation be right about every region it is asked about, and let the
    strategy be a built-in one.  Then no point that satisfies the program and is whole on the
    candidates is better than an incumbent called optimal, by more than the tolerance; there is none
    of them if the program is called infeasible; and if a limit is reached before any node was closed
    without proof, none of them is better than the bound that is reported, by more than the
    tolerance. -/
theorem solve_sound {P : Program Exact} {steps : Nat} {strategy : β} {callbacks : κ}
    {s' : State Exact σ β κ} {solution : Solution Exact}
    (hP : MixedProgram.ofProgram P = .ok E.problem) (hE : E.check = .ok ())
    (hstrategy : E.strategy.BuiltIn)
    (hsound : E.relaxation.Sound start E.problem E.candidates)
    (hsolve : (solve E steps).run (State.initial E start strategy callbacks) =
      .ok (some solution) s') :
    (solution.status = .optimal → ∃ i, solution.incumbent = some i ∧
      ∀ p, E.problem.Solves E.candidates p →
        E.sense.normalize i.objective - E.settings.tolerance ≤ E.problem.value p) ∧
    (solution.status = .infeasible → ∀ p, ¬ E.problem.Solves E.candidates p) ∧
    (solution.status.isLimit = true →
      (∀ record, .closed record ∈ s'.history → record.status ≠ .pruned .solverError ∧
        record.status ≠ .pruned .unbounded) →
      ∀ p, E.problem.Solves E.candidates p →
        E.sense.normalize solution.statistics.bestBound - E.settings.tolerance ≤
          E.problem.value p) := by
  obtain ⟨hlp, hvalid, -⟩ := MixedProgram.ofProgram_eq_ok hP
  have hM : E.problem.lp.Valid := hlp ▸ hvalid
  have hchecked := Engine.check_eq_ok hE
  have hcases := solve_cases E steps (State.initial E start strategy callbacks)
  rw [hsolve] at hcases
  obtain ⟨s₁, s₂, status, hmoves, hends, ⟨hstatus, hincumbent, hbest⟩, ⟨event, hhistory⟩, -⟩ :=
    hcases
  have hstart := traced_initial E start strategy callbacks
  have hcover : ∀ p, E.problem.Solves E.candidates p → Covered E p (.idle s₁) := fun p hp =>
    Moves.covered hchecked hM hstrategy hsound hp hstart hmoves
      (covered_initial hM hp start strategy callbacks)
  cases hends with
  | limit reason =>
    have hlimit : solution.status ≠ .optimal ∧ solution.status ≠ .infeasible := by
      rw [hstatus]
      cases reason <;> simp [StopReason.status]
    refine ⟨fun h => absurd h hlimit.1, fun h => absurd h hlimit.2, fun _ hproved p hp => ?_⟩
    have hcomplete : s₁.incomplete = false := by
      refine complete_of_proved hmoves fun record hmem => hproved record ?_
      rw [hhistory]
      exact List.mem_cons_of_mem _ (List.mem_cons_of_mem _ hmem)
    rw [hbest, Exact.positiveZero_eq, Exact.normalize_normalize]
    show s₁.bound - E.settings.tolerance ≤ E.problem.value p
    exact bound_le_of_covered hchecked hM (Moves.traced hmoves hstart) (hcover p hp) hcomplete
  | exhausted hempty =>
    have hbeats := fun p hp => (hcover p hp).beats (Frontier.pop?_eq_none.1 hempty)
    rw [hstatus]
    refine ⟨fun h => ?_, fun h p hp => ?_, fun h => ?_⟩
    · obtain ⟨hcomplete, hhas⟩ := exhausted_eq_optimal h
      obtain ⟨i, hi⟩ := Option.isSome_iff_exists.1 hhas
      refine ⟨i, by simp [hincumbent, hi, Exact.positiveZero_eq], fun p hp => ?_⟩
      obtain ⟨-, hvalue⟩ := hbeats p hp hcomplete
      have hsense : s₁.tracker.sense = E.sense := (Moves.traced hmoves hstart).sense
      rwa [normalized_of_best hi, hsense] at hvalue
    · obtain ⟨hcomplete, hnone⟩ := exhausted_eq_infeasible h
      obtain ⟨hhas, -⟩ := hbeats p hp hcomplete
      cases hnone.symm.trans hhas
    · rw [not_isLimit_exhausted] at h
      cases h

/-- One variable in `[1/2, 3]`, to be minimised over the whole numbers. -/
def segment : Program Exact where
  cost := [.fin 1]
  matrix := ⟨0, 1, [[]], rfl, by simp, by simp [Column.Sorted]⟩
  rhs := []
  blocks := []
  bounds := some [⟨0, some (.fin (1 / 2)), some (.fin 3)⟩]
  kinds := some [.integer]

/-- The relaxation of one variable that is to be minimised: the lower end of its interval. -/
def lowerEnd : Relaxation Exact Unit where
  name := "lower end"
  vars := 1
  solve _ r :=
    let i := r.effective 0 ⟨.fin (1 / 2), .fin 3⟩
    return ⟨(), if i.upper < i.lower then .infeasible else .optimal [i.lower] i.lower, []⟩

/-- The search for the least whole number of the segment. -/
def segmentSearch : Engine Exact Unit Unit Unit where
  problem := ⟨segment, [0], [], ⟨[.fin (1 / 2)], [.fin 3]⟩⟩
  candidates := [0]
  settings := Settings.standard
  relaxation := lowerEnd
  strategy := Strategy.mostFractional
  callbacks := []
  clock := SearchClock.stopped ⟨0⟩

theorem segment_ok : MixedProgram.ofProgram segment = .ok segmentSearch.problem :=
  MixedProgram.ofProgram_ok (by decide +kernel) (by decide +kernel) (by decide +kernel)

theorem segment_check : segmentSearch.check = .ok () := rfl

theorem lowerEnd_sound : lowerEnd.Sound () segmentSearch.problem segmentSearch.candidates := by
  have key : ∀ {r : Restrictions Exact} {p},
      segmentSearch.problem.Solves segmentSearch.candidates p → r.Admits p → ∃ x, p = [x] ∧
        (r.effective 0 ⟨.fin (1 / 2), .fin 3⟩).lower ≤ x ∧
        x ≤ (r.effective 0 ⟨.fin (1 / 2), .fin 3⟩).upper := by
    intro r p hp hadmits
    have hlength : p.length = 1 := by
      have hfeasible := hp.feasible
      unfold MixedProgram.feasible at hfeasible
      split at hfeasible
      · rename_i hshape
        simp only [Bool.and_eq_true, decide_eq_true_eq] at hshape
        exact hshape.1
      · cases hfeasible
    obtain ⟨x, rfl⟩ := List.length_eq_one_iff.1 hlength
    exact ⟨x, rfl, effective_of_admits hp hadmits rfl rfl⟩
  constructor
  · intro s r reply _ hsolve hanswer p hp hadmits
    obtain ⟨x, rfl, hlower, hupper⟩ := key hp hadmits
    cases hsolve
    simp only at hanswer
    split at hanswer
    · exact Exact.not_lt_of_le (Exact.le_trans hlower hupper) ‹_›
    · cases hanswer
  · intro s r reply x objective _ hsolve hanswer p hp hadmits
    obtain ⟨v, rfl, hlower, hupper⟩ := key hp hadmits
    cases hsolve
    simp only at hanswer
    split at hanswer
    · cases hanswer
    · cases hanswer
      obtain ⟨w, rfl⟩ : ∃ w, v = .fin w := by simpa [Exact.isFinite_iff] using hp.finite
      have hvalue : segmentSearch.problem.value [.fin w] = .fin w := by
        show Exact.fin (-0 + 1 * w) = _
        simp
      rwa [hvalue]

/-- The root is branched on, its upper child has the least whole number. -/
theorem solve_sound_segment : ∃ solution s',
    (solve segmentSearch 3).run (State.initial segmentSearch () () ()) = .ok (some solution) s' ∧
      solution.status = .optimal ∧ ∃ i, solution.incumbent = some i ∧ i.objective = .fin 1 ∧
        ∀ p, segmentSearch.problem.Solves segmentSearch.candidates p →
          .fin 1 - Exact.fin (mkRat 1 1000000) ≤ segmentSearch.problem.value p := by
  have hrun : outcome? Incumbent.objective
      ((solve segmentSearch 3).run (State.initial segmentSearch () () ())) =
        some (.optimal, some (.fin 1)) := by
    decide +kernel
  obtain ⟨solution, s', hsolve, hstatus, i₀, hi₀, hobjective⟩ := outcome?_eq_some hrun
  obtain ⟨i, hi, hbest⟩ := (solve_sound segment_ok segment_check .mostFractional lowerEnd_sound
    hsolve).1 hstatus
  cases hi₀.symm.trans hi
  refine ⟨solution, s', hsolve, hstatus, i₀, hi, hobjective, fun p hp => ?_⟩
  exact hobjective ▸ hbest p hp

end Search

end Milp
