/-
  The rounding heuristic and the check of its proposals.

  The heuristic tests bounds and rows with a tolerance of its own before it proposes a point, and the
  search checks the proposal once more with its settings.  If the heuristic is no more tolerant than
  the search, the check finds nothing but a lack of improvement.

  * `Rounding.getElem?_round`: a rounded point is whole on the candidates, and as before elsewhere.
  * `Callback.rounding_eq_some`: what is known of a proposal of the heuristic.
  * `Proposal.check_eq_objective`: the check of a proposal that passed all but its last part.
  * `View.Faces`: the view is one of this program and this incumbent.
  * `Callback.rounding_accepted`: a proposal of the heuristic is accepted, or not good enough.
-/
import Milp.Callback.Rounding
import Milp.Proofs.Configuration
import Milp.Proofs.Program
import Milp.Proofs.Proposal
import Milp.Proofs.Scalar.Tolerance

namespace Milp

variable {F : Type} [Extended F]

/-! ## Rounded points -/

namespace Rounding

variable {x : List F} {candidates : List Nat} {var : Nat} {v : F}

theorem length_round (x : List F) (candidates : List Nat) :
    (round x candidates).length = x.length := by
  induction candidates generalizing x with
  | nil => rfl
  | cons c rest ih => exact (ih _).trans (List.length_modify ..)

variable [Scalar.Faithful F] [Scalar.Tolerant F]

/-- Rounding one value leaves all values finite. -/
theorem all_isFinite_modify (h : x.all Scalar.isFinite = true) (c : Nat) :
    (x.modify c Scalar.round).all Scalar.isFinite = true := by
  refine List.all_eq_true.2 fun v hv => ?_
  obtain ⟨i, hi, rfl⟩ := List.mem_iff_getElem.1 hv
  have hfinite := List.all_eq_true.1 h _ (List.getElem_mem (by simpa using hi))
  rw [List.getElem_modify]
  split
  · exact Scalar.isFinite_round hfinite
  · exact hfinite

theorem all_isFinite_round (h : x.all Scalar.isFinite = true) :
    (round x candidates).all Scalar.isFinite = true := by
  induction candidates generalizing x with
  | nil => exact h
  | cons c rest ih => exact ih (all_isFinite_modify h c)

/-- A rounded point is whole on the candidates, and as before elsewhere. -/
theorem getElem?_round (h : x.all Scalar.isFinite = true)
    (hv : (round x candidates)[var]? = some v) :
    (var ∉ candidates → x[var]? = some v) ∧
      (var ∈ candidates → Scalar.toRat? (Scalar.fractionality v) = some 0) := by
  induction candidates generalizing x with
  | nil => exact ⟨fun _ => hv, nofun⟩
  | cons c rest ih =>
    obtain ⟨hout, hin⟩ := ih (all_isFinite_modify h c) hv
    rw [List.getElem?_modify] at hout
    constructor
    · intro hvar
      obtain ⟨hne, hrest⟩ := not_or.1 (mt List.mem_cons.2 hvar)
      simpa [Ne.symm hne] using hout hrest
    · intro hvar
      by_cases hrest : var ∈ rest
      · exact hin hrest
      · obtain rfl := (List.mem_cons.1 hvar).resolve_right hrest
        obtain ⟨w, hw, rfl⟩ : ∃ w, x[var]? = some w ∧ Scalar.round w = v := by
          simpa using hout hrest
        obtain ⟨p, hp⟩ := Scalar.Faithful.isFinite_iff.1
          (List.all_eq_true.1 h w (List.mem_of_getElem? hw))
        exact Scalar.fractionality_round hp

/-- A rounded point is whole on the candidates within any tolerance. -/
theorem not_lt_fractionality {t : F} (ht : Scalar.isFinite t = true) (hneg : ¬ t < 0)
    (h : x.all Scalar.isFinite = true) (hvar : var ∈ candidates)
    (hv : (round x candidates)[var]? = some v) : ¬ t < Scalar.fractionality v := by
  have hfraction := (getElem?_round h hv).2 hvar
  obtain ⟨q, hq⟩ := Scalar.Faithful.isFinite_iff.1 ht
  rwa [Scalar.Faithful.lt_iff hq hfraction, ← Scalar.Faithful.lt_iff hq Scalar.Faithful.zero_eq]

end Rounding

/-- A rounded point is proposed if it is feasible and better than the incumbent. -/
theorem Rounding.propose_eq_some {tolerance : F} {view : View F} {candidates : List Nat}
    {x : List F} {p : Proposal F}
    (h : Rounding.propose tolerance view candidates x = .ok (some p)) :
    p = .evaluated view.problem (Rounding.round x candidates) ∧
      view.problem.feasible p.x tolerance = .ok true ∧
      ∀ i, view.incumbent = some i → view.sense.better p.objective i 0 = true := by
  unfold propose at h
  dsimp only at h
  rcases hfeasible : view.problem.feasible (round x candidates) tolerance with e | _ | _
  · rw [hfeasible] at h
    cases h
  · rw [hfeasible] at h
    cases h
  · rw [hfeasible] at h
    simp only [Bind.bind, Except.bind, if_true] at h
    split at h
    · rename_i hbetter
      cases h
      refine ⟨rfl, hfeasible, fun i hi => ?_⟩
      rwa [hi] at hbetter
    · cases h

/-- A proposal of the heuristic is the rounded point of an optimal answer. -/
theorem Callback.rounding_eq_some {tolerance : F} {view : View F} {candidates : List Nat}
    {counts counts' : RoundingCounts} {p : Proposal F}
    (h : (Callback.rounding tolerance).onSolved view candidates counts = .ok (some p, counts')) :
    ∃ x objective, view.answer = .optimal x objective ∧
      Rounding.propose tolerance view candidates x = .ok (some p) := by
  unfold Callback.rounding at h
  dsimp only at h
  rcases hanswer : view.answer with ⟨x, objective⟩ | _ | _ | _
  case optimal =>
    refine ⟨x, objective, rfl, ?_⟩
    rw [hanswer] at h
    rcases hwhole : integralOn x tolerance candidates with e | _ | _
    · simp only [hwhole, Bind.bind, Except.bind, reduceCtorEq] at h
    · rcases hpropose : Rounding.propose tolerance view candidates x with e | _ | q
      · simp [hwhole, hpropose, Bind.bind, Except.bind] at h
      · simp [hwhole, hpropose, Bind.bind, Except.bind, pure, Except.pure] at h
      · simp only [hwhole, hpropose, Bind.bind, Except.bind] at h
        cases h
        rfl
    · simp [hwhole, Bind.bind, Except.bind, pure, Except.pure] at h
  all_goals
    rw [hanswer] at h
    cases h

/-! ## The parts of the check -/

namespace Proposal

variable {M : MixedProgram F} {candidates : List Nat} {tracker : Tracker F} {settings : Settings F}
  {p : Proposal F}

theorem checkShape_ok (hlength : p.x.length = M.vars) (hx : p.x.all Scalar.isFinite = true)
    (hobjective : Scalar.isFinite p.objective = true) : p.checkShape M.vars = .ok () := by
  have hnone : p.x.findIdx? (fun v => !Scalar.isFinite v) = none := by
    rw [List.findIdx?_eq_none_iff]
    exact fun v hv => by simp [List.all_eq_true.1 hx v hv]
  rw [checkShape, if_neg (not_not.2 hlength), hnone, if_pos hobjective]

/-- Bounds that hold with one tolerance hold with a larger one. -/
theorem checkBounds_ok [Scalar.Placed F] [Scalar.Tolerant F] {t t' : F}
    (ht : Scalar.isFinite t = true) (ht' : Scalar.isFinite t' = true) (hle : t ≤ t')
    (h : M.boundsHold p.x t = true) : p.checkBounds M.box t' = .ok () := by
  have hnone : ((List.zipWith Interval.mk M.box.lower M.box.upper).zip p.x).zipIdx.find?
      (fun entry => outside t' entry.1.1 entry.1.2) = none := by
    refine List.find?_eq_none.2 fun entry hmem => ?_
    obtain ⟨⟨i, v⟩, var⟩ := entry
    rw [List.mem_zipIdx_iff_getElem?, List.getElem?_zip_eq_some,
      List.getElem?_zipWith_eq_some] at hmem
    obtain ⟨⟨l, u, hl, hu, rfl⟩, hv⟩ := hmem
    obtain ⟨hlower, hupper⟩ :=
      MixedProgram.boundsHold_iff.1 h var ⟨l, u⟩ v (Box.interval_eq_ok.2 ⟨hl, hu⟩) hv
    have hbelow := Scalar.not_lt_of_le (Scalar.Tolerant.sub_le_of_le hlower ht ht' hle)
    have habove := Scalar.not_lt_of_le (Scalar.Tolerant.le_add_of_le hupper ht ht' hle)
    simp [outside, hbelow, habove]
  unfold checkBounds
  dsimp only
  rw [hnone]

theorem checkWhole_of {tolerance : F} {vars : List Nat} (h : ∀ var ∈ vars, ∃ v, p.x[var]? = some v ∧
    ¬ tolerance < Scalar.fractionality v) : p.checkWhole tolerance vars = .ok (.ok ()) := by
  induction vars with
  | nil => rfl
  | cons var rest ih =>
    obtain ⟨⟨v, hv, hnot⟩, hrest⟩ := List.forall_mem_cons.1 h
    rw [checkWhole, fetch_eq_ok.2 hv]
    simp only [Bind.bind, Except.bind, if_neg hnot]
    exact ih hrest

/-- Rows that hold with one tolerance hold with a larger one. -/
theorem checkRows_ok [Scalar.Ordered F] [Scalar.Placed F] {t t' : F} (hle : t ≤ t')
    (h : M.rowsHold p.x t = .ok true) : p.checkRows M t' = .ok (.ok ()) := by
  unfold MixedProgram.rowsHold at h
  rcases hviolation : M.lp.violation p.x with e | amount
  · rw [hviolation] at h
    cases h
  · simp only [hviolation, Bind.bind, Except.bind, pure, Except.pure, Except.ok.injEq,
      decide_eq_true_eq] at h
    have hnot := Scalar.not_lt_of_le (Scalar.Ordered.le_trans h hle)
    rw [checkRows, hviolation]
    simp only [Bind.bind, Except.bind, if_neg hnot]
    rfl

/-- A point without fault is judged by its objective. -/
theorem check_eq_objective (hshape : p.checkShape M.vars = .ok ())
    (hbounds : p.checkBounds M.box settings.feasibility = .ok ())
    (hwhole : p.checkWhole settings.integrality candidates = .ok (.ok ()))
    (hrows : p.checkRows M settings.feasibility = .ok (.ok ())) :
    p.check M candidates tracker settings =
      .ok (p.checkObjective tracker settings.tolerance (M.objective p.x)) := by
  unfold check
  rw [hshape, hbounds, hwhole, hrows]
  rcases p.checkObjective tracker settings.tolerance (M.objective p.x) with _ | _ <;> rfl

/-- A point with its own objective is refused only for lack of improvement. -/
theorem checkObjective_evaluated [Scalar.Ordered F] [Scalar.Placed F] [Scalar.Tolerant F]
    (tracker : Tracker F) {tolerance : F} (htolerance : ¬ tolerance < 0)
    (hobjective : Scalar.isFinite p.objective = true) :
    p.checkObjective tracker tolerance p.objective = .ok p.objective ∨ ∃ i, tracker.best = some i ∧
      p.checkObjective tracker tolerance p.objective =
        .error (.notImproving p.objective i.objective) ∧
      tracker.sense.better p.objective i.objective tolerance = false := by
  rw [checkObjective, if_neg (Scalar.not_lt_abs_sub_self htolerance hobjective)]
  rcases hbest : tracker.best with _ | i
  · left
    rw [Tracker.improves, hbest, if_pos hobjective]
  · rw [Tracker.improves, Tracker.objective, hbest]
    rcases hbetter : tracker.sense.better p.objective i.objective tolerance with _ | _
    · exact .inr ⟨i, rfl, by simp [hbetter], hbetter⟩
    · exact .inl (by simp [hbetter])

end Proposal

/-! ## Proposals of the heuristic -/

/-- The view is one of this program and this incumbent, and an optimal answer has a finite value for
    each variable. -/
structure View.Faces (view : View F) (M : MixedProgram F) (tracker : Tracker F) : Prop where
  problem : view.problem = M
  sense : view.sense = tracker.sense
  incumbent : view.incumbent = tracker.best.map Incumbent.objective
  answer : ∀ x objective, view.answer = .optimal x objective →
    x.length = M.vars ∧ x.all Scalar.isFinite = true

/-- **A proposal of the rounding heuristic is refused only for lack of improvement**, if the
    heuristic is no more tolerant than the settings: it is accepted, or there is an incumbent that it
    is better than, but not by more than the tolerance. -/
theorem Callback.rounding_accepted [Scalar.Ordered F] [Scalar.Faithful F] [Scalar.Placed F]
    [Scalar.Tolerant F] {M : MixedProgram F} {tracker : Tracker F} {settings : Settings F}
    {tolerance : F} {view : View F} {candidates : List Nat} {counts counts' : RoundingCounts}
    {p : Proposal F} (hsettings : settings.validate = .ok ())
    (hcandidates : ∀ var ∈ candidates, var < M.vars) (htolerance : 0 ≤ tolerance)
    (hle : tolerance ≤ settings.feasibility) (hview : view.Faces M tracker)
    (h : (Callback.rounding tolerance).onSolved view candidates counts = .ok (some p, counts'))
    (hobjective : Scalar.isFinite p.objective = true) :
    p.check M candidates tracker settings = .ok (.ok p.objective) ∨
      ∃ i, tracker.best = some i ∧
        p.check M candidates tracker settings =
          .ok (.error (.notImproving p.objective i.objective)) ∧
        tracker.sense.better p.objective i.objective 0 = true ∧
        tracker.sense.better p.objective i.objective settings.tolerance = false := by
  have hvalid := Settings.validate_eq_ok hsettings
  obtain ⟨x, objective, hanswer, hpropose⟩ := Callback.rounding_eq_some h
  obtain ⟨hp, hfeasible, hbetter⟩ := Rounding.propose_eq_some hpropose
  obtain ⟨hlength, hfinite⟩ := hview.answer x objective hanswer
  rw [hview.problem] at hp hfeasible
  have hx : p.x = Rounding.round x candidates := by rw [hp]; rfl
  have hself : M.objective p.x = p.objective := by rw [hp]; rfl
  have hsize : p.x.length = M.vars := by rw [hx, Rounding.length_round, hlength]
  have hpoint : p.x.all Scalar.isFinite = true := hx ▸ Rounding.all_isFinite_round hfinite
  have hzero : Scalar.isFinite (0 : F) = true :=
    Scalar.Faithful.isFinite_iff.2 ⟨0, Scalar.Faithful.zero_eq⟩
  have htolerance' := Scalar.isFinite_of_between htolerance hle hzero hvalid.feasibility.1
  -- every check but the last passes
  rw [MixedProgram.feasible] at hfeasible
  split at hfeasible
  · rename_i hholds
    have hbounds := (Bool.and_eq_true_iff.1 hholds).2
    have hwhole : ∀ var ∈ candidates, ∃ v, p.x[var]? = some v ∧
        ¬ settings.integrality < Scalar.fractionality v := by
      intro var hvar
      have hv := List.getElem?_eq_getElem (hsize ▸ hcandidates var hvar : var < p.x.length)
      exact ⟨_, hv, Rounding.not_lt_fractionality hvalid.integrality.1 hvalid.integrality.2 hfinite
        hvar (by rw [← hx]; exact hv)⟩
    have hcheck : p.check M candidates tracker settings =
        .ok (p.checkObjective tracker settings.tolerance (M.objective p.x)) :=
      Proposal.check_eq_objective (Proposal.checkShape_ok hsize hpoint hobjective)
        (Proposal.checkBounds_ok htolerance' hvalid.feasibility.1 hle hbounds)
        (Proposal.checkWhole_of hwhole) (Proposal.checkRows_ok hle hfeasible)
    rw [hself] at hcheck
    rw [hcheck]
    rcases Proposal.checkObjective_evaluated tracker hvalid.tolerance.2 hobjective with
      hok | ⟨i, hi, herror, hnot⟩
    · exact .inl (congrArg _ hok)
    · refine .inr ⟨i, hi, congrArg _ herror, ?_, hnot⟩
      rw [← hview.sense]
      exact hbetter _ (by rw [hview.incumbent, hi]; rfl)
  · cases hfeasible

/-- Two variables between 0 and 1 with a sum of at most 1.5, the larger the better. -/
def pair : MixedProgram Float where
  lp :=
    { cost := [-1, -1]
      matrix := ⟨1, 2, [[(0, 1)], [(0, 1)]], rfl, by simp, by simp [Column.Sorted]⟩
      rhs := [1.5]
      blocks := [.atMost 1] }
  integers := [0, 1]
  binaries := []
  box := ⟨[0, 0], [1, 1]⟩

/-- An incumbent that is worse than the point `(1, 0)` by less than the tolerance. -/
def nearlyBest : Tracker Float where
  sense := .minimize
  best := some ⟨-0.9999999, [1, 0], .relaxation, 0, 0⟩

/-- The second variable is rounded to 0. -/
def pairView : View Float where
  id := 0
  parent := none
  depth := 0
  parentBound := -1.5
  answer := .optimal [1, 0.4] (-1.4)
  restrictions := .empty
  problem := pair
  sense := .minimize
  incumbent := some (-0.9999999)

/-- The rounded point `(1, 0)` is better than the incumbent, but by less than the tolerance. -/
theorem Callback.rounding_accepted_pair :
    ∃ i, nearlyBest.best = some i ∧
      (⟨[1, 0], -1⟩ : Proposal Float).check pair [0, 1] nearlyBest Settings.standard =
        .ok (.error (.notImproving (-1) i.objective)) ∧
      Sense.minimize.better (-1) i.objective 0 = true ∧
      Sense.minimize.better (-1) i.objective (1e-6 : Float) = false := by
  have hview : pairView.Faces pair nearlyBest :=
    ⟨rfl, rfl, rfl, fun x objective h => by cases h; exact ⟨rfl, by decide +kernel⟩⟩
  have hsettings : (Settings.standard : Settings Float).validate = .ok () := by decide +kernel
  have hproposal : (Callback.rounding (1e-6 : Float)).onSolved pairView [0, 1] {} =
      .ok (some ⟨[1, 0], -1⟩, ⟨1, 1⟩) := by decide +kernel
  have hrefused : (⟨[1, 0], -1⟩ : Proposal Float).check pair [0, 1] nearlyBest
      Settings.standard ≠ .ok (.ok (-1)) := by decide +kernel
  exact (Callback.rounding_accepted hsettings (by decide) (by decide +kernel) (by decide +kernel)
    hview hproposal (by decide +kernel)).resolve_left hrefused

end Milp
