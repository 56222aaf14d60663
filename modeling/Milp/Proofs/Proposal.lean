/-
  What a proposal that passes its check is known for.

  * `Proposal.Passes`: the checks that were passed, one by one.
  * `Proposal.check_ok`: a proposal that is accepted passed them all.
  * `Passes.finite`, `Passes.inside`, `checkWhole_eq_ok`, `checkRows_eq_ok`, `Passes.improves`: what
    each of them says of the point.
  * `Proposal.check_eq_error`: only reading the candidates and measuring the rows can fail.
-/
import Milp.Proofs.Restrictions
import Milp.Proposal

namespace Milp.Proposal

variable {F : Type} [Extended F] {M : MixedProgram F} {candidates : List Nat}
  {tracker : Tracker F} {settings : Settings F} {p : Proposal F} {objective : F}

/-- A proposal passes every check, and `objective` is the objective computed anew. -/
structure Passes (M : MixedProgram F) (candidates : List Nat) (tracker : Tracker F)
    (settings : Settings F) (p : Proposal F) (objective : F) : Prop where
  shape : p.checkShape M.vars = .ok ()
  bounds : p.checkBounds M.box settings.feasibility = .ok ()
  whole : p.checkWhole settings.integrality candidates = .ok (.ok ())
  rows : p.checkRows M settings.feasibility = .ok (.ok ())
  objective : p.checkObjective tracker settings.tolerance (M.objective p.x) = .ok objective

theorem check_ok (h : p.check M candidates tracker settings = .ok (.ok objective)) :
    p.Passes M candidates tracker settings objective := by
  unfold check at h
  rcases hshape : p.checkShape M.vars with _ | _
  · rw [hshape] at h; cases h
  rcases hbounds : p.checkBounds M.box settings.feasibility with _ | _
  · rw [hshape, hbounds] at h; cases h
  rcases hwhole : p.checkWhole settings.integrality candidates with _ | _ | _
  · rw [hshape, hbounds, hwhole] at h; cases h
  · rw [hshape, hbounds, hwhole] at h; cases h
  rcases hrows : p.checkRows M settings.feasibility with _ | _ | _
  · rw [hshape, hbounds, hwhole, hrows] at h; cases h
  · rw [hshape, hbounds, hwhole, hrows] at h; cases h
  rcases hobjective : p.checkObjective tracker settings.tolerance (M.objective p.x) with _ | _
  · rw [hshape, hbounds, hwhole, hrows, hobjective] at h; cases h
  rw [hshape, hbounds, hwhole, hrows, hobjective] at h
  cases h
  exact ⟨hshape, hbounds, hwhole, hrows, hobjective⟩

/-! ## The parts of the check -/

theorem checkShape_eq_ok {vars : Nat} (h : p.checkShape vars = .ok ()) :
    p.x.length = vars ∧ p.x.all Scalar.isFinite = true := by
  unfold checkShape at h
  split at h
  · cases h
  · split at h
    · cases h
    · rename_i hlength _ hnone
      rw [List.findIdx?_eq_none_iff] at hnone
      refine ⟨Decidable.not_not.1 hlength, List.all_eq_true.2 fun v hv => ?_⟩
      simpa using hnone v hv

theorem checkBounds_eq_ok {box : Box F} {tolerance : F} (h : p.checkBounds box tolerance = .ok ())
    {var : Nat} {i : Interval F} {v : F} (hi : box.interval var = .ok i)
    (hv : p.x[var]? = some v) : outside tolerance i v = false := by
  unfold checkBounds at h
  dsimp only at h
  split at h
  · cases h
  · rename_i hnone
    obtain ⟨hlower, hupper⟩ := Box.interval_eq_ok.1 hi
    refine Bool.eq_false_iff.2 (List.find?_eq_none.1 hnone ((i, v), var) ?_)
    rw [List.mem_zipIdx_iff_getElem?, List.getElem?_zip_eq_some, List.getElem?_zipWith_eq_some]
    exact ⟨⟨_, _, hlower, hupper, rfl⟩, hv⟩

theorem checkWhole_eq_ok {tolerance : F} {vars : List Nat}
    (h : p.checkWhole tolerance vars = .ok (.ok ())) {var : Nat} (hvar : var ∈ vars) :
    ∃ v, p.x[var]? = some v ∧ ¬ tolerance < Scalar.fractionality v := by
  induction vars with
  | nil => cases hvar
  | cons first rest ih =>
    rw [checkWhole] at h
    rcases hvalue : fetch p.x first with e | v
    · rw [hvalue] at h; cases h
    · simp only [hvalue, Bind.bind, Except.bind] at h
      split at h
      · cases h
      · rcases List.mem_cons.1 hvar with rfl | hvar
        · exact ⟨v, fetch_eq_ok.1 hvalue, ‹_›⟩
        · exact ih h hvar

/-- Where every variable has a value, reading the candidates does not fail. -/
theorem checkWhole_ok {tolerance : F} {vars : List Nat} (h : ∀ var ∈ vars, var < p.x.length) :
    ∃ verdict, p.checkWhole tolerance vars = .ok verdict := by
  induction vars with
  | nil => exact ⟨_, rfl⟩
  | cons first rest ih =>
    obtain ⟨hfirst, hrest⟩ := List.forall_mem_cons.1 h
    have hvalue : fetch p.x first = .ok p.x[first] :=
      fetch_eq_ok.2 (List.getElem?_eq_getElem hfirst)
    rw [checkWhole]
    simp only [hvalue, Bind.bind, Except.bind]
    split
    · exact ⟨_, rfl⟩
    · exact ih hrest

theorem checkRows_eq_ok {tolerance : F} (h : p.checkRows M tolerance = .ok (.ok ())) :
    ∃ amount, M.lp.violation p.x = .ok amount ∧ ¬ tolerance < amount := by
  unfold checkRows at h
  rcases hviolation : M.lp.violation p.x with e | amount
  · rw [hviolation] at h; cases h
  · refine ⟨amount, rfl, fun hlt => ?_⟩
    simp only [hviolation, Bind.bind, Except.bind, hlt, if_true] at h
    cases h

/-- If a check fails and gives no answer, the point has the right size, and its candidates could not
    be read or its rows not be measured. -/
theorem check_eq_error {fault : Fault} (h : p.check M candidates tracker settings = .error fault) :
    p.x.length = M.vars ∧ (p.checkWhole settings.integrality candidates = .error fault ∨
      M.lp.violation p.x = .error fault) := by
  unfold check at h
  rcases hshape : p.checkShape M.vars with _ | _
  · rw [hshape] at h; cases h
  refine ⟨(checkShape_eq_ok hshape).1, ?_⟩
  rcases hbounds : p.checkBounds M.box settings.feasibility with _ | _
  · rw [hshape, hbounds] at h; cases h
  rcases hwhole : p.checkWhole settings.integrality candidates with e | _ | _
  · rw [hshape, hbounds, hwhole] at h
    cases h
    exact .inl rfl
  · rw [hshape, hbounds, hwhole] at h; cases h
  rcases hviolation : M.lp.violation p.x with e | amount
  · have hrows : p.checkRows M settings.feasibility = .error e := by rw [checkRows, hviolation]; rfl
    rw [hshape, hbounds, hwhole, hrows] at h
    cases h
    exact .inr rfl
  rcases hrows : p.checkRows M settings.feasibility with e | _ | _
  · rw [checkRows, hviolation] at hrows; cases hrows
  · rw [hshape, hbounds, hwhole, hrows] at h; cases h
  rcases hobjective : p.checkObjective tracker settings.tolerance (M.objective p.x) with _ | _
  · rw [hshape, hbounds, hwhole, hrows, hobjective] at h; cases h
  · rw [hshape, hbounds, hwhole, hrows, hobjective] at h; cases h

/-! ## What was passed -/

namespace Passes

/-- There is one finite value for each variable. -/
theorem finite (h : p.Passes M candidates tracker settings objective) :
    p.x.length = M.vars ∧ p.x.all Scalar.isFinite = true := checkShape_eq_ok h.shape

/-- Every value is inside the bounds of the program, within the tolerance. -/
theorem inside (h : p.Passes M candidates tracker settings objective) {var : Nat} {i : Interval F}
    {v : F} (hi : M.box.interval var = .ok i) (hv : p.x[var]? = some v) :
    ¬ v < i.lower - settings.feasibility ∧ ¬ i.upper + settings.feasibility < v := by
  simpa [outside] using checkBounds_eq_ok h.bounds hi hv

/-- The objective is that of the point, and improves on the incumbent. -/
theorem improves (h : p.Passes M candidates tracker settings objective) :
    objective = M.objective p.x ∧ tracker.improves objective settings.tolerance = true := by
  have hobjective := h.objective
  unfold checkObjective at hobjective
  split at hobjective
  · cases hobjective
  · split at hobjective
    · cases hobjective
      exact ⟨rfl, ‹_›⟩
    · cases hobjective

end Passes

end Milp.Proposal
