/-
  What an engine that was checked is known for.

  * `Settings.Valid`: the tolerances are finite and not negative, and values within the tolerance of
    integrality of two whole numbers do not exist.
  * `Search.Engine.Checked`: the candidates are distinct variables of the program.
-/
import Milp.Search.Engine

namespace Milp

variable {F σ β κ : Type} [Scalar F]

theorem Settings.validateTolerance_eq_ok {name : ToleranceName} {value : F}
    (h : Settings.validateTolerance name value = .ok ()) :
    Scalar.isFinite value = true ∧ ¬ value < 0 := by
  unfold Settings.validateTolerance at h
  split at h
  · cases h
  · simp_all

/-- The settings that a search needs to be right. -/
structure Settings.Valid (s : Settings F) : Prop where
  tolerance : Scalar.isFinite s.tolerance = true ∧ ¬ s.tolerance < 0
  integrality : Scalar.isFinite s.integrality = true ∧ ¬ s.integrality < 0
  feasibility : Scalar.isFinite s.feasibility = true ∧ ¬ s.feasibility < 0
  narrow : ¬ 0.5 ≤ s.integrality

theorem Settings.validate_eq_ok {s : Settings F} (h : s.validate = .ok ()) : s.Valid := by
  unfold Settings.validate at h
  rcases htime : s.timeLimit.forM Settings.validateTimeLimit with _ | _
  · rw [htime] at h; cases h
  rcases himprovement : Settings.validateTolerance .improvement s.tolerance with _ | _
  · rw [htime, himprovement] at h; cases h
  rcases hintegrality : Settings.validateTolerance .integrality s.integrality with _ | _
  · rw [htime, himprovement, hintegrality] at h; cases h
  rcases hfeasibility : Settings.validateTolerance .feasibility s.feasibility with _ | _
  · rw [htime, himprovement, hintegrality, hfeasibility] at h; cases h
  rw [htime, himprovement, hintegrality, hfeasibility] at h
  refine ⟨validateTolerance_eq_ok himprovement, validateTolerance_eq_ok hintegrality,
    validateTolerance_eq_ok hfeasibility, fun hnarrow => ?_⟩
  simp only [hnarrow, if_true] at h
  cases h

namespace Search

/-- An engine that was checked. -/
structure Engine.Checked (E : Engine F σ β κ) : Prop where
  settings : E.settings.Valid
  candidate_lt : ∀ var ∈ E.candidates, var < E.problem.vars
  nodup : E.candidates.Nodup

omit [Scalar F] in
theorem Engine.checkCandidates_eq_ok {vars : Nat} {seen candidates : List Nat}
    (h : Engine.checkCandidates (F := F) vars seen candidates = .ok ()) :
    (∀ var ∈ candidates, var < vars ∧ var ∉ seen) ∧ candidates.Nodup := by
  induction candidates generalizing seen with
  | nil => exact ⟨by simp, List.nodup_nil⟩
  | cons var rest ih =>
    unfold checkCandidates at h
    split at h
    · cases h
    · split at h
      · cases h
      · obtain ⟨hrest, hnodup⟩ := ih h
        refine ⟨fun v hv => ?_, List.nodup_cons.2 ⟨fun hmem => ?_, hnodup⟩⟩
        · rcases List.mem_cons.1 hv with rfl | hv
          · exact ⟨by omega, ‹_›⟩
          · exact ⟨(hrest v hv).1, fun hseen => (hrest v hv).2 (List.mem_cons_of_mem _ hseen)⟩
        · exact (hrest var hmem).2 List.mem_cons_self

theorem Engine.check_eq_ok {E : Engine F σ β κ} (h : E.check = .ok ()) : E.Checked := by
  unfold Engine.check at h
  rcases hsettings : E.settings.validate with _ | _
  · rw [hsettings] at h; cases h
  rcases hcandidates : Engine.checkCandidates (F := F) E.problem.vars [] E.candidates with _ | _
  · rw [hsettings, hcandidates] at h; cases h
  obtain ⟨hlt, hnodup⟩ := checkCandidates_eq_ok hcandidates
  exact ⟨Settings.validate_eq_ok hsettings, fun var hvar => (hlt var hvar).1, hnodup⟩

end Search

end Milp
