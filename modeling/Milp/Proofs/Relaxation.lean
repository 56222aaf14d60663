/-
  What a relaxation answers, after the check of the search.

  * `Answer.check_eq_optimal`, `Answer.check_eq_infeasible`: an answer that passes its check is the
    answer that was given; an optimal one is finite and of the right size.
  * `Relaxation.Visited`: the states that a relaxation can be in after a number of solves.
-/
import Milp.Relaxation.Basic

namespace Milp

variable {F σ : Type}

section Answer

variable [Scalar F] {vars : Nat} {answer : Answer F} {x : List F} {objective : F}

theorem Answer.check_eq_optimal (h : answer.check vars = .optimal x objective) :
    answer = .optimal x objective ∧ x.length = vars ∧ Scalar.isFinite objective = true ∧
      x.all Scalar.isFinite = true := by
  rcases answer with ⟨y, value⟩ | _ | _ | _
  · simp only [Answer.check] at h
    split at h
    · cases h
    · split at h
      · cases h
      · cases h
        simp_all
  · cases h
  · cases h
  · cases h

theorem Answer.check_eq_infeasible (h : answer.check vars = .infeasible) :
    answer = .infeasible := by
  rcases answer with ⟨y, value⟩ | _ | _ | _
  · simp only [Answer.check] at h
    split at h
    · cases h
    · split at h <;> cases h
  · rfl
  · cases h
  · cases h

end Answer

/-- The states that a relaxation can be in after a number of solves. -/
inductive Relaxation.Visited (R : Relaxation F σ) (start : σ) : σ → Prop where
  | start : Visited R start start
  | solve {s r reply} (h : Visited R start s) (hsolve : R.solve s r = .ok reply) :
      Visited R start reply.state

end Milp
