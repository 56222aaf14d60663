/-
  What holds of every kind of scalar.

  * `Scalar.max_choice`, `Scalar.min_choice`: the larger and the smaller of two values are one of
    the two, also where one of them is no number.
-/
import Milp.Scalar.Basic

namespace Milp.Scalar

variable {F : Type} [Scalar F]

theorem max_choice (a b : F) : Scalar.max a b = a ∨ Scalar.max a b = b := by
  unfold Scalar.max
  split
  · exact .inr rfl
  · split
    · exact .inl rfl
    · split
      · exact .inr rfl
      · exact .inl rfl

theorem min_choice (a b : F) : Scalar.min a b = a ∨ Scalar.min a b = b := by
  unfold Scalar.min
  split
  · exact .inr rfl
  · split
    · exact .inl rfl
    · split
      · exact .inr rfl
      · exact .inl rfl

end Milp.Scalar
