/-
  Scalars that compute with finite values as the rationals do.

  Comparison and rounding to whole numbers are exact, also in doubles; sums and products need not
  be.

  * `Scalar.Faithful`: what a scalar has to get right.
  * `Scalar.toRat?_max`, `Scalar.toRat?_min`: the larger and the smaller of two finite values.
  * `Scalar.ne_intCast_of_fractionality`: values that are not whole.
-/
import Milp.Proofs.Scalar.Exact

namespace Milp

/-- On finite values comparison and rounding are those of the rationals. -/
class Scalar.Faithful (F : Type) [Scalar F] : Prop where
  isFinite_iff : ∀ {a : F}, Scalar.isFinite a = true ↔ ∃ p, Scalar.toRat? a = some p
  isNaN_eq : ∀ {a : F} {p}, Scalar.toRat? a = some p → Scalar.isNaN a = false
  lt_iff : ∀ {a b : F} {p q}, Scalar.toRat? a = some p → Scalar.toRat? b = some q →
    (a < b ↔ p < q)
  le_iff : ∀ {a b : F} {p q}, Scalar.toRat? a = some p → Scalar.toRat? b = some q →
    (a ≤ b ↔ p ≤ q)
  floor_eq : ∀ {a : F} {p}, Scalar.toRat? a = some p →
    Scalar.toRat? (Scalar.floor a) = some (⌊p⌋ : Rat)
  ceil_eq : ∀ {a : F} {p}, Scalar.toRat? a = some p →
    Scalar.toRat? (Scalar.ceil a) = some (⌈p⌉ : Rat)
  /-- A whole number has no distance from the nearest one. -/
  fractionality_eq : ∀ {a : F} {z : Int}, Scalar.toRat? a = some (z : Rat) →
    Scalar.toRat? (Scalar.fractionality a) = some 0
  zero_eq : Scalar.toRat? (0 : F) = some 0

namespace Scalar

variable {F : Type} [Scalar F] [Faithful F] {a b : F} {p q : Rat}

theorem toRat?_max (ha : toRat? a = some p) (hb : toRat? b = some q) :
    toRat? (Scalar.max a b) = some (Max.max p q) := by
  unfold Scalar.max
  rw [Faithful.isNaN_eq ha, Faithful.isNaN_eq hb]
  simp only [Bool.false_eq_true, if_false, Faithful.lt_iff ha hb]
  split
  · rw [hb, max_eq_right (le_of_lt ‹_›)]
  · rw [ha, max_eq_left (not_lt.1 ‹_›)]

theorem toRat?_min (ha : toRat? a = some p) (hb : toRat? b = some q) :
    toRat? (Scalar.min a b) = some (Min.min p q) := by
  unfold Scalar.min
  rw [Faithful.isNaN_eq ha, Faithful.isNaN_eq hb]
  simp only [Bool.false_eq_true, if_false, Faithful.lt_iff hb ha]
  split
  · rw [hb, min_eq_right (le_of_lt ‹_›)]
  · rw [ha, min_eq_left (not_lt.1 ‹_›)]

/-- A value that is farther from the nearest whole number than a tolerance is not whole.  There are
    two ways to test for this, which differ only for values that are no numbers. -/
theorem ne_intCast_of_fractionality (ha : toRat? a = some p) (hb : toRat? b = some q) (hq : 0 ≤ q)
    (h : ¬ fractionality a ≤ b ∨ b < fractionality a) (z : Int) : p ≠ z := by
  rintro rfl
  have hzero := Faithful.fractionality_eq ha
  rw [Faithful.le_iff hzero hb, Faithful.lt_iff hb hzero] at h
  rcases h with h | h
  · exact h hq
  · exact absurd hq (not_le.2 h)

end Scalar

/-! ## Exact scalars -/

namespace Exact

theorem toRat?_eq_some {a : Exact} {p : Rat} : Scalar.toRat? a = some p ↔ a = fin p := by
  cases a <;> simp [Scalar.toRat?]

theorem round_intCast (z : Int) : Rational.round (z : Rat) = z := by
  have hhalf : ∀ n : Int, ((n : Rat) + mkRat 1 2).floor = n := fun n => by
    show ⌊(n : Rat) + mkRat 1 2⌋ = n
    rw [Int.floor_intCast_add, Int.floor_eq_zero_iff.2 ⟨by decide, by decide⟩, add_zero]
  unfold Rational.round
  split
  · exact hhalf z
  · rw [← Int.cast_neg, hhalf, neg_neg]

instance : Scalar.Faithful Exact where
  isFinite_iff := by simp [isFinite_iff, toRat?_eq_some]
  isNaN_eq h := by
    rw [toRat?_eq_some.1 h]
    rfl
  lt_iff ha hb := by rw [toRat?_eq_some.1 ha, toRat?_eq_some.1 hb, fin_lt_fin]
  le_iff ha hb := by rw [toRat?_eq_some.1 ha, toRat?_eq_some.1 hb, fin_le_fin]
  floor_eq h := by rw [toRat?_eq_some.1 h, floor_fin, toRat?_eq_some]
  ceil_eq h := by rw [toRat?_eq_some.1 h, ceil_fin, toRat?_eq_some]
  fractionality_eq := by
    intro a z h
    rw [toRat?_eq_some.1 h, toRat?_eq_some]
    show Exact.abs (fin (z : Rat) - fin (Rational.round (z : Rat) : Rat)) = fin 0
    rw [round_intCast, fin_sub_fin, sub_self]
    rfl
  zero_eq := by rw [zero_eq, toRat?_eq_some]

theorem max_fin (p q : Rat) : Scalar.max (fin p) (fin q) = fin (max p q) :=
  toRat?_eq_some.1 (Scalar.toRat?_max (toRat?_eq_some.2 rfl) (toRat?_eq_some.2 rfl))

end Exact

end Milp
