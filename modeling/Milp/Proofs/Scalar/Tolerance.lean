/-
  Tolerances, and values that are not negative.

  A value that is inside a bound within a tolerance is inside it within any larger one, and a value
  that was rounded is whole, so a check with more tolerance passes what a check with less passed.

  * `Scalar.Tolerant`: what a scalar has to get right for this; exact scalars and doubles do.
  * `Scalar.fractionality_round`: a rounded value is at no distance from the nearest whole number.
  * `Scalar.not_lt_abs_sub_self`: a value differs from itself by no more than any tolerance.
-/
import Milp.Proofs.Scalar.Gap

namespace Milp

namespace Scalar

/-- Rounding ends at a whole number, a larger tolerance makes a bound no tighter, a value does not
    differ from itself, and what is computed from values that are not negative is not negative. -/
class Tolerant (F : Type) [Extended F] : Prop where
  exists_int_round : ∀ {a : F} {p}, toRat? a = some p →
    ∃ z : Int, toRat? (round a) = some (z : Rat)
  sub_le_of_le : ∀ {a b t t' : F}, a - t ≤ b → isFinite t = true → isFinite t' = true → t ≤ t' →
    a - t' ≤ b
  le_add_of_le : ∀ {a b t t' : F}, b ≤ a + t → isFinite t = true → isFinite t' = true → t ≤ t' →
    b ≤ a + t'
  abs_sub_self : ∀ {a : F}, isFinite a = true → abs (a - a) = 0
  not_abs_lt_zero : ∀ a : F, ¬ abs a < 0
  not_add_lt_zero : ∀ {a b : F}, ¬ a < 0 → ¬ b < 0 → ¬ a + b < 0
  not_mul_lt_zero : ∀ {a b : F}, ¬ a < 0 → ¬ b < 0 → ¬ a * b < 0
  /-- The least rise of the bound that pseudocost branching expects on a side. -/
  millionth : (0 : F) < 1e-6

variable {F : Type} [Extended F] [Tolerant F] {a t : F} {p : Rat}

/-- A rounded value is at no distance from the nearest whole number. -/
theorem fractionality_round [Faithful F] (h : toRat? a = some p) :
    toRat? (fractionality (round a)) = some 0 := by
  obtain ⟨z, hz⟩ := Tolerant.exists_int_round h
  exact Faithful.fractionality_eq hz

theorem isFinite_round [Faithful F] (h : isFinite a = true) : isFinite (round a) = true := by
  obtain ⟨p, hp⟩ := Faithful.isFinite_iff.1 h
  obtain ⟨z, hz⟩ := Tolerant.exists_int_round hp
  exact Faithful.isFinite_iff.2 ⟨z, hz⟩

theorem millionth_number [Ordered F] : (1e-6 : F) ≤ 1e-6 :=
  (Ordered.refl_of_le (Ordered.le_of_lt Tolerant.millionth)).2

/-- A value differs from itself by no more than a tolerance, however that grows with the value. -/
theorem not_lt_abs_sub_self [Ordered F] (ht : ¬ t < 0) (ha : isFinite a = true) :
    ¬ t * (1 + abs a) < abs (a - a) := by
  have hone : ¬ (1 : F) < 0 :=
    (Ordered.not_lt one_le_one zero_le_zero).2 (Ordered.le_of_lt Ordered.zero_lt_one)
  rw [Tolerant.abs_sub_self ha]
  exact Tolerant.not_mul_lt_zero ht (Tolerant.not_add_lt_zero hone (Tolerant.not_abs_lt_zero a))

end Scalar

/-! ## Exact scalars -/

namespace Exact

variable {a b : Exact} {t t' : Rat}

theorem sub_le_sub_fin (h : a - fin t ≠ nan) (ht : t ≤ t') : a - fin t' ≤ a - fin t := by
  cases a <;> simp_all [le_def, below, same, sub_def, Exact.add, Exact.neg]
  grind

theorem add_le_add_fin (h : a + fin t ≠ nan) (ht : t ≤ t') : a + fin t ≤ a + fin t' := by
  cases a <;> simp_all [le_def, below, same, add_def, Exact.add]
  grind

theorem not_lt_zero_iff : ¬ a < fin 0 ↔ a = nan ∨ fin 0 ≤ a := by
  cases a <;> simp [lt_def, le_def, below, same, le_iff_lt_or_eq]

theorem not_abs_lt_zero (a : Exact) : ¬ Exact.abs a < fin 0 := by
  cases a with
  | fin q =>
    rw [abs_fin, fin_lt_fin, not_lt]
    exact abs_nonneg q
  | _ => decide

theorem not_add_lt_zero (ha : ¬ a < fin 0) (hb : ¬ b < fin 0) : ¬ a + b < fin 0 := by
  cases a <;> cases b <;> simp_all [lt_def, below, add_def, Exact.add]
  grind

instance : Scalar.Tolerant Exact where
  exists_int_round := by
    intro a p h
    rw [toRat?_eq_some.1 h]
    exact ⟨Rational.round p, rfl⟩
  sub_le_of_le h ht ht' hle := by
    obtain ⟨t, rfl⟩ := isFinite_iff.1 ht
    obtain ⟨t', rfl⟩ := isFinite_iff.1 ht'
    exact le_trans (sub_le_sub_fin (ne_nan_of_le_left h) (fin_le_fin.1 hle)) h
  le_add_of_le h ht ht' hle := by
    obtain ⟨t, rfl⟩ := isFinite_iff.1 ht
    obtain ⟨t', rfl⟩ := isFinite_iff.1 ht'
    exact le_trans h (add_le_add_fin (ne_nan_of_le_right h) (fin_le_fin.1 hle))
  abs_sub_self h := by
    obtain ⟨q, rfl⟩ := isFinite_iff.1 h
    rw [fin_sub_fin, sub_self, zero_eq]
    exact (abs_fin 0).trans (congrArg fin abs_zero)
  not_abs_lt_zero a := by
    rw [zero_eq]
    exact not_abs_lt_zero a
  not_add_lt_zero ha hb := by
    rw [zero_eq] at *
    exact not_add_lt_zero ha hb
  not_mul_lt_zero ha hb := by
    rw [zero_eq] at *
    exact not_mul_lt_zero ha hb
  millionth := by decide +kernel

end Exact

/-! ## Doubles -/

namespace Double

variable {e : Exact}

theorem ne_nan_of_approximate (h : approximate e ≠ .nan) : e ≠ .nan := by
  rintro rfl
  exact h rfl

theorem not_approximate_lt_zero (h : ¬ e < .fin 0) : ¬ approximate e < .fin 0 := by
  rcases Exact.not_lt_zero_iff.1 h with rfl | hle
  · exact h
  · have hmono := approximate_mono hle
    rw [approximate_zero] at hmono
    exact Exact.not_lt_of_le hmono

theorem lt_iff_lt_zero {a z : Float} (hz : Scalar.toRat? z = some 0) : a < z ↔ exact a < .fin 0 := by
  rw [lt_iff_exact, toRat?_eq_some_iff.1 hz]

instance : Scalar.Tolerant Float where
  exists_int_round h := by
    obtain ⟨z, -, hz⟩ := exists_toRat?_round h
    exact ⟨z, hz⟩
  sub_le_of_le := by
    intro a b t t' h ht ht' hle
    obtain ⟨r, hr⟩ := isFinite_iff_exact.1 ht
    obtain ⟨r', hr'⟩ := isFinite_iff_exact.1 ht'
    rw [le_iff_exact, hr, hr', Exact.fin_le_fin] at hle
    rw [le_iff_exact, exact_sub, hr] at h
    rw [le_iff_exact, exact_sub, hr']
    have hnumber := ne_nan_of_approximate (Exact.ne_nan_of_le_left h)
    exact Exact.le_trans (approximate_mono (Exact.sub_le_sub_fin hnumber hle)) h
  le_add_of_le := by
    intro a b t t' h ht ht' hle
    obtain ⟨r, hr⟩ := isFinite_iff_exact.1 ht
    obtain ⟨r', hr'⟩ := isFinite_iff_exact.1 ht'
    rw [le_iff_exact, hr, hr', Exact.fin_le_fin] at hle
    rw [le_iff_exact, exact_add, hr] at h
    rw [le_iff_exact, exact_add, hr']
    have hnumber := ne_nan_of_approximate (Exact.ne_nan_of_le_right h)
    exact Exact.le_trans h (approximate_mono (Exact.add_le_add_fin hnumber hle))
  abs_sub_self h := by
    obtain ⟨q, hq⟩ := isFinite_iff_exact.1 h
    exact abs_sub_eq_zero hq hq
  not_abs_lt_zero a := by
    rw [lt_iff_lt_zero Scalar.Faithful.zero_eq]
    exact fun h => Exact.not_abs_lt_zero (exact a) (exact_abs a ▸ h)
  not_add_lt_zero := by
    intro a b ha hb
    rw [lt_iff_lt_zero Scalar.Faithful.zero_eq] at *
    rw [exact_add]
    exact not_approximate_lt_zero (Exact.not_add_lt_zero ha hb)
  not_mul_lt_zero := by
    intro a b ha hb
    rw [lt_iff_lt_zero Scalar.Faithful.zero_eq] at *
    rw [exact_mul]
    exact not_approximate_lt_zero (Exact.not_mul_lt_zero ha hb)
  millionth := by decide +kernel

end Double

end Milp
