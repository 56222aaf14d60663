/-
  The order of scalars, also of those that are not finite.

  Numbers are the values `a` with `a ≤ a`.  They are in order, and taking a finite value away keeps
  the order, also in doubles, where it rounds.

  * `Scalar.Ordered`: what a scalar has to get right; exact scalars and doubles do.
  * `Scalar.le_max_left`, `Scalar.max_le`, `Scalar.min_le_left`: the larger and the smaller value.
  * `Scalar.le_foldl_max`, `Scalar.foldl_max_le`: the largest value of a list.
-/
import Milp.Proofs.Scalar.Rounding

namespace Milp

/-- Numbers are in order, and subtraction of finite values keeps the order. -/
class Scalar.Ordered (F : Type) [Extended F] : Prop where
  isNaN_iff : ∀ {a : F}, Scalar.isNaN a = true ↔ ¬ a ≤ a
  le_of_isFinite : ∀ {a : F}, Scalar.isFinite a = true → a ≤ a
  le_of_lt : ∀ {a b : F}, a < b → a ≤ b
  refl_of_le : ∀ {a b : F}, a ≤ b → a ≤ a ∧ b ≤ b
  le_trans : ∀ {a b c : F}, a ≤ b → b ≤ c → a ≤ c
  not_lt : ∀ {a b : F}, a ≤ a → b ≤ b → (¬ a < b ↔ b ≤ a)
  zero_lt_one : (0 : F) < 1
  infinity_le : (Extended.infinity : F) ≤ Extended.infinity
  neg_infinity_le : -(Extended.infinity : F) ≤ -Extended.infinity
  sub_le_sub_right : ∀ {a b c : F}, a ≤ b → Scalar.isFinite c = true → a - c ≤ b - c
  sub_le_sub_left : ∀ {a b c : F}, a ≤ b → Scalar.isFinite c = true → c - b ≤ c - a
  /-- The product of positive values is a number. -/
  mul_le_mul_self : ∀ {a b : F}, 0 < a → 0 < b → a * b ≤ a * b

namespace Scalar

variable {F : Type} [Extended F] [Ordered F] {a b c x : F}

theorem zero_le_zero : (0 : F) ≤ 0 := (Ordered.refl_of_le (Ordered.le_of_lt Ordered.zero_lt_one)).1

theorem one_le_one : (1 : F) ≤ 1 := (Ordered.refl_of_le (Ordered.le_of_lt Ordered.zero_lt_one)).2

theorem pos_of_one_le (h : (1 : F) ≤ a) : 0 < a := by
  by_contra hnot
  have hle := (Ordered.not_lt zero_le_zero (Ordered.refl_of_le h).2).1 hnot
  exact (Ordered.not_lt zero_le_zero one_le_one).2 (Ordered.le_trans h hle) Ordered.zero_lt_one

/-! ## The larger and the smaller of two values -/

theorem le_max_left (ha : a ≤ a) : a ≤ Scalar.max a b := by
  unfold Scalar.max
  split
  · exact absurd ha (Ordered.isNaN_iff.1 ‹_›)
  · split
    · exact ha
    · split
      · exact Ordered.le_of_lt ‹_›
      · exact ha

theorem le_max_right (hb : b ≤ b) : b ≤ Scalar.max a b := by
  unfold Scalar.max
  split
  · exact hb
  · rename_i ha
    have hnumber : a ≤ a := by
      by_contra h
      exact ha (Ordered.isNaN_iff.2 h)
    split
    · exact absurd hb (Ordered.isNaN_iff.1 ‹_›)
    · split
      · exact hb
      · exact (Ordered.not_lt hnumber hb).1 ‹_›

/-- A value that is no number does not count. -/
theorem max_le (ha : a ≤ c) (hb : b ≤ b → b ≤ c) : Scalar.max a b ≤ c := by
  unfold Scalar.max
  split
  · exact absurd (Ordered.refl_of_le ha).1 (Ordered.isNaN_iff.1 ‹_›)
  · split
    · exact ha
    · rename_i hnumber
      split
      · refine hb ?_
        by_contra h
        exact hnumber (Ordered.isNaN_iff.2 h)
      · exact ha

theorem min_le_left (ha : a ≤ a) : Scalar.min a b ≤ a := by
  unfold Scalar.min
  split
  · exact absurd ha (Ordered.isNaN_iff.1 ‹_›)
  · split
    · exact ha
    · split
      · exact Ordered.le_of_lt ‹_›
      · exact ha

theorem min_le_right (hb : b ≤ b) : Scalar.min a b ≤ b := by
  unfold Scalar.min
  split
  · exact hb
  · rename_i ha
    have hnumber : a ≤ a := by
      by_contra h
      exact ha (Ordered.isNaN_iff.2 h)
    split
    · exact absurd hb (Ordered.isNaN_iff.1 ‹_›)
    · split
      · exact hb
      · exact (Ordered.not_lt hb hnumber).1 ‹_›

theorem le_min (ha : c ≤ a) (hb : b ≤ b → c ≤ b) : c ≤ Scalar.min a b := by
  unfold Scalar.min
  split
  · exact absurd (Ordered.refl_of_le ha).2 (Ordered.isNaN_iff.1 ‹_›)
  · split
    · exact ha
    · rename_i hnumber
      split
      · refine hb ?_
        by_contra h
        exact hnumber (Ordered.isNaN_iff.2 h)
      · exact ha

/-! ## The largest value of a list -/

theorem le_foldl_max (ha : a ≤ a) (xs : List F) : a ≤ xs.foldl Scalar.max a := by
  induction xs generalizing a with
  | nil => exact ha
  | cons x xs ih =>
    have hle := le_max_left (b := x) ha
    exact Ordered.le_trans hle (ih (Ordered.refl_of_le hle).2)

theorem le_foldl_max_of_mem {xs : List F} (ha : a ≤ a) (hx : x ≤ x) (h : x ∈ xs) :
    x ≤ xs.foldl Scalar.max a := by
  induction xs generalizing a with
  | nil => cases h
  | cons y xs ih =>
    rcases List.mem_cons.1 h with rfl | h
    · have hle := le_max_right (a := a) hx
      exact Ordered.le_trans hle (le_foldl_max (Ordered.refl_of_le hle).2 xs)
    · exact ih (Ordered.refl_of_le (le_max_left ha)).2 h

theorem foldl_max_le {xs : List F} (ha : a ≤ c) (h : ∀ x ∈ xs, x ≤ x → x ≤ c) :
    xs.foldl Scalar.max a ≤ c := by
  induction xs generalizing a with
  | nil => exact ha
  | cons x xs ih =>
    obtain ⟨hx, hxs⟩ := List.forall_mem_cons.1 h
    exact ih (max_le ha hx) hxs

end Scalar

/-! ## Exact scalars -/

namespace Exact

variable {a b : Exact} {t : Rat}

theorem le_self_iff : a ≤ a ↔ a ≠ nan := ⟨ne_nan_of_le_left, le_refl⟩

theorem sub_le_sub_left (h : a ≤ b) : fin t - b ≤ fin t - a := by
  cases a <;> cases b <;> simp_all [le_def, below, same, sub_def, Exact.add, Exact.neg]
  grind

theorem mul_le_mul_self (ha : fin 0 < a) (hb : fin 0 < b) : a * b ≤ a * b := by
  refine le_refl ?_
  cases a with
  | nan | negInf => cases ha
  | fin p =>
    cases b with
    | nan | negInf => cases hb
    | fin q => exact Exact.noConfusion
    | posInf =>
      show infOf p ≠ nan
      rw [infOf, if_pos (fin_lt_fin.1 ha)]
      exact Exact.noConfusion
  | posInf =>
    cases b with
    | nan | negInf => cases hb
    | fin q =>
      show infOf q ≠ nan
      rw [infOf, if_pos (fin_lt_fin.1 hb)]
      exact Exact.noConfusion
    | posInf => exact Exact.noConfusion

instance : Scalar.Ordered Exact where
  isNaN_iff := by
    intro a
    rw [isNaN_iff, le_self_iff, not_not]
  le_of_isFinite h := by
    obtain ⟨q, rfl⟩ := isFinite_iff.1 h
    exact le_refl Exact.noConfusion
  le_of_lt := le_of_lt
  refl_of_le h := ⟨le_refl (ne_nan_of_le_left h), le_refl (ne_nan_of_le_right h)⟩
  le_trans := le_trans
  not_lt ha hb := ⟨le_of_not_lt (le_self_iff.1 hb) (le_self_iff.1 ha), not_lt_of_le⟩
  zero_lt_one := by decide
  infinity_le := by decide
  neg_infinity_le := by decide
  sub_le_sub_right h hc := by
    obtain ⟨t, rfl⟩ := isFinite_iff.1 hc
    exact sub_le_sub h
  sub_le_sub_left h hc := by
    obtain ⟨t, rfl⟩ := isFinite_iff.1 hc
    exact sub_le_sub_left h
  mul_le_mul_self := by
    intro a b ha hb
    rw [zero_eq] at ha hb
    exact mul_le_mul_self ha hb

end Exact

/-! ## Doubles -/

namespace Double

/-- Rounding keeps the order, so doubles inherit it from the exact scalars. -/
instance : Scalar.Ordered Float where
  isNaN_iff := by
    intro a
    rw [isNaN_iff_exact, le_iff_exact, Exact.le_self_iff, not_not]
  le_of_isFinite h := by
    obtain ⟨q, hq⟩ := isFinite_iff_exact.1 h
    rw [le_iff_exact, hq]
    exact Exact.le_refl Exact.noConfusion
  le_of_lt h := le_iff_exact.2 (Exact.le_of_lt (lt_iff_exact.1 h))
  refl_of_le h := by
    have hle := le_iff_exact.1 h
    exact ⟨le_iff_exact.2 (Exact.le_refl (Exact.ne_nan_of_le_left hle)),
      le_iff_exact.2 (Exact.le_refl (Exact.ne_nan_of_le_right hle))⟩
  le_trans h h' := le_iff_exact.2 (Exact.le_trans (le_iff_exact.1 h) (le_iff_exact.1 h'))
  not_lt ha hb := by
    rw [le_iff_exact, Exact.le_self_iff] at ha hb
    rw [lt_iff_exact, le_iff_exact]
    exact ⟨Exact.le_of_not_lt hb ha, Exact.not_lt_of_le⟩
  zero_lt_one := by decide +kernel
  infinity_le := by decide +kernel
  neg_infinity_le := by decide +kernel
  sub_le_sub_right h hc := by
    obtain ⟨t, ht⟩ := isFinite_iff_exact.1 hc
    rw [le_iff_exact, exact_sub, exact_sub, ht]
    exact approximate_mono (Exact.sub_le_sub (le_iff_exact.1 h))
  sub_le_sub_left h hc := by
    obtain ⟨t, ht⟩ := isFinite_iff_exact.1 hc
    rw [le_iff_exact, exact_sub, exact_sub, ht]
    exact approximate_mono (Exact.sub_le_sub_left (le_iff_exact.1 h))
  mul_le_mul_self := by
    intro a b ha hb
    have hzero := toRat?_eq_some_iff.1 (Scalar.Faithful.zero_eq (F := Float))
    rw [lt_iff_exact, hzero] at ha hb
    rw [le_iff_exact, exact_mul]
    exact approximate_mono (Exact.mul_le_mul_self ha hb)

end Double

end Milp
