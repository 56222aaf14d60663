/-
  The gap between a value and itself.

  What is printed has no negative zero, so a gap is measured from a value to that value without the
  sign of a zero.

  * `Scalar.IsNegativeZero`: the zero that is not printed.
  * `Scalar.Gapless`: what a scalar has to get right for this gap to be zero; exact scalars and
    doubles do.
  * `Scalar.relativeGap_positiveZero`: this gap is zero.
  * `Double.eq_zero_of_unpack`: of the two zeros the one with the positive sign is written `0`.
-/
import Milp.Incumbent
import Milp.Proofs.Scalar.Placed
import Milp.Proofs.Scalar.Signed

namespace Milp

namespace Scalar

variable {F : Type} [Extended F] {a b : F}

/-- The distance of a value to itself is zero, also without the sign of a zero, and zero is zero in
    relation to any positive value. -/
class Gapless (F : Type) [Extended F] : Prop where
  isFinite_of_beq_zero : ∀ {a : F}, (a == 0) = true → isFinite a = true
  isFinite_abs : ∀ {a : F}, isFinite a = true → isFinite (abs a) = true
  abs_sub_positiveZero : ∀ {a : F}, isFinite a = true → abs (a - positiveZero a) = 0
  zero_div : ∀ {b : F}, isFinite b = true → 0 < b → 0 / b = 0
  /-- The least value that a distance is measured against. -/
  unit : isFinite (1e-10 : F) = true ∧ (0 : F) < 1e-10

/-- A negative zero equals zero, and is not the same. -/
def IsNegativeZero (a : F) : Prop := (a == 0) = true ∧ a ≠ 0

theorem not_isNegativeZero_positiveZero : ¬ IsNegativeZero (positiveZero a) := by
  rintro ⟨hequal, hne⟩
  unfold positiveZero at hequal hne
  split at hequal
  · exact hne (if_pos ‹_›)
  · exact absurd hequal ‹_›

theorem not_isInfinite (h : isFinite a = true) : isInfinite a = false := by
  rw [isInfinite, h]
  rfl

variable [Gapless F]

theorem isFinite_positiveZero [Faithful F] :
    isFinite (positiveZero a) = true ↔ isFinite a = true := by
  unfold positiveZero
  split
  · exact iff_of_true (Faithful.isFinite_iff.2 ⟨0, Faithful.zero_eq⟩)
      (Gapless.isFinite_of_beq_zero ‹_›)
  · rfl

variable [Faithful F] [Ordered F] [Placed F]

/-- The gap between a finite value and itself is zero. -/
theorem relativeGap_positiveZero (h : isFinite a = true) : relativeGap a (positiveZero a) = 0 := by
  obtain ⟨hunit, hpos⟩ := Gapless.unit (F := F)
  have habs := Gapless.isFinite_abs h
  have hfinite : isFinite (Scalar.max (abs a) 1e-10) = true := by
    rcases max_choice (abs a) (1e-10 : F) with hmax | hmax <;> rw [hmax]
    · exact habs
    · exact hunit
  have hmax : (0 : F) < Scalar.max (abs a) 1e-10 :=
    lt_of_lt_of_le hpos (le_max_right (Ordered.le_of_isFinite hunit))
  rw [relativeGap, not_isInfinite h, not_isInfinite (isFinite_positiveZero.2 h),
    Gapless.abs_sub_positiveZero h]
  exact Gapless.zero_div hfinite hmax

end Scalar

/-! ## Exact scalars -/

namespace Exact

instance : Scalar.Gapless Exact where
  isFinite_of_beq_zero {a} h := by
    cases a with
    | fin => rfl
    | _ => cases h
  isFinite_abs h := by
    obtain ⟨q, rfl⟩ := isFinite_iff.1 h
    exact isFinite_iff.2 ⟨_, abs_fin q⟩
  abs_sub_positiveZero h := by
    obtain ⟨q, rfl⟩ := isFinite_iff.1 h
    rw [positiveZero_eq, fin_sub_fin, sub_self, zero_eq]
    exact (abs_fin 0).trans (congrArg fin abs_zero)
  zero_div h hpos := by
    obtain ⟨q, rfl⟩ := isFinite_iff.1 h
    rw [zero_eq, fin_lt_fin] at hpos
    rw [zero_eq]
    exact (if_neg hpos.ne').trans (congrArg fin (zero_div q))
  unit := by decide +kernel

end Exact

/-! ## Doubles -/

namespace Double

open Float.Model Float.Model.UnpackedFloat

variable {x : Float}

/-- A double is zero if it is unpacked as the zero with the positive sign. -/
theorem eq_zero_of_unpack (h : x.toModel.unpack = .zero .positive) : x = 0 := eq_of_unpack h

/-- Doubles of one value, also the two zeros, do not differ. -/
theorem abs_sub_eq_zero {x y : Float} {q : Rat} (hx : exact x = .fin q) (hy : exact y = .fin q) :
    Float.abs (x - y) = 0 := by
  -- the difference is one of the two zeros, and the magnitude of both is the positive one
  obtain ⟨s, hs⟩ := sub_eq_zero (normal_unpack x) (normal_unpack y) (value_of_exactOf hx)
    (value_of_exactOf hy)
  have hsub : (x - y).toModel.unpack = .zero s := (unpack_pack (hs ▸ trivial)).trans hs
  refine eq_zero_of_unpack ((unpack_abs _).trans ?_)
  rw [hsub]
  rfl

instance : Scalar.Gapless Float where
  isFinite_of_beq_zero h := isFinite_iff_exact.2 ⟨0, exact_eq_of_beq_zero h⟩
  isFinite_abs h := by
    obtain ⟨q, hq⟩ := isFinite_iff_exact.1 h
    exact isFinite_iff_exact.2 ⟨_, (exact_abs _).trans (hq ▸ Exact.abs_fin q)⟩
  abs_sub_positiveZero := by
    intro a h
    obtain ⟨q, hq⟩ := isFinite_iff_exact.1 h
    exact abs_sub_eq_zero hq ((exact_positiveZero a).trans hq)
  zero_div := by
    intro b h hpos
    obtain ⟨q, hq⟩ := isFinite_iff_exact.1 h
    rw [lt_iff_exact, hq, toRat?_eq_some_iff.1 (Scalar.Faithful.zero_eq (F := Float)),
      Exact.fin_lt_fin] at hpos
    have hvalue := value_of_exactOf hq
    have hdiv : UnpackedFloat.div Format.binary64 (.zero .positive) b.toModel.unpack =
        .zero .positive := by
      generalize b.toModel.unpack = u at hvalue
      cases u with
      | infinity | notANumber => cases hvalue
      | zero =>
        cases hvalue
        exact absurd hpos (lt_irrefl 0)
      | finite s m e hm =>
        cases s with
        | positive => rfl
        | negative =>
          cases hvalue
          have hle : (Sign.negative.apply m : Rat) * 2 ^ e ≤ 0 := by
            rw [apply_mul_zpow]
            exact neg_nonpos.2 (by positivity)
          exact absurd hpos (not_lt.2 hle)
    exact eq_zero_of_unpack ((unpack_pack (hdiv ▸ trivial)).trans hdiv)
  unit := by decide +kernel

end Double

end Milp
