/-
  Values that are not finite.

  An overflow leaves an infinity, and infinities leave values that are no numbers.  Neither of them
  disappears in a difference, in a magnitude or in the numerator of a quotient, so a finite result
  tells that its arguments were finite.  A minimum or a maximum does not: there a value that is no
  number loses.

  * `Scalar.Strict`: what a scalar has to get right for this; exact scalars and doubles do.
  * `Scalar.isFinite_relativeGap`: a finite gap is one between finite values.
-/
import Milp.Proofs.Scalar.Gap

namespace Milp

namespace Scalar

/-- A finite result has finite arguments, the magnitude of a number is a number, and what is below
    something is finite or `-∞`. -/
class Strict (F : Type) [Extended F] : Prop where
  isFinite_sub : ∀ {a b : F}, isFinite (a - b) = true → isFinite a = true ∧ isFinite b = true
  isFinite_of_abs : ∀ {a : F}, isFinite (abs a) = true → isFinite a = true
  isFinite_div : ∀ {a b : F}, isFinite (a / b) = true → isFinite a = true
  isFinite_infinity : isFinite (Extended.infinity : F) = false
  abs_le_abs_self : ∀ {a : F}, a ≤ a → abs a ≤ abs a
  finite_or_eq_of_lt : ∀ {a b : F}, a < b → isFinite a = true ∨ a = -Extended.infinity

/-- A finite gap is one between finite values. -/
theorem isFinite_relativeGap {F : Type} [Extended F] [Strict F] {primal dual : F}
    (h : isFinite (relativeGap primal dual) = true) :
    isFinite primal = true ∧ isFinite dual = true := by
  unfold relativeGap at h
  split at h
  · rw [Strict.isFinite_infinity] at h
    cases h
  · exact Strict.isFinite_sub (Strict.isFinite_of_abs (Strict.isFinite_div h))

end Scalar

/-! ## Exact scalars -/

namespace Exact

instance : Scalar.Strict Exact where
  isFinite_sub {a b} h := by
    cases a with
    | fin => cases b with
      | fin => exact ⟨rfl, rfl⟩
      | _ => cases h
    | _ => cases b <;> cases h
  isFinite_of_abs {a} h := by
    cases a with
    | fin => rfl
    | _ => cases h
  isFinite_div {a b} h := by
    cases a with
    | fin => rfl
    | nan => cases h
    | negInf | posInf =>
      cases b with
      | fin q =>
        change Scalar.isFinite (if q < 0 then _ else _) = true at h
        split at h <;> cases h
      | _ => cases h
  isFinite_infinity := rfl
  abs_le_abs_self {a} h := by
    cases a with
    | nan => exact h
    | fin q => exact le_refl (ne_of_eq_of_ne (abs_fin q) nofun)
    | _ => decide
  finite_or_eq_of_lt {a b} h := by
    cases a with
    | fin => exact .inl rfl
    | negInf => exact .inr rfl
    | nan | posInf => cases b <;> cases h

end Exact

/-! ## Doubles -/

namespace Double

open Float.Model Float.Model.UnpackedFloat

theorem exact_approximate_fin {a : Exact} {p : Rat} (h : approximate a = .fin p) :
    ∃ q, a = .fin q := by
  cases a with
  | fin q => exact ⟨q, rfl⟩
  | _ => cases h

/-- An infinity divided by anything is an infinity, or no number. -/
theorem div_infinity (s : Sign) (v : UnpackedFloat) :
    (∃ s', UnpackedFloat.div Format.binary64 (.infinity s) v = .infinity s') ∨
      UnpackedFloat.div Format.binary64 (.infinity s) v = .notANumber := by
  cases v with
  | infinity | notANumber => exact .inr rfl
  | zero | finite => exact .inl ⟨_, rfl⟩

/-- A quotient is not finite if its numerator is not. -/
theorem isFinite_of_div {x y : Float} (h : Scalar.isFinite (x / y) = true) :
    Scalar.isFinite x = true := by
  rw [isFinite_iff_exact] at *
  obtain ⟨p, hp⟩ := h
  have hdiv : exact (x / y) = exactOf (unpack Format.binary64 (pack Format.binary64
      (UnpackedFloat.div Format.binary64 x.toModel.unpack y.toModel.unpack))) := rfl
  rw [hdiv] at hp
  unfold exact
  generalize x.toModel.unpack = u at hp ⊢
  cases u with
  | zero | finite => exact ⟨_, rfl⟩
  | notANumber =>
    rw [UnpackedFloat.div, unpack_pack (u := .notANumber) trivial] at hp
    cases hp
  | infinity s =>
    rcases div_infinity s y.toModel.unpack with ⟨s', hs⟩ | hnan
    · rw [hs, unpack_pack (u := .infinity s') trivial] at hp
      cases s' <;> cases hp
    · rw [hnan, unpack_pack (u := .notANumber) trivial] at hp
      cases hp

theorem eq_neg_infinity {x : Float} (h : exact x = .negInf) : x = -Extended.infinity := by
  have hinfinity : (-Extended.infinity : Float).toModel.unpack = .infinity .negative := rfl
  refine eq_of_unpack (Eq.trans ?_ hinfinity.symm)
  unfold exact at h
  generalize x.toModel.unpack = u at h ⊢
  cases u with
  | infinity s =>
    cases s with
    | negative => rfl
    | positive => cases h
  | _ => cases h

instance : Scalar.Strict Float where
  isFinite_sub {a b} h := by
    obtain ⟨p, hp⟩ := isFinite_iff_exact.1 h
    rw [exact_sub] at hp
    obtain ⟨ha, hb⟩ := Scalar.Strict.isFinite_sub
      (Exact.isFinite_iff.2 (exact_approximate_fin hp))
    exact ⟨isFinite_iff_exact.2 (Exact.isFinite_iff.1 ha),
      isFinite_iff_exact.2 (Exact.isFinite_iff.1 hb)⟩
  isFinite_of_abs {a} h := by
    obtain ⟨p, hp⟩ := isFinite_iff_exact.1 h
    have habs : Scalar.abs (exact a) = .fin p := (exact_abs a).symm.trans hp
    have hfinite := Scalar.Strict.isFinite_of_abs (Exact.isFinite_iff.2 ⟨p, habs⟩)
    exact isFinite_iff_exact.2 (Exact.isFinite_iff.1 hfinite)
  isFinite_div := isFinite_of_div
  isFinite_infinity := by decide +kernel
  abs_le_abs_self {a} h := by
    have hexact : exact (Scalar.abs a) = Scalar.abs (exact a) := exact_abs a
    rw [le_iff_exact, hexact]
    exact Scalar.Strict.abs_le_abs_self (le_iff_exact.1 h)
  finite_or_eq_of_lt {a b} h := by
    rcases Scalar.Strict.finite_or_eq_of_lt (lt_iff_exact.1 h) with hfinite | hinfinite
    · exact .inl (isFinite_iff_exact.2 (Exact.isFinite_iff.1 hfinite))
    · exact .inr (eq_neg_infinity hinfinite)

end Double

end Milp
