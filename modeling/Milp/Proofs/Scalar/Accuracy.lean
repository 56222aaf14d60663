/-
  How far rounding goes.

  A double that is the result of an operation is off by at most half of its last place, which is a
  small part of the result, or half of the smallest double.  A finite double plus or minus a value
  up to one is never rounded to an infinity.

  * `Double.error`: the largest error of rounding, by the magnitude of what is rounded.
  * `Double.abs_roundedSigned_sub_le`, `Double.exists_approximate`: rounding keeps to it.
  * `Double.exact_div_ne_nan`: a quotient of finite doubles is a number if the divisor is positive.
-/
import Milp.Proofs.Scalar.Measured

namespace Milp

namespace Exact

variable {a b : Exact} {s t : Rat}

theorem add_fin_add_fin : a + fin s + fin t = a + fin (s + t) := by
  cases a <;> simp [add_def, Exact.add, add_assoc]

theorem add_fin_le_add_fin (h : a ≤ b) : a + fin t ≤ b + fin t := by
  have hsub := sub_le_sub (t := -t) h
  rwa [sub_def, sub_def, Exact.neg, neg_neg] at hsub

end Exact

namespace Double

open Float.Model Float.Model.UnpackedFloat

variable {x y : Float} {p q M : Rat}

/-! ## The error of rounding -/

/-- The largest error of rounding a value of this magnitude. -/
def error (M : Rat) : Rat := M / 2 ^ 53 + 2 ^ (-1075 : Int)

theorem error_mono (h : p ≤ q) : error p ≤ error q :=
  add_le_add (div_le_div_of_nonneg_right h (by norm_num)) le_rfl

theorem error_nonneg (h : 0 ≤ p) : 0 ≤ error p :=
  add_nonneg (div_nonneg h (by norm_num)) (by positivity)

theorem abs_nearest_sub_le (p : Rat) : |(nearest p : Rat) - p| ≤ 1 / 2 := by
  have hfloor := Int.floor_add_fract p
  have hnonneg := Int.fract_nonneg p
  have hlt := Int.fract_lt_one p
  rw [abs_le]
  unfold nearest
  split
  · constructor <;> linarith
  · split
    · push_cast
      constructor <;> linarith
    · -- a half goes down or up by a half
      have hmod : ((⌊p⌋ % 2 : Int) : Rat) = 0 ∨ ((⌊p⌋ % 2 : Int) : Rat) = 1 := by
        exact_mod_cast Int.emod_two_eq_zero_or_one ⌊p⌋
      push_cast at hmod ⊢
      rcases hmod with h | h <;> rw [h] <;> constructor <;> linarith

theorem two_zpow_lastPlace_le (hp : 0 < p) :
    (2 : Rat) ^ lastPlace p ≤ p / 2 ^ 52 + 2 ^ (-1074 : Int) := by
  have hlog := two_zpow_le hp
  unfold lastPlace
  rcases max_choice (Int.log 2 p - 52) (-1074) with h | h <;> rw [h]
  · rw [zpow_sub₀ two_ne_zero]
    have hdiv : (2 : Rat) ^ Int.log 2 p / 2 ^ (52 : Int) ≤ p / 2 ^ 52 :=
      div_le_div_of_nonneg_right hlog (by norm_num)
    exact hdiv.trans (le_add_of_nonneg_right (by positivity))
  · exact le_add_of_nonneg_left (div_nonneg hp.le (by norm_num))

theorem abs_rounded_sub_le (hp : 0 < p) : |rounded p - p| ≤ error p := by
  have hpos : (0 : Rat) < 2 ^ lastPlace p := by positivity
  have hdiff : rounded p - p =
      ((nearest (p / 2 ^ lastPlace p) : Rat) - p / 2 ^ lastPlace p) * 2 ^ lastPlace p := by
    rw [rounded, sub_mul, div_mul_cancel₀ _ hpos.ne']
  have hhalf : (2 : Rat) ^ (-1074 : Int) = 2 * 2 ^ (-1075 : Int) := by
    rw [show (-1074 : Int) = 1 + -1075 by norm_num, zpow_add₀ two_ne_zero, zpow_one]
  calc |rounded p - p| ≤ 1 / 2 * 2 ^ lastPlace p := by
        rw [hdiff, abs_mul, abs_of_pos hpos]
        exact mul_le_mul_of_nonneg_right (abs_nearest_sub_le _) hpos.le
    _ ≤ 1 / 2 * (p / 2 ^ 52 + 2 ^ (-1074 : Int)) :=
        mul_le_mul_of_nonneg_left (two_zpow_lastPlace_le hp) (by norm_num)
    _ = error p := by
        rw [hhalf, error]
        ring

theorem abs_roundedSigned_sub_le (p : Rat) : |roundedSigned p - p| ≤ error |p| := by
  rcases lt_trichotomy p 0 with hneg | rfl | hpos
  · have h := abs_rounded_sub_le (neg_pos.2 hneg)
    rw [roundedSigned, if_pos hneg, abs_of_neg hneg, neg_sub_left, abs_neg]
    rwa [sub_neg_eq_add, add_comm] at h
  · rw [roundedSigned, if_neg (lt_irrefl 0), rounded_zero, sub_zero, abs_zero]
    exact error_nonneg le_rfl
  · rw [roundedSigned, if_neg hpos.not_gt, abs_of_pos hpos]
    exact abs_rounded_sub_le hpos

/-! ## The range of doubles -/

/-- The largest double. -/
def largest : Rat := (2 ^ 53 - 1) * 2 ^ (971 : Int)

theorem abs_le_largest (h : exact x = .fin p) : |p| ≤ largest := by
  have hnormal := normal_unpack x
  have hvalue := value_of_exactOf h
  have hlargest : 0 ≤ largest := mul_nonneg (by norm_num) (by positivity)
  generalize x.toModel.unpack = u at hnormal hvalue
  cases u with
  | infinity | notANumber => cases hvalue
  | zero =>
    cases hvalue
    rwa [abs_zero]
  | finite s m e hm =>
    cases hvalue
    have habs : |(s.apply m : Rat) * 2 ^ e| = m * 2 ^ e := by
      have hnonneg : (0 : Rat) ≤ m * 2 ^ e := by positivity
      rw [apply_mul_zpow]
      cases s
      · rw [signed, abs_neg, abs_of_nonneg hnonneg]
      · rw [signed, abs_of_nonneg hnonneg]
    have hmantissa : (m : Rat) ≤ 2 ^ 53 - 1 := by
      have hlt : (m : Rat) + 1 ≤ 2 ^ 53 := by exact_mod_cast hnormal.lt
      linarith
    rw [habs]
    exact mul_le_mul hmantissa (zpow_le_zpow_right₀ (by norm_num) hnormal.exponent_le)
      (by positivity) (by norm_num)

/-- Near the range of doubles nothing is rounded to an infinity. -/
theorem exists_approximate (h : |p| ≤ largest + 1) :
    ∃ q, approximate (.fin p) = .fin q ∧ |q - p| ≤ error |p| := by
  have herror := abs_roundedSigned_sub_le p
  have hlt : |roundedSigned p| < huge := by
    have hunit : (2 : Rat) ^ (60 : Int) ≤ 2 ^ (971 : Int) :=
      zpow_le_zpow_right₀ (by norm_num) (by norm_num)
    have hhuge : huge = 2 ^ 53 * 2 ^ (971 : Int) := by
      rw [huge, show (1024 : Int) = 53 + 971 by norm_num, zpow_add₀ two_ne_zero]
      rfl
    have hsmall : (2 : Rat) ^ (-1075 : Int) ≤ 1 :=
      zpow_le_one_of_nonpos₀ (by norm_num) (by norm_num)
    have htriangle := abs_sub_abs_le_abs_sub (roundedSigned p) p
    have hmono := error_mono h
    simp only [error, largest] at hmono h herror
    rw [hhuge]
    generalize (2 : Rat) ^ (971 : Int) = unit at hunit hmono h ⊢
    generalize (2 : Rat) ^ (-1075 : Int) = least at hsmall hmono herror
    norm_num at hunit hmono h herror ⊢
    linarith
  obtain ⟨hlower, hupper⟩ := abs_lt.1 hlt
  exact ⟨_, by rw [approximate, clip, if_neg (not_le.2 hupper), if_neg (not_le.2 hlower)], herror⟩

/-! ## Adding and taking away a tolerance -/

section Tolerance

variable {s : Float} {t d : Rat}

/-- A double that is moved by no more than one stays finite. -/
theorem exists_approximate_add (hp : exact x = .fin p) (hM : |p| ≤ M) (hd : |d| ≤ t)
    (ht : t ≤ 1) :
    ∃ q, approximate (.fin (p + d)) = .fin q ∧ |q - (p + d)| ≤ error (M + t) := by
  obtain ⟨q, hq, hnear⟩ := exists_approximate <|
    (abs_add_le p d).trans (add_le_add (abs_le_largest hp) (hd.trans ht))
  exact ⟨q, hq, hnear.trans (error_mono ((abs_add_le p d).trans (add_le_add hM hd)))⟩

variable (hs : exact s = .fin t) (ht : 0 ≤ t) (ht' : t ≤ 1)
  (hM : ∀ p, exact x = .fin p → |p| ≤ M) (hx : exact x ≠ .nan)

include hs ht ht' hM hx

/-- A sum is too large by no more than the error of rounding. -/
theorem exact_add_le : exact (x + s) ≤ exact x + .fin (t + error (M + t)) := by
  rw [exact_add, hs]
  rcases h : exact x with _ | _ | p | _
  · exact absurd h hx
  · exact Exact.le_refl (a := .negInf) Exact.noConfusion
  · obtain ⟨q, hq, hnear⟩ := exists_approximate_add h (hM p h) (abs_of_nonneg ht).le ht'
    rw [Exact.fin_add_fin, hq, Exact.fin_add_fin, Exact.fin_le_fin]
    linarith [le_of_abs_le hnear]
  · exact Exact.le_refl (a := .posInf) Exact.noConfusion

/-- A difference is too small by no more than the error of rounding. -/
theorem le_exact_sub_add : exact x ≤ exact (x - s) + .fin (t + error (M + t)) := by
  rw [exact_sub, hs]
  rcases h : exact x with _ | _ | p | _
  · exact absurd h hx
  · exact Exact.le_refl (a := .negInf) Exact.noConfusion
  · obtain ⟨q, hq, hnear⟩ := exists_approximate_add h (hM p h) (d := -t)
      (by rw [abs_neg, abs_of_nonneg ht]) ht'
    rw [Exact.fin_sub_fin, sub_eq_add_neg, hq, Exact.fin_add_fin, Exact.fin_le_fin]
    linarith [neg_le_of_abs_le hnear]
  · exact Exact.le_refl (a := .posInf) Exact.noConfusion

end Tolerance

/-! ## Quotients -/

/-- Bits whose exponent is not the largest one are no value that is no number. -/
theorem unpack_packComponents (s : Sign) {e : BitVec 11} (m : BitVec 52) (he : e.toNat ≠ 2047) :
    unpack Format.binary64 (packComponents Format.binary64 s e m) ≠ .notANumber := by
  have hbiased : (packComponents Format.binary64 s e m).toNat / hidden % 2048 = e.toNat := by
    have hlt := e.isLt
    have hmantissa := m.isLt
    rw [toNat_packComponents, show hidden = 2 ^ 52 from rfl]
    cases s <;> simp only <;> omega
  rw [unpack_eq]
  simp only [hbiased, he, if_false]
  split
  · split <;> exact UnpackedFloat.noConfusion
  · exact UnpackedFloat.noConfusion

/-- A finite value stays a number if it is packed, in whatever form it is written. -/
theorem unpack_pack_finite {s : Sign} {m : Nat} {e : Int} (hm : 0 < m) :
    unpack Format.binary64 (pack Format.binary64 (.finite s m e hm)) ≠ .notANumber := by
  simp only [UnpackedFloat.pack]
  split
  · exact (unpack_pack (u := .infinity s) trivial).trans_ne UnpackedFloat.noConfusion
  · rename_i hfits
    split
    · refine unpack_packComponents s _ ?_
      have hlt : (e + Format.binary64.exponentBias +
        Format.binary64.mantissaBitsWithoutImplicit).toNat + 1 < 2 ^ 11 := not_le.1 hfits
      exact (Nat.mod_le _ _).trans_lt (Nat.lt_of_add_lt_add_right hlt) |>.ne
    · exact unpack_packComponents s _ (by decide)

theorem exact_div_ne_nan (hx : exact x = .fin p) (hy : exact y = .fin q) (hpos : 0 < q) :
    exact (x / y) ≠ .nan := by
  have hx := value_of_exactOf hx
  have hy := value_of_exactOf hy
  suffices hnumber : unpack Format.binary64 (pack Format.binary64
      (UnpackedFloat.div Format.binary64 x.toModel.unpack y.toModel.unpack)) ≠ .notANumber by
    intro hnan
    refine hnumber ?_
    have hdiv : exactOf (unpack Format.binary64 (pack Format.binary64
      (UnpackedFloat.div Format.binary64 x.toModel.unpack y.toModel.unpack))) = .nan := hnan
    generalize unpack Format.binary64 _ = u at hdiv ⊢
    cases u with
    | notANumber => rfl
    | infinity s => cases s <;> cases hdiv
    | zero | finite => cases hdiv
  generalize x.toModel.unpack = u at hx
  generalize y.toModel.unpack = v at hy
  cases v with
  | infinity | notANumber => cases hy
  | zero =>
    cases hy
    exact absurd hpos (lt_irrefl 0)
  | finite s m e hm =>
    cases u with
    | infinity | notANumber => cases hx
    | zero s' =>
      exact (unpack_pack (u := .zero (s' / s)) trivial).trans_ne UnpackedFloat.noConfusion
    | finite s' m' e' hm' =>
      simp only [UnpackedFloat.div, roundWithAccuracy]
      split
      · exact (unpack_pack (u := .zero (s' / s)) trivial).trans_ne UnpackedFloat.noConfusion
      · exact unpack_pack_finite _

end Double

end Milp
