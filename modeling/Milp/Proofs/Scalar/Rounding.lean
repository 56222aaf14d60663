/-
  Differences of doubles are exact differences, rounded; and rounding keeps the order.

  * `nearest`: the nearest whole number, a half going to the even one.
  * `rounded`: a rational with the precision of doubles; `rounded_mono`.
  * `Double.exact`: a double as an exact scalar; `le_iff_exact`: it keeps the order.
  * `exact_sub`, `exact_mul`: a difference or product is that of the exact scalars, rounded.
-/
import Milp.Proofs.Scalar.Double

namespace Milp.Double

open Float.Model Float.Model.UnpackedFloat

/-! ## Whole numbers -/

/-- The nearest whole number, a half going to the even one. -/
def nearest (y : Rat) : Int :=
  if Int.fract y < 1 / 2 then ⌊y⌋
  else if 1 / 2 < Int.fract y then ⌊y⌋ + 1
  else ⌊y⌋ + ⌊y⌋ % 2

variable {y z : Rat}

theorem floor_le_nearest (y : Rat) : ⌊y⌋ ≤ nearest y := by
  unfold nearest
  split
  · exact le_refl _
  · split
    · omega
    · omega

theorem nearest_le (y : Rat) : nearest y ≤ ⌊y⌋ + 1 := by
  unfold nearest
  split
  · omega
  · split
    · exact le_refl _
    · omega

theorem nearest_intCast (n : Int) : nearest n = n := by
  simp [nearest]

theorem nearest_mono (h : y ≤ z) : nearest y ≤ nearest z := by
  rcases (Int.floor_mono h).lt_or_eq with hlt | heq
  · exact (nearest_le y).trans (hlt.trans_le (floor_le_nearest z))
  · have hfract : Int.fract y ≤ Int.fract z := by
      unfold Int.fract
      rw [heq]
      exact sub_le_sub_right h _
    by_cases hy : Int.fract y < 1 / 2
    · rw [nearest, if_pos hy, heq]
      exact floor_le_nearest z
    · have hz : ¬ Int.fract z < 1 / 2 := fun hz => hy (hfract.trans_lt hz)
      by_cases hz' : 1 / 2 < Int.fract z
      · have hnearest : nearest z = ⌊z⌋ + 1 := by rw [nearest, if_neg hz, if_pos hz']
        rw [hnearest, ← heq]
        exact nearest_le y
      · have hy' : ¬ 1 / 2 < Int.fract y := fun hy' => hz' (hy'.trans_le hfract)
        rw [nearest, if_neg hy, if_neg hy', nearest, if_neg hz, if_neg hz', heq]

/-! ## The precision of doubles -/

/-- The exponent of the last place of a positive rational as a double. -/
def lastPlace (y : Rat) : Int := max (Int.log 2 y - 52) (-1074)

/-- A rational that is not negative, with the precision of doubles. -/
def rounded (y : Rat) : Rat := nearest (y / 2 ^ lastPlace y) * 2 ^ lastPlace y

theorem rounded_zero : rounded 0 = 0 := by
  simp [rounded, nearest]

theorem lt_two_zpow (y : Rat) : y < 2 ^ (Int.log 2 y + 1) := by
  simpa using Int.lt_zpow_succ_log_self (R := Rat) (b := 2) (by decide) y

theorem two_zpow_le (hy : 0 < y) : 2 ^ Int.log 2 y ≤ y := by
  simpa using Int.zpow_log_le_self (R := Rat) (b := 2) (by decide) hy

theorem rounded_nonneg (hy : 0 ≤ y) : 0 ≤ rounded y := by
  have hfloor : 0 ≤ ⌊y / 2 ^ lastPlace y⌋ := Int.floor_nonneg.2 (div_nonneg hy (by positivity))
  have hnearest := hfloor.trans (floor_le_nearest _)
  exact mul_nonneg (by exact_mod_cast hnearest) (by positivity)

theorem rounded_mono (hy : 0 < y) (h : y ≤ z) : rounded y ≤ rounded z := by
  have hlog : Int.log 2 y ≤ Int.log 2 z := Int.log_mono_right hy h
  have hplace : lastPlace y ≤ lastPlace z := by
    unfold lastPlace
    omega
  rcases hplace.lt_or_eq with hlt | heq
  · -- between the two there is a power of two
    have hz : lastPlace z = Int.log 2 z - 52 := by
      unfold lastPlace at hlt ⊢
      omega
    have hyPlace : Int.log 2 y ≤ lastPlace y + 52 := by
      unfold lastPlace
      omega
    have hbelow : nearest (y / 2 ^ lastPlace y) ≤ 2 ^ 53 := by
      have hlt : y / 2 ^ lastPlace y < ((2 ^ 53 : Int) : Rat) := by
        rw [div_lt_iff₀ (by positivity)]
        calc y < 2 ^ (Int.log 2 y + 1) := lt_two_zpow y
          _ ≤ 2 ^ (53 + lastPlace y) := zpow_le_zpow_right₀ (by norm_num) (by omega)
          _ = ((2 ^ 53 : Int) : Rat) * 2 ^ lastPlace y := by
            rw [zpow_add₀ (by norm_num)]
            norm_num
      have hfloor := Int.floor_lt.2 hlt
      have hle := nearest_le (y / 2 ^ lastPlace y)
      omega
    have habove : 2 ^ 52 ≤ nearest (z / 2 ^ lastPlace z) := by
      have hle : ((2 ^ 52 : Int) : Rat) ≤ z / 2 ^ lastPlace z := by
        rw [le_div_iff₀ (by positivity)]
        calc ((2 ^ 52 : Int) : Rat) * 2 ^ lastPlace z = 2 ^ (52 + lastPlace z) := by
              rw [zpow_add₀ (by norm_num)]
              norm_num
          _ = 2 ^ Int.log 2 z := by rw [hz]; congr 1; omega
          _ ≤ z := two_zpow_le (hy.trans_le h)
      exact (Int.le_floor.2 hle).trans (floor_le_nearest _)
    calc rounded y ≤ ((2 ^ 53 : Int) : Rat) * 2 ^ lastPlace y :=
          mul_le_mul_of_nonneg_right (by exact_mod_cast hbelow) (by positivity)
      _ = ((2 ^ 52 : Int) : Rat) * 2 ^ (lastPlace y + 1) := by
        rw [zpow_add₀ (by norm_num)]
        norm_num
        ring
      _ ≤ ((2 ^ 52 : Int) : Rat) * 2 ^ lastPlace z := by
        refine mul_le_mul_of_nonneg_left (zpow_le_zpow_right₀ (by norm_num) ?_) (by norm_num)
        omega
      _ ≤ rounded z := mul_le_mul_of_nonneg_right (by exact_mod_cast habove) (by positivity)
  · have hle : y / 2 ^ lastPlace y ≤ z / 2 ^ lastPlace z := by
      rw [heq]
      exact div_le_div_of_nonneg_right h (by positivity)
    have hnearest := nearest_mono hle
    unfold rounded
    rw [heq] at hnearest ⊢
    exact mul_le_mul_of_nonneg_right (by exact_mod_cast hnearest) (by positivity)

/-- What is too large for a double. -/
def huge : Rat := 2 ^ (1024 : Int)

theorem huge_pos : 0 < huge := by
  unfold huge
  positivity

/-- A rational that is too large for a double is infinite. -/
def clip (y : Rat) : Exact := if huge ≤ y then .posInf else if y ≤ -huge then .negInf else .fin y

theorem clip_mono (h : y ≤ z) : clip y ≤ clip z := by
  unfold clip
  split
  · rw [if_pos (le_trans ‹_› h)]
    exact Exact.le_refl (by simp)
  · split
    · rename_i hy
      split
      · simp [Exact.le_def, Exact.below]
      · split <;> simp [Exact.le_def, Exact.below, Exact.same]
    · rename_i hy
      rw [if_neg (fun hz => hy (h.trans hz))]
      split
      · simp [Exact.le_def, Exact.below]
      · exact Exact.fin_le_fin.2 h

/-- A rational with the precision of doubles. -/
def roundedSigned (y : Rat) : Rat := if y < 0 then -rounded (-y) else rounded y

theorem roundedSigned_mono (h : y ≤ z) : roundedSigned y ≤ roundedSigned z := by
  unfold roundedSigned
  split
  · rename_i hy
    split
    · rename_i hz
      exact neg_le_neg (rounded_mono (neg_pos.2 hz) (neg_le_neg h))
    · rename_i hz
      have hneg := rounded_nonneg (neg_nonneg.2 hy.le)
      have hpos := rounded_nonneg (not_lt.1 hz)
      linarith
  · rename_i hy
    rw [if_neg (fun hz => hy (h.trans_lt hz))]
    rcases (not_lt.1 hy).eq_or_lt with rfl | hpos
    · rw [rounded_zero]
      exact rounded_nonneg h
    · exact rounded_mono hpos h

/-- The double nearest to an exact scalar. -/
def approximate : Exact → Exact
  | .fin y => clip (roundedSigned y)
  | a => a

theorem approximate_mono {a b : Exact} (h : a ≤ b) : approximate a ≤ approximate b := by
  have hclip : ∀ y, clip y = .posInf ∨ clip y = .negInf ∨ ∃ q, clip y = .fin q := by
    intro y
    unfold clip
    split
    · exact .inl rfl
    · split
      · exact .inr (.inl rfl)
      · exact .inr (.inr ⟨y, rfl⟩)
  cases a with
  | nan => exact absurd rfl (Exact.ne_nan_of_le_left h)
  | negInf =>
    cases b with
    | nan => exact absurd rfl (Exact.ne_nan_of_le_right h)
    | negInf => exact h
    | posInf => exact h
    | fin q =>
      rcases hclip (roundedSigned q) with hq | hq | ⟨r, hq⟩ <;>
        simp [approximate, hq, Exact.le_def, Exact.below, Exact.same]
  | posInf =>
    cases b with
    | posInf => exact h
    | _ => simp [Exact.le_def, Exact.below, Exact.same] at h
  | fin p =>
    cases b with
    | nan => exact absurd rfl (Exact.ne_nan_of_le_right h)
    | negInf => simp [Exact.le_def, Exact.below, Exact.same] at h
    | posInf =>
      rcases hclip (roundedSigned p) with hp | hp | ⟨r, hp⟩ <;>
        simp [approximate, hp, Exact.le_def, Exact.below, Exact.same]
    | fin q => exact clip_mono (roundedSigned_mono (Exact.fin_le_fin.1 h))

/-! ## Shifting -/

/-- What is left of a mantissa after bits of it were shifted out. -/
theorem shiftRight_succ (m k : Nat) : (⟨m, false, false⟩ : ExtendedMantissa) >>> (k + 1) =
    ⟨m / 2 ^ (k + 1), m / 2 ^ k % 2 != 0, m % 2 ^ k != 0⟩ := by
  induction k with
  | zero => simp [HShiftRight.hShiftRight, Nat.repeat, ExtendedMantissa.shiftRightOne, Nat.mod_one]
  | succ k ih =>
    show ExtendedMantissa.shiftRightOne ((⟨m, false, false⟩ : ExtendedMantissa) >>> (k + 1)) = _
    rw [ih]
    have hdiv : m / 2 ^ (k + 1) / 2 = m / 2 ^ (k + 1 + 1) := by
      rw [Nat.div_div_eq_div_mul, ← pow_succ]
    have hmod : m % 2 ^ (k + 1) = m % 2 ^ k + 2 ^ k * (m / 2 ^ k % 2) := Nat.mod_pow_succ
    have hpos := Nat.two_pow_pos k
    have hsticky : (m / 2 ^ k % 2 != 0 || m % 2 ^ k != 0) = (m % 2 ^ (k + 1) != 0) := by
      rcases Nat.mod_two_eq_zero_or_one (m / 2 ^ k) with h | h
      · simp [hmod, h]
      · simp [hmod, h]
    simp only [ExtendedMantissa.shiftRightOne, hdiv, hsticky]

/-- The nearest whole number of a fraction with an even denominator. -/
theorem nearest_natCast_div (m : Nat) {half : Nat} (hpos : 0 < half) :
    nearest ((m : Rat) / ((2 * half : Nat) : Rat)) =
      ((if m % (2 * half) < half then m / (2 * half)
        else if half < m % (2 * half) then m / (2 * half) + 1
        else m / (2 * half) + m / (2 * half) % 2 : Nat) : Int) := by
  have hfloor : ⌊(m : Rat) / ((2 * half : Nat) : Rat)⌋ = ((m / (2 * half) : Nat) : Int) := by
    rw [Rat.floor_natCast_div_natCast, Int.natCast_div]
  have hden : (0 : Rat) < ((2 * half : Nat) : Rat) := by exact_mod_cast Nat.mul_pos two_pos hpos
  have hcast : ((2 * half : Nat) : Rat) = 2 * (half : Rat) := by push_cast; rfl
  have hless :
      Int.fract ((m : Rat) / ((2 * half : Nat) : Rat)) < 1 / 2 ↔ m % (2 * half) < half := by
    rw [Int.fract_div_natCast_eq_div_natCast_mod, div_lt_div_iff₀ hden two_pos, one_mul, hcast,
      mul_comm, mul_lt_mul_iff_right₀ two_pos, Nat.cast_lt]
  have hmore : 1 / 2 < Int.fract ((m : Rat) / ((2 * half : Nat) : Rat)) ↔
      half < m % (2 * half) := by
    rw [Int.fract_div_natCast_eq_div_natCast_mod, div_lt_div_iff₀ two_pos hden, one_mul, hcast,
      mul_comm _ (2 : Rat), mul_lt_mul_iff_right₀ two_pos, Nat.cast_lt]
  unfold nearest
  simp only [hless, hmore, hfloor]
  split
  · rfl
  · split
    · push_cast
      rfl
    · push_cast
      rfl

/-- Shifting bits out of a mantissa and rounding gives the nearest whole number. -/
theorem roundedMantissa_shiftRight (m k : Nat) :
    ((((⟨m, false, false⟩ : ExtendedMantissa) >>> k).roundedMantissa : Nat) : Int) =
      nearest ((m : Rat) / 2 ^ k) := by
  cases k with
  | zero =>
    have hnearest := nearest_intCast m
    simpa [HShiftRight.hShiftRight, Nat.repeat, ExtendedMantissa.roundedMantissa,
      ExtendedMantissa.accuracy, Accuracy.roundToNearestEven] using hnearest.symm
  | succ k =>
    have hpos := Nat.two_pow_pos k
    have hpow : 2 ^ (k + 1) = 2 * 2 ^ k := by ring
    have hcast : (2 : Rat) ^ (k + 1) = ((2 * 2 ^ k : Nat) : Rat) := by
      push_cast
      ring
    have hmod : m % (2 * 2 ^ k) = m % 2 ^ k + 2 ^ k * (m / 2 ^ k % 2) := by
      rw [← hpow]
      exact Nat.mod_pow_succ
    have hrest := Nat.mod_lt m hpos
    rw [hcast, nearest_natCast_div m hpos, shiftRight_succ, hpow]
    -- the round bit says whether at least a half was shifted out, the sticky bit whether more than
    -- the round bit was
    rcases Nat.mod_two_eq_zero_or_one (m / 2 ^ k) with hround | hround
    · have hlt : m % (2 * 2 ^ k) < 2 ^ k := by rw [hmod, hround]; omega
      rw [if_pos hlt, hround]
      by_cases hsticky : m % 2 ^ k = 0
      · simp [ExtendedMantissa.roundedMantissa, ExtendedMantissa.accuracy,
          Accuracy.roundToNearestEven, hsticky]
      · rw [show (m % 2 ^ k != 0) = true from bne_iff_ne.2 hsticky]
        rfl
    · have hge : ¬ m % (2 * 2 ^ k) < 2 ^ k := by rw [hmod, hround]; omega
      rw [if_neg hge, hround]
      by_cases hsticky : m % 2 ^ k = 0
      · have heq : ¬ 2 ^ k < m % (2 * 2 ^ k) := by rw [hmod, hround]; omega
        rw [if_neg heq]
        simp [ExtendedMantissa.roundedMantissa, ExtendedMantissa.accuracy,
          Accuracy.roundToNearestEven, hsticky]
      · have hgt : 2 ^ k < m % (2 * 2 ^ k) := by rw [hmod, hround]; omega
        rw [if_pos hgt, show (m % 2 ^ k != 0) = true from bne_iff_ne.2 hsticky]
        rfl

/-! ## Rounding -/

theorem log_mul_zpow {m : Nat} (hm : 0 < m) (e : Int) :
    Int.log 2 ((m : Rat) * 2 ^ e) = m.log2 + e := by
  have hpos : (0 : Rat) < m * 2 ^ e := mul_pos (by exact_mod_cast hm) (by positivity)
  have hle : ((2 : Rat) ^ (m.log2 : Int)) ≤ m := by
    rw [zpow_natCast]
    exact_mod_cast Nat.log2_self_le hm.ne'
  have hlt : (m : Rat) < 2 ^ ((m.log2 : Int) + 1) := by
    have hcast : ((m.log2 : Int) + 1) = ((m.log2 + 1 : Nat) : Int) := by push_cast; rfl
    rw [hcast, zpow_natCast]
    exact_mod_cast Nat.lt_log2_self
  have hlower : (m.log2 : Int) + e ≤ Int.log 2 ((m : Rat) * 2 ^ e) := by
    rw [← Int.zpow_le_iff_le_log (by decide) hpos]
    push_cast
    rw [zpow_add₀ two_ne_zero]
    exact mul_le_mul_of_nonneg_right hle (by positivity)
  have hupper : Int.log 2 ((m : Rat) * 2 ^ e) < m.log2 + e + 1 := by
    rw [← Int.lt_zpow_iff_log_lt (by decide) hpos]
    push_cast
    rw [add_right_comm, zpow_add₀ two_ne_zero]
    exact mul_lt_mul_of_pos_right hlt (by positivity)
  omega

/-- Rounding aims at the last place. -/
theorem targetExponent_eq_lastPlace {m : Nat} (hm : 0 < m) (e : Int) :
    Format.binary64.targetExponent (totalExponent m e) = lastPlace ((m : Rat) * 2 ^ e) := by
  rw [lastPlace, log_mul_zpow hm, targetExponent_eq, totalExponent]
  omega

/-- Mantissa and exponent with the precision of doubles; the exponent may be too large for one. -/
structure Precise (m : Nat) (e : Int) : Prop where
  lt : m < 2 ^ 53
  le_exponent : -1074 ≤ e
  normal : 2 ^ 52 ≤ m ∨ e = -1074

/-- An unpacked value with this sign, and with a magnitude that was rounded. -/
def Rounds (s : Sign) (y : Rat) (u : UnpackedFloat) : Prop :=
  (u = .zero s ∧ rounded y = 0) ∨
    ∃ m e h, u = .finite s m e h ∧ Precise m e ∧ rounded y = m * 2 ^ e

/-- A mantissa that was rounded at its last place is shifted once more if it overflowed. -/
theorem shiftToTargetExponent_rounded {r : Nat} {t : Int} (hr : 0 < r) (hle : r ≤ 2 ^ 53)
    (ht : -1074 ≤ t) (hnormal : 2 ^ 52 ≤ r ∨ t = -1074) :
    ∃ m e, shiftToTargetExponent Format.binary64 r t .exact = (⟨m, false, false⟩, e) ∧ 0 < m ∧
      Precise m e ∧ (m : Rat) * 2 ^ e = r * 2 ^ t := by
  rcases hle.lt_or_eq with hlt | rfl
  · have hlog : r.log2 < 53 := (Nat.log2_lt hr.ne').2 hlt
    have hshift : (Format.binary64.targetExponent (totalExponent r t) - t).toNat = 0 := by
      rw [targetExponent_eq, totalExponent]
      omega
    refine ⟨r, t, ?_, hr, ⟨hlt, ht, hnormal⟩, rfl⟩
    simp [shiftToTargetExponent, shiftToExponent, hshift, ExtendedMantissa.ofMantissaAndAccuracy,
      HShiftRight.hShiftRight, Nat.repeat]
  · have hlog : (2 ^ 53 : Nat).log2 = 53 := by rw [Nat.log2_two_pow]
    have hshift : (Format.binary64.targetExponent (totalExponent (2 ^ 53) t) - t).toNat = 1 := by
      rw [targetExponent_eq, totalExponent, hlog]
      omega
    refine ⟨2 ^ 52, t + 1, ?_, by decide, ⟨by decide, by omega, .inl (le_refl _)⟩, ?_⟩
    · unfold shiftToTargetExponent shiftToExponent
      simp only [hshift]
      rfl
    · rw [zpow_add_one₀ two_ne_zero]
      push_cast
      ring

/-- Rounding a value whose exponent is not above its last place. -/
theorem rounds_roundWithAccuracy (s : Sign) {m : Nat} (hm : 0 < m) {e : Int}
    (he : e ≤ lastPlace ((m : Rat) * 2 ^ e)) :
    Rounds s (m * 2 ^ e) (roundWithAccuracy Format.binary64 s m e .exact) := by
  have hpos : (0 : Rat) < m * 2 ^ e := mul_pos (by exact_mod_cast hm) (by positivity)
  have htarget := targetExponent_eq_lastPlace hm e
  have hplace : lastPlace ((m : Rat) * 2 ^ e) = max ((m.log2 : Int) + e - 52) (-1074) := by
    rw [lastPlace, log_mul_zpow hm]
  generalize ht : lastPlace ((m : Rat) * 2 ^ e) = t at he htarget hplace
  obtain ⟨k, hk⟩ := Int.eq_ofNat_of_zero_le (show 0 ≤ t - e by omega)
  have hdiv : (m : Rat) * 2 ^ e / 2 ^ t = m / 2 ^ k := by
    rw [show t = e + k by omega, zpow_add₀ two_ne_zero, zpow_natCast,
      mul_comm (2 ^ e : Rat), mul_div_mul_right _ _ (by positivity)]
  have hfirst : shiftToTargetExponent Format.binary64 m e .exact =
      ((⟨m, false, false⟩ : ExtendedMantissa) >>> k, t) := by
    have hshift : (t - e).toNat = k := by omega
    have hback : e + (k : Int) = t := by omega
    unfold shiftToTargetExponent shiftToExponent
    simp only [htarget, hshift, hback, ExtendedMantissa.ofMantissaAndAccuracy]
  have hmantissa := roundedMantissa_shiftRight m k
  generalize hr : ((⟨m, false, false⟩ : ExtendedMantissa) >>> k).roundedMantissa = r at hmantissa
  have hrounded : rounded ((m : Rat) * 2 ^ e) = r * 2 ^ t := by
    rw [rounded, ht, hdiv, ← hmantissa, Int.cast_natCast]
  -- the mantissa that is kept has 53 bits, or less at the lowest exponent
  have hle : r ≤ 2 ^ 53 := by
    have hlt : (m : Rat) / 2 ^ k < ((2 ^ 53 : Int) : Rat) := by
      rw [← hdiv, div_lt_iff₀ (by positivity)]
      calc (m : Rat) * 2 ^ e < 2 ^ (Int.log 2 ((m : Rat) * 2 ^ e) + 1) := lt_two_zpow _
        _ ≤ 2 ^ (53 + t) := by
          rw [log_mul_zpow hm]
          exact zpow_le_zpow_right₀ (by norm_num) (by omega)
        _ = ((2 ^ 53 : Int) : Rat) * 2 ^ t := by
          rw [zpow_add₀ (by norm_num)]
          norm_num
    have hfloor := Int.floor_lt.2 hlt
    have hnearest := nearest_le ((m : Rat) / 2 ^ k)
    omega
  have hnormal : 2 ^ 52 ≤ r ∨ t = -1074 := by
    rcases eq_or_ne t (-1074) with heq | hne
    · exact .inr heq
    · have hge : ((2 ^ 52 : Int) : Rat) ≤ (m : Rat) / 2 ^ k := by
        rw [← hdiv, le_div_iff₀ (by positivity)]
        calc ((2 ^ 52 : Int) : Rat) * 2 ^ t = 2 ^ (52 + t) := by
              rw [zpow_add₀ (by norm_num)]
              norm_num
          _ = 2 ^ Int.log 2 ((m : Rat) * 2 ^ e) := by
            rw [log_mul_zpow hm]
            congr 1
            omega
          _ ≤ (m : Rat) * 2 ^ e := two_zpow_le hpos
      have hfloor := (Int.le_floor.2 hge).trans (floor_le_nearest _)
      exact .inl (by omega)
  unfold roundWithAccuracy
  simp only [hfirst, hr]
  rcases Nat.eq_zero_or_pos r with rfl | hrpos
  · left
    have hshift : (Format.binary64.targetExponent (totalExponent 0 t) - t).toNat = 0 := by
      rw [targetExponent_eq, totalExponent, Nat.log2_zero]
      omega
    have hzero : shiftToTargetExponent Format.binary64 0 t .exact = (⟨0, false, false⟩, t) := by
      unfold shiftToTargetExponent shiftToExponent
      simp only [hshift]
      simp [ExtendedMantissa.ofMantissaAndAccuracy, HShiftRight.hShiftRight, Nat.repeat]
    refine ⟨?_, by rw [hrounded, Nat.cast_zero, zero_mul]⟩
    simp only [hzero, dite_true]
  · right
    obtain ⟨m', e', hsecond, hm', hprecise, hvalue⟩ :=
      shiftToTargetExponent_rounded hrpos hle (by omega) hnormal
    refine ⟨m', e', hm', ?_, hprecise, hrounded.trans hvalue.symm⟩
    simp only [hsecond, hm'.ne', dite_false]

/-- Rounding any value. -/
theorem rounds_round (s : Sign) {m : Nat} (hm : 0 < m) (e : Int) :
    Rounds s (m * 2 ^ e) (UnpackedFloat.round Format.binary64 s m e) := by
  unfold UnpackedFloat.round
  rw [targetExponent_eq_lastPlace hm]
  generalize ht : lastPlace ((m : Rat) * 2 ^ e) = t
  obtain ⟨k, hk⟩ : ∃ k, (e - t).toNat = k := ⟨_, rfl⟩
  have hpow : (0 : Nat) < m * 2 ^ k := Nat.mul_pos hm (Nat.two_pow_pos k)
  have hvalue : ((m * 2 ^ k : Nat) : Rat) * 2 ^ (e - k) = m * 2 ^ e := by
    rw [zpow_sub₀ two_ne_zero, zpow_natCast]
    push_cast
    field_simp
  have hround := rounds_roundWithAccuracy s hpow (e := e - k) (by rw [hvalue, ht]; omega)
  rw [hvalue] at hround
  simpa only [decreaseExponent, hk, Nat.shiftLeft_eq] using hround

/-! ## Doubles as exact scalars -/

/-- An unpacked double as an exact scalar. -/
def exactOf : UnpackedFloat → Exact
  | .notANumber => .nan
  | .infinity .positive => .posInf
  | .infinity .negative => .negInf
  | .zero _ => .fin 0
  | .finite s m e _ => .fin (s.apply m * 2 ^ e)

/-- A double as an exact scalar. -/
def exact (x : Float) : Exact := exactOf x.toModel.unpack

theorem exactOf_of_value {u : UnpackedFloat} {p : Rat} (h : value u = some p) :
    exactOf u = .fin p := by
  cases u with
  | infinity | notANumber => cases h
  | zero | finite =>
    cases h
    rfl

theorem value_of_exactOf {u : UnpackedFloat} {p : Rat} (h : exactOf u = .fin p) :
    value u = some p := by
  cases u with
  | infinity s => cases s <;> cases h
  | notANumber => cases h
  | zero | finite =>
    cases h
    rfl

theorem toRat?_eq_some_iff {x : Float} {p : Rat} : toRat? x = some p ↔ exact x = .fin p := by
  rw [toRat?_eq]
  exact ⟨exactOf_of_value, value_of_exactOf⟩

/-- Packing makes a value infinite that is too large. -/
theorem exactOf_pack {s : Sign} {m : Nat} {e : Int} (hm : 0 < m) (h : Precise m e) :
    exactOf (unpack Format.binary64 (pack Format.binary64 (.finite s m e hm))) =
      clip (s.apply m * 2 ^ e) := by
  have hsign : ∀ n : Nat, ((s.apply n : Int) : Rat) = n ∨ ((s.apply n : Int) : Rat) = -n := by
    intro n
    cases s
    · right
      simp [Sign.apply]
    · left
      simp [Sign.apply]
  rcases le_or_gt e 971 with he | he
  · rw [unpack_pack (u := .finite s m e hm) ⟨h.lt, h.le_exponent, he, h.normal⟩]
    have hlt : (m : Rat) * 2 ^ e < huge := by
      calc (m : Rat) * 2 ^ e < 2 ^ (53 : Int) * 2 ^ e :=
            mul_lt_mul_of_pos_right (by exact_mod_cast h.lt) (by positivity)
        _ = 2 ^ (53 + e) := (zpow_add₀ two_ne_zero _ _).symm
        _ ≤ huge := zpow_le_zpow_right₀ (by norm_num) (by omega)
    have hnonneg : (0 : Rat) ≤ m * 2 ^ e := mul_nonneg (Nat.cast_nonneg m) (by positivity)
    have hpos := huge_pos
    unfold clip
    rcases hsign m with hs | hs
    · rw [hs, if_neg (not_le.2 hlt), if_neg (by linarith)]
      exact congrArg Exact.fin (by rw [hs])
    · rw [hs, neg_mul, if_neg (by linarith), if_neg (by linarith)]
      exact congrArg Exact.fin (by rw [hs, neg_mul])
  · have h52 : 2 ^ 52 ≤ m := h.normal.resolve_right (by omega)
    have hge : huge ≤ m * 2 ^ e := by
      calc huge ≤ 2 ^ (52 + e) := zpow_le_zpow_right₀ (by norm_num) (by omega)
        _ = 2 ^ (52 : Int) * 2 ^ e := zpow_add₀ two_ne_zero _ _
        _ ≤ m * 2 ^ e := mul_le_mul_of_nonneg_right (by exact_mod_cast h52) (by positivity)
    have hpack : pack Format.binary64 (.finite s m e hm) =
        pack Format.binary64 (.infinity s) := by
      have hexponent : (e + Format.binary64.exponentBias +
          Format.binary64.mantissaBitsWithoutImplicit) = e + 1075 := by
        show e + 1023 + 52 = _
        omega
      have hbig : 2 ^ 11 ≤ (e + 1075).toNat + 1 := by omega
      unfold UnpackedFloat.pack
      simp only [hexponent, hbig, if_true]
    rw [hpack, unpack_pack (u := .infinity s) trivial]
    have hpos := huge_pos
    unfold clip
    cases s
    · simp only [Sign.apply, Int.cast_neg, Int.cast_natCast, neg_mul]
      rw [if_neg (by linarith), if_pos (by linarith)]
      rfl
    · simp only [Sign.apply, Int.cast_natCast]
      rw [if_pos hge]
      rfl

/-- Comparison is that of the exact scalars. -/
theorem compare_exactOf {u v : UnpackedFloat} (hu : Normal u) (hv : Normal v) :
    (u.lt v = true ↔ exactOf u < exactOf v) ∧ (u.le v = true ↔ exactOf u ≤ exactOf v) := by
  by_cases hfinite : (∃ p, value u = some p) ∧ ∃ q, value v = some q
  · obtain ⟨⟨p, hp⟩, q, hq⟩ := hfinite
    rw [exactOf_of_value hp, exactOf_of_value hq, Exact.fin_lt_fin, Exact.fin_le_fin,
      UnpackedFloat.lt, UnpackedFloat.le, compare_eq hu hv hp hq, ← compare_lt_iff_lt,
      ← compare_le_iff_le]
    cases compare p q <;> decide
  · cases u with
    | notANumber => simp [UnpackedFloat.lt, UnpackedFloat.le, UnpackedFloat.compare, exactOf,
        Exact.lt_def, Exact.le_def, Exact.below, Exact.same]
    | infinity s =>
      cases v with
      | infinity s' => cases s <;> cases s' <;> decide
      | notANumber => cases s <;> decide
      | zero s' => cases s <;> cases s' <;> decide
      | finite => cases s <;> simp [UnpackedFloat.lt, UnpackedFloat.le, UnpackedFloat.compare,
          exactOf, Exact.lt_def, Exact.le_def, Exact.below, Exact.same]
    | zero s =>
      cases v with
      | infinity s' => cases s <;> cases s' <;> decide
      | notANumber => cases s <;> decide
      | zero | finite => exact absurd ⟨⟨_, rfl⟩, _, rfl⟩ hfinite
    | finite =>
      cases v with
      | infinity s' => cases s' <;> simp [UnpackedFloat.lt, UnpackedFloat.le, UnpackedFloat.compare,
          exactOf, Exact.lt_def, Exact.le_def, Exact.below, Exact.same]
      | notANumber => simp [UnpackedFloat.lt, UnpackedFloat.le, UnpackedFloat.compare, exactOf,
          Exact.lt_def, Exact.le_def, Exact.below, Exact.same]
      | zero | finite => exact absurd ⟨⟨_, rfl⟩, _, rfl⟩ hfinite

variable {a b x : Float}

theorem lt_iff_exact : a < b ↔ exact a < exact b := by
  show decide (UnpackedFloat.lt _ _ = true) = true ↔ _
  rw [decide_eq_true_iff]
  exact (compare_exactOf (normal_unpack a) (normal_unpack b)).1

theorem le_iff_exact : a ≤ b ↔ exact a ≤ exact b := by
  show decide (UnpackedFloat.le _ _ = true) = true ↔ _
  rw [decide_eq_true_iff]
  exact (compare_exactOf (normal_unpack a) (normal_unpack b)).2

theorem isNaN_iff_exact : Scalar.isNaN a = true ↔ exact a = .nan := by
  show a.toModel.unpack.isNaN = true ↔ exactOf a.toModel.unpack = .nan
  generalize a.toModel.unpack = u
  cases u with
  | infinity s => cases s <;> decide
  | notANumber => decide
  | zero s => cases s <;> decide
  | finite => simp [exactOf, UnpackedFloat.isNaN]

theorem isFinite_iff_exact : Scalar.isFinite a = true ↔ ∃ p, exact a = .fin p := by
  rw [Scalar.Faithful.isFinite_iff]
  exact exists_congr fun p => toRat?_eq_some_iff

/-! ## Differences -/

/-- A rational with a sign. -/
def signed : Sign → Rat → Rat
  | .negative, y => -y
  | .positive, y => y

theorem apply_mul_zpow (s : Sign) (m : Nat) (e : Int) :
    (s.apply m : Rat) * 2 ^ e = signed s (m * 2 ^ e) := by
  cases s
  · simp [Sign.apply, signed]
  · simp [Sign.apply, signed]

theorem roundedSigned_signed (s : Sign) (hy : 0 < y) :
    roundedSigned (signed s y) = signed s (rounded y) := by
  cases s
  · rw [signed, roundedSigned, if_pos (neg_neg_of_pos hy), neg_neg, signed]
  · rw [signed, roundedSigned, if_neg (not_lt.2 hy.le), signed]

theorem approximate_zero : approximate (.fin 0) = .fin 0 := by
  have hpos := huge_pos
  rw [approximate, roundedSigned, if_neg (lt_irrefl _), rounded_zero, clip, if_neg (by linarith),
    if_neg (by linarith)]

/-- A rounded value is packed as the double nearest to it. -/
theorem Rounds.exactOf {s : Sign} {u : UnpackedFloat} (hy : 0 < y) (h : Rounds s y u) :
    exactOf (unpack Format.binary64 (pack Format.binary64 u)) =
      approximate (.fin (signed s y)) := by
  rw [approximate, roundedSigned_signed s hy]
  rcases h with ⟨rfl, hrounded⟩ | ⟨m, e, hm, rfl, hprecise, hrounded⟩
  · rw [unpack_pack (u := .zero s) trivial, hrounded]
    have hclip := approximate_zero
    rw [approximate, roundedSigned, if_neg (lt_irrefl _), rounded_zero] at hclip
    cases s
    · rw [signed, neg_zero, hclip, Double.exactOf]
    · rw [signed, hclip, Double.exactOf]
  · rw [exactOf_pack hm hprecise, apply_mul_zpow, hrounded]

/-- A double is the double nearest to it. -/
theorem approximate_exactOf {u : UnpackedFloat} (h : Normal u) :
    approximate (exactOf u) = exactOf u := by
  cases u with
  | infinity s => cases s <;> rfl
  | notANumber => rfl
  | zero => exact approximate_zero
  | finite s m e hm =>
    have hplace : lastPlace ((m : Rat) * 2 ^ e) = e := by
      rw [← targetExponent_eq_lastPlace hm]
      exact h.targetExponent_eq hm
    have hrounded : rounded ((m : Rat) * 2 ^ e) = m * 2 ^ e := by
      rw [rounded, hplace, mul_div_cancel_right₀ _ (by positivity), ← Int.cast_natCast,
        nearest_intCast]
    have hpos : (0 : Rat) < m * 2 ^ e := mul_pos (by exact_mod_cast hm) (by positivity)
    have hpack := exactOf_pack (s := s) hm ⟨h.lt, h.le_exponent, h.normal⟩
    rw [unpack_pack (u := .finite s m e hm) h] at hpack
    show clip (roundedSigned _) = _
    rw [hpack, apply_mul_zpow, roundedSigned_signed s hpos, hrounded]

theorem exactOf_normalize (n e : Int) (s : Sign) :
    exactOf (unpack Format.binary64
        (pack Format.binary64 (UnpackedFloat.normalize Format.binary64 n e s))) =
      approximate (.fin (n * 2 ^ e)) := by
  have hround : ∀ (s : Sign) {m : Nat}, 0 < m → (s.apply m : Int) = n →
      exactOf (unpack Format.binary64 (pack Format.binary64
        (UnpackedFloat.round Format.binary64 s m e))) = approximate (.fin (n * 2 ^ e)) := by
    intro s m hm hn
    have hpos : (0 : Rat) < m * 2 ^ e := mul_pos (by exact_mod_cast hm) (by positivity)
    rw [(rounds_round s hm e).exactOf hpos, ← apply_mul_zpow, hn]
  unfold UnpackedFloat.normalize
  rcases lt_trichotomy n 0 with hneg | rfl | hpos
  · rw [compare_lt_iff_lt.2 hneg]
    exact hround .negative (by omega) (by rw [Sign.apply]; omega)
  · rw [compare_eq_iff_eq.2 rfl]
    simp only
    rw [unpack_pack (u := .zero s) trivial, Int.cast_zero, zero_mul, approximate_zero, exactOf]
  · rw [compare_gt_iff_gt.2 hpos]
    exact hround .positive (by omega) (by rw [Sign.apply]; omega)

theorem decreaseExponent_value (m : Nat) {e t : Int} (h : t ≤ e) :
    ((decreaseExponent m e t).1 : Rat) * 2 ^ t = m * 2 ^ e := by
  obtain ⟨k, hk⟩ := Int.eq_ofNat_of_zero_le (show 0 ≤ e - t by omega)
  have hshift : (e - t).toNat = k := by omega
  rw [decreaseExponent, hshift, Nat.shiftLeft_eq, show e = t + k by omega, zpow_add₀ two_ne_zero,
    zpow_natCast]
  push_cast
  ring

/-- A difference of doubles is the exact difference, rounded. -/
theorem exactOf_sub {u v : UnpackedFloat} (hu : Normal u) (hv : Normal v) :
    exactOf (unpack Format.binary64 (pack Format.binary64 (UnpackedFloat.sub Format.binary64 u v))) =
      approximate (exactOf u - exactOf v) := by
  have hsimple : ∀ {w : UnpackedFloat}, Normal w → exactOf w = exactOf u - exactOf v →
      exactOf (unpack Format.binary64 (pack Format.binary64 w)) =
        approximate (exactOf u - exactOf v) := by
    intro w hw heq
    rw [unpack_pack hw, ← heq, approximate_exactOf hw]
  cases u with
  | notANumber => exact hsimple (w := .notANumber) trivial rfl
  | infinity s =>
    cases v with
    | notANumber => cases s <;> exact hsimple (w := .notANumber) trivial rfl
    | infinity s' =>
      cases s <;> cases s'
      · exact hsimple (w := .notANumber) trivial rfl
      · exact hsimple (w := .infinity .negative) trivial rfl
      · exact hsimple (w := .infinity .positive) trivial rfl
      · exact hsimple (w := .notANumber) trivial rfl
    | zero | finite => cases s <;> exact hsimple (w := .infinity _) trivial rfl
  | zero s =>
    cases v with
    | notANumber => exact hsimple (w := .notANumber) trivial rfl
    | infinity s' => cases s' <;> exact hsimple (w := .infinity _) trivial rfl
    | zero s' =>
      have hzero : Exact.fin 0 = Exact.fin 0 - Exact.fin 0 := by rw [Exact.fin_sub_fin, sub_zero]
      cases s <;> cases s' <;> exact hsimple (w := .zero _) trivial hzero
    | finite s' m e hm =>
      refine hsimple (w := .finite (-s') m e hm) hv ?_
      simp only [exactOf, Exact.fin_sub_fin, zero_sub, apply_mul_zpow]
      cases s'
      · exact congrArg Exact.fin (neg_neg _).symm
      · rfl
  | finite s m e hm =>
    cases v with
    | notANumber => exact hsimple (w := .notANumber) trivial rfl
    | infinity s' => cases s' <;> exact hsimple (w := .infinity _) trivial rfl
    | zero s' =>
      refine hsimple (w := .finite s m e hm) hu ?_
      simp only [exactOf, Exact.fin_sub_fin, sub_zero]
    | finite s' m' e' hm' =>
      show exactOf (unpack _ (pack _ (UnpackedFloat.normalize _ _ _ _))) = _
      rw [exactOf_normalize]
      refine congrArg approximate (congrArg Exact.fin ?_)
      have hleft := decreaseExponent_value m (min_le_left e e')
      have hright := decreaseExponent_value m' (min_le_right e e')
      show ((s.apply (decreaseExponent m e (min e e')).1 -
        s'.apply (decreaseExponent m' e' (min e e')).1 : Int) : Rat) * 2 ^ min e e' =
          s.apply m * 2 ^ e + -(s'.apply m' * 2 ^ e')
      rw [Int.cast_sub, sub_mul, apply_mul_zpow, apply_mul_zpow, hleft, hright, ← apply_mul_zpow,
        ← apply_mul_zpow, sub_eq_add_neg]

theorem exact_sub (a b : Float) : exact (a - b) = approximate (exact a - exact b) :=
  exactOf_sub (normal_unpack a) (normal_unpack b)

/-! ## Products -/

theorem signed_mul (s s' : Sign) (y z : Rat) :
    signed (s * s') (y * z) = signed s y * signed s' z := by
  cases s <;> cases s'
  · exact (neg_mul_neg y z).symm
  · exact (neg_mul y z).symm
  · exact (mul_neg y z).symm
  · rfl

theorem infOf_signed (s : Sign) (hy : 0 < y) :
    Exact.infOf (signed s y) = exactOf (.infinity s) := by
  cases s
  · rw [signed, Exact.infOf, if_neg (by linarith), if_pos (by linarith), exactOf]
  · rw [signed, Exact.infOf, if_pos hy, exactOf]

/-- An infinite factor. -/
theorem exactOf_infinity_mul (s s' : Sign) (hy : 0 < y) :
    exactOf (.infinity (s * s')) = exactOf (.infinity s) * .fin (signed s' y) := by
  rw [← infOf_signed (s * s') hy]
  cases s <;> cases s'
  · exact congrArg Exact.infOf (neg_neg y).symm
  · rfl
  · rfl
  · rfl

theorem exactOf_mul_infinity (s s' : Sign) (hy : 0 < y) :
    exactOf (.infinity (s * s')) = .fin (signed s y) * exactOf (.infinity s') := by
  rw [← infOf_signed (s * s') hy]
  cases s <;> cases s'
  · exact congrArg Exact.infOf (neg_neg y).symm
  · rfl
  · rfl
  · rfl

theorem zero_mul_infinity (s : Sign) : .fin 0 * exactOf (.infinity s) = .nan := by
  cases s <;> decide

theorem infinity_mul_zero (s : Sign) : exactOf (.infinity s) * .fin 0 = .nan := by
  cases s <;> decide

/-- The exponent of a product is not above its last place. -/
theorem Canonical.mul_le {m m' : Nat} {e e' : Int} (h : Canonical m e) (h' : Canonical m' e')
    (hm : 0 < m) (hm' : 0 < m') : e + e' ≤ lastPlace (((m * m' : Nat) : Rat) * 2 ^ (e + e')) := by
  have hpos := Nat.mul_pos hm hm'
  have hlog : 2 ^ 52 ≤ m * m' → 52 ≤ (m * m').log2 := fun hge => (Nat.le_log2 hpos.ne').2 hge
  rw [lastPlace, log_mul_zpow hpos]
  rcases h.normal with h52 | rfl
  · have hge := hlog (h52.trans (Nat.le_mul_of_pos_right m hm'))
    omega
  · rcases h'.normal with h52 | rfl
    · have hge := hlog (h52.trans (Nat.le_mul_of_pos_left m' hm))
      omega
    · omega

/-- A product of doubles is the exact product, rounded. -/
theorem exactOf_mul {u v : UnpackedFloat} (hu : Normal u) (hv : Normal v) :
    exactOf (unpack Format.binary64 (pack Format.binary64 (UnpackedFloat.mul Format.binary64 u v))) =
      approximate (exactOf u * exactOf v) := by
  have hsimple : ∀ {w : UnpackedFloat}, Normal w → exactOf w = exactOf u * exactOf v →
      exactOf (unpack Format.binary64 (pack Format.binary64 w)) =
        approximate (exactOf u * exactOf v) := by
    intro w hw heq
    rw [unpack_pack hw, ← heq, approximate_exactOf hw]
  have hpos : ∀ {m : Nat} (e : Int), 0 < m → (0 : Rat) < m * 2 ^ e := fun e hm =>
    mul_pos (by exact_mod_cast hm) (by positivity)
  cases u with
  | notANumber => exact hsimple (w := .notANumber) trivial rfl
  | infinity s =>
    cases v with
    | notANumber => cases s <;> exact hsimple (w := .notANumber) trivial rfl
    | infinity s' => cases s <;> cases s' <;> exact hsimple (w := .infinity _) trivial rfl
    | zero => exact hsimple (w := .notANumber) trivial (infinity_mul_zero s).symm
    | finite s' m' e' hm' =>
      refine hsimple (w := .infinity (s * s')) trivial ?_
      rw [exactOf_infinity_mul s s' (hpos e' hm'), ← apply_mul_zpow]
      rfl
  | zero s =>
    cases v with
    | notANumber => exact hsimple (w := .notANumber) trivial rfl
    | infinity s' => exact hsimple (w := .notANumber) trivial (zero_mul_infinity s').symm
    | zero s' => exact hsimple (w := .zero (s * s')) trivial (congrArg Exact.fin (zero_mul _).symm)
    | finite s' =>
      exact hsimple (w := .zero (s * s')) trivial (congrArg Exact.fin (zero_mul _).symm)
  | finite s m e hm =>
    cases v with
    | notANumber => exact hsimple (w := .notANumber) trivial rfl
    | infinity s' =>
      refine hsimple (w := .infinity (s * s')) trivial ?_
      rw [exactOf_mul_infinity s s' (hpos e hm), ← apply_mul_zpow]
      rfl
    | zero s' => exact hsimple (w := .zero (s * s')) trivial (congrArg Exact.fin (mul_zero _).symm)
    | finite s' m' e' hm' =>
      have hrounds := rounds_roundWithAccuracy (s * s') (Nat.mul_pos hm hm') (hu.mul_le hv hm hm')
      have hvalue : ((m * m' : Nat) : Rat) * 2 ^ (e + e') = m * 2 ^ e * (m' * 2 ^ e') := by
        rw [zpow_add₀ two_ne_zero]
        push_cast
        ring
      have hexact := hrounds.exactOf (hpos _ (Nat.mul_pos hm hm'))
      rw [hvalue, signed_mul, ← apply_mul_zpow, ← apply_mul_zpow] at hexact
      exact hexact

theorem exact_mul (a b : Float) : exact (a * b) = approximate (exact a * exact b) :=
  exactOf_mul (normal_unpack a) (normal_unpack b)

end Milp.Double
