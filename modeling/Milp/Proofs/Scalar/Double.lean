/-
  Doubles are faithful: what the search does with finite doubles apart from sums and products is
  exact.

  A double is unpacked into sign, mantissa and exponent.  Of the many ways to write a value in this
  form packing knows one, the canonical one, and every unpacked double is in it; so doubles compare
  as their exponents and mantissas do, and a value that has a canonical form survives rounding.

  * `Double.value`: the exact value of an unpacked double; `toRat?_eq`: it is read off the bits.
  * `unpack_pack`: packing loses nothing of a canonical value.
  * `compare_eq`: finite doubles compare as the rationals that they are.
  * `toRat?_ofNat`: whole numbers below `2^53` are doubles, so rounding to whole numbers is exact:
    `toRat?_floor`, `toRat?_ceil`, `toRat?_fractionality`.
-/
import Milp.Scalar.Double
import Milp.Proofs.Scalar.Faithful
import Mathlib

namespace Milp.Double

open Float.Model Float.Model.UnpackedFloat

/-! ## Bits -/

/-- The exact value of an unpacked double. -/
def value : UnpackedFloat → Option Rat
  | .zero _ => some 0
  | .finite s m e _ => some (s.apply m * 2 ^ e)
  | _ => none

/-- The sign of a double with these bits. -/
def signOf (bits : Nat) : Sign := if signBit ≤ bits then .negative else .positive

/-- Unpacking, in terms of the bits as a natural number. -/
theorem unpack_eq (b : BitVec 64) : UnpackedFloat.unpack Format.binary64 b =
    let biased := b.toNat / hidden % 2048
    let fraction := b.toNat % hidden
    if biased = 2047 then if fraction = 0 then .infinity (signOf b.toNat) else .notANumber
    else if biased = 0 then
      if h : fraction = 0 then .zero (signOf b.toNat)
      else .finite (signOf b.toNat) fraction (-1074) (Nat.pos_of_ne_zero h)
    else .finite (signOf b.toNat) (hidden + fraction) (biased - 1075)
      (Nat.add_pos_left (by decide) _) := by
  have hmantissa : (@unpackMantissa Format.binary64 b).toNat = b.toNat % hidden := by
    simp [unpackMantissa, hidden]
  have hexponent : (@unpackExponent Format.binary64 b).toNat = b.toNat / hidden % 2048 := by
    simp [unpackExponent, hidden, Nat.shiftRight_eq_div_pow]
  have hsign : Sign.ofBitVec (@unpackSign Format.binary64 b) = signOf b.toNat := by
    have hlt := b.isLt
    have hnat : (@unpackSign Format.binary64 b).toNat = b.toNat / 2 ^ 63 := by
      simp [unpackSign, Nat.shiftRight_eq_div_pow]
      omega
    have hiff : @unpackSign Format.binary64 b = 0#1 ↔ ¬ signBit ≤ b.toNat := by
      rw [← BitVec.toNat_inj, hnat, show signBit = 2 ^ 63 from rfl, BitVec.toNat_zero]
      omega
    unfold Sign.ofBitVec signOf
    simp only [hiff, ite_not]
  have hfull : @unpackExponent Format.binary64 b = -1#_ ↔
      b.toNat / hidden % 2048 = 2047 := by
    rw [← BitVec.toNat_inj, hexponent]
    rfl
  have hnone : @unpackExponent Format.binary64 b = 0#_ ↔
      b.toNat / hidden % 2048 = 0 := by
    rw [← BitVec.toNat_inj, hexponent]
    rfl
  have hzero : @unpackMantissa Format.binary64 b = 0#_ ↔ b.toNat % hidden = 0 := by
    rw [← BitVec.toNat_inj, hmantissa]
    rfl
  have happend : (1#1 ++ @unpackMantissa Format.binary64 b).toNat =
      hidden + b.toNat % hidden := by
    rw [BitVec.toNat_append, ← Nat.shiftLeft_add_eq_or_of_lt (BitVec.isLt _), hmantissa]
    rfl
  unfold UnpackedFloat.unpack
  simp only [hfull, hnone, hzero, hsign, hmantissa, hexponent, happend]
  split
  · rfl
  · split
    · split
      · rfl
      · rename_i hbiased _
        simp only [hbiased]
        rfl
    · rfl

/-- Mantissa and exponent of a finite double in the one form in which it is packed. -/
structure Canonical (m : Nat) (e : Int) : Prop where
  lt : m < 2 ^ 53
  le_exponent : -1074 ≤ e
  exponent_le : e ≤ 971
  normal : 2 ^ 52 ≤ m ∨ e = -1074

/-- A finite value is in its canonical form. -/
def Normal : UnpackedFloat → Prop
  | .finite _ m e _ => Canonical m e
  | _ => True

theorem normal_unpack (x : Float) : Normal x.toModel.unpack := by
  show Normal (UnpackedFloat.unpack Format.binary64 x.toModel.toBits.toBitVec)
  rw [unpack_eq]
  generalize x.toModel.toBits.toBitVec.toNat = bits
  have hhidden : hidden = 2 ^ 52 := rfl
  have hfraction : bits % hidden < hidden := Nat.mod_lt _ (by decide)
  have hbiased : bits / hidden % 2048 < 2048 := Nat.mod_lt _ (by decide)
  simp only
  split
  · split <;> trivial
  · split
    · split
      · trivial
      · exact ⟨by omega, le_refl _, by decide, .inr rfl⟩
    · exact ⟨by omega, by omega, by omega, .inl (by omega)⟩

/-- Unpacking loses nothing, as there is only one double that is no number. -/
theorem eq_of_unpack {x y : Float} (h : x.toModel.unpack = y.toModel.unpack) : x = y := by
  have hbits := (unpack_inj_of_valid x.toModel.valid y.toModel.valid).1 h
  exact Float.toBits_inj.1 (UInt64.toBitVec_inj.1 hbits)

theorem Parts.toRat_eq (negative : Bool) (m : Nat) (e : Int) :
    Parts.toRat ⟨negative, m, e⟩ =
      ((if negative then Sign.negative else Sign.positive).apply m : Rat) * 2 ^ e := by
  have hsign : (if negative then -(m : Int) else m) =
      (if negative then Sign.negative else Sign.positive).apply m := by
    cases negative <;> rfl
  unfold Parts.toRat
  simp only [hsign]
  rcases le_or_gt 0 e with he | he
  · obtain ⟨k, rfl⟩ := Int.eq_ofNat_of_zero_le he
    rw [if_pos he, Int.toNat_natCast, Rat.mkRat_eq_div]
    rw [zpow_natCast, Nat.pow_eq]
    push_cast
    rw [div_one]
  · obtain ⟨k, hk⟩ := Int.eq_ofNat_of_zero_le (show 0 ≤ -e by omega)
    obtain rfl : e = -(k : Int) := by omega
    rw [if_neg (not_le.2 he), neg_neg, Int.toNat_natCast, Rat.mkRat_eq_div, zpow_neg, zpow_natCast,
      ← div_eq_mul_inv, Nat.pow_eq]
    push_cast
    rfl

/-- The value of a double is read off its bits. -/
theorem toRat?_eq (x : Float) : toRat? x = value x.toModel.unpack := by
  unfold toRat? Float.isFinite Float.Model.isFinite parts
  rw [show x.toBits.toNat = x.toModel.toBits.toBitVec.toNat from rfl]
  rw [show x.toModel.unpack =
    UnpackedFloat.unpack Format.binary64 x.toModel.toBits.toBitVec from rfl]
  rw [unpack_eq]
  generalize x.toModel.toBits.toBitVec.toNat = bits
  have hpow : Nat.pow 2 11 = 2048 := rfl
  simp only [hpow]
  split
  · split <;> rfl
  · split
    · rename_i hbiased
      have hsign : (if decide (signBit ≤ bits) = true then Sign.negative else .positive) =
          signOf bits := by
        simp [signOf]
      split
      · rename_i hfraction
        have hzero : ((signOf bits).apply 0 : Rat) = 0 := by
          cases signOf bits <;> simp [Sign.apply]
        simp only [UnpackedFloat.isFinite, if_true, value, Parts.toRat_eq, hfraction, hsign]
        rw [Nat.cast_zero, hzero, zero_mul]
      · simp only [UnpackedFloat.isFinite, if_true, value, Parts.toRat_eq, hsign]
    · simp only [UnpackedFloat.isFinite, if_true, value, Parts.toRat_eq, signOf, decide_eq_true_eq]

/-! ## Packing -/

theorem finite_congr {s : Sign} {m m' : Nat} {e e' : Int} {h : 0 < m} (h' : 0 < m')
    (hm : m = m') (he : e = e') :
    UnpackedFloat.finite s m e h = UnpackedFloat.finite s m' e' h' := by
  subst hm he
  rfl

/-- The parts of packed bits. -/
theorem toNat_packComponents (s : Sign) (e : BitVec 11) (m : BitVec 52) :
    (packComponents Format.binary64 s e m).toNat =
      (match s with | .negative => 2 ^ 63 | .positive => 0) + e.toNat * 2 ^ 52 + m.toNat := by
  unfold packComponents
  rw [BitVec.toNat_append, ← Nat.shiftLeft_add_eq_or_of_lt m.isLt, BitVec.toNat_append,
    ← Nat.shiftLeft_add_eq_or_of_lt e.isLt, Nat.shiftLeft_eq, Nat.shiftLeft_eq]
  cases s
  · simp only [Sign.toBitVec, BitVec.toNat_ofNat]
    omega
  · simp only [Sign.toBitVec, BitVec.toNat_ofNat]
    omega

theorem unpack_pack {u : UnpackedFloat} (h : Normal u) :
    UnpackedFloat.unpack Format.binary64 (UnpackedFloat.pack Format.binary64 u) = u := by
  have hhidden : hidden = 2 ^ 52 := rfl
  have hsignBit : signBit = 2 ^ 63 := rfl
  have hsign : ∀ (s : Sign) (e : BitVec 11) (m : BitVec 52),
      signOf (packComponents Format.binary64 s e m).toNat = s := fun s e m => by
    have he := e.isLt
    have hm := m.isLt
    rw [toNat_packComponents, signOf, hsignBit]
    cases s
    · rw [if_pos (by simp only; omega)]
    · rw [if_neg (by simp only; omega)]
  have hbiased : ∀ (s : Sign) (e : BitVec 11) (m : BitVec 52),
      (packComponents Format.binary64 s e m).toNat / hidden % 2048 = e.toNat := fun s e m => by
    have he := e.isLt
    have hm := m.isLt
    rw [toNat_packComponents, hhidden]
    cases s <;> simp only <;> omega
  have hfraction : ∀ (s : Sign) (e : BitVec 11) (m : BitVec 52),
      (packComponents Format.binary64 s e m).toNat % hidden = m.toNat := fun s e m => by
    have he := e.isLt
    have hm := m.isLt
    rw [toNat_packComponents, hhidden]
    cases s <;> simp only <;> omega
  cases u with
  | infinity s =>
    rw [unpack_eq]
    simp only [UnpackedFloat.pack, packedInfinity, hsign, hbiased, hfraction]
    rfl
  | notANumber => rfl
  | zero s =>
    rw [unpack_eq]
    simp only [UnpackedFloat.pack, packedZero, hsign, hbiased, hfraction]
    rfl
  | finite s m e hm =>
    obtain ⟨hlt, hle, hge, hnormal⟩ := h
    have hexponent : (e + Format.binary64.exponentBias + Format.binary64.mantissaBitsWithoutImplicit)
        = e + 1075 := by
      show e + 1023 + 52 = _
      omega
    have hfits : ¬ 2 ^ 11 ≤ (e + 1075).toNat + 1 := by omega
    have hbits : Format.binary64.mantissaBits = 53 := rfl
    unfold UnpackedFloat.pack
    simp only [hexponent, hfits, if_false, hbits]
    by_cases h52 : 2 ^ 52 ≤ m
    · have hlog : m.log2 + 1 = 53 := by
        have h₁ := (Nat.le_log2 hm.ne').2 h52
        have h₂ := (Nat.log2_lt hm.ne').2 hlt
        omega
      have hmod : m % 2 ^ 52 = m - 2 ^ 52 := by omega
      rw [if_pos hlog, unpack_eq]
      simp only [hsign, hbiased, hfraction, BitVec.toNat_ofNat, hmod]
      have hne : (e + 1075).toNat % 2 ^ 11 = (e + 1075).toNat := Nat.mod_eq_of_lt (by omega)
      rw [if_neg (by omega), if_neg (by omega)]
      exact finite_congr hm (by omega) (by omega)
    · have hlog : ¬ m.log2 + 1 = 53 := by
        have h₁ := (Nat.log2_lt hm.ne').2 (not_le.1 h52)
        omega
      have hmod : m % 2 ^ 52 = m := Nat.mod_eq_of_lt (not_le.1 h52)
      obtain rfl : e = -1074 := hnormal.resolve_left h52
      rw [if_neg hlog, unpack_eq]
      simp only [hsign, hbiased, hfraction, BitVec.toNat_ofNat, hmod]
      simp only [hm.ne', dite_false]
      rfl

/-! ## Comparison -/

theorem compare_mul_zpow {m₁ m₂ : Nat} {e₁ e₂ : Int} (h₁ : Canonical m₁ e₁) (h₂ : Canonical m₂ e₂) :
    (compare e₁ e₂).then (compare m₁ m₂) =
      compare ((m₁ : Rat) * 2 ^ e₁) ((m₂ : Rat) * 2 ^ e₂) := by
  have key : ∀ {m₁ m₂ : Nat} {e₁ e₂ : Int}, Canonical m₁ e₁ → Canonical m₂ e₂ → e₁ < e₂ →
      (m₁ : Rat) * 2 ^ e₁ < m₂ * 2 ^ e₂ := by
    intro m₁ m₂ e₁ e₂ h₁ h₂ hlt
    have hm₂ : 2 ^ 52 ≤ m₂ := h₂.normal.resolve_right (by have := h₁.le_exponent; omega)
    have hpow : (2 : Rat) * 2 ^ e₁ ≤ 2 ^ e₂ := by
      rw [← zpow_one_add₀ (by norm_num)]
      exact zpow_le_zpow_right₀ (by norm_num) (by omega)
    calc (m₁ : Rat) * 2 ^ e₁ < 2 ^ 53 * 2 ^ e₁ :=
          mul_lt_mul_of_pos_right (by exact_mod_cast h₁.lt) (by positivity)
      _ = 2 ^ 52 * (2 * 2 ^ e₁) := by ring
      _ ≤ 2 ^ 52 * 2 ^ e₂ := mul_le_mul_of_nonneg_left hpow (by positivity)
      _ ≤ m₂ * 2 ^ e₂ := mul_le_mul_of_nonneg_right (by exact_mod_cast hm₂) (by positivity)
  rcases lt_trichotomy e₁ e₂ with hlt | rfl | hgt
  · rw [compare_lt_iff_lt.2 hlt, compare_lt_iff_lt.2 (key h₁ h₂ hlt)]
    rfl
  · have hpos : (0 : Rat) < 2 ^ e₁ := by positivity
    rw [compare_eq_iff_eq.2 rfl]
    show compare m₁ m₂ = _
    rcases lt_trichotomy m₁ m₂ with hlt | rfl | hgt
    · rw [compare_lt_iff_lt.2 hlt, compare_lt_iff_lt.2]
      exact mul_lt_mul_of_pos_right (by exact_mod_cast hlt) hpos
    · rw [compare_eq_iff_eq.2 rfl, compare_eq_iff_eq.2 rfl]
    · rw [compare_gt_iff_gt.2 hgt, compare_gt_iff_gt.2]
      exact mul_lt_mul_of_pos_right (by exact_mod_cast hgt) hpos
  · rw [compare_gt_iff_gt.2 hgt, compare_gt_iff_gt.2 (key h₂ h₁ hgt)]
    rfl

theorem compare_neg (p q : Rat) : compare (-p) (-q) = (compare p q).swap := by
  rcases lt_trichotomy p q with hlt | rfl | hgt
  · rw [compare_lt_iff_lt.2 hlt, compare_gt_iff_gt.2 (neg_lt_neg hlt)]
    rfl
  · rw [compare_eq_iff_eq.2 rfl, compare_eq_iff_eq.2 rfl]
    rfl
  · rw [compare_gt_iff_gt.2 hgt, compare_lt_iff_lt.2 (neg_lt_neg hgt)]
    rfl

/-- Values that are finite are compared as rationals. -/
theorem compare_eq {u v : UnpackedFloat} {p q : Rat} (hu : Normal u) (hv : Normal v)
    (hp : value u = some p) (hq : value v = some q) : u.compare v = some (compare p q) := by
  cases u with
  | infinity | notANumber => cases hp
  | zero s =>
    cases hp
    cases v with
    | infinity | notANumber => cases hq
    | zero s' =>
      cases hq
      rfl
    | finite s' m e hm =>
      cases hq
      have hpos : (0 : Rat) < m * 2 ^ e := mul_pos (by exact_mod_cast hm) (by positivity)
      cases s'
      · refine congrArg some (compare_gt_iff_gt.2 ?_).symm
        simpa [Sign.apply] using hpos
      · exact congrArg some (compare_lt_iff_lt.2 hpos).symm
  | finite s m e hm =>
    cases hp
    have hpos : (0 : Rat) < m * 2 ^ e := mul_pos (by exact_mod_cast hm) (by positivity)
    cases v with
    | infinity | notANumber => cases hq
    | zero s' =>
      cases hq
      cases s
      · refine congrArg some (compare_lt_iff_lt.2 ?_).symm
        simpa [Sign.apply] using hpos
      · exact congrArg some (compare_gt_iff_gt.2 hpos).symm
    | finite s' m' e' hm' =>
      cases hq
      have hpos' : (0 : Rat) < m' * 2 ^ e' := mul_pos (by exact_mod_cast hm') (by positivity)
      cases s <;> cases s'
      · show some ((compare e e').then (compare m m')).swap = _
        rw [compare_mul_zpow hu hv, ← compare_neg]
        simp only [Sign.apply, Int.cast_neg, Int.cast_natCast, neg_mul]
      · refine congrArg some (compare_lt_iff_lt.2 ?_).symm
        simp only [Sign.apply, Int.cast_neg, Int.cast_natCast, neg_mul]
        linarith
      · refine congrArg some (compare_gt_iff_gt.2 ?_).symm
        simp only [Sign.apply, Int.cast_neg, Int.cast_natCast, neg_mul]
        linarith
      · exact congrArg some (compare_mul_zpow hu hv)

theorem compare_toModel {x y : Float} {p q : Rat} (hx : toRat? x = some p)
    (hy : toRat? y = some q) :
    x.toModel.unpack.compare y.toModel.unpack = some (compare p q) :=
  compare_eq (normal_unpack _) (normal_unpack _) (toRat?_eq x ▸ hx) (toRat?_eq y ▸ hy)

theorem lt_iff {x y : Float} {p q : Rat} (hx : toRat? x = some p) (hy : toRat? y = some q) :
    x < y ↔ p < q := by
  show decide (UnpackedFloat.lt _ _ = true) = true ↔ _
  rw [decide_eq_true_iff, UnpackedFloat.lt, compare_toModel hx hy, ← compare_lt_iff_lt]
  cases compare p q <;> decide

theorem le_iff {x y : Float} {p q : Rat} (hx : toRat? x = some p) (hy : toRat? y = some q) :
    x ≤ y ↔ p ≤ q := by
  show decide (UnpackedFloat.le _ _ = true) = true ↔ _
  rw [decide_eq_true_iff, UnpackedFloat.le, compare_toModel hx hy, ← compare_le_iff_le]
  cases compare p q <;> decide

/-! ## Whole numbers -/

theorem targetExponent_eq (t : Int) : Format.binary64.targetExponent t = max (t - 53) (-1074) := rfl

/-- Shifting out zeros is exact. -/
theorem shiftRight_exact (m k : Nat) :
    (⟨m * 2 ^ k, false, false⟩ : ExtendedMantissa) >>> k = ⟨m, false, false⟩ := by
  induction k generalizing m with
  | zero => simp [HShiftRight.hShiftRight, Nat.repeat]
  | succ k ih =>
    show ExtendedMantissa.shiftRightOne
      ((⟨m * 2 ^ (k + 1), false, false⟩ : ExtendedMantissa) >>> k) = _
    rw [show m * 2 ^ (k + 1) = m * 2 * 2 ^ k by ring, ih]
    simp [ExtendedMantissa.shiftRightOne]

theorem log2_mul_two_pow {m : Nat} (hm : 0 < m) (k : Nat) : (m * 2 ^ k).log2 = m.log2 + k := by
  have hne : m * 2 ^ k ≠ 0 := (Nat.mul_pos hm (Nat.two_pow_pos k)).ne'
  rw [Nat.log2_eq_iff hne, pow_add, pow_add, pow_add]
  have hle := Nat.log2_self_le hm.ne'
  have hlt := Nat.lt_log2_self (n := m)
  refine ⟨Nat.mul_le_mul_right _ hle, ?_⟩
  calc m * 2 ^ k < 2 ^ (m.log2 + 1) * 2 ^ k := Nat.mul_lt_mul_of_pos_right hlt (Nat.two_pow_pos k)
    _ = 2 ^ m.log2 * 2 ^ k * 2 ^ 1 := by ring

/-- The exponent of a canonical value is the one that rounding aims at. -/
theorem Canonical.targetExponent_eq {m : Nat} {e : Int} (h : Canonical m e) (hm : 0 < m) :
    Format.binary64.targetExponent (m.log2 + 1 + e) = e := by
  obtain ⟨hlt, hle, -, hnormal⟩ := h
  have hlog := (Nat.log2_lt hm.ne').2 hlt
  rw [Double.targetExponent_eq]
  rcases hnormal with h52 | rfl
  · have hge := (Nat.le_log2 hm.ne').2 h52
    omega
  · omega

/-- A value that can be represented is not changed by rounding. -/
theorem round_exact {m : Nat} {e : Int} (h : Canonical m e) (hm : 0 < m) (s : Sign) (k : Nat) :
    roundWithAccuracy Format.binary64 s (m * 2 ^ k) (e - k) .exact = .finite s m e hm := by
  have hfirst : shiftToTargetExponent Format.binary64 (m * 2 ^ k) (e - k) .exact =
      (⟨m, false, false⟩, e) := by
    unfold shiftToTargetExponent totalExponent
    rw [log2_mul_two_pow hm, show ((m.log2 + k : Nat) : Int) + 1 + (e - k) = m.log2 + 1 + e by
      push_cast; ring, h.targetExponent_eq hm]
    have hshift : (e - (e - (k : Int))).toNat = k := by omega
    have hback : e - (k : Int) + k = e := by omega
    simp only [shiftToExponent, hshift, hback, ExtendedMantissa.ofMantissaAndAccuracy,
      shiftRight_exact]
  have hsecond : shiftToTargetExponent Format.binary64 m e .exact = (⟨m, false, false⟩, e) := by
    unfold shiftToTargetExponent totalExponent
    rw [h.targetExponent_eq hm]
    simp [shiftToExponent, ExtendedMantissa.ofMantissaAndAccuracy, HShiftRight.hShiftRight,
      Nat.repeat]
  unfold roundWithAccuracy
  simp only [hfirst, ExtendedMantissa.roundedMantissa, ExtendedMantissa.accuracy,
    Accuracy.roundToNearestEven, hsecond, hm.ne', dite_false]

/-- A whole number below `2^53` is stored with its highest bit at 52. -/
theorem canonical_ofNat {n : Nat} (hn : 0 < n) (hlt : n < 2 ^ 53) :
    Canonical (n * 2 ^ (52 - n.log2)) (n.log2 - 52) := by
  have hlog : n.log2 ≤ 52 := Nat.le_of_lt_succ ((Nat.log2_lt hn.ne').2 hlt)
  have hle := Nat.log2_self_le hn.ne'
  have hself := Nat.lt_log2_self (n := n)
  have hpow : ∀ {a b : Nat}, a + (52 - n.log2) = b → 2 ^ a * 2 ^ (52 - n.log2) = 2 ^ b :=
    fun h => by rw [← pow_add, h]
  refine ⟨?_, by omega, by omega, .inl ?_⟩
  · rw [← hpow (show n.log2 + 1 + (52 - n.log2) = 53 by omega)]
    exact Nat.mul_lt_mul_of_pos_right hself (Nat.two_pow_pos _)
  · rw [← hpow (show n.log2 + (52 - n.log2) = 52 by omega)]
    exact Nat.mul_le_mul_right _ hle

theorem normalize_natCast {n : Nat} (hn : 0 < n) (hlt : n < 2 ^ 53) :
    UnpackedFloat.normalize Format.binary64 n 0 .positive =
      .finite .positive (n * 2 ^ (52 - n.log2)) (n.log2 - 52)
        (Nat.mul_pos hn (Nat.two_pow_pos _)) := by
  have hlog : n.log2 ≤ 52 := Nat.le_of_lt_succ ((Nat.log2_lt hn.ne').2 hlt)
  have htarget : Format.binary64.targetExponent (totalExponent n 0) = n.log2 - 52 := by
    rw [Double.targetExponent_eq, totalExponent]
    omega
  have hcompare : compare (n : Int) 0 = .gt := compare_gt_iff_gt.2 (by exact_mod_cast hn)
  have hshift : (0 - ((n.log2 : Int) - 52)).toNat = 52 - n.log2 := by omega
  have hback : (0 : Int) - (52 - n.log2 : Nat) = n.log2 - 52 := by omega
  unfold UnpackedFloat.normalize
  rw [hcompare]
  simp only [Int.toNat_natCast, UnpackedFloat.round, decreaseExponent, htarget, hshift,
    Nat.shiftLeft_eq, hback]
  have hround :=
    round_exact (canonical_ofNat hn hlt) (Nat.mul_pos hn (Nat.two_pow_pos _)) .positive 0
  rwa [pow_zero, mul_one, Nat.cast_zero, sub_zero] at hround

theorem unpack_one : (Float.ofBits 0x3FF0000000000000).toModel.unpack =
    .finite .positive (2 ^ 52) (-52) (Nat.two_pow_pos _) := by
  rfl

theorem unpack_ofNat {n : Nat} (hn : 0 < n) (hlt : n < 2 ^ 53) :
    (Float.ofNat n).toModel.unpack =
      .finite .positive (n * 2 ^ (52 - n.log2)) (n.log2 - 52)
        (Nat.mul_pos hn (Nat.two_pow_pos _)) := by
  have hcanonical := canonical_ofNat hn hlt
  have hpos := Nat.mul_pos hn (Nat.two_pow_pos (52 - n.log2))
  have hfast : Float.ofNat n = n.toUInt64.toFloat * Float.ofBits 0x3FF0000000000000 := by
    show Float.ofScientific n false 0 = _
    unfold Float.ofScientific
    rw [dif_pos ⟨hlt, by decide⟩]
    rfl
  have htoNat : n.toUInt64.toNat = n := by
    rw [Nat.toUInt64, UInt64.toNat_ofNat']
    exact Nat.mod_eq_of_lt (by omega)
  have hleft : n.toUInt64.toFloat.toModel.unpack =
      .finite .positive (n * 2 ^ (52 - n.log2)) (n.log2 - 52) hpos := by
    show UnpackedFloat.unpack Format.binary64 (UnpackedFloat.pack Format.binary64
      (UnpackedFloat.normalize Format.binary64 (n.toUInt64.toNat : Int) 0 .positive)) = _
    rw [htoNat, normalize_natCast hn hlt]
    exact unpack_pack (u := .finite _ _ _ hpos) hcanonical
  have hmul : UnpackedFloat.mul Format.binary64
      (.finite .positive (n * 2 ^ (52 - n.log2)) (n.log2 - 52) hpos)
      (.finite .positive (2 ^ 52) (-52) (Nat.two_pow_pos _)) = .finite .positive _ _ hpos :=
    round_exact hcanonical hpos .positive 52
  rw [hfast]
  show UnpackedFloat.unpack Format.binary64 (UnpackedFloat.pack Format.binary64
    (UnpackedFloat.mul Format.binary64 n.toUInt64.toFloat.toModel.unpack
      (Float.ofBits 0x3FF0000000000000).toModel.unpack)) = _
  rw [hleft, unpack_one, hmul]
  exact unpack_pack (u := .finite _ _ _ hpos) hcanonical

/-- Whole numbers below `2^53` are doubles. -/
theorem toRat?_ofNat {n : Nat} (hlt : n < 2 ^ 53) : toRat? (Float.ofNat n) = some (n : Rat) := by
  rcases Nat.eq_zero_or_pos n with rfl | hn
  · decide +kernel
  · have hlog : n.log2 ≤ 52 := Nat.le_of_lt_succ ((Nat.log2_lt hn.ne').2 hlt)
    rw [toRat?_eq, unpack_ofNat hn hlt]
    simp only [value, Sign.apply]
    rw [show (n.log2 : Int) - 52 = -((52 - n.log2 : Nat) : Int) by omega, zpow_neg, zpow_natCast]
    push_cast
    rw [mul_assoc, mul_inv_cancel₀ (by positivity), mul_one]

theorem toRat?_neg {x : Float} {p : Rat} (h : toRat? x = some p) : toRat? (-x) = some (-p) := by
  have hnormal : Normal x.toModel.unpack.neg := by
    have hx := normal_unpack x
    generalize x.toModel.unpack = u at hx ⊢
    cases u <;> exact hx
  have hneg : (-x).toModel.unpack = x.toModel.unpack.neg := unpack_pack hnormal
  rw [toRat?_eq] at h ⊢
  rw [hneg]
  generalize x.toModel.unpack = u at h ⊢
  cases u with
  | infinity | notANumber => cases h
  | zero s =>
    cases h
    rfl
  | finite s m e hm =>
    cases h
    cases s
    · simp only [UnpackedFloat.neg, value]
      show some (((m : Int) : Rat) * 2 ^ e) = some (-(((-(m : Int) : Int) : Rat) * 2 ^ e))
      push_cast
      ring_nf
    · simp only [UnpackedFloat.neg, value]
      show some (((-(m : Int) : Int) : Rat) * 2 ^ e) = some (-(((m : Int) : Rat) * 2 ^ e))
      push_cast
      ring_nf

/-- The parts of a finite double. -/
theorem parts_of_toRat? {x : Float} {p : Rat} (h : toRat? x = some p) :
    ∃ s : Sign, p = (s.apply (parts x).mantissa : Rat) * 2 ^ (parts x).exponent ∧
      (parts x).mantissa < 2 ^ 53 ∧ (s = .negative ↔ (parts x).negative = true) ∧
      x.isFinite = true := by
  unfold toRat? at h
  split at h
  · rename_i hfinite
    cases h
    refine ⟨if (parts x).negative then .negative else .positive, Parts.toRat_eq .., ?_, ?_, hfinite⟩
    · have hhidden : hidden = 2 ^ 52 := rfl
      have hlt : x.toBits.toNat % hidden < hidden := Nat.mod_lt _ (by decide)
      unfold parts
      simp only
      split
      · simp only; omega
      · simp only; omega
    · cases (parts x).negative <;> simp
  · cases h

/-- A double is rounded to a whole number by rounding its magnitude. -/
theorem toWhole_spec (up : Bool → Nat → Nat → Bool) {x : Float} {p : Rat} (h : toRat? x = some p) :
    (toWhole up x = x ∧ ∃ z : Int, p = z) ∨
    ∃ (s : Sign) (negative : Bool) (m k : Nat), (s = .negative ↔ negative = true) ∧
      p = (s.apply m : Rat) / (2 ^ k : Nat) ∧ toRat? (toWhole up x) =
        some ((s.apply (if up negative (m % 2 ^ k) (2 ^ k) then m / 2 ^ k + 1 else m / 2 ^ k : Nat) :
          Int) : Rat) := by
  obtain ⟨s, hp, hlt, hs, hfinite⟩ := parts_of_toRat? h
  unfold toWhole
  rw [hfinite]
  rcases le_or_gt 0 (parts x).exponent with he | he
  · refine .inl ⟨by simp [he], s.apply (parts x).mantissa * 2 ^ (parts x).exponent.toNat, ?_⟩
    obtain ⟨k, hk⟩ := Int.eq_ofNat_of_zero_le he
    rw [hp, hk]
    push_cast
    rfl
  · right
    obtain ⟨k, hk⟩ := Int.eq_ofNat_of_zero_le (show 0 ≤ -(parts x).exponent by omega)
    have hexponent : (parts x).exponent = -(k : Int) := by omega
    have hkpos : 0 < k := by omega
    refine ⟨s, (parts x).negative, (parts x).mantissa, k, hs, ?_, ?_⟩
    · rw [hp, hexponent, zpow_neg, zpow_natCast, div_eq_mul_inv]
      push_cast
      rfl
    · have hunit : Nat.pow 2 (-(parts x).exponent).toNat = 2 ^ k := by
        rw [hk, Int.toNat_natCast]
        rfl
      have hhalf : (parts x).mantissa / 2 ^ k < 2 ^ 52 := by
        refine Nat.div_lt_of_lt_mul (lt_of_lt_of_le hlt ?_)
        rw [← pow_add]
        exact Nat.pow_le_pow_right (by decide) (by omega)
      simp only [not_le.2 he, decide_false, Bool.not_true, Bool.or_false, Bool.false_eq_true,
        if_false, hunit]
      generalize hn : (if up (parts x).negative ((parts x).mantissa % 2 ^ k) (2 ^ k) = true then
        (parts x).mantissa / 2 ^ k + 1 else (parts x).mantissa / 2 ^ k) = n
      have hrat : toRat? (Float.ofNat n) = some (n : Rat) :=
        toRat?_ofNat (by rw [← hn]; split <;> omega)
      cases s
      · rw [if_pos (hs.1 rfl), toRat?_neg hrat]
        simp [Sign.apply]
      · have hnot : (parts x).negative ≠ true := fun h => by cases hs.2 h
        rw [if_neg hnot, hrat]
        rfl

theorem neg_ediv_natCast (m : Nat) {u : Nat} (hu : 0 < u) : -(m : Int) / (u : Int) =
    -((if m % u ≠ 0 then m / u + 1 else m / u : Nat) : Int) := by
  have hsign : (u : Int).sign = 1 := Int.sign_eq_one_of_pos (by exact_mod_cast hu)
  rw [Int.neg_ediv, hsign]
  by_cases h : m % u = 0
  · rw [if_pos (by exact_mod_cast Nat.dvd_of_mod_eq_zero h), if_neg (by simpa using h)]
    push_cast
    ring
  · rw [if_neg (fun hdvd => h (Nat.mod_eq_zero_of_dvd (by exact_mod_cast hdvd))), if_pos h]
    push_cast
    ring

theorem toRat?_floor {x : Float} {p : Rat} (h : toRat? x = some p) :
    toRat? (Double.floor x) = some (⌊p⌋ : Rat) := by
  rcases toWhole_spec (fun negative rest _ => negative && rest != 0) h with
    ⟨heq, z, rfl⟩ | ⟨s, negative, m, k, hs, rfl, heq⟩
  · rw [Double.floor, heq, h, Int.floor_intCast]
  · rw [Double.floor, heq, Rat.floor_intCast_div_natCast]
    cases s
    · rw [hs.1 rfl]
      simp only [Sign.apply, neg_ediv_natCast m (Nat.two_pow_pos k), Bool.true_and, bne_iff_ne]
    · have hnot : negative = false := Bool.eq_false_iff.2 fun h => by cases hs.2 h
      rw [hnot]
      simp [Sign.apply]

theorem toRat?_ceil {x : Float} {p : Rat} (h : toRat? x = some p) :
    toRat? (Double.ceil x) = some (⌈p⌉ : Rat) := by
  rcases toWhole_spec (fun negative rest _ => !negative && rest != 0) h with
    ⟨heq, z, rfl⟩ | ⟨s, negative, m, k, hs, rfl, heq⟩
  · rw [Double.ceil, heq, h, Int.ceil_intCast]
  · rw [Double.ceil, heq, Rat.ceil_intCast_div_natCast]
    cases s
    · rw [hs.1 rfl]
      simp [Sign.apply]
    · have hnot : negative = false := Bool.eq_false_iff.2 fun h => by cases hs.2 h
      rw [hnot]
      simp only [Sign.apply, neg_ediv_natCast m (Nat.two_pow_pos k), Bool.not_false, Bool.true_and,
        bne_iff_ne, neg_neg]

/-- Rounding leaves a whole number as it is. -/
theorem toRat?_round {x : Float} {z : Int} (h : toRat? x = some (z : Rat)) :
    toRat? (Double.round x) = some (z : Rat) := by
  rcases toWhole_spec (fun _ rest unit => decide (unit ≤ 2 * rest)) h with
    ⟨heq, -⟩ | ⟨s, negative, m, k, -, hz, heq⟩
  · rw [Double.round, heq, h]
  · have hunit : (2 ^ k : Nat) ≠ 0 := (Nat.two_pow_pos k).ne'
    have hmul : s.apply m = z * (2 ^ k : Nat) := by
      have hcast : (s.apply m : Rat) = z * (2 ^ k : Nat) := by
        rw [hz, div_mul_cancel₀ _ (by exact_mod_cast hunit)]
      exact_mod_cast hcast
    have hdvd : (2 ^ k : Nat) ∣ m := by
      have hint : ((2 ^ k : Nat) : Int) ∣ s.apply m := ⟨z, by rw [hmul, mul_comm]⟩
      cases s
      · exact Int.natCast_dvd_natCast.1 ((Int.dvd_neg).1 hint)
      · exact Int.natCast_dvd_natCast.1 hint
    obtain ⟨n, rfl⟩ := hdvd
    rw [Double.round, heq]
    have hmod : 2 ^ k * n % 2 ^ k = 0 := Nat.mul_mod_right _ _
    have hdiv : 2 ^ k * n / 2 ^ k = n := Nat.mul_div_cancel_left n (Nat.two_pow_pos k)
    have hz' : s.apply n = z := by
      have hpos : (0 : Int) < (2 ^ k : Nat) := by exact_mod_cast Nat.two_pow_pos k
      refine Int.eq_of_mul_eq_mul_right hpos.ne' (hmul.symm ▸ ?_)
      cases s <;> simp only [Sign.apply] <;> push_cast <;> ring
    rw [hmod, hdiv, if_neg (by simp), hz']

theorem sub_eq_zero {u v : UnpackedFloat} {p : Rat} (hu : Normal u) (hv : Normal v)
    (hup : value u = some p) (hvp : value v = some p) :
    ∃ s, UnpackedFloat.sub Format.binary64 u v = .zero s := by
  have hcompare := compare_eq hu hv hup hvp
  rw [compare_eq_iff_eq.2 rfl] at hcompare
  cases u with
  | infinity | notANumber => cases hup
  | zero s =>
    cases v with
    | infinity | notANumber => cases hvp
    | zero s' => cases s <;> cases s' <;> exact ⟨_, rfl⟩
    | finite s' m e hm => cases s' <;> cases hcompare
  | finite s m e hm =>
    cases v with
    | infinity | notANumber => cases hvp
    | zero s' => cases s <;> cases hcompare
    | finite s' m' e' hm' =>
      have hsame : s = s' ∧ (compare e e').then (compare m m') = .eq := by
        cases s <;> cases s'
        · exact ⟨rfl, Ordering.swap_inj.1 (Option.some.inj hcompare)⟩
        · cases hcompare
        · cases hcompare
        · exact ⟨rfl, Option.some.inj hcompare⟩
      obtain ⟨rfl, hthen⟩ := hsame
      obtain ⟨he, hm'⟩ := Ordering.then_eq_eq.1 hthen
      obtain rfl := compare_eq_iff_eq.1 he
      obtain rfl := compare_eq_iff_eq.1 hm'
      refine ⟨.positive, ?_⟩
      simp [UnpackedFloat.sub, UnpackedFloat.normalize]

theorem toRat?_fractionality {x : Float} {z : Int} (h : toRat? x = some (z : Rat)) :
    toRat? (Float.abs (x - Double.round x)) = some 0 := by
  obtain ⟨s, hs⟩ := sub_eq_zero (normal_unpack x) (normal_unpack (Double.round x))
    ((toRat?_eq x).symm.trans h) ((toRat?_eq _).symm.trans (toRat?_round h))
  have hsub : (x - Double.round x).toModel.unpack = .zero s := by
    show UnpackedFloat.unpack Format.binary64 (UnpackedFloat.pack Format.binary64
      (UnpackedFloat.sub Format.binary64 _ _)) = _
    rw [hs, unpack_pack (u := .zero s) trivial]
  have habs : (Float.abs (x - Double.round x)).toModel.unpack = .zero .positive := by
    show UnpackedFloat.unpack Format.binary64 (UnpackedFloat.pack Format.binary64
      (x - Double.round x).toModel.unpack.abs) = _
    rw [hsub]
    exact unpack_pack (u := .zero .positive) trivial
  rw [toRat?_eq, habs]
  rfl

instance : Scalar.Faithful Float where
  isFinite_iff := by
    intro x
    show x.isFinite = true ↔ ∃ p, toRat? x = some p
    unfold toRat?
    split <;> simp_all
  isNaN_eq := by
    intro x p h
    have hvalue : value x.toModel.unpack = some p := (toRat?_eq x).symm.trans h
    show x.toModel.unpack.isNaN = false
    generalize x.toModel.unpack = u at hvalue
    cases u with
    | notANumber => cases hvalue
    | _ => rfl
  lt_iff := lt_iff
  le_iff := le_iff
  floor_eq := toRat?_floor
  ceil_eq := toRat?_ceil
  fractionality_eq := toRat?_fractionality
  zero_eq := by decide +kernel

end Milp.Double
