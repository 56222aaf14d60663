/-
  Distances from whole numbers, sums, and values made smaller.

  A double and the whole number nearest to it differ by a value that needs no rounding, so the test
  for whole values measures the true distance.

  * `Scalar.Measured`: what a scalar has to get right for this; exact scalars and doubles do.
  * `Scalar.exists_int_of_fractionality_le`: what passes the test is close to a whole number.
  * `Scalar.fractionality_le_iff`: the two ways to write the test agree.
  * `Double.approximate_grid`: a multiple of a power of two with few digits is a double.
  * `Double.exact_add`: a sum is that of the exact scalars, rounded.
-/
import Milp.Proofs.Scalar.Ordered

namespace Milp

/-- The distance from the nearest whole number is exact, the sum of a number and a finite value is a
    number, and taking away a value that is not negative makes nothing larger. -/
class Scalar.Measured (F : Type) [Extended F] : Prop where
  fractionality_eq : ∀ {a : F} {p}, Scalar.toRat? a = some p → ∃ z : Int, |p - z| ≤ 1 / 2 ∧
    Scalar.toRat? (Scalar.fractionality a) = some |p - z|
  add_le_add_self : ∀ {a t : F}, a ≤ a → Scalar.isFinite t = true → a + t ≤ a + t
  sub_le_self : ∀ {a t : F}, a ≤ a → Scalar.isFinite t = true → ¬ t < 0 → a - t ≤ a

/-- A finite value that passes the test for whole values is within the tolerance of a whole
    number. -/
theorem Scalar.exists_int_of_fractionality_le {F : Type} [Extended F] [Scalar.Measured F]
    [Scalar.Faithful F] {a t : F} {r : Rat} (ha : Scalar.isFinite a = true)
    (ht : Scalar.toRat? t = some r) (h : ¬ t < Scalar.fractionality a) :
    ∃ p z, Scalar.toRat? a = some p ∧ |p - (z : Int)| ≤ r := by
  obtain ⟨p, hp⟩ := Scalar.Faithful.isFinite_iff.1 ha
  obtain ⟨z, -, hfractionality⟩ := Scalar.Measured.fractionality_eq hp
  rw [Scalar.Faithful.lt_iff ht hfractionality, not_lt] at h
  exact ⟨p, z, hp, h⟩

section

variable {F : Type} [Extended F] [Scalar.Measured F] [Scalar.Faithful F] {a t : F}

theorem Scalar.fractionality_number (h : Scalar.isFinite a = true) :
    Scalar.fractionality a ≤ Scalar.fractionality a := by
  obtain ⟨p, hp⟩ := Scalar.Faithful.isFinite_iff.1 h
  obtain ⟨z, -, hz⟩ := Scalar.Measured.fractionality_eq hp
  exact (Scalar.Faithful.le_iff hz hz).2 le_rfl

/-- The two tests for a value that is not whole agree on finite values. -/
theorem Scalar.fractionality_le_iff [Scalar.Ordered F] (h : Scalar.isFinite a = true)
    (ht : t ≤ t) : Scalar.fractionality a ≤ t ↔ ¬ t < Scalar.fractionality a :=
  (Scalar.Ordered.not_lt ht (Scalar.fractionality_number h)).symm

end

/-! ## Exact scalars -/

namespace Exact

theorem abs_fin (q : Rat) : Exact.abs (fin q) = fin |q| := by
  rcases le_or_gt 0 q with h | h
  · rw [abs_of_nonneg h]
    exact congrArg fin (if_pos h)
  · rw [abs_of_neg h]
    exact congrArg fin (if_neg (not_le.2 h))

theorem abs_sub_round_le (p : Rat) : |p - Rational.round p| ≤ 1 / 2 := by
  have hhalf : ∀ q : Rat, |q - ((q + mkRat 1 2).floor : Int)| ≤ 1 / 2 := fun q => by
    have hlower : ((q + mkRat 1 2).floor : Rat) ≤ q + mkRat 1 2 := Int.floor_le _
    have hupper : q + mkRat 1 2 < (q + mkRat 1 2).floor + 1 := Int.lt_floor_add_one _
    have hrat : mkRat 1 2 = (1 / 2 : Rat) := by decide +kernel
    rw [hrat] at hlower hupper ⊢
    rw [abs_le]
    constructor <;> linarith
  unfold Rational.round
  split
  · exact hhalf p
  · have h := hhalf (-p)
    rwa [← abs_neg, neg_sub', neg_neg, ← Int.cast_neg] at h

theorem number_add {a : Exact} {t : Rat} (h : a ≠ nan) : a + fin t ≠ nan := by
  cases a <;> simp_all [add_def, Exact.add]

instance : Scalar.Measured Exact where
  fractionality_eq := by
    intro a p h
    refine ⟨Rational.round p, abs_sub_round_le p, ?_⟩
    rw [toRat?_eq_some.1 h, toRat?_eq_some]
    show Exact.abs (fin p - fin (Rational.round p : Rat)) = fin _
    rw [fin_sub_fin, abs_fin]
  add_le_add_self h ht := by
    obtain ⟨t, rfl⟩ := isFinite_iff.1 ht
    exact le_refl (number_add (le_self_iff.1 h))
  sub_le_self h ht hneg := by
    obtain ⟨t, rfl⟩ := isFinite_iff.1 ht
    rw [zero_eq, fin_lt_fin, not_lt] at hneg
    exact sub_le h hneg

end Exact

/-! ## Doubles -/

namespace Double

open Float.Model Float.Model.UnpackedFloat

variable {x : Float} {p : Rat}

/-- A multiple of a power of two is not rounded if it has few digits and is not too fine. -/
theorem rounded_grid {k : Nat} {e : Int} (hk : k < 2 ^ 53) (he : -1074 ≤ e) :
    rounded (k * 2 ^ e) = k * 2 ^ e := by
  rcases Nat.eq_zero_or_pos k with rfl | hpos
  · simp [rounded_zero]
  -- the last place of the product divides it
  have hy : (0 : Rat) < k * 2 ^ e := mul_pos (by exact_mod_cast hpos) (by positivity)
  have hlog : Int.log 2 ((k : Rat) * 2 ^ e) < 53 + e := by
    refine (Int.lt_zpow_iff_log_lt (by decide) hy).1 ?_
    rw [zpow_add₀ (by norm_num)]
    exact mul_lt_mul_of_pos_right (by exact_mod_cast hk) (by positivity)
  have hplace : lastPlace ((k : Rat) * 2 ^ e) ≤ e := by
    unfold lastPlace
    omega
  obtain ⟨d, hd⟩ := Int.eq_ofNat_of_zero_le (sub_nonneg.2 hplace)
  have hsplit : (k : Rat) * 2 ^ e / 2 ^ lastPlace ((k : Rat) * 2 ^ e) =
      ((k * 2 ^ d : Nat) : Int) := by
    rw [div_eq_iff (by positivity)]
    nth_rewrite 1 [show e = d + lastPlace ((k : Rat) * 2 ^ e) by omega]
    rw [zpow_add₀ (by norm_num), zpow_natCast]
    push_cast
    ring
  rw [rounded, hsplit, nearest_intCast, ← hsplit, div_mul_cancel₀ _ (by positivity)]

theorem roundedSigned_grid {j e : Int} (hj : |j| < 2 ^ 53) (he : -1074 ≤ e) :
    roundedSigned (j * 2 ^ e) = j * 2 ^ e := by
  obtain ⟨k, rfl | rfl⟩ := Int.eq_nat_or_neg j
  · have hk : k < 2 ^ 53 := by simpa using hj
    have hnot : ¬ ((k : Int) : Rat) * 2 ^ e < 0 := not_lt.2 (by positivity)
    rw [roundedSigned, if_neg hnot]
    exact_mod_cast rounded_grid hk he
  · have hk : k < 2 ^ 53 := by simpa using hj
    have hneg : ((-(k : Int) : Int) : Rat) * 2 ^ e = -(k * 2 ^ e) := by
      push_cast
      exact neg_mul _ _
    rw [roundedSigned, hneg, neg_neg]
    split
    · rw [rounded_grid hk he]
    · have hnonneg : (0 : Rat) ≤ k * 2 ^ e := by positivity
      have hzero : (k : Rat) * 2 ^ e = 0 := by linarith
      rw [hzero, neg_zero, rounded_zero]

/-- A multiple of a power of two is a double if it has few digits, is not too fine and is not too
    large. -/
theorem approximate_grid {j e : Int} (hj : |j| < 2 ^ 53) (he : -1074 ≤ e)
    (hsmall : |(j : Rat) * 2 ^ e| < huge) : approximate (.fin (j * 2 ^ e)) = .fin (j * 2 ^ e) := by
  obtain ⟨hlower, hupper⟩ := abs_lt.1 hsmall
  rw [approximate, roundedSigned_grid hj he, clip, if_neg (not_le.2 hupper),
    if_neg (not_le.2 hlower)]

/-- Rounding goes to a whole number at most a half away. -/
theorem exists_toRat?_round (h : toRat? x = some p) :
    ∃ z : Int, |p - z| ≤ 1 / 2 ∧ toRat? (Double.round x) = some (z : Rat) := by
  rcases toWhole_spec (fun _ rest unit => decide (unit ≤ 2 * rest)) h with
    ⟨heq, z, rfl⟩ | ⟨s, negative, m, k, -, rfl, heq⟩
  · exact ⟨z, by simp, by rw [Double.round, heq, h]⟩
  · refine ⟨_, ?_, heq⟩
    simp only [decide_eq_true_eq]
    have hunit : (0 : Rat) < (2 ^ k : Nat) := by positivity
    have hm : (m : Rat) = (2 ^ k : Nat) * (m / 2 ^ k : Nat) + (m % 2 ^ k : Nat) := by
      exact_mod_cast (Nat.div_add_mod m (2 ^ k)).symm
    have hmod : ((m % 2 ^ k : Nat) : Rat) < (2 ^ k : Nat) := by
      exact_mod_cast Nat.mod_lt m (Nat.two_pow_pos k)
    -- a magnitude is moved by at most a half
    have hnear : |(m : Rat) / (2 ^ k : Nat) -
        (if 2 ^ k ≤ 2 * (m % 2 ^ k) then m / 2 ^ k + 1 else m / 2 ^ k : Nat)| ≤ 1 / 2 := by
      rw [abs_le, sub_le_iff_le_add, div_le_iff₀ hunit, le_sub_iff_add_le, le_div_iff₀ hunit]
      split
      · rename_i hup
        have hup : ((2 ^ k : Nat) : Rat) ≤ 2 * (m % 2 ^ k : Nat) := by exact_mod_cast hup
        push_cast at *
        constructor <;> nlinarith
      · rename_i hdown
        have hdown : 2 * ((m % 2 ^ k : Nat) : Rat) < (2 ^ k : Nat) := by
          exact_mod_cast Nat.lt_of_not_le hdown
        push_cast at *
        constructor <;> nlinarith
    cases s
    · rw [← abs_neg]
      simp only [Sign.apply, Int.cast_neg, Int.cast_natCast]
      rwa [neg_div, neg_sub_neg, neg_sub]
    · exact hnear

theorem unpack_abs (x : Float) : (Float.abs x).toModel.unpack = x.toModel.unpack.abs := by
  have hnormal : Normal x.toModel.unpack.abs := by
    have hx := normal_unpack x
    generalize x.toModel.unpack = u at hx ⊢
    cases u <;> exact hx
  exact unpack_pack hnormal

theorem exact_abs (x : Float) : exact (Float.abs x) = Exact.abs (exact x) := by
  unfold exact
  rw [unpack_abs]
  generalize x.toModel.unpack = u
  cases u with
  | notANumber => rfl
  | infinity s => cases s <;> rfl
  | zero => exact (Exact.abs_fin 0).symm ▸ congrArg Exact.fin abs_zero.symm
  | finite s m e hm =>
    have hnonneg : (0 : Rat) ≤ m * 2 ^ e := by positivity
    show Exact.fin (((m : Int) : Rat) * 2 ^ e) = Exact.abs (.fin (s.apply m * 2 ^ e))
    rw [Exact.abs_fin, apply_mul_zpow]
    cases s
    · rw [signed, abs_neg, abs_of_nonneg hnonneg, Int.cast_natCast]
    · rw [signed, abs_of_nonneg hnonneg, Int.cast_natCast]

theorem half_lt_huge : 1 / 2 < huge := by
  have hone : (1 : Rat) ≤ huge := one_le_zpow₀ (by norm_num) (by norm_num)
  linarith

/-- The distance from the nearest whole number needs no rounding: it is a multiple of the last place,
    and not larger than the value itself. -/
theorem exists_toRat?_fractionality (h : toRat? x = some p) :
    ∃ z : Int, |p - z| ≤ 1 / 2 ∧ toRat? (Float.abs (x - Double.round x)) = some |p - z| := by
  obtain ⟨z, hz, hround⟩ := exists_toRat?_round h
  refine ⟨z, hz, ?_⟩
  have hle : |p - z| ≤ |p| := by
    rcases eq_or_ne z 0 with rfl | hne
    · simp
    · have hone : (1 : Rat) ≤ |(z : Rat)| := by exact_mod_cast Int.one_le_abs hne
      have htriangle := abs_sub_abs_le_abs_sub (z : Rat) p
      rw [abs_sub_comm] at htriangle
      linarith
  have hsmall : |p - z| < huge := hz.trans_lt half_lt_huge
  have hgrid : approximate (.fin (p - z)) = .fin (p - z) := by
    have hnormal := normal_unpack x
    have hvalue : value x.toModel.unpack = some p := (toRat?_eq x).symm.trans h
    generalize x.toModel.unpack = u at hnormal hvalue
    cases u with
    | infinity | notANumber => cases hvalue
    | zero =>
      cases hvalue
      have hzero : (0 : Rat) - z = 0 := abs_nonpos_iff.1 (by simpa using hle)
      rw [hzero, approximate_zero]
    | finite s m e hm =>
      cases hvalue
      rcases le_or_gt 0 e with he | he
      · -- the value is whole, and so is the difference, which is at most a half
        obtain ⟨k, rfl⟩ := Int.eq_ofNat_of_zero_le he
        have hwhole : (s.apply m : Rat) * 2 ^ (k : Int) - z =
            ((s.apply m * 2 ^ k - z : Int) : Rat) := by
          push_cast
          rfl
        rw [hwhole] at hz ⊢
        have hlt : |s.apply m * 2 ^ k - z| < 1 := by
          have hlt : |((s.apply m * 2 ^ k - z : Int) : Rat)| < 1 := hz.trans_lt (by norm_num)
          exact_mod_cast hlt
        rw [Int.abs_lt_one_iff.1 hlt]
        exact_mod_cast approximate_zero
      · obtain ⟨k, hk⟩ := Int.eq_ofNat_of_zero_le (show 0 ≤ -e by omega)
        have hmultiple : (s.apply m : Rat) * 2 ^ e - z =
            ((s.apply m - z * 2 ^ k : Int) : Rat) * 2 ^ e := by
          have hunit : (2 : Rat) ^ k * 2 ^ e = 1 := by
            rw [← zpow_natCast, ← hk, ← zpow_add₀ (by norm_num), neg_add_cancel, zpow_zero]
          push_cast
          rw [sub_mul, mul_assoc (z : Rat), hunit, mul_one]
        rw [hmultiple] at hle hsmall ⊢
        refine approximate_grid ?_ hnormal.le_exponent hsmall
        have hdigits : |s.apply m - z * 2 ^ k| ≤ |s.apply m| := by
          rw [abs_mul, abs_mul] at hle
          exact_mod_cast le_of_mul_le_mul_right hle (abs_pos.2 (by positivity))
        refine hdigits.trans_lt ?_
        have hlt : (m : Int) < 2 ^ 53 := by exact_mod_cast hnormal.lt
        cases s
        · simpa [Sign.apply] using hlt
        · simpa [Sign.apply] using hlt
  rw [toRat?_eq_some_iff] at h hround ⊢
  rw [exact_abs, exact_sub, h, hround, Exact.fin_sub_fin, hgrid, Exact.abs_fin]

theorem exactOf_neg (u : UnpackedFloat) : exactOf u.neg = -exactOf u := by
  cases u with
  | notANumber => rfl
  | infinity s => cases s <;> rfl
  | zero => exact congrArg Exact.fin neg_zero.symm
  | finite s m e hm =>
    simp only [UnpackedFloat.neg, exactOf, Exact.neg_fin, apply_mul_zpow]
    cases s
    · exact congrArg Exact.fin (neg_neg _).symm
    · rfl

theorem add_eq_sub_neg (u v : UnpackedFloat) : UnpackedFloat.add Format.binary64 u v =
    UnpackedFloat.sub Format.binary64 u v.neg := by
  have hneg : ∀ s : Sign, - -s = s := fun s => by cases s <;> rfl
  cases u with
  | notANumber => rfl
  | infinity s =>
    cases v with
    | infinity s' => simp only [UnpackedFloat.add, UnpackedFloat.neg, UnpackedFloat.sub, hneg]
    | _ => rfl
  | zero s =>
    cases v with
    | notANumber => rfl
    | _ => simp only [UnpackedFloat.add, UnpackedFloat.neg, UnpackedFloat.sub, hneg]
  | finite s m e hm =>
    cases v with
    | notANumber | zero => rfl
    | infinity s' => simp only [UnpackedFloat.add, UnpackedFloat.neg, UnpackedFloat.sub, hneg]
    | finite s' m' e' hm' =>
      have happly : ∀ n : Nat, (-s').apply n = -s'.apply n := fun n => by
        cases s'
        · exact (neg_neg _).symm
        · rfl
      simp only [UnpackedFloat.add, UnpackedFloat.neg, UnpackedFloat.sub, happly, sub_neg_eq_add]

/-- A sum of doubles is the exact sum, rounded. -/
theorem exact_add (a b : Float) : exact (a + b) = approximate (exact a + exact b) := by
  have hnormal : Normal b.toModel.unpack.neg := by
    have hb := normal_unpack b
    generalize b.toModel.unpack = u at hb ⊢
    cases u <;> exact hb
  have hneg : ∀ c : Exact, - -c = c := fun c => by
    cases c with
    | fin q => exact congrArg Exact.fin (neg_neg q)
    | _ => rfl
  have hsum := exactOf_sub (normal_unpack a) hnormal
  rw [← add_eq_sub_neg, exactOf_neg] at hsum
  refine hsum.trans (congrArg approximate ?_)
  show Exact.add (exact a) (Exact.neg (-exact b)) = _
  exact congrArg (Exact.add _) (hneg _)

instance : Scalar.Measured Float where
  fractionality_eq := exists_toRat?_fractionality
  add_le_add_self := by
    intro a t h ht
    obtain ⟨r, hr⟩ := isFinite_iff_exact.1 ht
    rw [le_iff_exact, Exact.le_self_iff] at h
    rw [le_iff_exact, exact_add, hr]
    exact approximate_mono (Exact.le_refl (Exact.number_add h))
  sub_le_self := by
    intro a t h ht hneg
    obtain ⟨r, hr⟩ := isFinite_iff_exact.1 ht
    have hzero := toRat?_eq_some_iff.1 (Scalar.Faithful.zero_eq (F := Float))
    rw [lt_iff_exact, hr, hzero, Exact.fin_lt_fin, not_lt] at hneg
    have hself : approximate (exact a) = exact a := approximate_exactOf (normal_unpack a)
    rw [le_iff_exact, exact_sub, hr, ← hself, hself]
    nth_rewrite 2 [← hself]
    exact approximate_mono (Exact.sub_le (le_iff_exact.1 h) hneg)

end Double

end Milp
