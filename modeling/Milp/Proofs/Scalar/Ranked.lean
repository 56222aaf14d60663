/-
  The total order of scalars, and their infinities.

  A frontier compares bounds in the total order, in which even a value that is no number has its
  place.  Among numbers that order is the usual one, apart from the two zeros.

  * `Scalar.Ranked`: what a scalar has to get right for this; exact scalars and doubles do.
  * `Scalar.min_infinity`: the smaller one of infinity and a finite value.
  * `Sense.normalize_normalize`: turning to minimisation twice changes nothing.
  * `Double.rank_eq`, `Double.place_lt_of_lt`: the total order of doubles goes by their bits, and
    these by exponent and mantissa.
-/
import Milp.Proofs.Exploration
import Milp.Proofs.Scalar.Signed

namespace Milp

/-- The total order is one and agrees with `≤` on numbers, `-∞` is below all finite values, and
    negation is undone by negation and keeps values finite. -/
class Scalar.Ranked (F : Type) [Extended F] : Prop extends
    Std.TransCmp (Scalar.order : F → F → Ordering) where
  le_of_order : ∀ {a b : F}, a ≤ a → b ≤ b → (Scalar.order a b).isLE = true → a ≤ b
  neg_infinity_lt : ∀ {a : F}, Scalar.isFinite a = true → -Extended.infinity < a
  neg_neg : ∀ a : F, - -a = a
  isFinite_neg : ∀ {a : F}, Scalar.isFinite a = true → Scalar.isFinite (-a) = true

theorem Sense.normalize_normalize {F : Type} [Extended F] [Scalar.Ranked F] (s : Sense) (a : F) :
    s.normalize (s.normalize a) = a := by
  cases s with
  | minimize => rfl
  | maximize => exact Scalar.Ranked.neg_neg a

theorem Sense.isFinite_normalize {F : Type} [Extended F] [Scalar.Ranked F] (s : Sense) {a : F}
    (h : Scalar.isFinite a = true) : Scalar.isFinite (s.normalize a) = true := by
  cases s with
  | minimize => exact h
  | maximize => exact Scalar.Ranked.isFinite_neg h

section
variable {F : Type} [Extended F] [Scalar.Ordered F] [Scalar.Signed F] [Scalar.Ranked F] {a : F}

theorem Scalar.lt_infinity (h : Scalar.isFinite a = true) : a < Extended.infinity := by
  by_contra hnot
  have hle : -a ≤ -Extended.infinity := Signed.neg_le_neg_iff.2
    ((Ordered.not_lt (Ordered.le_of_isFinite h) Ordered.infinity_le).1 hnot)
  have hlt := Ranked.neg_infinity_lt (Ranked.isFinite_neg h)
  exact (Ordered.not_lt Ordered.neg_infinity_le (Ordered.refl_of_le hle).1).2 hle hlt

/-- Infinity is larger than any finite value. -/
theorem Scalar.min_infinity (h : Scalar.isFinite a = true) :
    Scalar.min Extended.infinity a = a := by
  have hnumber : ∀ {b : F}, b ≤ b → ¬ Scalar.isNaN b = true := fun hb hnan =>
    Ordered.isNaN_iff.1 hnan hb
  rw [Scalar.min, if_neg (hnumber Ordered.infinity_le),
    if_neg (hnumber (Ordered.le_of_isFinite h)), if_pos (lt_infinity h)]

end

/-! ## Exact scalars -/

namespace Exact

theorem order_eq_compare (p q : Rat) : Rational.order p q = compare p q := by
  unfold Rational.order
  rcases lt_trichotomy p q with hlt | rfl | hgt
  · rw [if_pos hlt, compare_lt_iff_lt.2 hlt]
  · rw [if_neg (lt_irrefl p), if_neg (lt_irrefl p), compare_eq_iff_eq.2 rfl]
  · rw [if_neg hgt.asymm, if_pos hgt, compare_gt_iff_gt.2 hgt]

/-- The total order goes by the kind of scalar first, and then by the rational. -/
theorem order_eq (a b : Exact) :
    Scalar.order a b = compareLex (compareOn order.place) (compareOn rat) a b := by
  cases a <;> cases b <;> first | rfl | exact order_eq_compare _ _

instance : Std.TransCmp (Scalar.order : Exact → Exact → Ordering) := by
  rw [show (Scalar.order : Exact → Exact → Ordering) = _ from funext₂ order_eq]
  infer_instance

theorem order_of_lt {a b : Exact} (h : b < a) : Scalar.order a b = .gt := by
  cases a <;> cases b <;> first | rfl | cases h | skip
  exact (order_eq_compare _ _).trans (compare_gt_iff_gt.2 (fin_lt_fin.1 h))

instance : Scalar.Ranked Exact where
  le_of_order ha hb h := by
    refine le_of_not_lt (ne_nan_of_le_left ha) (ne_nan_of_le_left hb) fun hlt => ?_
    rw [order_of_lt hlt] at h
    cases h
  neg_infinity_lt h := by
    obtain ⟨q, rfl⟩ := isFinite_iff.1 h
    rfl
  neg_neg := Exact.neg_neg
  isFinite_neg h := (Exact.isFinite_neg _).trans h

end Exact

/-! ## Doubles -/

namespace Double

open Float.Model Float.Model.UnpackedFloat

/-- Places of negative values come before those of positive values, in the other direction. -/
def signedPlace : Sign → Int → Int
  | .positive, n => n
  | .negative, n => -1 - n

/-- The place of an unpacked number in the total order. -/
def place : UnpackedFloat → Int
  | .infinity s => signedPlace s (2047 * hidden)
  | .notANumber => 0
  | .zero s => signedPlace s 0
  | .finite s m e _ => signedPlace s ((e + 1074) * hidden + m)

/-- The place of a number is read off its bits. -/
theorem rank_eq {x : Float} (h : Scalar.isNaN x = false) : rank x = place x.toModel.unpack := by
  change (UnpackedFloat.unpack Format.binary64 x.toModel.toBits.toBitVec).isNaN = false at h
  show _ = place (UnpackedFloat.unpack Format.binary64 x.toModel.toBits.toBitVec)
  unfold rank
  rw [show x.toBits.toNat = x.toModel.toBits.toBitVec.toNat from rfl]
  rw [unpack_eq] at h ⊢
  have hlt := x.toModel.toBits.toBitVec.isLt
  generalize x.toModel.toBits.toBitVec.toNat = bits at h hlt ⊢
  have hhidden : hidden = 2 ^ 52 := rfl
  have hsignBit : signBit = 2 ^ 63 := rfl
  -- the bits below the sign are the place of the magnitude
  have hsigned : ∀ {n : Int}, (bits : Int) % 2 ^ 63 = n →
      (if bits < signBit then (bits : Int) else (signBit : Int) - 1 - (bits : Int)) =
        signedPlace (signOf bits) n := by
    rintro n rfl
    rw [hsignBit, signOf, hsignBit]
    split
    · rw [if_neg (by omega), signedPlace]
      omega
    · rw [if_pos (by omega), signedPlace]
      omega
  simp only at h ⊢
  generalize (if bits < signBit then (bits : Int) else (signBit : Int) - 1 - (bits : Int)) = r
    at hsigned ⊢
  split at h
  · split at h
    · rename_i hbiased hfraction
      rw [if_pos hbiased, if_pos hfraction]
      rw [hhidden] at hbiased hfraction
      refine hsigned ?_
      rw [hhidden]
      omega
    · cases h
  · rename_i hfinite
    rw [if_neg hfinite]
    split
    · rename_i hbiased
      split
      · rename_i hfraction
        rw [hhidden] at hbiased hfraction
        exact hsigned (by omega)
      · rw [hhidden] at hbiased
        refine hsigned ?_
        rw [hhidden]
        omega
    · refine hsigned ?_
      rw [hhidden]
      omega

/-- Finite values are between zero and infinity. -/
theorem Canonical.place_mem {m : Nat} {e : Int} (h : Canonical m e) (hm : 0 < m) :
    0 < (e + 1074) * hidden + m ∧ (e + 1074) * hidden + m < 2047 * hidden := by
  obtain ⟨hlt, hle, hge, -⟩ := h
  rw [show hidden = 2 ^ 52 from rfl]
  omega

/-- Finite values of one sign are in the order of exponents and mantissas. -/
theorem Canonical.place_lt {m m' : Nat} {e e' : Int} (h : Canonical m e) (h' : Canonical m' e')
    (hlt : (compare e e').then (compare m m') = .lt) :
    (e + 1074) * hidden + m < (e' + 1074) * hidden + m' := by
  have hm := h.lt
  have he := h.le_exponent
  have hnormal := h'.normal
  rw [show hidden = 2 ^ 52 from rfl]
  rcases Ordering.then_eq_lt.1 hlt with hlt | ⟨heq, hlt⟩
  · have := compare_lt_iff_lt.1 hlt
    omega
  · have := compare_eq_iff_eq.1 heq
    have := compare_lt_iff_lt.1 hlt
    omega

/-- A smaller number has an earlier place. -/
theorem place_lt_of_lt {u v : UnpackedFloat} (hu : Normal u) (hv : Normal v)
    (h : u.lt v = true) : place u < place v := by
  have hcompare : u.compare v = some .lt := by simpa [UnpackedFloat.lt] using h
  cases u with
  | notANumber => cases hcompare
  | infinity s =>
    cases v with
    | notANumber => cases s <;> cases hcompare
    | infinity s' => cases s <;> cases s' <;> revert hcompare <;> decide
    | zero s' => cases s <;> cases s' <;> revert hcompare <;> decide
    | finite s' m e hm =>
      have hmem := Canonical.place_mem hv hm
      cases s with
      | negative => cases s' <;> simp only [place, signedPlace] <;> omega
      | positive => cases hcompare
  | zero s =>
    cases v with
    | notANumber => cases s <;> cases hcompare
    | infinity s' => cases s <;> cases s' <;> revert hcompare <;> decide
    | zero s' => cases hcompare
    | finite s' m e hm =>
      have hmem := Canonical.place_mem hv hm
      cases s' with
      | negative => cases hcompare
      | positive => cases s <;> simp only [place, signedPlace] <;> omega
  | finite s m e hm =>
    have hmem := Canonical.place_mem hu hm
    cases v with
    | notANumber => cases s <;> cases hcompare
    | infinity s' =>
      cases s' with
      | negative => cases s <;> cases hcompare
      | positive => cases s <;> simp only [place, signedPlace] <;> omega
    | zero s' =>
      cases s with
      | negative => cases s' <;> simp only [place, signedPlace] <;> omega
      | positive => cases hcompare
    | finite s' m' e' hm' =>
      have hmem' := Canonical.place_mem hv hm'
      cases s with
      | negative =>
        cases s' with
        | negative =>
          have hlt : (compare e' e).then (compare m' m) = .lt := by
            rw [← Int.compare_swap, ← Nat.compare_swap, ← Ordering.swap_then]
            exact Option.some.inj hcompare
          have := Canonical.place_lt hv hu hlt
          simp only [place, signedPlace]
          omega
        | positive =>
          simp only [place, signedPlace]
          omega
      | positive =>
        cases s' with
        | negative => cases hcompare
        | positive => exact Canonical.place_lt hu hv (Option.some.inj hcompare)

instance : Scalar.Ranked Float where
  le_of_order := by
    intro a b ha hb h
    have hnumber : ∀ {x : Float}, x ≤ x → Scalar.isNaN x = false := fun hx =>
      Bool.eq_false_iff.2 fun hnan => Scalar.Ordered.isNaN_iff.1 hnan hx
    by_contra hle
    have hlt : b < a := by
      by_contra hnot
      exact hle ((Scalar.Ordered.not_lt hb ha).1 hnot)
    have hplace : place b.toModel.unpack < place a.toModel.unpack :=
      place_lt_of_lt (normal_unpack b) (normal_unpack a) (of_decide_eq_true hlt)
    rw [← rank_eq (hnumber ha), ← rank_eq (hnumber hb)] at hplace
    have hgt : Scalar.order a b = .gt := compare_gt_iff_gt.2 hplace
    rw [hgt] at h
    cases h
  neg_infinity_lt h := by
    obtain ⟨q, hq⟩ := isFinite_iff_exact.1 h
    rw [lt_iff_exact, hq]
    exact (rfl : Exact.below .negInf (.fin q) = true)
  neg_neg a := by
    refine eq_of_unpack ?_
    rw [unpack_neg, unpack_neg]
    cases a.toModel.unpack with
    | notANumber => rfl
    | infinity s | zero s | finite s => cases s <;> rfl
  isFinite_neg h := by
    obtain ⟨q, hq⟩ := isFinite_iff_exact.1 h
    exact isFinite_iff_exact.2 ⟨-q, by rw [exact_neg, hq, Exact.neg_fin]⟩

end Double

end Milp
