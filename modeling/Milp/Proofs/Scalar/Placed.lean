/-
  The places of scalars among the rationals and the infinities.

  Two values that are no doubles can still be compared with doubles: a whole number lies between
  the ends of an interval or not, also where it is too large to be a double itself.

  * `Scalar.exact`: the place of a scalar.
  * `Scalar.Placed`: comparing scalars is comparing places, and a value that is made larger, or a
    difference, is on the right side; exact scalars and doubles do this.
  * `Scalar.exact_max_le`, `Scalar.le_exact_min`: the places of the larger and the smaller value.
  * `Double.exists_int_toRat?`: every finite double is a multiple of the smallest one.
-/
import Milp.Proofs.Scalar.Measured

namespace Milp

namespace Scalar

variable {F : Type} [Extended F]

/-- The rational or the infinity that a scalar is. -/
def exact (a : F) : Exact :=
  match toRat? a with
  | some q => .fin q
  | none => if a ≤ a then if 0 < a then .posInf else .negInf else .nan

/-- Scalars are compared by their places, adding a tolerance makes no number smaller, and what is
    larger by any amount has a positive difference. -/
class Placed (F : Type) [Extended F] : Prop where
  lt_iff : ∀ {a b : F}, a < b ↔ exact a < exact b
  le_iff : ∀ {a b : F}, a ≤ b ↔ exact a ≤ exact b
  le_add_self : ∀ {a t : F}, a ≤ a → isFinite t = true → ¬ t < 0 → a ≤ a + t
  sub_pos : ∀ {a b : F} {p q}, toRat? a = some p → toRat? b = some q → p < q → 0 < b - a
  /-- The tolerance of the test for empty intervals. -/
  margin : isFinite (1e-9 : F) = true ∧ ¬ (1e-9 : F) < 0

theorem exact_of_toRat? {a : F} {q : Rat} (h : toRat? a = some q) : exact a = .fin q := by
  rw [exact, h]

theorem toRat?_of_exact {a : F} {v : Rat} (h : exact a = .fin v) : toRat? a = some v := by
  unfold exact at h
  split at h
  · rename_i q hq
    rw [hq, Exact.fin.inj h]
  · split at h
    · split at h <;> cases h
    · cases h

variable [Placed F] {a b : F} {x : Exact}

theorem lt_of_lt_of_le {c : F} (h : a < b) (h' : b ≤ c) : a < c :=
  Placed.lt_iff.2 (Exact.lt_of_lt_of_le (Placed.lt_iff.1 h) (Placed.le_iff.1 h'))

theorem lt_of_le_of_lt {c : F} (h : a ≤ b) (h' : b < c) : a < c :=
  Placed.lt_iff.2 (Exact.lt_of_le_of_lt (Placed.le_iff.1 h) (Placed.lt_iff.1 h'))

theorem not_lt_of_le (h : a ≤ b) : ¬ b < a := fun h' =>
  Exact.not_lt_of_le (Placed.le_iff.1 h) (Placed.lt_iff.1 h')

/-- What lies between finite values is finite. -/
theorem isFinite_of_between [Faithful F] {c : F} (h : a ≤ b) (h' : b ≤ c)
    (ha : isFinite a = true) (hc : isFinite c = true) : isFinite b = true := by
  obtain ⟨p, hp⟩ := Faithful.isFinite_iff.1 ha
  obtain ⟨q, hq⟩ := Faithful.isFinite_iff.1 hc
  rw [Placed.le_iff, exact_of_toRat? hp] at h
  rw [Placed.le_iff, exact_of_toRat? hq] at h'
  obtain ⟨r, hr⟩ := Exact.eq_fin_of_between h h'
  exact Faithful.isFinite_iff.2 ⟨r, toRat?_of_exact hr⟩

variable [Ordered F]

/-- What is above the larger of two numbers is above both. -/
theorem exact_max_le (ha : a ≤ a) (hb : b ≤ b) :
    exact (Scalar.max a b) ≤ x ↔ exact a ≤ x ∧ exact b ≤ x := by
  constructor
  · exact fun h => ⟨Exact.le_trans (Placed.le_iff.1 (le_max_left ha)) h,
      Exact.le_trans (Placed.le_iff.1 (le_max_right hb)) h⟩
  · rintro ⟨hleft, hright⟩
    rcases max_choice a b with h | h <;> rw [h]
    · exact hleft
    · exact hright

/-- What is below the smaller of two numbers is below both. -/
theorem le_exact_min (ha : a ≤ a) (hb : b ≤ b) :
    x ≤ exact (Scalar.min a b) ↔ x ≤ exact a ∧ x ≤ exact b := by
  constructor
  · exact fun h => ⟨Exact.le_trans h (Placed.le_iff.1 (min_le_left ha)),
      Exact.le_trans h (Placed.le_iff.1 (min_le_right hb))⟩
  · rintro ⟨hleft, hright⟩
    rcases min_choice a b with h | h <;> rw [h]
    · exact hleft
    · exact hright

end Scalar

/-! ## Exact scalars -/

namespace Exact

/-- An exact scalar is its own place. -/
theorem exact_eq (a : Exact) : Scalar.exact a = a := by
  cases a <;> rfl

instance : Scalar.Placed Exact where
  lt_iff := by
    intro a b
    rw [exact_eq, exact_eq]
  le_iff := by
    intro a b
    rw [exact_eq, exact_eq]
  le_add_self h ht hneg := by
    obtain ⟨t, rfl⟩ := isFinite_iff.1 ht
    rw [zero_eq, fin_lt_fin, not_lt] at hneg
    exact le_add h hneg
  sub_pos ha hb hlt := by
    rw [toRat?_eq_some.1 ha, toRat?_eq_some.1 hb, zero_eq, fin_sub_fin, fin_lt_fin]
    exact sub_pos.2 hlt
  margin := by decide +kernel

end Exact

/-! ## Doubles -/

namespace Double

open Float.Model Float.Model.UnpackedFloat

variable {x : Float} {p : Rat}

theorem exact_eq (x : Float) : Scalar.exact x = exact x := by
  have hle : x ≤ x ↔ exact x ≠ .nan := by rw [le_iff_exact, Exact.le_self_iff]
  have hlt : ∀ {z : Float}, Scalar.toRat? z = some 0 → (z < x ↔ .fin 0 < exact x) := fun hz => by
    rw [lt_iff_exact, toRat?_eq_some_iff.1 hz]
  unfold Scalar.exact
  rcases hx : Scalar.toRat? x with _ | q
  · simp only [hle, hlt Scalar.Faithful.zero_eq]
    rcases hexact : exact x with _ | _ | q | _
    · simp
    · simp [Exact.lt_def, Exact.below]
    · cases hx.symm.trans (toRat?_eq_some_iff.2 hexact)
    · simp [Exact.lt_def, Exact.below]
  · exact (toRat?_eq_some_iff.1 hx).symm

/-- Every finite double is a multiple of the smallest one. -/
theorem exists_int_toRat? (h : toRat? x = some p) : ∃ j : Int, p = j * 2 ^ (-1074 : Int) := by
  have hnormal := normal_unpack x
  have hvalue : value x.toModel.unpack = some p := (toRat?_eq x).symm.trans h
  generalize x.toModel.unpack = u at hnormal hvalue
  cases u with
  | infinity | notANumber => cases hvalue
  | zero =>
    cases hvalue
    exact ⟨0, by simp⟩
  | finite s m e hm =>
    cases hvalue
    obtain ⟨k, hk⟩ := Int.eq_ofNat_of_zero_le (show 0 ≤ e + 1074 from by
      have hle := hnormal.le_exponent
      omega)
    refine ⟨s.apply m * 2 ^ k, ?_⟩
    rw [show e = k + -1074 by omega, zpow_add₀ (by norm_num), zpow_natCast, ← mul_assoc,
      Int.cast_mul, Int.cast_pow, Int.cast_ofNat]

/-- A positive difference of doubles is at least the smallest double, and so it stays positive when
    it is rounded. -/
theorem zero_lt_exact_sub {y : Float} {q : Rat} (hx : toRat? x = some p) (hy : toRat? y = some q)
    (h : p < q) : .fin 0 < exact (y - x) := by
  obtain ⟨j, rfl⟩ := exists_int_toRat? hx
  obtain ⟨k, rfl⟩ := exists_int_toRat? hy
  have hunit : (0 : Rat) < 2 ^ (-1074 : Int) := by positivity
  have hjk : j < k := by
    have hcast : (j : Rat) < k := lt_of_mul_lt_mul_right h hunit.le
    exact_mod_cast hcast
  have hone : (2 : Rat) ^ (-1074 : Int) ≤ k * 2 ^ (-1074 : Int) - j * 2 ^ (-1074 : Int) := by
    rw [← sub_mul]
    refine le_mul_of_one_le_left hunit.le ?_
    exact_mod_cast (show 1 ≤ k - j by omega)
  have hsmallest : approximate (.fin (2 ^ (-1074 : Int))) = .fin (2 ^ (-1074 : Int)) := by
    have hgrid := approximate_grid (j := 1) (e := -1074) (by norm_num) (by norm_num) ?_
    · simpa using hgrid
    · have hle : (2 : Rat) ^ (-1074 : Int) ≤ 1 := zpow_le_one_of_nonpos₀ (by norm_num) (by norm_num)
      rw [Int.cast_one, one_mul, abs_of_pos hunit]
      exact hle.trans_lt (one_lt_zpow₀ (by norm_num) (by norm_num))
  have hmono := approximate_mono (Exact.fin_le_fin.2 hone)
  rw [hsmallest, ← Exact.fin_sub_fin, ← toRat?_eq_some_iff.1 hx, ← toRat?_eq_some_iff.1 hy,
    ← exact_sub] at hmono
  exact Exact.lt_of_lt_of_le (Exact.fin_lt_fin.2 hunit) hmono

instance : Scalar.Placed Float where
  lt_iff := by
    intro a b
    rw [exact_eq, exact_eq, lt_iff_exact]
  le_iff := by
    intro a b
    rw [exact_eq, exact_eq, le_iff_exact]
  le_add_self := by
    intro a t h ht hneg
    obtain ⟨r, hr⟩ := isFinite_iff_exact.1 ht
    have hzero := toRat?_eq_some_iff.1 (Scalar.Faithful.zero_eq (F := Float))
    rw [lt_iff_exact, hr, hzero, Exact.fin_lt_fin, not_lt] at hneg
    have hself : approximate (exact a) = exact a := approximate_exactOf (normal_unpack a)
    have hmono := approximate_mono (Exact.le_add (le_iff_exact.1 h) hneg)
    rw [hself, ← hr, ← exact_add] at hmono
    exact le_iff_exact.2 hmono
  sub_pos := by
    intro a b p q ha hb h
    rw [lt_iff_exact, toRat?_eq_some_iff.1 (Scalar.Faithful.zero_eq (F := Float))]
    exact zero_lt_exact_sub ha hb h
  margin := by decide +kernel

end Double

end Milp
