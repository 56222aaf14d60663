/-
  Signs: values turned around, and the two zeros.

  A search prints no negative zero.  A double that is only compared may have either sign if it is a
  zero, so what is printed compares as what was found.

  * `Scalar.Signed`: what a scalar has to get right for this; exact scalars and doubles do.
  * `Scalar.normalize_positiveZero_le`: printed values are in the order of those that were found.
-/
import Milp.Proofs.Scalar.Measured

namespace Milp

/-- Turning values around turns the order around, and the order does not tell the two zeros
    apart. -/
class Scalar.Signed (F : Type) [Extended F] : Prop where
  neg_le_neg_iff : ∀ {a b : F}, -a ≤ -b ↔ b ≤ a
  positiveZero_le : ∀ {a b : F}, a ≤ b → Scalar.positiveZero a ≤ Scalar.positiveZero b

/-- Values that are printed without a negative zero are in the same order, in either direction. -/
theorem Scalar.normalize_positiveZero_le {F : Type} [Extended F] [Scalar.Signed F] {s : Sense}
    {a b : F} (h : s.normalize a ≤ s.normalize b) :
    s.normalize (Scalar.positiveZero a) ≤ s.normalize (Scalar.positiveZero b) := by
  cases s with
  | minimize => exact Signed.positiveZero_le h
  | maximize => exact Signed.neg_le_neg_iff.2 (Signed.positiveZero_le (Signed.neg_le_neg_iff.1 h))

namespace Exact

theorem neg_le_neg_iff {a b : Exact} : -a ≤ -b ↔ b ≤ a := by
  by_cases h : (∃ p, a = fin p) ∧ ∃ q, b = fin q
  · obtain ⟨⟨p, rfl⟩, q, rfl⟩ := h
    simp
  · cases a <;> cases b <;> simp_all [le_def, below, same, neg_def, Exact.neg]

instance : Scalar.Signed Exact where
  neg_le_neg_iff := neg_le_neg_iff
  positiveZero_le h := by rwa [positiveZero_eq, positiveZero_eq]

end Exact

namespace Double

theorem unpack_neg (x : Float) : (-x).toModel.unpack = x.toModel.unpack.neg := by
  have hnormal : Normal x.toModel.unpack.neg := by
    have hx := normal_unpack x
    generalize x.toModel.unpack = u at hx ⊢
    cases u <;> exact hx
  exact unpack_pack hnormal

theorem exact_neg (x : Float) : exact (-x) = -exact x := by
  unfold exact
  rw [unpack_neg, exactOf_neg]

/-- A double that equals zero is one of the two zeros. -/
theorem exists_zero_of_beq {x : Float} (h : (x == 0) = true) : ∃ s, x.toModel.unpack = .zero s := by
  have hzero : (0 : Float).toModel.unpack = .zero .positive := rfl
  have hcompare : x.toModel.unpack.beq (0 : Float).toModel.unpack = true := h
  rw [hzero] at hcompare
  generalize x.toModel.unpack = u at hcompare ⊢
  cases u with
  | zero s => exact ⟨s, rfl⟩
  | infinity s | finite s => cases s <;> cases hcompare
  | notANumber => cases hcompare

theorem exact_eq_of_beq_zero {x : Float} (h : (x == 0) = true) : exact x = .fin 0 := by
  obtain ⟨s, hs⟩ := exists_zero_of_beq h
  rw [exact, hs]
  rfl

theorem exact_positiveZero (x : Float) : exact (Scalar.positiveZero x) = exact x := by
  unfold Scalar.positiveZero
  split
  · rename_i h
    rw [exact_eq_of_beq_zero h]
    exact toRat?_eq_some_iff.1 (Scalar.Faithful.zero_eq (F := Float))
  · rfl

instance : Scalar.Signed Float where
  neg_le_neg_iff := by
    intro a b
    rw [le_iff_exact, exact_neg, exact_neg, Exact.neg_le_neg_iff, ← le_iff_exact]
  positiveZero_le h := by
    rw [le_iff_exact, exact_positiveZero, exact_positiveZero]
    exact le_iff_exact.1 h

end Double

end Milp
