/-
  What phase 1 leaves in the artificial columns, and where it goes when they are driven out.

  Phase 1 accepts what is left in the artificial columns up to a tolerance.  Driving them out makes
  no ratio test: what was left in a column goes into every row, times the entry that the column has
  there afterwards, so a right-hand side can end far below minus the tolerance.  Right-hand sides
  are settled on the way, which shifts the columns by no more than the tolerance for round-off each
  time.

  * `Tableau.Shifted`: two tableaus say the same of vectors that are shifted against each other.
  * `run_shifted`, `driveOut_driven`: what a run and driving out come to.
  * `Tableau.Driven.level_eq`: the right-hand sides after driving out.
  * `Program.phase1_starts`: the right-hand sides that phase 2 starts with.
-/
import Milp.Proofs.Simplex.Canonical

namespace Milp

namespace Simplex

variable {m w first : Nat}

namespace Tableau

/-! ## Sums over the columns -/

section Sums

variable (T : Tableau Rat m w) (y z : Fin w → Rat)

theorem lhs_sub (i : Fin m) : T.lhs i (y - z) = T.lhs i y - T.lhs i z := by
  simp only [lhs, Pi.sub_apply, mul_sub, Finset.sum_sub_distrib]

theorem priceOf_sub : T.priceOf (y - z) = T.priceOf y - T.priceOf z := by
  simp only [priceOf, Pi.sub_apply, mul_sub, Finset.sum_sub_distrib]

/-- A row is its basic column and the columns that are not basic. -/
theorem lhs_eq_add {T : Tableau Rat m w} (hT : T.Canonical) (y : Fin w → Rat) (i : Fin m) :
    T.lhs i y = y (T.basic i) + ∑ j ∈ T.basisᶜ, T.cell i j * y j := by
  have hbasis : ∑ j ∈ T.basis, T.cell i j * y j = y (T.basic i) := by
    rw [basis, Finset.sum_image hT.injective.injOn]
    simp only [hT i, ite_mul, one_mul, zero_mul, Finset.sum_ite_eq, Finset.mem_univ, if_true]
  rw [lhs, ← Finset.sum_add_sum_compl T.basis, hbasis]

end Sums

/-! ## Shifts -/

variable {T T' T'' : Tableau Rat m w} {u v : Fin w → Rat} {a b ε : Rat} {r : Fin m} {c : Fin w}

/-- Two tableaus say the same of vectors that are shifted against each other by `u`, which is at
    most `bound` in every column. -/
structure Shifted (T T' : Tableau Rat m w) (u : Fin w → Rat) (bound : Rat) : Prop where
  nonneg : ∀ j, 0 ≤ u j
  le : ∀ j, u j ≤ bound
  holds : ∀ y, T'.Holds y ↔ T.Holds (y - u)
  cost : ∀ y, T'.Holds y → T'.cost y = T.cost (y - u)

theorem Agrees.shifted (h : T.Agrees T') : T.Shifted T' 0 0 where
  nonneg _ := le_rfl
  le _ := le_rfl
  holds y := by rw [sub_zero, h.holds]
  cost y hy := by rw [sub_zero, h.cost y ((h.holds y).1 hy)]

theorem Shifted.refl (T : Tableau Rat m w) : T.Shifted T 0 0 := (Agrees.refl T).shifted

theorem Shifted.trans (h : T.Shifted T' u a) (h' : T'.Shifted T'' v b) :
    T.Shifted T'' (u + v) (a + b) where
  nonneg j := add_nonneg (h.nonneg j) (h'.nonneg j)
  le j := add_le_add (h.le j) (h'.le j)
  holds y := by rw [h'.holds, h.holds, sub_sub, add_comm]
  cost y hy := by rw [h'.cost y hy, h.cost _ ((h'.holds y).1 hy), sub_sub, add_comm]

theorem Shifted.mono (h : T.Shifted T' u a) (hle : a ≤ b) : T.Shifted T' u b :=
  { h with le := fun j => (h.le j).trans hle }

section Levels

variable {b : Fin m → Rat} (hT : T.Priced)

include hT

theorem Priced.point_withLevels_basic (i : Fin m) :
    ((T.withLevels b).point - T.point) (T.basic i) = b i - T.level i := by
  rw [Pi.sub_apply, point_basic hT.canonical, ← basic_withLevels T b,
    point_basic (hT.withLevels b).canonical, level_withLevels]

theorem Priced.point_withLevels_of_notMem {j : Fin w} (hj : j ∉ T.basis) :
    ((T.withLevels b).point - T.point) j = 0 := by
  rw [Pi.sub_apply, point_eq_zero hT.canonical hj,
    point_eq_zero (hT.withLevels b).canonical (by rwa [basis_withLevels]), sub_zero]

/-- Other right-hand sides shift the basic columns. -/
theorem Priced.shifted_withLevels (hb : ∀ i, T.level i ≤ b i ∧ b i ≤ T.level i + ε) (hε : 0 ≤ ε) :
    T.Shifted (T.withLevels b) ((T.withLevels b).point - T.point) ε := by
  have hoff : ∀ j ∉ T.basis, ((T.withLevels b).point - T.point) j = 0 :=
    fun _ => hT.point_withLevels_of_notMem
  have hlhs : ∀ i y, (T.withLevels b).lhs i y = T.lhs i y := fun i y => by simp [lhs]
  have hwithin : ∀ j, 0 ≤ ((T.withLevels b).point - T.point) j ∧
      ((T.withLevels b).point - T.point) j ≤ ε := fun j => by
    by_cases hj : j ∈ T.basis
    · obtain ⟨i, rfl⟩ := mem_basis.1 hj
      rw [hT.point_withLevels_basic]
      exact ⟨sub_nonneg.2 (hb i).1, sub_le_iff_le_add'.2 (hb i).2⟩
    · rw [hoff j hj]
      exact ⟨le_rfl, hε⟩
  refine ⟨fun j => (hwithin j).1, fun j => (hwithin j).2, fun y => ?_, fun y _ => ?_⟩
  · refine forall_congr' fun i => ?_
    rw [hlhs, level_withLevels, lhs_sub, lhs_of_zero hT.canonical hoff, hT.point_withLevels_basic]
    constructor <;> intro h <;> linarith
  · have hprice : T.priceOf (y - ((T.withLevels b).point - T.point)) = T.priceOf y := by
      rw [priceOf_sub, priceOf_of_zero hT.priced hoff, sub_zero]
    rw [cost, cost, hprice]
    rfl

end Levels

/-! ## Pivots -/

section Pivots

variable {opts : Options Exact} (hround : opts.roundOff = .fin ε) (hε : 0 ≤ ε)

include hround hε

/-- A pivot shifts the basic columns by no more than the tolerance for round-off. -/
theorem Priced.exists_shifted_pivot (hT : T.Priced) (hne : T.cell r c ≠ 0) :
    ∃ T' u, T.lift.pivot opts r c = T'.lift ∧ T'.Priced ∧ T.Shifted T' u ε ∧
      (∀ j ∉ T'.basis, u j = 0) ∧ ∀ i, T'.basic i = if i = r then c else T.basic i := by
  obtain ⟨b, hb, hraised⟩ := exists_pivot opts hne
  set S := T.pivot Options.rational r c with hS
  have hpriced : S.Priced := hT.pivot hne
  have hpivot : T.Shifted S 0 0 := (agrees_pivot Options.rational_untolerant hne).shifted
  have hsettle := hpriced.shifted_withLevels
    (fun i => ⟨(hraised i).1, (hraised i).2 ε hround hε⟩) hε
  refine ⟨_, _, hb, hpriced.withLevels b, (hpivot.trans hsettle).mono (zero_add ε).le,
    fun j hj => ?_, fun i => ?_⟩
  · rw [basis_withLevels] at hj
    rw [zero_add, hpriced.point_withLevels_of_notMem hj]
  · rw [basic_withLevels, hS, basic_pivot]

variable (hpivot : 0 ≤ opts.pivot)

include hpivot

/-- A run shifts the columns once for every pivot. -/
theorem run_shifted (hT : T.Priced) (late : Nat → Bool) (budget : Nat) :
    ∃ T' u, (T.lift.run opts late budget 0).tableau = T'.lift ∧ T'.Priced ∧
      T.Shifted T' u ((T.lift.run opts late budget 0).pivots * ε) := by
  refine run_keeps (I := fun k S => ∃ T' u, S = T'.lift ∧ T'.Priced ∧ T.Shifted T' u (k * ε))
    hpivot ?_ late budget ⟨T, 0, rfl, hT, (Shifted.refl T).mono (by simp)⟩
  rintro k S S' ⟨T', u, rfl, hT', hshift⟩ ⟨r, c, -, hne, rfl⟩
  obtain ⟨T'', v, heq, hT'', hshift', -⟩ :=
    hT'.exists_shifted_pivot hround hε (cell_ne_zero_of_lift hne)
  refine ⟨T'', u + v, heq, hT'', (hshift.trans hshift').mono (le_of_eq ?_)⟩
  push_cast
  ring

end Pivots

/-! ## Driving artificial columns out -/

/-- Some rows of `T` have exchanged an artificial basic column for another one. -/
structure Driven (first : Nat) (T T' : Tableau Rat m w) (u : Fin w → Rat) (bound : Rat) : Prop
    extends Shifted T T' u bound where
  rows : ∀ i, T'.basic i = T.basic i ∨ first ≤ (T.basic i).val ∧ (T'.basic i).val < first
  support : ∀ j, j ∉ T.basis → j ∉ T'.basis → u j = 0

/-- A row is exchanged only once: its basic column is an artificial one. -/
theorem Driven.pivot (h : Driven first T T' u a) (hr : first ≤ (T'.basic r).val)
    (hc : c.val < first) (hshift : T'.Shifted T'' v b) (hoff : ∀ j ∉ T''.basis, v j = 0)
    (hbasic : ∀ i, T''.basic i = if i = r then c else T'.basic i) :
    Driven first T T'' (u + v) (a + b) where
  toShifted := h.toShifted.trans hshift
  rows i := by
    rw [hbasic]
    by_cases hi : i = r
    · rw [if_pos hi]
      rcases h.rows i with heq | ⟨hi', -⟩
      · exact .inr ⟨by rw [← heq, hi]; exact hr, hc⟩
      · exact .inr ⟨hi', hc⟩
    · rw [if_neg hi]
      exact h.rows i
  support j hj hj' := by
    rw [Pi.add_apply, hoff j hj', add_zero]
    refine h.support j hj fun hmem => ?_
    -- the column that left in this row was basic from the start
    obtain ⟨i, rfl⟩ := mem_basis.1 hmem
    by_cases hi : i = r
    · rcases h.rows i with heq | ⟨-, hlt⟩
      · exact hj (heq ▸ mem_basis.2 ⟨i, rfl⟩)
      · rw [hi] at hlt
        exact absurd hlt (not_lt.2 hr)
    · exact hj' (mem_basis.2 ⟨i, by rw [hbasic, if_neg hi]⟩)

/-- Driving out shifts the columns at most once for every row. -/
theorem driveOut_driven {opts : Options Exact} (hround : opts.roundOff = .fin ε) (hε : 0 ≤ ε)
    (hpivot : 0 ≤ opts.pivot) (hT : T.Priced) (first : Nat) :
    ∃ T' u, (T.lift.driveOut opts first).1 = T'.lift ∧ T'.Priced ∧
      Driven first T T' u (m * ε) := by
  have hfold := foldl_done (I := fun done (s : Tableau Exact m w × Nat) => ∃ T' u,
    s.1 = T'.lift ∧ T'.Priced ∧ Driven first T T' u (done.length * ε))
    (f := expel opts first) (s := (T.lift, 0)) ?_ ?_ (List.finRange m)
  · rwa [List.length_finRange] at hfold
  · rintro done s r ⟨T', u, hs, hT', h⟩
    have hlength : ((done ++ [r]).length : Rat) * ε = done.length * ε + ε := by
      rw [List.length_append, List.length_singleton]
      push_cast
      ring
    rw [hlength]
    obtain heq | ⟨c, hr, hc, -, hne, heq⟩ := expel_cases hpivot first s r
    · exact ⟨T', u, heq.trans hs, hT',
        { h with toShifted := h.toShifted.mono (le_add_of_nonneg_right hε) }⟩
    · rw [hs] at hr hne heq
      obtain ⟨T'', v, hT'', hpriced, hshift, hoff, hbasic⟩ :=
        hT'.exists_shifted_pivot hround hε (cell_ne_zero_of_lift hne)
      rw [basic, basic_lift] at hr
      exact ⟨T'', u + v, heq.trans hT'', hpriced, h.pivot hr hc hshift hoff hbasic⟩
  · exact ⟨T, 0, rfl, hT, (Shifted.refl T).mono (by simp), fun _ => .inl rfl, fun _ _ _ => rfl⟩

/-- The columns that are driven out are artificial. -/
theorem Driven.artificial (h : Driven first T T' u b) {j : Fin w} (hj : j ∈ T.basis \ T'.basis) :
    first ≤ j.val := by
  obtain ⟨hmem, hnot⟩ := Finset.mem_sdiff.1 hj
  obtain ⟨i, rfl⟩ := mem_basis.1 hmem
  rcases h.rows i with heq | ⟨hle, -⟩
  · exact absurd (mem_basis.2 ⟨i, heq⟩) hnot
  · exact hle

/-- What was in the columns that are driven out goes into the rows. -/
theorem Driven.level_eq (h : Driven first T T' u b) (hT : T.Priced) (hT' : T'.Priced) (i : Fin m) :
    T'.level i = (T.point + u) (T'.basic i) +
      ∑ j ∈ T.basis \ T'.basis, T'.cell i j * (T.point + u) j := by
  have hholds : T'.Holds (T.point + u) := by
    rw [h.holds, add_sub_cancel_right]
    exact holds_point hT.canonical
  rw [← hholds i, lhs_eq_add hT'.canonical]
  congr 1
  refine (Finset.sum_subset (fun j hj => ?_) fun j hj hnot => ?_).symm
  · exact Finset.mem_compl.2 (Finset.mem_sdiff.1 hj).2
  · have hj := Finset.mem_compl.1 hj
    have hstart : j ∉ T.basis := fun hmem => hnot (Finset.mem_sdiff.2 ⟨hmem, hj⟩)
    rw [Pi.add_apply, point_eq_zero hT.canonical hstart, h.support j hstart hj, add_zero, mul_zero]

/-! ## What is left -/

/-- The artificial columns. -/
def artificials (w first : Nat) : Finset (Fin w) := Finset.univ.filter fun j => first ≤ j.val

theorem Shifted.sum_le (h : T.Shifted T' u b) (s : Finset (Fin w)) :
    0 ≤ ∑ j ∈ s, u j ∧ ∑ j ∈ s, u j ≤ s.card * b := by
  refine ⟨Finset.sum_nonneg fun j _ => h.nonneg j, ?_⟩
  have hle := Finset.sum_le_card_nsmul s u b fun j _ => h.le j
  rwa [nsmul_eq_mul] at hle

/-- What is left in the artificial columns is the objective of phase 1, but for the shift. -/
theorem Shifted.sum_artificials (hT : T.Canonical) (hT' : T'.Priced)
    (h : (T.setCost (artificialCost w first)).Shifted T' u b) :
    ∑ j ∈ artificials w first, T'.point j = T'.value + ∑ j ∈ artificials w first, u j := by
  have hpoint := holds_point hT'.canonical
  have hprice : T'.priceOf T'.point = 0 :=
    priceOf_of_zero hT'.priced fun _ => point_eq_zero hT'.canonical
  have hvalue : T'.value = ∑ j ∈ artificials w first, (T'.point - u) j := by
    calc T'.value = T'.cost T'.point := by rw [Tableau.cost, hprice, zero_add]
      _ = (T.setCost (artificialCost w first)).cost (T'.point - u) := h.cost _ hpoint
      _ = ∑ j, (artificialCost w first).get j * (T'.point - u) j :=
          cost_setCost hT _ ((h.holds _).1 hpoint)
      _ = ∑ j ∈ artificials w first, (T'.point - u) j := by
          rw [sum_artificialCost, artificials, Finset.sum_filter]
  rw [hvalue, ← Finset.sum_add_distrib]
  exact Finset.sum_congr rfl fun j _ => (sub_add_cancel _ _).symm

/-- No right-hand side ends further below zero than what was left, times the largest magnitude that
    a negative entry of its row has in a column that was driven out. -/
theorem Driven.le_level (h : Driven first T T' u b) (hT : T.Priced) (hT' : T'.Priced)
    (hnonneg : ∀ j, 0 ≤ T.point j) {g : Rat} (hg : 0 ≤ g) {i : Fin m}
    (hcells : ∀ j ∈ T.basis \ T'.basis, -g ≤ T'.cell i j) :
    -(g * ∑ j ∈ artificials w first, (T.point + u) j) ≤ T'.level i := by
  have hy : ∀ j, 0 ≤ (T.point + u) j := fun j => add_nonneg (hnonneg j) (h.nonneg j)
  have hsubset : T.basis \ T'.basis ⊆ artificials w first := fun j hj =>
    Finset.mem_filter.2 ⟨Finset.mem_univ j, h.artificial hj⟩
  calc -(g * ∑ j ∈ artificials w first, (T.point + u) j)
      ≤ -(g * ∑ j ∈ T.basis \ T'.basis, (T.point + u) j) :=
        neg_le_neg (mul_le_mul_of_nonneg_left
          (Finset.sum_le_sum_of_subset_of_nonneg hsubset fun j _ _ => hy j) hg)
    _ = ∑ j ∈ T.basis \ T'.basis, -g * (T.point + u) j := by
        rw [← neg_mul, Finset.mul_sum]
    _ ≤ ∑ j ∈ T.basis \ T'.basis, T'.cell i j * (T.point + u) j :=
        Finset.sum_le_sum fun j hj => mul_le_mul_of_nonneg_right (hcells j hj) (hy j)
    _ ≤ T'.level i := by
        rw [h.level_eq hT hT' i]
        exact le_add_of_nonneg_left (hy _)

/-! ## The entries of an image -/

theorem lift_level (T : Tableau Rat m w) (i : Fin m) : T.lift.level i = .fin (T.level i) := by
  rw [level, get_lift]
  rfl

theorem lift_cell (T : Tableau Rat m w) (i : Fin m) (j : Fin w) :
    T.lift.cell i j = .fin (T.cell i j) :=
  T.cell_lift i j

theorem lift_basic (T : Tableau Rat m w) : T.lift.basic = T.basic := funext T.basic_lift

theorem lift_basis (T : Tableau Rat m w) : T.lift.basis = T.basis := by
  rw [basis, basis, lift_basic]

theorem get_primal_lift (T : Tableau Rat m w) (j : Fin w) :
    T.lift.primal.get j = .fin (T.point j) := by
  rw [primal_lift, Vector.get_map]
  rfl

end Tableau

/-! ## The end of phase 1 -/

namespace EqualityForm

open Tableau

variable {n : Nat} {form : EqualityForm Exact n} {opts : Options Exact} {late : Nat → Bool}
  {basis : Basis Exact form.height form.width} {φ ε : Rat}

/-- The end of the pivots of phase 1. -/
def phase1Halt (form : EqualityForm Exact n) (opts : Options Exact) (late : Nat → Bool) :
    Tableau.Halt Exact form.height form.width :=
  ((Tableau.ofRows form.rows).setCost form.artificialCost).run opts late opts.maxPivots 0

/-- Where phase 2 starts if there are artificial columns. -/
theorem phase1_eq_ok (hsome : form.firstArtificial < form.width)
    (h : form.phase1 opts late = .ok basis) : (form.phase1Halt opts late).stop = .optimal ∧
      ¬ opts.feasibility * form.scale < (form.phase1Halt opts late).tableau.value ∧
      basis.tableau = (((form.phase1Halt opts late).tableau.block form.firstArtificial).driveOut
        opts form.firstArtificial).1 := by
  simp only [phase1, if_pos hsome] at h
  unfold phase1Halt
  generalize ((Tableau.ofRows form.rows).setCost form.artificialCost).run opts late opts.maxPivots 0
    = halt at h ⊢
  rcases hstop : halt.stop with _ | _ | _ | _ | _ <;> simp only [hstop] at h
  · unfold feasible at h
    simp only at h
    split at h
    · cases h
    · cases h
      exact ⟨rfl, ‹_›, rfl⟩
  all_goals cases h

/-- The right-hand sides of the tableau `T` that phase 2 starts with, in terms of the tableau that
    phase 1 halted at.  The tolerances are `φ` for infeasibility and `ε` for round-off. -/
structure Starts (form : EqualityForm Exact n) (φ ε : Rat)
    (halt : Tableau.Halt Exact form.height form.width)
    (T : Tableau Exact form.height form.width) : Prop where
  stop : halt.stop = .optimal
  /-- All that is said here is said of rationals. -/
  finite : Scalar.isFinite form.scale = true ∧ Scalar.isFinite halt.tableau.value = true ∧
    (∀ j, Scalar.isFinite (halt.tableau.primal.get j) = true) ∧
    ∀ i, Scalar.isFinite (T.level i) = true ∧ ∀ j, Scalar.isFinite (T.cell i j) = true
  accepted : halt.tableau.value.rat ≤ φ * form.scale.rat
  /-- What is left in the artificial columns is the objective of phase 1, up to round-off. -/
  left : let artificials := Tableau.artificials form.width form.firstArtificial
    halt.tableau.value.rat ≤ ∑ j ∈ artificials, (halt.tableau.primal.get j).rat ∧
      ∑ j ∈ artificials, (halt.tableau.primal.get j).rat ≤
        halt.tableau.value.rat + artificials.card * (halt.pivots * ε)
  /-- Only artificial columns are driven out. -/
  artificial : ∀ j ∈ halt.tableau.basis \ T.basis, form.firstArtificial ≤ j.val
  /-- What was in them goes into every row, times their entries there. -/
  levels : ∃ y : Fin form.width → Rat,
    (∀ j, (halt.tableau.primal.get j).rat ≤ y j ∧
      y j ≤ (halt.tableau.primal.get j).rat + form.height * ε) ∧
    ∀ i, (T.level i).rat =
      y (T.basic i) + ∑ j ∈ halt.tableau.basis \ T.basis, (T.cell i j).rat * y j
  /-- If no right-hand side was negative before, none ends further below zero than what was left,
      times the largest magnitude of a negative entry of its row in these columns. -/
  bound : (∀ i, 0 ≤ halt.tableau.level i) → ∀ i g, 0 ≤ g →
    (∀ j ∈ halt.tableau.basis \ T.basis, -g ≤ (T.cell i j).rat) →
    -(g * (halt.tableau.value.rat + (Tableau.artificials form.width form.firstArtificial).card *
      ((halt.pivots + form.height) * ε))) ≤ (T.level i).rat

section Starts

variable (hpivot : 0 ≤ opts.pivot) (hfeasibility : opts.feasibility = .fin φ)
  (hround : opts.roundOff = .fin ε) (hε : 0 ≤ ε)

include hpivot hfeasibility hround hε

theorem starts_of_eq_ok {T : Tableau Rat form.height form.width}
    (hrows : Tableau.ofRows form.rows = T.lift) (hT : T.Canonical)
    (hsome : form.firstArtificial < form.width) (h : form.phase1 opts late = .ok basis) :
    form.Starts φ ε (form.phase1Halt opts late) basis.tableau := by
  obtain ⟨hstop, haccepted, htableau⟩ := phase1_eq_ok hsome h
  have hstart : (Tableau.ofRows form.rows).setCost form.artificialCost =
      (T.setCost (Tableau.artificialCost form.width form.firstArtificial)).lift := by
    rw [hrows, artificialCost_eq, setCost_lift]
  obtain ⟨H, u, hhalt, hH, hshift⟩ := run_shifted hround hε hpivot
    (T := T.setCost (Tableau.artificialCost form.width form.firstArtificial))
    ⟨hT, priced_setCost hT _⟩ late opts.maxPivots
  rw [← hstart] at hhalt hshift
  change (form.phase1Halt opts late).tableau = H.lift at hhalt
  change Shifted _ H u ((form.phase1Halt opts late).pivots * ε) at hshift
  obtain ⟨S, v, hdriveOut, hS, hdriven⟩ := driveOut_driven hround hε hpivot
    (T := H.block form.firstArtificial) ⟨hH.canonical, hH.priced⟩ form.firstArtificial
  rw [hhalt, block_lift, hdriveOut] at htableau
  generalize form.phase1Halt opts late = halt at hstop haccepted hhalt hshift ⊢
  obtain ⟨scale, hscale⟩ := exists_scale hrows
  have hleft := hshift.sum_artificials hT hH
  obtain ⟨hu, hu'⟩ := hshift.sum_le (artificials form.width form.firstArtificial)
  obtain ⟨hv, hv'⟩ := hdriven.sum_le (artificials form.width form.firstArtificial)
  constructor
  · exact hstop
  · simp only [hhalt, htableau, hscale, get_primal_lift, lift_level, lift_cell, value_lift]
    exact ⟨rfl, rfl, fun _ => rfl, fun _ => ⟨rfl, fun _ => rfl⟩⟩
  · rw [hhalt, hfeasibility, hscale, value_lift, Exact.fin_mul_fin, Exact.fin_lt_fin, not_lt]
      at haccepted
    rwa [hhalt, hscale]
  · simp only [hhalt, get_primal_lift, Exact.rat_fin, hleft]
    constructor <;> rw [value_lift, Exact.rat_fin] <;> linarith
  · rw [hhalt, htableau, lift_basis, lift_basis]
    exact fun j hj => hdriven.artificial hj
  · refine ⟨H.point + v, fun j => ?_, fun i => ?_⟩
    · rw [hhalt, get_primal_lift, Exact.rat_fin, Pi.add_apply]
      exact ⟨le_add_of_nonneg_right (hdriven.nonneg j), (add_le_add_iff_left _).2 (hdriven.le j)⟩
    · simp only [hhalt, htableau, lift_basic, lift_basis, lift_level, lift_cell, Exact.rat_fin]
      exact hdriven.level_eq ⟨hH.canonical, hH.priced⟩ hS i
  · intro hnonneg i g hg hcells
    simp only [hhalt, htableau, lift_basis, lift_level, lift_cell, Exact.rat_fin, Exact.zero_eq,
      Exact.fin_le_fin] at hnonneg hcells ⊢
    have hpoint : ∀ j, 0 ≤ H.point j := point_nonneg ⟨hH.canonical, hnonneg, hH.priced⟩
    refine le_trans (neg_le_neg (mul_le_mul_of_nonneg_left ?_ hg))
      (hdriven.le_level ⟨hH.canonical, hH.priced⟩ hS hpoint hg hcells)
    have hsum : ∑ j ∈ artificials form.width form.firstArtificial, (H.point + v) j =
        H.value + ∑ j ∈ artificials form.width form.firstArtificial, u j +
          ∑ j ∈ artificials form.width form.firstArtificial, v j := by
      simp only [Pi.add_apply, Finset.sum_add_distrib, hleft]
    show ∑ j ∈ artificials form.width form.firstArtificial, (H.point + v) j ≤ _
    rw [hsum, value_lift, Exact.rat_fin, add_mul, mul_add]
    linarith

end Starts

end EqualityForm

end Simplex

open Simplex

/-- **The right-hand sides that phase 2 starts with.**  Let the program be valid, over any box, and
    let the tolerances not be negative.  Where phase 1 is passed, it was optimal and left no more in
    the artificial columns than the scaled tolerance.  Only artificial columns are driven out, and
    what was left in them goes into every row, times the entries that they have in that row
    afterwards.  So a right-hand side may end below zero by what was left times the largest of these
    entries, and not only by what was left.  Without artificial columns none is negative. -/
theorem Program.phase1_starts {P : Program Exact} {box : Box Exact} {opts : Options Exact}
    {late : Nat → Bool} {φ ε : Rat} {D : DenseProgram Exact P.height P.vars}
    {basis : Basis Exact (EqualityForm.build D).height (EqualityForm.build D).width}
    (hvalid : P.validate = .ok ()) (hdense : DenseProgram.of P box = .ok D)
    (hpivot : 0 ≤ opts.pivot) (hfeasibility : opts.feasibility = .fin φ)
    (hround : opts.roundOff = .fin ε) (hε : 0 ≤ ε)
    (hbasis : (EqualityForm.build D).phase1 opts late = .ok basis) :
    let form := EqualityForm.build D
    if form.firstArtificial < form.width then
      form.Starts φ ε (form.phase1Halt opts late) basis.tableau
    else ∀ i, 0 ≤ basis.tableau.level i := by
  intro form
  have hfinite := (representedBy_of_eq_ok hdense).finite (validate_eq_ok hvalid)
  split
  · rename_i hsome
    obtain ⟨T, hrows, hT⟩ := hfinite.upkept
    exact EqualityForm.starts_of_eq_ok hpivot hfeasibility hround hε hrows hT.canonical hsome hbasis
  · rename_i hnone
    unfold EqualityForm.phase1 at hbasis
    rw [if_neg hnone] at hbasis
    cases hbasis
    exact hfinite.level_nonneg

/-! ## A program that is driven far off -/

/-- The row `0.02 x₀ = 0.009`, which has no solution with `x₀` in `[0, 0]`. -/
def strain : Program Exact where
  cost := [0, 0]
  matrix := ⟨1, 2, [[(0, 0.02)], []], rfl, by simp, by simp [Column.Sorted]⟩
  rhs := [0.009]
  blocks := [.equality 1]

/-- The bound of `x₁` makes the scale large. -/
def strainBox : Box Exact := ⟨[0, 0], [0, 1e7]⟩

/-- Phase 1 leaves `0.009` in the artificial column of the row.  The column is exchanged for the
    slack of the bound of `x₀`, which gets `-50` times that. -/
theorem strain_phase1 : ∃ D, DenseProgram.of strain strainBox = .ok D ∧ ∃ basis,
    let form := EqualityForm.build D
    let halt := form.phase1Halt Options.standard fun _ => false
    form.phase1 Options.standard (fun _ => false) = .ok basis ∧
      form.firstArtificial < form.width ∧ form.scale = 1e7 ∧ halt.stop = .optimal ∧
      halt.tableau.value = 0.009 ∧ (∀ i, 0 ≤ halt.tableau.level i) ∧
      (∀ i, ∀ j ∈ halt.tableau.basis \ basis.tableau.basis, -50 ≤ (basis.tableau.cell i j).rat) ∧
      ∃ i, basis.tableau.level i = -0.45 := by
  have hrun : (DenseProgram.of strain strainBox).toOption.any (fun D =>
      let form := EqualityForm.build D
      let halt := form.phase1Halt Options.standard fun _ => false
      (form.phase1 Options.standard fun _ => false).toOption.any fun basis =>
        form.firstArtificial < form.width ∧ form.scale = 1e7 ∧ halt.stop = .optimal ∧
          halt.tableau.value = 0.009 ∧ (∀ i, 0 ≤ halt.tableau.level i) ∧
          (∀ i, ∀ j ∈ halt.tableau.basis \ basis.tableau.basis,
            -50 ≤ (basis.tableau.cell i j).rat) ∧
          ∃ i, basis.tableau.level i = -0.45) = true := by
    decide +kernel
  obtain ⟨D, hdense, hrun⟩ := exists_ok_of_any hrun
  obtain ⟨basis, hbasis, hrun⟩ := exists_ok_of_any hrun
  exact ⟨D, hdense, basis, hbasis, of_decide_eq_true hrun⟩

/-- The bound applies with the factor `50`, and but for round-off it is attained. -/
theorem Program.phase1_starts_strain : ∃ D, DenseProgram.of strain strainBox = .ok D ∧ ∃ basis,
    let form := EqualityForm.build D
    let halt := form.phase1Halt Options.standard fun _ => false
    form.phase1 Options.standard (fun _ => false) = .ok basis ∧
      form.Starts (1 / 10 ^ 9) (1 / 10 ^ 12) halt basis.tableau ∧
      (∀ i, -(50 * (9 / 1000 + (Tableau.artificials form.width form.firstArtificial).card *
        ((halt.pivots + form.height) * (1 / 10 ^ 12)))) ≤ (basis.tableau.level i).rat) ∧
      ∃ i, (basis.tableau.level i).rat = -(50 * (9 / 1000)) := by
  obtain ⟨D, hdense, basis, hbasis, hsome, -, -, hvalue, hnonneg, hcells, i, hlevel⟩ :=
    strain_phase1
  have hstarts := @phase1_starts strain strainBox Options.standard (fun _ => false) (1 / 10 ^ 9)
    (1 / 10 ^ 12) D basis (by decide +kernel) hdense (by decide +kernel) (by decide +kernel)
    (by decide +kernel) (by norm_num) hbasis
  rw [if_pos hsome] at hstarts
  refine ⟨D, hdense, basis, hbasis, hstarts, fun i => ?_, i, ?_⟩
  · have hbound := hstarts.bound hnonneg i 50 (by norm_num) (hcells i)
    have hleft : (0.009 : Exact).rat = 9 / 1000 := by decide +kernel
    rwa [hvalue, hleft] at hbound
  · rw [hlevel]
    decide +kernel

/-- Phase 1 is passed with what the tolerance allows, and a right-hand side ends far below minus
    that. -/
theorem strain_below_tolerance : strain.validate = .ok () ∧
    ∃ D, DenseProgram.of strain strainBox = .ok D ∧ ∃ basis,
      let form := EqualityForm.build D
      let halt := form.phase1Halt Options.standard fun _ => false
      let allowed := (Options.standard : Options Exact).feasibility * form.scale
      form.phase1 Options.standard (fun _ => false) = .ok basis ∧ halt.stop = .optimal ∧
        halt.tableau.value ≤ allowed ∧ ∃ i, basis.tableau.level i < -allowed := by
  obtain ⟨D, hdense, basis, hbasis, -, hscale, hstop, hvalue, -, -, i, hlevel⟩ := strain_phase1
  refine ⟨by decide +kernel, D, hdense, basis, hbasis, hstop, ?_, i, ?_⟩
  · rw [hvalue, hscale]
    decide +kernel
  · rw [hlevel, hscale]
    decide +kernel

end Milp
