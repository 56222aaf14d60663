/-
  What the ratio test gives away for its tolerance.

  The test compares every row with the row that is kept, and not with the least ratio so far.  A row
  whose ratio is larger by no more than the tolerance replaces the kept row if its basic column
  comes earlier; the next row may do the same with that one.  So the tolerance adds up from row to
  row, and the row that leaves may be above the least ratio by the tolerance times the number of the
  other rows.

  * `Tableau.ratio`, `Tableau.tested`: the ratios that are compared, and the rows that have one.
  * `Tableau.Drifts`: how the kept row moves on; `leaving_drifts`: the row that leaves is reached in
    fewer moves than there are rows, whatever the scalars.
  * `leaving_le`: the bound over the rationals; `leaving_staircase`: it is attained, for any number
    of rows.
  * `leaving_within`: the bound in doubles, with the error of rounding.
  * `treads`: a program on which the tolerance adds up, so that its solve fails.
-/
import Milp.Proofs.Scalar.Accuracy
import Milp.Proofs.Scalar.Tolerance
import Milp.Proofs.Simplex.Expulsion

namespace Milp

namespace Simplex

variable {F : Type} {m w : Nat}

namespace Tableau

/-! ## The rows that are compared -/

section Test

variable [Scalar F] {opts : Options F} {T : Tableau F m w} {c : Fin w} {r i : Fin m}

/-- How far an entering column can grow before the basic column of a row is zero. -/
def ratio (T : Tableau F m w) (i : Fin m) (c : Fin w) : F := T.level i / T.cell i c

/-- The rows that the ratio test looks at. -/
def tested (opts : Options F) (T : Tableau F m w) (c : Fin w) : Finset (Fin m) :=
  Finset.univ.filter fun i => ¬ T.cell i c ≤ opts.pivot

theorem mem_tested : i ∈ T.tested opts c ↔ ¬ T.cell i c ≤ opts.pivot := by
  rw [tested, Finset.mem_filter, and_iff_right (Finset.mem_univ i)]

/-- From row `i` to the row kept, in so many comparisons. -/
inductive Drifts (opts : Options F) (T : Tableau F m w) (c : Fin w) (i : Fin m) :
    Nat → Fin m → Prop
  | here : Drifts opts T c i 0 i
  /-- Another row is kept, since the ratio of row `i` is not less by more than the tolerance. -/
  | stay {k : Fin m} : k ∈ T.tested opts c → ¬ T.ratio i c < T.ratio k c - opts.tie →
      Drifts opts T c i 1 k
  /-- The kept row is replaced by one of a smaller ratio, or one of a ratio that is not larger by
      more than the tolerance. -/
  | move {n : Nat} {k r : Fin m} : Drifts opts T c i n k → r ∈ T.tested opts c →
      (T.ratio r c < T.ratio k c - opts.tie ∨ T.ratio r c ≤ T.ratio k c + opts.tie) →
      Drifts opts T c i (n + 1) r

/-- What the ratio test has found among some of the rows. -/
def Kept (opts : Options F) (T : Tableau F m w) (c : Fin w) (rows : List (Fin m)) :
    Option (Fin m × F) → Prop
  | none => ∀ i ∈ rows, i ∉ T.tested opts c
  | some (k, least) => k ∈ rows ∧ k ∈ T.tested opts c ∧ least = T.ratio k c ∧
      ∀ i ∈ rows, i ∈ T.tested opts c →
        ∃ n < rows.countP (· ∈ T.tested opts c), T.Drifts opts c i n k

/-- One comparison. -/
theorem Kept.challenge {rows : List (Fin m)} {best : Option (Fin m × F)}
    (h : T.Kept opts c rows best) (r : Fin m) :
    T.Kept opts c (rows ++ [r]) (T.challenge opts c best r) := by
  have hcell : (T.rows.get r).cells.get c = T.cell r c := rfl
  have hratio : (T.rows.get r).rhs / T.cell r c = T.ratio r c := rfl
  unfold Tableau.challenge
  simp only [hcell, hratio]
  split
  · -- the row is not looked at
    rename_i hsmall
    have hnot : r ∉ T.tested opts c := fun hr => mem_tested.1 hr hsmall
    have hcount : (rows ++ [r]).countP (· ∈ T.tested opts c) =
        rows.countP (· ∈ T.tested opts c) := by simp [hnot]
    rcases best with _ | ⟨k, least⟩
    · exact forall_mem_concat h hnot
    · obtain ⟨hk, hlarge, hleast, hrows⟩ := h
      refine ⟨List.mem_append_left _ hk, hlarge, hleast, ?_⟩
      rw [hcount]
      exact forall_mem_concat hrows fun hr => absurd hr hnot
  · rename_i hlarge
    have hr : r ∈ T.tested opts c := mem_tested.2 hlarge
    have hcount : (rows ++ [r]).countP (· ∈ T.tested opts c) =
        rows.countP (· ∈ T.tested opts c) + 1 := by simp [hr]
    have hmem : r ∈ rows ++ [r] := List.mem_append_right _ (List.mem_singleton_self r)
    rcases best with _ | ⟨k, least⟩
    · -- the first row that is looked at
      refine ⟨hmem, hr, rfl, forall_mem_concat (fun i hi hi' => absurd hi' (h i hi)) fun _ => ?_⟩
      exact ⟨0, by omega, .here⟩
    · obtain ⟨hk, hk', rfl, hrows⟩ := h
      simp only
      split
      · -- the row replaces the one that was kept
        rename_i hbetter
        rw [Bool.or_eq_true, Bool.and_eq_true, decide_eq_true_eq, decide_eq_true_eq] at hbetter
        refine ⟨hmem, hr, rfl, forall_mem_concat (fun i hi hi' => ?_) fun _ => ⟨0, by omega, .here⟩⟩
        obtain ⟨n, hn, hdrifts⟩ := hrows i hi hi'
        exact ⟨n + 1, by omega, hdrifts.move hr (hbetter.imp_right And.left)⟩
      · -- the row that was kept stays
        rename_i hworse
        rw [Bool.or_eq_true, not_or, decide_eq_true_eq] at hworse
        refine ⟨List.mem_append_left _ hk, hk', rfl,
          forall_mem_concat (fun i hi hi' => ?_) fun _ => ?_⟩
        · obtain ⟨n, hn, hdrifts⟩ := hrows i hi hi'
          exact ⟨n, by omega, hdrifts⟩
        · obtain ⟨n, hn, -⟩ := hrows k hk hk'
          exact ⟨1, by omega, .stay hk' hworse.1⟩

theorem kept_leaving (opts : Options F) (T : Tableau F m w) (c : Fin w) :
    T.Kept opts c (List.finRange m) ((List.finRange m).foldl (T.challenge opts c) none) :=
  foldl_done (I := T.Kept opts c) (fun _ _ r h => h.challenge r) (by simp [Kept]) (List.finRange m)

theorem countP_tested (opts : Options F) (T : Tableau F m w) (c : Fin w) :
    (List.finRange m).countP (· ∈ T.tested opts c) = (T.tested opts c).card := by
  rw [List.countP_eq_length_filter,
    ← List.toFinset_card_of_nodup ((List.nodup_finRange m).filter _)]
  exact congrArg Finset.card (Finset.ext fun i => by simp)

/-- Nothing blocks a column only if no row is looked at. -/
theorem leaving_eq_none_iff :
    T.leaving opts c = none ↔ ∀ i, i ∉ T.tested opts c := by
  have hkept := kept_leaving opts T c
  rw [leaving, Option.map_eq_none_iff]
  generalize (List.finRange m).foldl (T.challenge opts c) none = best at hkept ⊢
  rcases best with _ | ⟨k, least⟩
  · exact iff_of_true rfl fun i => hkept i (List.mem_finRange i)
  · exact iff_of_false (by simp) fun hnone => hnone k hkept.2.1

/-- The row that leaves is looked at, and reached from any such row in fewer moves than there are
    such rows. -/
theorem leaving_drifts (h : T.leaving opts c = some r) : r ∈ T.tested opts c ∧
    ∀ i ∈ T.tested opts c, ∃ n < (T.tested opts c).card, T.Drifts opts c i n r := by
  obtain ⟨⟨r', ratio⟩, hbest, rfl⟩ := Option.map_eq_some_iff.1 h
  have hkept := kept_leaving opts T c
  rw [hbest] at hkept
  obtain ⟨-, hr, -, hrows⟩ := hkept
  rw [countP_tested] at hrows
  exact ⟨hr, fun i => hrows i (List.mem_finRange i)⟩

/-- Row `r` replaces row `k`: its ratio is not larger by more than the tolerance, and its basic
    column comes earlier. -/
structure Climbs (opts : Options F) (T : Tableau F m w) (c : Fin w) (k r : Fin m) : Prop where
  tested : r ∈ T.tested opts c
  close : T.ratio r c ≤ T.ratio k c + opts.tie
  earlier : T.basic r < T.basic k

/-- Along rows that replace one another the test ends with the last one. -/
theorem foldl_challenge {rows : List (Fin m)} {k : Fin m}
    (h : (k :: rows).IsChain (T.Climbs opts c)) :
    rows.foldl (T.challenge opts c) (some (k, T.ratio k c)) =
      some ((k :: rows).getLast (List.cons_ne_nil k rows),
        T.ratio ((k :: rows).getLast (List.cons_ne_nil k rows)) c) := by
  induction rows generalizing k with
  | nil => rfl
  | cons r rows ih =>
    obtain ⟨hclimbs, hrest⟩ := List.isChain_cons_cons.1 h
    have hstep : T.challenge opts c (some (k, T.ratio k c)) r = some (r, T.ratio r c) := by
      have hlarge : ¬ (T.rows.get r).cells.get c ≤ opts.pivot := mem_tested.1 hclimbs.tested
      have hclose : (T.rows.get r).rhs / (T.rows.get r).cells.get c ≤ T.ratio k c + opts.tie :=
        hclimbs.close
      have hearlier : (T.rows.get r).basic < (T.rows.get k).basic := hclimbs.earlier
      simp only [Tableau.challenge, if_neg hlarge, hclose, hearlier, decide_true, Bool.and_self,
        Bool.or_true, if_true]
      rfl
    rw [List.foldl_cons, hstep, ih hrest]
    rfl

theorem leaving_of_climbs {T : Tableau F (m + 1) w} (hfirst : 0 ∈ T.tested opts c)
    (h : ∀ i : Fin m, T.Climbs opts c i.castSucc i.succ) :
    T.leaving opts c = some (Fin.last m) := by
  have hchain : (List.finRange (m + 1)).IsChain (T.Climbs opts c) := by
    rw [List.isChain_iff_getElem]
    intro i hi
    rw [List.length_finRange] at hi
    simpa using h ⟨i, Nat.lt_of_succ_lt_succ hi⟩
  have hlast : (List.finRange (m + 1)).getLast (by simp) = Fin.last m := by
    simp [List.getLast_eq_getElem, Fin.ext_iff]
  have hstart : T.challenge opts c none 0 = some (0, T.ratio 0 c) := if_neg (mem_tested.1 hfirst)
  simp only [List.finRange_succ] at hchain hlast
  rw [leaving, List.finRange_succ, List.foldl_cons, hstart, foldl_challenge hchain, hlast]
  rfl

end Test

/-! ## Over the rationals -/

section Rationals

variable {opts : Options Rat} {T : Tableau Rat m w} {c : Fin w} {r i : Fin m} {n : Nat}

/-- One comparison gives away no more than the tolerance. -/
theorem Drifts.le (htie : 0 ≤ opts.tie) (h : T.Drifts opts c i n r) :
    T.ratio r c ≤ T.ratio i c + n * opts.tie := by
  induction h with
  | here => simp
  | stay _ hstay =>
    push_cast
    linarith
  | move _ _ hmove ih =>
    push_cast
    rcases hmove with hlt | hle <;> linarith

/-- The row that leaves is above the ratio of any other row by no more than the tolerance for every
    further row that is looked at. -/
theorem leaving_le (htie : 0 ≤ opts.tie) (h : T.leaving opts c = some r)
    (hi : i ∈ T.tested opts c) :
    T.ratio r c ≤ T.ratio i c + ((T.tested opts c).card - 1 : Nat) * opts.tie := by
  obtain ⟨n, hn, hdrifts⟩ := (leaving_drifts h).2 i hi
  have hle : (n : Rat) ≤ ((T.tested opts c).card - 1 : Nat) := by
    exact_mod_cast Nat.le_sub_one_of_lt hn
  exact (hdrifts.le htie).trans (add_le_add_right (mul_le_mul_of_nonneg_right hle htie) _)

/-- Rows of ratios that rise by the tolerance, with basic columns that come earlier and earlier. -/
def staircase (m : Nat) (tie : Rat) : Tableau Rat (m + 1) (m + 2) :=
  ofRows (Vector.ofFn fun i =>
    { basic := i.rev.castSucc
      cells := Vector.ofFn fun j => if j = i.rev.castSucc ∨ j = Fin.last (m + 1) then 1 else 0
      rhs := i.val * tie })

section Staircase

variable (tie : Rat) (i : Fin (m + 1))

theorem cell_staircase (j : Fin (m + 2)) : (staircase m tie).cell i j =
    if j = i.rev.castSucc ∨ j = Fin.last (m + 1) then 1 else 0 := by
  simp [cell, staircase, ofRows]

theorem basic_staircase : (staircase m tie).basic i = i.rev.castSucc := by
  simp [basic, staircase, ofRows]

theorem ratio_staircase : (staircase m tie).ratio i (Fin.last (m + 1)) = i.val * tie := by
  rw [ratio, cell_staircase, if_pos (.inr rfl), div_one]
  simp [level, staircase, ofRows]

theorem canonical_staircase : (staircase m tie).Canonical := by
  intro i i'
  rw [basic_staircase, cell_staircase]
  have hiff : (i'.rev.castSucc = i.rev.castSucc ∨ i'.rev.castSucc = Fin.last (m + 1)) ↔ i = i' := by
    rw [or_iff_left (Fin.castSucc_ne_last _), Fin.castSucc_inj, Fin.rev_inj, eq_comm]
  simp only [hiff]

end Staircase

/-- The bound is attained, for any number of rows: on the staircase the last row leaves, and not the
    first one, although its ratio is the larger one by the tolerance for every further row. -/
theorem leaving_staircase (m : Nat) (hpivot : opts.pivot < 1) :
    (staircase m opts.tie).Canonical ∧
      (staircase m opts.tie).leaving opts (Fin.last (m + 1)) = some (Fin.last m) ∧
      (staircase m opts.tie).ratio 0 (Fin.last (m + 1)) = 0 ∧
      (staircase m opts.tie).ratio (Fin.last m) (Fin.last (m + 1)) = m * opts.tie := by
  have htested : ∀ i, i ∈ (staircase m opts.tie).tested opts (Fin.last (m + 1)) := fun i => by
    rw [mem_tested, cell_staircase, if_pos (.inr rfl)]
    exact not_le.2 hpivot
  refine ⟨canonical_staircase _, leaving_of_climbs (htested 0) fun i => ⟨htested _, ?_, ?_⟩, ?_, ?_⟩
  · rw [ratio_staircase, ratio_staircase]
    push_cast [Fin.val_succ, Fin.val_castSucc]
    linarith
  · rw [basic_staircase, basic_staircase]
    simp [Fin.lt_def, Fin.val_rev]
    omega
  · rw [ratio_staircase]
    simp
  · rw [ratio_staircase, Fin.val_last]

end Rationals

/-! ## In doubles -/

section Doubles

variable {opts : Options Float} {T : Tableau Float m w} {c : Fin w} {r i : Fin m} {n : Nat}
  {t M : Rat}

theorem mem_tested_iff (hcell : Scalar.isFinite (T.cell i c) = true)
    (hpivot : opts.pivot ≤ opts.pivot) : i ∈ T.tested opts c ↔ opts.pivot < T.cell i c := by
  rw [mem_tested, ← Scalar.Ordered.not_lt hpivot (Scalar.Ordered.le_of_isFinite hcell), not_not]

/-- A ratio of finite entries is a number, though it may be too large for a double. -/
theorem exact_ratio_ne_nan (hcell : Scalar.isFinite (T.cell i c) = true)
    (hlevel : Scalar.isFinite (T.level i) = true) (hpivot : 0 ≤ opts.pivot)
    (hi : opts.pivot < T.cell i c) : Double.exact (T.ratio i c) ≠ .nan := by
  obtain ⟨a, ha⟩ := Double.isFinite_iff_exact.1 hcell
  obtain ⟨b, hb⟩ := Double.isFinite_iff_exact.1 hlevel
  have hpos : Double.exact 0 < Double.exact (T.cell i c) :=
    Exact.lt_of_le_of_lt (Double.le_iff_exact.1 hpivot) (Double.lt_iff_exact.1 hi)
  have hzero : Double.exact 0 = .fin 0 := by decide +kernel
  rw [ha, hzero, Exact.fin_lt_fin] at hpos
  exact Double.exact_div_ne_nan hb ha hpos

/-- One comparison gives away no more than the tolerance and the error of rounding. -/
theorem Drifts.exact_le (htie : Double.exact opts.tie = .fin t) (ht : 0 ≤ t) (ht' : t ≤ 1)
    (hM : 0 ≤ M) (hratio : ∀ i ∈ T.tested opts c, Double.exact (T.ratio i c) ≠ .nan ∧
      ∀ p, Double.exact (T.ratio i c) = .fin p → |p| ≤ M)
    (hi : i ∈ T.tested opts c) (h : T.Drifts opts c i n r) : r ∈ T.tested opts c ∧
      Double.exact (T.ratio r c) ≤
        Double.exact (T.ratio i c) + .fin (n * (t + Double.error (M + t))) := by
  have hfinite : Scalar.isFinite opts.tie = true := Double.isFinite_iff_exact.2 ⟨t, htie⟩
  have hnumber : ∀ i ∈ T.tested opts c, T.ratio i c ≤ T.ratio i c := fun i hi =>
    Double.le_iff_exact.2 (Exact.le_refl (hratio i hi).1)
  have hdelta : 0 ≤ t + Double.error (M + t) :=
    add_nonneg ht (Double.error_nonneg (add_nonneg hM ht))
  induction h with
  | here =>
    refine ⟨hi, ?_⟩
    rw [Nat.cast_zero, zero_mul, Exact.add_fin_zero]
    exact Exact.le_refl (hratio i hi).1
  | @stay k hk hstay =>
    have hsub : T.ratio k c - opts.tie ≤ T.ratio k c - opts.tie :=
      Scalar.Ordered.sub_le_sub_right (hnumber k hk) hfinite
    have hle := (Scalar.Ordered.not_lt (hnumber i hi) hsub).1 hstay
    rw [Nat.cast_one, one_mul]
    exact ⟨hk, Exact.le_trans
      (Double.le_exact_sub_add htie ht ht' (hratio k hk).2 (hratio k hk).1)
      (Exact.add_fin_le_add_fin (Double.le_iff_exact.1 hle))⟩
  | @move n k r _ hr hmove ih =>
    obtain ⟨hk, ih⟩ := ih
    have hstep : Double.exact (T.ratio r c) ≤
        Double.exact (T.ratio k c) + .fin (t + Double.error (M + t)) := by
      rcases hmove with hlt | hle
      · -- a smaller ratio is far from the bound
        have hneg : ¬ opts.tie < 0 := fun hneg => by
          have hzero : Double.exact 0 = .fin 0 := by decide +kernel
          rw [Double.lt_iff_exact, htie] at hneg
          exact absurd ht (not_le.2 (Exact.fin_lt_fin.1 (hzero ▸ hneg)))
        have hdown : T.ratio r c ≤ T.ratio k c := Scalar.Ordered.le_trans
          (Scalar.Ordered.le_of_lt hlt) (Scalar.Measured.sub_le_self (hnumber k hk) hfinite hneg)
        exact Exact.le_add (Double.le_iff_exact.1 hdown) hdelta
      · exact Exact.le_trans (Double.le_iff_exact.1 hle)
          (Double.exact_add_le htie ht ht' (hratio k hk).2 (hratio k hk).1)
    refine ⟨hr, Exact.le_trans hstep ?_⟩
    have hchain := Exact.add_fin_le_add_fin (t := t + Double.error (M + t)) ih
    rw [Exact.add_fin_add_fin] at hchain
    push_cast
    rwa [add_mul, one_mul]

/-- **The ratio test.**  Let the entries be finite, and let the tolerances not be negative, the one
    for ties at most one.  No row leaves if and only if no element is larger than the tolerance for
    pivot elements.  The row that leaves has such an element, and its ratio is above the ratio of
    any such row by no more than the tolerance for ties, with the error of rounding, for every
    further such row: not by the tolerance alone, as each row is compared with the one kept. -/
theorem leaving_within (hcells : ∀ i, Scalar.isFinite (T.cell i c) = true)
    (hlevels : ∀ i, Scalar.isFinite (T.level i) = true) (hpivot : 0 ≤ opts.pivot)
    (htie : Scalar.toRat? opts.tie = some t) (ht : 0 ≤ t) (ht' : t ≤ 1) (hM : 0 ≤ M)
    (hratio : ∀ i p, opts.pivot < T.cell i c → Scalar.toRat? (T.ratio i c) = some p → |p| ≤ M) :
    (T.leaving opts c = none ↔ ∀ i, ¬ opts.pivot < T.cell i c) ∧
      ∀ r, T.leaving opts c = some r → opts.pivot < T.cell r c ∧
        ∀ i, opts.pivot < T.cell i c → Double.exact (T.ratio r c) ≤ Double.exact (T.ratio i c) +
          .fin (((T.tested opts c).card - 1 : Nat) * (t + Double.error (M + t))) := by
  have hmem : ∀ i, i ∈ T.tested opts c ↔ opts.pivot < T.cell i c := fun i =>
    mem_tested_iff (hcells i) (Scalar.Ordered.refl_of_le hpivot).2
  have hratio : ∀ i ∈ T.tested opts c, Double.exact (T.ratio i c) ≠ .nan ∧
      ∀ p, Double.exact (T.ratio i c) = .fin p → |p| ≤ M := fun i hi =>
    ⟨exact_ratio_ne_nan (hcells i) (hlevels i) hpivot ((hmem i).1 hi), fun p hp =>
      hratio i p ((hmem i).1 hi) (Double.toRat?_eq_some_iff.2 hp)⟩
  refine ⟨by simp only [leaving_eq_none_iff, hmem], fun r hr => ?_⟩
  obtain ⟨hlarge, hrows⟩ := leaving_drifts hr
  refine ⟨(hmem r).1 hlarge, fun i hi => ?_⟩
  obtain ⟨n, hn, hdrifts⟩ := hrows i ((hmem i).2 hi)
  obtain ⟨-, hle⟩ := hdrifts.exact_le (Double.toRat?_eq_some_iff.1 htie) ht ht' hM hratio
    ((hmem i).2 hi)
  have hdelta : 0 ≤ t + Double.error (M + t) :=
    add_nonneg ht (Double.error_nonneg (add_nonneg hM ht))
  have hcast : (n : Rat) ≤ ((T.tested opts c).card - 1 : Nat) := by
    exact_mod_cast Nat.le_sub_one_of_lt hn
  exact Exact.le_trans hle (Exact.add_le_add_fin (Exact.ne_nan_of_le_right hle)
    (mul_le_mul_of_nonneg_right hcast hdelta))

end Doubles

end Tableau

end Simplex

open Simplex

/-! ## A program that climbs two treads -/

/-- Pivots on the first two columns leave the rows with the ratios `2⁻³⁹`, `2⁻⁴⁰` and `0` for the
    third one, and with basic columns in the opposite order. -/
def treads : Program Float where
  cost := [-1, -1, -5]
  matrix := ⟨3, 3, [[(2, 1)], [(1, 1)], [(0, 1048576), (1, 1), (2, 1)]], rfl, by decide,
    by simp [Column.Sorted]⟩
  rhs := [0, 9.094947017729282379150390625e-13, 1.818989403545856475830078125e-12]
  blocks := [.atMost 3]

/-- The tableau of a program after two pivots. -/
def twoPivots {m n : Nat} (D : DenseProgram Float m n) :
    Tableau Float (EqualityForm.build D).height (EqualityForm.build D).width :=
  let form := EqualityForm.build D
  (((Tableau.ofRows form.rows).setCost form.cost).run Options.standard (fun _ => false) 2 0).tableau

/-- The row that leaves at the third pivot, and one of less ratio. -/
theorem treads_run : ∃ box, treads.box = .ok box ∧ ∃ D, DenseProgram.of treads box = .ok D ∧
    let T := twoPivots D
    (∀ i j, Scalar.isFinite (T.cell i j) = true) ∧ (∀ i, Scalar.isFinite (T.level i) = true) ∧
      ∃ r c i, T.choose Options.standard = .ok (r, c) ∧
        (∀ k, (Scalar.toRat? (T.ratio k c)).any fun p => |p| ≤ 1 / 2 ^ 39) ∧
        (T.tested Options.standard c).card = 3 ∧
        Options.standard.pivot < T.cell i c ∧ Scalar.toRat? (T.ratio i c) = some 0 ∧
        Scalar.toRat? (T.ratio r c) = some (1 / 2 ^ 39) := by
  have hrun : treads.box.toOption.any (fun box => (DenseProgram.of treads box).toOption.any fun D =>
      let T := twoPivots D
      (∀ i j, Scalar.isFinite (T.cell i j) = true) ∧ (∀ i, Scalar.isFinite (T.level i) = true) ∧
        ∃ r c i, T.choose Options.standard = .ok (r, c) ∧
          (∀ k, (Scalar.toRat? (T.ratio k c)).any fun p => |p| ≤ 1 / 2 ^ 39) ∧
          (T.tested Options.standard c).card = 3 ∧
          Options.standard.pivot < T.cell i c ∧ Scalar.toRat? (T.ratio i c) = some 0 ∧
          Scalar.toRat? (T.ratio r c) = some (1 / 2 ^ 39)) = true := by
    decide +kernel
  obtain ⟨box, hbox, hrun⟩ := exists_ok_of_any hrun
  obtain ⟨D, hdense, hrun⟩ := exists_ok_of_any hrun
  exact ⟨box, hbox, D, hdense, of_decide_eq_true hrun⟩

/-- The bound applies with two further rows: the ratio that leaves is `2⁻³⁹`, which is more than one
    tolerance and less than two above that of the other row. -/
theorem Simplex.Tableau.leaving_within_treads : ∃ box, treads.box = .ok box ∧
    ∃ D, DenseProgram.of treads box = .ok D ∧
      let T := twoPivots D
      let t : Rat := 4951760157141521 / 2 ^ 92
      ∃ c i, T.leaving Options.standard c ≠ none ∧ Scalar.toRat? (T.ratio i c) = some 0 ∧
        ∀ r, T.leaving Options.standard c = some r → Double.exact (T.ratio r c) ≤
          Double.exact (T.ratio i c) + .fin (2 * (t + Double.error (1 / 2 ^ 39 + t))) := by
  obtain ⟨box, hbox, D, hdense, hcells, hlevels, r, c, i, hchoose, hratio, hcard, hi, hzero, -⟩ :=
    treads_run
  have hleaving := (Tableau.entering_leaving_of_choose hchoose).2
  refine ⟨box, hbox, D, hdense, c, i, by simp [hleaving], hzero, fun r hr => ?_⟩
  have hwithin := (Tableau.leaving_within (fun i => hcells i c) hlevels
    (M := 1 / 2 ^ 39) (t := 4951760157141521 / 2 ^ 92) (by decide +kernel) (by decide +kernel)
    (by norm_num) (by norm_num) (by norm_num) fun k p _ hp => by
      have hany := hratio k
      rw [hp] at hany
      exact of_decide_eq_true hany).2 r hr
  have hbound := hwithin.2 i hi
  rw [hcard] at hbound
  exact_mod_cast hbound

/-- A program with finite entries at whose third pivot the row that leaves has a ratio that is above
    that of another row by more than the tolerance for ties.  The other right-hand side becomes
    negative, and the solve ends with a numerical error. -/
theorem treads_drift : treads.validate = .ok () ∧
    (∃ box, treads.box = .ok box ∧ ∃ D, DenseProgram.of treads box = .ok D ∧
      let T := twoPivots D
      (∀ i j, Scalar.isFinite (T.cell i j) = true) ∧ (∀ i, Scalar.isFinite (T.level i) = true) ∧
        ∃ r c i, T.choose Options.standard = .ok (r, c) ∧ T.leaving Options.standard c = some r ∧
          Options.standard.pivot < T.cell i c ∧ ∃ p q, Scalar.toRat? (T.ratio i c) = some p ∧
            Scalar.toRat? (T.ratio r c) = some q ∧ p + 1 / 10 ^ 12 < q) ∧
    ∃ answer, treads.solve Options.standard PivotClock.still = .ok answer ∧
      answer.verdict = .numericalError := by
  obtain ⟨box, hbox, D, hdense, hcells, hlevels, r, c, i, hchoose, -, -, hi, hzero, hratio⟩ :=
    treads_run
  have hleaving := (Tableau.entering_leaving_of_choose hchoose).2
  obtain ⟨answer, hanswer, hverdict⟩ := exists_ok_of_any
    (show (treads.solve Options.standard PivotClock.still).toOption.any
      (fun answer => answer.verdict = .numericalError) = true by decide +kernel)
  exact ⟨by decide +kernel,
    ⟨box, hbox, D, hdense, hcells, hlevels, r, c, i, hchoose, hleaving, hi, 0, 1 / 2 ^ 39, hzero,
      hratio, by norm_num⟩,
    answer, hanswer, of_decide_eq_true hverdict⟩

end Milp
