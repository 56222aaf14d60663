/-
  Matrices made of triplets.

  The columns of a matrix are built by adding one triplet after the other to the cell it names, in
  an order of their own.  Over exact scalars the order does not matter: a cell holds the sum of its
  triplets, also if there are several of them, or none, or zeros.

  * `Column.entry_collect`: the entries of a column that is collected from triplets.
  * `Matrix.tripletSum`, `Matrix.cell_eq_tripletSum`: the sum of the triplets of a cell, which is
    what the cell holds.
  * `Matrix.tripletRow`, `Program.activity_eq_tripletRow`: the inner product of the triplets of a row
    with a point, which is the left-hand side of the row.
-/
import Milp.Proofs.Activity

namespace Milp

/-! ## Columns -/

namespace Column

variable {c : Column Exact} {r i : Nat}

/-- Adding a value changes one entry. -/
theorem entry_add (hc : c.Sorted) (r : Nat) (v : Exact) (i : Nat) :
    (add r v c).entry i = if i = r then c.entry i + v else c.entry i := by
  induction c with
  | nil =>
    rw [add, entry_cons]
    split
    · exact (Exact.zero_add v).symm
    · rfl
  | cons e rest ih =>
    obtain ⟨k, w⟩ := e
    obtain ⟨hfirst, hrest⟩ := List.pairwise_cons.1 hc
    rw [add]
    split
    · -- the row comes before all that are stored
      rename_i hlt
      rw [entry_cons r]
      split
      · rename_i hi
        have hbefore : ∀ e ∈ (k, w) :: rest, i < e.1 := by
          rintro e (_ | ⟨_, he⟩)
          · exact hi ▸ hlt
          · exact hi ▸ lt_trans hlt (hfirst e he)
        rw [entry_of_lt hbefore, Exact.zero_add]
      · rfl
    · split
      · rename_i hrk
        subst hrk
        rw [entry_cons, entry_cons]
        split <;> rfl
      · rename_i hne
        rw [entry_cons, entry_cons, ih hrest]
        by_cases hik : i = k
        · rw [if_pos hik, if_pos hik, if_neg (fun hir => hne (hir.symm.trans hik))]
        · rw [if_neg hik, if_neg hik]

/-- Adding values one after the other adds up those of a row. -/
theorem entry_addAll (hc : c.Sorted) (cells : List (Nat × Exact)) (i : Nat) :
    (addAll c cells).entry i =
      ((cells.filter fun e => e.1 = i).map Prod.snd).foldl (· + ·) (c.entry i) := by
  induction cells generalizing c with
  | nil => rfl
  | cons e rest ih =>
    rw [addAll, ih (sorted_add e.1 e.2 hc), entry_add hc, List.filter_cons]
    by_cases hi : e.1 = i
    · simp [hi]
    · simp [hi, Ne.symm hi]

theorem entry_collect (triplets : List (Nat × Nat × Exact)) (j i : Nat) :
    (collect triplets j).entry i =
      ((triplets.filter fun t => t.1 = i ∧ t.2.1 = j).map fun t => t.2.2).foldl (· + ·) 0 := by
  rw [collect, entry_addAll List.Pairwise.nil, List.filter_map, List.map_map, List.filter_filter]
  simp only [Function.comp_def, Bool.decide_and]
  rfl

end Column

/-! ## Cells -/

/-- A sum is finite only if its terms are. -/
theorem Exact.isFinite_of_foldl_add {xs : List Exact} {a : Exact}
    (h : Scalar.isFinite (xs.foldl (· + ·) a) = true) :
    Scalar.isFinite a = true ∧ ∀ x ∈ xs, Scalar.isFinite x = true := by
  induction xs generalizing a with
  | nil => exact ⟨h, nofun⟩
  | cons x xs ih =>
    obtain ⟨hsum, hxs⟩ := ih h
    have hboth : Scalar.isFinite a = true ∧ Scalar.isFinite x = true := by
      cases a <;> cases x <;> first | exact ⟨rfl, rfl⟩ | cases hsum
    exact ⟨hboth.1, List.forall_mem_cons.2 ⟨hboth.2, hxs⟩⟩

namespace Matrix

variable {rows cols : Nat} {triplets : List (Nat × Nat × Exact)} {A : Matrix Exact}

/-- The sum of the triplets of a cell. -/
def tripletSum (triplets : List (Nat × Nat × Exact)) (i j : Nat) : Rat :=
  ((triplets.filter fun t => t.1 = i ∧ t.2.1 = j).map fun t => t.2.2.rat).sum

/-- The triplets of a row, each times the value of its variable, added up. -/
def tripletRow (triplets : List (Nat × Nat × Exact)) (x : List Exact) (i : Nat) : Rat :=
  ((triplets.filter fun t => t.1 = i).map fun t => t.2.2.rat * (x.getD t.2.1 0).rat).sum

theorem ofTriplets_eq_ok : ofTriplets rows cols triplets = .ok A ↔
    (∀ t ∈ triplets, t.1 < rows ∧ t.2.1 < cols) ∧ A.rows = rows ∧ A.cols = cols ∧
      A.columns = (List.range cols).map (Column.collect (arrange triplets)) := by
  unfold ofTriplets
  split
  · rename_i hrange
    constructor
    · rintro ⟨⟩
      exact ⟨hrange, rfl, rfl, rfl⟩
    · rintro ⟨-, hrows, hcols, hcolumns⟩
      cases A
      simp only at hrows hcols hcolumns
      subst hrows hcols hcolumns
      rfl
  · rename_i hrange
    exact iff_of_false nofun fun h => hrange h.1

theorem cell_ofTriplets (h : ofTriplets rows cols triplets = .ok A) (i : Nat) {j : Nat}
    (hj : j < cols) : A.cell i j =
      (((arrange triplets).filter fun t => t.1 = i ∧ t.2.1 = j).map fun t => t.2.2).foldl
        (· + ·) 0 := by
  have hcolumn : A.columns.getD j [] = Column.collect (arrange triplets) j := by
    rw [(ofTriplets_eq_ok.1 h).2.2.2, List.getD_eq_getElem _ _ (by simpa using hj)]
    simp
  rw [← Column.entry_collect, ← hcolumn]
  rfl

/-- If the cells are finite then so are the triplets, and a cell holds the sum of its triplets. -/
theorem cell_eq_tripletSum (h : ofTriplets rows cols triplets = .ok A)
    (hfinite : ∀ i j, Scalar.isFinite (A.cell i j) = true) (i : Nat) {j : Nat} (hj : j < cols) :
    A.cell i j = .fin (tripletSum triplets i j) := by
  have hcell := cell_ofTriplets h i hj
  have hterms := (Exact.isFinite_of_foldl_add (hcell ▸ hfinite i j)).2
  have hperm : (((arrange triplets).filter fun t => t.1 = i ∧ t.2.1 = j).map
      fun t => t.2.2.rat).Perm
        ((triplets.filter fun t => t.1 = i ∧ t.2.1 = j).map fun t => t.2.2.rat) :=
    ((presort_perm cellBefore triplets).filter _).map _
  rw [hcell, Exact.zero_eq, Exact.foldl_fin (g := Exact.rat) fun b x hx => ?_, List.map_map,
    zero_add, tripletSum, ← hperm.sum_eq]
  · rfl
  · obtain ⟨q, rfl⟩ := Exact.isFinite_iff.1 (hterms x hx)
    rfl

theorem tripletSum_cons (t : Nat × Nat × Exact) (i j : Nat) :
    tripletSum (t :: triplets) i j =
      (if t.1 = i ∧ t.2.1 = j then t.2.2.rat else 0) + tripletSum triplets i j := by
  unfold tripletSum
  rw [List.filter_cons]
  by_cases h : t.1 = i ∧ t.2.1 = j
  · rw [if_pos (decide_eq_true h), if_pos h, List.map_cons, List.sum_cons]
  · rw [if_neg (mt of_decide_eq_true h), if_neg h, zero_add]

theorem tripletRow_cons (t : Nat × Nat × Exact) (x : List Exact) (i : Nat) :
    tripletRow (t :: triplets) x i =
      (if t.1 = i then t.2.2.rat * (x.getD t.2.1 0).rat else 0) + tripletRow triplets x i := by
  unfold tripletRow
  rw [List.filter_cons]
  by_cases h : t.1 = i
  · rw [if_pos (decide_eq_true h), if_pos h, List.map_cons, List.sum_cons]
  · rw [if_neg (mt of_decide_eq_true h), if_neg h, zero_add]

/-- Adding up by row is adding up by cell. -/
theorem tripletRow_vector {n : Nat} (h : ∀ t ∈ triplets, t.2.1 < n) (x : Fin n → Rat) (i : Nat) :
    tripletRow triplets (Exact.vector x) i = ∑ j : Fin n, tripletSum triplets i j * x j := by
  induction triplets with
  | nil => simp [tripletRow, tripletSum]
  | cons t rest ih =>
    obtain ⟨ht, hrest⟩ := List.forall_mem_cons.1 h
    have hvalue : ((Exact.vector x).getD t.2.1 0).rat = x ⟨t.2.1, ht⟩ := by
      rw [List.getD_eq_getElem _ _ (by simpa using ht), Exact.getElem_vector, Exact.rat_fin]
    -- the triplet is in one column
    have hcolumn : ∑ j : Fin n, (if t.1 = i ∧ t.2.1 = j then t.2.2.rat else 0) * x j =
        if t.1 = i then t.2.2.rat * x ⟨t.2.1, ht⟩ else 0 := by
      rw [Finset.sum_eq_single ⟨t.2.1, ht⟩]
      · by_cases hi : t.1 = i <;> simp [hi]
      · intro j _ hne
        rw [if_neg fun hj => hne (Fin.ext hj.2.symm), zero_mul]
      · exact fun hnot => absurd (Finset.mem_univ _) hnot
    simp only [tripletRow_cons, tripletSum_cons, add_mul, Finset.sum_add_distrib, hcolumn, hvalue,
      ih hrest]

end Matrix

namespace Program

/-- The left-hand side of a row is that of its triplets. -/
theorem activity_eq_tripletRow {P : Program Exact} {triplets : List (Nat × Nat × Exact)}
    (hmatrix : Matrix.ofTriplets P.height P.vars triplets = .ok P.matrix) (h : P.Valid)
    (x : Fin P.vars → Rat) (i : Nat) :
    P.activity x i = Matrix.tripletRow triplets (Exact.vector x) i := by
  have hcols := fun t ht => ((Matrix.ofTriplets_eq_ok.1 hmatrix).1 t ht).2
  rw [activity, Matrix.tripletRow_vector hcols]
  refine Finset.sum_congr rfl fun j _ => ?_
  rw [Matrix.cell_eq_tripletSum hmatrix h.finite_cell i j.isLt, Exact.rat_fin]

end Program

end Milp
