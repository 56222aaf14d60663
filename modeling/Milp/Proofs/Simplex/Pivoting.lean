/-
  Tableaus over the rationals, and what a pivot keeps.

  * `Tableau.cell`, `level`, `basic`, `reduced`: the entries of a tableau.
  * `Tableau.Holds`: a vector satisfies the rows; `Tableau.cost`: its objective.  A pivot changes
    neither.
  * `Tableau.Canonical`: the basic columns are unit vectors; `Tableau.Ready`: moreover the right-hand
    sides are not negative, and the basic columns cost nothing.
  * `Tableau.point`: the basic solution; `Tableau.direction`: how it moves if a column enters.
-/
import Mathlib
import Milp.Scalar.Exact
import Milp.Simplex.Tableau

namespace Milp

/-! ## Entries of vectors -/

section Vectors

variable {α β γ : Type} {n : Nat}

@[simp] theorem Vector.get_zipWith (v : Vector α n) (u : Vector β n) (f : α → β → γ) (i : Fin n) :
    (Vector.zipWith f v u).get i = f (v.get i) (u.get i) :=
  Vector.getElem_zipWith i.isLt

theorem Vector.get_set (v : Vector α n) (a : α) (i j : Fin n) :
    (v.set i a i.isLt).get j = if j = i then a else v.get j := by
  refine (Vector.getElem_set i.isLt j.isLt).trans ?_
  simp only [Fin.ext_iff, eq_comm]
  rfl

end Vectors

/-! ## Going through a list -/

section Lists

variable {α σ : Type} {xs : List α} {x : α}

theorem forall_mem_concat {p : α → Prop} (hxs : ∀ a ∈ xs, p a) (hx : p x) : ∀ a ∈ xs ++ [x], p a :=
  List.forall_mem_append.2 ⟨hxs, List.forall_mem_singleton.2 hx⟩

/-- What every step of a fold keeps for the entries done so far. -/
theorem foldl_done {f : σ → α → σ} {I : List α → σ → Prop}
    (hstep : ∀ done s a, I done s → I (done ++ [a]) (f s a)) {s : σ} (h : I [] s) (xs : List α) :
    I xs (xs.foldl f s) := by
  have hfold : ∀ (todo done : List α) (s : σ), I done s → I (done ++ todo) (todo.foldl f s) := by
    intro todo
    induction todo with
    | nil => intro done s hs; simpa using hs
    | cons a todo ih =>
      intro done s hs
      simpa using ih (done ++ [a]) _ (hstep done s a hs)
  exact hfold xs [] s h

end Lists

/-! ## Rational scalars -/

@[simp] theorem Rational.zero_eq : @OfNat.ofNat Rat 0 (naturalLiteral 0) = 0 := by
  show Rational.ofDecimal 0 false 0 = 0
  rfl

namespace Simplex

variable {F : Type} {m w : Nat}

/-- No tolerance is given. -/
structure Options.Untolerant (opts : Options Rat) : Prop where
  pivot : opts.pivot = 0
  optimality : opts.optimality = 0
  tie : opts.tie = 0
  roundOff : opts.roundOff = 0

variable {opts : Options Rat}

/-- A right-hand side is settled only within the tolerance. -/
theorem Row.settle_eq (h : opts.roundOff = 0) (row : Row Rat w) :
    row.settle opts.roundOff = row := by
  have hnot : ¬ (row.rhs < 0 ∧ 0 < row.rhs) := fun h => lt_asymm h.1 h.2
  simp only [Row.settle, h, Rational.zero_eq, neg_zero, Bool.and_eq_true, decide_eq_true_eq, hnot]
  rfl

theorem Row.basic_settle [Scalar F] (roundOff : F) (row : Row F w) :
    (row.settle roundOff).basic = row.basic := by
  unfold Row.settle
  split <;> rfl

theorem Row.basic_eliminate [Scalar F] (row pivot : Row F w) (col : Fin w) :
    (row.eliminate pivot col).basic = row.basic := by
  simp only [Row.eliminate]
  split <;> rfl

namespace Tableau

/-! ## Entries -/

/-- The entry of a row in a column. -/
def cell (T : Tableau F m w) (i : Fin m) (j : Fin w) : F := (T.rows.get i).cells.get j

/-- The right-hand side of a row. -/
def level (T : Tableau F m w) (i : Fin m) : F := (T.rows.get i).rhs

/-- The basic column of a row. -/
def basic (T : Tableau F m w) (i : Fin m) : Fin w := (T.rows.get i).basic

/-- The reduced cost of a column. -/
def reduced (T : Tableau F m w) (j : Fin w) : F := T.objective.reduced.get j

/-- The set of the basic columns. -/
def basis (T : Tableau F m w) : Finset (Fin w) := Finset.univ.image T.basic

theorem mem_basis {T : Tableau F m w} {j : Fin w} : j ∈ T.basis ↔ ∃ i, T.basic i = j := by
  simp [basis]

/-- The pivot row has the column as its basic one, and the others keep theirs. -/
theorem basic_pivot [Scalar F] (opts : Options F) (T : Tableau F m w) (r : Fin m) (c : Fin w)
    (i : Fin m) : (T.pivot opts r c).basic i = if i = r then c else T.basic i := by
  simp only [basic, pivot, Vector.get_ofFn, Row.basic_settle]
  split
  · rfl
  · exact Row.basic_eliminate _ _ _

/-- The next pivot is in the column that enters and the row that leaves. -/
theorem entering_leaving_of_choose [Scalar F] {opts : Options F} {T : Tableau F m w}
    {p : Fin m × Fin w} (h : T.choose opts = .ok p) :
    T.entering opts = some p.2 ∧ T.leaving opts p.2 = some p.1 := by
  unfold choose at h
  split at h
  · cases h
  · rename_i hentering
    split at h
    · cases h
    · rename_i hleaving
      cases h
      exact ⟨hentering, hleaving⟩

variable {T : Tableau Rat m w} {r : Fin m} {c : Fin w} {y z : Fin w → Rat}

/-! ## A pivot, entry by entry -/

section Entries

variable (T) (hopts : opts.Untolerant)

include hopts

theorem rows_pivot (r : Fin m) (c : Fin w) (i : Fin m) : (T.pivot opts r c).rows.get i =
    if i = r then (T.rows.get r).normalize c
    else (T.rows.get i).eliminate ((T.rows.get r).normalize c) c := by
  simp only [pivot, Vector.get_ofFn]
  exact Row.settle_eq hopts.roundOff _

theorem level_pivot (r : Fin m) (c : Fin w) (i : Fin m) : (T.pivot opts r c).level i =
    if i = r then T.level r / T.cell r c
    else T.level i - T.cell i c * (T.level r / T.cell r c) := by
  rw [level, rows_pivot T hopts]
  split
  · rfl
  · simp only [Row.eliminate, Row.normalize]
    split
    · rename_i hzero
      have hzero : T.cell i c = 0 := by simpa [cell] using hzero
      rw [hzero, zero_mul, sub_zero]
      rfl
    · rfl

/-- The pivot row is divided by its element, and the others become zero in its column. -/
theorem cell_pivot (hne : T.cell r c ≠ 0) (i : Fin m) (j : Fin w) :
    (T.pivot opts r c).cell i j =
      if i = r then T.cell r j / T.cell r c
      else T.cell i j - T.cell i c * (T.cell r j / T.cell r c) := by
  rw [cell, rows_pivot T hopts]
  split
  · simp [Row.normalize, cell]
  · simp only [Row.eliminate, Row.normalize]
    split
    · rename_i hzero
      have hzero : T.cell i c = 0 := by simpa [cell] using hzero
      rw [hzero, zero_mul, sub_zero]
      rfl
    · rw [Vector.get_set]
      split
      · subst_vars
        rw [div_self hne, mul_one, sub_self, Rational.zero_eq]
      · simp
        rfl

omit hopts in
theorem reduced_pivot (opts : Options Rat) (hne : T.cell r c ≠ 0) (j : Fin w) :
    (T.pivot opts r c).reduced j = T.reduced j - T.reduced c * (T.cell r j / T.cell r c) := by
  simp only [reduced, pivot, CostRow.eliminate]
  split
  · rename_i hzero
    have hzero : T.objective.reduced.get c = 0 := by simpa using hzero
    rw [hzero, zero_mul, sub_zero]
  · rw [Vector.get_set]
    split
    · subst_vars
      rw [div_self hne, mul_one, sub_self, Rational.zero_eq]
    · simp [CostRow.subtract, Row.normalize, cell]

omit hopts in
theorem value_pivot (opts : Options Rat) (r : Fin m) (c : Fin w) : (T.pivot opts r c).value =
    T.value + T.reduced c * (T.level r / T.cell r c) := by
  simp only [value, pivot, CostRow.eliminate]
  split
  · rename_i hzero
    have hzero : T.reduced c = 0 := by simpa [reduced] using hzero
    rw [hzero, zero_mul, add_zero]
  · show -(T.objective.negated - T.reduced c * (T.level r / T.cell r c)) = _
    ring

end Entries

/-! ## Rows and objective at a vector -/

/-- The left-hand side of a row at a vector. -/
def lhs (T : Tableau Rat m w) (i : Fin m) (y : Fin w → Rat) : Rat := ∑ j, T.cell i j * y j

/-- A vector satisfies the rows. -/
def Holds (T : Tableau Rat m w) (y : Fin w → Rat) : Prop := ∀ i, T.lhs i y = T.level i

/-- The part of the objective that depends on the vector. -/
def priceOf (T : Tableau Rat m w) (y : Fin w → Rat) : Rat := ∑ j, T.reduced j * y j

/-- The objective at a vector, from the reduced costs. -/
def cost (T : Tableau Rat m w) (y : Fin w → Rat) : Rat := T.priceOf y + T.value

theorem lhs_pivot (hopts : opts.Untolerant) (hne : T.cell r c ≠ 0) (i : Fin m)
    (y : Fin w → Rat) : (T.pivot opts r c).lhs i y =
      if i = r then T.lhs r y / T.cell r c else T.lhs i y - T.cell i c * (T.lhs r y / T.cell r c) := by
  simp only [lhs, cell_pivot T hopts hne]
  split
  · rw [Finset.sum_div]
    exact Finset.sum_congr rfl fun j _ => by ring
  · rw [Finset.sum_div, Finset.mul_sum, ← Finset.sum_sub_distrib]
    exact Finset.sum_congr rfl fun j _ => by ring

theorem priceOf_pivot (opts : Options Rat) (hne : T.cell r c ≠ 0) (y : Fin w → Rat) :
    (T.pivot opts r c).priceOf y = T.priceOf y - T.reduced c * (T.lhs r y / T.cell r c) := by
  simp only [priceOf, lhs, reduced_pivot T opts hne]
  rw [Finset.sum_div, Finset.mul_sum, ← Finset.sum_sub_distrib]
  exact Finset.sum_congr rfl fun j _ => by ring

/-- A pivot changes the rows, but not the vectors that satisfy them. -/
theorem holds_pivot (hopts : opts.Untolerant) (hne : T.cell r c ≠ 0) :
    (T.pivot opts r c).Holds y ↔ T.Holds y := by
  simp only [Holds, lhs_pivot hopts hne, level_pivot T hopts]
  constructor
  · intro h i
    have hr : T.lhs r y = T.level r := by
      have := h r
      rw [if_pos rfl, if_pos rfl] at this
      exact (div_left_inj' hne).1 this
    by_cases hi : i = r
    · rw [hi, hr]
    · have := h i
      rw [if_neg hi, if_neg hi, hr] at this
      exact sub_left_inj.1 this
  · intro h i
    rw [h i, h r]

/-- A pivot changes the reduced costs, but not the objective. -/
theorem cost_pivot (opts : Options Rat) (hne : T.cell r c ≠ 0) (hy : T.Holds y) :
    (T.pivot opts r c).cost y = T.cost y := by
  rw [cost, priceOf_pivot opts hne, value_pivot, hy r, cost]
  ring

/-! ## Canonical tableaus -/

/-- The basic columns are unit vectors, each in its row. -/
def Canonical (T : Tableau Rat m w) : Prop :=
  ∀ i i', T.cell i (T.basic i') = if i = i' then 1 else 0

theorem Canonical.injective (hT : T.Canonical) : Function.Injective T.basic := by
  intro i i' h
  by_contra hne
  have hone := hT i i
  rw [h, hT i i', if_neg hne, if_pos rfl] at hone
  exact zero_ne_one hone

theorem Canonical.pivot (hT : T.Canonical) (hopts : opts.Untolerant) (hne : T.cell r c ≠ 0) :
    (T.pivot opts r c).Canonical := by
  intro i i'
  rw [basic_pivot, cell_pivot T hopts hne]
  by_cases hi' : i' = r
  · rw [if_pos hi', div_self hne, mul_one, sub_self, hi']
  · -- the column of another row is zero in the pivot row
    rw [if_neg hi', hT r i', if_neg (Ne.symm hi'), zero_div, mul_zero, sub_zero, hT i i']
    by_cases hi : i = r
    · rw [if_pos hi, if_neg (fun h => hi' (h.symm.trans hi))]
    · rw [if_neg hi]

/-- The column that becomes basic is priced out, and the other basic columns stay so. -/
theorem Canonical.priced_pivot (hT : T.Canonical) (hpriced : ∀ i, T.reduced (T.basic i) = 0)
    (opts : Options Rat) (hne : T.cell r c ≠ 0) (i : Fin m) :
    (T.pivot opts r c).reduced ((T.pivot opts r c).basic i) = 0 := by
  rw [basic_pivot, reduced_pivot T opts hne]
  by_cases hi : i = r
  · rw [if_pos hi, div_self hne, mul_one, sub_self]
  · rw [if_neg hi, hpriced, hT r i, if_neg (Ne.symm hi), zero_div, mul_zero, sub_zero]

/-- A canonical tableau at a feasible point, with an objective that is priced out. -/
structure Ready (T : Tableau Rat m w) : Prop where
  canonical : T.Canonical
  nonneg : ∀ i, 0 ≤ T.level i
  priced : ∀ i, T.reduced (T.basic i) = 0

/-- The row that an entering column is exchanged in: no other row blocks it earlier. -/
structure Blocks (T : Tableau Rat m w) (r : Fin m) (c : Fin w) : Prop where
  pos : 0 < T.cell r c
  least : ∀ i, 0 < T.cell i c → T.level r / T.cell r c ≤ T.level i / T.cell i c

/-- A row that no other row blocks earlier keeps right-hand sides from becoming negative. -/
theorem Blocks.level_pivot_nonneg (hr : T.Blocks r c) (hopts : opts.Untolerant)
    (hnonneg : ∀ i, 0 ≤ T.level i) (i : Fin m) : 0 ≤ (T.pivot opts r c).level i := by
  have hratio : 0 ≤ T.level r / T.cell r c := div_nonneg (hnonneg r) (le_of_lt hr.pos)
  rw [level_pivot T hopts]
  split
  · exact hratio
  · rcases le_or_gt (T.cell i c) 0 with hle | hpos
    · have := mul_nonpos_of_nonpos_of_nonneg hle hratio
      linarith [hnonneg i]
    · have := (le_div_iff₀ hpos).1 (hr.least i hpos)
      linarith [mul_comm (T.cell i c) (T.level r / T.cell r c)]

theorem Ready.pivot (hT : T.Ready) (hopts : opts.Untolerant) (hr : T.Blocks r c) :
    (T.pivot opts r c).Ready := by
  have hne : T.cell r c ≠ 0 := ne_of_gt hr.pos
  exact ⟨hT.canonical.pivot hopts hne, hr.level_pivot_nonneg hopts hT.nonneg,
    hT.canonical.priced_pivot hT.priced opts hne⟩

/-! ## The basic solution -/

/-- The basic solution: the value of every column. -/
def point (T : Tableau Rat m w) (j : Fin w) : Rat := T.primal.get j

/-- Writing values to distinct places, each can be read back. -/
theorem get_foldl_set {rows : List (Row Rat w)} (hnodup : (rows.map Row.basic).Nodup)
    (y : Vector Rat w) (j : Fin w) :
    (∀ row ∈ rows, row.basic = j →
      (rows.foldl (fun y row => y.set row.basic row.rhs row.basic.isLt) y).get j = row.rhs) ∧
    ((∀ row ∈ rows, row.basic ≠ j) →
      (rows.foldl (fun y row => y.set row.basic row.rhs row.basic.isLt) y).get j = y.get j) := by
  induction rows generalizing y with
  | nil => simp
  | cons row rows ih =>
    rw [List.map_cons, List.nodup_cons] at hnodup
    obtain ⟨hfirst, hlater⟩ := ih hnodup.2 (y.set row.basic row.rhs row.basic.isLt)
    rw [List.foldl_cons]
    constructor
    · intro other hmem hj
      rcases List.mem_cons.1 hmem with rfl | hmem
      · rw [hlater fun row' hrow' h => hnodup.1 (hj ▸ h ▸ List.mem_map_of_mem hrow'),
          Vector.get_set, if_pos hj.symm]
      · exact hfirst other hmem hj
    · intro hnone
      rw [hlater fun row' hrow' => hnone row' (List.mem_cons_of_mem _ hrow'), Vector.get_set,
        if_neg (Ne.symm (hnone row List.mem_cons_self))]

theorem basic_nodup (hT : T.Canonical) : (T.rows.toList.map Row.basic).Nodup := by
  have hlist : T.rows.toList.map Row.basic = (List.finRange m).map T.basic := by
    refine List.ext_getElem (by simp) fun i h₁ h₂ => ?_
    simp [basic, Vector.get_eq_getElem]
  rw [hlist]
  exact (List.nodup_finRange m).map hT.injective

/-- A basic column has the value of its row. -/
@[simp] theorem point_basic (hT : T.Canonical) (i : Fin m) : T.point (T.basic i) = T.level i :=
  (get_foldl_set (basic_nodup hT) _ _).1 _ (Vector.mem_toList_iff.2 (Vector.getElem_mem i.isLt)) rfl

/-- A column that is not basic has the value zero. -/
theorem point_eq_zero (hT : T.Canonical) {j : Fin w} (hj : j ∉ T.basis) : T.point j = 0 := by
  refine ((get_foldl_set (basic_nodup hT) _ _).2 fun row hrow h => hj ?_).trans (by simp)
  obtain ⟨i, hi, rfl⟩ := List.getElem_of_mem hrow
  exact mem_basis.2 ⟨⟨i, by simpa using hi⟩, by simpa [basic, Vector.get_eq_getElem] using h⟩

theorem point_nonneg (hT : T.Ready) (j : Fin w) : 0 ≤ T.point j := by
  by_cases hj : j ∈ T.basis
  · obtain ⟨i, rfl⟩ := mem_basis.1 hj
    rw [point_basic hT.canonical]
    exact hT.nonneg i
  · rw [point_eq_zero hT.canonical hj]

/-- A vector that is zero off the basis is read off by the basic columns. -/
theorem lhs_of_zero (hT : T.Canonical) (hy : ∀ j ∉ T.basis, y j = 0) (i : Fin m) :
    T.lhs i y = y (T.basic i) := by
  have hterm : ∀ j, T.cell i j * y j = if j = T.basic i then y j else 0 := by
    intro j
    by_cases hj : j ∈ T.basis
    · obtain ⟨i', rfl⟩ := mem_basis.1 hj
      rw [hT i i']
      by_cases hi : i = i'
      · rw [hi, if_pos rfl, if_pos rfl, one_mul]
      · rw [if_neg hi, if_neg fun h => hi (hT.injective h).symm, zero_mul]
    · rw [hy j hj, mul_zero]
      split <;> rfl
  simp only [lhs, hterm]
  simp

theorem holds_point (hT : T.Canonical) : T.Holds T.point := fun i => by
  rw [lhs_of_zero hT (fun j hj => point_eq_zero hT hj), point_basic hT]

/-- The basic solution is the only one that is zero off the basis. -/
theorem eq_point (hT : T.Canonical) (hy : T.Holds y) (hzero : ∀ j ∉ T.basis, y j = 0) :
    y = T.point := by
  funext j
  by_cases hj : j ∈ T.basis
  · obtain ⟨i, rfl⟩ := mem_basis.1 hj
    rw [point_basic hT, ← hy i, lhs_of_zero hT hzero]
  · rw [hzero j hj, point_eq_zero hT hj]

/-- A vector that is zero off the basis costs nothing once the basic columns are priced out. -/
theorem priceOf_of_zero (hpriced : ∀ i, T.reduced (T.basic i) = 0) (hy : ∀ j ∉ T.basis, y j = 0) :
    T.priceOf y = 0 := by
  refine Finset.sum_eq_zero fun j _ => ?_
  by_cases hj : j ∈ T.basis
  · obtain ⟨i, rfl⟩ := mem_basis.1 hj
    rw [hpriced, zero_mul]
  · rw [hy j hj, mul_zero]

/-- The objective at the basic solution. -/
theorem cost_point (hT : T.Ready) : T.cost T.point = T.value := by
  rw [cost, priceOf_of_zero hT.priced fun _ => point_eq_zero hT.canonical, zero_add]

/-! ## The direction of an entering column -/

/-- How the columns change if a column grows by one and the basic ones make up for it. -/
def direction (T : Tableau Rat m w) (c j : Fin w) : Rat :=
  (if j = c then 1 else 0) - ∑ i, if T.basic i = j then T.cell i c else 0

/-- A linear function along the direction of a column. -/
theorem sum_mul_direction (T : Tableau Rat m w) (g : Fin w → Rat) (c : Fin w) :
    ∑ j, g j * T.direction c j = g c - ∑ i, g (T.basic i) * T.cell i c := by
  simp only [direction, mul_sub, Finset.sum_sub_distrib, Finset.mul_sum]
  rw [Finset.sum_comm]
  congr 1
  · simp
  · refine Finset.sum_congr rfl fun i _ => ?_
    simp

/-- The rows do not change along the direction of a column. -/
theorem lhs_direction (hT : T.Canonical) (c : Fin w) (i : Fin m) :
    T.lhs i (T.direction c) = 0 := by
  rw [lhs, sum_mul_direction]
  simp [hT i]

/-- The objective changes along it by the reduced cost of the column. -/
theorem priceOf_direction (hT : T.Ready) (c : Fin w) :
    T.priceOf (T.direction c) = T.reduced c := by
  rw [priceOf, sum_mul_direction]
  simp [hT.priced]

/-- A multiple of a vector that changes no row may be added. -/
theorem Holds.add_mul (hy : T.Holds y) (hz : ∀ i, T.lhs i z = 0) (t : Rat) :
    T.Holds fun j => y j + t * z j := by
  intro i
  have hsum : T.lhs i (fun j => y j + t * z j) = T.lhs i y + t * T.lhs i z := by
    simp only [lhs, mul_add, Finset.sum_add_distrib, Finset.mul_sum]
    congr 1
    exact Finset.sum_congr rfl fun j _ => by ring
  rw [hsum, hy i, hz i, mul_zero, add_zero]

theorem cost_add_mul (T : Tableau Rat m w) (y z : Fin w → Rat) (t : Rat) :
    T.cost (fun j => y j + t * z j) = T.cost y + t * T.priceOf z := by
  simp only [cost, priceOf, mul_add, Finset.sum_add_distrib, Finset.mul_sum]
  have hterm : ∀ j, T.reduced j * (t * z j) = t * (T.reduced j * z j) := fun j => by ring
  simp only [hterm]
  ring

/-! ## Installing a cost -/

/-- Pricing out one row. -/
theorem reduced_price (z : CostRow Rat w) (row : Row Rat w) (j : Fin w) :
    (z.price row).reduced.get j = z.reduced.get j - z.reduced.get row.basic * row.cells.get j := by
  simp only [CostRow.price]
  split
  · rename_i hzero
    have hzero : z.reduced.get row.basic = 0 := by simpa using hzero
    rw [hzero, zero_mul, sub_zero]
  · simp [CostRow.subtract]

theorem negated_price (z : CostRow Rat w) (row : Row Rat w) :
    (z.price row).negated = z.negated - z.reduced.get row.basic * row.rhs := by
  simp only [CostRow.price]
  split
  · rename_i hzero
    have hzero : z.reduced.get row.basic = 0 := by simpa using hzero
    rw [hzero, zero_mul, sub_zero]
  · rfl

/-- Pricing out some rows of a canonical tableau, one by one. -/
theorem foldl_price (hT : T.Canonical) (rows : List (Fin m)) (z : CostRow Rat w) :
    (∀ i, i ∈ rows ∨ z.reduced.get (T.basic i) = 0 →
      (rows.foldl (fun z i => z.price (T.rows.get i)) z).reduced.get (T.basic i) = 0) ∧
    ∀ y, T.Holds y →
      ∑ j, (rows.foldl (fun z i => z.price (T.rows.get i)) z).reduced.get j * y j -
        (rows.foldl (fun z i => z.price (T.rows.get i)) z).negated =
      ∑ j, z.reduced.get j * y j - z.negated := by
  induction rows generalizing z with
  | nil => simp
  | cons i' rows ih =>
    obtain ⟨hpriced, hsum⟩ := ih (z.price (T.rows.get i'))
    rw [List.foldl_cons]
    constructor
    · intro i hi
      refine hpriced i (or_iff_not_imp_left.2 fun hnot => ?_)
      have hcell : (T.rows.get i').cells.get (T.basic i) = if i' = i then 1 else 0 := hT i' i
      rw [reduced_price, hcell]
      by_cases heq : i' = i
      · rw [if_pos heq, mul_one, heq]
        exact sub_self _
      · rw [if_neg heq, mul_zero, sub_zero]
        refine hi.resolve_left fun hmem => ?_
        exact (List.mem_cons.1 hmem).elim (fun h => heq h.symm) hnot
    · intro y hy
      have hrow : ∑ j, (T.rows.get i').cells.get j * y j = (T.rows.get i').rhs := hy i'
      rw [hsum y hy, negated_price, ← hrow, Finset.mul_sum]
      simp only [reduced_price, sub_mul, Finset.sum_sub_distrib]
      have hterm : ∀ j, z.reduced.get (T.rows.get i').basic * (T.rows.get i').cells.get j * y j =
          z.reduced.get (T.rows.get i').basic * ((T.rows.get i').cells.get j * y j) := fun j => by
        ring
      simp only [hterm]
      ring

theorem setCost_eq (T : Tableau Rat m w) (q : Vector Rat w) : T.setCost q = { T with
    objective := (List.finRange m).foldl (fun z i => z.price (T.rows.get i)) ⟨q, 0⟩ } := by
  have hlist : T.rows.toList = (List.finRange m).map T.rows.get :=
    List.ext_getElem (by simp) fun i h₁ h₂ => by simp [Vector.get_eq_getElem]
  rw [setCost, hlist, List.foldl_map, Rational.zero_eq]

/-- A cost is installed by pricing out the basic columns. -/
theorem priced_setCost (hT : T.Canonical) (q : Vector Rat w) (i : Fin m) :
    (T.setCost q).reduced ((T.setCost q).basic i) = 0 := by
  rw [setCost_eq]
  exact (foldl_price hT _ _).1 i (.inl (List.mem_finRange i))

theorem ready_setCost (hT : T.Canonical) (hnonneg : ∀ i, 0 ≤ T.level i) (q : Vector Rat w) :
    (T.setCost q).Ready :=
  ⟨hT, hnonneg, priced_setCost hT q⟩

/-- The objective is the cost that was installed. -/
theorem cost_setCost (hT : T.Canonical) (q : Vector Rat w) (hy : T.Holds y) :
    (T.setCost q).cost y = ∑ j, q.get j * y j := by
  have hsum := (foldl_price hT (List.finRange m) ⟨q, 0⟩).2 y hy
  rw [setCost_eq]
  simp only [sub_zero] at hsum
  rw [← hsum]
  exact (sub_eq_add_neg _ _).symm

end Tableau
end Simplex
end Milp
