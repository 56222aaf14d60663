/-
  The equality form of a dense program, over the rationals.

  A valuation gives a value to every structural column.  The values of the variables come from those
  of their columns, and every point within the bounds comes from some valuation.

  * `Substitution.value`, `Substitution.part`: a variable from its columns, and back.
  * `DenseProgram.Regular`: rational coefficients, and bounds between which there is room.
  * `DenseProgram.Admits`: the points of a dense program.
  * `admits_point`, `exists_valuation`: they are the valuations that meet the open rows.
  * `cost_columns`: the cost of the columns; `recover_columns`: the point that is read off them.
-/
import Milp.Proofs.Simplex.Layout

namespace Milp

namespace Simplex

variable {m n : Nat}

/-! ## Variables and their columns -/

/-- The sign with which a column counts. -/
def Source.sign (s : Source n) : Rat := if s.negated then -1 else 1

namespace Substitution

/-- The part of the value of a variable that no column carries. -/
def shift : Substitution Exact → Rat
  | shifted offset | reflected offset => offset.rat
  | split => 0

/-- The value of a variable from those of its columns. -/
def value (s : Substitution Exact) (j : Fin n) (val : Source n → Rat) : Rat :=
  s.shift + ((s.sources j).map fun c => c.sign * val c).sum

/-- The value of a column from that of its variable. -/
def part : Substitution Exact → Bool → Rat → Rat
  | shifted offset, _, x => x - offset.rat
  | reflected offset, _, x => offset.rat - x
  | split, false, x => max x 0
  | split, true, x => max (-x) 0

variable {s : Substitution Exact} {j : Fin n} {c : Source n} {val : Source n → Rat}

theorem var_of_mem (h : c ∈ s.sources j) : c.var = j := by
  cases s <;> simp [sources] at h
  · rw [h]
  · rw [h]
  · rcases h with rfl | rfl <;> rfl

theorem nodup_sources (s : Substitution Exact) (j : Fin n) : (s.sources j).Nodup := by
  cases s <;> simp [sources]

/-- The columns of a variable with the parts of a value give that value back. -/
theorem value_of_part {x : Rat} (hval : ∀ c ∈ s.sources j, val c = s.part c.negated x) :
    s.value j val = x := by
  cases s <;> simp [sources] at hval
  · simp [value, shift, sources, Source.sign, hval, part]
  · simp [value, shift, sources, Source.sign, hval, part]
  · simp [value, shift, sources, Source.sign, hval, part, ← sub_eq_add_neg]

/-- A coefficient of a variable counts for each of its columns. -/
theorem sum_sources (a : Fin n → Rat) :
    ((s.sources j).map fun c => a c.var * c.sign * val c).sum = a j * (s.value j val - s.shift) := by
  cases s <;> simp [value, shift, sources, Source.sign]
  ring

end Substitution

section Columns

variable (subs : Vector (Substitution Exact) n)

theorem mem_structuralColumns {s : Source n} :
    s ∈ structuralColumns subs ↔ s ∈ (subs.get s.var).sources s.var := by
  simp only [structuralColumns, List.mem_flatMap, List.mem_finRange, true_and]
  constructor
  · rintro ⟨j, hj⟩
    rwa [Substitution.var_of_mem hj]
  · intro h
    exact ⟨_, h⟩

theorem nodup_structuralColumns : (structuralColumns subs).Nodup := by
  refine List.nodup_flatMap.2 ⟨fun j _ => Substitution.nodup_sources _ j, ?_⟩
  refine (List.nodup_finRange n).imp fun hne s hs hs' => hne ?_
  exact (Substitution.var_of_mem hs).symm.trans (Substitution.var_of_mem hs')

/-- A sum over the structural columns, variable by variable. -/
theorem sum_columns (f : Source n → Rat) : ∑ c, f ((structuralColumns subs).get c) =
    ∑ j, (((subs.get j).sources j).map f).sum := by
  simp only [List.get_eq_getElem]
  rw [Fin.sum_univ_fun_getElem, structuralColumns, Fin.sum_univ_def]
  induction List.finRange n with
  | nil => rfl
  | cons j js ih => rw [List.flatMap_cons, List.map_append, List.sum_append, ih, List.map_cons,
      List.sum_cons]

/-- The structural columns at a valuation. -/
def columnValues (val : Source n → Rat) (c : Fin (structuralColumns subs).length) : Rat :=
  val ((structuralColumns subs).get c)

theorem exists_columnValues (y : Fin (structuralColumns subs).length → Rat) :
    ∃ val, columnValues subs val = y := by
  have hinjective : Function.Injective (structuralColumns subs).get :=
    List.nodup_iff_injective_get.1 (nodup_structuralColumns subs)
  exact ⟨Function.extend (structuralColumns subs).get y 0, funext (hinjective.extend_apply y 0)⟩

/-- A linear function of the variables, from the columns. -/
theorem sum_value (a : Fin n → Rat) (val : Source n → Rat) :
    ∑ j, a j * (subs.get j).value j val = ∑ j, a j * (subs.get j).shift +
      ∑ c, a ((structuralColumns subs).get c).var * ((structuralColumns subs).get c).sign *
        columnValues subs val c := by
  rw [← sub_eq_iff_eq_add', ← Finset.sum_sub_distrib]
  simp only [← mul_sub, ← Substitution.sum_sources]
  exact (sum_columns subs fun s => a s.var * s.sign * val s).symm

end Columns

/-! ## Dense programs -/

namespace DenseProgram

/-- The coefficients of the rows are rational. -/
structure Finite (D : DenseProgram Exact m n) : Prop where
  cells : ∀ i j, Scalar.isFinite ((D.rows.get i).get j) = true
  rhs : ∀ i, Scalar.isFinite (D.rhs.get i) = true

/-- All coefficients are rational, and there is room between the bounds. -/
structure Regular (D : DenseProgram Exact m n) : Prop extends D.Finite where
  cost : ∀ j, Scalar.isFinite (D.cost.get j) = true
  lower : ∀ j, D.lower.get j < .posInf
  upper : ∀ j, .negInf < D.upper.get j
  ordered : ∀ j, D.lower.get j ≤ D.upper.get j

/-- A point satisfies a row. -/
def RowHolds (D : DenseProgram Exact m n) (i : Fin m) (x : Fin n → Rat) : Prop :=
  if D.equality.get i then ∑ j, ((D.rows.get i).get j).rat * x j = (D.rhs.get i).rat
  else ∑ j, ((D.rows.get i).get j).rat * x j ≤ (D.rhs.get i).rat

/-- A point satisfies the rows and the bounds. -/
structure Admits (D : DenseProgram Exact m n) (x : Fin n → Rat) : Prop where
  rows : ∀ i, D.RowHolds i x
  lower : ∀ j, D.lower.get j ≤ .fin (x j)
  upper : ∀ j, .fin (x j) ≤ D.upper.get j

/-- The point of a valuation. -/
def point (D : DenseProgram Exact m n) (val : Source n → Rat) (j : Fin n) : Rat :=
  (D.substitutions.get j).value j val

/-- The structural columns. -/
abbrev columns (D : DenseProgram Exact m n) : List (Source n) := structuralColumns D.substitutions

variable {D : DenseProgram Exact m n} {val : Source n → Rat} {i : Fin m} {j : Fin n}

/-- How a variable is written, with the bounds that say so. -/
inductive Written (D : DenseProgram Exact m n) (j : Fin n) : Prop where
  | shifted (l : Rat) (h : D.substitutions.get j = .shifted (.fin l))
      (hlower : D.lower.get j = .fin l)
  | reflected (u : Rat) (h : D.substitutions.get j = .reflected (.fin u))
      (hlower : D.lower.get j = .negInf) (hupper : D.upper.get j = .fin u)
  | split (h : D.substitutions.get j = .split) (hlower : D.lower.get j = .negInf)
      (hupper : D.upper.get j = .posInf)

theorem Regular.written (hD : D.Regular) (j : Fin n) : D.Written j := by
  have hsub : D.substitutions.get j = .ofBounds (D.lower.get j) (D.upper.get j) := by
    simp [substitutions]
  have hlower := hD.lower j
  have hupper := hD.upper j
  cases hl : D.lower.get j with
  | fin l =>
    rw [hl] at hsub
    exact .shifted l hsub hl
  | negInf =>
    rw [hl] at hsub
    cases hu : D.upper.get j with
    | fin u =>
      rw [hu] at hsub
      exact .reflected u hsub hl hu
    | posInf =>
      rw [hu] at hsub
      exact .split hsub hl hu
    | negInf | nan => simp [hu, Exact.lt_def, Exact.below] at hupper
  | posInf | nan => simp [hl, Exact.lt_def, Exact.below] at hlower

/-! ## The constants of the rows and of the objective -/

/-- What the offset of a variable comes to: its shift, if there is one. -/
theorem offset? (D : DenseProgram Exact m n) (j : Fin n) :
    (D.substitutions.get j).offset? = some (.fin (D.substitutions.get j).shift) ∨
      (D.substitutions.get j).offset? = none ∧ (D.substitutions.get j).shift = 0 := by
  have hsub : D.substitutions.get j = .ofBounds (D.lower.get j) (D.upper.get j) := by
    simp [substitutions]
  rw [hsub]
  unfold Substitution.ofBounds
  split
  · obtain ⟨l, hl⟩ := Exact.isFinite_iff.1 ‹_›
    rw [hl]
    exact .inl rfl
  · split
    · obtain ⟨u, hu⟩ := Exact.isFinite_iff.1 ‹_›
      rw [hu]
      exact .inl rfl
    · exact .inr ⟨rfl, rfl⟩

theorem Finite.shiftedRhs_eq (hD : D.Finite) (i : Fin m) :
    shiftedRhs D.substitutions (D.rows.get i) (D.rhs.get i) = .fin ((D.rhs.get i).rat -
      ∑ j, ((D.rows.get i).get j).rat * (D.substitutions.get j).shift) := by
  obtain ⟨b, hb⟩ := Exact.isFinite_iff.1 (hD.rhs i)
  rw [hb, Exact.rat_fin, shiftedRhs, Exact.foldl_fin
    (g := fun j => -(((D.rows.get i).get j).rat * (D.substitutions.get j).shift)),
    ← Fin.sum_univ_def, Finset.sum_neg_distrib, ← sub_eq_add_neg]
  · intro b j _
    obtain ⟨a, ha⟩ := Exact.isFinite_iff.1 (hD.cells i j)
    rw [ha, Exact.beq_zero, Rational.zero_eq, Exact.rat_fin]
    split
    · rename_i hzero
      simp [beq_iff_eq.1 hzero]
    · rcases D.offset? j with hj | ⟨hj, hshift⟩
      · rw [hj]
        simp [sub_eq_add_neg]
      · rw [hj, hshift]
        simp

theorem Regular.offset_eq (hD : D.Regular) : D.offset D.substitutions =
    .fin (∑ j, (D.cost.get j).rat * (D.substitutions.get j).shift) := by
  rw [DenseProgram.offset, Exact.zero_eq, Exact.foldl_fin
    (g := fun j => (D.cost.get j).rat * (D.substitutions.get j).shift), Fin.sum_univ_def, zero_add]
  intro b j _
  obtain ⟨q, hq⟩ := Exact.isFinite_iff.1 (hD.cost j)
  rw [hq]
  rcases D.offset? j with hj | ⟨hj, hshift⟩
  · rw [hj]
    simp
  · rw [hj, hshift]
    simp

/-! ## The open rows -/

/-- The row of the program over the structural columns says what the row says. -/
theorem Finite.baseRow (hD : D.Finite) (i : Fin m) :
    (D.baseRow D.substitutions D.columns i).Finite ∧ ∀ val,
      (D.baseRow D.substitutions D.columns i).Meets (columnValues D.substitutions val) ↔
        D.RowHolds i (D.point val) := by
  have hcoefficient : ∀ c : Fin D.columns.length,
      (D.columns.get c).coefficient ((D.rows.get i).get (D.columns.get c).var) =
        .fin (((D.rows.get i).get (D.columns.get c).var).rat * (D.columns.get c).sign) := by
    intro c
    obtain ⟨a, ha⟩ := Exact.isFinite_iff.1 (hD.cells i (D.columns.get c).var)
    rw [ha, Source.coefficient, Exact.beq_zero, Rational.zero_eq, Exact.rat_fin, Source.sign]
    split
    · rename_i hzero
      rw [beq_iff_eq.1 hzero, zero_mul, Exact.zero_eq]
    · split <;> simp
  have hcells : ∀ c, Scalar.isFinite ((Vector.ofFn fun c : Fin D.columns.length =>
      (D.columns.get c).coefficient ((D.rows.get i).get (D.columns.get c).var)).get c) = true := by
    intro c
    rw [Vector.get_ofFn, hcoefficient]
    rfl
  have hrhs : Scalar.isFinite
      (shiftedRhs D.substitutions (D.rows.get i) (D.rhs.get i)) = true := by
    rw [hD.shiftedRhs_eq]
    rfl
  obtain ⟨hfinite, hmeets⟩ := OpenRow.orient_spec (D.equality.get i) hcells hrhs
  refine ⟨hfinite, fun val => (hmeets _).trans ?_⟩
  have hsum : ∑ j, ((D.rows.get i).get j).rat * D.point val j = _ :=
    sum_value D.substitutions (fun j => ((D.rows.get i).get j).rat) val
  simp only [Vector.get_ofFn, hcoefficient, hD.shiftedRhs_eq, Exact.rat_fin, RowHolds, hsum,
    eq_sub_iff_add_eq', le_sub_iff_add_le']

/-- The value of a variable that is shifted. -/
theorem point_shifted {l : Rat} (h : D.substitutions.get j = .shifted (.fin l)) :
    D.point val j = l + val ⟨j, false⟩ := by
  simp [point, h, Substitution.value, Substitution.shift, Substitution.sources, Source.sign]

theorem point_reflected {u : Rat} (h : D.substitutions.get j = .reflected (.fin u)) :
    D.point val j = u - val ⟨j, true⟩ := by
  simp [point, h, Substitution.value, Substitution.shift, Substitution.sources, Source.sign,
    sub_eq_add_neg]

theorem point_split (h : D.substitutions.get j = .split) :
    D.point val j = val ⟨j, false⟩ - val ⟨j, true⟩ := by
  simp [point, h, Substitution.value, Substitution.shift, Substitution.sources, Source.sign,
    sub_eq_add_neg]

/-- A variable that is shifted has one column. -/
theorem sum_ofVar {o : Exact} (h : D.substitutions.get j = .shifted o) (val : Source n → Rat) :
    ∑ c, (if (D.columns.get c).var = j then (1 : Exact) else 0).rat *
      columnValues D.substitutions val c = val ⟨j, false⟩ := by
  have hcolumns := sum_columns D.substitutions fun s =>
    (if s.var = j then (1 : Exact) else 0).rat * val s
  refine hcolumns.trans ?_
  rw [Finset.sum_eq_single j]
  · simp [h, Substitution.sources, Exact.one_eq]
  · intro j' _ hne
    refine List.sum_eq_zero fun q hq => ?_
    obtain ⟨s, hs, rfl⟩ := List.mem_map.1 hq
    rw [Substitution.var_of_mem hs, if_neg hne, Exact.zero_eq, Exact.rat_fin, zero_mul]
  · simp

/-- The row of a variable with two finite bounds. -/
theorem widthRow_finite (j : Fin n) {row : OpenRow Exact D.columns.length}
    (hrow : D.widthRow? D.columns j = some row) : row.Finite := by
  unfold DenseProgram.widthRow? at hrow
  split at hrow
  · rename_i hbounds
    obtain ⟨hl, hu⟩ := Bool.and_eq_true_iff.1 hbounds
    obtain ⟨l, hl⟩ := Exact.isFinite_iff.1 hl
    obtain ⟨u, hu⟩ := Exact.isFinite_iff.1 hu
    cases hrow
    refine (OpenRow.orient_spec false (fun c => ?_) ?_).1
    · rw [Vector.get_ofFn]
      split <;> rfl
    · rw [hl, hu, Exact.fin_sub_fin, Exact.zero_eq, Exact.max_fin]
      rfl
  · cases hrow

/-- It says that the variable is at most the upper one. -/
theorem Regular.widthRow (hD : D.Regular) (j : Fin n) {row : OpenRow Exact D.columns.length}
    (hrow : D.widthRow? D.columns j = some row) (val : Source n → Rat) :
    row.Meets (columnValues D.substitutions val) ↔ .fin (D.point val j) ≤ D.upper.get j := by
  unfold DenseProgram.widthRow? at hrow
  split at hrow
  · rename_i hbounds
    obtain ⟨hl, hu⟩ := Bool.and_eq_true_iff.1 hbounds
    obtain ⟨l, hl⟩ := Exact.isFinite_iff.1 hl
    obtain ⟨u, hu⟩ := Exact.isFinite_iff.1 hu
    have hordered := hD.ordered j
    rw [hl, hu, Exact.fin_le_fin] at hordered
    have hsub : D.substitutions.get j = .shifted (.fin l) := by
      simp [DenseProgram.substitutions, Substitution.ofBounds, hl]
    have hwidth : Scalar.max (D.upper.get j - D.lower.get j) 0 = .fin (u - l) := by
      rw [hl, hu, Exact.fin_sub_fin, Exact.zero_eq, Exact.max_fin,
        max_eq_left (sub_nonneg.2 hordered)]
    cases hrow
    refine ((OpenRow.orient_spec false (fun c => ?_) ?_).2 _).trans ?_
    · rw [Vector.get_ofFn]
      split <;> rfl
    · rw [hwidth]
      rfl
    · simp only [Vector.get_ofFn, sum_ofVar hsub, hwidth, Exact.rat_fin, Bool.false_eq_true,
        if_false]
      rw [point_shifted hsub, hu, Exact.fin_le_fin, le_sub_iff_add_le']
  · cases hrow

theorem exists_widthRow {l u : Rat} (hl : D.lower.get j = .fin l) (hu : D.upper.get j = .fin u) :
    ∃ row, D.widthRow? D.columns j = some row := by
  rw [widthRow?, hl, hu]
  exact ⟨_, rfl⟩

/-- The open rows of the equality form. -/
abbrev opened (D : DenseProgram Exact m n) : List (OpenRow Exact D.columns.length) :=
  D.openRows D.substitutions D.columns

theorem Finite.opened (hD : D.Finite) : ∀ row ∈ D.opened, row.Finite := by
  intro row hrow
  rcases List.mem_append.1 hrow with hrow | hrow
  · obtain ⟨i, -, rfl⟩ := List.mem_map.1 hrow
    exact (hD.baseRow i).1
  · obtain ⟨j, -, hj⟩ := List.mem_filterMap.1 hrow
    exact widthRow_finite j hj

theorem mem_opened_of_row (D : DenseProgram Exact m n) (i : Fin m) :
    D.baseRow D.substitutions D.columns i ∈ D.opened :=
  List.mem_append_left _ (List.mem_map.2 ⟨i, List.mem_finRange i, rfl⟩)

theorem mem_opened_of_width {row : OpenRow Exact D.columns.length}
    (h : D.widthRow? D.columns j = some row) : row ∈ D.opened :=
  List.mem_append_right _ (List.mem_filterMap.2 ⟨j, List.mem_finRange j, h⟩)

/-! ## Points and valuations -/

/-- A valuation that meets the open rows gives a point of the program. -/
theorem Regular.admits_point (hD : D.Regular) (hval : ∀ s ∈ D.columns, 0 ≤ val s)
    (hmeets : ∀ row ∈ D.opened, row.Meets (columnValues D.substitutions val)) :
    D.Admits (D.point val) := by
  have hcolumn : ∀ s : Source n, s ∈ (D.substitutions.get s.var).sources s.var → 0 ≤ val s :=
    fun s hs => hval s ((mem_structuralColumns _).2 hs)
  refine ⟨fun i => ((hD.baseRow i).2 val).1 (hmeets _ (D.mem_opened_of_row i)), fun j => ?_,
    fun j => ?_⟩
  · rcases hD.written j with ⟨l, h, hl⟩ | ⟨u, h, hl, hu⟩ | ⟨h, hl, hu⟩
    · have := hcolumn ⟨j, false⟩ (by simp [h, Substitution.sources])
      rw [hl, point_shifted h, Exact.fin_le_fin]
      linarith
    · rw [hl]
      exact Exact.negInf_le_fin _
    · rw [hl]
      exact Exact.negInf_le_fin _
  · rcases hD.written j with ⟨l, h, hl⟩ | ⟨u, h, hl, hu⟩ | ⟨h, hl, hu⟩
    · cases hu : D.upper.get j with
      | fin u =>
        obtain ⟨row, hrow⟩ := exists_widthRow hl hu
        rw [← hu]
        exact (hD.widthRow j hrow val).1 (hmeets row (mem_opened_of_width hrow))
      | posInf => exact Exact.fin_le_posInf _
      | negInf | nan =>
        have hupper := hD.upper j
        simp [hu, Exact.lt_def, Exact.below] at hupper
    · have := hcolumn ⟨j, true⟩ (by simp [h, Substitution.sources])
      rw [hu, point_reflected h, Exact.fin_le_fin]
      linarith
    · rw [hu]
      exact Exact.fin_le_posInf _

/-- Every point of the program comes from a valuation that meets the open rows. -/
theorem Regular.exists_valuation (hD : D.Regular) {x : Fin n → Rat} (hx : D.Admits x) :
    ∃ val, (∀ s ∈ D.columns, 0 ≤ val s) ∧
      (∀ row ∈ D.opened, row.Meets (columnValues D.substitutions val)) ∧ D.point val = x := by
  let val (s : Source n) : Rat := (D.substitutions.get s.var).part s.negated (x s.var)
  have hpoint : D.point val = x := by
    funext j
    refine Substitution.value_of_part fun c hc => ?_
    simp only [val, Substitution.var_of_mem hc]
  refine ⟨val, fun s hs => ?_, fun row hrow => ?_, hpoint⟩
  · have hlower := hx.lower s.var
    have hupper := hx.upper s.var
    simp only [val]
    rcases hD.written s.var with ⟨l, h, hl⟩ | ⟨u, h, hl, hu⟩ | ⟨h, hl, hu⟩
    · rw [hl, Exact.fin_le_fin] at hlower
      rw [h]
      exact sub_nonneg.2 hlower
    · rw [hu, Exact.fin_le_fin] at hupper
      rw [h]
      exact sub_nonneg.2 hupper
    · rw [h]
      cases s.negated
      · exact le_max_right _ _
      · exact le_max_right _ _
  · rcases List.mem_append.1 hrow with hrow | hrow
    · obtain ⟨i, -, rfl⟩ := List.mem_map.1 hrow
      rw [(hD.baseRow i).2, hpoint]
      exact hx.rows i
    · obtain ⟨j, -, hj⟩ := List.mem_filterMap.1 hrow
      rw [hD.widthRow j hj, hpoint]
      exact hx.upper j

/-! ## The objective -/

/-- The cost of the columns, over the rationals. -/
def costs (D : DenseProgram Exact m n) : Vector Rat (layoutWidth D.opened) :=
  Vector.ofFn fun c =>
    if h : c.val < D.columns.length then
      (D.cost.get (D.columns.get ⟨c, h⟩).var).rat * (D.columns.get ⟨c, h⟩).sign
    else 0

theorem Regular.cost_build (hD : D.Regular) : (EqualityForm.build D).cost = D.costs.map .fin := by
  have hcolumn : ∀ s : Source n, (if s.negated then -D.cost.get s.var else D.cost.get s.var) =
      .fin ((D.cost.get s.var).rat * s.sign) := fun s => by
    obtain ⟨q, hq⟩ := Exact.isFinite_iff.1 (hD.cost s.var)
    rw [hq, Source.sign]
    split <;> simp
  refine Vector.ext fun c hc => ?_
  simp only [EqualityForm.build, costs, Vector.getElem_ofFn, Vector.getElem_map, columnCost]
  split
  · exact hcolumn _
  · exact Exact.zero_eq

/-- The cost of the columns, with the constant part of the objective. -/
theorem Regular.sum_costs (hD : D.Regular) {z : Fin (layoutWidth D.opened) → Rat}
    (hz : structural z = columnValues D.substitutions val) :
    ∑ c, D.costs.get c * z c + (EqualityForm.build D).offset.rat =
      ∑ j, (D.cost.get j).rat * D.point val j := by
  have hsum : ∑ j, (D.cost.get j).rat * D.point val j = _ :=
    sum_value D.substitutions (fun j => (D.cost.get j).rat) val
  have hoffset : (EqualityForm.build D).offset = _ := hD.offset_eq
  rw [hsum, hoffset, Exact.rat_fin, add_comm, ← hz]
  congr 1
  simp only [costs, Vector.get_ofFn]
  exact sum_first _ (fun c => (D.cost.get (D.columns.get c).var).rat * (D.columns.get c).sign) z

/-! ## Reading the point off the columns -/

/-- The variables are read off in their order. -/
theorem recover_build {F : Type} [Scalar F] (D : DenseProgram F m n) (ys : List F) :
    (EqualityForm.build D).recover ys =
      Substitution.recover ((List.finRange n).map D.substitutions.get) ys := by
  have hsubs : (List.finRange n).map D.substitutions.get = D.substitutions.toList :=
    List.ext_getElem (by simp) fun i h₁ h₂ => by simp [Vector.get_eq_getElem]
  rw [hsubs]
  rfl

/-- The values of the columns, and whatever follows, give the point. -/
theorem Regular.recover (hD : D.Regular) (val : Source n → Rat) (rest : List Exact) :
    (EqualityForm.build D).recover ((D.columns.map fun s => .fin (val s)) ++ rest) =
      .ok (Exact.vector (D.point val)) := by
  have hlist : ∀ js : List (Fin n), Substitution.recover (js.map D.substitutions.get)
      ((js.flatMap fun j => (D.substitutions.get j).sources j).map (fun s => .fin (val s)) ++ rest) =
        .ok (js.map fun j => .fin (D.point val j)) := by
    intro js
    induction js with
    | nil => rfl
    | cons j js ih =>
      rw [List.map_cons, List.flatMap_cons, List.map_append, List.append_assoc, List.map_cons]
      generalize (js.flatMap fun j => (D.substitutions.get j).sources j).map
        (fun s => Exact.fin (val s)) ++ rest = ys at ih ⊢
      rcases hD.written j with ⟨l, h, -⟩ | ⟨u, h, -, -⟩ | ⟨h, -, -⟩
      · rw [point_shifted h, h]
        simp [Substitution.sources, Substitution.recover, ih]
      · rw [point_reflected h, h]
        simp [Substitution.sources, Substitution.recover, ih]
      · rw [point_split h, h]
        simp [Substitution.sources, Substitution.recover, ih]
  rw [recover_build, Exact.vector, List.ofFn_eq_map]
  exact hlist _

end DenseProgram

end Simplex

end Milp
