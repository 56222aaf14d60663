/-
  Programs of exact scalars at rational points.

  * `Program.Admits`: a point satisfies the rows of a program and the bounds of a box.
  * `Program.activities_vector`: the activities, which are summed column by column, are the left-hand
    sides of the rows.
  * `Program.Admits.violation`, `Program.Admits.box_violation`: what is satisfied is not violated.
  * `Program.objective_vector`: the objective at a point.
-/
import Milp.Proofs.Residual
import Mathlib.Algebra.BigOperators.Fin

namespace Milp

/-! ## Columns -/

section Columns

variable {h : Nat} {c : Column Exact}

/-- The entry of a column in a row, zero if nothing is stored there. -/
def Column.entry {F : Type} [Scalar F] (c : Column F) (i : Nat) : F :=
  match c.lookup i with
  | some v => 0 + v
  | none => 0

theorem Column.entry_cons (r : Nat) (v : Exact) (c : Column Exact) (i : Nat) :
    Column.entry ((r, v) :: c) i = if i = r then v else c.entry i := by
  rw [entry, List.lookup_cons]
  by_cases hi : i = r
  · simp [hi, Exact.zero_add]
  · rw [if_neg hi, beq_false_of_ne hi, entry]

theorem Column.entry_of_lt {r : Nat} (hlt : ∀ e ∈ c, r < e.1) : c.entry r = 0 := by
  have hnone : c.lookup r = none := List.lookup_eq_none_iff.2 fun e he => by
    simpa using ne_of_lt (hlt e he)
  rw [entry, hnone]

/-- The inner product of two rational points. -/
theorem Exact.dot_vector {n : Nat} (a x : Fin n → Rat) :
    Scalar.dot (vector a) (vector x) = .fin (∑ j, a j * x j) := by
  have hterms : List.zipWith (· * ·) (vector a) (vector x) =
      (List.ofFn fun j => a j * x j).map fin :=
    List.ext_getElem (by simp) fun j h₁ h₂ => by simp
  rw [Scalar.dot, hterms, Scalar.sum, List.foldl_map, zero_eq, neg_fin,
    foldl_fin fun b q _ => fin_add_fin]
  simp [List.sum_ofFn]

theorem Exact.modify_vector (a : Fin h → Rat) (r : Nat) (q : Rat) :
    (vector a).modify r (· + fin q) = vector fun i => a i + if i.val = r then q else 0 := by
  refine List.ext_getElem (by simp) fun i h₁ h₂ => ?_
  rw [List.getElem_modify, getElem_vector, getElem_vector]
  by_cases hi : r = i
  · simp [hi]
  · simp [hi, Ne.symm hi]

/-- What a column contributes to the rows. -/
theorem Program.contribute_vector (hsorted : c.Sorted) (hrows : ∀ e ∈ c, e.1 < h)
    (hfinite : ∀ e ∈ c, Scalar.isFinite e.2 = true) (q : Rat) (a : Fin h → Rat) :
    contribute (.fin q) c (Exact.vector a) =
      .ok (Exact.vector fun i => a i + (c.entry i).rat * q) := by
  induction c generalizing a with
  | nil => simp [contribute, Column.entry, Exact.zero_eq, pure, Except.pure]
  | cons e rest ih =>
    obtain ⟨r, v⟩ := e
    obtain ⟨hfirst, hrest⟩ := List.pairwise_cons.1 hsorted
    obtain ⟨v, rfl⟩ := Exact.isFinite_iff.1 (hfinite _ List.mem_cons_self)
    have hr : r < (Exact.vector a).length := by simpa using hrows _ List.mem_cons_self
    have hih := ih hrest (fun e he => hrows e (List.mem_cons_of_mem _ he))
      (fun e he => hfinite e (List.mem_cons_of_mem _ he))
      fun i => a i + if i.val = r then v * q else 0
    rw [contribute] at hih ⊢
    have hamend : amend (Exact.vector a) r (· + .fin v * .fin q) =
        .ok (Exact.vector fun i => a i + if i.val = r then v * q else 0) := by
      rw [amend, if_pos hr, Exact.fin_mul_fin, Exact.modify_vector]
    rw [List.foldlM_cons]
    simp only [hamend]
    refine hih.trans (congrArg Except.ok (congrArg Exact.vector (funext fun i => ?_)))
    rw [Column.entry_cons]
    by_cases hi : i.val = r
    · -- no later entry is in this row
      have hlater : Column.entry rest i.val = 0 := hi ▸ Column.entry_of_lt hfirst
      rw [if_pos hi, if_pos hi, hlater, Exact.zero_eq]
      simp
    · rw [if_neg hi, if_neg hi, add_zero]

/-- What columns contribute to the rows, added up. -/
theorem Program.gather_vector {cs : List (Column Exact)} {xs : List Rat}
    (hlength : cs.length = xs.length) (hsorted : ∀ c ∈ cs, Column.Sorted c)
    (hrows : ∀ c ∈ cs, ∀ e ∈ c, e.1 < h)
    (hfinite : ∀ c ∈ cs, ∀ e ∈ c, Scalar.isFinite e.2 = true) (a : Fin h → Rat) :
    gather cs (xs.map .fin) (Exact.vector a) = .ok (Exact.vector fun i =>
      a i + (List.zipWith (fun c q => (Column.entry c i).rat * q) cs xs).sum) := by
  induction cs generalizing xs a with
  | nil => simp [gather]
  | cons c cs ih =>
    rcases xs with _ | ⟨q, xs⟩
    · cases hlength
    have hih := ih (Nat.succ.inj hlength) (fun c hc => hsorted c (List.mem_cons_of_mem _ hc))
      (fun c hc => hrows c (List.mem_cons_of_mem _ hc))
      (fun c hc => hfinite c (List.mem_cons_of_mem _ hc))
    simp only [gather, List.map_cons, List.zipWith_cons_cons, List.sum_cons]
    split
    · rename_i hzero
      rw [hih, Exact.fin_beq_zero.1 hzero]
      simp only [mul_zero, zero_add]
    · rw [contribute_vector (hsorted c List.mem_cons_self) (hrows c List.mem_cons_self)
        (hfinite c List.mem_cons_self)]
      refine (hih _).trans ?_
      simp only [add_assoc]

end Columns

/-! ## Rows and bounds -/

namespace Program

variable {P : Program Exact} {box : Box Exact} {x : Fin P.vars → Rat}

/-- The left-hand side of a row. -/
def activity (P : Program Exact) (x : Fin P.vars → Rat) (i : Nat) : Rat :=
  ∑ j : Fin P.vars, (P.matrix.cell i j).rat * x j

/-- A point satisfies the rows, and the bounds of a box. -/
structure Admits (P : Program Exact) (box : Box Exact) (x : Fin P.vars → Rat) : Prop where
  rows : ∀ (i : Nat) (b : Exact) (equality : Bool), P.rhs[i]? = some b →
    (P.blocks.flatMap Block.flags)[i]? = some equality →
    if equality then .fin (P.activity x i) = b else .fin (P.activity x i) ≤ b
  lower : ∀ (j : Fin P.vars) (l : Exact), box.lower[j.val]? = some l → l ≤ .fin (x j)
  upper : ∀ (j : Fin P.vars) (u : Exact), box.upper[j.val]? = some u → .fin (x j) ≤ u

theorem Valid.finite_column (h : P.Valid) {c : Column Exact} (hc : c ∈ P.matrix.columns)
    {e : Nat × Exact} (he : e ∈ c) : Scalar.isFinite e.2 = true := by
  refine List.all_eq_true.1 h.finite.2.2 e.2 ?_
  exact List.mem_flatMap.2 ⟨c, hc, List.mem_map_of_mem he⟩

theorem Valid.finite_cell (h : P.Valid) (i j : Nat) :
    Scalar.isFinite (P.matrix.cell i j) = true := by
  unfold Matrix.cell
  split
  · rename_i v hv
    obtain ⟨before, after, hcolumn, -⟩ := List.lookup_eq_some_iff.1 hv
    have hj : j < P.matrix.columns.length := by
      by_contra hnot
      rw [List.getD_eq_default _ _ (not_lt.1 hnot)] at hcolumn
      simp at hcolumn
    rw [List.getD_eq_getElem _ _ hj] at hcolumn
    have hmem : (i, v) ∈ P.matrix.columns[j] := by simp [hcolumn]
    obtain ⟨q, hq⟩ := Exact.isFinite_iff.1 (h.finite_column (List.getElem_mem hj) hmem)
    simp only at hq
    rw [hq, Exact.zero_eq, Exact.fin_add_fin]
    rfl
  · rfl

/-- The activities are the left-hand sides of the rows. -/
theorem activities_vector (h : P.Valid) (x : Fin P.vars → Rat) :
    P.activities (Exact.vector x) = .ok (Exact.vector fun i : Fin P.height => P.activity x i) := by
  obtain ⟨hrows, hcols⟩ := h.shapes
  have hlength : P.matrix.columns.length = (List.ofFn x).length := by
    rw [P.matrix.length_columns, hcols, List.length_ofFn]
  have hzero : List.replicate P.height (0 : Exact) = Exact.vector fun _ : Fin P.height => 0 :=
    List.ext_getElem (by simp) fun i h₁ h₂ => by simp [Exact.zero_eq]
  have hpoint : Exact.vector x = (List.ofFn x).map .fin := by
    rw [Exact.vector, List.map_ofFn]
    rfl
  have hgather := gather_vector hlength P.matrix.sorted (fun c hc e he =>
    hrows ▸ P.matrix.row_lt c hc e he) (fun c hc e he => h.finite_column hc he)
    fun _ : Fin P.height => 0
  rw [activities, hzero, hpoint, hgather]
  refine congrArg Except.ok (congrArg Exact.vector (funext fun i => ?_))
  have hterms : List.zipWith (fun c q => (Column.entry c i.val).rat * q) P.matrix.columns
      (List.ofFn x) = List.ofFn fun j : Fin P.vars => (P.matrix.cell i j).rat * x j := by
    refine List.ext_getElem (by simp [hlength]) fun j h₁ h₂ => ?_
    have hj : j < P.matrix.columns.length := by simp at h₁; omega
    simp only [List.getElem_zipWith, List.getElem_ofFn]
    have hcell : P.matrix.cell i j = Column.entry P.matrix.columns[j] i.val := by
      rw [Matrix.cell, List.getD_eq_getElem _ _ hj]
      rfl
    rw [hcell]
  rw [hterms, List.sum_ofFn, zero_add, activity]

/-! ## What is satisfied is not violated -/

theorem blockRows_eq {F : Type} (P : Program F) :
    P.blockRows = (P.blocks.flatMap Block.flags).length := by
  have hfold : ∀ (blocks : List Block) (total : Nat),
      blocks.foldl (fun total b => total + b.size) total =
        total + (blocks.flatMap Block.flags).length := by
    intro blocks
    induction blocks with
    | nil => simp
    | cons b rest ih =>
      intro total
      rw [List.foldl_cons, ih, List.flatMap_cons, List.length_append, Block.length_flags,
        Nat.add_assoc]
  rw [blockRows, hfold, Nat.zero_add]

theorem flags_of_firstEqualities {F : Type} {P : Program F} {n : Nat} {flags : List Bool}
    (h : P.firstEqualities n = .ok flags) : flags = (P.blocks.flatMap Block.flags).take n := by
  unfold firstEqualities at h
  split at h
  · cases h
    exact Block.firstFlags_eq_take n P.blocks
  · cases h

/-- The flags of blocks that have the rows of the program. -/
theorem equalities_eq {F : Type} {P : Program F} (h : P.blockRows = P.height) :
    P.equalities = .ok (P.blocks.flatMap Block.flags) ∧
      (P.blocks.flatMap Block.flags).length = P.height := by
  have hlength : (P.blocks.flatMap Block.flags).length = P.height := P.blockRows_eq ▸ h
  refine ⟨?_, hlength⟩
  rw [equalities, firstEqualities, if_pos (h ▸ Nat.le_max_left _ _), Block.firstFlags_eq_take, h,
    ← hlength, List.take_length]

theorem rowExcess_nonpos {a : Rat} {b : Exact} {equality : Bool}
    (h : if equality then .fin a = b else .fin a ≤ b) : rowExcess (.fin a) b equality ≤ 0 := by
  cases equality
  · exact Scalar.max_le (Exact.fin_sub_nonpos h) fun _ => Scalar.zero_le_zero
  · have hb : .fin a = b := h
    have hzero : rowExcess (Exact.fin a) (.fin a) true = 0 := by
      rw [rowExcess, if_pos rfl, Exact.fin_sub_fin, sub_self, Exact.zero_eq]
      rfl
    rw [← hb, hzero]
    exact Scalar.zero_le_zero

/-- The violation of the rows at a rational point. -/
theorem violation_vector (h : P.Valid) (x : Fin P.vars → Rat) {flags : List Bool}
    (hflags : P.firstEqualities P.height = .ok flags) :
    P.violation (Exact.vector x) = .ok ((List.zipWith (fun a (b, e) => rowExcess a b e)
      (Exact.vector fun i : Fin P.height => P.activity x i) (P.rhs.zip flags)).foldl Scalar.max 0) := by
  rw [Program.violation, activities_vector h, hflags]
  rfl

theorem Admits.violation (hx : P.Admits box x) (h : P.Valid) {flags : List Bool}
    (hflags : P.firstEqualities P.height = .ok flags) :
    P.violation (Exact.vector x) = .ok (.fin 0) := by
  have hviolation := violation_vector h x hflags
  rw [hviolation, Exact.eq_zero (zero_le_violation hviolation)]
  refine Scalar.foldl_max_le Scalar.zero_le_zero fun v hv _ => ?_
  obtain ⟨i, hi⟩ := List.mem_iff_getElem?.1 hv
  obtain ⟨a, ⟨b, equality⟩, ha, hrow, rfl⟩ := List.getElem?_zipWith_eq_some.1 hi
  obtain ⟨hb, hflag⟩ := List.getElem?_zip_eq_some.1 hrow
  obtain ⟨hlt, rfl⟩ := List.getElem?_eq_some_iff.1 ha
  rw [Exact.getElem_vector]
  refine rowExcess_nonpos (hx.rows i b equality hb ?_)
  rw [flags_of_firstEqualities hflags, List.getElem?_take] at hflag
  split at hflag
  · exact hflag
  · cases hflag

theorem Admits.box_violation (hx : P.Admits box x) :
    box.violation (Exact.vector x) = .fin 0 := by
  refine Exact.eq_zero (box.zero_le_violation _) ?_
  refine Scalar.foldl_max_le Scalar.zero_le_zero fun v hv _ => ?_
  obtain ⟨j, i, q, hi, hq, rfl⟩ := Box.mem_excesses.1 hv
  obtain ⟨hl, hu⟩ := Box.interval_eq_ok.1 hi
  obtain ⟨hlt, rfl⟩ := List.getElem?_eq_some_iff.1 hq
  have hj : j < P.vars := by simpa using hlt
  rw [Exact.getElem_vector]
  exact Scalar.max_le (Scalar.max_le (Exact.sub_fin_nonpos (hx.lower ⟨j, hj⟩ _ hl))
    fun _ => Exact.fin_sub_nonpos (hx.upper ⟨j, hj⟩ _ hu)) fun _ => Scalar.zero_le_zero

/-! ## The objective -/

/-- The coefficient of a variable in the objective. -/
def weight (P : Program Exact) (j : Fin P.vars) : Rat := (P.cost.getD j 0).rat

theorem Valid.cost_eq (h : P.Valid) (j : Fin P.vars) :
    P.cost[j.val]? = some (.fin (P.weight j)) := by
  have hj : j.val < P.cost.length := j.isLt
  rw [weight, List.getD_eq_getElem _ _ hj, List.getElem?_eq_getElem hj,
    Exact.fin_rat (List.all_eq_true.1 h.finite.1 _ (List.getElem_mem hj))]

theorem objective_vector (h : P.Valid) (x : Fin P.vars → Rat) :
    P.objective (Exact.vector x) = .fin (∑ j, P.weight j * x j) := by
  have hcost : P.cost = Exact.vector P.weight := by
    refine List.ext_getElem? fun j => ?_
    by_cases hj : j < P.vars
    · rw [h.cost_eq ⟨j, hj⟩, List.getElem?_eq_getElem (by simpa using hj), Exact.getElem_vector]
    · rw [List.getElem?_eq_none (Nat.not_lt.1 hj), List.getElem?_eq_none (by simpa using hj)]
  exact (congrArg (Scalar.dot · (Exact.vector x)) hcost).trans (Exact.dot_vector P.weight x)

end Program

end Milp
