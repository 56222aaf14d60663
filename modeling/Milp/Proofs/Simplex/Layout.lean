/-
  Rows with their slack and artificial columns.

  * `OpenRow.Meets`: a vector of the structural columns satisfies a row before it is laid out.
  * `slackAt`, `artificialAt`: where the columns of a row are.
  * `layout`: the rational tableau of a list of rows; `canonical_layout`: it is canonical.
  * `lift_layout`: the tableau of exact scalars is its image.
  * `meets_of_admits`, `admits_withSlacks`: its vectors are those of the rows.
-/
import Milp.Proofs.Scalar.Faithful
import Milp.Proofs.Simplex.Lift
import Milp.Simplex.EqualityForm

namespace Milp

namespace Simplex

variable {k n : Nat}

/-! ## Rows before they are laid out -/

namespace OpenRow

variable (row : OpenRow Exact k) (y : Fin k → Rat)

/-- All entries are rational. -/
structure Finite (row : OpenRow Exact k) : Prop where
  cells : ∀ c, Scalar.isFinite (row.cells.get c) = true
  rhs : Scalar.isFinite row.rhs = true
  nonneg : 0 ≤ row.rhs.rat

/-- The left-hand side at a vector. -/
def lhs (row : OpenRow Exact k) (y : Fin k → Rat) : Rat := ∑ c, (row.cells.get c).rat * y c

/-- A vector satisfies a row. -/
def Meets (row : OpenRow Exact k) (y : Fin k → Rat) : Prop :=
  match row.opening with
  | .slack => row.lhs y ≤ row.rhs.rat
  | .surplus => row.rhs.rat ≤ row.lhs y
  | .fixed => row.lhs y = row.rhs.rat

/-- What the slack of a row counts. -/
def slack (row : OpenRow Exact k) (y : Fin k → Rat) : Rat :=
  match row.opening with
  | .slack => row.rhs.rat - row.lhs y
  | .surplus => row.lhs y - row.rhs.rat
  | .fixed => 0

theorem Meets.slack_nonneg {row : OpenRow Exact k} {y : Fin k → Rat} (h : row.Meets y) :
    0 ≤ row.slack y := by
  unfold Meets at h
  unfold slack
  split at h <;> simp_all

/-- An oriented row says what the row said, and its right-hand side is not negative. -/
theorem orient_spec {cells : Vector Exact k} {rhs : Exact} (equality : Bool)
    (hcells : ∀ c, Scalar.isFinite (cells.get c) = true) (hrhs : Scalar.isFinite rhs = true) :
    (orient cells rhs equality).Finite ∧ ∀ y : Fin k → Rat, (orient cells rhs equality).Meets y ↔
      if equality then ∑ c, (cells.get c).rat * y c = rhs.rat
      else ∑ c, (cells.get c).rat * y c ≤ rhs.rat := by
  obtain ⟨b, rfl⟩ := Exact.isFinite_iff.1 hrhs
  have hneg : ∀ c, (-cells.get c).rat = -(cells.get c).rat ∧
      Scalar.isFinite (-cells.get c) = true := fun c => by
    obtain ⟨a, ha⟩ := Exact.isFinite_iff.1 (hcells c)
    rw [ha]
    exact ⟨rfl, rfl⟩
  unfold orient
  simp only [Exact.zero_eq, Exact.fin_lt_fin, Exact.rat_fin]
  split
  · rename_i hlt
    refine ⟨⟨fun c => by rw [Vector.get_map]; exact (hneg c).2, rfl, ?_⟩, fun y => ?_⟩
    · exact neg_nonneg.2 (le_of_lt hlt)
    · have hlhs : ∑ c, ((cells.map (-·)).get c).rat * y c = -∑ c, (cells.get c).rat * y c := by
        rw [← Finset.sum_neg_distrib]
        refine Finset.sum_congr rfl fun c _ => ?_
        rw [Vector.get_map, (hneg c).1, neg_mul]
      cases equality
      · simp only [Meets, lhs, hlhs, Bool.false_eq_true, if_false, Exact.neg_fin, Exact.rat_fin,
          neg_le_neg_iff]
      · simp only [Meets, lhs, hlhs, if_true, Exact.neg_fin, Exact.rat_fin, neg_inj]
  · rename_i hnot
    refine ⟨⟨hcells, rfl, not_lt.1 hnot⟩, fun y => ?_⟩
    cases equality <;> simp [Meets, lhs]

end OpenRow

/-! ## Where the columns are -/

section Places

variable {F : Type} (rows : List (OpenRow F k))

/-- The column of the slack of row `i`. -/
def slackAt (i : Nat) : Nat := k + (rows.take i).countP (·.opening.hasSlack)

/-- The first artificial column. -/
abbrev artificialFrom : Nat := k + rows.countP (·.opening.hasSlack)

/-- The artificial column of row `i`. -/
def artificialAt (i : Nat) : Nat :=
  artificialFrom rows + (rows.take i).countP (·.opening.hasArtificial)

/-- The number of columns, with those of the slacks and the artificial ones. -/
abbrev layoutWidth : Nat := artificialFrom rows + rows.countP (·.opening.hasArtificial)

/-- Of two rows with a property, the later one has more of them before it. -/
theorem countP_take_ne {α : Type} (p : α → Bool) {xs : List α} {i j : Nat} (hi : i < xs.length)
    (hj : j < xs.length) (hpi : p xs[i] = true) (hpj : p xs[j] = true) (hne : i ≠ j) :
    (xs.take i).countP p ≠ (xs.take j).countP p := by
  have hless : ∀ {i j : Nat} (hi : i < xs.length), p xs[i] = true → i < j →
      (xs.take i).countP p < (xs.take j).countP p := by
    intro i j hi hpi hij
    have hi' : i < (xs.take j).length := by
      rw [List.length_take]
      omega
    have := countP_take_lt p hi' (by rwa [List.getElem_take])
    rwa [List.take_take, Nat.min_eq_left (le_of_lt hij)] at this
  rcases Nat.lt_or_gt_of_ne hne with hlt | hlt
  · exact ne_of_lt (hless hi hpi hlt)
  · exact ne_of_gt (hless hj hpj hlt)

variable {rows} {i j : Nat}

theorem le_artificialFrom : k ≤ artificialFrom rows := Nat.le_add_right _ _

theorem le_slackAt : k ≤ slackAt rows i := Nat.le_add_right _ _

theorem artificialFrom_le : artificialFrom rows ≤ artificialAt rows i := Nat.le_add_right _ _

theorem slackAt_lt (hi : i < rows.length) (h : rows[i].opening.hasSlack = true) :
    slackAt rows i < artificialFrom rows :=
  Nat.add_lt_add_left (countP_take_lt _ hi h) k

theorem artificialAt_lt (hi : i < rows.length) (h : rows[i].opening.hasArtificial = true) :
    artificialAt rows i < layoutWidth rows :=
  Nat.add_lt_add_left (countP_take_lt _ hi h) _

theorem slackAt_inj (hi : i < rows.length) (hj : j < rows.length)
    (hsi : rows[i].opening.hasSlack = true) (hsj : rows[j].opening.hasSlack = true)
    (h : slackAt rows i = slackAt rows j) : i = j := by
  by_contra hne
  exact countP_take_ne _ hi hj hsi hsj hne (Nat.add_left_cancel h)

theorem artificialAt_inj (hi : i < rows.length) (hj : j < rows.length)
    (hai : rows[i].opening.hasArtificial = true) (haj : rows[j].opening.hasArtificial = true)
    (h : artificialAt rows i = artificialAt rows j) : i = j := by
  by_contra hne
  exact countP_take_ne _ hi hj hai haj hne (Nat.add_left_cancel h)

end Places

/-! ## The tableau of a list of rows -/

/-- The rational part of a row. -/
def Row.rational {w : Nat} (row : Row Exact w) : Row Rat w :=
  ⟨row.basic, row.cells.map Exact.rat, row.rhs.rat⟩

/-- The tableau of a list of rows, over the rationals. -/
def layout (rows : List (OpenRow Exact k)) : Tableau Rat rows.length (layoutWidth rows) :=
  Tableau.ofRows (Vector.ofFn fun i => (layRow rows i).rational)

variable {rows : List (OpenRow Exact k)}

theorem rat_get_layRow (i : Fin rows.length) (c : Fin (layoutWidth rows)) :
    ((layRow rows i).cells.get c).rat =
      (if h : c.val < k then ((rows.get i).cells.get ⟨c, h⟩).rat else 0) +
      (if (rows.get i).opening.hasSlack = true ∧ c.val = slackAt rows i then
        if (rows.get i).opening = .surplus then -1 else 1 else 0) +
      if (rows.get i).opening.hasArtificial = true ∧ c.val = artificialAt rows i then 1 else 0 := by
  have hzero : (0 : Exact).rat = 0 := by rw [Exact.zero_eq, Exact.rat_fin]
  have hone : (1 : Exact).rat = 1 := by rw [Exact.one_eq, Exact.rat_fin]
  have hminus : (-1 : Exact).rat = -1 := by rw [Exact.one_eq, Exact.neg_fin, Exact.rat_fin]
  have hslack : (rows.get i).opening.hasSlack = true → slackAt rows i < artificialFrom rows :=
    slackAt_lt i.isLt
  have hbefore : k ≤ slackAt rows i := le_slackAt
  have hafter : artificialFrom rows ≤ artificialAt rows i := artificialFrom_le
  have hstructural : k ≤ artificialFrom rows := le_artificialFrom
  simp only [layRow, Vector.get_ofFn]
  by_cases hc : c.val < k
  · have hs : ¬ ((rows.get i).opening.hasSlack = true ∧ c.val = slackAt rows i) := by omega
    have ha : ¬ ((rows.get i).opening.hasArtificial = true ∧ c.val = artificialAt rows i) := by
      omega
    rw [dif_pos hc, dif_pos hc, if_neg hs, if_neg ha, add_zero, add_zero]
    rfl
  · rw [dif_neg hc, dif_neg hc, zero_add]
    by_cases hs : (rows.get i).opening.hasSlack = true ∧ c.val = slackAt rows i
    · have ha : ¬ ((rows.get i).opening.hasArtificial = true ∧ c.val = artificialAt rows i) := by
        have := hslack hs.1
        omega
      rw [if_pos hs, if_neg ha, add_zero, if_pos (by simpa [slackAt] using hs)]
      split
      · exact hminus
      · exact hone
    · rw [if_neg hs, zero_add, if_neg (by simpa [slackAt] using hs)]
      by_cases ha : (rows.get i).opening.hasArtificial = true ∧ c.val = artificialAt rows i
      · rw [if_pos ha, if_pos (by simpa [artificialAt] using ha)]
        exact hone
      · rw [if_neg ha, if_neg (by simpa [artificialAt] using ha)]
        exact hzero

theorem cell_layout (i : Fin rows.length) (c : Fin (layoutWidth rows)) :
    (layout rows).cell i c = ((layRow rows i).cells.get c).rat := by
  simp [layout, Tableau.cell, Tableau.ofRows, Row.rational]

theorem level_layout (i : Fin rows.length) :
    (layout rows).level i = (rows.get i).rhs.rat := by
  simp [layout, Tableau.level, Tableau.ofRows, Row.rational, layRow]

theorem basic_layout (i : Fin rows.length) : ((layout rows).basic i).val =
    if (rows.get i).opening.hasArtificial = true then artificialAt rows i else slackAt rows i := by
  have hbasic : (layout rows).basic i = (layRow rows i).basic := by
    simp [layout, Tableau.basic, Tableau.ofRows, Row.rational]
  rw [hbasic]
  simp only [layRow]
  split <;> rfl

/-- A row without an artificial column starts in its slack. -/
theorem Opening.eq_slack {o : Opening} (h : o.hasArtificial ≠ true) : o = .slack := by
  cases o <;> simp_all [Opening.hasArtificial]

/-- The columns that the rows start in are unit vectors. -/
theorem canonical_layout (rows : List (OpenRow Exact k)) : (layout rows).Canonical := by
  intro i i'
  rw [cell_layout, rat_get_layRow, basic_layout]
  by_cases ha' : (rows.get i').opening.hasArtificial = true
  · have hafter : artificialFrom rows ≤ artificialAt rows i' := artificialFrom_le
    have hstructural : k ≤ artificialFrom rows := le_artificialFrom
    have hk : ¬ artificialAt rows i' < k := by omega
    have hs : ¬ ((rows.get i).opening.hasSlack = true ∧ artificialAt rows i' = slackAt rows i) := by
      rintro ⟨hs, heq⟩
      have : slackAt rows i < artificialFrom rows := slackAt_lt i.isLt hs
      omega
    rw [if_pos ha', dif_neg hk, if_neg hs, zero_add, zero_add]
    by_cases heq : i = i'
    · subst heq
      rw [if_pos ⟨ha', rfl⟩, if_pos rfl]
    · rw [if_neg heq, if_neg]
      rintro ⟨ha, hat⟩
      exact heq (Fin.ext (artificialAt_inj i.isLt i'.isLt ha ha' hat.symm))
  · have hopening := Opening.eq_slack ha'
    have hs' : (rows.get i').opening.hasSlack = true := by rw [hopening]; rfl
    have hlt : slackAt rows i' < artificialFrom rows := slackAt_lt i'.isLt hs'
    have hafter : artificialFrom rows ≤ artificialAt rows i := artificialFrom_le
    have hbefore : k ≤ slackAt rows i' := le_slackAt
    have hk : ¬ slackAt rows i' < k := by omega
    have ha : ¬ ((rows.get i).opening.hasArtificial = true ∧
        slackAt rows i' = artificialAt rows i) := by omega
    rw [if_neg ha', dif_neg hk, if_neg ha, zero_add, add_zero]
    by_cases heq : i = i'
    · subst heq
      rw [if_pos ⟨hs', rfl⟩, if_pos rfl, hopening, if_neg (by decide)]
    · rw [if_neg heq, if_neg]
      rintro ⟨hs, hat⟩
      exact heq (Fin.ext (slackAt_inj i.isLt i'.isLt hs hs' hat.symm))

/-! ## Its image among the tableaus of exact scalars -/

theorem Row.lift_rational {w : Nat} {row : Row Exact w}
    (hcells : ∀ c, Scalar.isFinite (row.cells.get c) = true)
    (hrhs : Scalar.isFinite row.rhs = true) : row.rational.lift = row := by
  obtain ⟨basic, cells, rhs⟩ := row
  simp only [Row.rational, Row.lift, Vector.map_map, Exact.fin_rat hrhs]
  congr 1
  refine Vector.ext fun c hc => ?_
  rw [Vector.getElem_map]
  exact Exact.fin_rat (hcells ⟨c, hc⟩)

theorem isFinite_layRow (hrows : ∀ row ∈ rows, row.Finite) (i : Fin rows.length)
    (c : Fin (layoutWidth rows)) : Scalar.isFinite ((layRow rows i).cells.get c) = true := by
  simp only [layRow, Vector.get_ofFn]
  split
  · exact (hrows _ (List.get_mem rows i)).cells _
  · split
    · split <;> rfl
    · split <;> rfl

/-- The tableau of rows whose entries are rational. -/
theorem lift_layout (hrows : ∀ row ∈ rows, row.Finite) :
    (layout rows).lift = Tableau.ofRows (Vector.ofFn (layRow rows)) := by
  have hlift : ∀ i, (layRow rows i).rational.lift = layRow rows i := fun i =>
    Row.lift_rational (isFinite_layRow hrows i) (hrows _ (List.get_mem rows i)).rhs
  simp only [layout, Tableau.ofRows, Tableau.lift, CostRow.lift, Vector.map_replicate,
    Rational.zero_eq, ← Exact.zero_eq]
  congr 1
  exact Vector.ext fun i hi => by simp [hlift]

theorem level_layout_nonneg (hrows : ∀ row ∈ rows, row.Finite) (i : Fin rows.length) :
    0 ≤ (layout rows).level i := by
  rw [level_layout]
  exact (hrows _ (List.get_mem rows i)).nonneg

/-! ## Its vectors -/

/-- The entry of a vector at a number, zero if there is none. -/
def entry {w : Nat} (y : Fin w → Rat) (c : Nat) : Rat := if h : c < w then y ⟨c, h⟩ else 0

theorem entry_nonneg {w : Nat} {y : Fin w → Rat} (hy : ∀ c, 0 ≤ y c) (c : Nat) : 0 ≤ entry y c := by
  unfold entry
  split
  · exact hy _
  · exact le_rfl

/-- A sum over all columns of which only the first ones count. -/
theorem sum_first {w : Nat} (hk : k ≤ w) (a : Fin k → Rat) (y : Fin w → Rat) :
    ∑ c : Fin w, (if h : c.val < k then a ⟨c, h⟩ else 0) * y c =
      ∑ c, a c * y (Fin.castLE hk c) := by
  obtain ⟨d, rfl⟩ := Nat.exists_eq_add_of_le hk
  rw [Fin.sum_univ_add]
  have hrest : ∀ c : Fin d, ¬ k + c.val < k := fun c => by omega
  simp [hrest]
  rfl

/-- A sum over all columns of which only one counts. -/
theorem sum_single {w c₀ : Nat} (hlt : c₀ < w) (a : Rat) (y : Fin w → Rat) :
    ∑ c : Fin w, (if c.val = c₀ then a else 0) * y c = a * entry y c₀ := by
  have hterm : ∀ c : Fin w, (if c.val = c₀ then a else 0) * y c =
      if c = ⟨c₀, hlt⟩ then a * y c else 0 := fun c => by
    simp only [Fin.ext_iff, ite_mul, zero_mul]
  simp only [hterm]
  rw [Finset.sum_ite_eq', if_pos (Finset.mem_univ _), entry, dif_pos hlt]

theorem le_layoutWidth : k ≤ layoutWidth rows :=
  Nat.le_trans le_artificialFrom (Nat.le_add_right _ _)

/-- The structural part of a vector. -/
def structural (y : Fin (layoutWidth rows) → Rat) : Fin k → Rat :=
  fun c => y (Fin.castLE le_layoutWidth c)

/-- A row at a vector: the structural part, and the slack and artificial columns of the row. -/
theorem lhs_layout (i : Fin rows.length) (y : Fin (layoutWidth rows) → Rat) :
    (layout rows).lhs i y = (rows.get i).lhs (structural y) +
      (if (rows.get i).opening.hasSlack = true then
        (if (rows.get i).opening = .surplus then -1 else 1) * entry y (slackAt rows i) else 0) +
      if (rows.get i).opening.hasArtificial = true then entry y (artificialAt rows i) else 0 := by
  have hone : ∀ {p : Prop} [Decidable p] {c₀ : Nat} (a : Rat), (p → c₀ < layoutWidth rows) →
      ∑ c, (if p ∧ c.val = c₀ then a else 0) * y c = if p then a * entry y c₀ else 0 := by
    intro p _ c₀ a hlt
    by_cases hp : p
    · simp only [hp, true_and, if_true]
      exact sum_single (hlt hp) a y
    · simp [hp]
  have hslack : (rows.get i).opening.hasSlack = true → slackAt rows i < layoutWidth rows :=
    fun h => Nat.lt_of_lt_of_le (slackAt_lt i.isLt h) (Nat.le_add_right _ _)
  have hartificial : (rows.get i).opening.hasArtificial = true →
      artificialAt rows i < layoutWidth rows := artificialAt_lt i.isLt
  simp only [Tableau.lhs, cell_layout, rat_get_layRow, add_mul, Finset.sum_add_distrib]
  rw [hone _ hslack, hone _ hartificial, one_mul]
  congr 2
  exact sum_first _ (fun c => ((rows.get i).cells.get c).rat) y

/-- A vector that counts meets the rows. -/
theorem meets_of_admits {y : Fin (layoutWidth rows) → Rat}
    (hy : (layout rows).Admits (artificialFrom rows) y) (i : Fin rows.length) :
    (rows.get i).Meets (structural y) := by
  have hrow := hy.holds i
  have hartificial : entry y (artificialAt rows i) = 0 := by
    unfold entry
    split
    · exact hy.zero _ (Nat.le_add_right _ _)
    · rfl
  have hslack := entry_nonneg hy.nonneg (slackAt rows i)
  rw [lhs_layout, level_layout, hartificial, ite_self, add_zero] at hrow
  generalize entry y (slackAt rows i) = s at hrow hslack
  unfold OpenRow.Meets
  rcases hopening : (rows.get i).opening with _ | _ | _ <;> rw [hopening] at hrow <;>
    simp only [Opening.hasSlack, if_true, reduceCtorEq, if_false, Bool.false_eq_true, one_mul,
      neg_mul, add_zero] at hrow ⊢
  · linarith
  · linarith
  · exact hrow

/-- What a column after the structural ones makes up for: the slack of its row. -/
def slackOf (rows : List (OpenRow Exact k)) (y : Fin k → Rat) (c : Nat) : Rat :=
  ∑ i : Fin rows.length,
    if (rows.get i).opening.hasSlack = true ∧ c = slackAt rows i then (rows.get i).slack y else 0

/-- The structural columns with the slacks that they leave. -/
def withSlacks (rows : List (OpenRow Exact k)) (y : Fin k → Rat) (c : Fin (layoutWidth rows)) :
    Rat :=
  if h : c.val < k then y ⟨c, h⟩ else slackOf rows y c

section Slacks

variable {y : Fin k → Rat}

theorem slackOf_nonneg (hmeets : ∀ i : Fin rows.length, (rows.get i).Meets y) (c : Nat) :
    0 ≤ slackOf rows y c := Finset.sum_nonneg fun i _ => by
  split
  · exact (hmeets i).slack_nonneg
  · exact le_rfl

/-- No slack is at or after the first artificial column. -/
theorem slackOf_eq_zero {c : Nat} (hc : artificialFrom rows ≤ c) : slackOf rows y c = 0 :=
  Finset.sum_eq_zero fun i _ => if_neg fun h => by
    have : slackAt rows i < artificialFrom rows := slackAt_lt i.isLt h.1
    omega

theorem slackOf_slackAt {i : Fin rows.length} (hi : (rows.get i).opening.hasSlack = true) :
    slackOf rows y (slackAt rows i) = (rows.get i).slack y := by
  have hterm : ∀ i', (if (rows.get i').opening.hasSlack = true ∧
      slackAt rows i = slackAt rows i' then (rows.get i').slack y else 0) =
      if i' = i then (rows.get i').slack y else 0 := fun i' => by
    by_cases heq : i' = i
    · rw [heq, if_pos ⟨hi, rfl⟩, if_pos rfl]
    · rw [if_neg heq, if_neg]
      rintro ⟨hi', hat⟩
      exact heq (Fin.ext (slackAt_inj i'.isLt i.isLt hi' hi hat.symm))
  simp only [slackOf, hterm]
  simp

theorem structural_withSlacks : structural (withSlacks rows y) = y := by
  funext c
  exact dif_pos c.isLt

theorem entry_withSlacks {c : Nat} (hc : k ≤ c) :
    entry (withSlacks rows y) c = slackOf rows y c := by
  unfold entry
  split
  · exact dif_neg (not_lt.2 hc)
  · refine (slackOf_eq_zero ?_).symm
    have : artificialFrom rows ≤ layoutWidth rows := Nat.le_add_right _ _
    omega

/-- What meets the rows becomes a vector that counts with the slacks that it leaves. -/
theorem admits_withSlacks (hy : ∀ c, 0 ≤ y c)
    (hmeets : ∀ i : Fin rows.length, (rows.get i).Meets y) :
    (layout rows).Admits (artificialFrom rows) (withSlacks rows y) where
  nonneg c := by
    unfold withSlacks
    split
    · exact hy _
    · exact slackOf_nonneg hmeets _
  holds i := by
    have hartificial : entry (withSlacks rows y) (artificialAt rows i) = 0 := by
      rw [entry_withSlacks (Nat.le_trans le_artificialFrom artificialFrom_le),
        slackOf_eq_zero artificialFrom_le]
    rw [lhs_layout, level_layout, hartificial, ite_self, add_zero, structural_withSlacks,
      entry_withSlacks le_slackAt]
    have hmeets := hmeets i
    have hslack := slackOf_slackAt (y := y) (i := i)
    unfold OpenRow.Meets at hmeets
    unfold OpenRow.slack at hslack
    rcases hopening : (rows.get i).opening with _ | _ | _ <;> rw [hopening] at hmeets hslack <;>
      simp only [Opening.hasSlack, if_true, reduceCtorEq, if_false, Bool.false_eq_true, one_mul,
        neg_mul, add_zero, forall_const] at hmeets hslack ⊢
    · rw [hslack]
      ring
    · rw [hslack]
      ring
    · exact hmeets
  zero c hc := by
    have hnot : ¬ c.val < k := not_lt.2 (Nat.le_trans le_artificialFrom hc)
    exact (dif_neg hnot).trans (slackOf_eq_zero hc)

end Slacks

end Simplex

end Milp
