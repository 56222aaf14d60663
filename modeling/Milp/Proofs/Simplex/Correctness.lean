/-
  The simplex method in exact arithmetic, with no tolerance.

  * `Program.RepresentedBy`: the dense rows of a program over a box.
  * `Program.lastValue?`: the objective in the last tableau of a solve.
  * `Verdict.Correct`: what a verdict says of the points of a program.
  * `Program.solveOver_correct`: what a solve answers is true.
-/
import Milp.Proofs.Activity
import Milp.Proofs.Simplex.Optimum

namespace Milp

open Simplex

variable {P : Program Exact} {box : Box Exact} {opts : Options Exact} {clock : PivotClock}

/-! ## Dense rows -/

theorem bind_eq_ok {ε α β : Type} {a : Except ε α} {f : α → Except ε β} {b : β} :
    a >>= f = .ok b ↔ ∃ x, a = .ok x ∧ f x = .ok b := by
  rcases a with e | x <;> simp [Bind.bind, Except.bind]

theorem exists_ok_of_any {ε α : Type} {x : Except ε α} {p : α → Bool}
    (h : x.toOption.any p = true) : ∃ a, x = .ok a ∧ p a = true := by
  rcases x with e | a
  · cases h
  · exact ⟨a, rfl, h⟩

theorem Checked.getElem?_of_vector {α : Type} {n : Nat} {xs : List α} {v : Vector α n}
    (h : Checked.vector n xs = .ok v) (i : Fin n) : xs[i.val]? = some (v.get i) := by
  unfold Checked.vector at h
  split at h
  · cases h
    rw [List.getElem?_eq_getElem (by omega)]
    rfl
  · cases h

/-- A dense program has the rows, the bounds and the objective of a program over a box. -/
structure Program.RepresentedBy {F : Type} [Scalar F] (P : Program F) (box : Box F)
    (D : DenseProgram F P.height P.vars) : Prop where
  cells : ∀ i j, (D.rows.get i).get j = P.matrix.cell i j
  rhs : ∀ i : Fin P.height, P.rhs[i.val]? = some (D.rhs.get i)
  equality : ∀ i : Fin P.height,
    (P.blocks.flatMap Block.flags)[i.val]? = some (D.equality.get i)
  cost : ∀ (j : Fin P.vars) (q : F), P.cost[j.val]? = some q →
    D.cost.get j = P.sense.normalize q
  lower : ∀ j : Fin P.vars, box.lower[j.val]? = some (D.lower.get j)
  upper : ∀ j : Fin P.vars, box.upper[j.val]? = some (D.upper.get j)
  fits : P.blockRows ≤ max P.height addressable

/-- There is a row in the tableau: one of the program, or that of a variable with two finite
    bounds. -/
def Program.HasTableauRow (P : Program Exact) (box : Box Exact) : Prop :=
  0 < P.height ∨ ∃ (j : Nat) (l u : Rat), j < P.vars ∧
    box.lower[j]? = some (.fin l) ∧ box.upper[j]? = some (.fin u)

theorem Program.representedBy_of_eq_ok {F : Type} [Scalar F] {P : Program F} {box : Box F}
    {D : DenseProgram F P.height P.vars} (h : DenseProgram.of P box = .ok D) :
    P.RepresentedBy box D := by
  obtain ⟨rows, hcells, h⟩ := bind_eq_ok.1 h
  obtain ⟨flags, hflags, h⟩ := bind_eq_ok.1 h
  obtain ⟨equality, hequality, h⟩ := bind_eq_ok.1 h
  obtain ⟨lower, hlower, h⟩ := bind_eq_ok.1 h
  obtain ⟨upper, hupper, h⟩ := bind_eq_ok.1 h
  cases h
  constructor
  · intro i j
    unfold Program.cells at hcells
    split at hcells
    · cases hcells
      simp
    · cases hcells
  · intro i
    rw [List.getElem?_eq_getElem i.isLt]
    rfl
  · intro i
    have hflag := Checked.getElem?_of_vector hequality i
    rw [Program.flags_of_firstEqualities hflags, List.getElem?_take] at hflag
    split at hflag
    · exact hflag
    · cases hflag
  · intro j q hq
    obtain ⟨-, rfl⟩ := List.getElem?_eq_some_iff.1 hq
    exact Vector.get_map _ _ _
  · exact Checked.getElem?_of_vector hlower
  · exact Checked.getElem?_of_vector hupper
  · unfold Program.equalities Program.firstEqualities at hflags
    split at hflags
    · assumption
    · cases hflags

/-- The rows of a valid program are dense rows, if its blocks are no larger than it. -/
theorem exists_dense {F : Type} [Scalar F] {P : Program F} {box : Box F} (h : P.Valid)
    (hlower : box.lower.length = P.vars) (hupper : box.upper.length = P.vars)
    (hblocks : P.blockRows = P.height) : ∃ D, DenseProgram.of P box = .ok D := by
  have hcells := h.cells_eq
  obtain ⟨hflags, hlength⟩ := Program.equalities_eq hblocks
  have hvector : ∀ {α : Type} {n : Nat} {xs : List α}, xs.length = n →
      ∃ v, Checked.vector n xs = .ok v := by
    intro α n xs hxs
    rw [Checked.vector, dif_pos hxs]
    exact ⟨_, rfl⟩
  obtain ⟨equality, hequality⟩ := hvector hlength
  obtain ⟨lower, hlower⟩ := hvector hlower
  obtain ⟨upper, hupper⟩ := hvector hupper
  unfold DenseProgram.of
  simp only [hcells, hflags, Bind.bind, Except.bind, hequality, hlower, hupper]
  exact ⟨_, rfl⟩

namespace Program.RepresentedBy

variable {D : DenseProgram Exact P.height P.vars} {x : Fin P.vars → Rat}

/-- The dense rows of a valid program. -/
theorem finite (hD : P.RepresentedBy box D) (h : P.Valid) : D.Finite where
  cells i j := by
    rw [hD.cells]
    exact h.finite_cell i j
  rhs i := List.all_eq_true.1 h.finite.2.1 _ (List.mem_of_getElem? (hD.rhs i))

/-- They are regular over a box without an empty domain. -/
theorem regular (hD : P.RepresentedBy box D) (h : P.Valid)
    (hlower : ∀ l ∈ box.lower, l < .posInf) (hupper : ∀ u ∈ box.upper, .negInf < u)
    (hdomain : box.emptyDomain? (.fin 0) = none) : D.Regular where
  toFinite := hD.finite h
  cost j := by
    obtain ⟨q, hq⟩ := Exact.normalize_fin P.sense (P.weight j)
    rw [hD.cost j _ (h.cost_eq j), hq]
    rfl
  lower j := hlower _ (List.mem_of_getElem? (hD.lower j))
  upper j := hupper _ (List.mem_of_getElem? (hD.upper j))
  ordered j := by
    have hl := hlower _ (List.mem_of_getElem? (hD.lower j))
    have hu := hupper _ (List.mem_of_getElem? (hD.upper j))
    have hzip : (D.lower.get j, D.upper.get j) ∈ box.lower.zip box.upper :=
      List.mem_of_getElem? (List.getElem?_zip_eq_some.2 ⟨hD.lower j, hD.upper j⟩)
    have hnot := List.findIdx?_eq_none_iff.1 hdomain _ hzip
    simp only [Exact.add_fin_zero, decide_eq_false_iff_not] at hnot
    refine Exact.le_of_not_lt (fun hnan => ?_) (fun hnan => ?_) hnot
    · simp [hnan, Exact.lt_def, Exact.below] at hl
    · simp [hnan, Exact.lt_def, Exact.below] at hu

/-- The points of the dense rows are those of the program. -/
theorem admits_iff (hD : P.RepresentedBy box D) (h : P.Valid) : D.Admits x ↔ P.Admits box x := by
  have hrow : ∀ i b, P.rhs[i.val]? = some b → (D.RowHolds i x ↔
      if D.equality.get i then .fin (P.activity x i) = b else .fin (P.activity x i) ≤ b) := by
    intro i b hb
    obtain ⟨q, rfl⟩ := Exact.isFinite_iff.1
      (List.all_eq_true.1 h.finite.2.1 _ (List.mem_of_getElem? hb))
    have hrhs : D.rhs.get i = .fin q := Option.some.inj ((hD.rhs i).symm.trans hb)
    simp only [DenseProgram.RowHolds, hD.cells, hrhs, Exact.rat_fin, Exact.fin.injEq,
      Exact.fin_le_fin, Program.activity]
  constructor
  · intro hx
    constructor
    · intro i b equality hb hflag
      have hi : i < P.height := (List.getElem?_eq_some_iff.1 hb).1
      have hequality := Option.some.inj ((hD.equality ⟨i, hi⟩).symm.trans hflag)
      exact hequality ▸ (hrow ⟨i, hi⟩ b hb).1 (hx.rows ⟨i, hi⟩)
    · intro j l hl
      exact Option.some.inj ((hD.lower j).symm.trans hl) ▸ hx.lower j
    · intro j u hu
      exact Option.some.inj ((hD.upper j).symm.trans hu) ▸ hx.upper j
  · intro hx
    constructor
    · intro i
      exact (hrow i _ (hD.rhs i)).2 (hx.rows i _ _ (hD.rhs i) (hD.equality i))
    · exact fun j => hx.lower j _ (hD.lower j)
    · exact fun j => hx.upper j _ (hD.upper j)

/-- The objective of the dense rows is the one of the program, as a value to minimise. -/
theorem normalize_objective (hD : P.RepresentedBy box D) (h : P.Valid) :
    P.sense.normalize (P.objective (Exact.vector x)) = .fin (D.value x) := by
  rw [Program.objective_vector h, DenseProgram.value]
  simp only [hD.cost _ _ (h.cost_eq _)]
  cases P.sense
  · rfl
  · simp only [Sense.normalize, Exact.neg_fin, Exact.rat_fin, neg_mul, Finset.sum_neg_distrib]

theorem opened_pos (hD : P.RepresentedBy box D) (hrow : P.HasTableauRow box) :
    0 < D.opened.length := by
  rcases hrow with hrow | ⟨j, l, u, hj, hl, hu⟩
  · exact List.length_pos_of_mem (D.mem_opened_of_row ⟨0, hrow⟩)
  · have hlower : D.lower.get ⟨j, hj⟩ = .fin l := Option.some.inj ((hD.lower ⟨j, hj⟩).symm.trans hl)
    have hupper : D.upper.get ⟨j, hj⟩ = .fin u := Option.some.inj ((hD.upper ⟨j, hj⟩).symm.trans hu)
    obtain ⟨row, hwidth⟩ := DenseProgram.exists_widthRow hlower hupper
    exact List.length_pos_of_mem (DenseProgram.mem_opened_of_width hwidth)

end Program.RepresentedBy

/-! ## Points that are answered -/

section Points

variable {x : Fin P.vars → Rat}

/-- A value within an interval is not put anywhere else. -/
theorem Simplex.snap_of_mem {i : Interval Exact} {a : Exact} (slack : Exact) (hl : i.lower ≤ a)
    (hu : a ≤ i.upper) : snap slack i a = a := by
  simp [snap, Exact.not_lt_of_le hl, Exact.not_lt_of_le hu]

theorem Program.Admits.snap (hx : P.Admits box x) (hlower : box.lower.length = P.vars)
    (hupper : box.upper.length = P.vars) (slack : Exact) :
    List.zipWith (Simplex.snap slack) (List.zipWith Interval.mk box.lower box.upper)
      (Exact.vector x) = Exact.vector x := by
  refine List.ext_getElem (by simp [hlower, hupper]) fun j h₁ h₂ => ?_
  have hj : j < P.vars := by simpa using h₂
  simp only [List.getElem_zipWith, Exact.getElem_vector]
  exact Simplex.snap_of_mem slack
    (hx.lower ⟨j, hj⟩ _ (List.getElem?_eq_getElem (hlower.symm ▸ hj)))
    (hx.upper ⟨j, hj⟩ _ (List.getElem?_eq_getElem (hupper.symm ▸ hj)))

/-- A point of the program is within tolerance. -/
theorem Program.Admits.assess (hx : P.Admits box x) (h : P.Valid)
    (hfits : P.blockRows ≤ max P.height addressable) (hresidual : 0 ≤ opts.residual) {n : Nat}
    (form : EqualityForm Exact n) (basis : Basis Exact form.height form.width) (phase2 : Nat) :
    ∃ report, Simplex.assess P box opts form basis phase2 (Exact.vector x) = .ok report ∧
      report.verdict = .optimal (Exact.vector x) (P.objective (Exact.vector x)) := by
  have hzero : Scalar.max (Exact.fin 0) (.fin 0) = .fin 0 := by rw [Exact.max_fin, max_self]
  have hfinite : Scalar.isFinite (Exact.fin 0) = true := rfl
  have hscale := Exact.le_of_lt (Scalar.pos_of_one_le form.one_le_scale)
  have hwithin := Exact.not_mul_lt_zero (Exact.not_lt_of_le hresidual) (Exact.not_lt_of_le hscale)
  unfold Simplex.assess
  rw [hx.violation h (if_pos hfits), hx.box_violation]
  simp only [Bind.bind, Except.bind, hzero, hfinite, hwithin, Bool.not_true, decide_false,
    Bool.or_false, Bool.false_eq_true, if_false]
  exact ⟨_, rfl, rfl⟩

/-- Where the bounds of a variable are crossed, no point is within them. -/
theorem not_admits_of_emptyDomain {var : Nat} (hlower : box.lower.length = P.vars)
    (hdomain : box.emptyDomain? (.fin 0) = some var) : ¬ P.Admits box x := by
  intro hx
  obtain ⟨hlt, hcrossed, -⟩ := List.findIdx?_eq_some_iff_getElem.1 hdomain
  simp only [List.getElem_zip, Exact.add_fin_zero, decide_eq_true_eq] at hcrossed
  rw [List.length_zip, lt_min_iff] at hlt
  have hvar : var < P.vars := hlower ▸ hlt.1
  have hl := hx.lower ⟨var, hvar⟩ _ (List.getElem?_eq_getElem hlt.1)
  have hu := hx.upper ⟨var, hvar⟩ _ (List.getElem?_eq_getElem hlt.2)
  exact Exact.not_lt_of_le (Exact.le_trans hl hu) hcrossed

end Points

/-! ## The answer -/

/-- The objective in the last tableau of a solve, with the constant part of its form. -/
def Program.lastValue? {F : Type} [Scalar F] (P : Program F) (box : Box F) (opts : Options F)
    (clock : PivotClock) : Except Fault (Option F) := do
  return (EqualityForm.build (← DenseProgram.of P box)).lastValue? opts (opts.late clock)

theorem Program.solveOver_eq_ok {F : Type} [Scalar F] {P : Program F} {box : Box F}
    {opts : Options F} {report : Report F} : P.solveOver box opts clock = .ok report ↔
      P.validate = .ok () ∧ (box.lower.length = P.vars ∧ box.upper.length = P.vars) ∧
        solveBox P box opts clock = .ok report := by
  have hmap : (solveBox P box opts clock).mapError (Refusal.fault : Fault → Refusal F) = .ok report ↔
      solveBox P box opts clock = .ok report := by
    rcases solveBox P box opts clock with e | r <;> simp [Except.mapError]
  unfold solveOver
  rcases hvalid : P.validate with e | _
  · simp [Except.mapError, Bind.bind, Except.bind]
  · by_cases hlengths : box.lower.length = P.vars ∧ box.upper.length = P.vars
    · rw [if_neg (by simp [hlengths])]
      refine hmap.trans ?_
      simp [hlengths]
    · rw [if_pos (by rwa [not_and_or] at hlengths)]
      simp [hlengths, Except.mapError, Bind.bind, Except.bind, throw, throwThe,
        MonadExceptOf.throw]

/-- What a verdict says of the points of a program over a box, where the last tableau has the
    objective `last`. -/
def Simplex.Verdict.Correct (P : Program Exact) (box : Box Exact)
    (last : Except Fault (Option Exact)) : Verdict Exact → Prop
  | .optimal xs objective => ∃ x, xs = Exact.vector x ∧ P.Admits box x ∧
      objective = P.objective xs ∧ last = .ok (some (P.sense.normalize objective)) ∧
      ∀ x', P.Admits box x' →
        P.sense.normalize objective ≤ P.sense.normalize (P.objective (Exact.vector x'))
  | .infeasible => ∀ x, ¬ P.Admits box x
  | .unbounded => ∀ bound, ∃ x, P.Admits box x ∧
      P.sense.normalize (P.objective (Exact.vector x)) < .fin bound
  | .pivotLimit => True
  | .timeLimit | .numericalError => False

section Solve

variable (hopts : opts.Strict) (hresidual : 0 ≤ opts.residual) (htime : opts.timeLimit = none)
  (hlower : ∀ l ∈ box.lower, l < .posInf) (hupper : ∀ u ∈ box.upper, .negInf < u)
  (hrow : P.HasTableauRow box)

include hopts hresidual htime hlower hupper hrow

theorem Simplex.solveBox_correct {D : DenseProgram Exact P.height P.vars} (h : P.Valid)
    (hlengths : box.lower.length = P.vars ∧ box.upper.length = P.vars)
    (hdense : DenseProgram.of P box = .ok D) :
    ∃ report, solveBox P box opts clock = .ok report ∧
      report.verdict.Correct P box (P.lastValue? box opts clock) := by
  have hlate : ∀ k, opts.late clock k = false := fun k => by rw [Options.late, htime]; rfl
  unfold solveBox Program.lastValue?
  rw [hopts.feasibility]
  rcases hdomain : box.emptyDomain? (.fin 0) with _ | var
  · have hD := Program.representedBy_of_eq_ok hdense
    have hregular := hD.regular h hlower hupper hdomain
    have hheight := hD.opened_pos hrow
    have hsolve := hregular.solve_spec hopts hlate hheight
    simp only [hdense, Bind.bind, Except.bind]
    generalize (EqualityForm.build D).solve opts (opts.late clock) = result at hsolve ⊢
    rcases result with report | ⟨ys, phase2, basis⟩
    · refine ⟨report, rfl, ?_⟩
      rcases hsolve with hverdict | ⟨hverdict, hnone⟩ | ⟨hverdict, hbelow⟩ <;> rw [hverdict]
      · trivial
      · exact fun x hx => hnone x ((hD.admits_iff h).2 hx)
      · intro bound
        obtain ⟨x, hx, hlt⟩ := hbelow bound
        refine ⟨x, (hD.admits_iff h).1 hx, ?_⟩
        rw [hD.normalize_objective h, Exact.fin_lt_fin]
        exact hlt
    · obtain ⟨x, hrecover, hx, hbest, hlast⟩ := hsolve
      have hadmits := (hD.admits_iff h).1 hx
      simp only [hrecover, hadmits.snap hlengths.1 hlengths.2]
      obtain ⟨report, hreport, hverdict⟩ :=
        hadmits.assess h hD.fits hresidual (EqualityForm.build D) basis phase2
      refine ⟨report, hreport, ?_⟩
      rw [hverdict]
      refine ⟨x, rfl, hadmits, rfl, ?_, fun x' hx' => ?_⟩
      · rw [hlast, hD.normalize_objective h]
        rfl
      · rw [hD.normalize_objective h, hD.normalize_objective h, Exact.fin_le_fin]
        exact hbest x' ((hD.admits_iff h).2 hx')
  · exact ⟨_, rfl, fun x => not_admits_of_emptyDomain hlengths.1 hdomain⟩

end Solve

/-- **Correctness of the simplex method.**  In exact arithmetic without tolerance and without a time
    limit, over a box whose bounds leave room on their side, and with at least one row in the
    tableau, a solve never ends in a numerical error.  An optimal point satisfies rows and bounds,
    its objective is the one of the last tableau, and no other point has a better one; a program that
    is infeasible has no point; one that is unbounded has points with any objective.  A valid program
    is answered, unless the sizes of its blocks wrap. -/
theorem Program.solveOver_correct (hopts : opts.Strict) (hresidual : 0 ≤ opts.residual)
    (htime : opts.timeLimit = none) (hlower : ∀ l ∈ box.lower, l < .posInf)
    (hupper : ∀ u ∈ box.upper, .negInf < u)
    (hrow : P.HasTableauRow box) :
    (P.validate = .ok () → box.lower.length = P.vars ∧ box.upper.length = P.vars →
      P.blockRows = P.height → ∃ report, P.solveOver box opts clock = .ok report) ∧
    ∀ report, P.solveOver box opts clock = .ok report →
      report.verdict.Correct P box (P.lastValue? box opts clock) := by
  constructor
  · intro hvalid hlengths hblocks
    obtain ⟨D, hdense⟩ := exists_dense (validate_eq_ok hvalid) hlengths.1 hlengths.2 hblocks
    obtain ⟨report, hreport, -⟩ := Simplex.solveBox_correct hopts hresidual htime hlower hupper hrow
      (validate_eq_ok hvalid) hlengths hdense
    exact ⟨report, solveOver_eq_ok.2 ⟨hvalid, hlengths, hreport⟩⟩
  · intro report h
    obtain ⟨hvalid, hlengths, hsolve⟩ := solveOver_eq_ok.1 h
    rcases hdense : DenseProgram.of P box with e | D
    · -- without dense rows only an empty domain is answered
      unfold solveBox at hsolve
      rw [hopts.feasibility, hdense] at hsolve
      rcases hdomain : box.emptyDomain? (.fin 0) with _ | var
      · rw [hdomain] at hsolve; cases hsolve
      · rw [hdomain] at hsolve
        cases hsolve
        exact fun x => not_admits_of_emptyDomain hlengths.1 hdomain
    · obtain ⟨report', hreport, hverdict⟩ := Simplex.solveBox_correct hopts hresidual htime hlower
        hupper hrow (validate_eq_ok hvalid) hlengths hdense
      cases hsolve.symm.trans hreport
      exact hverdict

/-- No tolerance, but for the one that points are measured with. -/
def Simplex.Options.exact : Options Exact :=
  { Options.standard with
    feasibility := .fin 0
    pivot := .fin 0
    optimality := .fin 0
    tie := .fin 0
    roundOff := .fin 0 }

/-- Maximise `3 x₀ + 2 x₁` where `x₀ + x₁ = 4` and `x₀ - 2 x₁ ≤ -2`. -/
def slope : Program Exact where
  cost := [3, 2]
  matrix := ⟨2, 2, [[(0, 1), (1, 1)], [(0, 1), (1, -2)]], rfl, by decide, by simp [Column.Sorted]⟩
  rhs := [4, -2]
  blocks := [.equality 1, .atMost 1]
  sense := .maximize

/-- The first variable of `slope` is within `[0, 3]`, the second one is free. -/
def slopeBox : Box Exact := ⟨[0, .negInf], [3, .posInf]⟩

theorem slope_solved : (slope.solveOver slopeBox Options.exact PivotClock.still).toOption.map
    Report.verdict = some (.optimal (Exact.vector ![2, 2]) 10) := by
  decide +kernel

/-- The best point of `slope` is `(2, 2)`. -/
theorem Program.solveOver_correct_slope : ∃ report,
    slope.solveOver slopeBox Options.exact PivotClock.still = .ok report ∧
    report.verdict = .optimal (Exact.vector ![2, 2]) 10 ∧
    report.verdict.Correct slope slopeBox
      (slope.lastValue? slopeBox Options.exact PivotClock.still) := by
  have hstrict : Options.exact.Strict := ⟨rfl, rfl, rfl, rfl, rfl⟩
  obtain ⟨hanswered, hcorrect⟩ := @solveOver_correct slope slopeBox Options.exact PivotClock.still
    hstrict (by decide +kernel) rfl (by decide +kernel) (by decide +kernel) (.inl (by decide))
  obtain ⟨report, hreport⟩ := hanswered (by decide +kernel) ⟨rfl, rfl⟩ rfl
  have hsolved := slope_solved
  rw [hreport] at hsolved
  exact ⟨report, hreport, Option.some.inj hsolved, hcorrect report hreport⟩

end Milp
