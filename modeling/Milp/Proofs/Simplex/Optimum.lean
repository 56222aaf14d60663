/-
  The two phases on a form whose tableau is one of rationals.

  * `EqualityForm.Rational`: the form is the image of a canonical tableau with a cost vector.
  * `EqualityForm.phase1_spec`: phase 1 ends in a basis of the rows, or no vector counts.
  * `EqualityForm.phase2_spec`: phase 2 ends in a best vector, or there are vectors of every cost.
  * `EqualityForm.lastValue?`: the objective in the last tableau, with its constant part.
-/
import Milp.Proofs.Simplex.Form
import Milp.Simplex.Solve

namespace Milp.Simplex

open Tableau

/-- The objective in the last tableau of phase 2, with its constant part. -/
def EqualityForm.lastValue? {F : Type} [Scalar F] {n : Nat} (form : EqualityForm F n)
    (opts : Options F) (late : Nat → Bool) : Option F :=
  (form.phase1 opts late).toOption.map fun basis =>
    ((basis.tableau.setCost form.cost).run opts late (opts.maxPivots - basis.pivots)
      basis.pivots).tableau.value + form.offset

namespace EqualityForm

variable {n : Nat} {form : EqualityForm Exact n} {opts : Options Exact} {late : Nat → Bool}
  {T : Tableau Rat form.height form.width} {q : Vector Rat form.width}

/-- The form is the image of a canonical tableau at a feasible point, with a cost vector. -/
structure Rational (form : EqualityForm Exact n) (T : Tableau Rat form.height form.width)
    (q : Vector Rat form.width) : Prop where
  rows : Tableau.ofRows form.rows = T.lift
  cost : form.cost = q.map .fin
  canonical : T.Canonical
  nonneg : ∀ i, 0 ≤ T.level i

theorem Rational.enterable (h : form.Rational T q) (j : Fin form.width) :
    T.enterable.get j = true := by
  have henterable : T.enterable = Vector.replicate form.width true :=
    (congrArg Tableau.enterable h.rows).symm
  simp [henterable]

/-- The scale is rational. -/
theorem exists_scale (h : Tableau.ofRows form.rows = T.lift) : ∃ s, form.scale = .fin s := by
  have hrows : form.rows = T.rows.map Row.lift := congrArg Tableau.rows h
  have hfold : (T.rows.toList.map Row.lift).foldl
      (fun acc row => Scalar.max acc (Scalar.abs row.rhs)) (.fin 1) =
        .fin (T.rows.toList.foldl (fun acc row => max acc (Scalar.abs row.rhs)) 1) := by
    rw [List.foldl_map]
    exact List.foldl_hom Exact.fin fun acc row => Exact.max_fin acc (Scalar.abs row.rhs)
  exact ⟨_, by rw [EqualityForm.scale, hrows, Vector.toList_map, Exact.one_eq, hfold]⟩

theorem artificialCost_eq :
    form.artificialCost = (Tableau.artificialCost form.width form.firstArtificial).map .fin := by
  refine Vector.ext fun c hc => ?_
  simp only [EqualityForm.artificialCost, Tableau.artificialCost, Vector.getElem_ofFn,
    Vector.getElem_map]
  split
  · exact Exact.one_eq
  · exact Exact.zero_eq

/-- Phase 1 answers with a basis of the rows in which artificial columns do not count, unless it
    runs into the pivot limit or no vector counts. -/
theorem phase1_spec (h : form.Rational T q) (hopts : opts.Strict) (hlate : ∀ k, late k = false) :
    match form.phase1 opts late with
    | .ok basis => ∃ T', basis.tableau = T'.lift ∧
        T.Expelled form.firstArtificial (List.finRange form.height) T'
    | .error report => report.verdict = .pivotLimit ∨
        report.verdict = .infeasible ∧ ∀ z, ¬ T.Admits form.firstArtificial z := by
  unfold EqualityForm.phase1
  by_cases hsome : form.firstArtificial < form.width
  · simp only [if_pos hsome, h.rows, artificialCost_eq, setCost_lift, run_lift _ hopts]
    have hrests := run_rests Options.rational_untolerant (ready_setCost h.canonical h.nonneg
      (Tableau.artificialCost form.width form.firstArtificial)) late opts.maxPivots 0
    generalize (T.setCost (Tableau.artificialCost form.width form.firstArtificial)).run
      Options.rational late opts.maxPivots 0 = halt at hrests ⊢
    have hjustified := hrests.justified
    unfold Halt.Justified at hjustified
    rcases hstop : halt.stop with _ | _ | _ | _ | _ <;> rw [hstop] at hjustified
    · obtain ⟨s, hs⟩ := exists_scale h.rows
      simp only [EqualityForm.feasible, value_lift, hopts.feasibility, hs, Exact.fin_mul_fin,
        zero_mul, Exact.fin_lt_fin]
      by_cases hvalue : 0 < halt.tableau.value
      · rw [if_pos hvalue]
        exact .inr ⟨rfl, fun z => phase1_infeasible h.canonical hrests h.enterable hstop hvalue⟩
      · rw [if_neg hvalue]
        simp only [block_lift, driveOut_lift _ hopts]
        exact ⟨_, rfl, expelled_driveOut Options.rational_untolerant
          (expelled_block h.enterable hrests (phase1_zero h.canonical hrests (not_lt.1 hvalue)))⟩
    · exact absurd hstop (phase1_bounded h.canonical hrests)
    · exact .inl rfl
    · rw [hlate] at hjustified
      cases hjustified
    · exact hjustified.elim
  · simp only [if_neg hsome]
    exact ⟨T, h.rows, expelled_of_le h.canonical h.nonneg h.enterable (not_lt.1 hsome)⟩

/-- Phase 2 answers with a best vector, unless it runs into the pivot limit or there are vectors of
    every cost. -/
theorem phase2_spec (h : form.Rational T q) (hopts : opts.Strict) (hlate : ∀ k, late k = false)
    {basis : Basis Exact form.height form.width} {T' : Tableau Rat form.height form.width}
    (hbasis : basis.tableau = T'.lift)
    (hT' : T.Expelled form.firstArtificial (List.finRange form.height) T') :
    match form.phase2 opts late basis with
    | .ok (ys, _) => ∃ z : Vector Rat form.width, ys = (z.map .fin).toList ∧
        T.Admits form.firstArtificial z.get ∧
        (∀ z', T.Admits form.firstArtificial z' →
          ∑ c, q.get c * z.get c ≤ ∑ c, q.get c * z' c) ∧
        ((basis.tableau.setCost form.cost).run opts late (opts.maxPivots - basis.pivots)
          basis.pivots).tableau.value = .fin (∑ c, q.get c * z.get c)
    | .error report => report.verdict = .pivotLimit ∨ report.verdict = .unbounded ∧
        ∀ bound, ∃ z, T.Admits form.firstArtificial z ∧ ∑ c, q.get c * z c < bound := by
  unfold EqualityForm.phase2
  simp only [hbasis, h.cost, setCost_lift, run_lift _ hopts]
  have hrests := run_rests Options.rational_untolerant
    (ready_setCost hT'.canonical hT'.nonneg q) late (opts.maxPivots - basis.pivots) basis.pivots
  generalize (T'.setCost q).run Options.rational late (opts.maxPivots - basis.pivots)
    basis.pivots = halt at hrests ⊢
  obtain ⟨hoptimal, hunbounded⟩ := phase2_rests hT' hrests
  have hjustified := hrests.justified
  unfold Halt.Justified at hjustified
  rcases hstop : halt.stop with _ | _ | _ | _ | _ <;> rw [hstop] at hjustified
  · obtain ⟨hpoint, hvalue, hbest⟩ := hoptimal hstop
    rw [hvalue] at hbest
    refine ⟨halt.tableau.primal, ?_, hpoint, hbest, ?_⟩
    · rw [primal_lift]
    · rw [value_lift, hvalue]
      rfl
  · exact .inr ⟨rfl, hunbounded hstop⟩
  · exact .inl rfl
  · rw [hlate] at hjustified
    cases hjustified
  · exact hjustified.elim

end EqualityForm

/-! ## Dense programs -/

namespace DenseProgram

variable {m n : Nat} {D : DenseProgram Exact m n} {opts : Options Exact} {late : Nat → Bool}
  {x : Fin n → Rat}

/-- The objective at a point, as a value to minimise. -/
def value (D : DenseProgram Exact m n) (x : Fin n → Rat) : Rat := ∑ j, (D.cost.get j).rat * x j

theorem Regular.rational (hD : D.Regular) :
    (EqualityForm.build D).Rational (layout D.opened) D.costs where
  rows := (lift_layout hD.toFinite.opened).symm
  cost := hD.cost_build
  canonical := canonical_layout _
  nonneg := level_layout_nonneg hD.toFinite.opened

/-- A vector of columns belongs to a point. -/
def Belongs (D : DenseProgram Exact m n) (z : Fin (layoutWidth D.opened) → Rat)
    (x : Fin n → Rat) : Prop :=
  ∃ val, structural z = columnValues D.substitutions val ∧ D.point val = x

/-- A vector that counts belongs to a point of the program. -/
theorem Regular.exists_point (hD : D.Regular) {z : Fin (layoutWidth D.opened) → Rat}
    (hz : (layout D.opened).Admits (artificialFrom D.opened) z) :
    ∃ x, D.Admits x ∧ D.Belongs z x := by
  obtain ⟨val, hval⟩ := exists_columnValues D.substitutions (structural z)
  refine ⟨D.point val, hD.admits_point (fun s hs => ?_) fun row hrow => ?_, val, hval.symm, rfl⟩
  · obtain ⟨c, rfl⟩ := List.get_of_mem hs
    have hc : val (D.columns.get c) = structural z c := congrFun hval c
    rw [hc]
    exact hz.nonneg _
  · obtain ⟨i, rfl⟩ := List.get_of_mem hrow
    rw [hval]
    exact meets_of_admits hz i

/-- A vector that counts belongs to every point of the program. -/
theorem Regular.exists_vector (hD : D.Regular) (hx : D.Admits x) :
    ∃ z, (layout D.opened).Admits (artificialFrom D.opened) z ∧ D.Belongs z x := by
  obtain ⟨val, hval, hmeets, hpoint⟩ := hD.exists_valuation hx
  exact ⟨withSlacks D.opened (columnValues D.substitutions val),
    admits_withSlacks (fun c => hval _ (List.get_mem _ c)) fun i => hmeets _ (List.get_mem _ i),
    val, structural_withSlacks, hpoint⟩

/-- The cost of a vector is the objective at its point, but for the constant part. -/
theorem Regular.sum_of_belongs (hD : D.Regular) {z : Fin (layoutWidth D.opened) → Rat}
    (hz : D.Belongs z x) :
    ∑ c, D.costs.get c * z c + (EqualityForm.build D).offset.rat = D.value x := by
  obtain ⟨val, hstructural, rfl⟩ := hz
  exact hD.sum_costs hstructural

/-- The point of a vector is read off it. -/
theorem Regular.recover_of_belongs (hD : D.Regular) {z : Vector Rat (layoutWidth D.opened)}
    (hz : D.Belongs z.get x) : (EqualityForm.build D).recover (z.map .fin).toList =
      .ok (Exact.vector x) := by
  obtain ⟨val, hstructural, rfl⟩ := hz
  have htake : (z.map Exact.fin).toList.take D.columns.length =
      D.columns.map fun s => .fin (val s) := by
    refine List.ext_getElem (by simpa using le_layoutWidth) fun c h₁ h₂ => ?_
    have hc : c < D.columns.length := by simpa using h₂
    have hentry := congrFun hstructural ⟨c, hc⟩
    simpa [structural, columnValues, Vector.get_eq_getElem] using hentry
  rw [← List.take_append_drop D.columns.length (z.map Exact.fin).toList, htake]
  exact hD.recover val _

/-- Both phases: the best point, or the reason why there is none. -/
theorem Regular.solve_spec (hD : D.Regular) (hopts : opts.Strict) (hlate : ∀ k, late k = false)
    (hheight : 0 < D.opened.length) :
    match (EqualityForm.build D).solve opts late with
    | .ok (ys, _) => ∃ x, (EqualityForm.build D).recover ys = .ok (Exact.vector x) ∧
        D.Admits x ∧ (∀ x', D.Admits x' → D.value x ≤ D.value x') ∧
        (EqualityForm.build D).lastValue? opts late = some (.fin (D.value x))
    | .error report => report.verdict = .pivotLimit ∨
        report.verdict = .infeasible ∧ (∀ x, ¬ D.Admits x) ∨
        report.verdict = .unbounded ∧ ∀ bound, ∃ x, D.Admits x ∧ D.value x < bound := by
  have hphase1 := EqualityForm.phase1_spec hD.rational hopts hlate
  unfold EqualityForm.solve EqualityForm.lastValue?
  generalize (EqualityForm.build D).phase1 opts late = result at hphase1 ⊢
  rcases result with report | basis
  · rcases hphase1 with hlimit | ⟨hinfeasible, hnone⟩
    · exact .inl hlimit
    · refine .inr (.inl ⟨hinfeasible, fun x hx => ?_⟩)
      obtain ⟨z, hz, -⟩ := hD.exists_vector hx
      exact hnone z hz
  · obtain ⟨T', hbasis, hT'⟩ := hphase1
    have hphase2 := EqualityForm.phase2_spec hD.rational hopts hlate hbasis hT'
    have hne : (EqualityForm.build D).height ≠ 0 := ne_of_gt hheight
    simp only [Bind.bind, Except.bind, if_neg hne]
    generalize (EqualityForm.build D).phase2 opts late basis = result at hphase2 ⊢
    rcases result with report | ⟨ys, pivots⟩
    · rcases hphase2 with hlimit | ⟨hunbounded, hbelow⟩
      · exact .inl hlimit
      · refine .inr (.inr ⟨hunbounded, fun bound => ?_⟩)
        obtain ⟨z, hz, hcost⟩ := hbelow (bound - (EqualityForm.build D).offset.rat)
        obtain ⟨x, hx, hbelongs⟩ := hD.exists_point hz
        exact ⟨x, hx, (hD.sum_of_belongs hbelongs).symm.trans_lt (lt_sub_iff_add_lt.1 hcost)⟩
    · obtain ⟨z, rfl, hz, hbest, hvalue⟩ := hphase2
      obtain ⟨x, hx, hbelongs⟩ := hD.exists_point hz
      have hcost := hD.sum_of_belongs hbelongs
      refine ⟨x, hD.recover_of_belongs hbelongs, hx, fun x' hx' => ?_, ?_⟩
      · obtain ⟨z', hz', hbelongs'⟩ := hD.exists_vector hx'
        rw [← hcost, ← hD.sum_of_belongs hbelongs']
        exact (add_le_add_iff_right _).2 (hbest z' hz')
      · have hoffset : .fin (EqualityForm.build D).offset.rat = (EqualityForm.build D).offset :=
          Exact.fin_rat (congrArg Scalar.isFinite hD.offset_eq)
        have hlast := congrArg₂ (· + ·) hvalue hoffset.symm
        exact congrArg some (hlast.trans (congrArg Exact.fin hcost))

end DenseProgram

end Milp.Simplex
