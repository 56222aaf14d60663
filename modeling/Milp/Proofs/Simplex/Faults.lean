/-
  When the solver reads out of range.

  The rows of a valid program are always laid out, pivoted and measured within their vectors.  What is
  left is a form without rows: its solution is the empty list, and the values of the variables cannot
  be read off it.

  * `EqualityForm.height_build`: when a form has no rows.
  * `EqualityForm.recover_ok`, `EqualityForm.recover_nil`: reading off a solution, and off the empty
    list.
  * `EqualityForm.Within`: what solving a form ends in: within the pivot limit, and with a value for
    every column unless there are no rows.
  * `Program.solveOver_fault_iff`: the only fault, for every program, box and options.
-/
import Milp.Proofs.Simplex.Correctness

namespace Milp

namespace Simplex

variable {F : Type} [Scalar F] {m n : Nat}

/-! ## The shape of a form -/

/-- A form has no rows if the program has none, and no variable has two finite bounds. -/
theorem EqualityForm.height_build (D : DenseProgram F m n) : (EqualityForm.build D).height = 0 ↔
    m = 0 ∧ ∀ j, ¬ (Scalar.isFinite (D.lower.get j) = true ∧
      Scalar.isFinite (D.upper.get j) = true) := by
  have hwidths : ∀ (sources : List (Source n)),
      (List.finRange n).filterMap (D.widthRow? sources) = [] ↔
        ∀ j, ¬ (Scalar.isFinite (D.lower.get j) = true ∧
          Scalar.isFinite (D.upper.get j) = true) := by
    intro sources
    rw [List.filterMap_eq_nil_iff]
    refine ⟨fun h j => ?_, fun h j _ => ?_⟩
    · have hj := h j (List.mem_finRange j)
      unfold DenseProgram.widthRow? at hj
      split at hj
      · cases hj
      · rwa [Bool.and_eq_true] at *
    · unfold DenseProgram.widthRow?
      rw [if_neg]
      rw [Bool.and_eq_true]
      exact h j
  show (D.openRows _ _).length = 0 ↔ _
  rw [DenseProgram.openRows, List.length_append, List.length_map, List.length_finRange,
    Nat.add_eq_zero_iff, List.length_eq_zero_iff, hwidths]

/-- Without rows there are no artificial columns. -/
theorem EqualityForm.firstArtificial_build {D : DenseProgram F m n}
    (h : (EqualityForm.build D).height = 0) :
    ¬ (EqualityForm.build D).firstArtificial < (EqualityForm.build D).width := by
  have hrows : D.openRows D.substitutions (structuralColumns D.substitutions) = [] :=
    List.length_eq_zero_iff.1 h
  show ¬ _ + _ < _ + _ + _
  rw [hrows]
  simp

/-! ## Reading the variables off the columns -/

/-- A variable is read off the values of its columns. -/
theorem Substitution.recover_cons {s : Substitution F} {subs : List (Substitution F)}
    {xs ys : List F} (j : Fin n) (h : (s.sources j).length ≤ ys.length)
    (hxs : Substitution.recover subs (ys.drop (s.sources j).length) = .ok xs) :
    ∃ x, Substitution.recover (s :: subs) ys = .ok (x :: xs) := by
  rcases s with offset | offset | _
  · rcases ys with _ | ⟨y, ys⟩
    · cases h
    · exact ⟨offset + y, congrArg (Except.map (_ :: ·)) hxs⟩
  · rcases ys with _ | ⟨y, ys⟩
    · cases h
    · exact ⟨offset - y, congrArg (Except.map (_ :: ·)) hxs⟩
  · rcases ys with _ | ⟨pos, _ | ⟨neg, ys⟩⟩
    · cases h
    · simp [Substitution.sources] at h
    · exact ⟨pos - neg, congrArg (Except.map (_ :: ·)) hxs⟩

/-- There are enough values for the columns of some variables. -/
theorem Substitution.recover_ok (subs : Vector (Substitution F) n) (js : List (Fin n))
    {ys : List F} (h : (js.flatMap fun j => (subs.get j).sources j).length ≤ ys.length) :
    ∃ xs, Substitution.recover (js.map subs.get) ys = .ok xs ∧ xs.length = js.length := by
  induction js generalizing ys with
  | nil => exact ⟨[], rfl, rfl⟩
  | cons j js ih =>
    rw [List.flatMap_cons, List.length_append] at h
    have hrest : (js.flatMap fun j => (subs.get j).sources j).length ≤
        (ys.drop ((subs.get j).sources j).length).length := by
      rw [List.length_drop]
      exact Nat.le_sub_of_add_le' h
    obtain ⟨xs, hxs, hlength⟩ := ih hrest
    obtain ⟨x, hx⟩ := Substitution.recover_cons j (Nat.le_of_add_right_le h) hxs
    exact ⟨x :: xs, hx, congrArg Nat.succ hlength⟩

namespace EqualityForm

/-- Nothing can be read off the empty list, unless there is no variable. -/
theorem recover_nil (form : EqualityForm F n) :
    form.recover [] = if n = 0 then .ok [] else .error .outOfRange := by
  have hlength : form.substitutions.toList.length = n := by simp
  unfold recover
  generalize form.substitutions.toList = subs at hlength
  rcases subs with _ | ⟨s, subs⟩
  · rw [if_pos (by simpa using hlength.symm)]
    rfl
  · rw [if_neg (by rw [← hlength]; simp)]
    cases s <;> rfl

/-- The variables are read off a solution, unless it is empty and there are variables. -/
theorem recover_ok (D : DenseProgram F m n) {ys : List F}
    (h : ys.length = if (EqualityForm.build D).height = 0 then 0
      else (EqualityForm.build D).width)
    (hrows : ¬ ((EqualityForm.build D).height = 0 ∧ 0 < n)) :
    ∃ xs, (EqualityForm.build D).recover ys = .ok xs ∧ xs.length = n := by
  by_cases hheight : (EqualityForm.build D).height = 0
  · have hn : n = 0 := Nat.eq_zero_of_not_pos fun hn => hrows ⟨hheight, hn⟩
    rw [if_pos hheight, List.length_eq_zero_iff] at h
    rw [h, recover_nil, if_pos hn]
    exact ⟨[], rfl, hn.symm⟩
  · rw [if_neg hheight] at h
    have hcolumns : (structuralColumns D.substitutions).length ≤ ys.length := by
      rw [h]
      exact Nat.le_trans (Nat.le_add_right _ _) (Nat.le_add_right _ _)
    obtain ⟨xs, hxs, hlength⟩ := Substitution.recover_ok D.substitutions (List.finRange n) hcolumns
    exact ⟨xs, (D.recover_build ys).trans hxs, hlength.trans (List.length_finRange)⟩

end EqualityForm

/-! ## Solving a form -/

/-- A run keeps to its budget. -/
theorem Tableau.pivots_run {w : Nat} (opts : Options F) (late : Nat → Bool) (budget pivots : Nat)
    (T : Tableau F m w) : pivots ≤ (T.run opts late budget pivots).pivots ∧
      (T.run opts late budget pivots).pivots ≤ pivots + budget := by
  induction budget generalizing pivots T with
  | zero =>
    rw [run]
    split <;> simp
  | succ budget ih =>
    rw [run]
    split
    · simp
    · split
      · simp
      · simp only
        split
        · have := ih (pivots + 1) (T.pivot opts ‹_› ‹_›)
          omega
        · simp

namespace EqualityForm

variable {form : EqualityForm F n} {opts : Options F} {late : Nat → Bool}

/-- What solving a form ends in.  All pivots are within the limit, and there is a value for every
    column, unless there are no rows. -/
def Within (form : EqualityForm F n) (limit : Nat) :
    Except (Report F) (List F × Nat × Basis F form.height form.width) → Prop
  | .error report => report.phase1 + report.phase2 ≤ limit
  | .ok (ys, phase2, basis) => basis.pivots + phase2 ≤ limit ∧
      ys.length = if form.height = 0 then 0 else form.width

theorem phase1_within (form : EqualityForm F n) (opts : Options F) (late : Nat → Bool) :
    match form.phase1 opts late with
    | .error report => report.phase1 + report.phase2 ≤ opts.maxPivots
    | .ok basis => basis.pivots ≤ opts.maxPivots := by
  unfold phase1
  by_cases hsome : form.firstArtificial < form.width
  · have hpivots := (((Tableau.ofRows form.rows).setCost form.artificialCost).pivots_run opts late
      opts.maxPivots 0).2
    simp only [if_pos hsome]
    generalize ((Tableau.ofRows form.rows).setCost form.artificialCost).run opts late
      opts.maxPivots 0 = halt at hpivots
    rw [Nat.zero_add] at hpivots
    rcases halt.stop with _ | _ | _ | _ | _
    · simp only [feasible]
      split
      · rename_i report hreport
        split at hreport
        · cases hreport
          exact hpivots
        · cases hreport
      · rename_i basis hbasis
        split at hbasis
        · cases hbasis
        · cases hbasis
          exact hpivots
    all_goals exact hpivots
  · simp only [if_neg hsome]
    exact Nat.zero_le _

theorem phase2_within (form : EqualityForm F n) (opts : Options F) (late : Nat → Bool)
    (basis : Basis F form.height form.width) (hbasis : basis.pivots ≤ opts.maxPivots) :
    match form.phase2 opts late basis with
    | .error report => report.phase1 + report.phase2 ≤ opts.maxPivots
    | .ok (ys, pivots) => basis.pivots + pivots ≤ opts.maxPivots ∧ ys.length = form.width := by
  unfold phase2
  have hpivots := (basis.tableau.setCost form.cost).pivots_run opts late
    (opts.maxPivots - basis.pivots) basis.pivots
  generalize (basis.tableau.setCost form.cost).run opts late (opts.maxPivots - basis.pivots)
    basis.pivots = halt at hpivots
  have hsum : basis.pivots + (halt.pivots - basis.pivots) ≤ opts.maxPivots := by omega
  simp only
  rcases halt.stop with _ | _ | _ | _ | _
  · exact ⟨hsum, by simp⟩
  all_goals exact hsum

theorem solve_within (form : EqualityForm F n) (opts : Options F) (late : Nat → Bool) :
    form.Within opts.maxPivots (form.solve opts late) := by
  have hphase1 := form.phase1_within opts late
  unfold solve
  generalize form.phase1 opts late = result at hphase1 ⊢
  rcases result with report | basis
  · exact hphase1
  · simp only [Bind.bind, Except.bind]
    by_cases hheight : form.height = 0
    · rw [if_pos hheight]
      exact ⟨hphase1, by rw [if_pos hheight]; rfl⟩
    · rw [if_neg hheight]
      have hphase2 := form.phase2_within opts late basis hphase1
      generalize form.phase2 opts late basis = result at hphase2 ⊢
      rcases result with report | ⟨ys, pivots⟩
      · exact hphase2
      · exact ⟨hphase2.1, by rw [if_neg hheight]; exact hphase2.2⟩

/-- A form without rows is solved by the empty list. -/
theorem solve_of_height {D : DenseProgram F m n} (h : (EqualityForm.build D).height = 0)
    (opts : Options F) (late : Nat → Bool) :
    ∃ basis, (EqualityForm.build D).solve opts late = .ok ([], 0, basis) := by
  unfold solve phase1
  rw [if_neg (firstArtificial_build h)]
  simp only [Bind.bind, Except.bind, if_pos h]
  exact ⟨_, rfl⟩

end EqualityForm

/-! ## The whole solve -/

/-- A point of the right size is measured, and the pivots are those of the solve. -/
theorem assess_ok {P : Program F} {x : List F} (h : P.Valid) (hblocks : P.blockRows < UInt64.size)
    (hx : x.length = P.vars) (box : Box F) (opts : Options F) (form : EqualityForm F n)
    (basis : Basis F form.height form.width) (phase2 : Nat) :
    ∃ report, assess P box opts form basis phase2 x = .ok report ∧
      report.phase1 = basis.pivots ∧ report.phase2 = phase2 := by
  unfold assess
  rcases hviolation : P.violation x with fault | violation
  · exact absurd hblocks (not_lt.2 (h.violation_eq_error hx hviolation).2)
  · simp only [Bind.bind, Except.bind]
    split <;> exact ⟨_, rfl, rfl, rfl⟩

end Simplex

open Simplex

variable {F : Type} [Scalar F] {P : Program F} {box : Box F} {opts : Options F}
  {clock : PivotClock}

/-- What a program needs to have a tableau without rows although it has variables: no row, and no
    variable with two finite bounds. -/
structure Program.Rowless (P : Program F) (box : Box F) : Prop where
  vars : 0 < P.vars
  height : P.height = 0
  unbounded : ∀ (j : Nat) (l u : F), box.lower[j]? = some l → box.upper[j]? = some u →
    ¬ (Scalar.isFinite l = true ∧ Scalar.isFinite u = true)

theorem Program.RepresentedBy.rowless_iff {D : DenseProgram F P.height P.vars}
    (hD : P.RepresentedBy box D) (hlower : box.lower.length = P.vars) :
    P.Rowless box ↔ (EqualityForm.build D).height = 0 ∧ 0 < P.vars := by
  rw [EqualityForm.height_build]
  constructor
  · intro h
    exact ⟨⟨h.height, fun j => h.unbounded j _ _ (hD.lower j) (hD.upper j)⟩, h.vars⟩
  · rintro ⟨⟨hheight, hnone⟩, hvars⟩
    refine ⟨hvars, hheight, fun j l u hl hu => ?_⟩
    have hj : j < P.vars := hlower ▸ (List.getElem?_eq_some_iff.1 hl).1
    rw [Option.some.inj (hl.symm.trans (hD.lower ⟨j, hj⟩)),
      Option.some.inj (hu.symm.trans (hD.upper ⟨j, hj⟩))]
    exact hnone ⟨j, hj⟩

section Solve

variable (h : P.Valid) (hblocks : P.blockRows < UInt64.size)
  (hlengths : box.lower.length = P.vars ∧ box.upper.length = P.vars)

include h hblocks hlengths

/-- Without rows the variables are read off the empty list. -/
theorem Program.solveBox_fault (hdomain : box.emptyDomain? opts.feasibility = none)
    (hrows : P.Rowless box) : solveBox P box opts clock = .error .outOfRange := by
  obtain ⟨D, hdense⟩ := exists_dense h hlengths.1 hlengths.2 (h.blockRows_eq hblocks)
  obtain ⟨hheight, hvars⟩ := ((representedBy_of_eq_ok hdense).rowless_iff hlengths.1).1 hrows
  obtain ⟨basis, hsolve⟩ := EqualityForm.solve_of_height hheight opts (opts.late clock)
  unfold solveBox
  simp only [hdomain, hdense, Bind.bind, Except.bind, hsolve, EqualityForm.recover_nil,
    if_neg hvars.ne']

/-- In every other case there is an answer, within the pivot limit. -/
theorem Program.solveBox_ok (clock : PivotClock)
    (hrows : ¬ (box.emptyDomain? opts.feasibility = none ∧ P.Rowless box)) :
    ∃ report, solveBox P box opts clock = .ok report ∧
      report.phase1 + report.phase2 ≤ opts.maxPivots := by
  unfold solveBox
  rcases hdomain : box.emptyDomain? opts.feasibility with _ | var
  · obtain ⟨D, hdense⟩ := exists_dense h hlengths.1 hlengths.2 (h.blockRows_eq hblocks)
    have hsolve := (EqualityForm.build D).solve_within opts (opts.late clock)
    simp only [hdense, Bind.bind, Except.bind]
    generalize (EqualityForm.build D).solve opts (opts.late clock) = result at hsolve ⊢
    rcases result with report | ⟨ys, phase2, basis⟩
    · exact ⟨report, rfl, hsolve⟩
    · obtain ⟨hpivots, hlength⟩ := hsolve
      obtain ⟨xs, hrecover, hxs⟩ := EqualityForm.recover_ok D hlength fun hheight =>
        hrows ⟨hdomain, ((representedBy_of_eq_ok hdense).rowless_iff hlengths.1).2 hheight⟩
      have hpoint : (List.zipWith (snap (opts.feasibility * (EqualityForm.build D).scale))
          (List.zipWith Interval.mk box.lower box.upper) xs).length = P.vars := by
        simp [hlengths, hxs]
      obtain ⟨report, hreport, hphase1, hphase2⟩ :=
        assess_ok h hblocks hpoint box opts (EqualityForm.build D) basis phase2
      simp only [hrecover, hreport]
      exact ⟨report, rfl, by rwa [hphase1, hphase2]⟩
  · exact ⟨_, rfl, Nat.zero_le _⟩

end Solve

/-- No domain is empty if no lower bound exceeds its upper bound by more than the tolerance. -/
theorem Box.emptyDomain?_eq_none_iff {tolerance : F} : box.emptyDomain? tolerance = none ↔
    ∀ (j : Nat) (l u : F), box.lower[j]? = some l → box.upper[j]? = some u → ¬ u + tolerance < l := by
  rw [Box.emptyDomain?, List.findIdx?_eq_none_iff]
  constructor
  · intro h j l u hl hu
    have hpair := h (l, u) (List.mem_of_getElem? (List.getElem?_zip_eq_some.2 ⟨hl, hu⟩))
    simpa using hpair
  · rintro h ⟨l, u⟩ hpair
    obtain ⟨j, hj⟩ := List.mem_iff_getElem?.1 hpair
    obtain ⟨hl, hu⟩ := List.getElem?_zip_eq_some.1 hj
    simpa using h j l u hl hu

theorem Program.solveOver_eq_fault {fault : Fault} :
    P.solveOver box opts clock = .error (.fault fault) ↔
      P.validate = .ok () ∧ (box.lower.length = P.vars ∧ box.upper.length = P.vars) ∧
        solveBox P box opts clock = .error fault := by
  unfold solveOver
  rcases P.validate with e | _
  · simp [Except.mapError, Bind.bind, Except.bind]
  · by_cases hlengths : box.lower.length = P.vars ∧ box.upper.length = P.vars
    · rw [if_neg (by simp [hlengths])]
      rcases solveBox P box opts clock with e | report <;>
        simp [hlengths, Except.mapError, Bind.bind, Except.bind]
    · rw [if_pos (by rwa [not_and_or] at hlengths)]
      simp [hlengths, Except.mapError, Bind.bind, Except.bind, throw, throwThe,
        MonadExceptOf.throw]

/-- **When the solver reads out of range.**  For every program whose blocks have sizes that do not
    wrap, every box of any size and values, and all options: a solve over the box faults if and only
    if the program passes its check, the box has its size, no domain is empty, and there is no row to
    read the variables from, although there are variables.  The fault is a read out of range.  In
    every other case there is an answer or a refusal, and the pivots of both phases are within their
    limit. -/
theorem Program.solveOver_fault_iff (hblocks : P.blockRows < UInt64.size) :
    (∀ fault, P.solveOver box opts clock = .error (.fault fault) ↔
      fault = .outOfRange ∧ P.validate = .ok () ∧
        (box.lower.length = P.vars ∧ box.upper.length = P.vars) ∧
        (∀ (j : Nat) (l u : F), box.lower[j]? = some l → box.upper[j]? = some u →
          ¬ u + opts.feasibility < l) ∧
        P.Rowless box) ∧
    ∀ report, P.solveOver box opts clock = .ok report →
      report.phase1 + report.phase2 ≤ opts.maxPivots := by
  refine ⟨fun fault => ?_, fun report hreport => ?_⟩
  · rw [solveOver_eq_fault, ← Box.emptyDomain?_eq_none_iff]
    constructor
    · rintro ⟨hvalid, hlengths, hsolve⟩
      by_cases hrows : box.emptyDomain? opts.feasibility = none ∧ P.Rowless box
      · rw [solveBox_fault (validate_eq_ok hvalid) hblocks hlengths hrows.1 hrows.2] at hsolve
        cases hsolve
        exact ⟨rfl, hvalid, hlengths, hrows⟩
      · obtain ⟨report, hreport, -⟩ :=
          solveBox_ok (validate_eq_ok hvalid) hblocks hlengths clock hrows
        rw [hreport] at hsolve
        cases hsolve
    · rintro ⟨rfl, hvalid, hlengths, hdomain, hrows⟩
      exact ⟨hvalid, hlengths,
        solveBox_fault (validate_eq_ok hvalid) hblocks hlengths hdomain hrows⟩
  · obtain ⟨hvalid, hlengths, hsolve⟩ := solveOver_eq_ok.1 hreport
    by_cases hrows : box.emptyDomain? opts.feasibility = none ∧ P.Rowless box
    · rw [solveBox_fault (validate_eq_ok hvalid) hblocks hlengths hrows.1 hrows.2] at hsolve
      cases hsolve
    · obtain ⟨report', hreport', hpivots⟩ :=
        solveBox_ok (validate_eq_ok hvalid) hblocks hlengths clock hrows
      rw [hreport'] at hsolve
      cases hsolve
      exact hpivots

/-- One variable, and no rows. -/
def lone : Program Exact where
  cost := [1]
  matrix := ⟨0, 1, [[]], List.length_singleton, List.forall_mem_singleton.2 (List.forall_mem_nil _),
    List.forall_mem_singleton.2 List.Pairwise.nil⟩
  rhs := []
  blocks := []

/-- Where the variable has no lower bound there is no row to read it from. -/
theorem Program.solveOver_fault_iff_lone :
    lone.solveOver ⟨[.negInf], [3]⟩ Options.exact PivotClock.still = .error (.fault .outOfRange) ∧
      ∀ report, lone.solveOver ⟨[0], [3]⟩ Options.exact PivotClock.still = .ok report →
        report.phase1 + report.phase2 ≤ 50000 := by
  have hblocks : lone.blockRows < UInt64.size := by decide
  refine ⟨((solveOver_fault_iff hblocks).1 .outOfRange).2
    ⟨rfl, by decide +kernel, ⟨rfl, rfl⟩, ?_, ⟨by decide, rfl, ?_⟩⟩,
    (solveOver_fault_iff hblocks).2⟩
  · rintro (_ | j) l u ⟨⟩ ⟨⟩
    decide +kernel
  · rintro (_ | j) l u ⟨⟩ ⟨⟩
    decide

end Milp
