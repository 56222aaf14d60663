/-
  The pivot limit only cuts a solve short.

  Both phases draw on one limit, and nothing but the number of pivots that are left depends on it: a
  solve that does not stop at its limit pivots in the same way under every larger one.

  * `Options.limited`: the same options with another pivot limit.
  * `Tableau.run_eq_of_le`, `Tableau.pivots_of_stop`: a run with more pivots left, and how many a
    run made that has none left.
  * `Cut`: what a smaller limit makes of a result: nothing, or a stop at the limit.
  * `Budgeted`: what it means for a solver that its limit only cuts it short.
  * `Program.solve_budgeted`: both solvers of programs, for every problem, box and options.
-/
import Milp.Proofs.Simplex.Faults

namespace Milp

namespace Simplex

variable {F : Type} [Scalar F] {m n w : Nat}

/-- The same options with another pivot limit. -/
def Options.limited (opts : Options F) (limit : Nat) : Options F := { opts with maxPivots := limit }

/-! ## Pivoting -/

namespace Tableau

variable {opts : Options F} {late : Nat → Bool} {T : Tableau F m w} {budget more pivots : Nat}

theorem choose_ne_pivotLimit : T.choose opts ≠ .error .pivotLimit := by
  unfold choose
  split
  · simp
  · split <;> simp

theorem run_of_error {stop : Stop} (h : T.choose opts = .error stop) :
    T.run opts late budget pivots = ⟨stop, T, pivots⟩ := by
  cases budget <;> rw [run, h]

theorem run_zero {r : Fin m} {col : Fin w} (h : T.choose opts = .ok (r, col)) :
    T.run opts late 0 pivots = ⟨.pivotLimit, T, pivots⟩ := by
  rw [run, h]

theorem run_succ {r : Fin m} {col : Fin w} (h : T.choose opts = .ok (r, col)) :
    T.run opts late (budget + 1) pivots =
      if late pivots then ⟨.interrupted, T, pivots⟩
      else if Scalar.isFinite (T.pivot opts r col).objective.negated then
        (T.pivot opts r col).run opts late budget (pivots + 1)
      else ⟨.numerical, T.pivot opts r col, pivots + 1⟩ := by
  rw [run, h]

/-- Of the options a run reads the tolerances only: how many pivots it may make is told apart. -/
theorem run_limited (limit : Nat) :
    T.run (opts.limited limit) late budget pivots = T.run opts late budget pivots := by
  induction budget generalizing pivots T with
  | zero =>
    rcases hchoose : T.choose opts with stop | ⟨r, col⟩
    · rw [run_of_error hchoose]
      exact run_of_error hchoose
    · rw [run_zero hchoose]
      exact run_zero hchoose
  | succ budget ih =>
    rcases hchoose : T.choose opts with stop | ⟨r, col⟩
    · rw [run_of_error hchoose]
      exact run_of_error hchoose
    · rw [run_succ hchoose, ← ih]
      exact run_succ hchoose

/-- A run that does not stop at its limit is the same run with more pivots left. -/
theorem run_eq_of_le (hle : budget ≤ more)
    (hstop : (T.run opts late budget pivots).stop ≠ .pivotLimit) :
    T.run opts late more pivots = T.run opts late budget pivots := by
  induction budget generalizing more pivots T with
  | zero =>
    rcases hchoose : T.choose opts with stop | ⟨r, col⟩
    · rw [run_of_error hchoose, run_of_error hchoose]
    · rw [run_zero hchoose] at hstop
      exact absurd rfl hstop
  | succ budget ih =>
    obtain ⟨more, rfl⟩ := Nat.exists_eq_add_of_le' (Nat.le_of_add_left_le hle)
    rcases hchoose : T.choose opts with stop | ⟨r, col⟩
    · rw [run_of_error hchoose, run_of_error hchoose]
    · rw [run_succ hchoose] at hstop ⊢
      rw [run_succ hchoose]
      split_ifs at hstop ⊢
      · rfl
      · exact ih (Nat.le_of_succ_le_succ hle) hstop
      · rfl

/-- A run that stops at its limit made all the pivots it had. -/
theorem pivots_of_stop (hstop : (T.run opts late budget pivots).stop = .pivotLimit) :
    (T.run opts late budget pivots).pivots = pivots + budget := by
  induction budget generalizing pivots T with
  | zero =>
    rcases hchoose : T.choose opts with stop | ⟨r, col⟩
    · rw [run_of_error hchoose]
      rfl
    · rw [run_zero hchoose]
      rfl
  | succ budget ih =>
    rcases hchoose : T.choose opts with stop | ⟨r, col⟩
    · rw [run_of_error hchoose] at hstop
      exact absurd (hchoose.trans (congrArg Except.error hstop)) choose_ne_pivotLimit
    · rw [run_succ hchoose] at hstop ⊢
      split_ifs at hstop ⊢
      rw [ih hstop, Nat.add_assoc, Nat.add_comm 1]

end Tableau

/-! ## The two phases -/

/-- What a smaller pivot limit makes of a result: nothing, or a stop at the limit. -/
def Cut {α : Type} (short full : Except (Report F) α) : Prop :=
  full = short ∨ ∃ report, short = .error report ∧ report.verdict = .pivotLimit

omit [Scalar F] in
theorem Cut.bind {α β : Type} {short full : Except (Report F) α}
    {f g : α → Except (Report F) β} (h : Cut short full) (hnext : ∀ x, Cut (f x) (g x)) :
    Cut (short >>= f) (full >>= g) := by
  rcases h with rfl | ⟨report, rfl, hverdict⟩
  · rcases full with report | x
    · exact .inl rfl
    · exact hnext x
  · exact .inr ⟨report, rfl, hverdict⟩

/-- A result that stops at the limit has made all the pivots of the limit. -/
def Spent {α : Type} (limit : Nat) (result : Except (Report F) α) : Prop :=
  ∀ report, result = .error report → report.verdict = .pivotLimit →
    report.phase1 + report.phase2 = limit

omit [Scalar F] in
theorem Spent.bind {α β : Type} {limit : Nat} {result : Except (Report F) α}
    {f : α → Except (Report F) β} (h : Spent limit result)
    (hnext : ∀ x, result = .ok x → Spent limit (f x)) : Spent limit (result >>= f) := by
  rcases result with report | x
  · exact fun report' hreport => h report' (Except.error.inj hreport ▸ rfl)
  · exact hnext x rfl

namespace EqualityForm

variable {form : EqualityForm F n} {opts : Options F} {late : Nat → Bool} {limit more : Nat}
  {basis : Basis F form.height form.width}

/-- The end of phase 1 does not look at the limit. -/
theorem feasible_limited (limit : Nat) (halt : Tableau.Halt F form.height form.width) :
    form.feasible (opts.limited limit) halt = form.feasible opts halt := rfl

theorem feasible_ne_pivotLimit {halt : Tableau.Halt F form.height form.width} {report : Report F}
    (h : form.feasible opts halt = .error report) : report.verdict ≠ .pivotLimit := by
  simp only [feasible] at h
  split at h
  · cases h
    simp
  · cases h

theorem phase1_cut (hle : limit ≤ more) :
    Cut (form.phase1 (opts.limited limit) late) (form.phase1 (opts.limited more) late) := by
  unfold phase1
  by_cases hsome : form.firstArtificial < form.width
  · simp only [if_pos hsome, Tableau.run_limited, feasible_limited]
    by_cases hstop : (((Tableau.ofRows form.rows).setCost form.artificialCost).run opts late
        limit 0).stop = .pivotLimit
    · right
      simp only [Options.limited, hstop]
      exact ⟨_, rfl, rfl⟩
    · left
      simp only [Options.limited, Tableau.run_eq_of_le hle hstop]
  · simp only [if_neg hsome]
    exact .inl rfl

theorem phase1_spent : Spent limit (form.phase1 (opts.limited limit) late) := by
  intro report hreport hverdict
  unfold phase1 at hreport
  split at hreport
  · simp only [Tableau.run_limited, feasible_limited] at hreport
    split at hreport
    · exact absurd hverdict (feasible_ne_pivotLimit hreport)
    · cases hreport; cases hverdict
    · cases hreport; cases hverdict
    · rename_i hstop
      cases hreport
      exact (Tableau.pivots_of_stop hstop).trans (Nat.zero_add _)
    · cases hreport; cases hverdict
  · cases hreport

theorem phase2_cut (hle : limit ≤ more) : Cut (form.phase2 (opts.limited limit) late basis)
    (form.phase2 (opts.limited more) late basis) := by
  unfold phase2
  simp only [Tableau.run_limited]
  by_cases hstop : ((basis.tableau.setCost form.cost).run opts late (limit - basis.pivots)
      basis.pivots).stop = .pivotLimit
  · right
    simp only [Options.limited, hstop]
    exact ⟨_, rfl, rfl⟩
  · left
    simp only [Options.limited, Tableau.run_eq_of_le (Nat.sub_le_sub_right hle _) hstop]

theorem phase2_spent (hbasis : basis.pivots ≤ limit) :
    Spent limit (form.phase2 (opts.limited limit) late basis) := by
  intro report hreport hverdict
  simp only [phase2, Tableau.run_limited] at hreport
  split at hreport
  · cases hreport
  · cases hreport; cases hverdict
  · cases hreport; cases hverdict
  · rename_i hstop
    cases hreport
    have hpivots := Tableau.pivots_of_stop hstop
    simp only [Options.limited] at hpivots ⊢
    omega
  · cases hreport; cases hverdict

theorem solve_cut (hle : limit ≤ more) :
    Cut (form.solve (opts.limited limit) late) (form.solve (opts.limited more) late) := by
  refine (phase1_cut hle).bind fun basis => ?_
  split
  · exact .inl rfl
  · exact (phase2_cut hle).bind fun _ => .inl rfl

theorem solve_spent : Spent limit (form.solve (opts.limited limit) late) := by
  refine phase1_spent.bind fun basis hbasis => ?_
  have hpivots := form.phase1_within (opts.limited limit) late
  rw [hbasis] at hpivots
  split
  · rintro _ ⟨⟩
  · exact (phase2_spent hpivots).bind fun _ _ => by rintro _ ⟨⟩

end EqualityForm

/-! ## The whole solve -/

/-- The pivot limit of a solver only cuts its solves short. -/
structure Budgeted {ε : Type} (solve : Nat → Except ε (Report F)) : Prop where
  /-- Both phases together keep to the limit. -/
  within {limit : Nat} {report : Report F} (h : solve limit = .ok report) :
    report.phase1 + report.phase2 ≤ limit
  /-- The limit is reported only where all its pivots were made. -/
  spent {limit : Nat} {report : Report F} (h : solve limit = .ok report)
    (hverdict : report.verdict = .pivotLimit) : report.phase1 + report.phase2 = limit
  /-- Where the limit is not reported no larger one changes anything. -/
  settled {limit more : Nat} (hle : limit ≤ more)
    (h : ∀ report, solve limit = .ok report → report.verdict ≠ .pivotLimit) :
    solve more = solve limit

namespace Budgeted

omit [Scalar F] in
/-- A solver that answers without pivots. -/
theorem const {ε : Type} {answer : Except ε (Report F)}
    (h : ∀ report, answer = .ok report →
      report.phase1 + report.phase2 = 0 ∧ report.verdict ≠ .pivotLimit) :
    Budgeted fun _ : Nat => answer where
  within hreport := (h _ hreport).1 ▸ Nat.zero_le _
  spent hreport hverdict := absurd hverdict (h _ hreport).2
  settled _ _ := rfl

omit [Scalar F] in
/-- What goes before a solve does not depend on the limit. -/
theorem bind {ε α : Type} {first : Except ε α} {solve : α → Nat → Except ε (Report F)}
    (h : ∀ x, first = .ok x → Budgeted (solve x)) :
    Budgeted fun limit => first >>= fun x => solve x limit := by
  rcases first with e | x
  · exact const (by rintro _ ⟨⟩)
  · exact h x rfl

omit [Scalar F] in
/-- A fault may be put in other words. -/
theorem mapError {ε ε' : Type} {solve : Nat → Except ε (Report F)} (h : Budgeted solve)
    (f : ε → ε') : Budgeted fun limit => (solve limit).mapError f := by
  have hok : ∀ {limit report}, (solve limit).mapError f = .ok report →
      solve limit = .ok report := by
    intro limit report hreport
    rcases hsolve : solve limit with e | r
    · rw [hsolve] at hreport
      cases hreport
    · rw [hsolve] at hreport
      exact congrArg Except.ok (Except.ok.inj hreport)
  constructor
  · exact fun hreport => h.within (hok hreport)
  · exact fun hreport => h.spent (hok hreport)
  · intro limit more hle hverdict
    refine congrArg (Except.mapError f) (h.settled hle fun report hreport => hverdict report ?_)
    rw [hreport]
    rfl

end Budgeted

/-- What is answered once both phases are over. -/
def conclude (P : Program F) (box : Box F) (opts : Options F) (form : EqualityForm F n)
    (result : Except (Report F) (List F × Nat × Basis F form.height form.width)) :
    Except Fault (Report F) :=
  match result with
  | .error report => .ok report
  | .ok (y, phase2, basis) => do
    let slack := opts.feasibility * form.scale
    let intervals := List.zipWith Interval.mk box.lower box.upper
    let x := List.zipWith (snap slack) intervals (← form.recover y)
    assess P box opts form basis phase2 x

section Conclude

variable {P : Program F} {box : Box F} {opts : Options F} {clock : PivotClock}

theorem solveBox_eq_conclude (hdomain : box.emptyDomain? opts.feasibility = none) :
    solveBox P box opts clock = (DenseProgram.of P box >>= fun D =>
      conclude P box opts (EqualityForm.build D)
        ((EqualityForm.build D).solve opts (opts.late clock))) := by
  unfold solveBox
  rw [hdomain]
  rcases DenseProgram.of P box with e | D
  · rfl
  simp only [Bind.bind, Except.bind, conclude]
  rcases (EqualityForm.build D).solve opts (opts.late clock) with report | ⟨y, phase2, basis⟩
  · rfl
  · rfl

/-- The report on a point has the pivots of the solve, and is not about a limit. -/
theorem assess_pivots {form : EqualityForm F n} {basis : Basis F form.height form.width}
    {phase2 : Nat} {x : List F} {report : Report F}
    (h : assess P box opts form basis phase2 x = .ok report) :
    report.phase1 = basis.pivots ∧ report.phase2 = phase2 ∧ report.verdict ≠ .pivotLimit := by
  unfold assess at h
  rcases hviolation : P.violation x with fault | violation
  · rw [hviolation] at h
    cases h
  · rw [hviolation] at h
    simp only [Bind.bind, Except.bind] at h
    split at h <;> cases h <;> exact ⟨rfl, rfl, by simp⟩

/-- The pivots of an answer are those of the two phases. -/
theorem conclude_eq_ok {form : EqualityForm F n}
    {result : Except (Report F) (List F × Nat × Basis F form.height form.width)}
    {report : Report F} (h : conclude P box opts form result = .ok report) :
    result = .error report ∨ ∃ y phase2 basis, result = .ok (y, phase2, basis) ∧
      report.phase1 = basis.pivots ∧ report.phase2 = phase2 ∧ report.verdict ≠ .pivotLimit := by
  rcases result with report' | ⟨y, phase2, basis⟩
  · exact .inl (congrArg Except.error (Except.ok.inj h))
  · simp only [conclude] at h
    rcases hrecover : form.recover y with fault | x
    · rw [hrecover] at h
      cases h
    · rw [hrecover] at h
      exact .inr ⟨y, phase2, basis, rfl, assess_pivots h⟩

/-- A solver is budgeted if the two phases are. -/
theorem budgeted_conclude {form : EqualityForm F n}
    {result : Nat → Except (Report F) (List F × Nat × Basis F form.height form.width)}
    (hwithin : ∀ limit, form.Within limit (result limit))
    (hspent : ∀ limit, Spent limit (result limit))
    (hcut : ∀ {limit more}, limit ≤ more → Cut (result limit) (result more)) :
    Budgeted fun limit => conclude P box opts form (result limit) := by
  constructor
  · intro limit report h
    have hwithin := hwithin limit
    rcases conclude_eq_ok h with hresult | ⟨y, phase2, basis, hresult, hphase1, hphase2, -⟩
    · rw [hresult] at hwithin
      exact hwithin
    · rw [hresult] at hwithin
      rw [hphase1, hphase2]
      exact hwithin.1
  · intro limit report h hverdict
    rcases conclude_eq_ok h with hresult | ⟨y, phase2, basis, -, -, -, hne⟩
    · exact hspent limit report hresult hverdict
    · exact absurd hverdict hne
  · intro limit more hle h
    rcases hcut hle with hsame | ⟨report, hresult, hverdict⟩
    · exact congrArg (conclude P box opts form) hsame
    · exact absurd hverdict (h report (congrArg (conclude P box opts form) hresult))

/-- For each limit the clock may be another one: without a time limit none is read. -/
theorem solveBox_budgeted (P : Program F) (box : Box F) (htime : opts.timeLimit = none)
    (clocks : Nat → PivotClock) :
    Budgeted fun limit => solveBox P box (opts.limited limit) (clocks limit) := by
  rcases hdomain : box.emptyDomain? opts.feasibility with _ | var
  · have hsolve : ∀ limit, solveBox P box (opts.limited limit) (clocks limit) =
        (DenseProgram.of P box >>= fun D => conclude P box opts (EqualityForm.build D)
          ((EqualityForm.build D).solve (opts.limited limit) fun _ => false)) := by
      intro limit
      have hlate : (opts.limited limit).late (clocks limit) = fun _ => false :=
        Options.late_eq htime _
      rw [← hlate]
      exact solveBox_eq_conclude hdomain
    simp only [hsolve]
    exact Budgeted.bind fun D _ => budgeted_conclude
      (fun limit => EqualityForm.solve_within _ (opts.limited limit) _)
      (fun _ => EqualityForm.solve_spent) EqualityForm.solve_cut
  · have hsolve : ∀ limit, solveBox P box (opts.limited limit) (clocks limit) =
        .ok { verdict := .infeasible, residual := 0, notes := [.emptyDomain var] } := by
      intro limit
      unfold solveBox
      rw [show box.emptyDomain? (opts.limited limit).feasibility = some var from hdomain]
      rfl
    simp only [hsolve]
    exact Budgeted.const (by rintro _ ⟨⟩; simp)

end Conclude

end Simplex

open Simplex

/-- **The pivot limit only cuts a solve short.**  For every program, box and options without a time
    limit, over every kind of numbers, and so for doubles bit by bit: both phases together keep to
    the limit, the limit is reported only where all its pivots were made, and where it is not
    reported, every larger limit gives the same report, refusal or fault.  This holds over the
    bounds of the program and over any others, whatever a clock would show. -/
theorem Program.solve_budgeted {F : Type} [Extended F] (P : Program F) (opts : Options F)
    (htime : opts.timeLimit = none) (clocks : Nat → PivotClock) :
    (Budgeted fun limit => P.solve (opts.limited limit) (clocks limit)) ∧
      ∀ box, Budgeted fun limit => P.solveOver box (opts.limited limit) (clocks limit) := by
  refine ⟨?_, fun box => ?_⟩
  · exact Budgeted.bind fun _ _ => Budgeted.bind fun box _ =>
      (solveBox_budgeted P box htime clocks).mapError Refusal.fault
  · refine Budgeted.bind fun _ _ => ?_
    by_cases hlengths : box.lower.length ≠ P.vars ∨ box.upper.length ≠ P.vars
    · simp only [if_pos hlengths]
      exact Budgeted.const (by rintro _ ⟨⟩)
    · simp only [if_neg hlengths]
      exact (solveBox_budgeted P box htime clocks).mapError Refusal.fault

/-- Maximise `2 x₀ + 3 x₁` where `x₀ + x₁ = 2` and `x₀ + 3 x₁ ≤ 5`. -/
def ascent : Program Float where
  cost := [2, 3]
  matrix := ⟨2, 2, [[(0, 1), (1, 1)], [(0, 1), (1, 3)]], rfl, by decide, by simp [Column.Sorted]⟩
  rhs := [2, 5]
  blocks := [.equality 1, .atMost 1]
  sense := .maximize

/-- What a solve of `ascent` comes to within a number of pivots. -/
def ascentWithin (limit : Nat) : Option (Verdict Float × Nat × Nat) :=
  (ascent.solve (Options.standard.limited limit) PivotClock.still).toOption.map fun report =>
    (report.verdict, report.phase1, report.phase2)

/-- One pivot finds a basis of `ascent` and a second one the best point, so every limit from two on
    gives the same report. -/
theorem Program.solve_budgeted_ascent : ascentWithin 1 = some (.pivotLimit, 1, 0) ∧
    ∀ limit, 2 ≤ limit → ascentWithin limit = some (.optimal [0.5, 1.5] 5.5, 1, 1) := by
  have htwo : ascentWithin 2 = some (.optimal [0.5, 1.5] 5.5, 1, 1) := by decide +kernel
  refine ⟨by decide +kernel, fun limit hle => ?_⟩
  have hbudgeted := (solve_budgeted ascent Options.standard rfl fun _ => PivotClock.still).1
  have hsettled := hbudgeted.settled hle fun report hreport hverdict => by
    rw [ascentWithin, hreport] at htwo
    cases hverdict.symm.trans (congrArg Prod.fst (Option.some.inj htwo))
  exact (congrArg (fun result => result.toOption.map fun report =>
    (report.verdict, report.phase1, report.phase2)) hsettled).trans htwo

end Milp
