/-
  What pivots conserve: the solutions of the rows and the cost that was installed.

  A pivot at an element that is not zero replaces the rows by combinations of rows, and takes a
  multiple of a row off the objective.  Settling right-hand sides is the one thing that breaks this,
  so all is said of pivots after which there is nothing to settle.

  * `Tableau.Clean`: such a pivot; `Tableau.Throughout`: a property of every pivot of a sequence.
  * `Tableau.runPivots`, `driveOutPivots`: the pivots that a run and driving out make.
  * `Clean.level_pivot_nonneg_iff`: right-hand sides stay nonnegative if the row is one of least
    ratio, and only then; `run_descends`: a run with such rows does not raise the objective.
  * `Tableau.Conserved`: what a tableau keeps of an earlier one, and of the cost installed last.
  * `calls_conserve`: what holds after any sequence of calls.
-/
import Milp.Proofs.Simplex.Canonical

namespace Milp

namespace Simplex

variable {m w : Nat}

theorem Row.settle_of_not {roundOff : Rat} {row : Row Rat w}
    (h : ¬ (row.rhs < 0 ∧ -roundOff < row.rhs)) : row.settle roundOff = row := by
  rw [Row.settle, Rational.zero_eq, ← Bool.decide_and, if_neg (by simpa using h)]

namespace Tableau

variable {opts : Options Rat} {T S : Tableau Rat m w} {r : Fin m} {c : Fin w} {p : Fin m × Fin w}
  {P Q : Tableau Rat m w → Fin m × Fin w → Prop} {q : Option (Vector Rat w)}

/-! ## Clean pivots -/

/-- A pivot at an element that is not zero, after which no right-hand side is settled. -/
structure Clean (opts : Options Rat) (T : Tableau Rat m w) (p : Fin m × Fin w) : Prop where
  ne_zero : T.cell p.1 p.2 ≠ 0
  unsettled : ∀ i, ¬ ((T.pivot Options.rational p.1 p.2).level i < 0 ∧
    -opts.roundOff < (T.pivot Options.rational p.1 p.2).level i)

instance decidableClean (opts : Options Rat) (T : Tableau Rat m w) (p : Fin m × Fin w) :
    Decidable (T.Clean opts p) :=
  decidable_of_iff (T.cell p.1 p.2 ≠ 0 ∧
      ∀ i, ¬ ((T.pivot Options.rational p.1 p.2).level i < 0 ∧
        -opts.roundOff < (T.pivot Options.rational p.1 p.2).level i))
    ⟨fun h => ⟨h.1, h.2⟩, fun h => ⟨h.1, h.2⟩⟩

instance decidableBlocks (T : Tableau Rat m w) (r : Fin m) (c : Fin w) :
    Decidable (T.Blocks r c) :=
  decidable_of_iff (0 < T.cell r c ∧
      ∀ i, 0 < T.cell i c → T.level r / T.cell r c ≤ T.level i / T.cell i c)
    ⟨fun h => ⟨h.1, h.2⟩, fun h => ⟨h.1, h.2⟩⟩

/-- A clean pivot is one without tolerance. -/
theorem Clean.pivot_eq (h : T.Clean opts p) :
    T.pivot opts p.1 p.2 = T.pivot Options.rational p.1 p.2 := by
  have hrows : (T.pivot opts p.1 p.2).rows = (T.pivot Options.rational p.1 p.2).rows := by
    refine Vector.ext fun k hk => ?_
    have hunsettled := h.unsettled ⟨k, hk⟩
    rw [level, rows_pivot T Options.rational_untolerant] at hunsettled
    have hrational := rows_pivot T Options.rational_untolerant p.1 p.2 ⟨k, hk⟩
    refine Eq.trans ?_ hrational.symm
    simp only [pivot, Vector.getElem_ofFn]
    exact Row.settle_of_not hunsettled
  exact congrArg (fun rows => { T.pivot Options.rational p.1 p.2 with rows := rows }) hrows

theorem Clean.agrees (h : T.Clean opts p) : T.Agrees (T.pivot opts p.1 p.2) := by
  rw [h.pivot_eq]
  exact agrees_pivot Options.rational_untolerant h.ne_zero

theorem Clean.canonical (h : T.Clean opts p) (hT : T.Canonical) :
    (T.pivot opts p.1 p.2).Canonical := by
  rw [h.pivot_eq]
  exact hT.pivot Options.rational_untolerant h.ne_zero

theorem Clean.level_pivot (h : T.Clean opts p) (i : Fin m) : (T.pivot opts p.1 p.2).level i =
    if i = p.1 then T.level p.1 / T.cell p.1 p.2
    else T.level i - T.cell i p.2 * (T.level p.1 / T.cell p.1 p.2) := by
  rw [h.pivot_eq]
  exact Tableau.level_pivot T Options.rational_untolerant p.1 p.2 i

/-! ## Sequences of pivots -/

/-- Pivots, one after another. -/
def pivots (opts : Options Rat) (T : Tableau Rat m w) (ps : List (Fin m × Fin w)) :
    Tableau Rat m w := ps.foldl (fun T p => T.pivot opts p.1 p.2) T

/-- Every pivot of a sequence has a property, in the tableau in which it is made. -/
def Throughout (opts : Options Rat) (P : Tableau Rat m w → Fin m × Fin w → Prop) :
    Tableau Rat m w → List (Fin m × Fin w) → Prop
  | _, [] => True
  | T, p :: ps => P T p ∧ Throughout opts P (T.pivot opts p.1 p.2) ps

instance decidableThroughout [∀ T p, Decidable (P T p)] :
    ∀ (T : Tableau Rat m w) (ps : List (Fin m × Fin w)), Decidable (Throughout opts P T ps)
  | _, [] => inferInstanceAs (Decidable True)
  | T, p :: ps =>
    have := decidableThroughout (T.pivot opts p.1 p.2) ps
    inferInstanceAs (Decidable (P T p ∧ Throughout opts P (T.pivot opts p.1 p.2) ps))

/-- What every pivot of a kind keeps, a sequence of them keeps. -/
theorem Throughout.keeps {I : Tableau Rat m w → Prop}
    (hstep : ∀ T p, I T → P T p → I (T.pivot opts p.1 p.2)) {ps : List (Fin m × Fin w)}
    (h : Throughout opts P T ps) (hT : I T) : I (T.pivots opts ps) := by
  induction ps generalizing T with
  | nil => exact hT
  | cons p ps ih => exact ih h.2 (hstep T p hT h.1)

theorem Throughout.and {ps : List (Fin m × Fin w)} (h : Throughout opts P T ps)
    (h' : Throughout opts Q T ps) : Throughout opts (fun T p => P T p ∧ Q T p) T ps := by
  induction ps generalizing T with
  | nil => exact h
  | cons p ps ih => exact ⟨⟨h.1, h'.1⟩, ih h.2 h'.2⟩

/-! ## The pivots of a run and of driving out -/

/-- The pivots that a run makes. -/
def runPivots (opts : Options Rat) (late : Nat → Bool) :
    Nat → Nat → Tableau Rat m w → List (Fin m × Fin w)
  | 0, _, _ => []
  | budget + 1, pivots, T =>
    match T.choose opts with
    | .error _ => []
    | .ok p =>
      if late pivots then []
      else p :: runPivots opts late budget (pivots + 1) (T.pivot opts p.1 p.2)

/-- A run makes its pivots one after another. -/
theorem tableau_run_eq (late : Nat → Bool) (budget made : Nat) (T : Tableau Rat m w) :
    (T.run opts late budget made).tableau = T.pivots opts (runPivots opts late budget made T) := by
  induction budget generalizing made T with
  | zero =>
    rw [run]
    split <;> rfl
  | succ budget ih =>
    rw [run, runPivots]
    split
    · rename_i stop hchoose
      simp only [hchoose]
      rfl
    · rename_i r c hchoose
      simp only [hchoose]
      split
      · rfl
      · simp only [Scalar.isFinite, if_true]
        exact ih (made + 1) _

/-- They are the pivots that the rule selects. -/
theorem throughout_runPivots (late : Nat → Bool) (budget made : Nat) (T : Tableau Rat m w) :
    Throughout opts (fun T p => T.choose opts = .ok p) T (runPivots opts late budget made T) := by
  induction budget generalizing made T with
  | zero => trivial
  | succ budget ih =>
    rw [runPivots]
    split
    · trivial
    · rename_i p hchoose
      split
      · trivial
      · exact ⟨hchoose, ih (made + 1) _⟩

/-- The pivot that drives out the basic column of a row. -/
def expulsion (opts : Options Rat) (first : Nat) (T : Tableau Rat m w) (r : Fin m) :
    Option (Fin m × Fin w) :=
  if (T.basic r).val < first then none else (T.replacement opts first r).map (r, ·)

/-- The pivots that drive basic columns out of some rows. -/
def driveOutPivots (opts : Options Rat) (first : Nat) :
    List (Fin m) → Tableau Rat m w → List (Fin m × Fin w)
  | [], _ => []
  | r :: rows, T =>
    match T.expulsion opts first r with
    | none => driveOutPivots opts first rows T
    | some p => p :: driveOutPivots opts first rows (T.pivot opts p.1 p.2)

theorem expel_eq (first : Nat) (s : Tableau Rat m w × Nat) (r : Fin m) :
    (expel opts first s r).1 =
      match s.1.expulsion opts first r with
      | none => s.1
      | some p => s.1.pivot opts p.1 p.2 := by
  unfold expel expulsion
  by_cases hbasic : (s.1.rows.get r).basic.val < first
  · rw [if_pos hbasic, if_pos (show (s.1.basic r).val < first from hbasic)]
  · rw [if_neg hbasic, if_neg (show ¬ (s.1.basic r).val < first from hbasic)]
    rcases s.1.replacement opts first r with _ | c <;> rfl

theorem foldl_expel_eq (first : Nat) (rows : List (Fin m)) (s : Tableau Rat m w × Nat) :
    (rows.foldl (expel opts first) s).1 =
      s.1.pivots opts (driveOutPivots opts first rows s.1) := by
  induction rows generalizing s with
  | nil => rfl
  | cons r rows ih =>
    rw [List.foldl_cons, ih, expel_eq, driveOutPivots]
    rcases s.1.expulsion opts first r with _ | p <;> rfl

/-- Driving out makes its pivots one after another. -/
theorem driveOut_eq (first : Nat) (T : Tableau Rat m w) : (T.driveOut opts first).1 =
    T.pivots opts (driveOutPivots opts first (List.finRange m) T) :=
  foldl_expel_eq first (List.finRange m) (T, 0)

/-! ## Right-hand sides and the objective during a run -/

/-- Right-hand sides stay nonnegative if the row is one of least ratio, and only then. -/
theorem Clean.level_pivot_nonneg_iff (h : T.Clean opts (r, c)) (hnonneg : ∀ i, 0 ≤ T.level i)
    (hpos : 0 < T.cell r c) : (∀ i, 0 ≤ (T.pivot opts r c).level i) ↔ T.Blocks r c := by
  constructor
  · refine fun hall => ⟨hpos, fun i hi => ?_⟩
    by_cases hir : i = r
    · rw [hir]
    · have hlevel := hall i
      rw [h.level_pivot, if_neg hir] at hlevel
      rw [le_div_iff₀ hi, mul_comm]
      exact sub_nonneg.1 hlevel
  · intro hr
    rw [h.pivot_eq]
    exact hr.level_pivot_nonneg Options.rational_untolerant hnonneg

/-- A column that does not raise the objective does not do so if it grows. -/
theorem value_pivot_le (hr : T.Blocks r c) (hnonneg : ∀ i, 0 ≤ T.level i)
    (hreduced : T.reduced c ≤ 0) : (T.pivot opts r c).value ≤ T.value := by
  rw [value_pivot]
  linarith [mul_nonpos_of_nonpos_of_nonneg hreduced (div_nonneg (hnonneg r) (le_of_lt hr.pos))]

/-- The selected column lowers the objective. -/
theorem reduced_lt_of_choose (h : T.choose opts = .ok p) : T.reduced p.2 < -opts.optimality := by
  have hlowers := List.find?_some (entering_leaving_of_choose h).1
  rw [Bool.and_eq_true, decide_eq_true_eq] at hlowers
  exact hlowers.2

/-- During a run whose rows are of least ratio right-hand sides do not become negative, and the
    objective does not rise. -/
theorem run_descends (hoptimality : 0 ≤ opts.optimality) (hnonneg : ∀ i, 0 ≤ T.level i)
    (late : Nat → Bool) (budget made : Nat)
    (h : Throughout opts (fun T p => T.Clean opts p ∧ T.Blocks p.1 p.2) T
      (runPivots opts late budget made T)) :
    (∀ i, 0 ≤ (T.run opts late budget made).tableau.level i) ∧
      (T.run opts late budget made).tableau.value ≤ T.value := by
  rw [tableau_run_eq]
  refine (h.and (throughout_runPivots late budget made T)).keeps
    (I := fun S => (∀ i, 0 ≤ S.level i) ∧ S.value ≤ T.value) ?_ ⟨hnonneg, le_rfl⟩
  rintro S ⟨r, c⟩ ⟨hlevels, hvalue⟩ ⟨⟨hclean, hblocks⟩, hchoose⟩
  have hreduced : S.reduced c ≤ 0 := by linarith [reduced_lt_of_choose hchoose]
  exact ⟨(hclean.level_pivot_nonneg_iff hlevels hblocks.pos).2 hblocks,
    (value_pivot_le hblocks hlevels hreduced).trans hvalue⟩

/-! ## Sequences of calls -/

/-- The pivots of a call. -/
def pivotsOf (opts : Options Rat) (T : Tableau Rat m w) : Call w → List (Fin m × Fin w)
  | .setCost _ => []
  | .block _ => []
  | .run late budget made => runPivots opts late budget made T
  | .driveOut first => driveOutPivots opts first (List.finRange m) T

/-- The tableau after a call. -/
def after (opts : Options Rat) (T : Tableau Rat m w) : Call w → Tableau Rat m w
  | .setCost cost => T.setCost cost
  | .block col => T.blockColumn col
  | .run late budget made => (T.run opts late budget made).tableau
  | .driveOut first => (T.driveOut opts first).1

/-- The tableau after a sequence of calls. -/
def afterAll (opts : Options Rat) (T : Tableau Rat m w) (calls : List (Call w)) :
    Tableau Rat m w := calls.foldl (after opts) T

/-- The cost installed last, if any. -/
def installed (q : Option (Vector Rat w)) : Call w → Option (Vector Rat w)
  | .setCost cost => some cost
  | _ => q

/-- Every pivot of a sequence of calls is clean. -/
def CleanCalls (opts : Options Rat) : Tableau Rat m w → List (Call w) → Prop
  | _, [] => True
  | T, call :: calls =>
    Throughout opts (Clean opts) T (T.pivotsOf opts call) ∧
      CleanCalls opts (T.after opts call) calls

instance decidableCleanCalls (opts : Options Rat) :
    ∀ (T : Tableau Rat m w) (calls : List (Call w)), Decidable (CleanCalls opts T calls)
  | _, [] => inferInstanceAs (Decidable True)
  | T, call :: calls =>
    have := decidableCleanCalls opts (T.after opts call) calls
    inferInstanceAs (Decidable (Throughout opts (Clean opts) T (T.pivotsOf opts call) ∧
      CleanCalls opts (T.after opts call) calls))

/-- What a tableau keeps of an earlier one `S`, and of the cost `q` that was installed last. -/
structure Conserved (S : Tableau Rat m w) (q : Option (Vector Rat w)) (T : Tableau Rat m w) :
    Prop where
  canonical : T.Canonical
  holds : ∀ y, T.Holds y ↔ S.Holds y
  priced : q.isSome → ∀ i, T.reduced (T.basic i) = 0
  cost : ∀ cost ∈ q, ∀ y, S.Holds y → T.cost y = ∑ j, cost.get j * y j

/-- Nothing is said of the objective before a cost is installed. -/
theorem Canonical.conserved (hT : T.Canonical) : T.Conserved none T :=
  ⟨hT, fun _ => Iff.rfl, fun h => absurd h (by simp), fun _ h => absurd h (by simp)⟩

theorem Conserved.pivot (h : S.Conserved q T) (hclean : T.Clean opts p) :
    S.Conserved q (T.pivot opts p.1 p.2) where
  canonical := hclean.canonical h.canonical
  holds y := (hclean.agrees.holds y).trans (h.holds y)
  priced hsome := h.canonical.priced_pivot (h.priced hsome) opts hclean.ne_zero
  cost cost hcost y hy :=
    (hclean.agrees.cost y ((h.holds y).2 hy)).trans (h.cost cost hcost y hy)

theorem Conserved.setCost (h : S.Conserved q T) (cost : Vector Rat w) :
    S.Conserved (some cost) (T.setCost cost) where
  canonical := h.canonical
  holds := h.holds
  priced _ := priced_setCost h.canonical cost
  cost := by
    rintro _ ⟨⟩ y hy
    exact cost_setCost h.canonical cost ((h.holds y).2 hy)

theorem Conserved.after (h : S.Conserved q T) (call : Call w)
    (hclean : Throughout opts (Clean opts) T (T.pivotsOf opts call)) :
    S.Conserved (installed q call) (T.after opts call) := by
  cases call with
  | setCost cost => exact h.setCost cost
  | block col => exact ⟨h.canonical, h.holds, h.priced, h.cost⟩
  | run late budget made =>
    rw [Tableau.after, tableau_run_eq]
    exact hclean.keeps (I := S.Conserved q) (fun _ _ h hclean => h.pivot hclean) h
  | driveOut first =>
    rw [Tableau.after, driveOut_eq]
    exact hclean.keeps (I := S.Conserved q) (fun _ _ h hclean => h.pivot hclean) h

theorem Conserved.afterAll (h : S.Conserved q T) {calls : List (Call w)}
    (hclean : CleanCalls opts T calls) :
    S.Conserved (calls.foldl installed q) (T.afterAll opts calls) := by
  induction calls generalizing T q with
  | nil => exact h
  | cons call calls ih => exact ih (h.after call hclean.1) hclean.2

/-- The objective is the cost of the basic solution. -/
theorem Conserved.value_eq (h : S.Conserved q T) {cost : Vector Rat w} (hcost : cost ∈ q) :
    T.value = ∑ j, cost.get j * T.point j := by
  have hprice : T.priceOf T.point = 0 :=
    priceOf_of_zero (h.priced (Option.isSome_of_mem hcost)) fun _ => point_eq_zero h.canonical
  rw [← h.cost cost hcost _ ((h.holds _).1 (holds_point h.canonical)), Tableau.cost, hprice,
    zero_add]

/-- **What a sequence of calls preserves.**  Let the basic columns be unit vectors, and let every
    pivot of the calls be at an element that is not zero and leave nothing to settle.  Then the
    vectors that satisfy the rows are the same as before; the cost installed last is at each of them
    the sum over the reduced costs plus the value of the tableau, and this value is the cost of the
    basic solution.  If moreover no right-hand side is negative, nor the tolerance for reduced costs,
    a further run with rows of least ratio makes none negative, and does not raise the value. -/
theorem calls_conserve (hT : T.Canonical) {calls : List (Call w)}
    (hclean : CleanCalls opts T calls) :
    let T' := T.afterAll opts calls
    (T'.Canonical ∧ ∀ y, T'.Holds y ↔ T.Holds y) ∧
      (∀ cost ∈ calls.foldl installed none,
        (∀ y, T.Holds y → ∑ j, cost.get j * y j = ∑ j, T'.reduced j * y j + T'.value) ∧
          T.Holds T'.point ∧ T'.value = ∑ j, cost.get j * T'.point j) ∧
      (0 ≤ opts.optimality → (∀ i, 0 ≤ T'.level i) → ∀ late budget made,
        Throughout opts (fun T p => T.Clean opts p ∧ T.Blocks p.1 p.2) T'
          (runPivots opts late budget made T') →
        (∀ i, 0 ≤ (T'.run opts late budget made).tableau.level i) ∧
          (T'.run opts late budget made).tableau.value ≤ T'.value) := by
  intro T'
  have h : T.Conserved (calls.foldl installed none) T' := hT.conserved.afterAll hclean
  refine ⟨⟨h.canonical, h.holds⟩, fun cost hcost => ⟨fun y hy => ?_, ?_, h.value_eq hcost⟩,
    fun hoptimality hnonneg late budget made => run_descends hoptimality hnonneg late budget made⟩
  · exact (h.cost cost hcost y hy).symm
  · exact (h.holds _).1 (holds_point h.canonical)

/-- Two rows that pin `x₀` and `x₁` to zero, with an artificial column each, and a third row with
    a slack. -/
def pinned : Tableau Rat 3 6 :=
  ofRows #v[
    ⟨4, #v[1, 1, 0, 0, 1, 0], 0⟩,
    ⟨5, #v[1, -1, 0, 0, 0, 1], 0⟩,
    ⟨3, #v[0, 1, 1, 1, 0, 0], 4⟩]

/-- Both phases on them: the artificial columns are driven out, one at a negative element, and then
    `x₂` enters. -/
theorem calls_conserve_pinned :
    let cost : Vector Rat 6 := #v[1, 2, -3, 0, 0, 0]
    let calls : List (Call 6) := [.setCost #v[0, 0, 0, 0, 1, 1], .run (fun _ => false) 10 0,
      .driveOut 4, .block 4, .block 5, .setCost cost]
    let T := pinned.afterAll Options.standard calls
    let S := (T.run Options.standard (fun _ => false) 10 0).tableau
    (∀ y, T.Holds y ↔ pinned.Holds y) ∧
      (∀ y, pinned.Holds y → ∑ j, cost.get j * y j = ∑ j, T.reduced j * y j + T.value) ∧
      pinned.Holds T.point ∧ T.value = 0 ∧ (∀ i, 0 ≤ S.level i) ∧ S.value ≤ T.value ∧
      S.value = -12 := by
  intro cost calls T S
  have hcanonical : pinned.Canonical := by
    unfold Canonical
    decide +kernel
  obtain ⟨⟨-, hholds⟩, hcost, hrun⟩ :=
    @calls_conserve 3 6 Options.standard pinned hcanonical calls (by decide +kernel)
  obtain ⟨hsum, hpoint, -⟩ := hcost cost rfl
  obtain ⟨hnonneg, hvalue⟩ := hrun (by decide +kernel) (by decide +kernel) (fun _ => false) 10 0
    (by decide +kernel)
  exact ⟨hholds, hsum, hpoint, by decide +kernel, hnonneg, hvalue, by decide +kernel⟩

end Tableau
end Simplex
end Milp
