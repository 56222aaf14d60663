/-
  Tableaus of rationals among the tableaus of exact scalars.

  An exact scalar may be infinite or no number.  A tableau without such entries is the image of one of
  rationals, and as long as no tolerance is given every operation on the one is the same operation on
  the other.

  * `Tableau.lift`: the image of a tableau of rationals.
  * `run_lift`, `driveOut_lift`: the operations on it.
-/
import Milp.Proofs.Scalar.Exact
import Milp.Proofs.Simplex.Phases

namespace Milp

@[simp] theorem Exact.beq_zero (q : Rat) :
    (Exact.fin q == (0 : Exact)) = (q == @OfNat.ofNat Rat 0 (naturalLiteral 0)) := by
  rw [Exact.zero_eq, Rational.zero_eq, beq_def]
  show decide (fin q = fin 0) = decide (q = 0)
  simp

namespace Simplex

variable {m w first : Nat} {opts : Options Exact}

/-- No tolerance is given. -/
structure Options.Strict (opts : Options Exact) : Prop where
  feasibility : opts.feasibility = .fin 0
  pivot : opts.pivot = .fin 0
  optimality : opts.optimality = .fin 0
  tie : opts.tie = .fin 0
  roundOff : opts.roundOff = .fin 0

/-- Pivoting on rationals without tolerance. -/
def Options.rational : Options Rat := ⟨0, none, false, 0, 0, 0, 0, 0, 0⟩

theorem Options.rational_untolerant : Options.rational.Untolerant :=
  ⟨rfl, rfl, rfl, rfl⟩

/-! ## Rows -/

def Row.lift (row : Row Rat w) : Row Exact w := ⟨row.basic, row.cells.map .fin, .fin row.rhs⟩

def CostRow.lift (z : CostRow Rat w) : CostRow Exact w := ⟨z.reduced.map .fin, .fin z.negated⟩

/-- The image of a tableau of rationals. -/
def Tableau.lift (T : Tableau Rat m w) : Tableau Exact m w :=
  ⟨T.rows.map Row.lift, T.objective.lift, T.enterable⟩

namespace Row

variable (row p : Row Rat w) (c : Fin w)

theorem normalize_lift (hne : row.cells.get c ≠ 0) :
    row.lift.normalize c = (row.normalize c).lift := by
  simp only [Row.normalize, Row.lift, Vector.get_map, Exact.fin_div_fin hne, Vector.map_map]
  congr 1
  exact Vector.ext fun i hi => by simp [Exact.fin_div_fin hne]

theorem eliminate_lift : row.lift.eliminate p.lift c = (row.eliminate p c).lift := by
  simp only [Row.eliminate, Row.lift, Vector.get_map, Exact.beq_zero]
  split
  · rfl
  · simp only [Exact.fin_mul_fin, Exact.fin_sub_fin]
    congr 1
    refine Vector.ext fun i hi => ?_
    simp only [Vector.getElem_set, Vector.getElem_map, Vector.getElem_zipWith]
    split
    · exact Exact.zero_eq.trans (congrArg _ Rational.zero_eq.symm)
    · simp

theorem settle_lift (hopts : opts.Strict) :
    row.lift.settle opts.roundOff = (row.settle Options.rational.roundOff).lift := by
  rw [Row.settle_eq Options.rational_untolerant.roundOff]
  have hnot : ¬ (row.rhs < 0 ∧ 0 < row.rhs) := fun h => lt_asymm h.1 h.2
  simp only [Row.settle, Row.lift, hopts.roundOff, Exact.zero_eq, Exact.neg_fin, neg_zero,
    Exact.fin_lt_fin, Bool.and_eq_true, decide_eq_true_eq, hnot, if_false]

end Row

namespace CostRow

variable (z : CostRow Rat w) (row : Row Rat w) (c : Fin w)

theorem subtract_lift (factor : Rat) :
    z.lift.subtract (.fin factor) row.lift = (z.subtract factor row).lift := by
  simp only [CostRow.subtract, CostRow.lift, Row.lift, Exact.fin_mul_fin, Exact.fin_sub_fin]
  congr 1
  exact Vector.ext fun i hi => by simp

theorem price_lift : z.lift.price row.lift = (z.price row).lift := by
  have hfactor : z.lift.reduced.get row.lift.basic = .fin (z.reduced.get row.basic) := by
    simp [CostRow.lift, Row.lift]
  simp only [CostRow.price, hfactor, Exact.beq_zero]
  split
  · rfl
  · exact subtract_lift z row _

theorem eliminate_lift : z.lift.eliminate row.lift c = (z.eliminate row c).lift := by
  have hfactor : z.lift.reduced.get c = .fin (z.reduced.get c) := by simp [CostRow.lift]
  simp only [CostRow.eliminate, hfactor, Exact.beq_zero]
  split
  · rfl
  · rw [subtract_lift]
    simp only [CostRow.lift]
    congr 1
    refine Vector.ext fun i hi => ?_
    simp only [Vector.getElem_set, Vector.getElem_map]
    split
    · exact Exact.zero_eq.trans (congrArg _ Rational.zero_eq.symm)
    · rfl

end CostRow

/-! ## Tableaus -/

namespace Tableau

variable (T : Tableau Rat m w)

theorem get_lift (i : Fin m) : T.lift.rows.get i = (T.rows.get i).lift := by
  simp [Tableau.lift]

theorem cell_lift (i : Fin m) (c : Fin w) :
    (T.lift.rows.get i).cells.get c = .fin ((T.rows.get i).cells.get c) := by
  simp [get_lift, Row.lift]

theorem basic_lift (i : Fin m) : (T.lift.rows.get i).basic = (T.rows.get i).basic := by
  simp [get_lift, Row.lift]

theorem setCost_lift (q : Vector Rat w) :
    T.lift.setCost (q.map .fin) = (T.setCost q).lift := by
  have hzero : (⟨q.map .fin, 0⟩ : CostRow Exact w) = CostRow.lift ⟨q, 0⟩ := by
    rw [CostRow.lift, Exact.zero_eq]
  have hfold : (T.rows.toList.map Row.lift).foldl CostRow.price (CostRow.lift ⟨q, 0⟩) =
      (T.rows.toList.foldl CostRow.price ⟨q, 0⟩).lift := by
    rw [List.foldl_map]
    exact List.foldl_hom CostRow.lift fun z row => CostRow.price_lift z row
  simp only [setCost, Tableau.lift, Vector.toList_map, hzero, hfold, Rational.zero_eq]

theorem block_lift (first : Nat) : T.lift.block first = (T.block first).lift := rfl

theorem value_lift : T.lift.value = .fin T.value := rfl

theorem primal_lift : T.lift.primal = T.primal.map .fin := by
  have hzero : Vector.replicate w (0 : Exact) = (Vector.replicate w 0).map .fin := by
    rw [Vector.map_replicate, Exact.zero_eq]
  simp only [primal, Tableau.lift, Vector.toList_map, hzero, List.foldl_map, Rational.zero_eq]
  refine List.foldl_hom (Vector.map Exact.fin) fun y row => ?_
  simp only [Row.lift, Vector.map_set]

variable (hopts : opts.Strict)

include hopts

theorem entering_lift : T.lift.entering opts = T.entering Options.rational := by
  unfold entering
  congr 1
  funext j
  rw [hopts.optimality]
  simp [Tableau.lift, CostRow.lift, Options.rational]

theorem challenge_lift (c : Fin w) (best : Option (Fin m × Rat)) (r : Fin m) :
    T.lift.challenge opts c (best.map fun b => (b.1, .fin b.2)) r =
      (T.challenge Options.rational c best r).map fun b => (b.1, .fin b.2) := by
  have hcell : (T.lift.rows.get r).cells.get c = .fin (T.cell r c) := T.cell_lift r c
  have hrhs : (T.lift.rows.get r).rhs = .fin (T.level r) := by simp [get_lift, Row.lift, level]
  simp only [challenge, hcell, hrhs, basic_lift, hopts.pivot, hopts.tie, Exact.fin_le_fin]
  by_cases hle : T.cell r c ≤ 0
  · rw [if_pos hle, if_pos (show (T.rows.get r).cells.get c ≤ Options.rational.pivot from hle)]
  · rw [if_neg hle, if_neg (show ¬ (T.rows.get r).cells.get c ≤ Options.rational.pivot from hle)]
    have hne : T.cell r c ≠ 0 := fun h => hle (le_of_eq h)
    rw [Exact.fin_div_fin hne]
    rcases best with _ | ⟨kept, least⟩
    · rfl
    · simp only [Option.map_some, Exact.sub_fin_zero, Exact.add_fin_zero, Exact.fin_lt_fin,
        Exact.fin_le_fin]
      have htie : Options.rational.tie = 0 := rfl
      simp only [htie, sub_zero, add_zero]
      split
      · rename_i h
        rw [if_pos (by exact h)]
        rfl
      · rename_i h
        rw [if_neg (by exact h)]
        rfl

theorem leaving_lift (c : Fin w) : T.lift.leaving opts c = T.leaving Options.rational c := by
  have hfold : (List.finRange m).foldl (T.lift.challenge opts c) none =
      ((List.finRange m).foldl (T.challenge Options.rational c) none).map fun b => (b.1, .fin b.2) :=
    @List.foldl_hom _ _ _ (Option.map fun b : Fin m × Rat => (b.1, Exact.fin b.2)) _ _
      (List.finRange m) none fun best r => challenge_lift T hopts c best r
  rw [leaving, hfold, leaving, Option.map_map]
  rfl

theorem choose_lift : T.lift.choose opts = T.choose Options.rational := by
  simp only [choose, entering_lift T hopts, leaving_lift T hopts]

theorem pivot_lift (r : Fin m) (c : Fin w) (hne : T.cell r c ≠ 0) :
    T.lift.pivot opts r c = (T.pivot Options.rational r c).lift := by
  have hrow := (T.rows.get r).normalize_lift c hne
  simp only [pivot, get_lift, hrow, Row.eliminate_lift]
  simp only [Tableau.lift, CostRow.eliminate_lift]
  congr 1
  refine Vector.ext fun i hi => ?_
  simp only [Vector.getElem_ofFn, Vector.getElem_map]
  rw [← Row.settle_lift _ hopts]
  split <;> rfl

/-- The same run. -/
theorem run_lift (late : Nat → Bool) (budget pivots : Nat) :
    let halt := T.run Options.rational late budget pivots
    T.lift.run opts late budget pivots = ⟨halt.stop, halt.tableau.lift, halt.pivots⟩ := by
  induction budget generalizing pivots T with
  | zero =>
    simp only [run, choose_lift T hopts]
    split <;> rfl
  | succ budget ih =>
    simp only [run, choose_lift T hopts]
    rcases hchoose : T.choose Options.rational with stop | ⟨r, c⟩
    · rfl
    · simp only
      have hne := ne_of_gt (choose_eq_ok Options.rational_untolerant hchoose).blocks.pos
      rcases late pivots with _ | _
      · rw [pivot_lift T hopts r c hne]
        exact ih (T.pivot Options.rational r c) (pivots + 1)
      · rfl

theorem replacement_lift (first : Nat) (r : Fin m) :
    T.lift.replacement opts first r = T.replacement Options.rational first r := by
  unfold replacement
  congr 1
  funext j
  have habs : ∀ q : Rat, Scalar.abs (Exact.fin q) = .fin (Scalar.abs q) := fun _ => rfl
  rw [cell_lift, habs, hopts.pivot]
  simp only [Exact.fin_lt_fin]
  rfl

theorem expel_lift (first : Nat) (s : Tableau Rat m w × Nat) (r : Fin m) :
    expel opts first (s.1.lift, s.2) r =
      ((expel Options.rational first s r).1.lift, (expel Options.rational first s r).2) := by
  simp only [expel, basic_lift, replacement_lift s.1 hopts]
  split
  · rfl
  · rcases hfound : s.1.replacement Options.rational first r with _ | c
    · rfl
    · have hc := List.find?_some hfound
      simp only [Bool.and_eq_true, decide_eq_true_eq] at hc
      simp only [pivot_lift s.1 hopts r c ((abs_pos_iff _).1 hc.2)]

/-- Artificial columns are driven out in the same way. -/
theorem driveOut_lift (first : Nat) : T.lift.driveOut opts first =
    ((T.driveOut Options.rational first).1.lift, (T.driveOut Options.rational first).2) :=
  @List.foldl_hom _ _ _ (fun s : Tableau Rat m w × Nat => (s.1.lift, s.2)) _ _ (List.finRange m)
    (T, 0) fun s r => expel_lift hopts first s r

end Tableau

end Simplex

end Milp
