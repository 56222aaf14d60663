/-
  A tableau stays solved for its basic columns, whatever is done with it.

  The tolerances may be anything, as long as that of the pivot elements is not negative: then every
  pivot is on an element that is not zero, and settling changes right-hand sides only.

  * `Tableau.Solved`: the basic columns are distinct unit vectors, and cost nothing.
  * `Tableau.Exchange`: one pivot; `run_keeps`: what every exchange keeps, a run keeps;
    `run_exchanges`, `driveOut_exchanges`: running and driving out are chains of them.
  * `Tableau.Upkept`: the tableau is the image of one of rationals that is solved.
  * `Tableau.Barred`: a column that may not enter and is not basic.
  * `Call`, `Tableau.perform`: sequences of what can be done with a tableau; `perform_blocks`: one
    call for each column does what `Tableau.block` does.
  * `Program.tableau_canonical`: what holds of the tableau of a program after every such sequence.
-/
import Milp.Proofs.Simplex.Correctness

namespace Milp

namespace Simplex

variable {F : Type} {m w : Nat}

/-! ## Pivots of any tolerance -/

/-- A right-hand side is raised by no more than the tolerance. -/
def Raised (roundOff : Exact) (a b : Rat) : Prop :=
  a ≤ b ∧ ∀ ε, roundOff = .fin ε → 0 ≤ ε → b ≤ a + ε

/-- Settling changes at most the right-hand side. -/
theorem Row.exists_settle (roundOff : Exact) (row : Row Rat w) :
    ∃ b, row.lift.settle roundOff = ({ row with rhs := b } : Row Rat w).lift ∧
      Raised roundOff row.rhs b := by
  unfold Row.settle
  split
  · rename_i h
    rw [Bool.and_eq_true, decide_eq_true_eq, decide_eq_true_eq, Exact.zero_eq] at h
    obtain ⟨hneg, hnear⟩ := h
    refine ⟨0, by simp [Row.lift, Exact.zero_eq], le_of_lt (Exact.fin_lt_fin.1 hneg),
      fun ε hε _ => ?_⟩
    rw [hε, Exact.neg_fin] at hnear
    linarith [Exact.fin_lt_fin.1 hnear]
  · exact ⟨row.rhs, rfl, le_rfl, fun ε _ hε => le_add_of_nonneg_right hε⟩

namespace Tableau

/-- The tableau with other right-hand sides. -/
def withLevels (T : Tableau Rat m w) (b : Fin m → Rat) : Tableau Rat m w :=
  { T with rows := Vector.ofFn fun i => { T.rows.get i with rhs := b i } }

/-- The basic columns of a tableau of rationals are unit vectors, and cost nothing. -/
structure Priced (T : Tableau Rat m w) : Prop where
  canonical : T.Canonical
  priced : ∀ i, T.reduced (T.basic i) = 0

/-- The basic columns are distinct unit vectors, each in its row, and cost nothing. -/
structure Solved (T : Tableau Exact m w) : Prop where
  distinct : Function.Injective T.basic
  unit : ∀ i i', T.cell i (T.basic i') = if i = i' then 1 else 0
  priced : ∀ i, T.reduced (T.basic i) = 0

/-- The tableau is the image of one of rationals whose basic columns are unit vectors that cost
    nothing. -/
def Upkept (T : Tableau Exact m w) : Prop := ∃ T' : Tableau Rat m w, T = T'.lift ∧ T'.Priced

section Rationals

variable {T : Tableau Rat m w} {r : Fin m} {c : Fin w}

@[simp] theorem cell_withLevels (T : Tableau Rat m w) (b : Fin m → Rat) (i : Fin m) (j : Fin w) :
    (T.withLevels b).cell i j = T.cell i j := by
  simp [cell, Tableau.withLevels]

@[simp] theorem level_withLevels (T : Tableau Rat m w) (b : Fin m → Rat) (i : Fin m) :
    (T.withLevels b).level i = b i := by
  simp [level, Tableau.withLevels]

@[simp] theorem basic_withLevels (T : Tableau Rat m w) (b : Fin m → Rat) (i : Fin m) :
    (T.withLevels b).basic i = T.basic i := by
  simp [basic, Tableau.withLevels]

@[simp] theorem basis_withLevels (T : Tableau Rat m w) (b : Fin m → Rat) :
    (T.withLevels b).basis = T.basis := by
  rw [basis, basis, funext (basic_withLevels T b)]

theorem Priced.withLevels (h : T.Priced) (b : Fin m → Rat) : (T.withLevels b).Priced := by
  refine ⟨fun i i' => ?_, fun i => ?_⟩
  · rw [cell_withLevels, basic_withLevels, h.canonical]
  · rw [basic_withLevels]
    exact h.priced i

theorem Priced.pivot (h : T.Priced) (hne : T.cell r c ≠ 0) :
    (T.pivot Options.rational r c).Priced :=
  ⟨h.canonical.pivot Options.rational_untolerant hne, h.canonical.priced_pivot h.priced _ hne⟩

/-- An element is not zero if its image is not. -/
theorem cell_ne_zero_of_lift (hne : T.lift.cell r c ≠ 0) : T.cell r c ≠ 0 := fun hzero => hne (by
  rw [cell, cell_lift, Exact.zero_eq]
  exact congrArg Exact.fin hzero)

/-- A pivot on an element that is not zero is one of rationals, up to the right-hand sides. -/
theorem exists_pivot (opts : Options Exact) (hne : T.cell r c ≠ 0) :
    ∃ b, T.lift.pivot opts r c = ((T.pivot Options.rational r c).withLevels b).lift ∧
      ∀ i, Raised opts.roundOff ((T.pivot Options.rational r c).level i) (b i) := by
  choose b hb hraised using fun i =>
    Row.exists_settle opts.roundOff ((T.pivot Options.rational r c).rows.get i)
  refine ⟨b, ?_, hraised⟩
  have hrow := (T.rows.get r).normalize_lift c hne
  have hrows := rows_pivot T Options.rational_untolerant r c
  have hlift : ∀ i, (if i = r then ((T.rows.get r).normalize c).lift
      else ((T.rows.get i).eliminate ((T.rows.get r).normalize c) c).lift).settle opts.roundOff =
        ({ (T.pivot Options.rational r c).rows.get i with rhs := b i } : Row Rat w).lift := by
    intro i
    rw [← hb, hrows]
    split <;> rfl
  simp only [pivot, get_lift, hrow, Row.eliminate_lift, hlift]
  simp only [Tableau.lift, Tableau.withLevels, CostRow.eliminate_lift]
  congr 1
  exact Vector.ext fun i hi => by simp

theorem Priced.solved (h : T.Priced) : T.lift.Solved where
  distinct i i' heq := h.canonical.injective (by simpa [basic, basic_lift] using heq)
  unit i i' := by
    have hcell := h.canonical i i'
    rw [cell] at hcell
    rw [cell, basic, basic_lift, cell_lift]
    show Exact.fin ((T.rows.get i).cells.get (T.basic i')) = _
    rw [hcell, Exact.one_eq, Exact.zero_eq]
    split <;> rfl
  priced i := by
    have hreduced : T.lift.reduced (T.lift.basic i) = .fin (T.reduced (T.basic i)) := by
      simp [reduced, basic, Tableau.lift, CostRow.lift, Row.lift]
    rw [hreduced, h.priced, Exact.zero_eq]

end Rationals

/-! ## Exchanges -/

/-- One pivot on a column that may enter, at an element that is not zero. -/
def Exchange [Scalar F] (opts : Options F) (T T' : Tableau F m w) : Prop :=
  ∃ r c, T.enterable.get c = true ∧ T.cell r c ≠ 0 ∧ T' = T.pivot opts r c

/-- A column that may not enter and is not basic. -/
structure Barred (T : Tableau F m w) (j : Fin w) : Prop where
  closed : T.enterable.get j = false
  outside : ∀ i, T.basic i ≠ j

section Exchanges

variable {opts : Options Exact} {T T' : Tableau Exact m w} {j c : Fin w} {r : Fin m}

theorem Upkept.exchange (h : T.Upkept) (hx : Exchange opts T T') : T'.Upkept := by
  obtain ⟨S, rfl, hS⟩ := h
  obtain ⟨r, c, -, hne, rfl⟩ := hx
  have hne := cell_ne_zero_of_lift hne
  obtain ⟨b, hb, -⟩ := exists_pivot opts hne
  exact ⟨_, hb, (hS.pivot hne).withLevels b⟩

/-- The column that becomes basic is one that may enter. -/
theorem Barred.exchange (h : T.Barred j) (hx : Exchange opts T T') : T'.Barred j := by
  obtain ⟨r, c, hmay, -, rfl⟩ := hx
  refine ⟨h.closed, fun i => ?_⟩
  rw [basic_pivot]
  split
  · rintro rfl
    rw [h.closed] at hmay
    cases hmay
  · exact h.outside i

theorem Upkept.exchanges (h : T.Upkept) (hx : Relation.ReflTransGen (Exchange opts) T T') :
    T'.Upkept := by
  induction hx with
  | refl => exact h
  | tail _ hlast ih => exact ih.exchange hlast

theorem Barred.exchanges (h : T.Barred j) (hx : Relation.ReflTransGen (Exchange opts) T T') :
    T'.Barred j := by
  induction hx with
  | refl => exact h
  | tail _ hlast ih => exact ih.exchange hlast

variable (hpivot : 0 ≤ opts.pivot)

/-- The ratio test keeps only rows whose element is large enough. -/
theorem leaving_large {F : Type} [Scalar F] {opts : Options F} {T : Tableau F m w}
    (h : T.leaving opts c = some r) : ¬ T.cell r c ≤ opts.pivot := by
  obtain ⟨best, hbest, rfl⟩ := Option.map_eq_some_iff.1 h
  have hfold : ∀ best ∈ (List.finRange m).foldl (T.challenge opts c) none,
      ¬ T.cell best.1 c ≤ opts.pivot := by
    refine List.foldlRecOn (motive := fun b : Option (Fin m × F) =>
      ∀ best ∈ b, ¬ T.cell best.1 c ≤ opts.pivot) _ _ (by simp) fun b hb r _ => ?_
    unfold challenge
    simp only
    split
    · exact hb
    · rename_i hlarge
      split
      · rintro best ⟨⟩
        exact hlarge
      · split
        · rintro best ⟨⟩
          exact hlarge
        · exact hb
  exact hfold best hbest

include hpivot

theorem choose_exchange (h : T.choose opts = .ok (r, c)) :
    Exchange opts T (T.pivot opts r c) := by
  obtain ⟨hentering, hleaving⟩ := entering_leaving_of_choose h
  have hmay := List.find?_some hentering
  rw [Bool.and_eq_true] at hmay
  refine ⟨r, c, hmay.1, fun hzero => leaving_large hleaving ?_, rfl⟩
  rw [hzero]
  exact hpivot

/-- What every exchange keeps, with the number of pivots made by then, a run keeps. -/
theorem run_keeps {I : Nat → Tableau Exact m w → Prop}
    (hstep : ∀ k T T', I k T → Exchange opts T T' → I (k + 1) T') (late : Nat → Bool)
    (budget : Nat) {pivots : Nat} {T : Tableau Exact m w} (h : I pivots T) :
    I (T.run opts late budget pivots).pivots (T.run opts late budget pivots).tableau := by
  induction budget generalizing pivots T with
  | zero =>
    rw [run]
    split <;> exact h
  | succ budget ih =>
    rw [run]
    split
    · exact h
    · rename_i r c hchoose
      have hnext := hstep _ _ _ h (choose_exchange hpivot hchoose)
      split
      · exact h
      · simp only
        split
        · exact ih hnext
        · exact hnext

/-- A run is a chain of exchanges. -/
theorem run_exchanges (late : Nat → Bool) (budget pivots : Nat) (T : Tableau Exact m w) :
    Relation.ReflTransGen (Exchange opts) T (T.run opts late budget pivots).tableau :=
  run_keeps (I := fun _ T' => Relation.ReflTransGen (Exchange opts) T T') hpivot
    (fun _ _ _ h hx => h.tail hx) late budget .refl

/-- A row keeps its basic column, or exchanges one at or after `first` for an earlier one. -/
theorem expel_cases (first : Nat) (s : Tableau Exact m w × Nat) (r : Fin m) :
    (expel opts first s r).1 = s.1 ∨
      ∃ c, first ≤ (s.1.basic r).val ∧ c.val < first ∧ s.1.enterable.get c = true ∧
        s.1.cell r c ≠ 0 ∧ (expel opts first s r).1 = s.1.pivot opts r c := by
  unfold expel
  split
  · exact .inl rfl
  · rename_i hbasic
    split
    · rename_i c hfound
      have hc := List.find?_some hfound
      simp only [Bool.and_eq_true, decide_eq_true_eq] at hc
      refine .inr ⟨c, not_lt.1 hbasic, hc.1.1, hc.1.2, fun hzero => ?_, rfl⟩
      rw [show (s.1.rows.get r).cells.get c = 0 from hzero] at hc
      exact Exact.not_lt_of_le hpivot hc.2
    · exact .inl rfl

theorem expel_exchanges (first : Nat) (s : Tableau Exact m w × Nat) (r : Fin m) :
    Relation.ReflTransGen (Exchange opts) s.1 (expel opts first s r).1 := by
  obtain h | ⟨c, -, -, hmay, hne, h⟩ := expel_cases hpivot first s r
  · rw [h]
  · exact .single ⟨r, c, hmay, hne, h⟩

/-- Driving out is a chain of exchanges. -/
theorem driveOut_exchanges (first : Nat) (T : Tableau Exact m w) :
    Relation.ReflTransGen (Exchange opts) T (T.driveOut opts first).1 :=
  List.foldlRecOn (motive := fun s : Tableau Exact m w × Nat =>
    Relation.ReflTransGen (Exchange opts) T s.1) _ _ .refl
    fun s hs r _ => hs.trans (expel_exchanges hpivot first s r)

end Exchanges

/-! ## Sequences of calls -/

/-- Keep one column from entering. -/
def blockColumn (T : Tableau F m w) (col : Fin w) : Tableau F m w :=
  { T with enterable := T.enterable.set col false col.isLt }

theorem foldl_blockColumn (cols : List (Fin w)) (T : Tableau F m w) : cols.foldl blockColumn T =
    { T with enterable := Vector.ofFn fun j => T.enterable.get j && !decide (j ∈ cols) } := by
  induction cols generalizing T with
  | nil =>
    have hsame : (Vector.ofFn fun j => T.enterable.get j && !decide (j ∈ [])) = T.enterable :=
      Vector.ext fun j hj => by simp [Vector.get_eq_getElem]
    rw [List.foldl_nil, hsame]
  | cons col cols ih =>
    rw [List.foldl_cons, ih]
    simp only [blockColumn, Vector.get_set]
    congr 2
    funext j
    by_cases hj : j = col <;> simp [hj]

/-- The columns at and after a given one are kept from entering one by one. -/
theorem block_eq (T : Tableau F m w) (first : Nat) :
    T.block first = ((List.finRange w).filter (first ≤ ·.val)).foldl blockColumn T := by
  rw [foldl_blockColumn, block]
  congr 2
  funext j
  by_cases hj : j.val < first
  · simp [hj]
  · simp [hj, not_lt.1 hj]

end Tableau

/-- What can be done with a tableau. -/
inductive Call (w : Nat) where
  | setCost (cost : Vector Rat w)
  | block (col : Fin w)
  | run (late : Nat → Bool) (budget pivots : Nat)
  | driveOut (first : Nat)

/-- The calls that keep the columns at and after a given one from entering. -/
def Call.blocks (w first : Nat) : List (Call w) :=
  ((List.finRange w).filter (first ≤ ·.val)).map .block

namespace Tableau

/-- The tableau after a call. -/
def apply (opts : Options Exact) (T : Tableau Exact m w) : Call w → Tableau Exact m w
  | .setCost cost => T.setCost (cost.map .fin)
  | .block col => T.blockColumn col
  | .run late budget pivots => (T.run opts late budget pivots).tableau
  | .driveOut first => (T.driveOut opts first).1

/-- The tableau after a sequence of calls. -/
def perform (opts : Options Exact) (T : Tableau Exact m w) (calls : List (Call w)) :
    Tableau Exact m w := calls.foldl (apply opts) T

theorem perform_append (opts : Options Exact) (T : Tableau Exact m w)
    (calls later : List (Call w)) :
    T.perform opts (calls ++ later) = (T.perform opts calls).perform opts later :=
  List.foldl_append

/-- The columns at and after a given one are kept from entering by one call for each. -/
theorem perform_blocks (opts : Options Exact) (T : Tableau Exact m w) (first : Nat) :
    T.perform opts (Call.blocks w first) = T.block first := by
  rw [block_eq, perform, Call.blocks, List.foldl_map]
  rfl

variable {T : Tableau Exact m w} {opts : Options Exact} {j : Fin w}

theorem Upkept.solved (h : T.Upkept) : T.Solved := by
  obtain ⟨S, rfl, hS⟩ := h
  exact hS.solved

/-- A cost is priced out whatever was installed before. -/
theorem Upkept.setCost (h : T.Upkept) (cost : Vector Rat w) : (T.setCost (cost.map .fin)).Upkept := by
  obtain ⟨S, rfl, hS⟩ := h
  exact ⟨S.setCost cost, setCost_lift S cost, hS.canonical, priced_setCost hS.canonical cost⟩

section Calls

variable (hpivot : 0 ≤ opts.pivot)

include hpivot

theorem Upkept.apply (h : T.Upkept) (call : Call w) : (T.apply opts call).Upkept := by
  cases call with
  | setCost cost => exact h.setCost cost
  | block col =>
    obtain ⟨S, rfl, hS⟩ := h
    exact ⟨S.blockColumn col, rfl, hS.canonical, hS.priced⟩
  | run late budget pivots =>
    exact h.exchanges (run_exchanges hpivot late budget pivots T)
  | driveOut first =>
    exact h.exchanges (driveOut_exchanges hpivot first T)

theorem Barred.apply (h : T.Barred j) (call : Call w) : (T.apply opts call).Barred j := by
  cases call with
  | setCost cost => exact ⟨h.closed, h.outside⟩
  | block col =>
    refine ⟨?_, h.outside⟩
    show (T.enterable.set col false col.isLt).get j = false
    rw [Vector.get_set, h.closed, ite_self]
  | run late budget pivots =>
    exact h.exchanges (run_exchanges hpivot late budget pivots T)
  | driveOut first =>
    exact h.exchanges (driveOut_exchanges hpivot first T)

theorem Upkept.perform (h : T.Upkept) (calls : List (Call w)) : (T.perform opts calls).Upkept :=
  List.foldlRecOn _ _ h fun _ h call _ => h.apply hpivot call

theorem Barred.perform (h : T.Barred j) (calls : List (Call w)) :
    (T.perform opts calls).Barred j :=
  List.foldlRecOn (motive := fun T : Tableau Exact m w => T.Barred j) _ _ h
    fun _ h call _ => h.apply hpivot call

end Calls

end Tableau

/-! ## The tableau of a program -/

namespace DenseProgram

variable {m n : Nat} {D : DenseProgram Exact m n}

/-- The tableau of a form whose rows are rational. -/
theorem Finite.upkept (hD : D.Finite) :
    (Tableau.ofRows (EqualityForm.build D).rows).Upkept := by
  refine ⟨layout D.opened, (lift_layout hD.opened).symm, canonical_layout _, fun i => ?_⟩
  exact (Vector.getElem_replicate (Fin.isLt _)).trans Rational.zero_eq

theorem Finite.level_nonneg (hD : D.Finite) (i : Fin (EqualityForm.build D).height) :
    0 ≤ ((EqualityForm.build D).rows.get i).rhs := by
  obtain ⟨hrhs, hnonneg⟩ : Scalar.isFinite (D.opened.get i).rhs = true ∧
      0 ≤ (D.opened.get i).rhs.rat :=
    ⟨(hD.opened _ (List.get_mem _ i)).rhs, (hD.opened _ (List.get_mem _ i)).nonneg⟩
  have hrow : ((EqualityForm.build D).rows.get i).rhs = (D.opened.get i).rhs :=
    congrArg Row.rhs (Vector.get_ofFn (layRow D.opened) i)
  rw [hrow, ← Exact.fin_rat hrhs, Exact.zero_eq, Exact.fin_le_fin]
  exact hnonneg

/-- Slack and artificial columns cost nothing. -/
theorem cost_build_of_le (D : DenseProgram Exact m n) (c : Fin (EqualityForm.build D).width)
    (hc : D.columns.length ≤ c.val) : (EqualityForm.build D).cost.get c = 0 := by
  have hcolumn : (EqualityForm.build D).cost.get c = D.columnCost D.columns c :=
    Vector.get_ofFn _ c
  rw [hcolumn, columnCost, dif_neg (not_lt.2 hc)]

end DenseProgram

end Simplex

open Simplex

/-- **The tableau of a program stays canonical.**  The rows of the form of a valid program, over any
    box, have one width, right-hand sides that are not negative and distinct basic columns that are
    unit vectors; slack and artificial columns cost nothing.  Whatever sequence of costs, blocked
    columns, runs and driving out follows, with any tolerances of which that of the pivot elements is
    not negative: the basic columns are distinct unit vectors whose reduced costs are zero, and a
    blocked column that is not basic does not become basic any more. -/
theorem Program.tableau_canonical {P : Program Exact} {box : Box Exact} {opts : Options Exact}
    {D : DenseProgram Exact P.height P.vars} (hvalid : P.validate = .ok ())
    (hdense : DenseProgram.of P box = .ok D) (hpivot : 0 ≤ opts.pivot) :
    let form := EqualityForm.build D
    let start := Tableau.ofRows form.rows
    ((∀ i, (form.rows.get i).cells.toList.length = form.width) ∧
      (∀ i, 0 ≤ (form.rows.get i).rhs) ∧ start.Solved ∧
      ∀ c : Fin form.width, D.columns.length ≤ c.val → form.cost.get c = 0) ∧
    ∀ calls, (start.perform opts calls).Solved ∧
      ∀ j, (start.perform opts calls).Barred j →
        ∀ later i, (start.perform opts (calls ++ later)).basic i ≠ j := by
  intro form start
  have hfinite := (representedBy_of_eq_ok hdense).finite (validate_eq_ok hvalid)
  have hstart := hfinite.upkept
  refine ⟨⟨fun i => by simp, hfinite.level_nonneg, hstart.solved, D.cost_build_of_le⟩,
    fun calls => ⟨(hstart.perform hpivot calls).solved, fun j hj later i => ?_⟩⟩
  rw [Tableau.perform_append]
  exact (hj.perform hpivot later).outside i

namespace Simplex.EqualityForm

variable {n : Nat} (form : EqualityForm Exact n)

/-- The calls of phase 1, with up to ten pivots. -/
def phase1Calls : List (Call form.width) :=
  [.setCost (Tableau.artificialCost form.width form.firstArtificial), .run (fun _ => false) 10 0]

/-- The calls of phase 1, and those that keep artificial columns out of phase 2. -/
def drivenCalls : List (Call form.width) :=
  form.phase1Calls ++ Call.blocks form.width form.firstArtificial ++
    [.driveOut form.firstArtificial]

/-- The tableau between the phases, when artificial columns are blocked and driven out. -/
def driven : Tableau Exact form.height form.width :=
  (((Tableau.ofRows form.rows).perform Options.exact form.phase1Calls).block
    form.firstArtificial).perform Options.exact [.driveOut form.firstArtificial]

theorem perform_drivenCalls :
    (Tableau.ofRows form.rows).perform Options.exact form.drivenCalls = form.driven := by
  rw [drivenCalls, Tableau.perform_append, Tableau.perform_append, Tableau.perform_blocks, driven]

end Simplex.EqualityForm

/-- The tableau of `slope` in both phases: an artificial column that is blocked and driven out stays
    out of the basis. -/
theorem Program.tableau_canonical_slope : ∃ D, DenseProgram.of slope slopeBox = .ok D ∧
    let form := EqualityForm.build D
    let phase2 := form.driven.perform Options.exact [.setCost D.costs, .run (fun _ => false) 10 0]
    form.driven.Solved ∧ phase2.Solved ∧ ∃ j, form.driven.Barred j ∧ ∀ i, phase2.basic i ≠ j := by
  have hbarred : (DenseProgram.of slope slopeBox).toOption.any (fun D => decide <|
      let driven := (EqualityForm.build D).driven
      ∃ j, driven.enterable.get j = false ∧ ∀ i, driven.basic i ≠ j) = true := by
    decide +kernel
  obtain ⟨D, hdense, hbarred⟩ := exists_ok_of_any hbarred
  obtain ⟨j, hclosed, houtside⟩ := of_decide_eq_true hbarred
  have hcanonical := (@tableau_canonical slope slopeBox Options.exact D (by decide +kernel) hdense
    (by decide +kernel)).2
  let calls := (EqualityForm.build D).drivenCalls
  let later : List (Call (EqualityForm.build D).width) :=
    [.setCost D.costs, .run (fun _ => false) 10 0]
  obtain ⟨hdriven, hstays⟩ := hcanonical calls
  have hphase2 := (hcanonical (calls ++ later)).1
  rw [EqualityForm.perform_drivenCalls] at hdriven hstays
  have hout := hstays j ⟨hclosed, houtside⟩ later
  rw [Tableau.perform_append, EqualityForm.perform_drivenCalls] at hphase2 hout
  exact ⟨D, hdense, hdriven, hphase2, j, ⟨hclosed, houtside⟩, hout⟩

end Milp
