/-
  What pivoting comes to in each of the two phases, over the rationals.

  Columns at and after `first` are artificial: a vector counts only if it is zero there.

  * `Tableau.Admits`: the vectors that count; `Tableau.Agrees`: tableaus of the same vectors and
    costs.
  * `Tableau.Inert`: artificial columns are basic only in rows that are zero everywhere else.
  * `agrees_iterate`: what a run of pivots keeps.
  * `value_le_cost`, `exists_admits_lt`: what an optimum and what an unbounded column say.
  * `phase1_infeasible`, `phase1_zero`: the end of phase 1.
  * `expelled_driveOut`: how artificial columns are driven out.
  * `phase2_rests`: the end of phase 2.
-/
import Milp.Proofs.Simplex.Bland

namespace Milp.Simplex.Tableau

variable {m w first : Nat} {opts : Options Rat} {T T' : Tableau Rat m w} {r : Fin m} {c : Fin w}
  {y : Fin w → Rat}

/-! ## Vectors that count -/

/-- A vector satisfies the rows, is not negative, and is zero at and after `first`. -/
structure Admits (T : Tableau Rat m w) (first : Nat) (y : Fin w → Rat) : Prop where
  nonneg : ∀ j, 0 ≤ y j
  holds : T.Holds y
  zero : ∀ j, first ≤ j.val → y j = 0

/-- Two tableaus say the same of every vector, and the same columns may enter. -/
structure Agrees (T T' : Tableau Rat m w) : Prop where
  enterable : T'.enterable = T.enterable
  holds : ∀ y, T'.Holds y ↔ T.Holds y
  cost : ∀ y, T.Holds y → T'.cost y = T.cost y

theorem Agrees.refl (T : Tableau Rat m w) : T.Agrees T :=
  ⟨rfl, fun _ => Iff.rfl, fun _ _ => rfl⟩

theorem Agrees.trans {T'' : Tableau Rat m w} (h : T.Agrees T') (h' : T'.Agrees T'') :
    T.Agrees T'' where
  enterable := h'.enterable.trans h.enterable
  holds y := (h'.holds y).trans (h.holds y)
  cost y hy := (h'.cost y ((h.holds y).2 hy)).trans (h.cost y hy)

theorem admits_congr (h : ∀ y, T'.Holds y ↔ T.Holds y) (y : Fin w → Rat) :
    T'.Admits first y ↔ T.Admits first y :=
  ⟨fun hy => ⟨hy.nonneg, (h y).1 hy.holds, hy.zero⟩,
    fun hy => ⟨hy.nonneg, (h y).2 hy.holds, hy.zero⟩⟩

theorem agrees_pivot (hopts : opts.Untolerant) (hne : T.cell r c ≠ 0) :
    T.Agrees (T.pivot opts r c) :=
  ⟨rfl, fun _ => holds_pivot hopts hne, fun _ hy => cost_pivot opts hne hy⟩

/-! ## Artificial columns -/

/-- Where an artificial column is basic, the row is zero, and nothing else is in it. -/
def Inert (T : Tableau Rat m w) (first : Nat) : Prop :=
  ∀ i, first ≤ (T.basic i).val → T.level i = 0 ∧ ∀ j, j.val < first → T.cell i j = 0

/-- Only columns before `first` may enter. -/
def OpenTo (T : Tableau Rat m w) (first : Nat) : Prop :=
  ∀ j, T.enterable.get j = true ↔ j.val < first

/-- A row that an artificial column is basic in does not block, so it stays as it is. -/
theorem Inert.pivot (hT : T.Inert first) (hopts : opts.Untolerant) (hne : T.cell r c ≠ 0)
    (hc : c.val < first) : (T.pivot opts r c).Inert first := by
  intro i hi
  rw [basic_pivot] at hi
  by_cases hir : i = r
  · rw [if_pos hir] at hi
    exact absurd hc (not_lt.2 hi)
  · rw [if_neg hir] at hi
    obtain ⟨hlevel, hcells⟩ := hT i hi
    rw [level_pivot T hopts, if_neg hir, hcells c hc, hlevel, zero_mul, sub_zero]
    refine ⟨rfl, fun j hj => ?_⟩
    rw [cell_pivot T hopts hne, if_neg hir, hcells c hc, hcells j hj, zero_mul, sub_zero]

variable (first) in
/-- What a run of pivots keeps. -/
theorem agrees_iterate {n : Nat} (hopts : opts.Untolerant) (hT : T.Ready)
    (hchosen : ∀ k < n, ∃ r c, ((advance opts)^[k] T).choose opts = .ok (r, c)) :
    ((advance opts)^[n] T).Ready ∧ T.Agrees ((advance opts)^[n] T) ∧
      (T.OpenTo first → T.Inert first → ((advance opts)^[n] T).Inert first) := by
  induction n with
  | zero => exact ⟨hT, .refl T, fun _ h => h⟩
  | succ n ih =>
    obtain ⟨hready, hagrees, hinert⟩ := ih fun k hk => hchosen k (Nat.lt_succ_of_lt hk)
    obtain ⟨r, c, hchoose⟩ := hchosen n (Nat.lt_succ_self n)
    have hsel := choose_eq_ok hopts hchoose
    have hne := ne_of_gt hsel.blocks.pos
    rw [Function.iterate_succ_apply', advance, hchoose]
    refine ⟨hready.pivot hopts hsel.blocks, hagrees.trans (agrees_pivot hopts hne),
      fun hopen h => (hinert hopen h).pivot hopts hne ((hopen c).1 ?_)⟩
    rw [← hagrees.enterable]
    exact hsel.enterable

/-- A basic solution counts if artificial columns are basic at zero only. -/
theorem admits_point (hT : T.Ready) (hzero : ∀ i, first ≤ (T.basic i).val → T.level i = 0) :
    T.Admits first T.point where
  nonneg := point_nonneg hT
  holds := holds_point hT.canonical
  zero j hj := by
    by_cases hbasic : j ∈ T.basis
    · obtain ⟨i, rfl⟩ := mem_basis.1 hbasic
      rw [point_basic hT.canonical, hzero i hj]
    · exact point_eq_zero hT.canonical hbasic

/-! ## Where pivoting stops -/

/-- If no column that may enter lowers the objective, then no vector that is zero on the others has a
    lower one. -/
theorem value_le_cost (hreduced : ∀ j, T.enterable.get j = true → 0 ≤ T.reduced j)
    (hy : ∀ j, 0 ≤ y j) (hzero : ∀ j, T.enterable.get j = false → y j = 0) :
    T.value ≤ T.cost y := by
  have hprice : 0 ≤ T.priceOf y := Finset.sum_nonneg fun j _ => by
    rcases henter : T.enterable.get j with _ | _
    · rw [hzero j henter, mul_zero]
    · exact mul_nonneg (hreduced j henter) (hy j)
  rw [cost]
  linarith

theorem direction_nonneg (hcells : ∀ i, T.cell i c ≤ 0) (j : Fin w) : 0 ≤ T.direction c j := by
  have hsum : ∑ i, (if T.basic i = j then T.cell i c else 0) ≤ 0 :=
    Finset.sum_nonpos fun i _ => by
      split
      · exact hcells i
      · exact le_rfl
  rw [direction]
  split <;> linarith

/-- If nothing blocks a column that lowers the objective, then there is no lowest one. -/
theorem exists_cost_lt (hT : T.Ready) (hlowers : T.reduced c < 0) (hcells : ∀ i, T.cell i c ≤ 0)
    (bound : Rat) : ∃ t, 0 ≤ t ∧ T.Holds (fun j => T.point j + t * T.direction c j) ∧
      (∀ j, 0 ≤ T.point j + t * T.direction c j) ∧
      T.cost (fun j => T.point j + t * T.direction c j) < bound := by
  obtain ⟨t, ht⟩ := exists_gt (max 0 ((T.value - bound) / -T.reduced c))
  obtain ⟨hpos, hfar⟩ := max_lt_iff.1 ht
  have ht0 : 0 ≤ t := le_of_lt hpos
  refine ⟨t, ht0, (holds_point hT.canonical).add_mul (lhs_direction hT.canonical c) t,
    fun j => add_nonneg (point_nonneg hT j) (mul_nonneg ht0 (direction_nonneg hcells j)), ?_⟩
  have hbelow := (div_lt_iff₀ (neg_pos.2 hlowers)).1 hfar
  rw [cost_add_mul, cost_point hT, priceOf_direction hT]
  linarith

/-- The same for vectors that count: artificial columns stay at zero. -/
theorem exists_admits_lt (hT : T.Ready) (hinert : T.Inert first) (hc : c.val < first)
    (hlowers : T.reduced c < 0) (hcells : ∀ i, T.cell i c ≤ 0) (bound : Rat) :
    ∃ y, T.Admits first y ∧ T.cost y < bound := by
  obtain ⟨t, -, hholds, hnonneg, hcost⟩ := exists_cost_lt hT hlowers hcells bound
  refine ⟨_, ⟨hnonneg, hholds, fun j hj => ?_⟩, hcost⟩
  have hdirection : T.direction c j = 0 := by
    have hother : j ≠ c := fun h => absurd hc (not_lt.2 (h ▸ hj))
    rw [direction, if_neg hother, zero_sub, neg_eq_zero]
    refine Finset.sum_eq_zero fun i _ => ?_
    split
    · rename_i hbasic
      exact (hinert i (hbasic ▸ hj)).2 c hc
    · rfl
  rw [(admits_point hT fun i hi => (hinert i hi).1).zero j hj, hdirection, mul_zero, add_zero]

/-- The reason to stop that a run gives is one. -/
def Halt.Justified (late : Nat → Bool) (halt : Halt Rat m w) : Prop :=
  match halt.stop with
  | .optimal => ∀ j, halt.tableau.enterable.get j = true → 0 ≤ halt.tableau.reduced j
  | .unbounded => ∃ c, halt.tableau.enterable.get c = true ∧ halt.tableau.reduced c < 0 ∧
      ∀ i, halt.tableau.cell i c ≤ 0
  | .pivotLimit => True
  | .interrupted => late halt.pivots = true
  | .numerical => False

/-- What is known where a run has stopped. -/
structure Rests (T : Tableau Rat m w) (late : Nat → Bool) (halt : Halt Rat m w) : Prop where
  ready : halt.tableau.Ready
  agrees : T.Agrees halt.tableau
  inert : ∀ first, T.OpenTo first → T.Inert first → halt.tableau.Inert first
  justified : halt.Justified late

theorem run_rests (hopts : opts.Untolerant) (hT : T.Ready) (late : Nat → Bool)
    (budget pivots : Nat) : T.Rests late (T.run opts late budget pivots) := by
  obtain ⟨made, hends⟩ := run_ends opts late budget pivots T
  have hrun := fun first => agrees_iterate first hopts hT hends.chosen
  rw [← hends.tableau_eq] at hrun
  refine ⟨(hrun 0).1, (hrun 0).2.1, fun first => (hrun first).2.2, ?_⟩
  unfold Halt.Justified
  rcases hends.stop with hstop | ⟨hstop, -⟩ | ⟨hstop, hlate⟩
  · rcases choose_eq_error hopts hstop with ⟨heq, hoptimal⟩ | ⟨heq, hunbounded⟩
    · rw [heq]
      exact hoptimal
    · rw [heq]
      exact hunbounded
  · rw [hstop]
    trivial
  · rw [hstop]
    exact hlate

/-! ## Phase 1 -/

/-- The cost of phase 1: one for every artificial column. -/
def artificialCost (w first : Nat) : Vector Rat w :=
  Vector.ofFn fun c => if first ≤ c.val then 1 else 0

theorem sum_artificialCost (first : Nat) (y : Fin w → Rat) :
    ∑ j, (artificialCost w first).get j * y j = ∑ j, if first ≤ j.val then y j else 0 := by
  refine Finset.sum_congr rfl fun j _ => ?_
  rw [artificialCost, Vector.get_ofFn, ite_mul, one_mul, zero_mul]

/-- The sum of the artificial columns is bounded below. -/
theorem artificial_nonneg (hy : ∀ j, 0 ≤ y j) :
    0 ≤ ∑ j : Fin w, if first ≤ j.val then y j else 0 :=
  Finset.sum_nonneg fun j _ => by
    split
    · exact hy j
    · exact le_rfl

section Phase1

variable {late : Nat → Bool} {halt : Halt Rat m w} (hT : T.Canonical)
  (hrests : (T.setCost (artificialCost w first)).Rests late halt)

include hT hrests

/-- The objective of phase 1 is the sum of the artificial columns. -/
theorem phase1_cost (hy : halt.tableau.Holds y) :
    halt.tableau.cost y = ∑ j : Fin w, if first ≤ j.val then y j else 0 := by
  have hy : T.Holds y := (hrests.agrees.holds y).1 hy
  rw [hrests.agrees.cost y hy, cost_setCost hT _ hy, sum_artificialCost]

/-- It is reached. -/
theorem phase1_bounded : halt.stop ≠ .unbounded := by
  intro hstop
  have hjustified := hrests.justified
  rw [Halt.Justified, hstop] at hjustified
  obtain ⟨c, -, hlowers, hcells⟩ := hjustified
  obtain ⟨t, -, hy, hnonneg, hbelow⟩ := exists_cost_lt hrests.ready hlowers hcells 0
  rw [phase1_cost hT hrests hy] at hbelow
  exact absurd hbelow (not_lt.2 (artificial_nonneg hnonneg))

/-- If it is not zero, no vector counts. -/
theorem phase1_infeasible (hall : ∀ j, T.enterable.get j = true) (hstop : halt.stop = .optimal)
    (hpositive : 0 < halt.tableau.value) : ¬ T.Admits first y := by
  intro hy
  have hjustified := hrests.justified
  rw [Halt.Justified, hstop] at hjustified
  have hle := value_le_cost hjustified hy.nonneg fun j hj => by
    rw [hrests.agrees.enterable] at hj
    exact absurd (hall j) (Bool.eq_false_iff.1 hj)
  have hzero : ∑ j : Fin w, (if first ≤ j.val then y j else 0) = 0 :=
    Finset.sum_eq_zero fun j _ => by
      split
      · exact hy.zero j ‹_›
      · rfl
  rw [phase1_cost hT hrests ((hrests.agrees.holds y).2 hy.holds), hzero] at hle
  exact absurd hpositive (not_lt.2 hle)

/-- If it is zero, artificial columns are basic at zero only. -/
theorem phase1_zero (hvalue : halt.tableau.value ≤ 0) (i : Fin m)
    (hi : first ≤ (halt.tableau.basic i).val) : halt.tableau.level i = 0 := by
  have hpoint := point_nonneg hrests.ready
  have hsum := phase1_cost hT hrests (holds_point hrests.ready.canonical)
  rw [cost_point hrests.ready] at hsum
  have hterms := (Finset.sum_eq_zero_iff_of_nonneg fun j _ => by
    split
    · exact hpoint j
    · exact le_rfl).1 (le_antisymm (hsum ▸ hvalue) (artificial_nonneg hpoint))
  have hterm := hterms (halt.tableau.basic i) (Finset.mem_univ _)
  rwa [if_pos hi, point_basic hrests.ready.canonical] at hterm

end Phase1

/-! ## Driving artificial columns out -/

/-- Some artificial columns are basic, but only at zero, and only in rows that are still to be looked
    at or have nothing else in them. -/
structure Expelled (T : Tableau Rat m w) (first : Nat) (done : List (Fin m))
    (T' : Tableau Rat m w) : Prop where
  canonical : T'.Canonical
  nonneg : ∀ i, 0 ≤ T'.level i
  agrees : ∀ y, T'.Holds y ↔ T.Holds y
  opened : T'.OpenTo first
  zero : ∀ i, first ≤ (T'.basic i).val → T'.level i = 0
  cleared : ∀ i ∈ done, first ≤ (T'.basic i).val → ∀ j, j.val < first → T'.cell i j = 0

/-- Where phase 1 has reached zero, the artificial columns are kept from entering. -/
theorem expelled_block (hall : ∀ j, T.enterable.get j = true) {late : Nat → Bool}
    {halt : Halt Rat m w} (hrests : (T.setCost (artificialCost w first)).Rests late halt)
    (hzero : ∀ i, first ≤ (halt.tableau.basic i).val → halt.tableau.level i = 0) :
    T.Expelled first [] (halt.tableau.block first) where
  canonical := hrests.ready.canonical
  nonneg := hrests.ready.nonneg
  agrees := hrests.agrees.holds
  opened j := by
    have hj : halt.tableau.enterable.get j = true := by
      rw [hrests.agrees.enterable]
      exact hall j
    simp [block, hj]
  zero := hzero
  cleared _ hi := absurd hi List.not_mem_nil

theorem abs_pos_iff (a : Rat) : 0 < Scalar.abs a ↔ a ≠ 0 := by
  show 0 < (if 0 ≤ a then a else -a) ↔ a ≠ 0
  split
  · exact ⟨ne_of_gt, fun h => lt_of_le_of_ne ‹_› (Ne.symm h)⟩
  · exact ⟨fun _ h => ‹¬ 0 ≤ a› (h ▸ le_rfl), fun _ => neg_pos.2 (not_le.1 ‹_›)⟩

/-- The right-hand sides stay where that of the pivot row is zero. -/
theorem level_pivot_of_zero (hopts : opts.Untolerant) (hzero : T.level r = 0) (i : Fin m) :
    (T.pivot opts r c).level i = T.level i := by
  rw [level_pivot T hopts, hzero, zero_div, mul_zero, sub_zero]
  split
  · rw [‹i = r›, hzero]
  · rfl

section Expel

variable {done : List (Fin m)} (h : T.Expelled first done T') (hopts : opts.Untolerant)

include h hopts

/-- A row whose artificial column is exchanged for an earlier one. -/
theorem Expelled.pivot (hlevel : T'.level r = 0) (hbefore : c.val < first)
    (hne : T'.cell r c ≠ 0) : T.Expelled first (done ++ [r]) (T'.pivot opts r c) := by
  have hold : ∀ i, first ≤ ((T'.pivot opts r c).basic i).val → i ≠ r ∧
      first ≤ (T'.basic i).val := fun i hi => by
    rw [basic_pivot] at hi
    by_cases hir : i = r
    · rw [if_pos hir] at hi
      exact absurd hbefore (not_lt.2 hi)
    · rw [if_neg hir] at hi
      exact ⟨hir, hi⟩
  constructor
  · exact h.canonical.pivot hopts hne
  · intro i
    rw [level_pivot_of_zero hopts hlevel]
    exact h.nonneg i
  · intro y
    rw [holds_pivot hopts hne]
    exact h.agrees y
  · exact h.opened
  · intro i hi
    rw [level_pivot_of_zero hopts hlevel]
    exact h.zero i (hold i hi).2
  · refine forall_mem_concat (fun i hi hbasic j hj => ?_) fun hr => absurd rfl (hold r hr).1
    obtain ⟨hir, hbasic⟩ := hold i hbasic
    have hcells := h.cleared i hi hbasic
    rw [cell_pivot T' hopts hne, if_neg hir, hcells c hbefore, hcells j hj, zero_mul, sub_zero]

/-- The next row. -/
theorem Expelled.expel (kept : Nat) (r : Fin m) :
    T.Expelled first (done ++ [r]) (Tableau.expel opts first (T', kept) r).1 := by
  simp only [Tableau.expel]
  split
  · rename_i hbasic
    exact { h with cleared := forall_mem_concat h.cleared fun hr => absurd hbasic (not_lt.2 hr) }
  rename_i hbasic
  split
  · rename_i c hfound
    have hc := List.find?_some hfound
    simp only [hopts.pivot, Bool.and_eq_true, decide_eq_true_eq] at hc
    obtain ⟨⟨hbefore, -⟩, hcell⟩ := hc
    exact h.pivot hopts (h.zero r (not_lt.1 hbasic)) hbefore ((abs_pos_iff _).1 hcell)
  · -- there is nothing to exchange the artificial column for
    rename_i hnone
    refine { h with cleared := forall_mem_concat h.cleared fun _ j hj => ?_ }
    have hcell := List.find?_eq_none.1 hnone j (List.mem_finRange j)
    simp only [hopts.pivot, hj, (h.opened j).2 hj, decide_true, Bool.true_and,
      decide_eq_true_eq] at hcell
    by_contra hne
    exact hcell ((abs_pos_iff _).2 hne)

end Expel

/-- All rows: artificial columns are driven out, but for rows with nothing else in them. -/
theorem expelled_driveOut (hopts : opts.Untolerant) (h : T.Expelled first [] T') :
    T.Expelled first (List.finRange m) (T'.driveOut opts first).1 :=
  foldl_done (I := fun done (s : Tableau Rat m w × Nat) => T.Expelled first done s.1)
    (fun _ s r hs => hs.expel hopts s.2 r) h (List.finRange m)

theorem Expelled.inert (h : T.Expelled first (List.finRange m) T') : T'.Inert first :=
  fun i hi => ⟨h.zero i hi, h.cleared i (List.mem_finRange i) hi⟩

/-- Without artificial columns there is nothing to drive out. -/
theorem expelled_of_le (hT : T.Canonical) (hnonneg : ∀ i, 0 ≤ T.level i)
    (hall : ∀ j, T.enterable.get j = true) (hfirst : w ≤ first) :
    T.Expelled first (List.finRange m) T := by
  have hnone : ∀ j : Fin w, ¬ first ≤ j.val := fun j => by omega
  exact ⟨hT, hnonneg, fun _ => Iff.rfl, fun j => by simp [hall j, not_le.1 (hnone j)],
    fun i hi => absurd hi (hnone _), fun i _ hi => absurd hi (hnone _)⟩

/-! ## Phase 2 -/

/-- The end of phase 2: the basic solution is the best vector that counts, or there are vectors that
    count of every cost. -/
theorem phase2_rests {q : Vector Rat w} {late : Nat → Bool} {halt : Halt Rat m w}
    (h : T.Expelled first (List.finRange m) T') (hrests : (T'.setCost q).Rests late halt) :
    (halt.stop = .optimal → T.Admits first halt.tableau.point ∧
      halt.tableau.value = ∑ j, q.get j * halt.tableau.point j ∧
      ∀ y, T.Admits first y → halt.tableau.value ≤ ∑ j, q.get j * y j) ∧
    (halt.stop = .unbounded → ∀ bound, ∃ y, T.Admits first y ∧ ∑ j, q.get j * y j < bound) := by
  have hopen : (T'.setCost q).OpenTo first := h.opened
  have hinert : halt.tableau.Inert first := hrests.inert first hopen h.inert
  have hholds : ∀ y, halt.tableau.Holds y ↔ T.Holds y := fun y =>
    (hrests.agrees.holds y).trans (h.agrees y)
  have hadmits : ∀ y, halt.tableau.Admits first y ↔ T.Admits first y := admits_congr hholds
  have hcost : ∀ y, T.Holds y → halt.tableau.cost y = ∑ j, q.get j * y j := fun y hy => by
    rw [hrests.agrees.cost y ((h.agrees y).2 hy), cost_setCost h.canonical _ ((h.agrees y).2 hy)]
  have henterable : ∀ j, halt.tableau.enterable.get j = true ↔ j.val < first := fun j => by
    rw [hrests.agrees.enterable]
    exact hopen j
  have hjustified := hrests.justified
  unfold Halt.Justified at hjustified
  constructor
  · intro hstop
    rw [hstop] at hjustified
    have hpoint := (hadmits _).1 (admits_point hrests.ready fun i hi => (hinert i hi).1)
    refine ⟨hpoint, ?_, fun y hy => ?_⟩
    · rw [← hcost _ hpoint.holds, cost_point hrests.ready]
    · rw [← hcost y hy.holds]
      refine value_le_cost hjustified hy.nonneg fun j hj => hy.zero j (not_lt.1 fun hlt => ?_)
      exact Bool.eq_false_iff.1 hj ((henterable j).2 hlt)
  · intro hstop bound
    rw [hstop] at hjustified
    obtain ⟨c, hc, hlowers, hcells⟩ := hjustified
    obtain ⟨y, hy, hbelow⟩ :=
      exists_admits_lt hrests.ready hinert ((henterable c).1 hc) hlowers hcells bound
    have hy := (hadmits y).1 hy
    exact ⟨y, hy, hcost y hy.holds ▸ hbelow⟩

end Milp.Simplex.Tableau
