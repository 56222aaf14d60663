/-
  Bland's rule never cycles.

  If the same columns were basic twice, every pivot in between would be degenerate, so the basic
  solution would not move.  Of the columns that enter in between take the last one, `t`.  Where `t`
  enters, no earlier column lowers the objective; where `t` leaves, some column before it lowers the
  objective.  Comparing the two objectives along the direction of that column gives a row that blocks
  it as well, with a basic column before `t`: it should have left instead of `t`.

  * `Tableau.Selects`: the pivot that the rule selects.
  * `Tableau.Walk`: a run of such pivots.
  * `Walk.basis_ne`: the set of basic columns at its end is not that of its start.
  * `run_bland`: what that means for `Tableau.run`.
-/
import Milp.Proofs.Simplex.Pivoting

namespace Milp.Simplex.Tableau

variable {m w : Nat} {opts : Options Rat} {T : Tableau Rat m w} {r : Fin m} {c : Fin w}
  {y z : Fin w → Rat}

/-! ## The rule -/

/-- The pivot that the rule selects: the first column that lowers the objective, and of the rows that
    block it first the one whose basic column comes first. -/
structure Selects (T : Tableau Rat m w) (r : Fin m) (c : Fin w) : Prop where
  enterable : T.enterable.get c = true
  lowers : T.reduced c < 0
  first : ∀ j < c, T.enterable.get j = true → 0 ≤ T.reduced j
  blocks : T.Blocks r c
  tie : ∀ i, 0 < T.cell i c → T.level i / T.cell i c = T.level r / T.cell r c →
    T.basic r ≤ T.basic i

theorem entering_eq_some (hopts : opts.Untolerant) (h : T.entering opts = some c) :
    T.enterable.get c = true ∧ T.reduced c < 0 ∧
      ∀ j < c, T.enterable.get j = true → 0 ≤ T.reduced j := by
  obtain ⟨hc, i, hi, hget, hbefore⟩ := List.find?_eq_some_iff_getElem.1 h
  have hic : i = c.val := by simpa [Fin.ext_iff] using hget
  simp only [hopts.optimality, neg_zero, Bool.and_eq_true, decide_eq_true_eq] at hc
  refine ⟨hc.1, hc.2, fun j hj hmay => ?_⟩
  have hnot := hbefore j.val (hic ▸ hj)
  simp only [List.getElem_finRange, hopts.optimality, neg_zero] at hnot
  simpa [hmay, reduced] using hnot

theorem entering_eq_none (hopts : opts.Untolerant) (h : T.entering opts = none) (j : Fin w)
    (hj : T.enterable.get j = true) : 0 ≤ T.reduced j := by
  have hnot := List.find?_eq_none.1 h j (List.mem_finRange j)
  simpa [hj, hopts.optimality, reduced] using hnot

/-- What the ratio test has found among some of the rows. -/
def Leads (T : Tableau Rat m w) (c : Fin w) (rows : List (Fin m)) : Option (Fin m × Rat) → Prop
  | none => ∀ i ∈ rows, T.cell i c ≤ 0
  | some (r, ratio) => 0 < T.cell r c ∧ ratio = T.level r / T.cell r c ∧
      ∀ i ∈ rows, 0 < T.cell i c → ratio ≤ T.level i / T.cell i c ∧
        (T.level i / T.cell i c = ratio → T.basic r ≤ T.basic i)

/-- One step of the ratio test. -/
theorem Leads.challenge {rows : List (Fin m)} {best : Option (Fin m × Rat)}
    (h : T.Leads c rows best) (hopts : opts.Untolerant) (r : Fin m) :
    T.Leads c (rows ++ [r]) (T.challenge opts c best r) := by
  unfold Tableau.challenge
  simp only [hopts.pivot, hopts.tie, sub_zero, add_zero]
  split
  · -- the row does not block
    rename_i hle
    rcases best with _ | ⟨kept, least⟩
    · exact forall_mem_concat h hle
    · exact ⟨h.1, h.2.1, forall_mem_concat h.2.2 fun hpos => absurd hpos (not_lt.2 hle)⟩
  · rename_i hpos
    have hpos : 0 < T.cell r c := not_le.1 hpos
    rcases best with _ | ⟨kept, least⟩
    · refine ⟨hpos, rfl, fun i hi hi' => ?_⟩
      rcases List.mem_append.1 hi with hi | hi
      · exact absurd hi' (not_lt.2 (h i hi))
      · rw [List.mem_singleton.1 hi]
        exact ⟨le_rfl, fun _ => le_rfl⟩
    · obtain ⟨hkept, rfl, hleads⟩ := h
      simp only
      split
      · rename_i hbetter
        rw [Bool.or_eq_true, Bool.and_eq_true, decide_eq_true_eq, decide_eq_true_eq,
          decide_eq_true_eq] at hbetter
        refine ⟨hpos, rfl, fun i hi hi' => ?_⟩
        rcases List.mem_append.1 hi with hi | hi
        · obtain ⟨hle, htie⟩ := hleads i hi hi'
          rcases hbetter with hlt | ⟨hle', hbefore⟩
          · exact ⟨le_of_lt (lt_of_lt_of_le hlt hle), fun heq => absurd (heq ▸ hle) (not_le.2 hlt)⟩
          · exact ⟨le_trans hle' hle, fun heq =>
              le_trans (le_of_lt hbefore) (htie (le_antisymm (heq ▸ hle') hle))⟩
        · rw [List.mem_singleton.1 hi]
          exact ⟨le_rfl, fun _ => le_rfl⟩
      · rename_i hworse
        rw [Bool.or_eq_true, Bool.and_eq_true, decide_eq_true_eq, decide_eq_true_eq,
          decide_eq_true_eq, not_or, not_and] at hworse
        refine ⟨hkept, rfl, fun i hi hi' => ?_⟩
        rcases List.mem_append.1 hi with hi | hi
        · exact hleads i hi hi'
        · rw [List.mem_singleton.1 hi]
          exact ⟨not_lt.1 hworse.1, fun heq => not_lt.1 (hworse.2 (le_of_eq heq))⟩

/-- The whole ratio test. -/
theorem leads_leaving (hopts : opts.Untolerant) (T : Tableau Rat m w) (c : Fin w) :
    T.Leads c (List.finRange m) ((List.finRange m).foldl (T.challenge opts c) none) :=
  foldl_done (I := T.Leads c) (fun _ _ r h => h.challenge hopts r) (by simp [Leads])
    (List.finRange m)

theorem leaving_eq_some (hopts : opts.Untolerant) (h : T.leaving opts c = some r) :
    T.Blocks r c ∧ ∀ i, 0 < T.cell i c → T.level i / T.cell i c = T.level r / T.cell r c →
      T.basic r ≤ T.basic i := by
  obtain ⟨⟨r', ratio⟩, hbest, rfl⟩ := Option.map_eq_some_iff.1 h
  have hleads := leads_leaving hopts T c
  rw [hbest] at hleads
  obtain ⟨hpos, rfl, hrows⟩ := hleads
  exact ⟨⟨hpos, fun i hi => (hrows i (List.mem_finRange i) hi).1⟩,
    fun i hi => (hrows i (List.mem_finRange i) hi).2⟩

theorem leaving_eq_none (hopts : opts.Untolerant) (h : T.leaving opts c = none) (i : Fin m) :
    T.cell i c ≤ 0 := by
  have hleads := leads_leaving hopts T c
  rw [Option.map_eq_none_iff.1 h] at hleads
  exact hleads i (List.mem_finRange i)

theorem choose_eq_ok (hopts : opts.Untolerant) (h : T.choose opts = .ok (r, c)) :
    T.Selects r c := by
  obtain ⟨hentering, hleaving⟩ := entering_leaving_of_choose h
  obtain ⟨hmay, hlowers, hfirst⟩ := entering_eq_some hopts hentering
  obtain ⟨hblocks, htie⟩ := leaving_eq_some hopts hleaving
  exact ⟨hmay, hlowers, hfirst, hblocks, htie⟩

/-- Where no pivot is selected, nothing lowers the objective, or nothing blocks a column that
    does. -/
theorem choose_eq_error (hopts : opts.Untolerant) {stop : Stop} (h : T.choose opts = .error stop) :
    stop = .optimal ∧ (∀ j, T.enterable.get j = true → 0 ≤ T.reduced j) ∨
      stop = .unbounded ∧ ∃ c, T.enterable.get c = true ∧ T.reduced c < 0 ∧
        ∀ i, T.cell i c ≤ 0 := by
  unfold choose at h
  split at h
  · rename_i hentering
    cases h
    exact .inl ⟨rfl, entering_eq_none hopts hentering⟩
  · rename_i c' hentering
    split at h
    · rename_i hleaving
      cases h
      obtain ⟨hmay, hlowers, -⟩ := entering_eq_some hopts hentering
      exact .inr ⟨rfl, c', hmay, hlowers, leaving_eq_none hopts hleaving⟩
    · cases h

/-! ## A run of pivots -/

/-- A run of `n` pivots of the rule, from a tableau that is ready. -/
structure Walk (opts : Options Rat) (n : Nat) (U : Nat → Tableau Rat m w) (R : Nat → Fin m)
    (C : Nat → Fin w) : Prop where
  ready : (U 0).Ready
  selects : ∀ k < n, (U k).Selects (R k) (C k)
  next : ∀ k < n, U (k + 1) = (U k).pivot opts (R k) (C k)

namespace Walk

variable {n k : Nat} {U : Nat → Tableau Rat m w} {R : Nat → Fin m} {C : Nat → Fin w} {j : Fin w}

theorem ne_zero (W : Walk opts n U R C) (hk : k < n) : (U k).cell (R k) (C k) ≠ 0 :=
  ne_of_gt (W.selects k hk).blocks.pos

section

variable (hopts : opts.Untolerant) (W : Walk opts n U R C)

include hopts W

theorem ready_at (hk : k ≤ n) : (U k).Ready := by
  induction k with
  | zero => exact W.ready
  | succ k ih =>
    rw [W.next k hk]
    exact (ih (Nat.le_of_succ_le hk)).pivot hopts (W.selects k hk).blocks

omit hopts in
theorem enterable_eq (hk : k ≤ n) : (U k).enterable = (U 0).enterable := by
  induction k with
  | zero => rfl
  | succ k ih =>
    rw [W.next k hk]
    exact ih (Nat.le_of_succ_le hk)

theorem holds_iff (hk : k ≤ n) : (U k).Holds y ↔ (U 0).Holds y := by
  induction k with
  | zero => exact Iff.rfl
  | succ k ih =>
    rw [W.next k hk, holds_pivot hopts (W.ne_zero hk), ih (Nat.le_of_succ_le hk)]

theorem cost_eq (hk : k ≤ n) (hy : (U 0).Holds y) : (U k).cost y = (U 0).cost y := by
  induction k with
  | zero => rfl
  | succ k ih =>
    rw [W.next k hk, cost_pivot opts (W.ne_zero hk) ((W.holds_iff hopts (Nat.le_of_succ_le hk)).2 hy),
      ih (Nat.le_of_succ_le hk)]

/-- Along the direction of a column all objectives of the run change by its reduced cost. -/
theorem priceOf_direction_eq {k' : Nat} (hk : k ≤ n) (hk' : k' ≤ n) (c : Fin w) :
    (U k').priceOf ((U k).direction c) = (U k).reduced c := by
  have hready := W.ready_at hopts hk
  have hpoint := holds_point hready.canonical
  have hmoved := hpoint.add_mul (lhs_direction hready.canonical c) 1
  have hcost : ∀ {y}, (U k).Holds y → (U k').cost y = (U k).cost y := fun hy => by
    rw [W.cost_eq hopts hk' ((W.holds_iff hopts hk).1 hy),
      W.cost_eq hopts hk ((W.holds_iff hopts hk).1 hy)]
  have hsame := hcost hmoved
  rw [cost_add_mul, cost_add_mul, hcost hpoint, one_mul, one_mul, add_right_inj] at hsame
  rw [hsame, priceOf_direction hready]

/-- The basic columns after a pivot. -/
theorem mem_basis_succ (hk : k < n) :
    j ∈ (U (k + 1)).basis ↔ j = C k ∨ j ∈ (U k).basis ∧ j ≠ (U k).basic (R k) := by
  rw [W.next k hk]
  simp only [mem_basis, basic_pivot]
  constructor
  · rintro ⟨i, rfl⟩
    by_cases hi : i = R k
    · exact .inl (if_pos hi)
    · rw [if_neg hi]
      exact .inr ⟨⟨i, rfl⟩, fun h => hi ((W.ready_at hopts (le_of_lt hk)).canonical.injective h)⟩
  · rintro (rfl | ⟨⟨i, rfl⟩, hne⟩)
    · exact ⟨R k, if_pos rfl⟩
    · exact ⟨i, if_neg fun h => hne (congrArg _ h)⟩

/-- A column with a nonzero reduced cost is not basic. -/
theorem notMem_basis (hk : k ≤ n) (hj : (U k).reduced j ≠ 0) : j ∉ (U k).basis := fun h => by
  obtain ⟨i, rfl⟩ := mem_basis.1 h
  exact hj ((W.ready_at hopts hk).priced i)

/-! ### A cycle -/

/-- A column that never leaves stays basic. -/
theorem basic_of_not_leaving (hleaves : ∀ k < n, (U k).basic (R k) ≠ j) {a b : Nat} (hab : a ≤ b)
    (hb : b ≤ n) (hj : j ∈ (U a).basis) : j ∈ (U b).basis := by
  induction b, hab using Nat.le_induction with
  | base => exact hj
  | succ b hab ih =>
    exact (W.mem_basis_succ hopts hb).2 (.inr ⟨ih (Nat.le_of_succ_le hb), (hleaves b hb).symm⟩)

/-- A column that never enters was basic from the start if it is basic. -/
theorem basic_of_not_entering (henters : ∀ k < n, C k ≠ j) {a b : Nat} (hab : a ≤ b) (hb : b ≤ n)
    (hj : j ∈ (U b).basis) : j ∈ (U a).basis := by
  induction b, hab using Nat.le_induction with
  | base => exact hj
  | succ b hab ih =>
    rcases (W.mem_basis_succ hopts hb).1 hj with heq | ⟨hbefore, -⟩
    · exact absurd heq.symm (henters b hb)
    · exact ih (Nat.le_of_succ_le hb) hbefore

variable (hcycle : (U n).basis = (U 0).basis)

include hcycle

/-- In a cycle a column enters that is basic at one time and not at another. -/
theorem exists_enters {a b : Nat} (ha : a ≤ n) (hb : b ≤ n) (hin : j ∈ (U a).basis)
    (hout : j ∉ (U b).basis) : ∃ k < n, C k = j := by
  by_contra hnone
  simp only [not_exists, not_and] at hnone
  have hstart := W.basic_of_not_entering hopts hnone (Nat.zero_le a) ha hin
  rw [← hcycle] at hstart
  exact hout (W.basic_of_not_entering hopts hnone hb le_rfl hstart)

/-- In a cycle a column that enters leaves as well. -/
theorem exists_leaves (hk : k < n) : ∃ l < n, (U l).basic (R l) = C k := by
  by_contra hnone
  simp only [not_exists, not_and] at hnone
  have hin : C k ∈ (U (k + 1)).basis := (W.mem_basis_succ hopts hk).2 (.inl rfl)
  have hend := W.basic_of_not_leaving hopts hnone hk le_rfl hin
  rw [hcycle] at hend
  have hbefore := W.basic_of_not_leaving hopts hnone (Nat.zero_le k) (le_of_lt hk) hend
  exact W.notMem_basis hopts (le_of_lt hk) (ne_of_lt (W.selects k hk).lowers) hbefore

/-- In a cycle the objective does not change. -/
theorem value_eq (hk : k ≤ n) : (U k).value = (U 0).value := by
  have hdown : ∀ {a b}, a ≤ b → b ≤ n → (U b).value ≤ (U a).value := by
    intro a b hab hb
    induction b, hab using Nat.le_induction with
    | base => exact le_rfl
    | succ b hab ih =>
      have hsel := W.selects b hb
      have hready := W.ready_at hopts (Nat.le_of_succ_le hb)
      have hratio : 0 ≤ (U b).level (R b) / (U b).cell (R b) (C b) :=
        div_nonneg (hready.nonneg _) (le_of_lt hsel.blocks.pos)
      rw [W.next b hb, value_pivot]
      have := mul_nonpos_of_nonpos_of_nonneg (le_of_lt hsel.lowers) hratio
      linarith [ih (Nat.le_of_succ_le hb)]
  -- the basic solution depends on nothing but the basis
  have hends : (U n).value = (U 0).value := by
    have hn := W.ready_at hopts (le_refl n)
    have hholds := (W.holds_iff hopts le_rfl).1 (holds_point hn.canonical)
    have hpoint : (U n).point = (U 0).point := eq_point W.ready.canonical hholds fun j hj =>
      point_eq_zero hn.canonical (hcycle ▸ hj)
    calc (U n).value = (U n).cost (U n).point := (cost_point hn).symm
      _ = (U 0).cost (U n).point := W.cost_eq hopts le_rfl hholds
      _ = (U 0).value := by rw [hpoint, cost_point W.ready]
  exact le_antisymm (hdown (Nat.zero_le k) hk) (hends ▸ hdown hk le_rfl)

/-- In a cycle every pivot is degenerate. -/
theorem level_eq_zero (hk : k < n) : (U k).level (R k) = 0 := by
  have hsel := W.selects k hk
  have hvalue := W.value_eq hopts hcycle (Nat.succ_le_of_lt hk)
  rw [W.next k hk, value_pivot, W.value_eq hopts hcycle (le_of_lt hk), add_eq_left, mul_eq_zero,
    div_eq_zero_iff] at hvalue
  rcases hvalue with h | h | h
  · exact absurd h (ne_of_lt hsel.lowers)
  · exact h
  · exact absurd h (W.ne_zero hk)

/-- In a cycle the basic solution does not move. -/
theorem point_eq (hk : k ≤ n) : (U k).point = (U 0).point := by
  induction k with
  | zero => rfl
  | succ k ih =>
    have hready := W.ready_at hopts (Nat.le_of_succ_le hk)
    rw [← ih (Nat.le_of_succ_le hk)]
    refine (eq_point (W.ready_at hopts hk).canonical ?_ fun j hj => ?_).symm
    · rw [W.holds_iff hopts hk, ← W.holds_iff hopts (Nat.le_of_succ_le hk)]
      exact holds_point hready.canonical
    · by_cases hbasic : j ∈ (U k).basis
      · have hleaves : j = (U k).basic (R k) := by
          by_contra hne
          exact hj ((W.mem_basis_succ hopts hk).2 (.inr ⟨hbasic, hne⟩))
        rw [hleaves, point_basic hready.canonical, W.level_eq_zero hopts hcycle hk]
      · exact point_eq_zero hready.canonical hbasic

end

/-- **No cycle.**  After one or more pivots of the rule other columns are basic. -/
theorem basis_ne (hopts : opts.Untolerant) (W : Walk opts n U R C) (hn : 0 < n) :
    (U n).basis ≠ (U 0).basis := by
  intro hcycle
  -- the last column that enters, where it enters, and where it leaves
  obtain ⟨e, he, hlast⟩ := Finset.exists_max_image (Finset.range n) C
    (Finset.nonempty_range_iff.2 (Nat.ne_of_gt hn))
  rw [Finset.mem_range] at he
  have hlast : ∀ k < n, C k ≤ C e := fun k hk => hlast k (Finset.mem_range.2 hk)
  obtain ⟨l, hl, hleaves⟩ := W.exists_leaves hopts hcycle he
  have hentering := W.selects e he
  have hleaving := W.selects l hl
  have hreadyE := W.ready_at hopts (le_of_lt he)
  have hreadyL := W.ready_at hopts (le_of_lt hl)
  have hmay : ∀ k < n, ∀ k' ≤ n, (U k').enterable.get (C k) = true := fun k hk k' hk' => by
    rw [W.enterable_eq hk', ← W.enterable_eq (le_of_lt hk)]
    exact (W.selects k hk).enterable
  -- where it enters, no column before it that ever enters lowers the objective
  have hnonneg : ∀ k < n, C k ≠ C e → 0 ≤ (U e).reduced (C k) := fun k hk hne =>
    hentering.first _ (lt_of_le_of_ne (hlast k hk) hne) (hmay k hk e (le_of_lt he))
  -- where it leaves, the entering column lowers the objective
  have hother : C l ≠ C e := fun heq => by
    refine W.notMem_basis hopts (le_of_lt hl) (ne_of_lt hleaving.lowers) ?_
    rw [heq, ← hleaves]
    exact mem_basis.2 ⟨R l, rfl⟩
  -- both objectives along the direction of that column
  have hdirection := W.priceOf_direction_eq hopts (le_of_lt hl) (le_of_lt he) (C l)
  rw [priceOf, sum_mul_direction] at hdirection
  have hsum : 0 < ∑ i, (U e).reduced ((U l).basic i) * (U l).cell i (C l) := by
    linarith [hleaving.lowers, hnonneg l hl hother]
  obtain ⟨i, -, hi⟩ := Finset.exists_lt_of_sum_lt (by simpa using hsum :
    ∑ _i : Fin m, (0 : Rat) < ∑ i, (U e).reduced ((U l).basic i) * (U l).cell i (C l))
  -- so some row has a basic column that enters at some time, before the last one
  have hout : (U l).basic i ∉ (U e).basis :=
    W.notMem_basis hopts (le_of_lt he) (left_ne_zero_of_mul (ne_of_gt hi))
  obtain ⟨k, hk, hbasic⟩ :=
    W.exists_enters hopts hcycle (le_of_lt hl) (le_of_lt he) (mem_basis.2 ⟨i, rfl⟩) hout
  have hne : C k ≠ C e := fun heq => by
    have hrow : i = R l := hreadyL.canonical.injective (by rw [← hbasic, heq, hleaves])
    rw [hrow, hleaves] at hi
    exact absurd hi (not_lt.2 (le_of_lt (mul_neg_of_neg_of_pos hentering.lowers hleaving.blocks.pos)))
  have hpos : 0 < (U l).cell i (C l) := by
    rw [← hbasic] at hi
    exact pos_of_mul_pos_right hi (hnonneg k hk hne)
  -- and blocks as early as the row that is left
  have hlevel : (U l).level i = 0 := by
    rw [← point_basic hreadyL.canonical, W.point_eq hopts hcycle (le_of_lt hl),
      ← W.point_eq hopts hcycle (le_of_lt he), point_eq_zero hreadyE.canonical hout]
  have htie := hleaving.tie i hpos (by
    rw [hlevel, W.level_eq_zero hopts hcycle hl, zero_div, zero_div])
  rw [hleaves, ← hbasic] at htie
  exact hne (le_antisymm (hlast k hk) htie)

end Walk

/-! ## Running the rule -/

/-- One pivot of the rule, if it selects one. -/
def advance (opts : Options Rat) (T : Tableau Rat m w) : Tableau Rat m w :=
  match T.choose opts with
  | .ok (r, c) => T.pivot opts r c
  | .error _ => T

/-- What a run comes to: it makes some pivots, and stops because the rule selects none, because its
    pivots are used up, or because time is up. -/
structure Ends (opts : Options Rat) (late : Nat → Bool) (budget pivots : Nat)
    (T : Tableau Rat m w) (halt : Halt Rat m w) (made : Nat) : Prop where
  made_le : made ≤ budget
  pivots_eq : halt.pivots = pivots + made
  tableau_eq : halt.tableau = (advance opts)^[made] T
  chosen : ∀ k < made, ∃ r c, ((advance opts)^[k] T).choose opts = .ok (r, c)
  timely : ∀ k < made, late (pivots + k) = false
  stop : halt.tableau.choose opts = .error halt.stop ∨
    halt.stop = .pivotLimit ∧ made = budget ∧ (∃ r c, halt.tableau.choose opts = .ok (r, c)) ∨
    halt.stop = .interrupted ∧ late halt.pivots = true

theorem run_ends (opts : Options Rat) (late : Nat → Bool) (budget pivots : Nat)
    (T : Tableau Rat m w) :
    ∃ made, Ends opts late budget pivots T (T.run opts late budget pivots) made := by
  induction budget generalizing pivots T with
  | zero =>
    rcases hchoose : T.choose opts with stop | ⟨r, c⟩
    · have hrun : T.run opts late 0 pivots = ⟨stop, T, pivots⟩ := by rw [run, hchoose]
      exact ⟨0, hrun ▸ ⟨le_rfl, rfl, rfl, by simp, by simp, .inl hchoose⟩⟩
    · have hrun : T.run opts late 0 pivots = ⟨.pivotLimit, T, pivots⟩ := by rw [run, hchoose]
      exact ⟨0, hrun ▸ ⟨le_rfl, rfl, rfl, by simp, by simp, .inr (.inl ⟨rfl, rfl, r, c, hchoose⟩)⟩⟩
  | succ budget ih =>
    rcases hchoose : T.choose opts with stop | ⟨r, c⟩
    · have hrun : T.run opts late (budget + 1) pivots = ⟨stop, T, pivots⟩ := by rw [run, hchoose]
      exact ⟨0, hrun ▸ ⟨Nat.zero_le _, rfl, rfl, by simp, by simp, .inl hchoose⟩⟩
    · rcases hlate : late pivots with _ | _
      · have hrun : T.run opts late (budget + 1) pivots =
            (T.pivot opts r c).run opts late budget (pivots + 1) := by
          rw [run, hchoose]
          simp [hlate, Scalar.isFinite]
        have hadvance : advance opts T = T.pivot opts r c := by rw [advance, hchoose]
        obtain ⟨made, hends⟩ := ih (pivots + 1) (T.pivot opts r c)
        refine ⟨made + 1, hrun ▸ ⟨Nat.succ_le_succ hends.made_le, ?_, ?_, ?_, ?_, ?_⟩⟩
        · rw [hends.pivots_eq]
          omega
        · rw [hends.tableau_eq, Function.iterate_succ_apply, hadvance]
        · intro k hk
          rcases k with _ | k
          · exact ⟨r, c, hchoose⟩
          · rw [Function.iterate_succ_apply, hadvance]
            exact hends.chosen k (Nat.lt_of_succ_lt_succ hk)
        · intro k hk
          rcases k with _ | k
          · exact hlate
          · rw [show pivots + (k + 1) = pivots + 1 + k by omega]
            exact hends.timely k (Nat.lt_of_succ_lt_succ hk)
        · exact hends.stop.imp_right (Or.imp_left fun ⟨h, hmade, hmore⟩ => ⟨h, by rw [hmade], hmore⟩)
      · have hrun : T.run opts late (budget + 1) pivots = ⟨.interrupted, T, pivots⟩ := by
          rw [run, hchoose]
          simp [hlate]
        exact ⟨0, hrun ▸ ⟨Nat.zero_le _, rfl, rfl, by simp, by simp, .inr (.inr ⟨rfl, hlate⟩)⟩⟩

/-- A run that makes all its pivots makes the same ones with a smaller budget. -/
theorem tableau_run {late : Nat → Bool} {i j pivots : Nat} (hij : i ≤ j)
    (hmade : (T.run opts late j pivots).pivots = pivots + j) :
    (T.run opts late i pivots).tableau = (advance opts)^[i] T ∧
      ∀ k < j, ∃ r c, ((advance opts)^[k] T).choose opts = .ok (r, c) := by
  obtain ⟨made, hlong⟩ := run_ends opts late j pivots T
  obtain rfl : made = j := Nat.add_left_cancel (hlong.pivots_eq.symm.trans hmade)
  obtain ⟨made', hshort⟩ := run_ends opts late i pivots T
  refine ⟨?_, hlong.chosen⟩
  rcases Nat.lt_or_eq_of_le hshort.made_le with hlt | rfl
  · -- the longer run would have stopped here as well
    exfalso
    obtain ⟨r, c, hchoose⟩ := hlong.chosen made' (Nat.lt_of_lt_of_le hlt hij)
    rcases hshort.stop with hstop | ⟨-, heq, -⟩ | ⟨-, hlate⟩
    · rw [hshort.tableau_eq, hchoose] at hstop
      cases hstop
    · exact Nat.ne_of_lt hlt heq
    · rw [hshort.pivots_eq, hlong.timely made' (Nat.lt_of_lt_of_le hlt hij)] at hlate
      cases hlate
  · exact hshort.tableau_eq

/-- The pivots that a run makes are a walk. -/
theorem exists_walk {n : Nat} (hopts : opts.Untolerant) (hT : T.Ready) (hn : 0 < n)
    (hchosen : ∀ k < n, ∃ r c, ((advance opts)^[k] T).choose opts = .ok (r, c)) :
    ∃ R C, Walk opts n (fun k => (advance opts)^[k] T) R C := by
  obtain ⟨r₀, c₀, -⟩ := hchosen 0 hn
  have : Nonempty (Fin m) := ⟨r₀⟩
  have : Nonempty (Fin w) := ⟨c₀⟩
  choose! R C hRC using hchosen
  refine ⟨R, C, hT, fun k hk => choose_eq_ok hopts (hRC k hk), fun k hk => ?_⟩
  rw [Function.iterate_succ_apply', advance, hRC k hk]

theorem ready_iterate {n : Nat} (hopts : opts.Untolerant) (hT : T.Ready)
    (hchosen : ∀ k < n, ∃ r c, ((advance opts)^[k] T).choose opts = .ok (r, c)) :
    ((advance opts)^[n] T).Ready := by
  rcases Nat.eq_zero_or_pos n with rfl | hn
  · exact hT
  · obtain ⟨R, C, W⟩ := exists_walk hopts hT hn hchosen
    exact W.ready_at hopts le_rfl

/-- No two tableaus on the way of a run have the same basic columns. -/
theorem basis_iterate_ne {n i j : Nat} (hopts : opts.Untolerant) (hT : T.Ready)
    (hchosen : ∀ k < n, ∃ r c, ((advance opts)^[k] T).choose opts = .ok (r, c)) (hij : i < j)
    (hj : j ≤ n) : ((advance opts)^[i] T).basis ≠ ((advance opts)^[j] T).basis := by
  obtain ⟨d, rfl⟩ := Nat.exists_eq_add_of_lt hij
  have hready : ((advance opts)^[i] T).Ready :=
    ready_iterate hopts hT fun k hk => hchosen k (by omega)
  have hlater : ∀ k < d + 1, ∃ r c,
      ((advance opts)^[k] ((advance opts)^[i] T)).choose opts = .ok (r, c) := fun k hk => by
    rw [← Function.iterate_add_apply, Nat.add_comm]
    exact hchosen _ (by omega)
  obtain ⟨R, C, W⟩ := exists_walk hopts hready (Nat.succ_pos d) hlater
  have hne : ((advance opts)^[d + 1] ((advance opts)^[i] T)).basis ≠ ((advance opts)^[i] T).basis :=
    W.basis_ne hopts (Nat.succ_pos d)
  rw [← Function.iterate_add_apply, Nat.add_comm (d + 1)] at hne
  exact hne.symm

/-- A canonical tableau has as many basic columns as rows. -/
theorem card_basis (hT : T.Canonical) : T.basis.card = m := by
  rw [basis, Finset.card_image_of_injective _ hT.injective, Finset.card_univ, Fintype.card_fin]

/-- A run makes fewer pivots than there are sets of columns, one column a row. -/
theorem lt_choose {n : Nat} (hopts : opts.Untolerant) (hT : T.Ready)
    (hchosen : ∀ k < n, ∃ r c, ((advance opts)^[k] T).choose opts = .ok (r, c)) :
    n < w.choose m := by
  have hmem : ∀ k ∈ Finset.range (n + 1),
      ((advance opts)^[k] T).basis ∈ Finset.powersetCard m Finset.univ := by
    intro k hk
    have hready := ready_iterate hopts hT fun k' hk' =>
      hchosen k' (Nat.lt_of_lt_of_le hk' (Finset.mem_range_succ_iff.1 hk))
    exact Finset.mem_powersetCard.2 ⟨Finset.subset_univ _, card_basis hready.canonical⟩
  have hinj : Set.InjOn (fun k => ((advance opts)^[k] T).basis) (Finset.range (n + 1)) := by
    intro i hi j hj heq
    by_contra hne
    have hi := Finset.mem_range_succ_iff.1 hi
    have hj := Finset.mem_range_succ_iff.1 hj
    rcases Nat.lt_or_gt_of_ne hne with hlt | hlt
    · exact basis_iterate_ne hopts hT hchosen hlt hj heq
    · exact basis_iterate_ne hopts hT hchosen hlt hi heq.symm
  have hcard := Finset.card_le_card_of_injOn _ hmem hinj
  rwa [Finset.card_range, Finset.card_powersetCard, Finset.card_univ, Fintype.card_fin] at hcard

/-- **Bland's rule.**  Let the basic columns be unit vectors and the right-hand sides not negative,
    and let no tolerance be given.  Whatever the cost and the columns that may enter, no run comes to
    the same basic columns after two different numbers of pivots; and one that may make as many
    pivots as there are sets of columns, one column a row, stops at an optimum or because nothing
    blocks, unless its time is up. -/
theorem run_bland (hopts : opts.Untolerant) (T : Tableau Rat m w) (hT : T.Canonical)
    (hnonneg : ∀ i, 0 ≤ T.level i) (q : Vector Rat w) (late : Nat → Bool) (pivots : Nat) :
    (∀ i j, i < j → ((T.setCost q).run opts late j pivots).pivots = pivots + j →
      ((T.setCost q).run opts late i pivots).tableau.basis ≠
        ((T.setCost q).run opts late j pivots).tableau.basis) ∧
    ∀ budget, w.choose m ≤ budget →
      ((T.setCost q).run opts late budget pivots).stop ≠ .interrupted →
      ((T.setCost q).run opts late budget pivots).stop = .optimal ∨
        ((T.setCost q).run opts late budget pivots).stop = .unbounded := by
  have hready := ready_setCost hT hnonneg q
  constructor
  · intro i j hij hmade
    obtain ⟨hi, hchosen⟩ := tableau_run (le_of_lt hij) hmade
    rw [hi, (tableau_run le_rfl hmade).1]
    exact basis_iterate_ne hopts hready hchosen hij le_rfl
  · intro budget hbudget hinterrupted
    obtain ⟨made, hends⟩ := run_ends opts late budget pivots (T.setCost q)
    rcases hends.stop with hstop | ⟨-, rfl, -⟩ | ⟨hstop, -⟩
    · exact (choose_eq_error hopts hstop).imp And.left And.left
    · exact absurd (lt_choose hopts hready hends.chosen) (not_lt.2 hbudget)
    · exact absurd hstop hinterrupted

/-- A tableau on which pivoting on the column of least reduced cost comes back to its start. -/
def degenerate : Tableau Rat 3 7 :=
  ofRows #v[
    ⟨0, #v[1, 0, 0, 1 / 4, -8, -1, 9], 0⟩,
    ⟨1, #v[0, 1, 0, 1 / 2, -12, -1 / 2, 3], 0⟩,
    ⟨2, #v[0, 0, 1, 0, 0, 1, 0], 1⟩]

/-- With Bland's rule it does not: 35 pivots suffice. -/
theorem run_bland_degenerate :
    let opts : Options Rat := ⟨35, none, false, 0, 0, 0, 0, 0, 0⟩
    let halt := (degenerate.setCost #v[0, 0, 0, -3 / 4, 20, -1 / 2, 6]).run opts (fun _ => false) 35 0
    halt.stop = .optimal ∨ halt.stop = .unbounded := by
  intro opts halt
  have hcanonical : degenerate.Canonical := by
    unfold Canonical
    decide +kernel
  refine (run_bland ⟨rfl, rfl, rfl, rfl⟩ degenerate hcanonical (by decide +kernel) _ _ 0).2 35
    (by decide) ?_
  decide +kernel

end Milp.Simplex.Tableau
