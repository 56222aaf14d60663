/-
  The order of exploration and the rule of branching do not change the answer.

  Two searches for one task walk through different trees and meet different incumbents.  Where the
  relaxation answers exactly and only whole numbers count as whole, the incumbent that one of them
  ends with is a solution, and the other one has proved that no solution is better than its own.

  * `Relaxation.Precise`: a relaxation that solves every region it is asked about.
  * `MixedProgram.Optimum`: a solution that none is better than, within a tolerance;
    `MixedProgram.Optimum.close`: two of them are within the tolerance of each other.
  * `Engine.Plain`, `Engine.SameTask`: the searches that are compared.
  * `Engine.Plain.optimum`, `Engine.Plain.no_solution`: what one search proves.
  * `solve_agrees`: two searches for one task end alike.
-/
import Milp.Proofs.Activity
import Milp.Proofs.Contract

namespace Milp

variable {σ σ' β β' κ κ' : Type}

/-- The points that satisfy bounds and rows exactly and lie in the region of some restrictions. -/
structure MixedProgram.Region (M : MixedProgram Exact) (r : Restrictions Exact)
    (p : List Exact) : Prop where
  finite : p.all Scalar.isFinite = true
  feasible : M.feasible p 0 = .ok true
  admits : r.Admits p

/-- An optimal answer is a point of the region with its objective, and no point of the region has a
    better one; a region is called infeasible only if it is empty.  Nothing is said of a region that
    is unbounded or where the relaxation fails. -/
structure Relaxation.Precise (R : Relaxation Exact σ) (start : σ) (M : MixedProgram Exact) :
    Prop where
  infeasible : ∀ {s r reply}, R.Visited start s → R.solve s r = .ok reply →
    reply.answer = .infeasible → ∀ p, ¬ M.Region r p
  optimal : ∀ {s r reply x objective}, R.Visited start s → R.solve s r = .ok reply →
    reply.answer = .optimal x objective → M.Region r x ∧ objective = M.objective x ∧
      ∀ p, M.Region r p → M.value x ≤ M.value p

/-- A precise relaxation is right about the solutions in particular. -/
theorem Relaxation.Precise.sound {R : Relaxation Exact σ} {start : σ} {M : MixedProgram Exact}
    (h : R.Precise start M) (candidates : List Nat) : R.Sound start M candidates where
  infeasible hs hsolve hanswer p hp hadmits :=
    h.infeasible hs hsolve hanswer p ⟨hp.finite, hp.feasible, hadmits⟩
  optimal hs hsolve hanswer p hp hadmits := by
    obtain ⟨-, hobjective, hleast⟩ := h.optimal hs hsolve hanswer
    subst hobjective
    exact hleast p ⟨hp.finite, hp.feasible, hadmits⟩

/-- What passes the test for whole values without a tolerance is whole. -/
theorem exists_int_of_whole {a : Exact} (ha : Scalar.isFinite a = true)
    (h : ¬ 0 < Scalar.fractionality a) : ∃ z : Int, a = .fin z := by
  obtain ⟨q, rfl⟩ := Exact.isFinite_iff.1 ha
  have hzero : Scalar.toRat? (0 : Exact) = some 0 := by rw [Exact.zero_eq]; rfl
  obtain ⟨p, z, hp, hle⟩ := Scalar.exists_int_of_fractionality_le ha hzero h
  obtain rfl : q = p := Option.some.inj hp
  exact ⟨z, congrArg Exact.fin (sub_eq_zero.1 (abs_eq_zero.1 (le_antisymm hle (abs_nonneg _))))⟩

/-- An optimum within a tolerance: a solution with its objective, and no solution is better by more
    than the tolerance. -/
structure MixedProgram.Optimum (M : MixedProgram Exact) (candidates : List Nat)
    (tolerance : Exact) (i : Incumbent Exact) : Prop where
  solves : M.Solves candidates i.x
  objective : i.objective = M.objective i.x
  least : ∀ p, M.Solves candidates p → M.lp.sense.normalize i.objective - tolerance ≤ M.value p

/-- The objective of a finite point is finite. -/
theorem MixedProgram.value_finite {M : MixedProgram Exact} (hM : M.lp.Valid) {p : List Exact}
    (hp : p.all Scalar.isFinite = true) : ∃ q, M.value p = .fin q := by
  obtain ⟨q, hq⟩ := Exact.dot_fin hM.finite.1 hp
  obtain ⟨q', hq'⟩ := Exact.normalize_fin M.lp.sense q
  refine ⟨q', ?_⟩
  rw [← hq', ← hq]
  rfl

/-- Two optima of one program are within the tolerance of each other. -/
theorem MixedProgram.Optimum.close {M : MixedProgram Exact} {candidates : List Nat}
    {tolerance : Exact} {t : Rat} {i i' : Incumbent Exact} (hM : M.lp.Valid)
    (ht : tolerance = .fin t) (h : M.Optimum candidates tolerance i)
    (h' : M.Optimum candidates tolerance i') :
    Scalar.abs (M.lp.sense.normalize i.objective - M.lp.sense.normalize i'.objective) ≤
      tolerance := by
  have hvalue : M.lp.sense.normalize i.objective = M.value i.x := congrArg _ h.objective
  have hvalue' : M.lp.sense.normalize i'.objective = M.value i'.x := congrArg _ h'.objective
  obtain ⟨q, hq⟩ := MixedProgram.value_finite hM h.solves.finite
  obtain ⟨q', hq'⟩ := MixedProgram.value_finite hM h'.solves.finite
  have hle := h.least _ h'.solves
  have hle' := h'.least _ h.solves
  rw [hvalue, hq, hq', ht, Exact.fin_sub_fin, Exact.fin_le_fin] at hle
  rw [hvalue', hq, hq', ht, Exact.fin_sub_fin, Exact.fin_le_fin] at hle'
  rw [hvalue, hvalue', hq, hq', ht, Exact.fin_sub_fin]
  show Exact.abs (.fin (q - q')) ≤ .fin t
  rw [Exact.abs_fin, Exact.fin_le_fin, abs_le]
  constructor <;> linarith

namespace Search

variable {E : Engine Exact σ β κ} {E' : Engine Exact σ' β' κ'} {start : σ} {start' : σ'}

/-- A search with a built-in strategy and a precise relaxation, without callbacks and without a
    tolerance for values that are not whole.  The selection of nodes, the limits and the other
    settings are arbitrary. -/
structure Engine.Plain (E : Engine Exact σ β κ) (start : σ) : Prop where
  check : E.check = .ok ()
  integrality : E.settings.integrality = 0
  callbacks : E.callbacks = []
  strategy : E.strategy.BuiltIn
  precise : E.relaxation.Precise start E.problem

/-- Two searches for solutions of one program, whole on the same candidates, with one tolerance. -/
structure Engine.SameTask (E : Engine Exact σ β κ) (E' : Engine Exact σ' β' κ') : Prop where
  problem : E.problem = E'.problem
  candidates : E.candidates = E'.candidates
  tolerance : E.settings.tolerance = E'.settings.tolerance

/-- What the relaxation offers and the search accepts is a solution, with its objective. -/
theorem Engine.Plain.solves (hE : E.Plain start) {earned : Incumbent Exact}
    (h : E.Earned start earned) : E.problem.Solves E.candidates earned.x ∧
      earned.objective = E.problem.objective earned.x := by
  cases h with
  | heuristic hcallback => rw [hE.callbacks] at hcallback; cases hcallback
  | relaxation h hwhole =>
    obtain ⟨s, reply, hvisited, hsolve, hanswer⟩ := h
    obtain ⟨hreply, -⟩ := Answer.check_eq_optimal hanswer.symm
    obtain ⟨hregion, hobjective, -⟩ := hE.precise.optimal hvisited hsolve hreply
    rw [hE.integrality] at hwhole
    refine ⟨⟨hregion.finite, hregion.feasible, fun var hvar => ?_⟩, hobjective⟩
    obtain ⟨v, hv, hnot⟩ := fractional_eq_nil hwhole hvar
    obtain ⟨z, rfl⟩ := exists_int_of_whole
      (List.all_eq_true.1 hregion.finite v (List.mem_of_getElem? hv)) hnot
    exact ⟨z, hv⟩

/-- A search that ends with the status optimal has found an optimum. -/
theorem Engine.Plain.optimum {P : Program Exact} (hP : MixedProgram.ofProgram P = .ok E.problem)
    (hE : E.Plain start) {steps : Nat} {strategy : β} {callbacks : κ} {s : State Exact σ β κ}
    {solution : Solution Exact}
    (hsolve : (solve E steps).run (State.initial E start strategy callbacks) =
      .ok (some solution) s) (hstatus : solution.status = .optimal) :
    ∃ i, solution.incumbent = some i ∧
      E.problem.Optimum E.candidates E.settings.tolerance i := by
  obtain ⟨hoptimal, -⟩ := solve_sound hP hE.check hE.strategy (hE.precise.sound E.candidates) hsolve
  obtain ⟨i, hi, hleast⟩ := hoptimal hstatus
  obtain ⟨earned, hearned, rfl⟩ := solve_earned hsolve hi
  obtain ⟨hsolves, hobjective⟩ := hE.solves hearned
  refine ⟨_, hi, hsolves, ?_, hleast⟩
  rw [Exact.positiveZero_eq, hobjective]

/-- A search that ends with the status infeasible has found that there is no solution. -/
theorem Engine.Plain.no_solution {P : Program Exact} (hP : MixedProgram.ofProgram P = .ok E.problem)
    (hE : E.Plain start) {steps : Nat} {strategy : β} {callbacks : κ} {s : State Exact σ β κ}
    {solution : Solution Exact}
    (hsolve : (solve E steps).run (State.initial E start strategy callbacks) =
      .ok (some solution) s) (hstatus : solution.status = .infeasible) (p : List Exact) :
    ¬ E.problem.Solves E.candidates p :=
  (solve_sound hP hE.check hE.strategy (hE.precise.sound E.candidates) hsolve).2.1 hstatus p

/-- **Exploration order and branching rule do not change the answer.**  Take two searches for one
    task, each with a selection of nodes of its own, which may be a comparator of the caller's, and
    with a built-in strategy of its own.  If both end with an optimum or find the program
    infeasible, they end with the same status, and two optima are within the tolerance of each
    other. -/
theorem solve_agrees {P : Program Exact} (hP : MixedProgram.ofProgram P = .ok E.problem)
    (htask : E.SameTask E') (hE : E.Plain start) (hE' : E'.Plain start')
    {steps steps' : Nat} {strategy : β} {callbacks : κ} {strategy' : β'} {callbacks' : κ'}
    {s : State Exact σ β κ} {s' : State Exact σ' β' κ'} {solution solution' : Solution Exact}
    (hsolve : (solve E steps).run (State.initial E start strategy callbacks) =
      .ok (some solution) s)
    (hsolve' : (solve E' steps').run (State.initial E' start' strategy' callbacks') =
      .ok (some solution') s')
    (hended : solution.status = .optimal ∨ solution.status = .infeasible)
    (hended' : solution'.status = .optimal ∨ solution'.status = .infeasible) :
    solution.status = solution'.status ∧
      (solution.status = .optimal → ∃ i i', solution.incumbent = some i ∧
        solution'.incumbent = some i' ∧
        Scalar.abs (E.sense.normalize i.objective - E.sense.normalize i'.objective) ≤
          E.settings.tolerance) := by
  have hP' : MixedProgram.ofProgram P = .ok E'.problem := htask.problem ▸ hP
  obtain ⟨t, ht, -⟩ := tolerance_eq (Engine.check_eq_ok hE.check)
  have hvalid : E.problem.lp.Valid := by
    obtain ⟨hlp, hvalid, -⟩ := MixedProgram.ofProgram_eq_ok hP
    exact hlp ▸ hvalid
  rcases hended with hstatus | hstatus <;> rcases hended' with hstatus' | hstatus'
  · obtain ⟨i, hi, hbest⟩ := hE.optimum hP hsolve hstatus
    obtain ⟨i', hi', hbest'⟩ := hE'.optimum hP' hsolve' hstatus'
    rw [← htask.problem, ← htask.candidates, ← htask.tolerance] at hbest'
    exact ⟨hstatus.trans hstatus'.symm, fun _ => ⟨i, i', hi, hi', hbest.close hvalid ht hbest'⟩⟩
  -- the optimum of one search is a solution, and the other one says that there is none
  · obtain ⟨i, -, hbest⟩ := hE.optimum hP hsolve hstatus
    rw [htask.problem, htask.candidates] at hbest
    exact absurd hbest.solves (hE'.no_solution hP' hsolve' hstatus' i.x)
  · obtain ⟨i', -, hbest'⟩ := hE'.optimum hP' hsolve' hstatus'
    rw [← htask.problem, ← htask.candidates] at hbest'
    exact absurd hbest'.solves (hE.no_solution hP hsolve hstatus i'.x)
  · exact ⟨hstatus.trans hstatus'.symm, fun h => by rw [hstatus] at h; cases h⟩

/-- Two binary variables with `1 ≤ 2 x₀ + x₁`; the first one costs 1 and the second one 3. -/
def cover : Program Exact where
  cost := [.fin 1, .fin 3]
  matrix := ⟨1, 2, [[(0, .fin (-2))], [(0, .fin (-1))]], rfl, by simp, by simp [Column.Sorted]⟩
  rhs := [.fin (-1)]
  blocks := [.atMost 1]
  bounds := none
  kinds := some [.binary, .binary]

/-- The relaxation of the cover where the first variable is free or laid down; it fails
    elsewhere. -/
def coverTable : Relaxation Exact Unit where
  name := "table"
  vars := 2
  solve _ r := return ⟨(),
    if r.entries = [] then .optimal [.fin (1 / 2), .fin 0] (.fin (1 / 2))
    else if r.entries = [(0, ⟨.fin 0, .fin 0⟩)] then .optimal [.fin 0, .fin 1] (.fin 3)
    else if r.entries = [(0, ⟨.fin 1, .fin 1⟩)] then .optimal [.fin 1, .fin 0] (.fin 1)
    else .failed (.reported "no answer"), []⟩

/-- The search for the cheapest cover that takes the best bound first. -/
def coverByBound : Engine Exact Unit Unit Unit where
  problem := ⟨cover, [0, 1], [0, 1], ⟨[.fin 0, .fin 0], [.fin 1, .fin 1]⟩⟩
  candidates := [0, 1]
  settings := { Settings.standard with integrality := 0 }
  relaxation := coverTable
  strategy := Strategy.mostFractional
  callbacks := []
  clock := SearchClock.stopped ⟨0⟩

/-- The search for the cheapest cover that takes the newest node first and learns pseudocosts. -/
def coverByAge : Engine Exact Unit (Pseudocosts Exact) Unit where
  problem := coverByBound.problem
  candidates := coverByBound.candidates
  settings := { coverByBound.settings with selection := .custom Comparator.newestFirst }
  relaxation := coverTable
  strategy := Strategy.pseudocost
  callbacks := []
  clock := SearchClock.stopped ⟨0⟩

theorem cover_ok : MixedProgram.ofProgram cover = .ok coverByBound.problem :=
  MixedProgram.ofProgram_ok (by decide +kernel) (by decide +kernel) (by decide +kernel)

/-- By how much a point violates the one row of the cover. -/
theorem cover_violation (a b : Rat) :
    cover.violation [.fin a, .fin b] = .ok (.fin (max 0 (max (-2 * a + -1 * b - -1) 0))) := by
  obtain ⟨-, hvalid, -⟩ := MixedProgram.ofProgram_eq_ok cover_ok
  have hfirst : (cover.matrix.cell 0 (0 : Fin 2)).rat = -2 := by decide +kernel
  have hsecond : (cover.matrix.cell 0 (1 : Fin 2)).rat = -1 := by decide +kernel
  have hactivity : cover.activity ![a, b] 0 = -2 * a + -1 * b := by
    refine (Fin.sum_univ_two fun j : Fin 2 => (cover.matrix.cell 0 j).rat * ![a, b] j).trans ?_
    rw [hfirst, hsecond]
    rfl
  have hrow : cover.activities [.fin a, .fin b] = .ok [.fin (-2 * a + -1 * b)] := by
    rw [← hactivity]
    exact Program.activities_vector hvalid (x := ![a, b])
  have hexcess : cover.violation [.fin a, .fin b] =
      .ok (Scalar.max 0 (Program.rowExcess (.fin (-2 * a + -1 * b)) (.fin (-1)) false)) := by
    rw [Program.violation, hrow]
    rfl
  rw [hexcess, Program.rowExcess, if_neg (by decide), Exact.fin_sub_fin, Exact.zero_eq,
    Exact.max_fin, Exact.max_fin]

/-- The points of the relaxed cover. -/
theorem of_region {r : Restrictions Exact} {p : List Exact}
    (hp : coverByBound.problem.Region r p) : ∃ a b : Rat, p = [.fin a, .fin b] ∧ 0 ≤ b ∧
      1 ≤ 2 * a + b := by
  have hfeasible := hp.feasible
  unfold MixedProgram.feasible at hfeasible
  split at hfeasible
  swap
  · cases hfeasible
  rename_i hshape
  simp only [Bool.and_eq_true, decide_eq_true_eq] at hshape
  obtain ⟨x, y, rfl⟩ := List.length_eq_two.1 hshape.1
  obtain ⟨a, rfl⟩ := Exact.isFinite_iff.1 (List.all_eq_true.1 hp.finite x (by simp))
  obtain ⟨b, rfl⟩ := Exact.isFinite_iff.1 (List.all_eq_true.1 hp.finite y (by simp))
  refine ⟨a, b, rfl, ?_, ?_⟩
  · have hbounds := List.all_eq_true.1 hshape.2 (.fin b, .fin 0, .fin 1) (by simp [coverByBound])
    simp only [Bool.and_eq_true, decide_eq_true_eq, Exact.zero_eq, Exact.sub_fin_zero,
      Exact.fin_le_fin] at hbounds
    exact hbounds.1
  · simp only [MixedProgram.rowsHold, show coverByBound.problem.lp = cover from rfl,
      cover_violation, Bind.bind, Except.bind, Pure.pure, Except.pure, Except.ok.injEq,
      decide_eq_true_eq, Exact.zero_eq, Exact.fin_le_fin, max_le_iff] at hfeasible
    linarith

theorem cover_value (a b : Rat) :
    coverByBound.problem.value [.fin a, .fin b] = .fin (a + 3 * b) := by
  show Exact.fin (-0 + 1 * a + 3 * b) = _
  ring_nf

/-- The region where the first variable is laid down. -/
theorem admits_first {r : Restrictions Exact} {k a : Rat} {rest : List Exact}
    (h : r.entries = [(0, ⟨.fin k, .fin k⟩)]) : r.Admits (.fin a :: rest) ↔ a = k := by
  have hget : ∀ var, r.get? var = if var = 0 then some ⟨.fin k, .fin k⟩ else none := fun var => by
    cases var <;> simp [Restrictions.get?, h]
  constructor
  · intro hadmits
    obtain ⟨x, hx, hlower, hupper⟩ := hadmits 0 _ (hget 0)
    cases hx
    exact le_antisymm (Exact.fin_le_fin.1 hupper) (Exact.fin_le_fin.1 hlower)
  · rintro rfl var i hi
    rw [hget] at hi
    split at hi
    · cases hi
      subst_vars
      exact ⟨_, rfl, Exact.le_refl (by simp), Exact.le_refl (by simp)⟩
    · cases hi

/-- The relaxation of the cover is precise where it does not fail. -/
theorem coverTable_precise : coverTable.Precise () coverByBound.problem := by
  constructor
  · intro s r reply _ hsolve hanswer
    cases hsolve
    simp only at hanswer
    split at hanswer
    · cases hanswer
    · split at hanswer
      · cases hanswer
      · split at hanswer <;> cases hanswer
  · intro s r reply x objective _ hsolve hanswer
    cases hsolve
    have hleast : ∀ q, (∀ a b : Rat, r.Admits [.fin a, .fin b] → 0 ≤ b → 1 ≤ 2 * a + b →
        q ≤ a + 3 * b) → ∀ p, coverByBound.problem.Region r p →
          .fin q ≤ coverByBound.problem.value p := fun q hq p hp => by
      obtain ⟨a, b, rfl, hb, hrow⟩ := of_region hp
      rw [cover_value, Exact.fin_le_fin]
      exact hq a b hp.admits hb hrow
    simp only at hanswer
    split at hanswer
    · rename_i hentries
      cases hanswer
      have hadmits : r.Admits [.fin (1 / 2), .fin 0] := fun var i hi => by
        simp [Restrictions.get?, hentries] at hi
      refine ⟨⟨by decide +kernel, by decide +kernel, hadmits⟩, by decide +kernel, ?_⟩
      rw [cover_value]
      exact hleast _ fun a b _ hb hrow => by linarith
    · split at hanswer
      · rename_i hentries
        cases hanswer
        refine ⟨⟨by decide +kernel, by decide +kernel, (admits_first hentries).2 rfl⟩,
          by decide +kernel, ?_⟩
        rw [cover_value]
        refine hleast _ fun a b hadmits hb hrow => ?_
        obtain rfl := (admits_first hentries).1 hadmits
        linarith
      · split at hanswer
        · rename_i hentries
          cases hanswer
          refine ⟨⟨by decide +kernel, by decide +kernel, (admits_first hentries).2 rfl⟩,
            by decide +kernel, ?_⟩
          rw [cover_value]
          refine hleast _ fun a b hadmits hb hrow => ?_
          obtain rfl := (admits_first hentries).1 hadmits
          linarith
        · cases hanswer

/-- One search meets five nodes and the other one three, and both end with the same cover. -/
theorem solve_agrees_cover : ∃ solution s solution' s',
    (solve coverByBound 4).run (State.initial coverByBound () () ()) =
      .ok (some solution) s ∧
    (solve coverByAge 4).run (State.initial coverByAge () {} ()) = .ok (some solution') s' ∧
    s.statistics.incumbentUpdates = 2 ∧ s'.statistics.incumbentUpdates = 1 ∧
    solution.status = .optimal ∧ solution'.status = .optimal ∧
    ∃ i i', solution.incumbent = some i ∧ solution'.incumbent = some i' ∧
      Scalar.abs (coverByBound.sense.normalize i.objective -
        coverByBound.sense.normalize i'.objective) ≤ .fin (mkRat 1 1000000) := by
  have hrun : read? (fun r s => (r.map Solution.status, s.statistics.incumbentUpdates))
      ((solve coverByBound 4).run (State.initial coverByBound () () ())) =
        some (some .optimal, 2) := by
    decide +kernel
  have hrun' : read? (fun r s => (r.map Solution.status, s.statistics.incumbentUpdates))
      ((solve coverByAge 4).run (State.initial coverByAge () {} ())) =
        some (some .optimal, 1) := by
    decide +kernel
  obtain ⟨outcome, s, hsolve, hread⟩ := read?_eq_some hrun
  obtain ⟨outcome', s', hsolve', hread'⟩ := read?_eq_some hrun'
  obtain ⟨hstatus, hupdates⟩ := Prod.mk.inj hread
  obtain ⟨hstatus', hupdates'⟩ := Prod.mk.inj hread'
  obtain ⟨solution, rfl, hoptimal⟩ := Option.map_eq_some_iff.1 hstatus
  obtain ⟨solution', rfl, hoptimal'⟩ := Option.map_eq_some_iff.1 hstatus'
  have htask : coverByBound.SameTask coverByAge := ⟨rfl, rfl, rfl⟩
  obtain ⟨-, hagree⟩ := solve_agrees (P := cover) (E := coverByBound) cover_ok htask
    ⟨rfl, rfl, rfl, .mostFractional, coverTable_precise⟩
    ⟨rfl, rfl, rfl, .pseudocost, coverTable_precise⟩ hsolve hsolve' (.inl hoptimal)
    (.inl hoptimal')
  exact ⟨solution, s, solution', s', hsolve, hsolve', hupdates, hupdates', hoptimal,
    hoptimal', hagree hoptimal⟩

end Search

end Milp
