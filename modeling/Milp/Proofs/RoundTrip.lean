/-
  Solutions written as JSON and read back.

  A scalar that is not finite is written as `null`, and `null` is not read as a scalar.  A search
  without an incumbent reports an infinite gap, so its solution is lost; with an incumbent all is
  read back, unless the objective, the bound or the gap overflowed.

  * `Solution.Fits`: the counts and the duration fit into 64 bits.
  * `Solution.ofJson?_toJson`: what is read back of a solution.
  * `Summary.finite_of_gap`: a solution with a finite gap is finite in all its parts.
  * `solve_survives`: a solution survives exactly if its gap is finite.
-/
import Milp.Callback.Scripted
import Milp.Proofs.Scalar.Strict
import Milp.Proofs.Verdict
import Milp.Solution.Json

namespace Milp

variable {F : Type}

/-! ## Records and names -/

namespace Json

theorem map_lookup_zip {names : List String} {values : List (Json F)} (hnodup : names.Nodup)
    (hlength : values.length = names.length) :
    (names.map fun name => (names.zip values).lookup name) = values.map some := by
  induction names generalizing values with
  | nil =>
    rw [List.length_eq_zero_iff.1 hlength]
    rfl
  | cons name names ih =>
    rcases values with _ | ⟨v, values⟩
    · cases hlength
    obtain ⟨hname, hnames⟩ := List.nodup_cons.1 hnodup
    have htail : (names.map fun n => ((name, v) :: names.zip values).lookup n) =
        names.map fun n => (names.zip values).lookup n := by
      refine List.map_congr_left fun n hn => ?_
      have hne : n ≠ name := fun heq => hname (heq ▸ hn)
      rw [List.lookup_cons, beq_eq_false_iff_ne.2 hne]
    rw [List.zip_cons_cons, List.map_cons, htail, ih hnames (Nat.succ.inj hlength),
      List.lookup_cons_self, List.map_cons]

/-- The fields of a record are found under their names. -/
theorem members?_zip {names : List String} {values : List (Json F)} (hnodup : names.Nodup)
    (hlength : values.length = names.length) :
    (object (names.zip values)).members? names = some (values.map some) := by
  rw [members?, map_lookup_zip hnodup hlength]

theorem count?_ofNat {n : Nat} (h : n < UInt64.size) : count? (ofNat n : Json F) = some n :=
  if_pos h

/-- A field with a count is read, and what follows goes on with it. -/
theorem bind_count? {α : Type} {n : Nat} (h : n < UInt64.size) (next : Nat → Option α) :
    (some (ofNat n : Json F) >>= fun field => count? field >>= next) = next n := by
  rw [Option.bind_eq_bind, Option.bind_some, count?_ofNat h]
  rfl

/-- A scalar is read back if it is finite. -/
theorem scalar?_ofScalar [Scalar F] (x : F) :
    (ofScalar x).scalar? = if Scalar.isFinite x = true then some x else none := by
  unfold ofScalar
  split <;> rfl

theorem scalars?_ofScalar [Scalar F] {xs : List F} (h : xs.all Scalar.isFinite = true) :
    (array (xs.map ofScalar)).scalars? = some xs := by
  show (xs.map ofScalar).mapM scalar? = some xs
  induction xs with
  | nil => rfl
  | cons x xs ih =>
    obtain ⟨hx, hxs⟩ := Bool.and_eq_true_iff.1 h
    rw [List.map_cons, List.mapM_cons, ih hxs, scalar?_ofScalar, if_pos hx]
    rfl

end Json

open Json

theorem SearchStatus.ofJson?_toJson (s : SearchStatus) :
    SearchStatus.ofJson? (s.toJson : Json F) = some s := by
  cases s <;> rfl

theorem Origin.ofJson?_toJson (o : Origin) : Origin.ofJson? (o.toJson : Json F) = some o := by
  cases o <;> rfl

theorem Duration.ofParts_secs_nanos (d : Duration) : Duration.ofParts d.secs d.nanos = d := by
  rw [ofParts, secs, nanos, Nat.div_add_mod']

theorem Duration.ofJson?_toJson {d : Duration} (h : d.secs < UInt64.size) :
    Duration.ofJson? (d.toJson : Json F) = some d := by
  have hnanos : d.nanos < UInt32.size := (Nat.mod_lt _ (by decide)).trans (by decide)
  have hmembers : (d.toJson : Json F).members? ["secs", "nanos"] =
      some [some (ofNat d.secs), some (ofNat d.nanos)] := rfl
  have hread : natural? UInt32.size (ofNat d.nanos : Json F) = some d.nanos := if_pos hnanos
  have hknown : fieldsKnown (d.toJson : Json F) = true := by
    simp [fieldsKnown, toJson]
  rw [ofJson?, if_pos hknown, hmembers]
  show (count? (ofNat d.secs : Json F)).bind (fun secs =>
    (natural? UInt32.size (ofNat d.nanos : Json F)).bind fun nanos =>
      if (ofParts secs nanos).secs < UInt64.size then some (ofParts secs nanos) else none) = some d
  rw [count?_ofNat h, Option.bind_some, hread, Option.bind_some, ofParts_secs_nanos, if_pos h]

/-! ## The parts of a solution -/

variable [Scalar F]

/-- The node and the number of nodes fit into 64 bits. -/
structure Incumbent.Fits (i : Incumbent F) : Prop where
  node : i.node < UInt64.size
  foundAt : i.foundAt < UInt64.size

instance (i : Incumbent F) : Decidable i.Fits :=
  decidable_of_iff (i.node < UInt64.size ∧ i.foundAt < UInt64.size)
    ⟨fun ⟨node, foundAt⟩ => ⟨node, foundAt⟩, fun ⟨node, foundAt⟩ => ⟨node, foundAt⟩⟩

theorem Incumbent.ofJson?_toJson {i : Incumbent F} (h : i.Fits)
    (hobjective : Scalar.isFinite i.objective = true) (hx : i.x.all Scalar.isFinite = true) :
    Incumbent.ofJson? i.toJson = some i := by
  unfold ofJson? toJson
  rw [members?_zip (by decide) rfl]
  simp [count?_ofNat h.node, count?_ofNat h.foundAt, scalar?_ofScalar, hobjective,
    scalars?_ofScalar hx, Origin.ofJson?_toJson]

/-- The counters of some statistics. -/
def Statistics.counters (t : Statistics F) : List Nat :=
  [t.processed, t.created, t.pruned, t.infeasible, t.unbounded, t.branched, t.pending,
    t.solverErrors, t.rejections, t.incumbentUpdates, t.maxDepth]

/-- The counters and the seconds fit into 64 bits. -/
structure Statistics.Fits (t : Statistics F) : Prop where
  counters : ∀ n ∈ t.counters, n < UInt64.size
  elapsed : t.elapsed.secs < UInt64.size

instance (t : Statistics F) : Decidable t.Fits :=
  decidable_of_iff ((∀ n ∈ t.counters, n < UInt64.size) ∧ t.elapsed.secs < UInt64.size)
    ⟨fun ⟨counters, elapsed⟩ => ⟨counters, elapsed⟩, fun ⟨counters, elapsed⟩ => ⟨counters, elapsed⟩⟩

theorem Statistics.ofJson?_toJson {t : Statistics F} (h : t.Fits) :
    Statistics.ofJson? t.toJson =
      if Scalar.isFinite t.bestBound = true ∧ Scalar.isFinite t.gap = true then some t
      else none := by
  have hcounters := h.counters
  simp only [counters, List.forall_mem_cons] at hcounters
  obtain ⟨hprocessed, hcreated, hpruned, hinfeasible, hunbounded, hbranched, hpending, herrors,
    hrejections, hupdates, hdepth, -⟩ := hcounters
  unfold ofJson? toJson
  rw [members?_zip (by decide) rfl]
  simp only [List.map_cons, List.map_nil]
  show (some (ofNat t.processed : Json F) >>= fun field => count? field >>= _) = _
  rw [bind_count? hprocessed, bind_count? hcreated, bind_count? hpruned, bind_count? hinfeasible,
    bind_count? hunbounded, bind_count? hbranched, bind_count? hpending, bind_count? herrors,
    bind_count? hrejections, bind_count? hupdates, bind_count? hdepth]
  by_cases hbound : Scalar.isFinite t.bestBound = true
  · by_cases hgap : Scalar.isFinite t.gap = true
    · simp [hbound, hgap, scalar?_ofScalar, Duration.ofJson?_toJson h.elapsed]
    · simp [hbound, hgap, scalar?_ofScalar]
  · simp [hbound, scalar?_ofScalar]

namespace Solution

variable {s : Solution F}

/-- All counts and the duration fit into 64 bits. -/
structure Fits (s : Solution F) : Prop where
  incumbent : ∀ i ∈ s.incumbent, i.Fits
  statistics : s.statistics.Fits

instance (s : Solution F) : Decidable s.Fits :=
  decidable_of_iff ((∀ i ∈ s.incumbent, i.Fits) ∧ s.statistics.Fits)
    ⟨fun ⟨incumbent, statistics⟩ => ⟨incumbent, statistics⟩,
      fun ⟨incumbent, statistics⟩ => ⟨incumbent, statistics⟩⟩

/-- Every scalar of a solution is finite. -/
structure IsFinite (s : Solution F) : Prop where
  bestBound : Scalar.isFinite s.statistics.bestBound = true
  gap : Scalar.isFinite s.statistics.gap = true
  incumbent : ∀ i, s.incumbent = some i →
    Scalar.isFinite i.objective = true ∧ i.x.all Scalar.isFinite = true

theorem incumbentOf?_toJson (h : s.Fits) (hfinite : s.IsFinite) :
    incumbentOf? (some ((s.incumbent.map Incumbent.toJson).getD null)) = some s.incumbent := by
  rcases hi : s.incumbent with _ | i
  · rfl
  · obtain ⟨hobjective, hx⟩ := hfinite.incumbent i hi
    have hread := Incumbent.ofJson?_toJson (h.incumbent i hi) hobjective hx
    exact congrArg (Option.map some) hread

/-- A solution without a value that is not finite is read back. -/
theorem ofJson?_toJson (h : s.Fits) (hfinite : s.IsFinite) : ofJson? s.toJson = some s := by
  unfold ofJson? toJson
  rw [members?_zip (by decide) rfl]
  simp [SearchStatus.ofJson?_toJson, incumbentOf?_toJson h hfinite,
    Statistics.ofJson?_toJson h.statistics, hfinite.bestBound, hfinite.gap]

/-- A solution whose gap is not finite is not read back. -/
theorem ofJson?_toJson_eq_none (h : s.Fits) (hgap : Scalar.isFinite s.statistics.gap = false) :
    ofJson? s.toJson = none := by
  unfold ofJson? toJson
  rw [members?_zip (by decide) rfl]
  simp [Statistics.ofJson?_toJson h.statistics, hgap]

end Solution

/-! ## Solutions of a search -/

/-- The worst objective is not finite. -/
theorem Sense.worst_not_finite {F : Type} [Extended F] [Scalar.Strict F] [Scalar.Ranked F]
    (s : Sense) : Scalar.isFinite (s.worst : F) = false := by
  rw [← Bool.not_eq_true]
  intro h
  have hback := s.isFinite_normalize h
  rw [worst, normalize_normalize, Scalar.Strict.isFinite_infinity] at hback
  cases hback

namespace Search

section

variable {F σ β κ : Type} [Extended F] {E : Engine F σ β κ} {start : σ} {s s' : State F σ β κ}
  {status : SearchStatus} {solution : Solution F} {i : Incumbent F}

theorem Engine.Earned.finite_point (h : E.Earned start i) : i.x.all Scalar.isFinite = true := by
  cases h with
  | relaxation h => exact h.finite.2.2
  | heuristic _ h => exact h.finite.2

variable [Scalar.Strict F] [Scalar.Ranked F] [Scalar.Gapless F] [Scalar.Faithful F]

/-- A finite gap is one between a finite bound and the finite objective of an incumbent. -/
theorem Summary.finite_of_gap (h : Summary E s s' status solution)
    (hgap : Scalar.isFinite solution.statistics.gap = true) :
    Scalar.isFinite solution.statistics.bestBound = true ∧
      ∃ i, solution.incumbent = some i ∧ Scalar.isFinite i.objective = true := by
  have hgap' : Scalar.isFinite (relativeGap s.tracker.objective
      (Scalar.positiveZero (E.sense.normalize s.bound))) = true := by
    rw [h.statistics_eq] at hgap
    exact hgap
  obtain ⟨hobjective, hbound⟩ := Scalar.isFinite_relativeGap hgap'
  refine ⟨h.bestBound_eq ▸ hbound, ?_⟩
  rw [h.incumbent_eq]
  cases hbest : s.tracker.best with
  | none =>
    rw [Tracker.objective, hbest, Sense.worst_not_finite] at hobjective
    cases hobjective
  | some i =>
    rw [Tracker.objective, hbest] at hobjective
    exact ⟨_, rfl, Scalar.isFinite_positiveZero.2 hobjective⟩

/-- A solution with a finite gap is finite in all its parts, and has an incumbent. -/
theorem solution_finite {steps : Nat} {strategy : β} {callbacks : κ}
    (h : (solve E steps).run (State.initial E start strategy callbacks) = .ok (some solution) s)
    (hgap : Scalar.isFinite solution.statistics.gap = true) :
    solution.IsFinite ∧ solution.incumbent.isSome = true := by
  have hcases := solve_cases E steps (State.initial E start strategy callbacks)
  rw [h] at hcases
  obtain ⟨s₁, s₂, status, -, -, hsummary, -⟩ := hcases
  obtain ⟨hbound, best, hbest, hobjective⟩ := hsummary.finite_of_gap hgap
  refine ⟨⟨hbound, hgap, fun i hi => ?_⟩, Option.isSome_iff_exists.2 ⟨best, hbest⟩⟩
  obtain rfl : best = i := Option.some.inj (hbest.symm.trans hi)
  obtain ⟨earned, hearned, rfl⟩ := solve_earned h hi
  exact ⟨hobjective, hearned.finite_point⟩

end

/-- **A solution survives being written and read exactly if its gap is finite**, whatever
    relaxation, strategy and callbacks do in double arithmetic; otherwise reading it fails.  So a
    solution without an incumbent is always lost, and an optimal one with a finite objective never
    is. -/
theorem solve_survives {σ β κ : Type} {E : Engine Float σ β κ} {start : σ} {strategy : β}
    {callbacks : κ} {steps : Nat} {solution : Solution Float} {s : State Float σ β κ}
    (h : (solve E steps).run (State.initial E start strategy callbacks) = .ok (some solution) s)
    (hfits : solution.Fits) :
    Solution.ofJson? solution.toJson =
        (if Scalar.isFinite solution.statistics.gap = true then some solution else none) ∧
      (solution.incumbent = none → Scalar.isFinite solution.statistics.gap = false) ∧
      ∀ i, solution.status = .optimal → solution.incumbent = some i →
        Scalar.isFinite i.objective = true → Scalar.isFinite solution.statistics.gap = true := by
  refine ⟨?_, fun hnone => ?_, fun i hoptimal hi hobjective => ?_⟩
  · split
    · exact Solution.ofJson?_toJson hfits (solution_finite h ‹_›).1
    · exact Solution.ofJson?_toJson_eq_none hfits (Bool.eq_false_iff.2 ‹_›)
  · rw [← Bool.not_eq_true]
    intro hgap
    have hsome := (solution_finite h hgap).2
    rw [hnone] at hsome
    cases hsome
  · obtain ⟨best, hbest, hclosed⟩ := (solve_consistent h).optimal hoptimal
    obtain rfl : best = i := Option.some.inj (hbest.symm.trans hi)
    rw [(hclosed hobjective).2]
    exact Scalar.Faithful.isFinite_iff.2 ⟨0, Scalar.Faithful.zero_eq⟩

/-- The search for the least whole number, with a callback that proposes 2, for one node only. -/
def guessSearch : Engine Float Unit Unit Unit :=
  { leastSearch with
    settings := { Settings.standard with nodeLimit := some 1 }
    callbacks := [.scripted "guess" [⟨none, ⟨[2], 2⟩⟩]] }

/-- The search stops with the proposal, and with two nodes whose bound is a half. -/
theorem solve_survives_guess : ∃ solution s,
    (solve guessSearch 2).run (State.initial guessSearch () () ()) = .ok (some solution) s ∧
    solution.Fits ∧ solution.status = .nodeLimitReached ∧ solution.statistics.gap = 0.75 ∧
    Solution.ofJson? solution.toJson = some solution := by
  have hrun : read? (fun outcome _ => outcome.map fun solution : Solution Float =>
      (decide solution.Fits, solution.status, solution.statistics.gap))
      ((solve guessSearch 2).run (State.initial guessSearch () () ())) =
        some (some (true, .nodeLimitReached, 0.75)) := by
    decide +kernel
  obtain ⟨outcome, s, hsolve, hread⟩ := read?_eq_some hrun
  obtain ⟨solution, rfl, hparts⟩ := Option.map_eq_some_iff.1 hread
  obtain ⟨hfits, hparts⟩ := Prod.mk.inj hparts
  obtain ⟨hstatus, hgap⟩ := Prod.mk.inj hparts
  have hfinite : Scalar.isFinite solution.statistics.gap = true := by
    rw [hgap]
    decide +kernel
  have hsurvives := (solve_survives hsolve (of_decide_eq_true hfits)).1
  rw [if_pos hfinite] at hsurvives
  exact ⟨solution, s, hsolve, of_decide_eq_true hfits, hstatus, hgap, hsurvives⟩

end Search

/-- A whole number in `[0, 3]` that is at most `-1`. -/
def unreachable : MixedProgram Float where
  lp :=
    { cost := [1]
      matrix := ⟨1, 1, [[(0, 1)]], rfl, by simp, by simp [Column.Sorted]⟩
      rhs := [-1]
      blocks := [.atMost 1]
      bounds := some [⟨0, some 0, some 3⟩]
      kinds := some [.integer] }
  integers := [0]
  binaries := []
  box := ⟨[0], [3]⟩

/-- The search finds out that there is no such number, and this cannot be read back. -/
theorem unreachable_lost : MixedProgram.ofProgram unreachable.lp = .ok unreachable ∧
    ∃ solution s, unreachable.solve [0] Settings.standard (SearchClock.stopped ⟨0⟩)
        Simplex.PivotClock.still 10 = .ok (some solution) s ∧
      solution.status = .infeasible ∧ solution.incumbent = none ∧ solution.Fits ∧
      (Solution.ofJson? solution.toJson).isNone = true := by
  have hrun : Search.read? (fun outcome _ => outcome.map fun solution : Solution Float =>
      (solution.status, solution.incumbent.isNone, decide solution.Fits,
        (Solution.ofJson? solution.toJson).isNone))
      (unreachable.solve [0] Settings.standard (SearchClock.stopped ⟨0⟩)
        Simplex.PivotClock.still 10) = some (some (.infeasible, true, true, true)) := by
    decide +kernel
  obtain ⟨outcome, s, hsolve, hread⟩ := Search.read?_eq_some hrun
  obtain ⟨solution, rfl, hparts⟩ := Option.map_eq_some_iff.1 hread
  obtain ⟨hstatus, hparts⟩ := Prod.mk.inj hparts
  obtain ⟨hnone, hparts⟩ := Prod.mk.inj hparts
  obtain ⟨hfits, hlost⟩ := Prod.mk.inj hparts
  exact ⟨MixedProgram.ofProgram_ok (by decide +kernel) (by decide +kernel) (by decide +kernel),
    solution, s, hsolve, hstatus, Option.isNone_iff_eq_none.1 hnone, of_decide_eq_true hfits,
    hlost⟩

end Milp
