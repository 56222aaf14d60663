/-
  What the reported bound of a search is worth, in exact arithmetic.

  The bound is taken over the pending nodes and the incumbent.  A node that was given up, because its
  relaxation failed or was unbounded, is among neither of them: points below it may be better than
  the bound that is reported.  They are not better than the bound that was recorded of the node.

  * `GivenUp`: a node without proof whose recorded bound admits a value.
  * `Move.bounded`: a point stays covered by what is open, or a node that bounds it was given up.
  * `solve_bounded`: what the reported bound and the records together say of a point.
-/
import Milp.Proofs.Cover

namespace Milp.Search

variable {σ β κ : Type} {E : Engine Exact σ β κ} {c c' : Config Exact σ β κ}
  {s : State Exact σ β κ} {start : σ} {p : List Exact} {value : Exact}

/-! ## Nodes without proof -/

/-- The same configuration, as if every node had been closed with proof. -/
def Config.proven (c : Config Exact σ β κ) : Config Exact σ β κ :=
  { c with state := { c.state with incomplete := false } }

/-- A node whose bound does not exceed a value was given up, or is about to be. -/
inductive GivenUp (E : Engine Exact σ β κ) (value : Exact) : Config Exact σ β κ → Prop where
  | closed {c record} (hmem : .closed record ∈ c.state.history)
      (hunproven : record.status.isUnproven = true)
      (hbound : E.sense.normalize record.dualBound ≤ value) : GivenUp E value c
  | closing {s id status node} (hunproven : status.isUnproven = true)
      (hnode : s.tree.get? id = some node) (hbound : node.dualBound ≤ value) :
      GivenUp E value ⟨.closing id status, [], s⟩

theorem Concludes.proven {stage : Stage Exact κ} {id : NodeId} {status : NodeStatus}
    {events : List (Event Exact)} (h : Concludes E s stage id status events) :
    Concludes E { s with incomplete := false } stage id status events := by
  cases h with
  | dominated hnode h => exact .dominated hnode h
  | emptyDomain hr h => exact .emptyDomain hr h
  | failed => exact .failed
  | infeasible => exact .infeasible
  | unbounded => exact .unbounded
  | bounded hnode h => exact .bounded hnode h
  | refused h hwhole hupdate => exact .refused h hwhole hupdate
  | barren h => exact .barren h
  | branched h => exact .branched h

/-- No move looks at whether a node was closed without proof; only giving one up changes that. -/
theorem Move.proven (h : Move E c c') : Move E c.proven c'.proven ∨
    ∃ s stage id status events, Concludes E s stage id status events ∧ status.isUnproven = true ∧
      c = ⟨stage, [], s⟩ ∧ c' = ⟨.closing id status, [], s.concluded status events⟩ := by
  cases h with
  | @conclude s stage id status events h =>
    rcases hstatus : status.isUnproven with _ | _
    · have hmove := Move.conclude h.proven
      refine .inl ?_
      simpa only [Config.proven, State.concluded, hstatus, Bool.or_false] using hmove
    · exact .inr ⟨s, stage, id, status, events, h, hstatus, rfl, rfl⟩
  | remark h => exact .inl (.remark h)
  | take hpop hnode => exact .inl (.take hpop hnode)
  | relax hnode hbound hr hdomain hsolve => exact .inl (.relax hnode hbound hr hdomain hsolve)
  | record hbefore hrecord hlearn => exact .inl (.record hbefore hrecord hlearn)
  | offer hnode hanswer hsolved => exact .inl (.offer hnode hanswer hsolved)
  | refuse hcheck => exact .inl (.refuse hcheck)
  | adopt h hupdate hprune =>
    refine .inl (.adopt ?_ hupdate hprune)
    cases h with
    | proposed hcheck => exact .proposed hcheck
    | accepted h hwhole => exact .accepted h hwhole
  | sweep hnode hclose => exact .inl (.sweep hnode hclose)
  | select h hsplit hne hr hbox hselect hvar =>
    exact .inl (.select h hsplit hne hr hbox hselect hvar)
  | spawn hcreate hnode => exact .inl (.spawn hcreate hnode)
  | close hnode hclose hgo => exact .inl (.close hnode hclose hgo)

theorem Config.Traced.proven (hc : c.Traced E start) : c.proven.Traced E start :=
  ⟨⟨hc.coherent.wellFormed, hc.coherent.settled, hc.coherent.nodup, hc.coherent.holds,
    hc.coherent.fits⟩, hc.visited, hc.sense, hc.incumbent, hc.stage⟩

/-- A node that was given up stays so, and is recorded when it is closed. -/
theorem Move.givenUp (h : Move E c c') (hc : GivenUp E value c) : GivenUp E value c' := by
  have hhistory := h.history_suffix
  cases hc with
  | closed hmem hunproven hbound => exact .closed (hhistory.mem hmem) hunproven hbound
  | @closing s id status node hunproven hnode hbound =>
    cases h with
    | remark => exact .closing hunproven hnode hbound
    | conclude h => cases h
    | adopt h => cases h
    | @close _ _ _ node' tree released hnode' hclose hgo =>
      cases hnode.symm.trans hnode'
      refine .closed List.mem_cons_self hunproven ?_
      rwa [Engine.record, Exact.normalize_normalize]

/-- Every move keeps a point covered, or gives up a node that bounds it. -/
theorem Move.bounded (hE : E.Checked) (hM : E.problem.lp.Valid)
    (hstrategy : E.strategy.BuiltIn) (hsound : E.relaxation.Sound start E.problem E.candidates)
    (hp : E.problem.Solves E.candidates p) (hc : c.Traced E start) (h : Move E c c')
    (hcovered : Covered E p c.proven ∨ GivenUp E (E.problem.value p) c) :
    Covered E p c'.proven ∨ GivenUp E (E.problem.value p) c' := by
  rcases hcovered with hcovered | hgiven
  · obtain hmove | ⟨s, stage, id, status, events, hconcludes, hunproven, rfl, rfl⟩ := h.proven
    · exact .inl (hmove.covered hE hM hstrategy hsound hp hc.proven hcovered)
    · cases hcovered with
      | waiting key hkey h' => exact .inl (.waiting key hkey h')
      | current hcovers =>
        -- the relaxation failed or was unbounded, so the stage is that of a solved node
        cases hconcludes with
        | failed | unbounded =>
          obtain ⟨-, node, -, hnode, -, hbound⟩ := hcovers
          exact .inr (.closing hunproven hnode hbound)
        | _ => cases hunproven
      | beaten h' => exact .inl (.beaten h')
      | incomplete h' => cases h'
  · exact .inr (h.givenUp hgiven)

theorem Moves.bounded (hE : E.Checked) (hM : E.problem.lp.Valid)
    (hstrategy : E.strategy.BuiltIn) (hsound : E.relaxation.Sound start E.problem E.candidates)
    (hp : E.problem.Solves E.candidates p) (hc : c.Traced E start) (h : Moves E c c')
    (hcovered : Covered E p c.proven) :
    Covered E p c'.proven ∨ GivenUp E (E.problem.value p) c' := by
  induction h with
  | refl => exact .inl hcovered
  | tail hmoves hmove ih =>
    exact hmove.bounded hE hM hstrategy hsound hp (Moves.traced hmoves hc) ih

/-! ## The reported bound -/

/-- **The bound, in every status.**  Let the relaxation be right wherever it finds an optimum or
    nothing, and let the strategy be a built-in one.  However a search ends, a point that satisfies
    the program and is whole on the candidates is not better than the bound that is reported, by more
    than the tolerance, or not better than the bound recorded of a node that was closed because its
    relaxation failed or was unbounded. -/
theorem solve_bounded {P : Program Exact} {steps : Nat} {strategy : β} {callbacks : κ}
    {s' : State Exact σ β κ} {solution : Solution Exact}
    (hP : MixedProgram.ofProgram P = .ok E.problem) (hE : E.check = .ok ())
    (hstrategy : E.strategy.BuiltIn)
    (hsound : E.relaxation.Sound start E.problem E.candidates)
    (hsolve : (solve E steps).run (State.initial E start strategy callbacks) =
      .ok (some solution) s') (hp : E.problem.Solves E.candidates p) :
    E.sense.normalize solution.statistics.bestBound - E.settings.tolerance ≤ E.problem.value p ∨
      ∃ record, .closed record ∈ s'.history ∧ record.status.isUnproven = true ∧
        E.sense.normalize record.dualBound ≤ E.problem.value p := by
  obtain ⟨hlp, hvalid, -⟩ := MixedProgram.ofProgram_eq_ok hP
  have hM : E.problem.lp.Valid := hlp ▸ hvalid
  have hchecked := Engine.check_eq_ok hE
  have hcases := solve_cases E steps (State.initial E start strategy callbacks)
  rw [hsolve] at hcases
  obtain ⟨s₁, s₂, status, hmoves, hends, hsummary, ⟨event, hhistory⟩, -⟩ := hcases
  have hstart := traced_initial E start strategy callbacks
  have htraced := Moves.traced hmoves hstart
  obtain ⟨hbound, hsuffix⟩ : s₂.bound = s₁.bound ∧ s₁.history <:+ s₂.history := by
    cases hends with
    | limit => exact ⟨rfl, List.suffix_cons _ _⟩
    | exhausted => exact ⟨rfl, List.suffix_rfl⟩
  rcases Moves.bounded hchecked hM hstrategy hsound hp hstart hmoves
    (covered_initial hM hp start strategy callbacks) with hcovered | hgiven
  · left
    rw [hsummary.bestBound_eq, Exact.positiveZero_eq, Exact.normalize_normalize, hbound]
    exact bound_le_of_covered (s := { s₁ with incomplete := false }) hchecked hM htraced.proven
      hcovered rfl
  · cases hgiven with
    | closed hmem hunproven hle =>
      refine .inr ⟨_, ?_, hunproven, hle⟩
      rw [hhistory]
      exact List.mem_cons_of_mem _ (hsuffix.mem hmem)

/-- Two binary variables of which one has to be set; the first is the cheaper one. -/
def choice : Program Exact where
  cost := [.fin 1, .fin 3]
  matrix := ⟨1, 2, [[(0, .fin (-2))], [(0, .fin (-2))]], rfl, by simp, by simp [Column.Sorted]⟩
  rhs := [.fin (-1)]
  blocks := [.atMost 1]
  bounds := none
  kinds := some [.binary, .binary]

/-- The relaxation of the choice where the first variable is free or not set; it fails where the
    first variable is set. -/
def halfChoice : Relaxation Exact Unit where
  name := "half"
  vars := 2
  solve _ r := return ⟨(),
    if r.entries = [] then .optimal [.fin (1 / 2), .fin 0] (.fin (1 / 2))
    else if r.entries = [(0, ⟨.fin 0, .fin 0⟩)] then .optimal [.fin 0, .fin (1 / 2)] (.fin (3 / 2))
    else .failed (.reported "no answer"), []⟩

/-- The search for the cheapest choice, which is stopped after three nodes. -/
def choiceSearch : Engine Exact Unit Unit Unit where
  problem := ⟨choice, [0, 1], [0, 1], ⟨[.fin 0, .fin 0], [.fin 1, .fin 1]⟩⟩
  candidates := [0, 1]
  settings := { Settings.standard with nodeLimit := some 3 }
  relaxation := halfChoice
  strategy := Strategy.mostFractional
  callbacks := []
  clock := SearchClock.stopped ⟨0⟩

theorem choice_ok : MixedProgram.ofProgram choice = .ok choiceSearch.problem :=
  MixedProgram.ofProgram_ok (by decide +kernel) (by decide +kernel) (by decide +kernel)

theorem choice_check : choiceSearch.check = .ok () := rfl

/-- The choices: one of the variables is set, or both are. -/
theorem mem_choices (hp : choiceSearch.problem.Solves choiceSearch.candidates p) :
    p = [.fin 0, .fin 1] ∨ p = [.fin 1, .fin 0] ∨ p = [.fin 1, .fin 1] := by
  have hlength : p.length = 2 := by
    have hfeasible := hp.feasible
    unfold MixedProgram.feasible at hfeasible
    split at hfeasible
    · rename_i hshape
      simp only [Bool.and_eq_true, decide_eq_true_eq] at hshape
      exact hshape.1
    · cases hfeasible
  -- each of the two is a whole number between zero and one
  have hbinary : ∀ var x, var < 2 → p[var]? = some x → x = .fin 0 ∨ x = .fin 1 := by
    intro var x hvar hx
    have hbox : choiceSearch.problem.box.interval var = .ok ⟨.fin 0, .fin 1⟩ := by
      interval_cases var <;> rfl
    have hmem : var ∈ choiceSearch.candidates := by
      interval_cases var <;> decide
    obtain ⟨z, hz⟩ := hp.whole var hmem
    obtain rfl : x = .fin z := Option.some.inj (hx.symm.trans hz)
    obtain ⟨hlower, hupper⟩ := effective_of_admits (r := .empty) hp (fun _ _ h => (by cases h))
      hbox hx
    have hzero : 0 ≤ z := by exact_mod_cast Exact.fin_le_fin.1 hlower
    have hone : z ≤ 1 := by exact_mod_cast Exact.fin_le_fin.1 hupper
    interval_cases z
    · exact .inl rfl
    · exact .inr rfl
  obtain ⟨x, y, rfl⟩ := List.length_eq_two.1 hlength
  rcases hbinary 0 x (by decide) rfl with rfl | rfl <;>
    rcases hbinary 1 y (by decide) rfl with rfl | rfl
  · have hrow : choiceSearch.problem.feasible [.fin 0, .fin 0] 0 = .ok false := by decide +kernel
    cases hrow.symm.trans hp.feasible
  · exact .inl rfl
  · exact .inr (.inl rfl)
  · exact .inr (.inr rfl)

theorem first_solves :
    choiceSearch.problem.Solves choiceSearch.candidates [.fin 1, .fin 0] where
  finite := by decide +kernel
  feasible := by decide +kernel
  whole var hvar := by
    have hlt : var < 2 := by simp [choiceSearch] at hvar; omega
    interval_cases var
    · exact ⟨1, rfl⟩
    · exact ⟨0, rfl⟩

theorem halfChoice_sound :
    halfChoice.Sound () choiceSearch.problem choiceSearch.candidates := by
  constructor
  · intro s r reply _ hsolve hanswer
    cases hsolve
    simp only at hanswer
    split at hanswer
    · cases hanswer
    · split at hanswer <;> cases hanswer
  · intro s r reply x objective _ hsolve hanswer p hp hadmits
    cases hsolve
    simp only at hanswer
    split at hanswer
    · cases hanswer
      rcases mem_choices hp with rfl | rfl | rfl <;> decide +kernel
    · split at hanswer
      · rename_i hentries
        cases hanswer
        -- the first variable is not set
        obtain ⟨v, hv, -, hupper⟩ := hadmits 0 ⟨.fin 0, .fin 0⟩
          (by simp [Restrictions.get?, hentries])
        rcases mem_choices hp with rfl | rfl | rfl
        · decide +kernel
        · cases hv
          exact absurd hupper (by decide +kernel)
        · cases hv
          exact absurd hupper (by decide +kernel)
      · cases hanswer

/-- The search stops after three nodes with the bound 3/2, and two nodes are pending. -/
theorem choice_solved : ∃ solution s,
    (solve choiceSearch 4).run (State.initial choiceSearch () () ()) = .ok (some solution) s ∧
      solution.status = .nodeLimitReached ∧ solution.statistics.bestBound = .fin (3 / 2) := by
  have hrun : read? (fun solution _ => solution.map fun r => (r.status, r.statistics.bestBound))
      ((solve choiceSearch 4).run (State.initial choiceSearch () () ())) =
        some (some (.nodeLimitReached, .fin (3 / 2))) := by
    decide +kernel
  obtain ⟨outcome, s, hsolve, hread⟩ := read?_eq_some hrun
  obtain ⟨solution, rfl, hsolution⟩ := Option.map_eq_some_iff.1 hread
  obtain ⟨hstatus, hbest⟩ := Prod.mk.inj hsolution
  exact ⟨solution, s, hsolve, hstatus, hbest⟩

/-- The bound 3/2 is wrong for the choice of the first variable, which costs 1; so a node was given
    up whose recorded bound is right. -/
theorem solve_bounded_choice : ∃ solution s,
    (solve choiceSearch 4).run (State.initial choiceSearch () () ()) = .ok (some solution) s ∧
      solution.statistics.bestBound = .fin (3 / 2) ∧
      ∃ record, .closed record ∈ s.history ∧ record.status.isUnproven = true ∧
        record.dualBound ≤ .fin 1 := by
  obtain ⟨solution, s, hsolve, -, hbest⟩ := choice_solved
  have hvalue : choiceSearch.problem.value [.fin 1, .fin 0] = .fin 1 := by decide +kernel
  refine ⟨solution, s, hsolve, hbest, ?_⟩
  rcases solve_bounded choice_ok choice_check .mostFractional halfChoice_sound hsolve first_solves
    with hbound | ⟨record, hmem, hunproven, hle⟩
  · rw [hbest] at hbound
    exact absurd hbound (by decide +kernel)
  · rw [hvalue] at hle
    exact ⟨record, hmem, hunproven, hle⟩

/-- A search with a built-in strategy and a relaxation that is right where it does not fail reports
    a bound that a choice is better than. -/
theorem choice_better_than_bound : choiceSearch.check = .ok () ∧ choiceSearch.strategy.BuiltIn ∧
    choiceSearch.relaxation.Sound () choiceSearch.problem choiceSearch.candidates ∧
    ∃ solution s p,
      (solve choiceSearch 4).run (State.initial choiceSearch () () ()) = .ok (some solution) s ∧
      choiceSearch.problem.Solves choiceSearch.candidates p ∧
      ¬ choiceSearch.sense.normalize solution.statistics.bestBound -
        choiceSearch.settings.tolerance ≤ choiceSearch.problem.value p := by
  obtain ⟨solution, s, hsolve, -, hbest⟩ := choice_solved
  refine ⟨choice_check, .mostFractional, halfChoice_sound, solution, s, _, hsolve, first_solves, ?_⟩
  rw [hbest]
  decide +kernel

end Milp.Search
