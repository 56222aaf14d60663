/-
  The contract that incumbents keep, whatever relaxation, strategy and callbacks do.

  There are two ways to an incumbent, with different checks.  A point of the relaxation is finite and
  whole on the candidates; a proposal also satisfies bounds and rows within the tolerance, and its
  objective is computed anew.

  * `Engine.Admits`, `Engine.Verified`: the contract, and the part of it that is about proposals.
  * `Config.Traced.admits`: the incumbent of a search keeps it at all times.
  * `Weighed`: a proposal is adopted or refused, and has no other effect.
  * `solve_contract`: all of it, for every run.
-/
import Milp.Callback.Scripted
import Milp.Proofs.Activity
import Milp.Proofs.Bound
import Milp.Proofs.Configuration
import Milp.Proofs.Scalar.Measured

namespace Milp

namespace Search

variable {F σ β κ : Type} [Extended F] {E : Engine F σ β κ} {P : Program F} {start : σ}
  {s : State F σ β κ} {c : Config F σ β κ}

/-! ## The contract -/

/-- What is checked of a proposal: it satisfies bounds and rows within the tolerance, and its
    objective is that of its point. -/
structure Engine.Verified (E : Engine F σ β κ) (i : Incumbent F) : Prop where
  inside : ∀ var < E.problem.vars, ∃ interval v, E.problem.box.interval var = .ok interval ∧
    i.x[var]? = some v ∧ interval.lower - E.settings.feasibility ≤ v ∧
    v ≤ interval.upper + E.settings.feasibility
  rows : ∃ amount, E.problem.lp.violation i.x = .ok amount ∧ amount ≤ E.settings.feasibility
  objective : i.objective = E.problem.objective i.x

/-- The contract of an incumbent: it has one finite value for each variable, the candidates are
    close to whole numbers, and what a callback proposed is verified. -/
structure Engine.Admits (E : Engine F σ β κ) (i : Incumbent F) : Prop where
  length_eq : i.x.length = E.problem.vars
  finite : i.x.all Scalar.isFinite = true
  whole : ∀ var ∈ E.candidates, ∃ v p t, ∃ z : Int, i.x[var]? = some v ∧
    Scalar.toRat? v = some p ∧ Scalar.toRat? E.settings.integrality = some t ∧ |p - z| ≤ t
  verified : ∀ name, i.origin = .heuristic name → E.Verified i

theorem fractional_eq_nil {x : List F} {tolerance : F} {place : Nat} {vars : List Nat}
    (h : fractionalFrom x tolerance place vars = .ok []) {var : Nat} (hvar : var ∈ vars) :
    ∃ v, x[var]? = some v ∧ ¬ tolerance < Scalar.fractionality v := by
  induction vars generalizing place with
  | nil => cases hvar
  | cons first rest ih =>
    unfold fractionalFrom at h
    rcases hvalue : fetch x first with e | v
    · rw [hvalue] at h; cases h
    rcases hrest : fractionalFrom x tolerance (place + 1) rest with e | others
    · rw [hvalue, hrest] at h; cases h
    simp only [hvalue, hrest, Bind.bind, Except.bind] at h
    split at h
    · cases h
    · cases h
      rcases List.mem_cons.1 hvar with rfl | hvar
      · exact ⟨v, fetch_eq_ok.1 hvalue, ‹_›⟩
      · exact ih hrest hvar

section Scalars

variable [Scalar.Faithful F] [Scalar.Measured F]

/-- A value that passes the test for whole values is close to a whole number. -/
theorem Engine.Checked.close (hE : E.Checked) {x : List F} (hx : x.all Scalar.isFinite = true)
    {var : Nat}
    (h : ∃ v, x[var]? = some v ∧ ¬ E.settings.integrality < Scalar.fractionality v) :
    ∃ v p t, ∃ z : Int, x[var]? = some v ∧ Scalar.toRat? v = some p ∧
      Scalar.toRat? E.settings.integrality = some t ∧ |p - z| ≤ t := by
  obtain ⟨v, hv, hnot⟩ := h
  obtain ⟨t, ht⟩ := Scalar.Faithful.isFinite_iff.1 hE.settings.integrality.1
  have hfinite := List.all_eq_true.1 hx v (List.mem_of_getElem? hv)
  obtain ⟨p, z, hp, hz⟩ := Scalar.exists_int_of_fractionality_le hfinite ht hnot
  exact ⟨v, p, t, z, hv, hp, ht, hz⟩

variable [Scalar.Ordered F]

omit [Scalar.Faithful F] in
/-- A proposal that passes its check is verified. -/
theorem Engine.Checked.verified (hP : MixedProgram.ofProgram P = .ok E.problem) (hE : E.Checked)
    {p : Proposal F} {tracker : Tracker F} {objective : F}
    (h : p.Passes E.problem E.candidates tracker E.settings objective) {i : Incumbent F}
    (hx : i.x = p.x) (hobjective : i.objective = objective) : E.Verified i := by
  obtain ⟨rfl, hvalid, hbox⟩ := MixedProgram.ofProgram_eq_ok hP
  obtain ⟨htolerance, -⟩ := hE.settings.feasibility
  obtain ⟨hlength, hfinite⟩ := h.finite
  refine ⟨fun var hvar => ?_, ?_, by rw [hobjective, h.improves.1, hx]⟩
  · have hlt : var < E.problem.lp.vars := hvar
    obtain ⟨hlower, hupper⟩ := Program.length_box hbox
    obtain ⟨l, hl⟩ : ∃ l, E.problem.box.lower[var]? = some l :=
      ⟨_, List.getElem?_eq_getElem (hlower ▸ hlt)⟩
    obtain ⟨u, hu⟩ : ∃ u, E.problem.box.upper[var]? = some u :=
      ⟨_, List.getElem?_eq_getElem (hupper ▸ hlt)⟩
    obtain ⟨v, hv⟩ : ∃ v, p.x[var]? = some v := ⟨_, List.getElem?_eq_getElem (hlength ▸ hvar)⟩
    have hinterval : E.problem.box.interval var = .ok ⟨l, u⟩ := Box.interval_eq_ok.2 ⟨hl, hu⟩
    obtain ⟨hbelow, habove⟩ := h.inside hinterval hv
    -- the values compared are numbers
    have hnumbers := hvalid.numbers_box hbox
    have hvalue : v ≤ v := Scalar.Ordered.le_of_isFinite
      (List.all_eq_true.1 hfinite v (List.mem_of_getElem? hv))
    have hleft : l - E.settings.feasibility ≤ l - E.settings.feasibility :=
      Scalar.Ordered.sub_le_sub_right (hnumbers.lower l (List.mem_of_getElem? hl)) htolerance
    have hright : u + E.settings.feasibility ≤ u + E.settings.feasibility :=
      Scalar.Measured.add_le_add_self (hnumbers.upper u (List.mem_of_getElem? hu)) htolerance
    exact ⟨⟨l, u⟩, v, hinterval, hx ▸ hv, (Scalar.Ordered.not_lt hvalue hleft).1 hbelow,
      (Scalar.Ordered.not_lt hright hvalue).1 habove⟩
  · obtain ⟨amount, hamount, hle⟩ := Proposal.checkRows_eq_ok h.rows
    refine ⟨amount, hx ▸ hamount, (Scalar.Ordered.not_lt ?_ ?_).1 hle⟩
    · exact Scalar.Ordered.le_of_isFinite htolerance
    · exact (Scalar.Ordered.refl_of_le (Program.zero_le_violation hamount)).2

/-- Whatever was earned keeps the contract. -/
theorem Engine.Earned.admits (hP : MixedProgram.ofProgram P = .ok E.problem) (hE : E.Checked)
    {i : Incumbent F} (h : E.Earned start i) : E.Admits i := by
  cases h with
  | relaxation h hwhole =>
    obtain ⟨hlength, -, hfinite⟩ := h.finite
    exact ⟨hlength, hfinite, fun var hvar => hE.close hfinite (fractional_eq_nil hwhole hvar),
      fun _ horigin => (by cases horigin)⟩
  | heuristic _ h =>
    obtain ⟨hlength, hfinite⟩ := h.finite
    exact ⟨hlength, hfinite,
      fun var hvar => hE.close hfinite (Proposal.checkWhole_eq_ok h.whole hvar),
      fun _ _ => hE.verified hP h rfl rfl⟩

end Scalars

/-! ## Proposals -/

/-- Closing the nodes that a new incumbent ruled out always succeeds. -/
theorem sweep_run {stage : Stage F κ} {doomed : List (NodeKey F)}
    (hc : Config.Coherent ⟨stage, doomed, s⟩) : ∃ s',
    (doomed.forM fun key => close E key.id (.pruned .bound)).run s = .ok () s' ∧
      s'.tracker = s.tracker ∧ s'.statistics = s.statistics := by
  induction doomed generalizing s with
  | nil => exact ⟨s, rfl, rfl, rfl⟩
  | cons key doomed ih =>
    rw [List.forM_eq_forM, List.forM_cons]
    rcases close_run E s key.id (.pruned .bound) rfl with
      ⟨hnone, -⟩ | ⟨node, tree, released, hnode, hclose, hrun⟩
    · obtain ⟨node, hnode, -⟩ := hc.holds key (by simp [Config.waiting])
      cases hnone.symm.trans hnode
    · obtain ⟨s', hrest, htracker, hstatistics⟩ :=
        ih (Move.coherent (E := E) (.sweep hnode hclose) hc)
      refine ⟨s', ?_, htracker, hstatistics⟩
      rw [EStateM.run_bind, hrun]
      exact hrest

/-- A point that is better than the incumbent is installed, without an error. -/
theorem install_ok {stage next : Stage F κ} {candidate : Incumbent F} {tracker : Tracker F}
    (hc : Config.Coherent ⟨stage, [], s⟩) (h : Adopts E s stage candidate next)
    (hupdate : s.tracker.update? candidate E.settings.tolerance = some tracker) :
    ∃ s', (install E candidate).run s = .ok true s' ∧ s'.tracker = tracker ∧
      s'.statistics.incumbentUpdates = s.statistics.incumbentUpdates + 1 ∧
      s'.statistics.rejections = s.statistics.rejections := by
  rcases hprune : s.frontier.pruneByBound tracker.normalized E.settings.tolerance
    with ⟨pruned, frontier⟩
  obtain ⟨s', hsweep, htracker, hstatistics⟩ :=
    sweep_run (E := E) (Move.coherent (.adopt h hupdate hprune) hc)
  refine ⟨s'.logged (.improved candidate.objective candidate.origin pruned.length), ?_,
    htracker, ?_, ?_⟩
  · rw [install_run hupdate hprune, EStateM.run_bind, hsweep]
    rfl
  · exact (congrArg Statistics.incumbentUpdates hstatistics :)
  · exact (congrArg Statistics.rejections hstatistics :)

/-- What becomes of a proposal.  It is checked against the incumbent of that moment.  If it passes it
    is the new incumbent, with the objective of its point; if it does not it is counted, and nothing
    else changes.  Only where the rows are more than a word can count the check does not return. -/
inductive Weighed (E : Engine F σ β κ) (s : State F σ β κ) (id : NodeId) (name : String)
    (p : Proposal F) : EStateM.Result (SearchError F) (State F σ β κ) Unit → Prop where
  | adopted {objective s'}
      (hcheck : p.check E.problem E.candidates s.tracker E.settings = .ok (.ok objective))
      (htracker : s'.tracker = { s.tracker with
        best := some (s.proposed id name p (E.problem.objective p.x))
        updates := s.tracker.updates + 1 })
      (hupdates : s'.statistics.incumbentUpdates = s.statistics.incumbentUpdates + 1)
      (hrejections : s'.statistics.rejections = s.statistics.rejections) :
      Weighed E s id name p (.ok () s')
  | refused {violation}
      (hcheck : p.check E.problem E.candidates s.tracker E.settings = .ok (.error violation)) :
      Weighed E s id name p (.ok () { s with
        statistics := { s.statistics with rejections := s.statistics.rejections + 1 }
        history := .rejected name id violation :: s.history })
  | broken (hcheck : p.check E.problem E.candidates s.tracker E.settings = .error .tooLarge)
      (hrows : UInt64.size ≤ E.problem.lp.blockRows) :
      Weighed E s id name p (.error (.fault .tooLarge) s)

theorem weigh_weighed (hP : MixedProgram.ofProgram P = .ok E.problem) (hE : E.Checked)
    {id : NodeId} {r : Restrictions F} {answer : Answer F} {left : Callbacks F κ} {name : String}
    {p : Proposal F} (hc : Config.Coherent ⟨.weighing id r answer left name p, [], s⟩) :
    Weighed E s id name p ((weigh E id name p).run s) := by
  rcases hcheck : p.check E.problem E.candidates s.tracker E.settings with
    fault | violation | objective
  · -- the candidates can be read, so the rows cannot be measured
    obtain ⟨rfl, hvalid, -⟩ := MixedProgram.ofProgram_eq_ok hP
    obtain ⟨hlength, hcause⟩ := Proposal.check_eq_error hcheck
    have hfault : fault = .tooLarge ∧ UInt64.size ≤ E.problem.lp.blockRows := by
      rcases hcause with hwhole | hviolation
      · obtain ⟨verdict, hverdict⟩ : ∃ verdict,
            p.checkWhole E.settings.integrality E.candidates = .ok verdict :=
          Proposal.checkWhole_ok fun var hvar => hlength.symm ▸ hE.candidate_lt var hvar
        cases hwhole.symm.trans hverdict
      · exact hvalid.violation_eq_error hlength hviolation
    obtain ⟨rfl, hrows⟩ := hfault
    have hrun : (weigh E id name p).run s = .error (.fault .tooLarge) s := by simp [weigh, hcheck]
    rw [hrun]
    exact .broken hcheck hrows
  · have hrun : (weigh E id name p).run s = .ok () { s with
        statistics := { s.statistics with rejections := s.statistics.rejections + 1 }
        history := .rejected name id violation :: s.history } := by
      simp [weigh, hcheck, tally, emit]
    rw [hrun]
    exact .refused hcheck
  · obtain ⟨rfl, himproves⟩ := (Proposal.check_ok hcheck).improves
    have hupdate : s.tracker.update? (s.proposed id name p (E.problem.objective p.x))
        E.settings.tolerance = some { s.tracker with
          best := some (s.proposed id name p (E.problem.objective p.x))
          updates := s.tracker.updates + 1 } := if_pos himproves
    obtain ⟨s', hinstall, htracker, hupdates, hrejections⟩ :=
      install_ok hc (.proposed hcheck) hupdate
    have hrun : (weigh E id name p).run s = .ok () s' := by
      rw [weigh_run hcheck, EStateM.run_bind, hinstall]
      rfl
    rw [hrun]
    exact .adopted hcheck htracker hupdates hrejections

/-- The state after a callback has answered. -/
def State.offered (s : State F σ β κ) (name : String) (view : View F) (callbacks : κ) :
    State F σ β κ :=
  { s with
    callbacks
    history := .offered name view :: s.history }

/-- A callback is shown the answer of the current node, and what it proposes is weighed. -/
theorem consult_weighed (hP : MixedProgram.ofProgram P = .ok E.problem) (hE : E.Checked)
    {id : NodeId} {r : Restrictions F} {answer : Answer F} {callback : Callback F κ}
    {left : Callbacks F κ}
    (hc : Config.Coherent ⟨.consulting id r answer (callback :: left), [], s⟩) :
    ∃ node, s.tree.get? id = some node ∧ ∀ p callbacks,
      callback.onSolved (E.view node answer r s.tracker) E.candidates s.callbacks =
        .ok (some p, callbacks) →
      Weighed E (s.offered callback.name (E.view node answer r s.tracker) callbacks) id
        callback.name p ((consult E id r callback).run s) := by
  obtain ⟨-, node, hnode, -, hanswer⟩ := hc.fits
  refine ⟨node, hnode, fun p callbacks hsolved => ?_⟩
  have hrun : (consult E id r callback).run s = (weigh E id callback.name p).run
      (s.offered callback.name (E.view node answer r s.tracker) callbacks) := by
    simp [consult, Tree.node, hnode, hanswer, hsolved, emit, State.offered, Option.forM]
  rw [hrun]
  exact weigh_weighed hP hE (Move.coherent (E := E) (.offer hnode hanswer hsolved) hc)

/-! ## Searches -/

/-- The incumbent of a search keeps the contract, and what the next callback proposes is adopted or
    refused. -/
structure Config.Upholds (E : Engine F σ β κ) (c : Config F σ β κ) : Prop where
  incumbent : ∀ i, c.state.tracker.best = some i → E.Admits i
  proposal : ∀ id r answer callback left, c.stage = .consulting id r answer (callback :: left) →
    c.doomed = [] → ∃ node, c.state.tree.get? id = some node ∧ ∀ p callbacks,
      callback.onSolved (E.view node answer r c.state.tracker) E.candidates c.state.callbacks =
        .ok (some p, callbacks) →
      Weighed E (c.state.offered callback.name (E.view node answer r c.state.tracker) callbacks) id
        callback.name p ((consult E id r callback).run c.state)

/-- The incumbents that a search ends with keep the contract: the one that it returns, where no
    objective is a negative zero, the one that it has if it was not finished, and the one that it
    hands over if it was aborted. -/
def Engine.Returns (E : Engine F σ β κ) :
    EStateM.Result (SearchError F) (State F σ β κ) (Option (Solution F)) → Prop
  | .ok (some solution) _ => ∀ i, solution.incumbent = some i → ∃ admitted, E.Admits admitted ∧
      i = { admitted with objective := Scalar.positiveZero admitted.objective }
  | .ok none s => ∀ i, s.tracker.best = some i → E.Admits i
  | .error (.aborted _ _ best) _ => ∀ i, best = some i → E.Admits i
  | .error _ _ => True

variable [Scalar.Faithful F] [Scalar.Measured F] [Scalar.Ordered F]

theorem Config.Traced.upholds (hP : MixedProgram.ofProgram P = .ok E.problem) (hE : E.Checked)
    (hc : c.Traced E start) : c.Upholds E where
  incumbent i hi := (hc.incumbent i hi).admits hP hE
  proposal id r answer callback left hstage hdoomed := by
    obtain ⟨stage, doomed, s⟩ := c
    obtain rfl : stage = _ := hstage
    obtain rfl : doomed = [] := hdoomed
    exact consult_weighed hP hE hc.coherent

/-- **The contract of incumbents.**  Whatever the relaxation answers, the strategy decides and the
    callbacks propose: at every moment of a search the incumbent has one finite value for each
    variable and is close to whole numbers on the candidates; if a callback proposed it, it satisfies
    bounds and rows within the tolerance, and its objective is that of its point.  Every proposal
    either becomes the incumbent or is counted as rejected; the tracker refuses none that passed the
    check. -/
theorem solve_contract (start : σ) (strategy : β) (callbacks : κ)
    (hP : MixedProgram.ofProgram P = .ok E.problem) (hE : E.check = .ok ()) :
    (∀ c, Moves E (.idle (State.initial E start strategy callbacks)) c → c.Upholds E) ∧
    ∀ steps, E.Returns ((solve E steps).run (State.initial E start strategy callbacks)) := by
  have hchecked := Engine.check_eq_ok hE
  have hupholds : ∀ c, Moves E (.idle (State.initial E start strategy callbacks)) c →
      c.Upholds E := fun c hmoves =>
    (Moves.traced hmoves (traced_initial E start strategy callbacks)).upholds hP hchecked
  refine ⟨hupholds, fun steps => ?_⟩
  rcases hsolve : (solve E steps).run (State.initial E start strategy callbacks) with
    ⟨outcome, s'⟩ | ⟨e, s'⟩
  · obtain ⟨s₁, hmoves, ⟨rfl, rfl⟩ | ⟨status, solution, rfl, hsummary⟩⟩ := solve_ok hsolve
    · exact (hupholds _ hmoves).incumbent
    · intro i hi
      rw [hsummary.incumbent_eq] at hi
      obtain ⟨admitted, hbest, rfl⟩ := Option.map_eq_some_iff.1 hi
      exact ⟨admitted, (hupholds _ hmoves).incumbent admitted hbest, rfl⟩
  · have hcases := solve_cases E steps (State.initial E start strategy callbacks)
    rw [hsolve] at hcases
    obtain ⟨c, hmoves, hfails, -⟩ := hcases
    cases hfails with
    | aborted => exact (hupholds _ hmoves).incumbent
    | _ => trivial

/-- The search for the least whole number of the segment, with a callback that always proposes 1. -/
def guessedSegment : Engine Exact Unit Unit Unit :=
  { segmentSearch with callbacks := [.scripted "guess" [⟨none, ⟨[.fin 1], .fin 1⟩⟩]] }

theorem guessed_check : guessedSegment.check = .ok () := rfl

/-- The first proposal becomes the incumbent and keeps the contract, the second one is rejected. -/
theorem solve_contract_guess : ∃ solution s i,
    (solve guessedSegment 3).run (State.initial guessedSegment () () ()) =
      .ok (some solution) s ∧
    (s.statistics.incumbentUpdates, s.statistics.rejections) = (1, 1) ∧
    solution.incumbent = some i ∧ i.origin = .heuristic "guess" ∧
    ∃ admitted, guessedSegment.Admits admitted ∧
      i = { admitted with objective := Scalar.positiveZero admitted.objective } := by
  have hrun : read? (fun solution s => (solution.map fun r => r.incumbent.map Incumbent.origin,
        s.statistics.incumbentUpdates, s.statistics.rejections))
      ((solve guessedSegment 3).run (State.initial guessedSegment () () ())) =
        some (some (some (.heuristic "guess")), 1, 1) := by
    decide +kernel
  obtain ⟨outcome, s, hsolve, hread⟩ := read?_eq_some hrun
  obtain ⟨hsolution, hcounts⟩ := Prod.mk.inj hread
  obtain ⟨solution, rfl, hincumbent⟩ := Option.map_eq_some_iff.1 hsolution
  obtain ⟨i, hi, horigin⟩ := Option.map_eq_some_iff.1 hincumbent
  have hreturns := (solve_contract (E := guessedSegment) () () () segment_ok guessed_check).2 3
  rw [hsolve] at hreturns
  exact ⟨solution, s, i, hsolve, hcounts, hi, horigin, hreturns i hi⟩

end Search

end Milp
