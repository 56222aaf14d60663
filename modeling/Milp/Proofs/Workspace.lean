/-
  Solves of the simplex relaxation leave no trace.

  The working box is cut down in place for a solve and put back afterwards.  So the only thing that
  a solve leaves behind is that it is counted, and what is answered does not depend on the solves
  before.

  * `Overlay.apply_box`: laying an overlay over a box, and applying restrictions to it.
  * `Overlay.apply_restores`: what taking an overlay off gives.
  * `Answer.ofSolve`: what the relaxation makes of the result of the solver.
  * `Relaxation.solveAll`: solves one after the other.
  * `Relaxation.Traceless`, `Relaxation.simplex_traceless`: every sequence of solves.
-/
import Milp.Proofs.Residual

namespace Milp

variable {F : Type}

/-! ## Overlays -/

section Overlay

variable [Scalar F]

/-- An overlay changes its box as the restriction does, and fails where that fails. -/
theorem Overlay.push_box (o : Overlay F) (var : Nat) (i : Interval F) :
    (o.push var i).map Overlay.box = o.box.restrict (var, i) := by
  unfold Overlay.push Box.restrict
  by_cases hlower : var < o.box.lower.length
  · rw [if_pos hlower, if_pos hlower]
    by_cases hupper : var < o.box.upper.length
    · have hinterval : o.box.interval var = .ok ⟨o.box.lower[var], o.box.upper[var]⟩ :=
        Box.interval_eq_ok.2 ⟨List.getElem?_eq_getElem _, List.getElem?_eq_getElem _⟩
      rw [hinterval]
      rcases o.box.cut var i with fault | box
      · rfl
      · rfl
    · -- without an upper bound both ways read out of range
      simp [Box.interval, Box.cut, fetch, amend, hlower, hupper, Bind.bind, Except.bind, Except.map]
  · rw [if_neg hlower, if_neg hlower]
    rfl

/-- The two ways to cut a box down agree. -/
theorem Overlay.apply_box (box : Box F) (r : Restrictions F) :
    (Overlay.apply box r).map Overlay.box = r.applyTo box := by
  have hfold : ∀ (entries : List (Nat × Interval F)) (o : Overlay F),
      (entries.foldlM (fun (o : Overlay F) entry => o.push entry.1 entry.2) o).map Overlay.box =
        entries.foldlM Box.restrict o.box := by
    intro entries
    induction entries with
    | nil => exact fun _ => rfl
    | cons entry rest ih =>
      intro o
      rw [List.foldlM_cons, List.foldlM_cons, ← Overlay.push_box]
      rcases o.push entry.1 entry.2 with fault | next
      · rfl
      · exact ih next
  exact hfold r.entries ⟨box, []⟩

/-- An overlay can be laid over every box with as many upper as lower bounds.  It shows what the
    restrictions make of the box, and taking it off gives the box from before. -/
theorem Overlay.apply_restores (box : Box F) (r : Restrictions F)
    (h : box.upper.length = box.lower.length) :
    ∃ o, Overlay.apply box r = .ok o ∧ r.applyTo box = .ok o.box ∧ o.restore = box := by
  obtain ⟨visible, hvisible⟩ := r.applyTo_ok box h
  have hmap := Overlay.apply_box box r
  rcases hoverlay : Overlay.apply box r with fault | o
  · rw [hoverlay, hvisible] at hmap
    cases hmap
  · exact ⟨o, rfl, Overlay.apply_eq_ok hoverlay⟩

end Overlay

/-! ## Solves -/

/-- What the relaxation makes of the result of the solver. -/
def Answer.ofSolve : Except (Simplex.Refusal F) (Simplex.Report F) →
    Except Fault (Answer F × List (Simplex.Note F))
  | .ok report => .ok (Answer.ofReport report, report.notes)
  | .error (.invalid error) => .ok (.failed (.refused error), [])
  | .error (.fault fault) => .error fault

namespace Relaxation

variable {σ : Type}

/-- What a solve answers, without the state after it. -/
def answer (R : Relaxation F σ) (s : σ) (r : Restrictions F) :
    Except Fault (Answer F × List (Simplex.Note F)) := do
  let reply ← R.solve s r
  return (reply.answer, reply.notes)

/-- Solves one after the other, each from the state that the one before left: what they answer, and
    the state after the last one. -/
def solveAll (R : Relaxation F σ) (s : σ) :
    List (Restrictions F) → Except Fault (List (Answer F × List (Simplex.Note F)) × σ)
  | [] => return ([], s)
  | r :: rs => do
    let reply ← R.solve s r
    let (answers, last) ← R.solveAll reply.state rs
    return ((reply.answer, reply.notes) :: answers, last)

section Simplex

variable [Scalar F] {M : MixedProgram F} {opts : Simplex.Options F} {clock : Simplex.PivotClock}
  {w : Workspace F} {r : Restrictions F}

/-- A solve answers what the solver does over the box that the restrictions make of the working
    box, puts that box back, and is counted. -/
theorem simplex_solve (h : w.box.upper.length = w.box.lower.length) :
    (simplex M opts clock).solve w r =
      (r.applyTo w.box >>= fun visible => Answer.ofSolve (M.lp.solveOver visible opts clock)).map
        fun (answer, notes) => ⟨⟨w.box, w.solves + 1⟩, answer, notes⟩ := by
  obtain ⟨o, hoverlay, hvisible, hrestore⟩ := Overlay.apply_restores w.box r h
  simp only [simplex, hoverlay, hvisible, hrestore, Bind.bind, Except.bind]
  rcases M.lp.solveOver o.box opts clock with (error | fault) | report
  · rfl
  · rfl
  · rfl

theorem simplex_answer (h : w.box.upper.length = w.box.lower.length) :
    (simplex M opts clock).answer w r =
      r.applyTo w.box >>= fun visible => Answer.ofSolve (M.lp.solveOver visible opts clock) := by
  rw [answer, simplex_solve h]
  generalize (r.applyTo w.box >>= _) = result
  rcases result with fault | ⟨answer, notes⟩
  · rfl
  · rfl

/-- Without a time limit it does not matter which clock a relaxation reads. -/
theorem simplex_clock (htime : opts.timeLimit = none) (clock' : Simplex.PivotClock) :
    simplex M opts clock' = simplex M opts clock := by
  have hsolve : ∀ visible,
      M.lp.solveOver visible opts clock' = M.lp.solveOver visible opts clock := by
    intro visible
    simp only [Program.solveOver, Simplex.solveBox, Simplex.Options.late_eq htime]
  simp only [simplex, hsolve]

/-- Each of several solves answers as it would have as the first one, and all are counted. -/
theorem simplex_solveAll (h : M.box.upper.length = M.box.lower.length)
    (rs : List (Restrictions F)) (solves : Nat) :
    (simplex M opts clock).solveAll ⟨M.box, solves⟩ rs =
      (rs.mapM fun r => (simplex M opts clock).answer { box := M.box } r).map fun answers =>
        (answers, ⟨M.box, solves + rs.length⟩) := by
  induction rs generalizing solves with
  | nil => rfl
  | cons r rs ih =>
    have hsolve := @simplex_solve _ _ M opts clock ⟨M.box, solves⟩ r h
    have hanswer := @simplex_answer _ _ M opts clock ⟨M.box, 0⟩ r h
    rw [solveAll, List.mapM_cons, hsolve, hanswer]
    generalize (r.applyTo M.box >>= _) = result
    rcases result with fault | ⟨answer, notes⟩
    · rfl
    simp only [Except.map, Bind.bind, Except.bind, ih]
    rcases rs.mapM fun r => (simplex M opts clock).answer { box := M.box } r with fault | answers
    · rfl
    · simp [pure, Except.pure, Nat.add_assoc, Nat.add_comm 1]

end Simplex

end Relaxation

/-- Solving a program over the bounds it has is solving it. -/
theorem Program.solveOver_box [Extended F] {P : Program F} {box : Box F} (h : P.box = .ok box)
    (opts : Simplex.Options F) (clock : Simplex.PivotClock) :
    P.solveOver box opts clock = P.solve opts clock := by
  have hlengths : ¬ (box.lower.length ≠ P.vars ∨ box.upper.length ≠ P.vars) := by
    simpa using P.length_box h
  simp only [Program.solveOver, Program.solve, h, if_neg hlengths]
  rfl

/-! ## Sequences of solves -/

/-- The solves of a program leave no trace. -/
structure Relaxation.Traceless [Extended F] (M : MixedProgram F) (opts : Simplex.Options F)
    (clock : Simplex.PivotClock) : Prop where
  /-- Solves one after the other answer each as a new relaxation would, and fault where one of these
      would.  All that they leave is their number. -/
  renewed (rs : List (Restrictions F)) :
    (simplex M opts clock).solveAll { box := M.box } rs =
      (rs.mapM fun r => (simplex M opts clock).answer { box := M.box } r).map fun answers =>
        (answers, { box := M.box, solves := rs.length })
  /-- Before and after each of them the working box is the box of the program. -/
  settled {w : Workspace F} (h : (simplex M opts clock).Visited { box := M.box } w) :
    w.box = M.box
  /-- What the solver sees in between is what the restrictions make of the box of the program, and
      its result is passed on. -/
  visible {w : Workspace F} (h : (simplex M opts clock).Visited { box := M.box } w)
    (r : Restrictions F) : ∃ o, Overlay.apply w.box r = .ok o ∧ r.applyTo M.box = .ok o.box ∧
      o.restore = M.box ∧
      (simplex M opts clock).answer w r = Answer.ofSolve (M.lp.solveOver o.box opts clock)
  /-- Without restrictions the program is solved as it is. -/
  unrestricted {w : Workspace F} (h : (simplex M opts clock).Visited { box := M.box } w) :
    (simplex M opts clock).answer w .empty = Answer.ofSolve (M.lp.solve opts clock)
  /-- No clock is read. -/
  clockless (clock' : Simplex.PivotClock) : simplex M opts clock' = simplex M opts clock

/-- **Solves leave no trace.**  For every program that is accepted, all options without a time
    limit, and every sequence of restrictions, be they empty, wider than the program's own bounds or
    of variables it does not have: each solve answers as a new relaxation would, sees the box that
    the restrictions make of the program's, and puts that box back.  Apart from programs, an overlay
    that is laid over any box with as many upper as lower bounds and taken off again leaves that
    box. -/
theorem Relaxation.simplex_traceless [Extended F] {P : Program F} {M : MixedProgram F}
    (hP : MixedProgram.ofProgram P = .ok M) {opts : Simplex.Options F}
    (htime : opts.timeLimit = none) (clock : Simplex.PivotClock) :
    Traceless M opts clock ∧ ∀ (box : Box F) (r : Restrictions F),
      box.upper.length = box.lower.length → ∃ o, Overlay.apply box r = .ok o ∧
        r.applyTo box = .ok o.box ∧ o.restore = box := by
  obtain ⟨rfl, -, hbox⟩ := MixedProgram.ofProgram_eq_ok hP
  obtain ⟨hlower, hupper⟩ := M.lp.length_box hbox
  have hlengths : M.box.upper.length = M.box.lower.length := hupper.trans hlower.symm
  refine ⟨⟨fun rs => ?_, fun h => h.box_eq, fun {w} h r => ?_, fun {w} h => ?_, fun clock' =>
    simplex_clock htime clock'⟩, fun box r h => Overlay.apply_restores box r h⟩
  · exact (simplex_solveAll hlengths rs 0).trans (by rw [Nat.zero_add])
  · have hw : w.box = M.box := h.box_eq
    obtain ⟨o, hoverlay, hvisible, hrestore⟩ := Overlay.apply_restores M.box r hlengths
    refine ⟨o, hw ▸ hoverlay, hvisible, hrestore, ?_⟩
    rw [simplex_answer (hw.symm ▸ hlengths), hw, hvisible]
    rfl
  · have hw : w.box = M.box := h.box_eq
    rw [simplex_answer (hw.symm ▸ hlengths), hw, ← Program.solveOver_box hbox]
    rfl

/-- In `pinned` a variable is restricted to an empty interval, then one is set free and one that is
    not there is restricted.  After that the program is solved as before, over its own bounds. -/
theorem Relaxation.simplex_traceless_pinned :
    ((simplex pinned Simplex.Options.standard Simplex.PivotClock.still).solveAll
      { box := pinned.box }
      [Restrictions.empty.set 0 ⟨1, 0⟩, (Restrictions.empty.set 1 ⟨-1, 2e7⟩).set 5 ⟨0, 0⟩,
        .empty]).map (fun result => (result.1.map Prod.fst, result.2)) =
      .ok ([.infeasible, .optimal [1, 0] 0, .optimal [1, 0] 0], ⟨⟨[0, 0], [1, 1e7]⟩, 3⟩) := by
  rw [(simplex_traceless pinned_ok rfl Simplex.PivotClock.still).1.renewed]
  decide +kernel

end Milp
