/-
  The simplex solver and the direction of a program.

  Turning the cost of a program around, together with its direction, gives a program with the same
  points and the same minimisation.  Over exact scalars the solver does the same with both, and
  answers with the same point; only the objective that it reports is the negative one.

  * `Program.mirror`, `MixedProgram.mirror`: the program in the other direction.
  * `MixedProgram.ofProgram_mirror`: it is accepted if the program is, or refused for the same
    reason.
  * `Program.solveOver_mirror`: what the solver answers for it.
  * `Relaxation.simplex_mirror`: and so does the relaxation of a search.
-/
import Milp.Proofs.Residual
import Milp.Proofs.Scalar.Exact

namespace Milp

/-! ## The other direction -/

/-- The other direction. -/
def Sense.flip : Sense → Sense
  | minimize => maximize
  | maximize => minimize

namespace Sense

@[simp] theorem normalize_neg (s : Sense) (a : Exact) : s.normalize (-a) = -s.normalize a := by
  cases s <;> rfl

/-- A value to minimise is the negative one in the other direction. -/
@[simp] theorem flip_normalize (s : Sense) (a : Exact) : s.flip.normalize a = -s.normalize a := by
  cases s
  · rfl
  · exact (Exact.neg_neg a).symm

end Sense

/-- The program with the negative cost in the other direction. -/
def Program.mirror (P : Program Exact) : Program Exact :=
  { P with cost := P.cost.map (-·), sense := P.sense.flip }

def MixedProgram.mirror (M : MixedProgram Exact) : MixedProgram Exact :=
  { M with lp := M.lp.mirror }

namespace Program

variable (P : Program Exact)

@[simp] theorem vars_mirror : P.mirror.vars = P.vars := List.length_map _

@[simp] theorem violation_mirror (x : List Exact) : P.mirror.violation x = P.violation x := rfl

@[simp] theorem objective_mirror (x : List Exact) : P.mirror.objective x = -P.objective x :=
  Exact.dot_neg P.cost x

/-- The cost is finite in both directions, and nothing else that is checked changes. -/
@[simp] theorem validate_mirror : P.mirror.validate = P.validate := by
  have hcost : P.mirror.cost.all Scalar.isFinite = P.cost.all Scalar.isFinite := by
    show (P.cost.map (-·)).all Scalar.isFinite = _
    rw [List.all_map]
    congr 1
    exact funext Exact.isFinite_neg
  unfold validate validateShape validateData validateKinds
  rw [hcost, vars_mirror]
  rfl

@[simp] theorem box_mirror : P.mirror.box = P.box := by
  unfold box givenBox
  rw [vars_mirror]
  rfl

end Program

@[simp] theorem MixedProgram.vars_mirror (M : MixedProgram Exact) : M.mirror.vars = M.vars :=
  M.lp.vars_mirror

/-- A change of a program that no check notices leaves the checked program as it was, apart from
    that change. -/
theorem MixedProgram.ofProgram_edit {F : Type} [Extended F] {P : Program F}
    {f : Program F → Program F} (hvalidate : (f P).validate = P.validate)
    (hbox : (f P).box = P.box) (hkinds : (f P).kinds = P.kinds) :
    MixedProgram.ofProgram (f P) =
      (MixedProgram.ofProgram P).map fun M => { M with lp := f M.lp } := by
  unfold ofProgram varsOf
  rw [hvalidate, hbox, hkinds]
  rcases P.validate with e | _
  · rfl
  rcases P.box with e | box
  · rfl
  simp only [Except.mapError, Bind.bind, Except.bind]
  split
  · rfl
  · rfl

/-- The program in the other direction is accepted as well, or refused for the same reason. -/
theorem MixedProgram.ofProgram_mirror (P : Program Exact) :
    MixedProgram.ofProgram P.mirror = (MixedProgram.ofProgram P).map MixedProgram.mirror :=
  ofProgram_edit P.validate_mirror P.box_mirror rfl

/-- The answer for the program in the other direction. -/
def Answer.mirror : Answer Exact → Answer Exact
  | optimal x objective => optimal x (-objective)
  | answer => answer

namespace Simplex

variable {m n : Nat} {P : Program Exact} {box : Box Exact} {opts : Options Exact}
  {clock : PivotClock} {late : Nat → Bool}

/-- An answer without a point is the same in both directions. -/
theorem mirror_ofReport {report : Report Exact}
    (h : ∀ x objective, report.verdict ≠ .optimal x objective) :
    (Answer.ofReport report).mirror = Answer.ofReport report := by
  unfold Answer.ofReport
  split
  · exact absurd ‹_› (h _ _)
  all_goals rfl

/-- The point is measured in the same way; its objective is the negative one. -/
theorem assess_mirror {form : EqualityForm Exact n} {basis : Basis Exact form.height form.width}
    {phase2 : Nat} {x : List Exact} :
    (assess P.mirror box opts form basis phase2 x).map Answer.ofReport =
      (assess P box opts form basis phase2 x).map fun report =>
        (Answer.ofReport report).mirror := by
  unfold assess
  rw [P.violation_mirror, P.objective_mirror]
  rcases P.violation x with e | rows
  · rfl
  simp only [Bind.bind, Except.bind]
  split <;> rfl

/-! ## Costs as data

The number of variables is the length of the cost, and the dense program has it in its type.  So the
dense programs of the two directions are compared as functions of a cost vector with its length. -/

/-- The matrix as rows of so many cells. -/
def cellsOver (P : Program Exact) (n : Nat) : Except Fault (Vector (Vector Exact n) P.height) :=
  if P.matrix.fits P.height n then .ok (Vector.ofFn fun i => Vector.ofFn fun j => P.matrix.cell i j)
  else .error .outOfRange

/-- The dense rows of a program over a box, with another cost vector. -/
def DenseProgram.ofCost (P : Program Exact) (box : Box Exact) (cost : (n : Nat) × Vector Exact n) :
    Except Fault (DenseProgram Exact P.height cost.1) := do
  let rows ← cellsOver P cost.1
  let equality ← Checked.vector P.height (← P.equalities)
  let lower ← Checked.vector cost.1 box.lower
  let upper ← Checked.vector cost.1 box.upper
  return {
    rows, equality, lower, upper
    rhs := ⟨P.rhs.toArray, rfl⟩
    cost := cost.2 }

/-- The cost to minimise. -/
def costVector (P : Program Exact) : (n : Nat) × Vector Exact n :=
  ⟨P.vars, Vector.map P.sense.normalize ⟨P.cost.toArray, rfl⟩⟩

theorem costVector_ext {c c' : (n : Nat) × Vector Exact n} (h : c.2.toArray = c'.2.toArray) :
    c = c' := by
  obtain ⟨n, ⟨xs, rfl⟩⟩ := c
  obtain ⟨n', ⟨xs', rfl⟩⟩ := c'
  obtain rfl : xs = xs' := h
  rfl

/-- Both directions minimise the same. -/
theorem costVector_mirror (P : Program Exact) : costVector P.mirror = costVector P := by
  refine costVector_ext ?_
  simp [costVector, Program.mirror]

/-- What is done with a dense program. -/
def solveDense (P : Program Exact) (box : Box Exact) (opts : Options Exact) (late : Nat → Bool)
    (D : DenseProgram Exact m n) : Except Fault (Report Exact) := do
  let form := EqualityForm.build D
  match form.solve opts late with
  | .error report => return report
  | .ok (y, phase2, basis) =>
    let slack := opts.feasibility * form.scale
    let intervals := List.zipWith Interval.mk box.lower box.upper
    let x := List.zipWith (snap slack) intervals (← form.recover y)
    assess P box opts form basis phase2 x

/-- The same, from a cost vector on. -/
def solveCost (P : Program Exact) (box : Box Exact) (opts : Options Exact) (late : Nat → Bool)
    (cost : (n : Nat) × Vector Exact n) : Except Fault (Report Exact) :=
  DenseProgram.ofCost P box cost >>= solveDense P box opts late

theorem solveBox_eq (hdomain : box.emptyDomain? opts.feasibility = none) :
    solveBox P box opts clock = solveCost P box opts (opts.late clock) (costVector P) := by
  show _ = DenseProgram.of P box >>= solveDense P box opts (opts.late clock)
  unfold solveBox
  rw [hdomain]
  rcases DenseProgram.of P box with e | D
  · rfl
  simp only [Bind.bind, Except.bind, solveDense]
  rcases (EqualityForm.build D).solve opts (opts.late clock) with report | ⟨y, phase2, basis⟩
  · rfl
  · rfl

theorem solveDense_mirror (D : DenseProgram Exact m n) :
    (solveDense P.mirror box opts late D).map Answer.ofReport =
      (solveDense P box opts late D).map fun report => (Answer.ofReport report).mirror := by
  unfold solveDense
  dsimp only
  rcases hsolve : (EqualityForm.build D).solve opts late with report | ⟨y, phase2, basis⟩
  · exact congrArg Except.ok
      (mirror_ofReport fun _ _ => EqualityForm.not_optimal_of_solve hsolve).symm
  simp only [Bind.bind, Except.bind]
  rcases (EqualityForm.build D).recover y with e | values
  · rfl
  · exact assess_mirror

theorem solveCost_mirror (cost : (n : Nat) × Vector Exact n) :
    (solveCost P.mirror box opts late cost).map Answer.ofReport =
      (solveCost P box opts late cost).map fun report => (Answer.ofReport report).mirror := by
  show (DenseProgram.ofCost P box cost >>= solveDense P.mirror box opts late).map _ = _
  unfold solveCost
  rcases DenseProgram.ofCost P box cost with e | D
  · rfl
  · exact solveDense_mirror D

theorem solveBox_mirror (P : Program Exact) (box : Box Exact) (htime : opts.timeLimit = none)
    (clock clock' : PivotClock) :
    (solveBox P.mirror box opts clock').map Answer.ofReport =
      (solveBox P box opts clock).map fun report => (Answer.ofReport report).mirror := by
  rcases hdomain : box.emptyDomain? opts.feasibility with _ | var
  · rw [solveBox_eq hdomain, solveBox_eq hdomain, Options.late_eq htime, Options.late_eq htime,
      costVector_mirror]
    exact solveCost_mirror (costVector P)
  · unfold solveBox
    rw [hdomain]
    rfl

end Simplex

/-- Two computations that agree on what is made of their results end in the same way. -/
theorem map_eq_map {ε α β γ : Type} {x : Except ε α} {y : Except ε β} {f : α → γ} {g : β → γ}
    (h : x.map f = y.map g) :
    (∃ e, x = .error e ∧ y = .error e) ∨ ∃ a b, x = .ok a ∧ y = .ok b ∧ f a = g b := by
  rcases x with e | a <;> rcases y with e' | b
  · cases h
    exact .inl ⟨e, rfl, rfl⟩
  · cases h
  · cases h
  · exact .inr ⟨a, b, rfl, rfl, Except.ok.inj h⟩

/-- What the solver answers in the other direction. -/
theorem Program.solveOver_mirror (P : Program Exact) (box : Box Exact)
    {opts : Simplex.Options Exact} (htime : opts.timeLimit = none)
    (clock clock' : Simplex.PivotClock) :
    (P.mirror.solveOver box opts clock').map Answer.ofReport =
      (P.solveOver box opts clock).map fun report => (Answer.ofReport report).mirror := by
  unfold solveOver
  rw [P.validate_mirror, P.vars_mirror]
  rcases P.validate with e | _
  · rfl
  simp only [Except.mapError, Bind.bind, Except.bind]
  split
  · rfl
  obtain ⟨e, h', h⟩ | ⟨report', report, h', h, hanswer⟩ :=
    map_eq_map (Simplex.solveBox_mirror P box htime clock clock')
  · rw [h, h']
    rfl
  · rw [h, h']
    exact congrArg Except.ok hanswer

/-- What a search gets from a relaxation: its new state and its answer. -/
def Reply.result {F σ : Type} (reply : Reply F σ) : σ × Answer F := (reply.state, reply.answer)

/-- The simplex solver as a relaxation of the program in the other direction. -/
theorem Relaxation.simplex_mirror {opts : Simplex.Options Exact} (M : MixedProgram Exact)
    (htime : opts.timeLimit = none) (clock clock' : Simplex.PivotClock) (w : Workspace Exact)
    (r : Restrictions Exact) :
    ((Relaxation.simplex M.mirror opts clock').solve w r).map Reply.result =
      ((Relaxation.simplex M opts clock).solve w r).map fun reply =>
        (reply.state, reply.answer.mirror) := by
  simp only [Relaxation.simplex]
  rcases Overlay.apply w.box r with e | overlay
  · rfl
  simp only [Bind.bind, Except.bind]
  obtain ⟨e, h', h⟩ | ⟨report', report, h', h, hanswer⟩ :=
    map_eq_map (M.lp.solveOver_mirror overlay.box htime clock clock')
  · rw [h, show M.mirror.lp.solveOver overlay.box opts clock' = _ from h']
    cases e <;> rfl
  · rw [h, show M.mirror.lp.solveOver overlay.box opts clock' = _ from h']
    exact congrArg (fun answer => Except.ok (_, answer)) hanswer

end Milp
