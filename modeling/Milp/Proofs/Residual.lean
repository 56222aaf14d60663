/-
  How far the incumbents of a search are from its rows and bounds.

  The simplex solver measures every point before it answers.  What it measures against is the box of
  the node, which lies inside the box of the program, so the point violates no bound of the program
  by more.

  * `Box.Numbers`, `Program.numbers_box`: the bounds of a valid program are numbers.
  * `Overlay.apply_eq_ok`: taking an overlay off again gives the box from before.
  * `Program.solveOver_optimal`: an optimal point is within tolerance, per unit of the right-hand
    side.
  * `Search.Engine.Answers.near`: so are the answers of the simplex solver in a search.
  * `MixedProgram.solve_near`: so is the incumbent that a standard search ends with.
-/
import Milp.Proofs.Program
import Milp.Proofs.Provenance
import Milp.Proofs.Scalar.Ordered
import Milp.Search.Run

namespace Milp

variable {F : Type}

/-! ## Boxes -/

section Box

variable [Extended F] [Scalar.Ordered F] {box box' : Box F} {x : List F} {v : F} {i j : Interval F}

/-- A value leaves a wider interval by no more. -/
theorem Interval.excess_le (hlower : i.lower ≤ j.lower) (hupper : j.upper ≤ i.upper)
    (hv : Scalar.isFinite v = true) : i.excess v ≤ j.excess v := by
  have hbelow := Scalar.Ordered.sub_le_sub_right hlower hv
  have habove := Scalar.Ordered.sub_le_sub_left hupper hv
  have hlarger : Scalar.max (i.lower - v) (v - i.upper) ≤
      Scalar.max (j.lower - v) (v - j.upper) := by
    refine Scalar.max_le (Scalar.Ordered.le_trans hbelow ?_) fun _ =>
      Scalar.Ordered.le_trans habove ?_
    · exact Scalar.le_max_left (Scalar.Ordered.refl_of_le hbelow).2
    · exact Scalar.le_max_right (Scalar.Ordered.refl_of_le habove).2
  refine Scalar.max_le (Scalar.Ordered.le_trans hlarger ?_) fun h => Scalar.le_max_right h
  exact Scalar.le_max_left (Scalar.Ordered.refl_of_le hlarger).2

omit [Scalar.Ordered F] in
theorem Box.mem_excesses {e : F} :
    e ∈ List.zipWith Interval.excess (List.zipWith Interval.mk box.lower box.upper) x ↔
      ∃ var i v, box.interval var = .ok i ∧ x[var]? = some v ∧ i.excess v = e := by
  rw [List.mem_iff_getElem?]
  simp only [List.getElem?_zipWith_eq_some, Box.interval_eq_ok]
  constructor
  · rintro ⟨var, i, v, ⟨l, u, hl, hu, rfl⟩, hv, rfl⟩
    exact ⟨var, ⟨l, u⟩, v, ⟨hl, hu⟩, hv, rfl⟩
  · rintro ⟨var, i, v, ⟨hl, hu⟩, hv, rfl⟩
    exact ⟨var, i, v, ⟨_, _, hl, hu, rfl⟩, hv, rfl⟩

/-- All bounds are numbers. -/
structure Box.Numbers (box : Box F) : Prop where
  lower : ∀ l ∈ box.lower, l ≤ l
  upper : ∀ u ∈ box.upper, u ≤ u

omit [Scalar.Ordered F] in
theorem Box.Numbers.put (h : box.Numbers) (var : Nat) (hlower : i.lower ≤ i.lower)
    (hupper : i.upper ≤ i.upper) : (box.put var i).Numbers := by
  constructor
  · intro l hl
    rcases List.mem_or_eq_of_mem_set hl with hl | rfl
    · exact h.lower l hl
    · exact hlower
  · intro u hu
    rcases List.mem_or_eq_of_mem_set hu with hu | rfl
    · exact h.upper u hu
    · exact hupper

omit [Extended F] [Scalar.Ordered F] in
theorem mem_modify {α : Type} {xs : List α} {k : Nat} {f : α → α} {y : α}
    (h : y ∈ xs.modify k f) : y ∈ xs ∨ ∃ a ∈ xs, y = f a := by
  obtain ⟨n, hn⟩ := List.mem_iff_getElem?.1 h
  rw [List.getElem?_modify] at hn
  obtain ⟨a, ha, rfl⟩ := Option.map_eq_some_iff.1 hn
  have hmem := List.mem_of_getElem? ha
  by_cases hk : k = n
  · exact .inr ⟨a, hmem, by simp [hk]⟩
  · exact .inl (by simpa [hk] using hmem)

omit [Scalar.Ordered F] in
theorem Box.Numbers.cut {var : Nat} (h : box.Numbers) (hlower : i.lower ≤ i.lower)
    (hupper : i.upper ≤ i.upper) (hcut : box.cut var i = .ok box') : box'.Numbers := by
  obtain ⟨-, -, rfl⟩ := Box.cut_eq_ok.1 hcut
  constructor
  · intro l hl
    rcases mem_modify hl with hl | ⟨a, ha, rfl⟩
    · exact h.lower l hl
    · rcases Scalar.max_choice a i.lower with heq | heq
      · rw [heq]; exact h.lower a ha
      · rw [heq]; exact hlower
  · intro u hu
    rcases mem_modify hu with hu | ⟨a, ha, rfl⟩
    · exact h.upper u hu
    · rcases Scalar.min_choice a i.upper with heq | heq
      · rw [heq]; exact h.upper a ha
      · rw [heq]; exact hupper

/-- What is left of an interval under restrictions lies inside it. -/
theorem Restrictions.effective_inside (r : Restrictions F) (var : Nat) (hlower : i.lower ≤ i.lower)
    (hupper : i.upper ≤ i.upper) :
    i.lower ≤ (r.effective var i).lower ∧ (r.effective var i).upper ≤ i.upper := by
  unfold Restrictions.effective
  cases r.get? var with
  | none => exact ⟨hlower, hupper⟩
  | some j => exact ⟨Scalar.le_max_left hlower, Scalar.min_le_left hupper⟩

theorem Box.zero_le_violation (box : Box F) (x : List F) : 0 ≤ box.violation x :=
  Scalar.le_foldl_max Scalar.zero_le_zero _

/-- A point violates the bounds by no more than under restrictions. -/
theorem Box.Numbers.violation_le {r : Restrictions F} (h : box.Numbers)
    (hbox : r.applyTo box = .ok box') (hx : x.all Scalar.isFinite = true) :
    box.violation x ≤ box'.violation x := by
  refine Scalar.foldl_max_le (box'.zero_le_violation x) fun e he _ => ?_
  obtain ⟨var, i, v, hi, hv, rfl⟩ := Box.mem_excesses.1 he
  obtain ⟨hl, hu⟩ := Box.interval_eq_ok.1 hi
  obtain ⟨hlower, hupper⟩ := r.effective_inside var (h.lower _ (List.mem_of_getElem? hl))
    (h.upper _ (List.mem_of_getElem? hu))
  have hle := Interval.excess_le hlower hupper
    (List.all_eq_true.1 hx v (List.mem_of_getElem? hv))
  refine Scalar.Ordered.le_trans hle ?_
  exact Scalar.le_foldl_max_of_mem Scalar.zero_le_zero (Scalar.Ordered.refl_of_le hle).2
    (Box.mem_excesses.2 ⟨var, _, v, Restrictions.applyTo_interval hbox hi, hv, rfl⟩)

end Box

/-! ## Programs -/

section Program

variable [Extended F] [Scalar.Ordered F] {P : Program F}

theorem Program.zero_le_violation {x : List F} {v : F} (h : P.violation x = .ok v) : 0 ≤ v := by
  unfold Program.violation at h
  rcases hactivities : P.activities x with e | ax
  · rw [hactivities] at h; cases h
  rcases hflags : P.firstEqualities P.height with e | flags
  · rw [hactivities, hflags] at h; cases h
  rw [hactivities, hflags] at h
  cases h
  exact Scalar.le_foldl_max Scalar.zero_le_zero _

/-- The bounds of an entry that passes its check are numbers. -/
theorem VarBound.numbers {vars : Nat} {b : VarBound F} (h : b.validate vars = .ok ()) :
    (∀ l ∈ b.lower, l ≤ l) ∧ ∀ u ∈ b.upper, u ≤ u := by
  unfold VarBound.validate at h
  split at h
  · cases h
  · split at h
    · cases h
    · rename_i hnumber
      rw [Bool.or_eq_true, not_or] at hnumber
      constructor
      · intro l hl
        by_contra hle
        rw [Option.mem_def.1 hl] at hnumber
        exact hnumber.1 (Scalar.Ordered.isNaN_iff.2 hle)
      · intro u hu
        by_contra hle
        rw [Option.mem_def.1 hu] at hnumber
        exact hnumber.2 (Scalar.Ordered.isNaN_iff.2 hle)

theorem Program.Valid.numbers_givenBox (h : P.Valid) : P.givenBox.Numbers := by
  refine List.foldlRecOn (motive := Box.Numbers) _ _ ⟨fun l hl => ?_, fun u hu => ?_⟩
    fun box hbox b hb => ?_
  · rw [List.eq_of_mem_replicate hl]
    exact Scalar.zero_le_zero
  · rw [List.eq_of_mem_replicate hu]
    exact Scalar.Ordered.infinity_le
  · obtain ⟨hlower, hupper⟩ := VarBound.numbers (h.bounds b (List.mem_of_mem_filter hb))
    refine hbox.put b.var ?_ ?_
    · cases hl : b.lower with
      | none => exact Scalar.Ordered.neg_infinity_le
      | some l => exact hlower l hl
    · cases hu : b.upper with
      | none => exact Scalar.Ordered.infinity_le
      | some u => exact hupper u hu

/-- The bounds of a valid program are numbers. -/
theorem Program.Valid.numbers_box {box : Box F} (h : P.Valid) (hbox : P.box = .ok box) :
    box.Numbers := by
  refine foldlM_induction (fun entry _ b next hb hnext => ?_) hbox h.numbers_givenBox
  obtain ⟨kind, k⟩ := entry
  by_cases hkind : kind = .binary
  · simp only [hkind, if_true] at hnext
    exact hb.cut Scalar.zero_le_zero Scalar.one_le_one hnext
  · simp only [hkind, if_false] at hnext
    cases hnext
    exact hb

end Program

/-! ## Overlays -/

section Overlay

variable [Scalar F]

omit [Scalar F] in
theorem set_modify {α : Type} {xs : List α} {k : Nat} {f : α → α} {a : α} (h : xs[k]? = some a) :
    (xs.modify k f).set k a = xs := by
  ext n b
  rw [List.getElem?_set, List.getElem?_modify, List.length_modify]
  by_cases hk : k = n
  · obtain ⟨hlt, -⟩ := List.getElem?_eq_some_iff.1 h
    rw [if_pos hk, if_pos hlt, ← hk, h]
  · rw [if_neg hk]
    simp [hk]

theorem Box.put_of_cut {box box' : Box F} {var : Nat} {i before : Interval F}
    (hbefore : box.interval var = .ok before) (hcut : box.cut var i = .ok box') :
    box'.put var before = box := by
  obtain ⟨-, -, rfl⟩ := Box.cut_eq_ok.1 hcut
  obtain ⟨hl, hu⟩ := Box.interval_eq_ok.1 hbefore
  rw [Box.put, set_modify hl, set_modify hu]

theorem Overlay.push_eq_ok {o o' : Overlay F} {var : Nat} {i : Interval F}
    (h : o.push var i = .ok o') :
    o.box.restrict (var, i) = .ok o'.box ∧ o'.restore = o.restore := by
  unfold Overlay.push at h
  unfold Box.restrict
  split at h
  · rename_i hlt
    rw [if_pos hlt]
    rcases hbefore : o.box.interval var with e | before
    · rw [hbefore] at h; cases h
    rcases hcut : o.box.cut var i with e | box
    · rw [hbefore, hcut] at h; cases h
    rw [hbefore, hcut] at h
    cases h
    refine ⟨rfl, ?_⟩
    show o.saved.foldl _ (box.put var before) = o.saved.foldl _ o.box
    rw [Box.put_of_cut hbefore hcut]
  · rename_i hlt
    cases h
    rw [if_neg hlt]
    exact ⟨rfl, rfl⟩

/-- An overlay has the restrictions in its box, and taking it off gives the box from before. -/
theorem Overlay.apply_eq_ok {box : Box F} {r : Restrictions F} {o : Overlay F}
    (h : Overlay.apply box r = .ok o) : r.applyTo box = .ok o.box ∧ o.restore = box := by
  have hfold : ∀ (entries : List (Nat × Interval F)) (start : Overlay F),
      entries.foldlM (fun o entry => o.push entry.1 entry.2) start = .ok o →
      entries.foldlM Box.restrict start.box = .ok o.box ∧ o.restore = start.restore := by
    intro entries
    induction entries with
    | nil =>
      intro start hfold
      cases hfold
      exact ⟨rfl, rfl⟩
    | cons entry rest ih =>
      intro start hfold
      obtain ⟨var, i⟩ := entry
      rw [List.foldlM_cons] at hfold ⊢
      rcases hpush : start.push var i with e | next
      · simp only [hpush] at hfold; cases hfold
      · simp only [hpush] at hfold
        obtain ⟨hbox, hrestore⟩ := Overlay.push_eq_ok hpush
        obtain ⟨hrest, hrestored⟩ := ih next hfold
        simp only [hbox]
        exact ⟨hrest, hrestored.trans hrestore⟩
  exact hfold r.entries ⟨box, []⟩ h

end Overlay

/-! ## The simplex solver -/

namespace Simplex

section Phases

variable [Scalar F] {n : Nat} {opts : Options F} {late : Nat → Bool} {form : EqualityForm F n}
  {x : List F} {objective : F} {report : Report F}

omit [Scalar F] in
/-- Without a time limit it is never late. -/
theorem Options.late_eq (h : opts.timeLimit = none) (clock : PivotClock) :
    opts.late clock = fun _ => false := by
  funext k
  simp [Options.late, h]

theorem EqualityForm.not_optimal_of_phase1 (h : form.phase1 opts late = .error report) :
    report.verdict ≠ .optimal x objective := by
  unfold EqualityForm.phase1 at h
  dsimp only at h
  split at h
  · split at h
    · unfold EqualityForm.feasible at h
      dsimp only at h
      split at h
      · cases h
        intro hverdict
        cases hverdict
      · cases h
    all_goals
      cases h
      intro hverdict
      cases hverdict
  · cases h

theorem EqualityForm.not_optimal_of_phase2 {basis : Basis F form.height form.width}
    (h : form.phase2 opts late basis = .error report) : report.verdict ≠ .optimal x objective := by
  unfold EqualityForm.phase2 at h
  dsimp only at h
  split at h
  · cases h
  all_goals
    cases h
    intro hverdict
    cases hverdict

/-- A solve that is broken off does not answer with a point. -/
theorem EqualityForm.not_optimal_of_solve (h : form.solve opts late = .error report) :
    report.verdict ≠ .optimal x objective := by
  unfold EqualityForm.solve at h
  rcases hphase1 : form.phase1 opts late with r | basis
  · rw [hphase1] at h
    cases h
    exact EqualityForm.not_optimal_of_phase1 hphase1
  · rw [hphase1] at h
    simp only [Bind.bind, Except.bind] at h
    split at h
    · cases h
    · rcases hphase2 : form.phase2 opts late basis with r | ⟨y, pivots⟩
      · rw [hphase2] at h
        cases h
        exact EqualityForm.not_optimal_of_phase2 hphase2
      · rw [hphase2] at h
        cases h

end Phases

variable [Extended F] [Scalar.Ordered F] {P : Program F} {box : Box F} {opts : Options F}
  {x : List F} {objective : F} {report : Report F}

/-- The scale of an equality form is at least one. -/
theorem EqualityForm.one_le_scale {n : Nat} (form : EqualityForm F n) : 1 ≤ form.scale := by
  have hfold : form.scale = (form.rows.toList.map fun row => Scalar.abs row.rhs).foldl
      Scalar.max 1 := by
    rw [List.foldl_map]
    rfl
  rw [hfold]
  exact Scalar.le_foldl_max Scalar.one_le_one _

/-- A point that is answered is within tolerance of the rows and of the box. -/
theorem assess_optimal {n : Nat} {form : EqualityForm F n}
    {basis : Basis F form.height form.width} {phase2 : Nat} {y : List F}
    (hpositive : 0 < opts.residual)
    (h : assess P box opts form basis phase2 y = .ok report)
    (hoptimal : report.verdict = .optimal x objective) :
    ∃ rows, P.violation x = .ok rows ∧ rows ≤ opts.residual * form.scale ∧
      box.violation x ≤ opts.residual * form.scale := by
  unfold assess at h
  rcases hrows : P.violation y with e | rows
  · rw [hrows] at h; cases h
  rw [hrows] at h
  simp only [Bind.bind, Except.bind] at h
  split at h
  · cases h
    cases hoptimal
  · rename_i hguard
    cases h
    cases hoptimal
    rw [Bool.or_eq_true, not_or, Bool.not_eq_true', Bool.not_eq_false, decide_eq_true_iff] at hguard
    obtain ⟨hfinite, hbelow⟩ := hguard
    have htolerance := Scalar.Ordered.mul_le_mul_self hpositive
      (Scalar.pos_of_one_le form.one_le_scale)
    have hle := (Scalar.Ordered.not_lt htolerance (Scalar.Ordered.le_of_isFinite hfinite)).1 hbelow
    have hnumber := (Scalar.Ordered.refl_of_le (Program.zero_le_violation hrows)).2
    have hnumber' := (Scalar.Ordered.refl_of_le (box.zero_le_violation x)).2
    exact ⟨rows, hrows, Scalar.Ordered.le_trans (Scalar.le_max_left hnumber) hle,
      Scalar.Ordered.le_trans (Scalar.le_max_right hnumber') hle⟩

end Simplex

/-- The scale by which points are measured that are answered for a program over a box: the largest
    magnitude of a right-hand side of its equality form, at least one. -/
def Program.scaleOver [Scalar F] (P : Program F) (box : Box F) : Except Fault F := do
  return (Simplex.EqualityForm.build (← Simplex.DenseProgram.of P box)).scale

section Solve

variable [Extended F] [Scalar.Ordered F] {P : Program F} {box : Box F} {opts : Simplex.Options F}
  {clock : Simplex.PivotClock} {x : List F} {objective : F} {report : Simplex.Report F}

theorem Simplex.solveBox_optimal (hpositive : 0 < opts.residual)
    (h : Simplex.solveBox P box opts clock = .ok report)
    (hoptimal : report.verdict = .optimal x objective) :
    ∃ scale rows, P.scaleOver box = .ok scale ∧ P.violation x = .ok rows ∧
      rows ≤ opts.residual * scale ∧ box.violation x ≤ opts.residual * scale := by
  unfold Simplex.solveBox at h
  rcases hdomain : box.emptyDomain? opts.feasibility with _ | var
  · rcases hdense : Simplex.DenseProgram.of P box with e | D
    · rw [hdomain, hdense] at h; cases h
    have hscale : P.scaleOver box = .ok (Simplex.EqualityForm.build D).scale := by
      rw [Program.scaleOver, hdense]
      rfl
    rw [hdomain, hdense] at h
    simp only [Bind.bind, Except.bind, pure, Except.pure] at h
    rcases hsolve : (Simplex.EqualityForm.build D).solve opts (opts.late clock) with
      r | ⟨y, phase2, basis⟩
    · rw [hsolve] at h
      cases h
      exact absurd hoptimal (Simplex.EqualityForm.not_optimal_of_solve hsolve)
    · rw [hsolve] at h
      simp only at h
      rcases hrecover : (Simplex.EqualityForm.build D).recover y with e | values
      · rw [hrecover] at h; cases h
      rw [hrecover] at h
      obtain ⟨rows, hrows, hle, hbounds⟩ := Simplex.assess_optimal hpositive h hoptimal
      exact ⟨_, rows, hscale, hrows, hle, hbounds⟩
  · rw [hdomain] at h
    cases h
    cases hoptimal

/-- A point that is answered for a program over a box is within tolerance of the rows and of the
    box. -/
theorem Program.solveOver_optimal (hpositive : 0 < opts.residual)
    (h : P.solveOver box opts clock = .ok report)
    (hoptimal : report.verdict = .optimal x objective) :
    ∃ scale rows, P.scaleOver box = .ok scale ∧ P.violation x = .ok rows ∧
      rows ≤ opts.residual * scale ∧ box.violation x ≤ opts.residual * scale := by
  unfold Program.solveOver at h
  rcases hvalid : P.validate with e | _
  · rw [hvalid] at h; cases h
  rw [hvalid] at h
  delta Except.mapError at h
  simp only [Bind.bind, Except.bind] at h
  split at h
  · cases h
  · rcases hsolve : Simplex.solveBox P box opts clock with e | r
    · rw [hsolve] at h; cases h
    rw [hsolve] at h
    cases h
    exact Simplex.solveBox_optimal hpositive hsolve hoptimal

end Solve

/-! ## Searches -/

/-- A point has the size of a program and is within a tolerance of its rows and bounds. -/
structure MixedProgram.Near [Scalar F] (M : MixedProgram F) (x : List F) (tolerance : F) :
    Prop where
  length : x.length = M.vars
  rows : M.rowsHold x tolerance = .ok true
  bounds : M.box.violation x ≤ tolerance

/-- Between solves the working box is the one of the program. -/
theorem Relaxation.Visited.box_eq [Scalar F] {M : MixedProgram F} {opts : Simplex.Options F}
    {clock : Simplex.PivotClock} {start w : Workspace F}
    (h : (Relaxation.simplex M opts clock).Visited start w) : w.box = start.box := by
  induction h with
  | start => rfl
  | @solve w r reply hvisited hsolve ih =>
    simp only [Relaxation.simplex] at hsolve
    rcases hoverlay : Overlay.apply w.box r with e | o
    · rw [hoverlay] at hsolve; cases hsolve
    obtain ⟨-, hrestore⟩ := Overlay.apply_eq_ok hoverlay
    rw [hoverlay] at hsolve
    simp only [Bind.bind, Except.bind] at hsolve
    split at hsolve
    · cases hsolve
      exact hrestore.trans ih
    · cases hsolve
      exact hrestore.trans ih
    · cases hsolve

namespace Search

variable [Extended F] [Scalar.Ordered F] {β κ : Type}

/-- The answers of the simplex solver in a search: the point is optimal for the program over the box
    of the region, and within tolerance of the rows and bounds of the program. -/
theorem Engine.Answers.near {E : Engine F (Workspace F) β κ} {opts : Simplex.Options F}
    {clock : Simplex.PivotClock} {start : Workspace F} {r : Restrictions F} {x : List F}
    {objective : F} (hrelaxation : E.relaxation = Relaxation.simplex E.problem opts clock)
    (hstart : start.box = E.problem.box) (hnumbers : E.problem.box.Numbers)
    (hpositive : 0 < opts.residual) (h : E.Answers start r (.optimal x objective)) :
    ∃ box report scale, r.applyTo E.problem.box = .ok box ∧
      E.problem.lp.solveOver box opts clock = .ok report ∧ report.verdict = .optimal x objective ∧
      E.problem.lp.scaleOver box = .ok scale ∧ E.problem.Near x (opts.residual * scale) := by
  obtain ⟨hlength, -, hfinite⟩ := h.finite
  obtain ⟨w, reply, hvisited, hsolve, hanswer⟩ := h
  rw [hrelaxation] at hvisited hsolve
  have hbox := hvisited.box_eq.trans hstart
  simp only [Relaxation.simplex] at hsolve
  rcases hoverlay : Overlay.apply w.box r with e | o
  · rw [hoverlay] at hsolve; cases hsolve
  obtain ⟨happly, -⟩ := Overlay.apply_eq_ok hoverlay
  rw [hbox] at happly
  rw [hoverlay] at hsolve
  simp only [Bind.bind, Except.bind] at hsolve
  have hreply := (Answer.check_eq_optimal hanswer.symm).1
  split at hsolve
  · rename_i report hreport
    cases hsolve
    have hverdict : report.verdict = .optimal x objective := by
      simp only [Answer.ofReport] at hreply
      split at hreply
      · rename_i hverdict
        cases hreply
        exact hverdict
      all_goals cases hreply
    obtain ⟨scale, rows, hscale, hrows, hle, hbounds⟩ :=
      Program.solveOver_optimal hpositive hreport hverdict
    refine ⟨o.box, report, scale, happly, hreport, hverdict, hscale, hlength, ?_, ?_⟩
    · rw [MixedProgram.rowsHold, hrows]
      exact congrArg Except.ok (decide_eq_true hle)
    · exact Scalar.Ordered.le_trans (hnumbers.violation_le happly hfinite) hbounds
  · cases hsolve
    cases hreply
  · cases hsolve

end Search

/-- **Feasibility of the incumbent.**  The incumbent that a standard search ends with is an optimal
    point, as far as the simplex solver can tell, of the program over the box of some region.  It is
    finite and whole on the candidates, and what it violates rows and bounds by is at most `1e-6`
    per unit of the right-hand sides of that region. -/
theorem MixedProgram.solve_near {P : Program Float} {M : MixedProgram Float}
    {candidates : List Nat} {settings : Settings Float} {clock : SearchClock}
    {pivotClock : Simplex.PivotClock} {steps : Nat} {solution : Solution Float}
    {s : Search.State Float (Workspace Float) Unit Unit} {i : Incumbent Float}
    (hM : MixedProgram.ofProgram P = .ok M) (hresidual : settings.relaxation.residual = 1e-6)
    (hsolve : M.solve candidates settings clock pivotClock steps = .ok (some solution) s)
    (hi : solution.incumbent = some i) :
    i.origin = .relaxation ∧ i.x.all Scalar.isFinite = true ∧
    fractional i.x settings.integrality candidates = .ok [] ∧
    ∃ (r : Restrictions Float) (box : Box Float) (report : Simplex.Report Float)
      (objective scale : Float), r.applyTo M.box = .ok box ∧
      (M.redirect settings.sense).lp.solveOver box settings.relaxation pivotClock = .ok report ∧
      report.verdict = .optimal i.x objective ∧
      (M.redirect settings.sense).lp.scaleOver box = .ok scale ∧ M.Near i.x (1e-6 * scale) := by
  obtain ⟨rfl, hvalid, hbox⟩ := MixedProgram.ofProgram_eq_ok hM
  unfold MixedProgram.solve at hsolve
  dsimp only at hsolve
  split at hsolve
  · cases hsolve
  · obtain ⟨earned, hearned, rfl⟩ := Search.solve_earned hsolve hi
    cases hearned with
    | heuristic hcallback => cases hcallback
    | @relaxation r x objective id foundAt hanswers hwhole =>
      have hpositive : 0 < settings.relaxation.residual := by
        rw [hresidual]
        decide +kernel
      obtain ⟨box, report, scale, happly, hreport, hverdict, hscale, hlength, hrows, hbounds⟩ :=
        hanswers.near rfl rfl (hvalid.numbers_box hbox) hpositive
      rw [hresidual] at hrows hbounds
      exact ⟨rfl, hanswers.finite.2.2, hwhole, r, box, report, objective, scale, happly, hreport,
        hverdict, hscale, hlength, hrows, hbounds⟩

/-- The rows `x₀ = 1` and `x₀ ≤ 0.995` contradict each other, but the tolerances grow with the
    largest bound, which is the one of `x₁`. -/
def pinned : MixedProgram Float where
  lp :=
    { cost := [0, 0]
      matrix := ⟨2, 2, [[(0, 1), (1, 1)], []], rfl, by simp; omega, by simp [Column.Sorted]⟩
      rhs := [1, 0.995]
      blocks := [.equality 1, .atMost 1]
      bounds := some [⟨0, some 0, some 1⟩, ⟨1, some 0, some 1e7⟩]
      kinds := some [.integer, .continuous] }
  integers := [0]
  binaries := []
  box := ⟨[0, 0], [1, 1e7]⟩

theorem pinned_ok : MixedProgram.ofProgram pinned.lp = .ok pinned :=
  MixedProgram.ofProgram_ok (by decide +kernel) (by decide +kernel) (by decide +kernel)

/-- The search of `pinned`, with a clock that does not move. -/
def pinnedSearch : EStateM.Result (SearchError Float)
    (Search.State Float (Workspace Float) Unit Unit) (Option (Solution Float)) :=
  pinned.solve [0] Settings.standard (SearchClock.stopped ⟨0⟩) Simplex.PivotClock.still 10

/-- The search answers `x₀ = 1` as optimal. -/
theorem pinned_solved : ∃ solution s i, pinnedSearch = .ok (some solution) s ∧
    solution.status = .optimal ∧ solution.incumbent = some i ∧ i.x = [1, 0] := by
  have hrun : Search.outcome? Incumbent.x pinnedSearch = some (.optimal, some [1, 0]) := by
    decide +kernel
  obtain ⟨solution, s, hsolve, hstatus, i, hi, hx⟩ := Search.outcome?_eq_some hrun
  exact ⟨solution, s, i, hsolve, hstatus, hi, hx⟩

/-- The answer violates the second row by `0.005`. -/
theorem pinned_optimal_not_feasible : MixedProgram.ofProgram pinned.lp = .ok pinned ∧
    ∃ solution s i, pinned.solve [0] Settings.standard (SearchClock.stopped ⟨0⟩)
        Simplex.PivotClock.still 10 = .ok (some solution) s ∧
      solution.status = .optimal ∧ solution.incumbent = some i ∧
      pinned.feasible i.x Settings.standard.feasibility = .ok false := by
  obtain ⟨solution, s, i, hsolve, hstatus, hi, hx⟩ := pinned_solved
  refine ⟨pinned_ok, solution, s, i, hsolve, hstatus, hi, ?_⟩
  rw [hx]
  decide +kernel

/-- The scale of `pinned` is the bound of `x₁`. -/
theorem MixedProgram.solve_near_pinned : ∃ i : Incumbent Float, i.x = [1, 0] ∧
    ∃ (r : Restrictions Float) (box : Box Float) (scale : Float),
      r.applyTo pinned.box = .ok box ∧ pinned.lp.scaleOver box = .ok scale ∧
      pinned.Near i.x (1e-6 * scale) := by
  obtain ⟨solution, s, i, hsolve, -, hi, hx⟩ := pinned_solved
  obtain ⟨-, -, -, r, box, report, objective, scale, happly, -, -, hscale, hnear⟩ :=
    MixedProgram.solve_near pinned_ok rfl hsolve hi
  exact ⟨i, hx, r, box, scale, happly, hscale, hnear⟩

end Milp
