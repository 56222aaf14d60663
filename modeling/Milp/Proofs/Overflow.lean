/-
  Proposals whose values overflow.

  What is checked of a proposal goes through maxima, and these pass over values that are no numbers;
  the distance between the reported and the actual objective is allowed to grow with the actual one;
  and the first incumbent has to be finite, but what replaces it only has to be smaller.  So a point
  with finite values is accepted where its objective overflows in the direction of the search, or
  where an activity is a sum of two infinities.  Nothing else gets past the check.

  * `Program.RowsKept`: the activities, as they are computed, keep their rows within a tolerance, as
    far as they are numbers; `Program.Valid.rowsKept`: so they do if the rows pass their check.
  * `Tracker.finite_of_improves`: an objective that improves on an incumbent is finite or overflows.
  * `Config.IncumbentFinite`: the incumbent of a search; `Move.incumbent_finite`: every move keeps
    it so.
  * `check_overflow`: what an accepted proposal and an incumbent are known for.
-/
import Milp.Proofs.Configuration
import Milp.Proofs.Feasibility
import Milp.Proofs.Provenance
import Milp.Proofs.Scalar.Ranked
import Milp.Proofs.Scalar.Strict

namespace Milp

variable {F : Type} [Extended F]

/-! ## Rows -/

namespace Program

variable {P : Program F} {tolerance a b : F} {i : Nat} {x : List F}

/-- An activity, as it is computed, keeps its row within a tolerance. -/
def RowHolds (P : Program F) (tolerance : F) (i : Nat) (activity rhs : F) : Prop :=
  (P.InEquality i → Scalar.abs (activity - rhs) ≤ tolerance) ∧
    (¬ P.InEquality i → activity - rhs ≤ tolerance)

/-- Each row has an activity, which keeps it unless it is no number. -/
def RowsKept (P : Program F) (tolerance : F) (x : List F) : Prop :=
  ∃ ax, P.activities x = .ok ax ∧ ax.length = P.height ∧ ∀ i a b, ax[i]? = some a →
    P.rhs[i]? = some b → Scalar.isNaN a = true ∨ P.RowHolds tolerance i a b

/-- There is a flag for each row, also where the sizes of the blocks wrap. -/
theorem Valid.exists_flag (h : P.Valid) {flags : List Bool}
    (hflags : P.firstEqualities P.height = .ok flags) (hi : i < P.height) :
    ∃ f, flags[i]? = some f ∧ (f = true ↔ P.InEquality i) := by
  have hle : P.height ≤ P.blockRows := by
    rw [← h.blockTotal_eq]
    exact Nat.mod_le _ _
  rw [Program.blockRows_eq] at hle
  refine ⟨(P.blocks.flatMap Block.flags)[i], ?_, ?_⟩
  · rw [flags_of_firstEqualities hflags, List.getElem?_take_of_lt hi]
    exact List.getElem?_eq_getElem (hi.trans_le hle)
  · rw [InEquality, ← Block.getElem?_flatMap_flags, List.getElem?_eq_getElem (hi.trans_le hle),
      Option.some_inj]

omit [Extended F] in
theorem length_of_amend {α : Type} {xs ys : List α} {f : α → α} (h : amend xs i f = .ok ys) :
    ys.length = xs.length := by
  unfold amend at h
  split at h
  · cases h
    exact List.length_modify ..
  · cases h

theorem length_contribute {xj : F} {c : Column F} {ax ax' : List F}
    (h : contribute xj c ax = .ok ax') : ax'.length = ax.length := by
  induction c generalizing ax with
  | nil =>
    cases h
    rfl
  | cons e rest ih =>
    rw [contribute, List.foldlM_cons] at h
    rcases hamend : amend ax e.1 (fun a => a + e.2 * xj) with fault | next
    · simp only [hamend] at h
      cases h
    · simp only [hamend] at h
      rw [ih h, length_of_amend hamend]

theorem length_gather {cs : List (Column F)} {ax ax' : List F} (h : gather cs x ax = .ok ax') :
    ax'.length = ax.length := by
  induction cs generalizing x ax with
  | nil =>
    cases h
    rfl
  | cons c cs ih =>
    rcases x with _ | ⟨xj, xs⟩
    · cases h
    rw [gather] at h
    split at h
    · exact ih h
    · rcases hcolumn : contribute xj c ax with fault | next
      · rw [hcolumn] at h
        cases h
      · rw [hcolumn] at h
        rw [ih h, length_contribute hcolumn]

/-- There is one activity for each row. -/
theorem length_activities {ax : List F} (h : P.activities x = .ok ax) : ax.length = P.height := by
  rw [length_gather h, List.length_replicate]

variable [Scalar.Ordered F] [Scalar.Strict F]

/-- The excess of a row is a number if the activity is one, and bounds what the row is violated
    by. -/
theorem le_rowExcess (ha : a ≤ a) (hb : Scalar.isFinite b = true) (equality : Bool) :
    (if equality then Scalar.abs (a - b) else a - b) ≤ rowExcess a b equality := by
  have hsub : a - b ≤ a - b := Scalar.Ordered.sub_le_sub_right ha hb
  cases equality with
  | true => exact Scalar.Strict.abs_le_abs_self hsub
  | false => exact Scalar.le_max_left hsub

/-- Rows that pass their check are kept. -/
theorem Valid.rowsKept (h : P.Valid) {amount : F}
    (hamount : P.violation x = .ok amount) (hpassed : ¬ tolerance < amount)
    (htolerance : Scalar.isFinite tolerance = true) : P.RowsKept tolerance x := by
  have hzero := zero_le_violation hamount
  unfold violation at hamount
  rcases hax : P.activities x with e | ax
  · rw [hax] at hamount; cases hamount
  rcases hflags : P.firstEqualities P.height with e | flags
  · rw [hax, hflags] at hamount; cases hamount
  rw [hax, hflags] at hamount
  obtain rfl := Except.ok.inj hamount
  refine ⟨ax, hax, length_activities hax, fun i a b ha hb =>
    or_iff_not_imp_left.2 fun hnumber => ?_⟩
  have hnumber : a ≤ a := by rwa [Scalar.Ordered.isNaN_iff, not_not] at hnumber
  have hfinite := List.all_eq_true.1 h.finite.2.1 b (List.mem_of_getElem? hb)
  obtain ⟨f, hf, hequality⟩ := h.exists_flag hflags (List.getElem?_eq_some_iff.1 hb).1
  -- the excess of the row is among those of which the violation is the largest
  have hexcess := le_rowExcess hnumber hfinite f
  have hmem : rowExcess a b f ∈ List.zipWith (fun a row => rowExcess a row.1 row.2) ax
      (P.rhs.zip flags) := List.mem_iff_getElem?.2 ⟨i, List.getElem?_zipWith_eq_some.2
        ⟨a, (b, f), ha, List.getElem?_zip_eq_some.2 ⟨hb, hf⟩, rfl⟩⟩
  have hviolation := Scalar.le_foldl_max_of_mem Scalar.zero_le_zero
    (Scalar.Ordered.refl_of_le hexcess).2 hmem
  have hle := (Scalar.Ordered.not_lt (Scalar.Ordered.le_of_isFinite htolerance)
    (Scalar.Ordered.refl_of_le hzero).2).1 hpassed
  have hkept := Scalar.Ordered.le_trans (Scalar.Ordered.le_trans hexcess hviolation) hle
  refine ⟨fun hin => ?_, fun hnot => ?_⟩
  · rwa [if_pos (hequality.2 hin)] at hkept
  · rwa [if_neg (mt hequality.1 hnot)] at hkept

end Program

/-! ## Objectives -/

/-- An objective overflows in the direction of the search: in minimisation it is `-∞`. -/
def Sense.Overflows (s : Sense) (objective : F) : Prop :=
  s.normalize objective = -Extended.infinity

variable [Scalar.Strict F] [Scalar.Ranked F]

/-- An objective that improves on what a tracker has is finite, or there is an incumbent and it
    overflows. -/
theorem Tracker.finite_of_improves {t : Tracker F} {objective tolerance : F}
    (h : t.improves objective tolerance = true) :
    Scalar.isFinite objective = true ∨ t.best.isSome = true ∧ t.sense.Overflows objective := by
  unfold improves at h
  split at h
  · exact .inl h
  · rename_i i hbest
    rcases Scalar.Strict.finite_or_eq_of_lt (of_decide_eq_true h) with hfinite | hinfinite
    · have hback := t.sense.isFinite_normalize hfinite
      rw [Sense.normalize_normalize] at hback
      exact .inl hback
    · exact .inr ⟨Option.isSome_iff_exists.2 ⟨i, hbest⟩, hinfinite⟩

/-- What an accepted proposal is known for.  Its objective is computed anew, and it is finite,
    unless it replaces an incumbent and overflows.  The rows are kept. -/
structure Proposal.Sound (M : MixedProgram F) (tracker : Tracker F) (tolerance : F)
    (p : Proposal F) (objective : F) : Prop where
  objective_eq : objective = M.objective p.x
  finite : Scalar.isFinite objective = true ∨
    tracker.best.isSome = true ∧ tracker.sense.Overflows objective
  rows : M.lp.RowsKept tolerance p.x

namespace Search

variable {σ β κ : Type} {E : Engine F σ β κ} {c c' : Config F σ β κ} {start : σ}

/-- The objective of the incumbent is finite, unless it overflowed in a proposal. -/
def Config.IncumbentFinite (E : Engine F σ β κ) (c : Config F σ β κ) : Prop :=
  ∀ i, c.state.tracker.best = some i → Scalar.isFinite i.objective = true ∨
    i.origin ≠ .relaxation ∧ E.sense.Overflows i.objective

theorem Move.incumbent_finite (h : Move E c c') (htraced : c.Traced E start)
    (hc : c.IncumbentFinite E) : c'.IncumbentFinite E := by
  cases h with
  | @adopt s stage candidate next tracker pruned frontier h hupdate hprune =>
    obtain ⟨-, hbest, himproves⟩ := update?_eq_some hupdate
    intro i hi
    obtain rfl : candidate = i := Option.some.inj (hbest.symm.trans hi)
    have hsense : s.tracker.sense = E.sense := htraced.sense
    rcases Tracker.finite_of_improves himproves with hfinite | ⟨-, hoverflows⟩
    · exact .inl hfinite
    · rw [hsense] at hoverflows
      cases h with
      | proposed hcheck => exact .inr ⟨nofun, hoverflows⟩
      | accepted h hwhole =>
        obtain ⟨rfl, -⟩ := htraced.coherent.survives h
        exact .inl (Engine.Answers.finite htraced.stage.1).2.1
  | _ => exact hc

/-- At every moment of a search. -/
theorem Moves.incumbent_finite (h : Moves E c c') (htraced : c.Traced E start)
    (hc : c.IncumbentFinite E) : c'.IncumbentFinite E := by
  induction h with
  | refl => exact hc
  | tail hmoves hmove ih => exact hmove.incumbent_finite (Moves.traced hmoves htraced) ih

end Search

/-! ## Accepted proposals -/

/-- An accepted proposal is sound. -/
theorem Proposal.Passes.sound [Scalar.Ordered F] {M : MixedProgram F} {candidates : List Nat}
    {tracker : Tracker F} {settings : Settings F} {p : Proposal F} {objective : F}
    (h : p.Passes M candidates tracker settings objective) (hM : M.lp.Valid)
    (hsettings : settings.Valid) : p.Sound M tracker settings.feasibility objective := by
  obtain ⟨amount, hamount, hpassed⟩ := checkRows_eq_ok h.rows
  exact ⟨h.improves.1, Tracker.finite_of_improves h.improves.2,
    hM.rowsKept hamount hpassed hsettings.feasibility.1⟩

/-- **Accepted proposals are feasible and finite, unless they overflow.**  For every program, all
    candidates, valid settings and any tracker in double arithmetic: the objective of an accepted
    proposal is finite, or there was an incumbent and the objective is `-∞` in minimisation; and
    every activity that is a number keeps its row.  In a search the incumbent is finite at every
    moment, unless it is a proposal that overflowed, and where it is a proposal its rows are
    kept. -/
theorem check_overflow {P : Program Float} {M : MixedProgram Float} {settings : Settings Float}
    (hM : MixedProgram.ofProgram P = .ok M) (hsettings : settings.validate = .ok ()) :
    (∀ candidates tracker p objective,
      Proposal.check M candidates tracker settings p = .ok (.ok objective) →
        p.Sound M tracker settings.feasibility objective) ∧
    ∀ {σ β κ : Type} (E : Search.Engine Float σ β κ) (start : σ) (strategy : β) (callbacks : κ) c,
      E.problem = M → E.settings = settings →
        Search.Moves E (.idle (Search.State.initial E start strategy callbacks)) c →
          c.IncumbentFinite E ∧ ∀ i, c.state.tracker.best = some i → i.origin ≠ .relaxation →
            M.lp.RowsKept settings.feasibility i.x := by
  obtain ⟨rfl, hvalid, -⟩ := MixedProgram.ofProgram_eq_ok hM
  have hvalidated := Settings.validate_eq_ok hsettings
  refine ⟨fun candidates tracker p objective h => (Proposal.check_ok h).sound hvalid hvalidated,
    fun E start strategy callbacks c hproblem hsame h => ?_⟩
  have htraced := Search.traced_initial E start strategy callbacks
  refine ⟨Search.Moves.incumbent_finite h htraced nofun, fun i hi horigin => ?_⟩
  cases (Search.Moves.traced h htraced).incumbent i hi with
  | relaxation => exact absurd rfl horigin
  | heuristic hcallback hpasses =>
    rw [hproblem, hsame] at hpasses
    exact (hpasses.sound hvalid hvalidated).rows

/-- The row `1.5e308 x₀ - 1.5e308 x₁ + x₂ = 7`, and an objective that falls by `1e308` with `x₀`. -/
def immense : MixedProgram Float where
  lp :=
    { cost := [-1e308, 0, 0]
      matrix := ⟨1, 3, [[(0, 1.5e308)], [(0, -1.5e308)], [(0, 1)]], rfl, by simp,
        by simp [Column.Sorted]⟩
      rhs := [7]
      blocks := [.equality 1]
      bounds := some [⟨0, some 0, some 2⟩, ⟨1, some 0, some 2⟩, ⟨2, some 0, some 10⟩] }
  integers := []
  binaries := []
  box := ⟨[0, 0, 0], [2, 2, 10]⟩

theorem immense_ok : MixedProgram.ofProgram immense.lp = .ok immense :=
  MixedProgram.ofProgram_ok (by decide +kernel) (by decide +kernel) (by decide +kernel)

/-- A tracker that has a feasible point of `immense`, whose objective is zero. -/
def zeroTracker : Tracker Float where
  sense := .minimize
  best := some ⟨0, [0, 0, 7], .relaxation, 0, 1⟩
  updates := 1

theorem immense_accepts : Proposal.check immense [] zeroTracker Settings.standard ⟨[2, 2, 0], 0⟩ =
    .ok (.ok (-Extended.infinity)) := by
  decide +kernel

/-- An objective of `-∞` is accepted, though it was said to be zero; and so is a point that misses
    its row by 7, since the activity is no number. -/
theorem immense_accepts_infeasible : MixedProgram.ofProgram immense.lp = .ok immense ∧
    (Settings.standard : Settings Float).validate = .ok () ∧
    zeroTracker.best.all (fun i => Scalar.isFinite i.objective) = true ∧
    Proposal.check immense [] zeroTracker Settings.standard ⟨[2, 2, 0], 0⟩ =
      .ok (.ok (-Extended.infinity)) ∧
    Proposal.check immense [] zeroTracker Settings.standard ⟨[1.5, 1.5, 0], -1.5e308⟩ =
      .ok (.ok (-1.5e308)) ∧
    ∃ a, immense.lp.activities [1.5, 1.5, 0] = .ok [a] ∧ Scalar.isNaN a = true := by
  refine ⟨immense_ok, by decide +kernel, by decide +kernel, immense_accepts, by decide +kernel,
    1.5e308 * 1.5 + -1.5e308 * 1.5, by decide +kernel, by decide +kernel⟩

/-- The objective that is accepted is the one of the point, and it overflowed. -/
theorem check_overflow_immense : MixedProgram.ofProgram immense.lp = .ok immense ∧
    (Settings.standard : Settings Float).validate = .ok () ∧
    Proposal.Sound immense zeroTracker Settings.standard.feasibility ⟨[2, 2, 0], 0⟩
      (-Extended.infinity) ∧
    zeroTracker.sense.Overflows (immense.objective [2, 2, 0]) := by
  have hsettings : (Settings.standard : Settings Float).validate = .ok () := by decide +kernel
  have hsound := (check_overflow immense_ok hsettings).1 [] _ _ _ immense_accepts
  refine ⟨immense_ok, hsettings, hsound, ?_⟩
  rw [← hsound.objective_eq]
  rfl

end Milp
