/-
  What a program that was checked is known for.

  * `Program.Valid`: the parts of a successful check, from `Program.validate_eq_ok`.
  * `Program.Valid.blockRows_eq`: the blocks have the rows of the program, unless their sizes wrap.
  * `Program.Valid.violation_eq_error`: the rows of a valid program can be measured, unless they are
    more than a word can count.
  * `Program.length_box`: there are bounds for every variable.
  * `MixedProgram.ofProgram_eq_ok`: a mixed-integer program carries a valid program and its bounds;
    `MixedProgram.ofProgram_ok`: a valid program without an empty domain makes one.
-/
import Milp.MixedProgram
import Milp.Proofs.Restrictions

namespace Milp

variable {F : Type}

/-- A list of checks passes if every check does. -/
theorem forM_eq_ok {ε α : Type} {f : α → Except ε Unit} {xs : List α} :
    xs.forM f = .ok () ↔ ∀ x ∈ xs, f x = .ok () := by
  induction xs with
  | nil => simp [List.forM, pure, Except.pure]
  | cons x xs ih =>
    rw [List.forM_eq_forM] at ih ⊢
    rw [List.forM_cons]
    rcases hx : f x with e | u
    · simp [Bind.bind, Except.bind, hx]
    · simp [Bind.bind, Except.bind, hx, ih]

namespace Program

variable [Scalar F] {P : Program F}

/-- A valid program: its parts pass their checks. -/
structure Valid (P : Program F) : Prop where
  shape : P.validateShape = .ok ()
  blocks : ∀ b ∈ P.blocks, Block.validate b = (.ok () : Except (ProgramError F) Unit)
  data : P.validateData = .ok ()
  bounds : ∀ b ∈ P.bounds.getD [], VarBound.validate P.vars b = .ok ()
  kinds : P.validateKinds = .ok ()

theorem validate_eq_ok (h : P.validate = .ok ()) : P.Valid := by
  unfold validate at h
  rcases hshape : P.validateShape with _ | _
  · rw [hshape] at h; cases h
  rcases hblocks : P.blocks.forM (Block.validate (F := F)) with _ | _
  · rw [hshape, hblocks] at h; cases h
  rcases hdata : P.validateData with _ | _
  · rw [hshape, hblocks, hdata] at h; cases h
  rcases hbounds : (P.bounds.getD []).forM (VarBound.validate P.vars) with _ | _
  · rw [hshape, hblocks, hdata, hbounds] at h; cases h
  rw [hshape, hblocks, hdata, hbounds] at h
  exact ⟨hshape, forM_eq_ok.1 hblocks, hdata, forM_eq_ok.1 hbounds, h⟩

/-- The coefficients of a valid program are finite. -/
theorem Valid.finite (h : P.Valid) : P.cost.all Scalar.isFinite = true ∧
    P.rhs.all Scalar.isFinite = true ∧ P.matrix.values.all Scalar.isFinite = true := by
  have hdata := h.data
  unfold validateData at hdata
  split at hdata
  · cases hdata
  · split at hdata
    · cases hdata
    · split at hdata
      · cases hdata
      · simp_all

/-- The matrix of a valid program has its rows and its variables. -/
theorem Valid.shapes (h : P.Valid) :
    P.matrix.rows = P.height ∧ P.matrix.cols = P.vars := by
  have hshape := h.shape
  unfold validateShape at hshape
  split at hshape
  · cases hshape
  · split at hshape
    · cases hshape
    · exact ⟨Decidable.not_not.1 ‹_›, Decidable.not_not.1 ‹_›⟩

theorem Valid.blockTotal_eq (h : P.Valid) : P.blockTotal = P.height := by
  have hshape := h.shape
  unfold validateShape at hshape
  split at hshape
  · cases hshape
  · split at hshape
    · cases hshape
    · split at hshape
      · cases hshape
      · exact Decidable.not_not.1 ‹_›

/-- The sizes of the blocks of a valid program add up to its rows, if they do not wrap. -/
theorem Valid.blockRows_eq (h : P.Valid) (hblocks : P.blockRows < UInt64.size) :
    P.blockRows = P.height := by
  rw [← h.blockTotal_eq, blockTotal, Nat.mod_eq_of_lt hblocks]

/-- The dense rows of a valid program. -/
theorem Valid.cells_eq (h : P.Valid) :
    P.cells = .ok (Vector.ofFn fun i => Vector.ofFn fun j => P.matrix.cell i j) := by
  obtain ⟨hrows, hcols⟩ := h.shapes
  have hdrop : P.matrix.columns.drop P.vars = [] :=
    List.drop_eq_nil_of_le (Nat.le_of_eq (P.matrix.length_columns.trans hcols))
  refine if_pos ?_
  rw [Matrix.fits, hdrop, List.all_nil, Bool.and_true, List.all_eq_true]
  intro c hc
  rw [List.all_eq_true]
  intro e he
  exact decide_eq_true (hrows ▸ P.matrix.row_lt c hc e he)

/-! ## Measuring rows -/

variable {x : List F}

theorem contribute_ok (xj : F) {c : Column F} {ax : List F} (h : ∀ e ∈ c, e.1 < ax.length) :
    ∃ ax', contribute xj c ax = .ok ax' ∧ ax'.length = ax.length := by
  induction c generalizing ax with
  | nil => exact ⟨ax, rfl, rfl⟩
  | cons e rest ih =>
    obtain ⟨hfirst, hrest⟩ := List.forall_mem_cons.1 h
    have hamend : amend ax e.1 (fun a => a + e.2 * xj) =
        .ok (ax.modify e.1 fun a => a + e.2 * xj) := if_pos hfirst
    have hlt : ∀ e' ∈ rest, e'.1 < (ax.modify e.1 fun a => a + e.2 * xj).length := by
      simpa using hrest
    obtain ⟨ax', hax', hlength⟩ := ih hlt
    refine ⟨ax', ?_, by simpa using hlength⟩
    rw [contribute, List.foldlM_cons]
    simp only [hamend]
    exact hax'

theorem gather_ok {cs : List (Column F)} {ax : List F} (hlength : cs.length = x.length)
    (h : ∀ c ∈ cs, ∀ e ∈ c, e.1 < ax.length) : ∃ ax', gather cs x ax = .ok ax' := by
  induction cs generalizing x ax with
  | nil => exact ⟨ax, rfl⟩
  | cons c cs ih =>
    rcases x with _ | ⟨xj, xs⟩
    · cases hlength
    obtain ⟨hfirst, hrest⟩ := List.forall_mem_cons.1 h
    rw [gather]
    split
    · exact ih (Nat.succ.inj hlength) hrest
    · obtain ⟨ax', hax', hlength'⟩ := contribute_ok xj hfirst
      have hlt : ∀ c ∈ cs, ∀ e ∈ c, e.1 < ax'.length := fun c hc e he =>
        hlength' ▸ hrest c hc e he
      obtain ⟨ax'', hax''⟩ := ih (Nat.succ.inj hlength) hlt
      exact ⟨ax'', by rw [hax']; exact hax''⟩

theorem Valid.activities_ok (h : P.Valid) (hx : x.length = P.vars) :
    ∃ ax, P.activities x = .ok ax := by
  obtain ⟨hrows, hcols⟩ := h.shapes
  refine gather_ok (by rw [P.matrix.length_columns, hcols, hx]) fun c hc e he => ?_
  rw [List.length_replicate, ← hrows]
  exact P.matrix.row_lt c hc e he

/-- The violation of a point of the right size can be computed, unless the number of rows wrapped
    when the blocks were counted. -/
theorem Valid.violation_eq_error {fault : Fault} (hP : P.Valid) (hx : x.length = P.vars)
    (h : P.violation x = .error fault) : fault = .tooLarge ∧ UInt64.size ≤ P.blockRows := by
  obtain ⟨ax, hax⟩ := hP.activities_ok hx
  rcases hflags : P.firstEqualities P.height with e | flags
  · have hviolation : P.violation x = .error e := by rw [violation, hax, hflags]; rfl
    rw [h] at hviolation
    cases hviolation
    unfold firstEqualities at hflags
    split at hflags
    · cases hflags
    · rename_i hlarge
      cases hflags
      refine ⟨rfl, Nat.not_lt.1 fun hlt => hlarge ?_⟩
      exact hP.blockRows_eq hlt ▸ Nat.le_max_left ..
  · rw [violation, hax, hflags] at h
    cases h

end Program

section Box

variable [Extended F] {P : Program F}

theorem Program.length_givenBox (P : Program F) :
    P.givenBox.lower.length = P.vars ∧ P.givenBox.upper.length = P.vars := by
  refine List.foldlRecOn
    (motive := fun box : Box F => box.lower.length = P.vars ∧ box.upper.length = P.vars) _ _
    ⟨List.length_replicate, List.length_replicate⟩ fun box hbox b _ => ?_
  simpa only [Box.put, List.length_set] using hbox

/-- There are bounds in force for every variable. -/
theorem Program.length_box {box : Box F} (h : P.box = .ok box) :
    box.lower.length = P.vars ∧ box.upper.length = P.vars := by
  refine foldlM_induction
    (P := fun box : Box F => box.lower.length = P.vars ∧ box.upper.length = P.vars)
    (fun entry _ b next hb hnext => ?_) h P.length_givenBox
  obtain ⟨kind, k⟩ := entry
  by_cases hkind : kind = .binary
  · simp only [hkind, if_true] at hnext
    obtain ⟨hlower, hupper⟩ := Box.length_of_cut hnext
    exact ⟨hlower.trans hb.1, hupper.trans hb.2⟩
  · simp only [hkind, if_false] at hnext
    cases hnext
    exact hb

end Box

/-- The bounds of all variables hold within a tolerance. -/
theorem MixedProgram.boundsHold_iff [Scalar F] {M : MixedProgram F} {x : List F} {t : F} :
    M.boundsHold x t = true ↔ ∀ var i v, M.box.interval var = .ok i → x[var]? = some v →
      i.lower - t ≤ v ∧ v ≤ i.upper + t := by
  rw [boundsHold, List.all_eq_true]
  constructor
  · intro h var i v hi hv
    obtain ⟨hlower, hupper⟩ := Box.interval_eq_ok.1 hi
    have hbounds : (M.box.lower.zip M.box.upper)[var]? = some (i.lower, i.upper) :=
      List.getElem?_zip_eq_some.2 ⟨hlower, hupper⟩
    have hmem : (x.zip (M.box.lower.zip M.box.upper))[var]? = some (v, i.lower, i.upper) :=
      List.getElem?_zip_eq_some.2 ⟨hv, hbounds⟩
    simpa using h _ (List.mem_of_getElem? hmem)
  · rintro h ⟨v, l, u⟩ hmem
    obtain ⟨var, hvar⟩ := List.mem_iff_getElem?.1 hmem
    obtain ⟨hv, hbounds⟩ := List.getElem?_zip_eq_some.1 hvar
    simpa using h var ⟨l, u⟩ v (Box.interval_eq_ok.2 (List.getElem?_zip_eq_some.1 hbounds)) hv

/-- A mixed-integer program carries the program it was made of, valid, and its bounds. -/
theorem MixedProgram.ofProgram_eq_ok [Extended F] {P : Program F} {M : MixedProgram F}
    (h : MixedProgram.ofProgram P = .ok M) : M.lp = P ∧ P.Valid ∧ P.box = .ok M.box := by
  unfold ofProgram at h
  rcases hvalid : P.validate with _ | _
  · rw [hvalid] at h; cases h
  rcases hbox : P.box with _ | box
  · rw [hvalid, hbox] at h; cases h
  rw [hvalid, hbox] at h
  delta Except.mapError at h
  simp only [Bind.bind, Except.bind] at h
  split at h
  · cases h
  · cases h
    exact ⟨rfl, Program.validate_eq_ok hvalid, rfl⟩

/-- No variable of a mixed-integer program has an empty domain. -/
theorem MixedProgram.ofProgram_not_lt [Extended F] {P : Program F} {M : MixedProgram F}
    (h : MixedProgram.ofProgram P = .ok M) {var : Nat} {i : Interval F}
    (hi : M.box.interval var = .ok i) : ¬ i.upper < i.lower := by
  unfold ofProgram at h
  rcases hvalid : P.validate with _ | _
  · rw [hvalid] at h; cases h
  rcases hbox : P.box with _ | box
  · rw [hvalid, hbox] at h; cases h
  rw [hvalid, hbox] at h
  delta Except.mapError at h
  simp only [Bind.bind, Except.bind] at h
  split at h
  · cases h
  · rename_i hnone
    cases h
    obtain ⟨hlower, hupper⟩ := Box.interval_eq_ok.1 hi
    have hmem : (i, var) ∈ (List.zipWith Interval.mk box.lower box.upper).zipIdx := by
      rw [List.mem_zipIdx_iff_getElem?, List.getElem?_zipWith, hlower, hupper]
    simpa using List.find?_eq_none.1 hnone _ hmem

/-- A valid program without an empty domain is accepted. -/
theorem MixedProgram.ofProgram_ok [Extended F] {P : Program F} {box : Box F}
    (hvalid : P.validate = .ok ()) (hbox : P.box = .ok box)
    (hdomain : (List.zipWith Interval.mk box.lower box.upper).all
      (fun i => !decide (i.upper < i.lower)) = true) :
    MixedProgram.ofProgram P =
      .ok ⟨P, varsOf P (· ≠ .continuous), varsOf P (· = .binary), box⟩ := by
  have hnone : (List.zipWith Interval.mk box.lower box.upper).zipIdx.find?
      (fun entry => decide (entry.1.upper < entry.1.lower)) = none := by
    refine List.find?_eq_none.2 fun entry hmem => ?_
    have hi := List.all_eq_true.1 hdomain entry.1 (List.fst_mem_of_mem_zipIdx hmem)
    simpa using hi
  unfold ofProgram
  rw [hvalid, hbox]
  delta Except.mapError
  simp only [Bind.bind, Except.bind]
  rw [hnone]
  rfl

end Milp
