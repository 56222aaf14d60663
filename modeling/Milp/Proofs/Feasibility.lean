/-
  What the rows, the bounds and the violation of a program mean.

  * `Program.InEquality`, `Program.equalities_get`: the rows of the blocks of equalities, and the
    flags that mark them.
  * `Program.bounded`, `Program.box_interval`: the bounds in force of a variable, and the box of a
    program that holds them.
  * `Program.excesses`, `Program.violation_isGreatest`: by how much a point violates each row, and
    the largest of it.
  * `Program.ofTriplets_describes`: all of it, for a program made of triplets.
-/
import Milp.Proofs.Scalar.Measured
import Milp.Proofs.Triplets
import Mathlib.Order.Bounds.Basic

namespace Milp

/-! ## Rows -/

/-- A row falls in a block of equalities. -/
def Program.InEquality {F : Type} (P : Program F) (i : Nat) : Prop :=
  ∃ before n after, P.blocks = before ++ .equality n :: after ∧
    (before.map Block.size).sum ≤ i ∧ i < (before.map Block.size).sum + n

theorem Block.getElem?_flags_eq_true {b : Block} {i : Nat} (hi : i < b.size) :
    b.flags[i]? = some true ↔ b = .equality b.size := by
  cases b with
  | equality n => exact iff_of_true (List.getElem?_replicate_of_lt hi) rfl
  | atMost n => simp [flags, List.getElem?_replicate]

/-- A flag is set exactly for the rows of a block of equalities. -/
theorem Block.getElem?_flatMap_flags {blocks : List Block} {i : Nat} :
    (blocks.flatMap flags)[i]? = some true ↔
      ∃ before n after, blocks = before ++ .equality n :: after ∧
        (before.map size).sum ≤ i ∧ i < (before.map size).sum + n := by
  induction blocks generalizing i with
  | nil => simp
  | cons b rest ih =>
    rw [List.flatMap_cons]
    by_cases hi : i < b.size
    · rw [List.getElem?_append_left (by rwa [length_flags]), getElem?_flags_eq_true hi]
      constructor
      · intro hb
        exact ⟨[], b.size, rest, by rw [← hb]; rfl, Nat.zero_le _, by simpa using hi⟩
      · rintro ⟨before, n, after, hsplit, hlow, -⟩
        cases before with
        | nil =>
          cases hsplit
          rfl
        | cons c before =>
          cases hsplit
          rw [List.map_cons, List.sum_cons] at hlow
          omega
    · rw [List.getElem?_append_right (by rw [length_flags]; exact not_lt.1 hi), length_flags, ih]
      constructor
      · rintro ⟨before, n, after, rfl, hlow, hhigh⟩
        refine ⟨b :: before, n, after, rfl, ?_, ?_⟩ <;> rw [List.map_cons, List.sum_cons] <;> omega
      · rintro ⟨before, n, after, hsplit, hlow, hhigh⟩
        cases before with
        | nil =>
          cases hsplit
          simp only [List.map_nil, List.sum_nil, zero_add] at hhigh
          exact absurd hhigh hi
        | cons c before =>
          cases hsplit
          rw [List.map_cons, List.sum_cons] at hlow hhigh
          exact ⟨before, n, after, rfl, by omega, by omega⟩

/-! ## Bounds -/

section Bounds

variable {F : Type} [Extended F]

/-- The interval that an entry gives; a missing bound is infinite. -/
def VarBound.interval (b : VarBound F) : Interval F :=
  ⟨b.lower.getD (-Extended.infinity), b.upper.getD Extended.infinity⟩

/-- The last of some entries that is about a variable counts; without any, it is nonnegative. -/
def VarBound.last (entries : List (VarBound F)) (j : Nat) : Interval F :=
  ((entries.reverse.find? fun b => b.var = j).map interval).getD ⟨0, Extended.infinity⟩

/-- The bounds in force of a variable: the last entry counts, and a binary variable stays within
    `[0, 1]`. -/
def Program.bounded (P : Program F) (j : Nat) : Interval F :=
  let given := VarBound.last (P.bounds.getD []) j
  if (P.kinds.getD [])[j]? = some .binary then given.cut ⟨0, 1⟩ else given

omit [Extended F] in
theorem Box.interval_put {box : Box F} {var j : Nat} {i k : Interval F}
    (hj : box.interval j = .ok k) : (box.put var i).interval j = .ok (if var = j then i else k) := by
  obtain ⟨hlower, hupper⟩ := interval_eq_ok.1 hj
  rw [interval_eq_ok, put, List.getElem?_set, List.getElem?_set]
  split
  · have hl := (List.getElem?_eq_some_iff.1 hlower).1
    have hu := (List.getElem?_eq_some_iff.1 hupper).1
    subst var
    simp [hl, hu]
  · exact ⟨hlower, hupper⟩

theorem VarBound.last_append (entries : List (VarBound F)) (b : VarBound F) (j : Nat) :
    last (entries ++ [b]) j = if b.var = j then b.interval else last entries j := by
  rw [last, last, List.reverse_append, List.reverse_singleton, List.singleton_append,
    List.find?_cons]
  by_cases h : b.var = j <;> simp [h]

/-- Entries replace bounds one after the other. -/
theorem Box.interval_foldl_put {box : Box F} {j : Nat}
    (hj : box.interval j = .ok ⟨0, Extended.infinity⟩) (entries : List (VarBound F)) :
    (entries.foldl (fun box b => box.put b.var
      ⟨b.lower.getD (-Extended.infinity), b.upper.getD Extended.infinity⟩) box).interval j =
        .ok (VarBound.last entries j) := by
  induction entries using List.reverseRecOn with
  | nil => exact hj
  | append_singleton entries b ih =>
    rw [List.foldl_append, List.foldl_cons, List.foldl_nil, Box.interval_put ih,
      VarBound.last_append]
    rfl

/-- Cut the bounds of a binary variable down to `[0, 1]`. -/
def Box.cutBinary (box : Box F) (entry : VarKind × Nat) : Except Fault (Box F) :=
  if entry.1 = .binary then box.cut entry.2 ⟨0, 1⟩ else pure box

theorem Box.interval_cutBinary {box box' : Box F} {entry : VarKind × Nat} {j : Nat}
    {i : Interval F} (h : box.cutBinary entry = .ok box') (hj : box.interval j = .ok i) :
    box'.interval j =
      .ok (if entry = (.binary, j) then i.cut ⟨0, 1⟩ else i) := by
  obtain ⟨kind, k⟩ := entry
  rw [cutBinary] at h
  split at h
  · rename_i hkind
    cases hkind
    rw [interval_of_cut h hj]
    simp
  · rename_i hkind
    cases h
    rw [if_neg fun heq => hkind (congrArg Prod.fst heq), hj]

namespace Program

variable {P : Program F} {box : Box F} {j : Nat}

theorem givenBox_interval (hj : j < P.vars) :
    P.givenBox.interval j = .ok (VarBound.last (P.bounds.getD []) j) := by
  have hstart : (Box.mk (List.replicate P.vars (0 : F))
      (List.replicate P.vars Extended.infinity)).interval j = .ok ⟨0, Extended.infinity⟩ := by
    simp [Box.interval_eq_ok, hj]
  -- an entry about another program's variable is not about this one
  have hfilter : (fun b : VarBound F => decide (decide (b.var < P.vars) = true ∧
      decide (b.var = j) = true)) = fun b => decide (b.var = j) := by
    funext b
    by_cases hb : b.var = j <;> simp [hb, hj]
  rw [givenBox, Box.interval_foldl_put hstart, VarBound.last, VarBound.last, ← List.filter_reverse,
    List.find?_filter, hfilter]

/-- Binary variables are cut down one after the other. -/
theorem interval_foldlM_cutBinary {kinds : List VarKind} {start : Box F} {i : Interval F}
    (hstart : start.interval j = .ok i)
    (h : kinds.zipIdx.foldlM Box.cutBinary start = .ok box) :
    box.interval j = .ok (if kinds[j]? = some .binary then i.cut ⟨0, 1⟩ else i) := by
  -- on the last kind, which is cut when the other variables have been
  induction kinds using List.reverseRecOn generalizing box with
  | nil =>
    cases h
    exact hstart
  | append_singleton kinds kind ih =>
    rw [List.zipIdx_append, List.foldlM_append] at h
    rcases hfirst : kinds.zipIdx.foldlM Box.cutBinary start with e | next
    · rw [hfirst] at h
      cases h
    · have hnext := ih hfirst
      rw [hfirst] at h
      change List.foldlM Box.cutBinary next [(kind, 0 + kinds.length)] = .ok box at h
      have hlast : next.cutBinary (kind, kinds.length) = .ok box := by simpa using h
      rw [Box.interval_cutBinary hlast hnext]
      rcases lt_trichotomy j kinds.length with hj | rfl | hj
      · have hne : kinds.length ≠ j := hj.ne'
        simp [List.getElem?_append_left hj, hne]
      · simp
      · have hne : kinds.length ≠ j := hj.ne
        simp [hj, hne, List.getElem?_eq_none hj.le]

/-- The box of a program holds the bounds in force of every variable. -/
theorem box_interval (hbox : P.box = .ok box) (hj : j < P.vars) :
    box.interval j = .ok (P.bounded j) :=
  interval_foldlM_cutBinary (givenBox_interval hj) hbox

end Program

end Bounds

/-! ## Violations -/

/-- Finite values are a rational point. -/
theorem Exact.exists_vector {n : Nat} {x : List Exact} (hlength : x.length = n)
    (hfinite : x.all Scalar.isFinite = true) : ∃ y : Fin n → Rat, x = vector y := by
  subst hlength
  refine ⟨fun j => x[j].rat, List.ext_getElem (by simp) fun j h₁ h₂ => ?_⟩
  rw [getElem_vector]
  exact (fin_rat (List.all_eq_true.1 hfinite _ (List.getElem_mem h₁))).symm

/-- The largest of a value and some finite ones. -/
theorem Exact.foldl_max_fin {xs : List Exact} (h : ∀ x ∈ xs, Scalar.isFinite x = true) (a : Rat) :
    ∃ v, xs.foldl Scalar.max (fin a) = fin v ∧ (v = a ∨ fin v ∈ xs) ∧ a ≤ v ∧
      ∀ q, fin q ∈ xs → q ≤ v := by
  induction xs generalizing a with
  | nil => exact ⟨a, rfl, .inl rfl, le_rfl, nofun⟩
  | cons x xs ih =>
    obtain ⟨hx, hxs⟩ := List.forall_mem_cons.1 h
    obtain ⟨p, rfl⟩ := isFinite_iff.1 hx
    obtain ⟨v, hv, hmem, hle, hub⟩ := ih hxs (max a p)
    refine ⟨v, by rw [List.foldl_cons, max_fin, hv], ?_, (le_max_left a p).trans hle, ?_⟩
    · rcases hmem with rfl | hmem
      · rcases max_choice a p with hmax | hmax
        · exact .inl hmax
        · exact .inr (by rw [hmax]; exact List.mem_cons_self)
      · exact .inr (List.mem_cons_of_mem _ hmem)
    · rintro q (_ | ⟨_, hq⟩)
      · exact (le_max_right a p).trans hle
      · exact hub q hq

theorem Exact.rowExcess_fin (a b : Rat) (equality : Bool) :
    Program.rowExcess (fin a) (fin b) equality = fin (if equality then |a - b| else max (a - b) 0) := by
  cases equality
  · exact (congrArg₂ Scalar.max fin_sub_fin zero_eq).trans (max_fin _ _)
  · exact (congrArg Exact.abs fin_sub_fin).trans (abs_fin _)

namespace Program

variable {P : Program Exact} {triplets : List (Nat × Nat × Exact)} {x : List Exact}

/-- By how much a point violates the rows: the distance from the right-hand side in an equality, and
    the difference from it in the other rows, where it may be negative. -/
def excesses (P : Program Exact) (triplets : List (Nat × Nat × Exact)) (x : List Exact) : Set Rat :=
  {e | ∃ i b, P.rhs[i]? = some (.fin b) ∧
    (P.InEquality i ∧ e = |Matrix.tripletRow triplets x i - b| ∨
      ¬ P.InEquality i ∧ e = Matrix.tripletRow triplets x i - b)}

/-- What the largest violation is taken of. -/
theorem mem_rowExcesses (h : P.Valid) (y : Fin P.vars → Rat) {flags : List Bool} {e : Exact} :
    e ∈ List.zipWith (fun a (b, f) => rowExcess a b f)
        (Exact.vector fun i : Fin P.height => P.activity y i) (P.rhs.zip flags) ↔
      ∃ (i : Nat) (b : Rat) (f : Bool), P.rhs[i]? = some (.fin b) ∧ flags[i]? = some f ∧
        e = .fin (if f then |P.activity y i - b| else max (P.activity y i - b) 0) := by
  rw [List.mem_iff_getElem?]
  constructor
  · rintro ⟨i, hi⟩
    obtain ⟨a, ⟨b, f⟩, ha, hrow, rfl⟩ := List.getElem?_zipWith_eq_some.1 hi
    obtain ⟨hb, hf⟩ := List.getElem?_zip_eq_some.1 hrow
    obtain ⟨hlt, rfl⟩ := List.getElem?_eq_some_iff.1 ha
    obtain ⟨b, rfl⟩ := Exact.isFinite_iff.1
      (List.all_eq_true.1 h.finite.2.1 b (List.mem_of_getElem? hb))
    exact ⟨i, b, f, hb, hf, by rw [Exact.getElem_vector]; exact Exact.rowExcess_fin _ _ _⟩
  · rintro ⟨i, b, f, hb, hf, rfl⟩
    have hi : i < P.height := (List.getElem?_eq_some_iff.1 hb).1
    refine ⟨i, List.getElem?_zipWith_eq_some.2 ⟨.fin (P.activity y i), (.fin b, f), ?_,
      List.getElem?_zip_eq_some.2 ⟨hb, hf⟩, Exact.rowExcess_fin _ _ _⟩⟩
    rw [List.getElem?_eq_getElem (by simpa using hi), Exact.getElem_vector]

/-- The violation of the rows is the largest of zero and what the point violates each row by. -/
theorem violation_isGreatest
    (hmatrix : Matrix.ofTriplets P.height P.vars triplets = .ok P.matrix) (h : P.Valid)
    (hblocks : P.blockRows = P.height) (y : Fin P.vars → Rat) :
    ∃ v, P.violation (Exact.vector y) = .ok (.fin v) ∧
      IsGreatest (insert 0 (P.excesses triplets (Exact.vector y))) v := by
  obtain ⟨hequalities, hlength⟩ := equalities_eq hblocks
  have hflags : P.firstEqualities P.height = .ok (P.blocks.flatMap Block.flags) := by
    rw [← hblocks]
    exact hequalities
  obtain ⟨v, hv, hmem, hzero, hub⟩ := Exact.foldl_max_fin (fun e he => by
    obtain ⟨i, b, f, -, -, rfl⟩ := (mem_rowExcesses h y).1 he
    rfl) 0
  refine ⟨v, by rw [violation_vector h y hflags, Exact.zero_eq]; exact congrArg _ hv, ?_, ?_⟩
  · rcases hmem with rfl | hmem
    · exact Set.mem_insert _ _
    · obtain ⟨i, b, f, hb, hf, heq⟩ := (mem_rowExcesses h y).1 hmem
      rw [activity_eq_tripletRow hmatrix h] at heq
      cases f with
      | true => exact .inr ⟨i, b, hb, .inl ⟨Block.getElem?_flatMap_flags.1 hf, Exact.fin.inj heq⟩⟩
      | false =>
        have hnot : ¬ P.InEquality i := fun hin => by
          cases hf.symm.trans (Block.getElem?_flatMap_flags.2 hin)
        have hmax : v = max (Matrix.tripletRow triplets (Exact.vector y) i - b) 0 := Exact.fin.inj heq
        rcases max_choice (Matrix.tripletRow triplets (Exact.vector y) i - b) 0 with h' | h'
        · exact .inr ⟨i, b, hb, .inr ⟨hnot, hmax.trans h'⟩⟩
        · exact .inl (hmax.trans h')
  · rintro e (rfl | ⟨i, b, hb, he⟩)
    · exact hzero
    · have hi : i < (P.blocks.flatMap Block.flags).length :=
        hlength ▸ (List.getElem?_eq_some_iff.1 hb).1
      have hf := List.getElem?_eq_getElem hi
      rw [← activity_eq_tripletRow hmatrix h] at he
      rcases he with ⟨hin, rfl⟩ | ⟨hnot, rfl⟩
      · exact hub _ ((mem_rowExcesses h y).2
          ⟨i, b, true, hb, Block.getElem?_flatMap_flags.2 hin, rfl⟩)
      · have hfalse : (P.blocks.flatMap Block.flags)[i]? = some false := by
          rw [hf, Option.some.injEq, ← Bool.not_eq_true]
          exact fun htrue => hnot (Block.getElem?_flatMap_flags.1 (htrue ▸ hf))
        exact (le_max_left _ _).trans (hub _ ((mem_rowExcesses h y).2 ⟨i, b, false, hb, hfalse, rfl⟩))

/-- What a program that is made of triplets says of a point.  Each row is an equality if it falls in
    a block of them.  The activities, which are summed up by column, and the inner products with the
    dense rows are the sums of the triplets of the rows.  The violation is the largest of all rows,
    and a point is feasible within a tolerance if each variable and each row is. -/
structure Describes (P : Program Exact) (triplets : List (Nat × Nat × Exact)) (x : List Exact) :
    Prop where
  equalities : ∃ flags, P.equalities = .ok flags ∧ flags.length = P.height ∧
    ∀ i, flags[i]? = some true ↔ P.InEquality i
  activities : P.activities x =
    .ok ((List.range P.height).map fun i => .fin (Matrix.tripletRow triplets x i))
  dense : ∃ rows, P.cells = .ok rows ∧ ∀ i : Fin P.height,
    Scalar.dot (rows.get i).toList x = .fin (Matrix.tripletRow triplets x i)
  violation : ∃ v, P.violation x = .ok (.fin v) ∧ IsGreatest (insert 0 (P.excesses triplets x)) v
  feasible : ∀ M, MixedProgram.ofProgram P = .ok M → ∀ t : Rat, 0 ≤ t →
    ∃ answer, M.feasible x (.fin t) = .ok answer ∧
      (answer = true ↔
        (∀ j v, x[j]? = some v →
          (P.bounded j).lower - .fin t ≤ v ∧ v ≤ (P.bounded j).upper + .fin t) ∧
        ∀ e ∈ P.excesses triplets x, e ≤ t)

/-- The rows and bounds that a feasible point satisfies within a tolerance. -/
theorem feasible_iff {M : MixedProgram Exact} (hM : MixedProgram.ofProgram P = .ok M)
    (hx : x.length = P.vars) {v t : Rat} (hviolation : P.violation x = .ok (.fin v)) :
    ∃ answer, M.feasible x (.fin t) = .ok answer ∧
      (answer = true ↔
        (∀ j w, x[j]? = some w →
          (P.bounded j).lower - .fin t ≤ w ∧ w ≤ (P.bounded j).upper + .fin t) ∧ v ≤ t) := by
  obtain ⟨rfl, -, hbox⟩ := MixedProgram.ofProgram_eq_ok hM
  have hbounds : M.boundsHold x (.fin t) = true ↔ ∀ j w, x[j]? = some w →
      (M.lp.bounded j).lower - .fin t ≤ w ∧ w ≤ (M.lp.bounded j).upper + .fin t := by
    rw [MixedProgram.boundsHold_iff]
    constructor
    · intro h j w hw
      exact h j _ w (box_interval hbox (hx ▸ (List.getElem?_eq_some_iff.1 hw).1)) hw
    · intro h j i w hi hw
      have hj := box_interval hbox (hx ▸ (List.getElem?_eq_some_iff.1 hw).1)
      cases hi.symm.trans hj
      exact h j w hw
  have hsize : decide (x.length = M.vars) = true := decide_eq_true hx
  rw [MixedProgram.feasible, hsize, Bool.true_and, ← hbounds]
  by_cases hholds : M.boundsHold x (.fin t) = true
  · rw [if_pos hholds, MixedProgram.rowsHold, hviolation]
    refine ⟨_, rfl, ?_⟩
    simp [hholds]
  · rw [if_neg hholds]
    exact ⟨false, rfl, by simp [hholds]⟩

/-- **Violation and feasibility mean what they say**, for each valid program made of triplets whose
    blocks do not wrap, and each point of its size. -/
theorem ofTriplets_describes
    (hmatrix : Matrix.ofTriplets P.height P.vars triplets = .ok P.matrix)
    (hvalid : P.validate = .ok ()) (hblocks : P.blockRows < UInt64.size)
    (hlength : x.length = P.vars) (hfinite : x.all Scalar.isFinite = true) :
    P.Describes triplets x := by
  have h := validate_eq_ok hvalid
  have hrows := h.blockRows_eq hblocks
  obtain ⟨y, rfl⟩ := Exact.exists_vector hlength hfinite
  obtain ⟨hequalities, hflags⟩ := equalities_eq hrows
  obtain ⟨v, hviolation, hgreatest⟩ := violation_isGreatest hmatrix h hrows y
  have hrow := activity_eq_tripletRow hmatrix h y
  refine ⟨⟨_, hequalities, hflags, fun i => Block.getElem?_flatMap_flags⟩, ?_,
    ⟨_, h.cells_eq, fun i => ?_⟩, ⟨v, hviolation, hgreatest⟩, fun M hM t ht => ?_⟩
  · rw [activities_vector h]
    refine congrArg Except.ok (List.ext_getElem (by simp) fun i h₁ h₂ => ?_)
    simp [hrow]
  · have hcells : ((Vector.ofFn fun i : Fin P.height => Vector.ofFn fun j : Fin P.vars =>
        P.matrix.cell i j).get i).toList =
          Exact.vector fun j : Fin P.vars => (P.matrix.cell i j).rat := by
      refine List.ext_getElem (by simp) fun j h₁ h₂ => ?_
      rw [Exact.getElem_vector, Exact.fin_rat (h.finite_cell i j)]
      simp
    rw [hcells, Exact.dot_vector, ← hrow, activity]
  · obtain ⟨answer, hanswer, hiff⟩ := feasible_iff (t := t) hM hlength hviolation
    refine ⟨answer, hanswer, hiff.trans (and_congr_right fun _ => ?_)⟩
    rw [isLUB_le_iff hgreatest.isLUB]
    exact ⟨fun hub e he => hub (Set.mem_insert_of_mem 0 he),
      fun hub => by rintro e (rfl | he); exacts [ht, hub e he]⟩

/-- Two triplets of one cell, and a zero. -/
def repeated : List (Nat × Nat × Exact) :=
  [(0, 0, .fin 1), (1, 1, .fin 3), (0, 1, .fin 0), (0, 0, .fin 1)]

/-- The rows `2 x₀ = 1` and `3 x₁ ≤ 2`, over a free variable and a binary one. -/
def ofRepeated : Program Exact where
  cost := [.fin 1, .fin 1]
  matrix := ⟨2, 2, [[(0, .fin 2)], [(0, .fin 0), (1, .fin 3)]], rfl, by decide,
    by simp [Column.Sorted]⟩
  rhs := [.fin 1, .fin 2]
  blocks := [.equality 1, .atMost 1]
  bounds := some [⟨0, some (.fin 0), some (.fin 5)⟩, ⟨0, none, none⟩]
  kinds := some [.continuous, .binary]

theorem ofTriplets_describes_repeated :
    ofRepeated.Describes repeated [.fin (1 / 2), .fin 1] ∧
      ofRepeated.violation [.fin (1 / 2), .fin 1] = .ok (.fin 1) := by
  have hmatrix : Matrix.ofTriplets 2 2 repeated = .ok ofRepeated.matrix :=
    Matrix.ofTriplets_eq_ok.2 ⟨by decide, rfl, rfl, by decide +kernel⟩
  exact ⟨ofTriplets_describes hmatrix (by decide +kernel) (by decide +kernel) rfl (by decide),
    by decide +kernel⟩

end Program

end Milp
