/-
  The order and the arithmetic of exact scalars.

  The value that is no number stands outside the order; on all others `≤` is the order of the
  rationals with two infinities.
-/
import Milp.Program.Basic
import Milp.Proofs.Scalar.Basic
import Milp.Scalar.Exact
import Mathlib.Algebra.Order.Floor.Ring
import Mathlib.Data.Rat.Floor
import Mathlib.Tactic.Linarith

namespace Milp.Exact

variable {a b c : Exact} {p q t : Rat}

/-! ## Rationals among the exact scalars -/

theorem lt_def : a < b ↔ below a b = true := Iff.rfl

theorem le_def : a ≤ b ↔ below a b = true ∨ same a b = true := by
  show (below a b || same a b) = true ↔ _
  rw [Bool.or_eq_true]

@[simp] theorem fin_lt_fin : fin p < fin q ↔ p < q := by simp [lt_def, below]

@[simp] theorem fin_le_fin : fin p ≤ fin q ↔ p ≤ q := by
  simp [le_def, below, same, le_iff_lt_or_eq]

theorem add_def : a + b = Exact.add a b := rfl

theorem sub_def : a - b = Exact.add a (Exact.neg b) := rfl

theorem neg_def : -a = Exact.neg a := rfl

theorem beq_def : (a == b) = same a b := rfl

@[simp] theorem fin_add_fin : fin p + fin q = fin (p + q) := rfl

@[simp] theorem fin_sub_fin : fin p - fin q = fin (p - q) := by
  rw [sub_eq_add_neg]
  rfl

@[simp] theorem fin_mul_fin : fin p * fin q = fin (p * q) := rfl

theorem fin_div_fin (hq : q ≠ 0) : fin p / fin q = fin (p / q) := by
  show (if q = 0 then _ else _) = _
  rw [if_neg hq]

@[simp] theorem neg_fin : -fin q = fin (-q) := rfl

@[simp] theorem floor_fin : Scalar.floor (fin q) = fin ⌊q⌋ := rfl

@[simp] theorem ceil_fin : Scalar.ceil (fin q) = fin ⌈q⌉ := by
  show fin q.ceil = fin ⌈q⌉
  rw [Rat.ceil_eq_neg_floor_neg]
  rfl

theorem isFinite_iff : Scalar.isFinite a = true ↔ ∃ q, a = fin q := by
  cases a <;> simp [Scalar.isFinite]

theorem isNaN_iff : Scalar.isNaN a = true ↔ a = nan := by
  show decide (a = nan) = true ↔ a = nan
  exact decide_eq_true_iff

theorem zero_eq : (0 : Exact) = fin 0 := by
  show fin (Rational.ofDecimal 0 false 0) = fin 0
  rfl

theorem fin_beq_zero : (fin q == (0 : Exact)) = true ↔ q = 0 := by
  rw [zero_eq, beq_def]
  simp [same]

theorem one_eq : (1 : Exact) = fin 1 := by
  show fin (Rational.ofDecimal 1 false 0) = fin 1
  rfl

/-- The rational part of an exact scalar. -/
def rat : Exact → Rat
  | fin q => q
  | _ => 0

@[simp] theorem rat_fin (q : Rat) : (fin q).rat = q := rfl

theorem fin_rat (h : Scalar.isFinite a = true) : fin a.rat = a := by
  obtain ⟨q, rfl⟩ := isFinite_iff.1 h
  rfl

/-! ## Order -/

theorem ne_nan_of_le_left (h : a ≤ b) : a ≠ nan := by
  rintro rfl
  simp [le_def, below, same] at h

theorem ne_nan_of_le_right (h : a ≤ b) : b ≠ nan := by
  rintro rfl
  cases a <;> simp [le_def, below, same] at h

theorem le_refl (h : a ≠ nan) : a ≤ a := by
  cases a <;> simp_all [le_def, same]

theorem le_trans (h : a ≤ b) (h' : b ≤ c) : a ≤ c := by
  cases a <;> cases b <;> cases c <;> simp_all [le_def, below, same]
  grind

theorem le_of_lt (h : a < b) : a ≤ b := le_def.2 (.inl h)

theorem lt_of_lt_of_le (h : a < b) (h' : b ≤ c) : a < c := by
  cases a <;> cases b <;> cases c <;> simp_all [le_def, lt_def, below, same]
  grind

theorem lt_of_le_of_lt (h : a ≤ b) (h' : b < c) : a < c := by
  cases a <;> cases b <;> cases c <;> simp_all [le_def, lt_def, below, same]
  grind

theorem eq_fin_of_between (h : fin p ≤ a) (h' : a ≤ fin q) : ∃ r, a = fin r := by
  cases a <;> simp_all [le_def, below, same]

theorem eq_fin (h : a ≤ fin q) (h' : fin q ≤ a) : a = fin q := by
  cases a <;> simp_all [le_def, below, same]
  grind

theorem negInf_le_fin (q : Rat) : .negInf ≤ fin q := by simp [le_def, below]

theorem fin_le_posInf (q : Rat) : fin q ≤ .posInf := by simp [le_def, below]

theorem not_lt_of_le (h : a ≤ b) : ¬ b < a := by
  cases a <;> cases b <;> simp_all [le_def, lt_def, below, same]
  grind

theorem le_of_not_lt (ha : a ≠ nan) (hb : b ≠ nan) (h : ¬ b < a) : a ≤ b := by
  cases a <;> cases b <;> simp_all [le_def, lt_def, below, same]
  grind

/-- A finite tolerance that is not negative. -/
theorem sub_le (h : a ≤ b) (ht : 0 ≤ t) : a - fin t ≤ b := by
  cases a <;> cases b <;> simp_all [le_def, below, same, sub_def, Exact.add, Exact.neg]
  grind

theorem le_add (h : a ≤ b) (ht : 0 ≤ t) : a ≤ b + fin t := by
  cases a <;> cases b <;> simp_all [le_def, below, same, add_def, Exact.add]
  grind

/-- A value that is at least zero and at most zero. -/
theorem eq_zero (h : 0 ≤ a) (h' : a ≤ 0) : a = fin 0 := by
  rw [zero_eq] at h h'
  exact eq_fin h' h

theorem fin_sub_nonpos (h : fin q ≤ b) : fin q - b ≤ 0 := by
  rw [zero_eq]
  cases b <;> simp_all [le_def, below, same, sub_def, Exact.add, Exact.neg]
  grind

theorem sub_fin_nonpos (h : a ≤ fin q) : a - fin q ≤ 0 := by
  rw [zero_eq]
  cases a <;> simp_all [le_def, below, same, sub_def, Exact.add, Exact.neg]
  grind

theorem not_infOf_lt_zero (h : 0 ≤ q) : ¬ infOf q < fin 0 := by
  rw [infOf, if_neg (not_lt.2 h)]
  split <;> decide

/-- The product of values that are not negative is not negative; it may be no number. -/
theorem not_mul_lt_zero (ha : ¬ a < fin 0) (hb : ¬ b < fin 0) : ¬ a * b < fin 0 := by
  cases a with
  | nan => cases b <;> exact nofun
  | negInf => exact absurd rfl ha
  | fin p =>
    have hp : 0 ≤ p := not_lt.1 (mt fin_lt_fin.2 ha)
    cases b with
    | nan => exact nofun
    | negInf => exact absurd rfl hb
    | fin q =>
      rw [fin_mul_fin, fin_lt_fin, not_lt]
      exact mul_nonneg hp (not_lt.1 (mt fin_lt_fin.2 hb))
    | posInf => exact not_infOf_lt_zero hp
  | posInf =>
    cases b with
    | negInf => exact absurd rfl hb
    | fin q => exact not_infOf_lt_zero (not_lt.1 (mt fin_lt_fin.2 hb))
    | _ => decide

theorem sub_le_sub (h : a ≤ b) : a - fin t ≤ b - fin t := by
  cases a <;> cases b <;> simp_all [le_def, below, same, sub_def, Exact.add, Exact.neg]

theorem min_le_left (h : a ≠ nan) : Scalar.min a b ≤ a := by
  unfold Scalar.min
  split
  · exact absurd (isNaN_iff.1 ‹_›) h
  · split
    · exact le_refl h
    · split
      · exact le_of_lt ‹_›
      · exact le_refl h

theorem min_le_right (h : b ≠ nan) : Scalar.min a b ≤ b := by
  unfold Scalar.min
  split
  · exact le_refl h
  · split
    · exact absurd (isNaN_iff.1 ‹_›) h
    · rename_i ha _
      split
      · exact le_refl h
      · exact le_of_not_lt (fun h' => ha (isNaN_iff.2 h')) h ‹_›

@[simp] theorem sub_fin_zero : a - fin 0 = a := by
  cases a <;> simp [sub_def, Exact.add, Exact.neg]

protected theorem zero_add (a : Exact) : 0 + a = a := by
  rw [zero_eq]
  cases a <;> simp [add_def, Exact.add]

@[simp] theorem add_fin_zero : a + fin 0 = a := by
  cases a <;> simp [add_def, Exact.add]

/-! ## Directions -/

@[simp] theorem normalize_normalize (s : Sense) (a : Exact) : s.normalize (s.normalize a) = a := by
  cases s
  · rfl
  · cases a <;> simp [Sense.normalize, neg_def, Exact.neg]

theorem normalize_fin (s : Sense) (q : Rat) : ∃ q', s.normalize (fin q) = fin q' := by
  cases s
  · exact ⟨q, rfl⟩
  · exact ⟨-q, rfl⟩

/-- There is only one zero. -/
theorem positiveZero_eq (a : Exact) : Scalar.positiveZero a = a := by
  unfold Scalar.positiveZero
  split
  · rename_i h
    cases a <;> simp_all [zero_eq, beq_def, same]
  · rfl

/-! ## Negation -/

@[simp] protected theorem neg_neg (a : Exact) : - -a = a := by
  cases a <;> simp [neg_def, Exact.neg]

@[simp] protected theorem neg_zero : -(0 : Exact) = 0 := by
  rw [zero_eq, neg_fin, neg_zero]

protected theorem neg_add (a b : Exact) : -(a + b) = -a + -b := by
  cases a with
  | fin p =>
    cases b with
    | fin q =>
      show fin (-(p + q)) = fin (-p + -q)
      congr 1
      grind
    | _ => rfl
  | _ => cases b <;> rfl

protected theorem neg_sub_neg (a b : Exact) : -a - -b = -(a - b) := by
  rw [sub_def, sub_def, ← neg_def, ← neg_def, ← add_def, ← add_def, Exact.neg_add]

theorem neg_infOf (q : Rat) : -infOf q = infOf (-q) := by
  rcases lt_trichotomy q 0 with h | rfl | h
  · simp [infOf, neg_def, Exact.neg, h, not_lt_of_gt h]
  · rfl
  · simp [infOf, neg_def, Exact.neg, h, not_lt_of_gt h]

protected theorem neg_mul (a b : Exact) : -a * b = -(a * b) := by
  cases a with
  | nan => cases b <;> rfl
  | fin p =>
    cases b with
    | nan => rfl
    | fin q =>
      show fin (-p * q) = fin (-(p * q))
      congr 1
      grind
    | posInf => exact (neg_infOf p).symm
    | negInf => exact (neg_infOf (-p)).symm
  | posInf =>
    cases b with
    | fin q => exact (neg_infOf q).symm
    | _ => rfl
  | negInf =>
    cases b with
    | fin q =>
      show infOf q = -infOf (-q)
      rw [neg_infOf, neg_neg]
    | _ => rfl

theorem isFinite_neg (a : Exact) : Scalar.isFinite (-a) = Scalar.isFinite a := by
  cases a <;> rfl

theorem isNaN_neg (a : Exact) : Scalar.isNaN (-a) = Scalar.isNaN a := by
  cases a <;> rfl

protected theorem abs_neg (a : Exact) : Scalar.abs (-a) = Scalar.abs a := by
  cases a with
  | fin q =>
    show fin (if 0 ≤ -q then -q else - -q) = fin (if 0 ≤ q then q else -q)
    congr 1
    grind
  | _ => rfl

/-- Turning one side around turns the inner product around. -/
theorem dot_neg (xs ys : List Exact) : Scalar.dot (xs.map (-·)) ys = -Scalar.dot xs ys := by
  have key : ∀ (xs ys : List Exact) (a : Exact),
      (List.zipWith (· * ·) (xs.map (-·)) ys).foldl (· + ·) (-a) =
        -(List.zipWith (· * ·) xs ys).foldl (· + ·) a := by
    intro xs
    induction xs with
    | nil => intro ys a; rfl
    | cons x xs ih =>
      intro ys a
      rcases ys with _ | ⟨y, ys⟩
      · rfl
      · simp only [List.map_cons, List.zipWith_cons_cons, List.foldl_cons]
        rw [Exact.neg_mul, ← Exact.neg_add, ih]
  have hstart := key xs ys (-0)
  rwa [Exact.neg_zero, Exact.neg_zero] at hstart

/-! ## Finite sums -/

theorem foldl_add_fin {xs : List Exact} (h : ∀ x ∈ xs, ∃ q, x = fin q) (p : Rat) :
    ∃ q, xs.foldl (· + ·) (fin p) = fin q := by
  induction xs generalizing p with
  | nil => exact ⟨p, rfl⟩
  | cons x xs ih =>
    obtain ⟨q, rfl⟩ := h x List.mem_cons_self
    exact ih (fun y hy => h y (List.mem_cons_of_mem _ hy)) (p + q)

/-- A sum that is added up from left to right, each term as a rational. -/
theorem foldl_fin {α : Type} {f : Exact → α → Exact} {g : α → Rat} {xs : List α}
    (h : ∀ b, ∀ x ∈ xs, f (fin b) x = fin (b + g x)) (b : Rat) :
    xs.foldl f (fin b) = fin (b + (xs.map g).sum) := by
  induction xs generalizing b with
  | nil => simp
  | cons x xs ih =>
    rw [List.foldl_cons, h b x List.mem_cons_self,
      ih (fun b x hx => h b x (List.mem_cons_of_mem _ hx)), List.map_cons, List.sum_cons,
      add_assoc]

theorem dot_fin {xs ys : List Exact} (hx : xs.all Scalar.isFinite = true)
    (hy : ys.all Scalar.isFinite = true) : ∃ q, Scalar.dot xs ys = fin q := by
  refine foldl_add_fin (p := -0) fun x hmem => ?_
  rw [← List.map_uncurry_zip_eq_zipWith] at hmem
  obtain ⟨⟨a, b⟩, hab, rfl⟩ := List.mem_map.1 hmem
  obtain ⟨ha, hb⟩ := List.of_mem_zip hab
  obtain ⟨p, rfl⟩ := isFinite_iff.1 (List.all_eq_true.1 hx a ha)
  obtain ⟨q, rfl⟩ := isFinite_iff.1 (List.all_eq_true.1 hy b hb)
  exact ⟨p * q, rfl⟩

/-- A rational point. -/
def vector {n : Nat} (x : Fin n → Rat) : List Exact := List.ofFn fun j => fin (x j)

@[simp] theorem length_vector {n : Nat} (x : Fin n → Rat) : (vector x).length = n := by
  simp [vector]

@[simp] theorem getElem_vector {n : Nat} (x : Fin n → Rat) {j : Nat} (hj : j < (vector x).length) :
    (vector x)[j] = fin (x ⟨j, by simpa using hj⟩) := by
  simp [vector]

end Milp.Exact
