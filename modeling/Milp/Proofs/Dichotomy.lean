/-
  Branching divides the whole numbers of an interval.

  The halves of an interval that is split at a value are the parts below and above the two whole
  numbers around the value.  So each whole number of the interval is in one of the halves, however
  the ends of the interval lie.

  * `Interval.Has`: the values of an interval; `Interval.Whole`: its finite ends are whole.
  * `Decision.down_has`, `Decision.up_has`: the values of the halves.
  * `Decision.children_split`: both halves are created if the value lies in an interval with whole
    ends.
  * `Decision.Partitions`, `Decision.split_partitions`: what a split does to the whole numbers.
-/
import Milp.Branching.Decision
import Milp.Proofs.Scalar.Placed

namespace Milp

variable {F : Type} [Extended F]

/-- Does a value lie between the ends of an interval? -/
def Interval.Has (i : Interval F) (x : Exact) : Prop :=
  Scalar.exact i.lower ≤ x ∧ x ≤ Scalar.exact i.upper

theorem Interval.has_iff {i : Interval Exact} {x : Exact} :
    i.Has x ↔ i.lower ≤ x ∧ x ≤ i.upper := by
  rw [Has, Exact.exact_eq, Exact.exact_eq]

/-- The finite ends of an interval are whole numbers. -/
structure Interval.Whole (i : Interval F) : Prop where
  lower : ∀ {q}, Scalar.toRat? i.lower = some q → ∃ z : Int, q = z
  upper : ∀ {q}, Scalar.toRat? i.upper = some q → ∃ z : Int, q = z

namespace Scalar

variable {a : F} {v : Rat}

theorem le_self_of_toRat? [Faithful F] (h : toRat? a = some v) : a ≤ a :=
  (Faithful.le_iff h h).2 le_rfl

/-- A whole end below a value is not above the whole number below it. -/
theorem exact_le_floor (hwhole : ∀ {q}, toRat? a = some q → ∃ z : Int, q = z)
    (h : exact a ≤ .fin v) : exact a ≤ .fin ⌊v⌋ := by
  cases ha : exact a with
  | fin q =>
    obtain ⟨z, rfl⟩ := hwhole (toRat?_of_exact ha)
    rw [ha, Exact.fin_le_fin] at h
    exact Exact.fin_le_fin.2 (by exact_mod_cast Int.le_floor.2 h)
  | negInf => exact Exact.negInf_le_fin _
  | nan => exact absurd ha (Exact.ne_nan_of_le_left h)
  | posInf =>
    rw [ha] at h
    simp [Exact.le_def, Exact.below, Exact.same] at h

/-- A whole end above a value is not below the whole number above it. -/
theorem ceil_le_exact (hwhole : ∀ {q}, toRat? a = some q → ∃ z : Int, q = z)
    (h : .fin v ≤ exact a) : .fin ⌈v⌉ ≤ exact a := by
  cases ha : exact a with
  | fin q =>
    obtain ⟨z, rfl⟩ := hwhole (toRat?_of_exact ha)
    rw [ha, Exact.fin_le_fin] at h
    exact Exact.fin_le_fin.2 (by exact_mod_cast Int.ceil_le.2 h)
  | posInf => exact Exact.fin_le_posInf _
  | nan => exact absurd ha (Exact.ne_nan_of_le_right h)
  | negInf =>
    rw [ha] at h
    simp [Exact.le_def, Exact.below, Exact.same] at h

end Scalar

variable [Scalar.Ordered F] [Scalar.Placed F]

omit [Scalar.Ordered F] in
/-- An interval with a value in it is in order. -/
theorem Interval.Has.ordered {i : Interval F} {x : Exact} (h : i.Has x) : i.lower ≤ i.upper :=
  Scalar.Placed.le_iff.2 (Exact.le_trans h.1 h.2)

/-- A change to an interval in order is not empty. -/
theorem BoundChange.not_isEmpty_of_le {c : BoundChange F} (h : c.new.lower ≤ c.new.upper) :
    c.isEmpty = false := by
  obtain ⟨hfinite, hnonneg⟩ := Scalar.Placed.margin (F := F)
  have hmargin := Scalar.Placed.le_add_self (Scalar.Ordered.refl_of_le h).2 hfinite hnonneg
  exact decide_eq_false (Scalar.not_lt_of_le (Scalar.Ordered.le_trans h hmargin))

/-! ## The halves of an interval -/

section Halves

variable [Scalar.Faithful F] {var : Nat} {value score : F} {i : Interval F} {v : Rat} {x : Exact}

namespace Interval

omit [Scalar.Ordered F] [Scalar.Placed F] [Scalar.Faithful F] in
theorem Has.floor (h : i.Has (.fin v)) (hwhole : i.Whole) : i.Has (.fin ⌊v⌋) :=
  ⟨Scalar.exact_le_floor hwhole.lower h.1,
    Exact.le_trans (Exact.fin_le_fin.2 (Int.floor_le v)) h.2⟩

omit [Scalar.Ordered F] [Scalar.Placed F] [Scalar.Faithful F] in
theorem Has.ceil (h : i.Has (.fin v)) (hwhole : i.Whole) : i.Has (.fin ⌈v⌉) :=
  ⟨Exact.le_trans h.1 (Exact.fin_le_fin.2 (Int.le_ceil v)), Scalar.ceil_le_exact hwhole.upper h.2⟩

end Interval

namespace Decision

variable (var score) in
/-- The lower half has the values up to the whole number below the one that is split at, -/
theorem down_has (hv : Scalar.toRat? value = some v) (hi : i.lower ≤ i.upper) :
    (split var value i score).down.new.Has x ↔ i.Has x ∧ x ≤ .fin ⌊v⌋ := by
  have hfloor := Scalar.Faithful.floor_eq hv
  have hmin := Scalar.le_exact_min (x := x) (Scalar.le_self_of_toRat? hfloor)
    (Scalar.Ordered.refl_of_le hi).2
  rw [Scalar.exact_of_toRat? hfloor] at hmin
  show Scalar.exact i.lower ≤ x ∧ x ≤ Scalar.exact (Scalar.min (Scalar.floor value) i.upper) ↔ _
  rw [hmin, and_comm (a := x ≤ .fin _), ← and_assoc]
  rfl

variable (var score) in
/-- and the upper half those from the whole number above it. -/
theorem up_has (hv : Scalar.toRat? value = some v) (hi : i.lower ≤ i.upper) :
    (split var value i score).up.new.Has x ↔ i.Has x ∧ .fin ⌈v⌉ ≤ x := by
  have hceil := Scalar.Faithful.ceil_eq hv
  have hmax := Scalar.exact_max_le (x := x) (Scalar.le_self_of_toRat? hceil)
    (Scalar.Ordered.refl_of_le hi).1
  rw [Scalar.exact_of_toRat? hceil] at hmax
  show Scalar.exact (Scalar.max (Scalar.ceil value) i.lower) ≤ x ∧ x ≤ Scalar.exact i.upper ↔ _
  rw [hmax, and_assoc, and_comm]
  rfl

variable (var score) in
/-- Each whole number of the interval is in one of the halves. -/
theorem half_has {z : Int} (hv : Scalar.toRat? value = some v) (h : i.Has (.fin z)) :
    (split var value i score).down.new.Has (.fin z) ∨
      (split var value i score).up.new.Has (.fin z) := by
  rcases le_or_gt z ⌊v⌋ with hle | hgt
  · refine .inl ((down_has var score hv h.ordered).2 ⟨h, Exact.fin_le_fin.2 ?_⟩)
    exact_mod_cast hle
  · refine .inr ((up_has var score hv h.ordered).2 ⟨h, Exact.fin_le_fin.2 ?_⟩)
    exact_mod_cast Int.ceil_le.2 (Int.floor_lt.1 hgt).le

omit [Scalar.Faithful F] in
/-- A half that has a value is created. -/
theorem mem_children {d : Decision F} {c : BoundChange F} (hc : c ∈ [d.down, d.up])
    (h : c.new.Has x) : c ∈ d.children :=
  List.mem_filter.2 ⟨hc, by rw [BoundChange.not_isEmpty_of_le h.ordered]; rfl⟩

section Inside

variable (hv : Scalar.toRat? value = some v) (h : i.Has (.fin v)) (hwhole : i.Whole)

include hv h hwhole

variable (var score) in
/-- A value between whole ends leaves the whole number below it as the end of the lower half, -/
theorem down_upper : (split var value i score).down.new.Has (.fin ⌊v⌋) ∧
    Scalar.toRat? (split var value i score).down.new.upper = some (⌊v⌋ : Rat) := by
  have hhas := (down_has var score hv h.ordered).2
    ⟨h.floor hwhole, Exact.le_refl Exact.noConfusion⟩
  have hend : (split var value i score).down.new.Has
      (Scalar.exact (split var value i score).down.new.upper) :=
    ⟨Scalar.Placed.le_iff.1 hhas.ordered, Exact.le_refl (Exact.ne_nan_of_le_right hhas.2)⟩
  exact ⟨hhas, Scalar.toRat?_of_exact
    (Exact.eq_fin ((down_has var score hv h.ordered).1 hend).2 hhas.2)⟩

variable (var score) in
/-- and the whole number above it as the end of the upper half. -/
theorem up_lower : (split var value i score).up.new.Has (.fin ⌈v⌉) ∧
    Scalar.toRat? (split var value i score).up.new.lower = some (⌈v⌉ : Rat) := by
  have hhas := (up_has var score hv h.ordered).2 ⟨h.ceil hwhole, Exact.le_refl Exact.noConfusion⟩
  have hend : (split var value i score).up.new.Has
      (Scalar.exact (split var value i score).up.new.lower) :=
    ⟨Exact.le_refl (Exact.ne_nan_of_le_left hhas.1), Scalar.Placed.le_iff.1 hhas.ordered⟩
  exact ⟨hhas, Scalar.toRat?_of_exact
    (Exact.eq_fin hhas.1 ((up_has var score hv h.ordered).1 hend).2)⟩

/-- Then both halves are created, -/
theorem children_split :
    (split var value i score).children = [(split var value i score).down,
      (split var value i score).up] := by
  have hdown := BoundChange.not_isEmpty_of_le (down_upper var score hv h hwhole).1.ordered
  have hup := BoundChange.not_isEmpty_of_le (up_lower var score hv h hwhole).1.ordered
  simp [children, hdown, hup]

/-- and their ends are whole. -/
theorem whole_of_mem_children {c : BoundChange F} (hc : c ∈ (split var value i score).children) :
    c.new.Whole ∧ c.new.lower ≤ c.new.upper := by
  obtain ⟨hdown, hupper⟩ := down_upper var score hv h hwhole
  obtain ⟨hup, hlower⟩ := up_lower var score hv h hwhole
  rw [children_split hv h hwhole] at hc
  simp only [List.mem_cons, List.not_mem_nil, or_false] at hc
  rcases hc with rfl | rfl
  · refine ⟨⟨hwhole.lower, fun hq => ⟨⌊v⌋, ?_⟩⟩, hdown.ordered⟩
    exact Option.some.inj (hq.symm.trans hupper)
  · refine ⟨⟨fun hq => ⟨⌈v⌉, ?_⟩, hwhole.upper⟩, hup.ordered⟩
    exact Option.some.inj (hq.symm.trans hlower)

end Inside

end Decision

end Halves

/-! ## What a split does -/

/-- Each whole number of an interval is in one of the two halves and not in the other; what is
    created is a half in which there is one, the lower half first.  The halves lie inside the
    interval, and beside the value that is split at.  If the value lies in the interval, and the ends
    are whole, there are two children, which go down and up and away from the value. -/
structure Decision.Partitions (d : Decision F) (i : Interval F) : Prop where
  one : ∀ z : Int, i.Has (.fin z) →
    (d.down.new.Has (.fin z) ∨ d.up.new.Has (.fin z)) ∧
      ¬ (d.down.new.Has (.fin z) ∧ d.up.new.Has (.fin z))
  kept : ∀ c ∈ [d.down, d.up], ∀ z : Int, c.new.Has (.fin z) → c ∈ d.children
  inOrder : d.children.Sublist [d.down, d.up]
  inside : ∀ c ∈ [d.down, d.up], ∀ x, c.new.Has x → i.Has x
  apart : ∀ c ∈ [d.down, d.up], ¬ c.new.Has (Scalar.exact d.value)
  both : i.Has (Scalar.exact d.value) → i.Whole → d.children = [d.down, d.up] ∧
    d.down.isUp = false ∧ d.up.isUp = true ∧ 0 < d.down.distance ∧ 0 < d.up.distance

/-- **Branching partitions the whole numbers of an interval**, at each value that is not whole, in
    each interval in order, which may be infinite and need not have whole ends. -/
theorem Decision.split_partitions [Scalar.Faithful F] (var : Nat) {value : F} (score : F)
    {i : Interval F} {v : Rat} (hv : Scalar.toRat? value = some v) (hne : ∀ z : Int, v ≠ z)
    (hi : i.lower ≤ i.upper) : (Decision.split var value i score).Partitions i := by
  have hplace := Scalar.exact_of_toRat? hv
  have hfloor : ⌊v⌋ < v := (Int.floor_le v).lt_of_ne (hne _).symm
  have hceil : v < ⌈v⌉ := (Int.le_ceil v).lt_of_ne (hne _)
  constructor
  · intro z hz
    refine ⟨half_has var score hv hz, fun ⟨hdown, hup⟩ => ?_⟩
    have hle := Exact.fin_le_fin.1 ((down_has var score hv hi).1 hdown).2
    have hge := Exact.fin_le_fin.1 ((up_has var score hv hi).1 hup).2
    exact absurd (hge.trans hle) (not_le.2 (hfloor.trans hceil))
  · exact fun c hc z hz => mem_children hc hz
  · exact List.filter_sublist
  · intro c hc x hx
    simp only [List.mem_cons, List.not_mem_nil, or_false] at hc
    rcases hc with rfl | rfl
    · exact ((down_has var score hv hi).1 hx).1
    · exact ((up_has var score hv hi).1 hx).1
  · intro c hc hx
    rw [show (split var value i score).value = value from rfl, hplace] at hx
    simp only [List.mem_cons, List.not_mem_nil, or_false] at hc
    rcases hc with rfl | rfl
    · exact not_le.2 hfloor (Exact.fin_le_fin.1 ((down_has var score hv hi).1 hx).2)
    · exact not_le.2 hceil (Exact.fin_le_fin.1 ((up_has var score hv hi).1 hx).2)
  · intro hx hwhole
    rw [show (split var value i score).value = value from rfl, hplace] at hx
    have hdown : (split var value i score).down.isUp = false :=
      decide_eq_false (Scalar.not_lt_of_le (Scalar.Ordered.refl_of_le hi).1)
    have hlower := (up_lower var score hv hx hwhole).2
    have hup : (split var value i score).up.isUp = true := by
      refine decide_eq_true (Scalar.Placed.lt_iff.2 ?_)
      rw [Scalar.exact_of_toRat? hlower]
      exact Exact.lt_of_le_of_lt hx.1 (Exact.fin_lt_fin.2 hceil)
    refine ⟨children_split hv hx hwhole, hdown, hup, ?_, ?_⟩
    · rw [BoundChange.distance, hdown]
      exact Scalar.Placed.sub_pos (down_upper var score hv hx hwhole).2 hv hfloor
    · rw [BoundChange.distance, hup]
      exact Scalar.Placed.sub_pos hv hlower hceil

/-- In doubles, 2.5 splits what is not below 0.5 into two children; the interval has no greatest
    end, and its least one is not whole. -/
theorem Decision.split_partitions_half :
    (Decision.split 0 (2.5 : Float) ⟨0.5, Extended.infinity⟩ 0.5).Partitions
        ⟨0.5, Extended.infinity⟩ ∧
      (Decision.split 0 (2.5 : Float) ⟨0.5, Extended.infinity⟩ 0.5).children.length = 2 := by
  refine ⟨Decision.split_partitions 0 0.5 (v := 5 / 2) (by decide +kernel) (fun z hz => ?_)
    (by decide +kernel), by decide +kernel⟩
  have hden := congrArg Rat.den hz
  rw [Rat.den_intCast] at hden
  exact absurd hden (by decide +kernel)

end Milp
