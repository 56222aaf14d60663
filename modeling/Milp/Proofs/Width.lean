/-
  How far a region can still be halved.

  The width of an interval counts the steps between the whole numbers around it.  Of the two halves
  of an interval that is split at a value each is narrower, unless one of them is the interval that
  was there before; that happens only if the value lies outside.

  * `Interval.width`, `Restrictions.span`: the width of an interval, and of a region.
  * `Decision.repeats`: is one of the halves not narrower than the whole?
  * `Decision.width_le`, `Decision.width_lt`: the halves of a split.
  * `Restrictions.span_set_le`, `Restrictions.span_set_lt`: what this means for the region.
-/
import Milp.Proofs.Branching
import Milp.Proofs.Scalar.Faithful
import Mathlib.Algebra.Order.BigOperators.Group.List

namespace Milp

variable {F : Type} [Scalar F]

/-- Both ends are finite. -/
def Interval.Finite (i : Interval F) : Prop :=
  ∃ l u, Scalar.toRat? i.lower = some l ∧ Scalar.toRat? i.upper = some u

/-- The distance of the whole numbers around an interval. -/
def Interval.width (i : Interval F) : Nat :=
  match Scalar.toRat? i.lower, Scalar.toRat? i.upper with
  | some l, some u => (⌈u⌉ - ⌊l⌋).toNat
  | _, _ => 0

/-- Is one of the halves not narrower than the whole? -/
def Decision.repeats (d : Decision F) : Bool :=
  !decide (d.down.new.upper < d.down.old.upper) || !decide (d.up.old.lower < d.up.new.lower)

theorem Interval.width_eq {i : Interval F} {l u : Rat} (hl : Scalar.toRat? i.lower = some l)
    (hu : Scalar.toRat? i.upper = some u) : i.width = (⌈u⌉ - ⌊l⌋).toNat := by
  rw [width, hl, hu]

variable [Scalar.Faithful F]

/-! ## Intervals -/

section Cut

variable {i j : Interval F}

theorem Interval.Finite.cut (hi : i.Finite) (hj : j.Finite) : (i.cut j).Finite := by
  obtain ⟨l, u, hl, hu⟩ := hi
  obtain ⟨l', u', hl', hu'⟩ := hj
  exact ⟨_, _, Scalar.toRat?_max hl hl', Scalar.toRat?_min hu hu'⟩

/-- What is left of two intervals is not wider than either. -/
theorem Interval.width_cut_le (hi : i.Finite) (hj : j.Finite) :
    (i.cut j).width ≤ i.width ∧ (i.cut j).width ≤ j.width := by
  obtain ⟨l, u, hl, hu⟩ := hi
  obtain ⟨l', u', hl', hu'⟩ := hj
  rw [width_eq hl hu, width_eq hl' hu', width_eq (i := i.cut j) (Scalar.toRat?_max hl hl')
    (Scalar.toRat?_min hu hu')]
  have hceil : ⌈min u u'⌉ ≤ ⌈u⌉ ∧ ⌈min u u'⌉ ≤ ⌈u'⌉ :=
    ⟨Int.ceil_mono (min_le_left u u'), Int.ceil_mono (min_le_right u u')⟩
  have hfloor : ⌊l⌋ ≤ ⌊max l l'⌋ ∧ ⌊l'⌋ ≤ ⌊max l l'⌋ :=
    ⟨Int.floor_mono (le_max_left l l'), Int.floor_mono (le_max_right l l')⟩
  omega

end Cut

/-! ## Halves -/

section Split

variable {var : Nat} {value score : F} {interval : Interval F} {v : Rat}

variable (var score) in
/-- The ends of the halves. -/
theorem Decision.toRat?_split {l u : Rat} (hl : Scalar.toRat? interval.lower = some l)
    (hu : Scalar.toRat? interval.upper = some u) (hv : Scalar.toRat? value = some v) :
    let d := Decision.split var value interval score
    Scalar.toRat? d.down.new.upper = some (min (⌊v⌋ : Rat) u) ∧
      Scalar.toRat? d.up.new.lower = some (max (⌈v⌉ : Rat) l) :=
  ⟨Scalar.toRat?_min (Scalar.Faithful.floor_eq hv) hu,
    Scalar.toRat?_max (Scalar.Faithful.ceil_eq hv) hl⟩

/-- Both halves are narrower exactly if the value lies strictly between the ends, after rounding. -/
theorem Decision.repeats_split {l u : Rat} (hl : Scalar.toRat? interval.lower = some l)
    (hu : Scalar.toRat? interval.upper = some u) (hv : Scalar.toRat? value = some v) :
    (Decision.split var value interval score).repeats = false ↔ (⌊v⌋ : Rat) < u ∧ l < ⌈v⌉ := by
  obtain ⟨hdown, hup⟩ := toRat?_split var score hl hu hv
  have hupper := Scalar.Faithful.lt_iff hdown hu
  have hlower := Scalar.Faithful.lt_iff hl hup
  simp only [min_lt_iff, lt_self_iff_false, or_false] at hupper
  simp only [lt_max_iff, lt_self_iff_false, or_false] at hlower
  simp only [repeats, Bool.or_eq_false_iff, Bool.not_eq_false', decide_eq_true_eq]
  exact and_congr hupper hlower

/-- A half is an interval with finite ends that is not wider than the whole. -/
theorem Decision.width_le {change : BoundChange F} (hi : interval.Finite)
    (hv : Scalar.toRat? value = some v)
    (h : change ∈ (Decision.split var value interval score).children) :
    change.new.Finite ∧ change.new.width ≤ interval.width := by
  obtain ⟨l, u, hl, hu⟩ := hi
  obtain ⟨hdown, hup⟩ := toRat?_split var score hl hu hv
  have hmem := (List.mem_filter.1 h).1
  simp only [List.mem_cons, List.not_mem_nil, or_false] at hmem
  rcases hmem with rfl | rfl
  · refine ⟨⟨_, _, hl, hdown⟩, ?_⟩
    rw [Interval.width_eq hl hu,
      Interval.width_eq (i := (Decision.split var value interval score).down.new) hl hdown]
    have hceil : ⌈min (⌊v⌋ : Rat) u⌉ ≤ ⌈u⌉ := Int.ceil_mono (min_le_right _ _)
    omega
  · refine ⟨⟨_, _, hup, hu⟩, ?_⟩
    rw [Interval.width_eq hl hu, Interval.width_eq hup hu]
    have hfloor : ⌊l⌋ ≤ ⌊max (⌈v⌉ : Rat) l⌋ := Int.floor_mono (le_max_right _ _)
    omega

/-- Unless a half repeats the whole, both are narrower. -/
theorem Decision.width_lt {change : BoundChange F} (hi : interval.Finite)
    (hv : Scalar.toRat? value = some v)
    (h : change ∈ (Decision.split var value interval score).children)
    (hrepeats : (Decision.split var value interval score).repeats = false) :
    change.new.width < interval.width := by
  obtain ⟨l, u, hl, hu⟩ := hi
  obtain ⟨hdown, hup⟩ := toRat?_split var score hl hu hv
  obtain ⟨hupper, hlower⟩ := (repeats_split hl hu hv).1 hrepeats
  have hmem := (List.mem_filter.1 h).1
  simp only [List.mem_cons, List.not_mem_nil, or_false] at hmem
  -- the whole contains the two whole numbers around the value
  have hu' : ⌊v⌋ < ⌈u⌉ := Int.lt_ceil.2 hupper
  have hl' : ⌊l⌋ < ⌈v⌉ := Int.floor_lt.2 hlower
  have hnext : ⌈v⌉ ≤ ⌊v⌋ + 1 := Int.ceil_le_floor_add_one v
  rcases hmem with rfl | rfl
  · rw [Interval.width_eq hl hu,
      Interval.width_eq (i := (Decision.split var value interval score).down.new) hl hdown,
      min_eq_left hupper.le, Int.ceil_intCast]
    omega
  · rw [Interval.width_eq hl hu, Interval.width_eq hup hu, max_eq_left hlower.le, Int.floor_intCast]
    omega

/-- A value that is not whole and lies in the interval leaves two halves that are narrower. -/
theorem Decision.not_repeats {tolerance : F} {τ : Rat} (hi : interval.Finite)
    (hv : Scalar.toRat? value = some v) (ht : Scalar.toRat? tolerance = some τ) (hτ : 0 ≤ τ)
    (hnotWhole : ¬ Scalar.fractionality value ≤ tolerance ∨
      tolerance < Scalar.fractionality value)
    (hlower : interval.lower ≤ value) (hupper : value ≤ interval.upper) :
    (Decision.split var value interval score).repeats = false := by
  obtain ⟨l, u, hl, hu⟩ := hi
  rw [Scalar.Faithful.le_iff hl hv] at hlower
  rw [Scalar.Faithful.le_iff hv hu] at hupper
  have hne := Scalar.ne_intCast_of_fractionality hv ht hτ hnotWhole
  rw [repeats_split hl hu hv]
  exact ⟨((Int.floor_le v).lt_of_ne (hne _).symm).trans_le hupper,
    hlower.trans_lt ((Int.le_ceil v).lt_of_ne (hne _))⟩

end Split

/-! ## Regions -/

/-- The intervals of some variables are finite. -/
def Box.FiniteOn (box : Box F) (vars : List Nat) : Prop :=
  ∀ var ∈ vars, ∃ i, box.interval var = .ok i ∧ i.Finite

/-- The restrictions of some variables are finite. -/
def Restrictions.FiniteOn (r : Restrictions F) (vars : List Nat) : Prop :=
  ∀ var ∈ vars, ∀ i, r.get? var = some i → i.Finite

/-- The widths of some variables in a region, taken together. -/
def Restrictions.span (r : Restrictions F) (box : Box F) (vars : List Nat) : Nat :=
  (vars.map fun var => match box.interval var with
    | .ok i => (r.effective var i).width
    | .error _ => 0).sum

namespace Restrictions

variable {r : Restrictions F} {box : Box F} {vars : List Nat} {var other : Nat} {i j : Interval F}

omit [Scalar.Faithful F] in
theorem effective_empty : (empty : Restrictions F).effective var i = i := rfl

omit [Scalar.Faithful F] in
theorem effective_set : (r.set var j).effective other i =
    if var = other then i.cut j else r.effective other i := by
  unfold effective
  rw [get?_set]
  by_cases h : var = other
  · simp [h]
  · simp [h]

theorem FiniteOn.effective (h : r.FiniteOn vars) (hvar : var ∈ vars) (hi : i.Finite) :
    (r.effective var i).Finite := by
  unfold Restrictions.effective
  split
  · exact hi.cut (h var hvar _ ‹_›)
  · exact hi

omit [Scalar.Faithful F] in
theorem FiniteOn.set (h : r.FiniteOn vars) (hj : j.Finite) : (r.set var j).FiniteOn vars := by
  intro other hother i hi
  rw [get?_set] at hi
  split at hi
  · cases hi
    exact hj
  · exact h other hother i hi

/-- Restrictions do not make a region wider. -/
theorem span_le (hbox : box.FiniteOn vars) (h : r.FiniteOn vars) :
    r.span box vars ≤ empty.span box vars := by
  refine List.sum_le_sum fun var hvar => ?_
  obtain ⟨i, hi, hfinite⟩ := hbox var hvar
  rw [hi]
  simp only [effective_empty]
  unfold effective
  split
  · exact (Interval.width_cut_le hfinite (h var hvar _ ‹_›)).1
  · exact le_refl _

/-- A restriction that is not wider than what was left of the variable. -/
theorem span_set_le (hbox : box.FiniteOn vars) (hvar : box.interval var = .ok i) (hj : j.Finite)
    (hle : j.width ≤ (r.effective var i).width) :
    (r.set var j).span box vars ≤ r.span box vars := by
  refine List.sum_le_sum fun other hother => ?_
  obtain ⟨i', hi', hfinite⟩ := hbox other hother
  rw [hi']
  simp only [effective_set]
  split
  · subst_vars
    cases hvar.symm.trans hi'
    exact (Interval.width_cut_le hfinite hj).2.trans hle
  · exact le_refl _

/-- A restriction that is narrower than what was left of the variable. -/
theorem span_set_lt (hbox : box.FiniteOn vars) (hmem : var ∈ vars)
    (hvar : box.interval var = .ok i) (hj : j.Finite)
    (hlt : j.width < (r.effective var i).width) :
    (r.set var j).span box vars < r.span box vars := by
  refine List.sum_lt_sum _ _ (fun other hother => ?_) ⟨var, hmem, ?_⟩
  · obtain ⟨i', hi', hfinite⟩ := hbox other hother
    rw [hi']
    simp only [effective_set]
    split
    · subst_vars
      cases hvar.symm.trans hi'
      exact (Interval.width_cut_le hfinite hj).2.trans hlt.le
    · exact le_refl _
  · obtain ⟨i', hi', hfinite⟩ := hbox var hmem
    cases hvar.symm.trans hi'
    rw [hvar]
    simp only [effective_set, if_true]
    exact (Interval.width_cut_le hfinite hj).2.trans_lt hlt

end Restrictions

end Milp
