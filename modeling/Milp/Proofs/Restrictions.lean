/-
  Restrictions, variable by variable.

  * `Restrictions.get?_set`: the last restriction of a variable counts.
  * `Restrictions.applyTo_interval`: applied to a box, the interval of a restricted variable is cut
    down, and all others stay; `Restrictions.applyTo_ok`: this works for every proper box.
-/
import Milp.Restrictions

namespace Milp

variable {F : Type}

theorem fetch_eq_ok {α : Type} {xs : List α} {i : Nat} {x : α} :
    fetch xs i = .ok x ↔ xs[i]? = some x := by
  unfold fetch
  split
  · rename_i y hy
    simp [hy]
  · rename_i hnone
    simp [hnone]

/-- What every step of a fold keeps holds of its result. -/
theorem foldlM_induction {ε α β : Type} {f : β → α → Except ε β} {P : β → Prop} {xs : List α}
    {start out : β} (hstep : ∀ x ∈ xs, ∀ b next, P b → f b x = .ok next → P next)
    (h : xs.foldlM f start = .ok out) (hstart : P start) : P out := by
  induction xs generalizing start with
  | nil =>
    cases h
    exact hstart
  | cons x xs ih =>
    obtain ⟨hx, hxs⟩ := List.forall_mem_cons.1 hstep
    rw [List.foldlM_cons] at h
    rcases hnext : f start x with e | next
    · rw [hnext] at h; cases h
    · rw [hnext] at h
      exact ih hxs h (hx start next hstart hnext)

/-- What is left of an interval that is cut down to another one. -/
def Interval.cut [Scalar F] (i other : Interval F) : Interval F :=
  ⟨Scalar.max i.lower other.lower, Scalar.min i.upper other.upper⟩

namespace Box

theorem interval_eq_ok {box : Box F} {var : Nat} {i : Interval F} :
    box.interval var = .ok i ↔ box.lower[var]? = some i.lower ∧ box.upper[var]? = some i.upper := by
  rcases i with ⟨l, u⟩
  rcases hl : fetch box.lower var with e | l'
  · have hnone : box.lower[var]? ≠ some l := fun h => by
      rw [← fetch_eq_ok, hl] at h; cases h
    simp [interval, hl, hnone, Bind.bind, Except.bind]
  rcases hu : fetch box.upper var with e | u'
  · have hnone : box.upper[var]? ≠ some u := fun h => by
      rw [← fetch_eq_ok, hu] at h; cases h
    simp [interval, hl, hu, hnone, Bind.bind, Except.bind]
  · rw [fetch_eq_ok] at hl hu
    simp [interval, fetch, hl, hu, Bind.bind, Except.bind, pure, Except.pure]

variable [Scalar F]

theorem cut_eq_ok {box box' : Box F} {var : Nat} {i : Interval F} :
    box.cut var i = .ok box' ↔ var < box.lower.length ∧ var < box.upper.length ∧
      box' = ⟨box.lower.modify var (Scalar.max · i.lower),
        box.upper.modify var (Scalar.min · i.upper)⟩ := by
  by_cases hl : var < box.lower.length
  · by_cases hu : var < box.upper.length
    · simp [cut, amend, hl, hu, Bind.bind, Except.bind, pure, Except.pure, eq_comm]
    · simp [cut, amend, hl, hu, Bind.bind, Except.bind]
  · simp [cut, amend, hl, Bind.bind, Except.bind]

/-- Cutting one variable down leaves the other ones alone. -/
theorem interval_of_cut {box box' : Box F} {var other : Nat} {i j : Interval F}
    (h : box.cut var i = .ok box') (hj : box.interval other = .ok j) :
    box'.interval other = .ok (if var = other then j.cut i else j) := by
  obtain ⟨-, -, rfl⟩ := cut_eq_ok.1 h
  obtain ⟨hlower, hupper⟩ := interval_eq_ok.1 hj
  rw [interval_eq_ok, List.getElem?_modify, List.getElem?_modify, hlower, hupper]
  split <;> exact ⟨rfl, rfl⟩

theorem length_of_cut {box box' : Box F} {var : Nat} {i : Interval F}
    (h : box.cut var i = .ok box') :
    box'.lower.length = box.lower.length ∧ box'.upper.length = box.upper.length := by
  obtain ⟨-, -, rfl⟩ := cut_eq_ok.1 h
  simp

/-- The box after one restriction; a variable that it does not have is passed over. -/
def restrict (box : Box F) (entry : Nat × Interval F) : Except Fault (Box F) :=
  if entry.1 < box.lower.length then box.cut entry.1 entry.2 else pure box

theorem length_of_restrict {box box' : Box F} {entry : Nat × Interval F}
    (h : box.restrict entry = .ok box') :
    box'.lower.length = box.lower.length ∧ box'.upper.length = box.upper.length := by
  unfold restrict at h
  split at h
  · exact length_of_cut h
  · cases h
    exact ⟨rfl, rfl⟩

theorem interval_of_restrict {box box' : Box F} {entry : Nat × Interval F} {other : Nat}
    {j : Interval F} (h : box.restrict entry = .ok box') (hj : box.interval other = .ok j) :
    box'.interval other = .ok (if entry.1 = other then j.cut entry.2 else j) := by
  unfold restrict at h
  split at h
  · exact interval_of_cut h hj
  · rename_i hlt
    have hother := (List.getElem?_eq_some_iff.1 (interval_eq_ok.1 hj).1).1
    cases h
    have hne : entry.1 ≠ other := fun heq => hlt (heq ▸ hother)
    rw [if_neg hne, hj]

theorem restrict_ok (box : Box F) (entry : Nat × Interval F)
    (h : box.upper.length = box.lower.length) : ∃ box', box.restrict entry = .ok box' := by
  unfold restrict
  split
  · exact ⟨_, cut_eq_ok.2 ⟨‹_›, h ▸ ‹_›, rfl⟩⟩
  · exact ⟨box, rfl⟩

end Box

namespace Restrictions

theorem lookup_cons_eq (var other : Nat) (i : Interval F) (rest : List (Nat × Interval F)) :
    ((var, i) :: rest).lookup other = if var = other then some i else rest.lookup other := by
  rw [List.lookup_cons]
  by_cases h : var = other
  · simp [h]
  · have hbeq : (other == var) = false := by simpa using Ne.symm h
    simp [h, hbeq]

theorem lookup_insert (var other : Nat) (i : Interval F) (entries : List (Nat × Interval F)) :
    (insert var i entries).lookup other = if var = other then some i else entries.lookup other := by
  induction entries with
  | nil => rw [insert, lookup_cons_eq]
  | cons entry rest ih =>
    obtain ⟨v, j⟩ := entry
    rw [insert]
    by_cases hlt : var < v
    · rw [if_pos hlt, lookup_cons_eq]
    · rw [if_neg hlt]
      by_cases heq : var = v
      · subst heq
        rw [if_pos rfl, lookup_cons_eq, lookup_cons_eq]
        by_cases h : var = other
        · simp [h]
        · simp [h]
      · rw [if_neg heq, lookup_cons_eq, lookup_cons_eq, ih]
        by_cases hv : v = other
        · have hne : var ≠ other := fun h => heq (h.trans hv.symm)
          simp [hv, hne]
        · simp [hv]

@[simp] theorem get?_empty (var : Nat) : (empty : Restrictions F).get? var = none := rfl

/-- The last restriction of a variable counts. -/
theorem get?_set (r : Restrictions F) (var other : Nat) (i : Interval F) :
    (r.set var i).get? other = if var = other then some i else r.get? other :=
  lookup_insert var other i r.entries

/-- A variable is restricted at most once. -/
theorem mem_entries (r : Restrictions F) {var : Nat} {i : Interval F} :
    (var, i) ∈ r.entries ↔ r.get? var = some i := by
  have key : ∀ entries : List (Nat × Interval F), entries.Pairwise (fun a b => a.1 < b.1) →
      ((var, i) ∈ entries ↔ entries.lookup var = some i) := by
    intro entries hsorted
    induction entries with
    | nil => simp
    | cons entry rest ih =>
      obtain ⟨v, j⟩ := entry
      obtain ⟨hhead, hrest⟩ := List.pairwise_cons.1 hsorted
      rw [List.mem_cons, lookup_cons_eq, ih hrest]
      by_cases hv : v = var
      · subst hv
        have hnot : rest.lookup v ≠ some i := fun h =>
          Nat.lt_irrefl v (hhead (v, i) ((ih hrest).2 h))
        simp [hnot, eq_comm]
      · simp [hv, Ne.symm hv]
  exact key r.entries r.sorted

variable [Scalar F]

/-- The interval of a variable under restrictions. -/
def effective (r : Restrictions F) (var : Nat) (i : Interval F) : Interval F :=
  match r.get? var with
  | some j => i.cut j
  | none => i

theorem applyTo_eq (r : Restrictions F) (box : Box F) :
    r.applyTo box = r.entries.foldlM Box.restrict box := rfl

theorem length_applyTo {r : Restrictions F} {box box' : Box F} (h : r.applyTo box = .ok box') :
    box'.lower.length = box.lower.length ∧ box'.upper.length = box.upper.length := by
  rw [applyTo_eq] at h
  refine foldlM_induction (P := fun b => b.lower.length = box.lower.length ∧
    b.upper.length = box.upper.length) (fun entry _ b next hb hnext => ?_) h ⟨rfl, rfl⟩
  obtain ⟨hlower, hupper⟩ := Box.length_of_restrict hnext
  exact ⟨hlower.trans hb.1, hupper.trans hb.2⟩

/-- Applied to a box, restrictions cut down the intervals of the variables they restrict. -/
theorem applyTo_interval {r : Restrictions F} {box box' : Box F} {var : Nat} {i : Interval F}
    (h : r.applyTo box = .ok box') (hi : box.interval var = .ok i) :
    box'.interval var = .ok (r.effective var i) := by
  have key : ∀ (entries : List (Nat × Interval F)) (hsorted : entries.Pairwise fun a b => a.1 < b.1)
      (box : Box F) (i : Interval F), box.interval var = .ok i →
      entries.foldlM Box.restrict box = .ok box' →
      box'.interval var = .ok (effective ⟨entries, hsorted⟩ var i) := by
    intro entries
    induction entries with
    | nil =>
      intro _ box i hi hfold
      cases hfold
      exact hi
    | cons entry rest ih =>
      intro hsorted box i hi hfold
      obtain ⟨v, j⟩ := entry
      obtain ⟨hhead, hrest⟩ := List.pairwise_cons.1 hsorted
      rw [List.foldlM_cons] at hfold
      rcases hnext : box.restrict (v, j) with e | next
      · rw [hnext] at hfold; cases hfold
      rw [hnext] at hfold
      have hcut := Box.interval_of_restrict hnext hi
      have hlater := ih hrest next _ hcut hfold
      unfold effective get? at hlater ⊢
      rw [lookup_cons_eq]
      by_cases heq : v = var
      · subst heq
        -- the variable is not restricted once more
        have hnone : rest.lookup v = none := by
          rcases hl : rest.lookup v with _ | j'
          · rfl
          · have hmem := (mem_entries ⟨rest, hrest⟩ (i := j')).2 hl
            exact absurd (hhead _ hmem) (Nat.lt_irrefl _)
        simpa [hnone] using hlater
      · simpa [heq] using hlater
  exact key r.entries r.sorted box i hi h

/-- An interval after restrictions were applied comes from one before. -/
theorem interval_of_applyTo {r : Restrictions F} {box box' : Box F} {var : Nat} {i : Interval F}
    (h : r.applyTo box = .ok box') (hi : box'.interval var = .ok i) :
    ∃ j, box.interval var = .ok j ∧ i = r.effective var j := by
  obtain ⟨hlower, hupper⟩ := length_applyTo h
  obtain ⟨hl, hu⟩ := Box.interval_eq_ok.1 hi
  obtain ⟨hl', -⟩ := List.getElem?_eq_some_iff.1 hl
  obtain ⟨hu', -⟩ := List.getElem?_eq_some_iff.1 hu
  have hj : box.interval var =
      .ok ⟨box.lower.get ⟨var, hlower ▸ hl'⟩, box.upper.get ⟨var, hupper ▸ hu'⟩⟩ :=
    Box.interval_eq_ok.2 ⟨List.getElem?_eq_getElem _, List.getElem?_eq_getElem _⟩
  exact ⟨_, hj, Except.ok.inj (hi.symm.trans (applyTo_interval h hj))⟩

/-- Restrictions can be applied to every box that has as many upper as lower bounds. -/
theorem applyTo_ok (r : Restrictions F) (box : Box F) (h : box.upper.length = box.lower.length) :
    ∃ box', r.applyTo box = .ok box' := by
  have key : ∀ (entries : List (Nat × Interval F)) (box : Box F),
      box.upper.length = box.lower.length →
        ∃ box', entries.foldlM Box.restrict box = .ok box' := by
    intro entries
    induction entries with
    | nil => exact fun box _ => ⟨box, rfl⟩
    | cons entry rest ih =>
      intro box h
      obtain ⟨next, hnext⟩ := box.restrict_ok entry h
      obtain ⟨hlower, hupper⟩ := Box.length_of_restrict hnext
      rw [List.foldlM_cons, hnext]
      exact ih next (hupper.trans (h.trans hlower.symm))
  exact key r.entries box h

end Restrictions

end Milp
