/-
  Binary heaps are in order, and the loops that order them end.

  A sift changes one entry at a time, so what holds of all other entries on the way is its
  invariant: an entry that rises is in order with everything below it, an entry that falls with
  everything above it.

  * `Heap.Lawful`: a comparison by a total preorder.
  * `Heap.OrderedFrom`, `Heap.IsHeap`: no entry comes before the one above it.
  * `Rising.siftUp`, `Falling.siftDown`: a sift ends with all entries in order.
  * `IsHeap.push`, `IsHeap.pop?`, `isHeap_heapify`: and so do the operations.
  * `IsHeap.not_before_root`: nothing comes before the entry at position 0.
  * `Heap.Loop`: a loop that ends after some rounds; `siftUp_ends`, `siftDown_ends`: with any
    comparison at all, every round of a sift goes up or down one level.
-/
import Milp.Proofs.Frontier

namespace Milp.Heap

variable {α : Type} {n : Nat} {before : α → α → Bool}

theorem half_lt (j : Fin n) : (j.val - 1) / 2 < n := by omega

/-- The position above; position 0 has none. -/
def above (j : Fin n) : Fin n := ⟨(j.val - 1) / 2, half_lt j⟩

theorem above_lt {j : Fin n} (h : 0 < j.val) : above j < j := by
  simp only [above, Fin.lt_def]
  omega

theorem above_ne {j : Fin n} (h : 0 < j.val) : above j ≠ j := Fin.ne_of_lt (above_lt h)

theorem above_eq_iff {i j : Fin n} (h : 0 < j.val) :
    above j = i ↔ j.val = 2 * i.val + 1 ∨ j.val = 2 * i.val + 2 := by
  simp only [above, Fin.ext_iff]
  omega

/-- How many positions are above one another, up to position 0. -/
def level (j : Fin n) : Nat := (j.val + 1).log2

theorem level_above {j : Fin n} (h : 0 < j.val) : level (above j) + 1 = level j := by
  have hhalf : (above j).val + 1 = (j.val + 1) / 2 := by
    simp only [above]
    omega
  rw [level, level, hhalf, Nat.log2_def (j.val + 1), if_pos (by omega)]

section
variable (v : Vector α n) (i j : Fin n)

theorem get_swap_left : (v.swap i j i.isLt j.isLt).get i = v.get j :=
  Vector.getElem_swap_left i.isLt j.isLt

theorem get_swap_right : (v.swap i j i.isLt j.isLt).get j = v.get i :=
  Vector.getElem_swap_right i.isLt j.isLt

theorem get_swap_of_ne {k : Fin n} (hi : k ≠ i) (hj : k ≠ j) :
    (v.swap i j i.isLt j.isLt).get k = v.get k :=
  Vector.getElem_swap_of_ne (fun h => hi (Fin.ext h)) fun h => hj (Fin.ext h)

end

/-! ## The loops end -/

/-- A loop that ends after a number of rounds: `body` is one round, and gives nothing when it leaves
    the loop. -/
inductive Loop {S : Type} (body : S → Option S) : Nat → S → S → Prop where
  | leave {s : S} (h : body s = none) : Loop body 0 s s
  | round {k : Nat} {s t u : S} (h : body s = some t) (rest : Loop body k t u) :
      Loop body (k + 1) s u

section
variable (before)

/-- One round of sifting up. -/
def upRound : Vector α n × Fin n → Option (Vector α n × Fin n)
  | (v, i) =>
    if i.val = 0 then none
    else if before (v.get i) (v.get (above i)) then
      some (v.swap i (above i) i.isLt (above i).isLt, above i)
    else none

/-- One round of sifting down. -/
def downRound : Vector α n × Fin n → Option (Vector α n × Fin n)
  | (v, i) =>
    let first := firstOf before v i
    if first = i then none else some (v.swap i first i.isLt first.isLt, first)

/-- Whatever the comparison, every round of sifting up goes up one level. -/
theorem siftUp_ends (v : Vector α n) (i : Fin n) :
    ∃ (rounds : Nat) (j : Fin n), Loop (upRound before) rounds (v, i) (siftUp before v i, j) ∧
      level j + rounds = level i := by
  fun_induction siftUp before v i with
  | case1 v i h =>
    exact ⟨0, i, .leave (by rw [upRound, if_pos h]), rfl⟩
  | case2 v i h parent hbefore ih =>
    obtain ⟨rounds, j, hloop, hj⟩ := ih
    refine ⟨rounds + 1, j, .round ?_ hloop, ?_⟩
    · rw [upRound, if_neg h]
      exact if_pos hbefore
    · calc level j + (rounds + 1) = level parent + 1 := congrArg (· + 1) hj
        _ = level i := level_above (Nat.pos_of_ne_zero h)
  | case3 v i h parent hbefore =>
    refine ⟨0, i, .leave ?_, rfl⟩
    rw [upRound, if_neg h]
    exact if_neg hbefore

end

/-! ## The first of an entry and those below it -/

theorem preferChild_choice (before : α → α → Bool) (v : Vector α n) (first : Fin n) (c : Nat) :
    preferChild before v first c = first ∨
      (preferChild before v first c).val = c ∧
        before (v.get (preferChild before v first c)) (v.get first) = true := by
  unfold preferChild
  split
  · split
    · exact .inr ⟨rfl, ‹_›⟩
    · exact .inl rfl
  · exact .inl rfl

theorem firstOf_choice (before : α → α → Bool) (v : Vector α n) (i : Fin n) :
    firstOf before v i = i ∨ 0 < (firstOf before v i).val ∧ above (firstOf before v i) = i := by
  have hchild : ∀ j : Fin n, j.val = 2 * i.val + 1 ∨ j.val = 2 * i.val + 2 →
      0 < j.val ∧ above j = i := fun j hj =>
    have hpos : 0 < j.val := by omega
    ⟨hpos, (above_eq_iff hpos).2 hj⟩
  rw [firstOf]
  rcases preferChild_choice before v (preferChild before v i (2 * i.val + 1)) (2 * i.val + 2) with
    h | h
  · rw [h]
    exact (preferChild_choice before v i _).imp_right fun hleft => hchild _ (.inl hleft.1)
  · exact .inr (hchild _ (.inr h.1))

section
variable (before)

/-- Whatever the comparison, every round of sifting down goes down one level. -/
theorem siftDown_ends (v : Vector α n) (i : Fin n) :
    ∃ (rounds : Nat) (j : Fin n), Loop (downRound before) rounds (v, i) (siftDown before v i, j) ∧
      level i + rounds = level j := by
  fun_induction siftDown before v i with
  | case1 v i first h =>
    exact ⟨0, i, .leave (by simp only [downRound]; exact if_pos h), rfl⟩
  | case2 v i first h ih =>
    obtain ⟨rounds, j, hloop, hj⟩ := ih
    refine ⟨rounds + 1, j, .round (by simp only [downRound]; exact if_neg h) hloop, ?_⟩
    obtain ⟨hpos, habove⟩ := (firstOf_choice before v i).resolve_left h
    have hlevel := level_above hpos
    rw [habove] at hlevel
    calc level i + (rounds + 1) = level first + rounds := by rw [← hlevel]; ac_rfl
      _ = level j := hj

end

/-! ## Order -/

/-- `before` compares by a total preorder. -/
structure Lawful (before : α → α → Bool) : Prop where
  asymm : ∀ {a b : α}, before a b = true → before b a = false
  trans : ∀ {a b c : α}, before c b = false → before b a = false → before c a = false

namespace Lawful

variable {a b c : α} (hlaw : Lawful before)
include hlaw

theorem irrefl : before a a = false := by
  cases h : before a a with
  | false => rfl
  | true => exact h.symm.trans (hlaw.asymm h)

theorem before_trans (hab : before a b = true) (hbc : before b c = true) : before a c = true := by
  cases h : before a c with
  | true => rfl
  | false => exact hab.symm.trans (hlaw.trans h (hlaw.asymm hbc)) |>.symm

end Lawful

/-- From position `k` on, no entry comes before the one above it. -/
def OrderedFrom (before : α → α → Bool) (v : Vector α n) (k : Nat) : Prop :=
  ∀ j : Fin n, 0 < j.val → k ≤ (above j).val → before (v.get j) (v.get (above j)) = false

/-- No entry comes before the one above it. -/
def IsHeap (before : α → α → Bool) (heap : Array α) : Prop := OrderedFrom before heap.toVector 0

theorem preferChild_spec (hlaw : Lawful before) (v : Vector α n) (first : Fin n) (c : Nat) :
    before (v.get first) (v.get (preferChild before v first c)) = false ∧
      ∀ h : c < n, before (v.get ⟨c, h⟩) (v.get (preferChild before v first c)) = false := by
  unfold preferChild
  split
  case isTrue h =>
    split
    case isTrue hbefore => exact ⟨hlaw.asymm hbefore, fun _ => hlaw.irrefl⟩
    case isFalse hbefore => exact ⟨hlaw.irrefl, fun _ => eq_false_of_ne_true hbefore⟩
  case isFalse h => exact ⟨hlaw.irrefl, fun hc => absurd hc h⟩

/-- Neither the entry at position `i` nor one right below it comes before the first of them. -/
theorem firstOf_least (hlaw : Lawful before) (v : Vector α n) (i : Fin n) {j : Fin n}
    (hj : 0 < j.val) (h : above j = i) : before (v.get j) (v.get (firstOf before v i)) = false := by
  have hleft := preferChild_spec hlaw v i (2 * i.val + 1)
  have hright := preferChild_spec hlaw v (preferChild before v i (2 * i.val + 1)) (2 * i.val + 2)
  rw [firstOf]
  rcases (above_eq_iff hj).1 h with hval | hval
  · have hself : j = ⟨2 * i.val + 1, hval ▸ j.isLt⟩ := Fin.ext hval
    rw [hself]
    exact hlaw.trans (hleft.2 _) hright.1
  · have hself : j = ⟨2 * i.val + 2, hval ▸ j.isLt⟩ := Fin.ext hval
    rw [hself]
    exact hright.2 _

theorem firstOf_before (hlaw : Lawful before) (v : Vector α n) (i : Fin n)
    (h : firstOf before v i ≠ i) : before (v.get (firstOf before v i)) (v.get i) = true := by
  rw [firstOf] at h ⊢
  have hright :=
    preferChild_choice before v (preferChild before v i (2 * i.val + 1)) (2 * i.val + 2)
  rcases preferChild_choice before v i (2 * i.val + 1) with hleft | ⟨-, hleft⟩
  · rw [hleft] at h hright ⊢
    exact (hright.resolve_left h).2
  · rcases hright with hright | ⟨-, hright⟩
    · rwa [hright]
    · exact hlaw.before_trans hright hleft

/-! ## Sifting up -/

/-- In order, but for the entry at `i`, which may come before those above it. -/
structure Rising (before : α → α → Bool) (v : Vector α n) (i : Fin n) : Prop where
  others : ∀ j : Fin n, 0 < j.val → j ≠ i → before (v.get j) (v.get (above j)) = false
  /-- Once the entry is exchanged with the one above it, that one is above these. -/
  next : ∀ j : Fin n, 0 < j.val → above j = i → 0 < i.val →
    before (v.get j) (v.get (above i)) = false

variable {v : Vector α n} {i : Fin n}

theorem Rising.round (hlaw : Lawful before) (h : Rising before v i) (hi : 0 < i.val)
    (hbefore : before (v.get i) (v.get (above i)) = true) :
    Rising before (v.swap i (above i) i.isLt (above i).isLt) (above i) := by
  have hpi : above i ≠ i := above_ne hi
  constructor
  · intro j hj hjp
    by_cases hji : j = i
    · subst hji
      rw [get_swap_left, get_swap_right]
      exact hlaw.asymm hbefore
    rw [get_swap_of_ne v i (above i) hji hjp]
    by_cases hjabove : above j = i
    · rw [hjabove, get_swap_left]
      exact h.next j hj hjabove hi
    by_cases hsibling : above j = above i
    · rw [hsibling, get_swap_right]
      exact hlaw.trans (hsibling ▸ h.others j hj hji) (hlaw.asymm hbefore)
    · rw [get_swap_of_ne v i (above i) hjabove hsibling]
      exact h.others j hj hji
  · intro j hj hjp hp
    have hpp : above (above i) ≠ above i := above_ne hp
    have hppi : above (above i) ≠ i :=
      Fin.ne_of_lt (Nat.lt_trans (above_lt hp) (above_lt hi))
    rw [get_swap_of_ne v i (above i) hppi hpp]
    have hparent := h.others (above i) hp hpi
    by_cases hji : j = i
    · subst hji
      rwa [get_swap_left]
    · have hjne : j ≠ above i := fun hself => above_ne hj (hjp.trans hself.symm)
      rw [get_swap_of_ne v i (above i) hji hjne]
      exact hlaw.trans (hjp ▸ h.others j hj hji) hparent

theorem Rising.siftUp (hlaw : Lawful before) (h : Rising before v i) :
    OrderedFrom before (siftUp before v i) 0 := by
  fun_induction Heap.siftUp before v i with
  | case1 v i hi => exact fun j hj _ => h.others j hj fun hji => by omega
  | case2 v i hi parent hbefore ih => exact ih (h.round hlaw (Nat.pos_of_ne_zero hi) hbefore)
  | case3 v i hi parent hbefore =>
    intro j hj _
    by_cases hji : j = i
    · subst hji
      exact eq_false_of_ne_true hbefore
    · exact h.others j hj hji

/-! ## Sifting down -/

/-- In order from position `k` on, but for the entry at `i`, which may come after those below it. -/
structure Falling (before : α → α → Bool) (v : Vector α n) (k : Nat) (i : Fin n) : Prop where
  others : ∀ j : Fin n, 0 < j.val → k ≤ (above j).val → above j ≠ i →
    before (v.get j) (v.get (above j)) = false
  /-- Once the entry is exchanged with one below it, that one is below this. -/
  next : ∀ j : Fin n, 0 < j.val → above j = i → 0 < i.val → k ≤ (above i).val →
    before (v.get j) (v.get (above i)) = false

variable {k : Nat}

theorem Falling.round (hlaw : Lawful before) (h : Falling before v k i) (hk : k ≤ i.val)
    {first : Fin n} (hpos : 0 < first.val) (habove : above first = i)
    (hbefore : before (v.get first) (v.get i) = true)
    (hleast : ∀ j : Fin n, 0 < j.val → above j = i → before (v.get j) (v.get first) = false) :
    Falling before (v.swap i first i.isLt first.isLt) k first := by
  have hlt : i < first := habove ▸ above_lt hpos
  constructor
  · intro j hj hkj hjfirst
    by_cases hji : j = i
    · subst hji
      rw [get_swap_left, get_swap_of_ne v j first (above_ne hj) hjfirst]
      exact h.next first hpos habove hj hkj
    by_cases hjabove : above j = i
    · rw [hjabove, get_swap_left]
      by_cases hself : j = first
      · rw [hself, get_swap_right]
        exact hlaw.asymm hbefore
      · rw [get_swap_of_ne v i first hji hself]
        exact hleast j hj hjabove
    · have hself : j ≠ first := fun hself => hjabove (hself ▸ habove)
      rw [get_swap_of_ne v i first hji hself, get_swap_of_ne v i first hjabove hjfirst]
      exact h.others j hj hkj hjabove
  · intro j hj hjfirst hfirst _
    have hjlt : first < j := hjfirst ▸ above_lt hj
    rw [habove, get_swap_left, get_swap_of_ne v i first (Fin.ne_of_gt (Nat.lt_trans hlt hjlt))
      (Fin.ne_of_gt hjlt)]
    have hkfirst : k ≤ (above j).val := hjfirst ▸ Nat.le_trans hk (Nat.le_of_lt hlt)
    exact hjfirst ▸ h.others j hj hkfirst (hjfirst ▸ Fin.ne_of_gt hlt)

theorem Falling.siftDown (hlaw : Lawful before) (h : Falling before v k i) (hk : k ≤ i.val) :
    OrderedFrom before (siftDown before v i) k := by
  fun_induction Heap.siftDown before v i with
  | case1 v i first hself =>
    intro j hj hkj
    by_cases hjabove : above j = i
    · have hleast := firstOf_least hlaw v i hj hjabove
      rw [hjabove]
      rwa [show firstOf before v i = i from hself] at hleast
    · exact h.others j hj hkj hjabove
  | case2 v i first hne ih =>
    obtain ⟨hpos, habove⟩ := (firstOf_choice before v i).resolve_left hne
    exact ih (h.round hlaw hk hpos habove (firstOf_before hlaw v i hne)
      fun j => firstOf_least hlaw v i) (Nat.le_trans hk (le_firstOf before v i))

/-! ## The operations -/

theorem OrderedFrom.heapifyBelow (hlaw : Lawful before) (h : OrderedFrom before v k) :
    OrderedFrom before (heapifyBelow before k v) 0 := by
  induction k generalizing v with
  | zero => exact h
  | succ k ih =>
    rw [Heap.heapifyBelow]
    refine ih ?_
    split
    case isTrue hk =>
      have hfalling : Falling before v k ⟨k, hk⟩ := by
        constructor
        · intro j hj hkj hne
          exact h j hj (Nat.lt_of_le_of_ne hkj fun heq => hne (Fin.ext heq.symm))
        · intro j hj hjk hpos hle
          exact absurd (above_lt hpos) (Nat.not_lt_of_le hle)
      exact hfalling.siftDown hlaw (Nat.le_refl k)
    case isFalse hk =>
      intro j hj hkj
      have := above_lt hj
      have := j.isLt
      omega

theorem isHeap_toArray (h : OrderedFrom before v 0) : IsHeap before v.toArray := by
  rcases v with ⟨entries, rfl⟩
  exact h

/-- Entries ordered from scratch are a heap. -/
theorem isHeap_heapify (hlaw : Lawful before) (entries : Array α) :
    IsHeap before (heapify before entries) := by
  -- the positions from the middle on have none below them
  have hleaves : OrderedFrom before entries.toVector (entries.size / 2) := by
    intro j hj hle
    have := j.isLt
    simp only [above] at hle
    omega
  exact isHeap_toArray (hleaves.heapifyBelow hlaw)

variable {heap rest : Array α} {a : α}

theorem IsHeap.push (hlaw : Lawful before) (h : IsHeap before heap) (a : α) :
    IsHeap before (push before heap a) := by
  -- an entry of the heap stays where it is
  have hget : ∀ j (hj : j < heap.size), (heap.toVector.push a).get ⟨j, Nat.lt_succ_of_lt hj⟩ =
      heap.toVector.get ⟨j, hj⟩ := fun j hj => Vector.getElem_push_lt hj
  have hrising : Rising before (heap.toVector.push a) ⟨heap.size, Nat.lt_succ_self _⟩ := by
    constructor
    · intro j hj hne
      have hlt : j.val < heap.size :=
        Nat.lt_of_le_of_ne (Nat.le_of_lt_succ j.isLt) fun heq => hne (Fin.ext heq)
      have habove : (above j).val < heap.size := Nat.lt_trans (above_lt hj) hlt
      have hheap := h ⟨j.val, hlt⟩ hj (Nat.zero_le _)
      rwa [← hget, ← hget] at hheap
    · intro j hj hlast _
      have := above_lt hj
      rw [hlast] at this
      exact absurd j.isLt (Nat.not_lt_of_le this)
  exact isHeap_toArray (hrising.siftUp hlaw)

theorem last_lt (hsize : 0 < heap.size) : heap.size - 1 < heap.size := Nat.sub_one_lt_of_lt hsize

/-- With the last entry in the place of the first one, only that one may be out of place. -/
theorem IsHeap.falling (h : IsHeap before heap) (hsize : 0 < heap.size)
    (hrest : 0 < (heap.swap 0 (heap.size - 1) hsize (last_lt hsize)).pop.size) :
    Falling before (heap.swap 0 (heap.size - 1) hsize (last_lt hsize)).pop.toVector 0
      ⟨0, hrest⟩ := by
  generalize hswapped : heap.swap 0 (heap.size - 1) hsize (last_lt hsize) = swapped at hrest ⊢
  have hlt : ∀ j : Fin swapped.pop.size, j.val < heap.size - 1 := by
    intro j
    calc j.val < swapped.pop.size := j.isLt
      _ = heap.size - 1 := by rw [Array.size_pop, ← hswapped, Array.size_swap]
  have hget : ∀ j : Fin swapped.pop.size, 0 < j.val → swapped.pop.toVector.get j =
      heap.toVector.get ⟨j.val, Nat.lt_of_lt_of_le (hlt j) (Nat.sub_le _ _)⟩ := by
    intro j hj
    subst hswapped
    show (heap.swap 0 (heap.size - 1)).pop[j.val] = heap[j.val]
    rw [Array.getElem_pop, Array.getElem_swap_of_ne (Nat.ne_of_gt hj) (Nat.ne_of_lt (hlt j))]
  constructor
  · intro j hj _ hne
    have habove : 0 < (above j).val := Nat.pos_of_ne_zero fun hzero => hne (Fin.ext hzero)
    rw [hget j hj, hget (above j) habove]
    exact h ⟨j.val, _⟩ hj (Nat.zero_le _)
  · exact fun j _ _ hpos => absurd hpos (Nat.lt_irrefl 0)

theorem IsHeap.pop? (hlaw : Lawful before) (h : IsHeap before heap)
    (hpop : pop? before heap = some (a, rest)) : IsHeap before rest := by
  unfold Heap.pop? at hpop
  split at hpop
  case isFalse => simp at hpop
  case isTrue hsize =>
    simp only [Option.some.injEq, Prod.mk.injEq] at hpop
    obtain ⟨-, rfl⟩ := hpop
    split
    case isFalse hempty => exact fun j => absurd (Nat.lt_of_le_of_lt (Nat.zero_le _) j.isLt) hempty
    case isTrue hrest =>
      exact isHeap_toArray ((h.falling hsize hrest).siftDown hlaw (Nat.zero_le _))

theorem pop?_fst (before : α → α → Bool) (heap : Array α) :
    (pop? before heap).map Prod.fst = heap[0]? := by
  unfold Heap.pop?
  split
  case isTrue h => simp [h]
  case isFalse h => simp [Nat.eq_zero_of_not_pos h]

/-- Nothing in a heap comes before the entry at position 0. -/
theorem IsHeap.not_before_root (hlaw : Lawful before) (h : IsHeap before heap)
    (hroot : heap[0]? = some a) {b : α} (hb : b ∈ heap) : before b a = false := by
  obtain ⟨hpos, rfl⟩ := Array.getElem?_eq_some_iff.1 hroot
  obtain ⟨j, hj, rfl⟩ := Array.mem_iff_getElem.1 hb
  induction j using Nat.strongRecOn with
  | _ j ih =>
    rcases Nat.eq_zero_or_pos j with rfl | hj0
    · exact hlaw.irrefl
    · have hup := above_lt (j := (⟨j, hj⟩ : Fin heap.size)) hj0
      exact hlaw.trans (h ⟨j, hj⟩ hj0 (Nat.zero_le _)) (ih _ hup _ (Array.getElem_mem _))

end Milp.Heap
