/-
  Binary heaps.

  The entry at position 0 comes first; the entries at `2 i + 1` and `2 i + 2` do not come before the
  entry at `i`.

  * `Heap.siftUp`, `Heap.siftDown`: exchange an entry with its parent, or with the first of its
    children, until it is in place.  Whatever the order, each exchange moves towards an end of the
    heap, so both sifts end.
  * `Heap.push`, `Heap.pop?`, `Heap.heapify`: insert, take the first, and order from scratch.
  * `Heap.heapify_perm`, `Heap.pop?_perm`: no entry is lost or made up.
-/

namespace Milp.Heap

variable {α : Type} {n : Nat}

/-- Move the entry at position `i` up until its parent does not come after it. -/
def siftUp (before : α → α → Bool) (v : Vector α n) (i : Fin n) : Vector α n :=
  if h : i.val = 0 then v
  else
    let parent : Fin n := ⟨(i.val - 1) / 2, by omega⟩
    if before v[i] v[parent] then siftUp before (v.swap i parent) parent else v
termination_by i.val
decreasing_by omega

/-- The child of position `i` at `c`, if it is there and comes before the entry at `first`. -/
def preferChild (before : α → α → Bool) (v : Vector α n) (first : Fin n) (c : Nat) : Fin n :=
  if h : c < n then if before v[c] v[first] then ⟨c, h⟩ else first else first

/-- The first of the entry at position `i` and its children. -/
def firstOf (before : α → α → Bool) (v : Vector α n) (i : Fin n) : Fin n :=
  preferChild before v (preferChild before v i (2 * i.val + 1)) (2 * i.val + 2)

theorem le_preferChild (before : α → α → Bool) (v : Vector α n) (first : Fin n) {c i : Nat}
    (hfirst : i ≤ first.val) (hc : i ≤ c) : i ≤ (preferChild before v first c).val := by
  unfold preferChild
  split
  · split
    · exact hc
    · exact hfirst
  · exact hfirst

theorem le_firstOf (before : α → α → Bool) (v : Vector α n) (i : Fin n) :
    i.val ≤ (firstOf before v i).val :=
  le_preferChild before v _ (le_preferChild before v i (Nat.le_refl _) (by omega)) (by omega)

/-- Move the entry at position `i` down until no child comes before it. -/
def siftDown (before : α → α → Bool) (v : Vector α n) (i : Fin n) : Vector α n :=
  let first := firstOf before v i
  if first = i then v else siftDown before (v.swap i first) first
termination_by n - i.val
decreasing_by
  rename_i hne
  have hle := le_firstOf before v i
  have := (firstOf before v i).isLt
  have : (firstOf before v i).val ≠ i.val := fun h => hne (Fin.ext h)
  omega

theorem siftDown_perm (before : α → α → Bool) (v : Vector α n) (i : Fin n) :
    (siftDown before v i).Perm v := by
  fun_induction siftDown before v i with
  | case1 => exact Vector.Perm.refl _
  | case2 v i first _ ih => exact ih.trans (Vector.swap_perm _ _)

/-- Sift down the entries at the positions below `k`, the last one first. -/
def heapifyBelow (before : α → α → Bool) : Nat → Vector α n → Vector α n
  | 0, v => v
  | k + 1, v => heapifyBelow before k (if h : k < n then siftDown before v ⟨k, h⟩ else v)

theorem heapifyBelow_perm (before : α → α → Bool) (k : Nat) (v : Vector α n) :
    (heapifyBelow before k v).Perm v := by
  induction k generalizing v with
  | zero => exact Vector.Perm.refl _
  | succ k ih =>
    rw [heapifyBelow]
    split
    · exact (ih _).trans (siftDown_perm before v _)
    · exact ih v

/-- Order the entries from scratch. -/
def heapify (before : α → α → Bool) (entries : Array α) : Array α :=
  (heapifyBelow before (entries.size / 2) entries.toVector).toArray

theorem heapify_perm (before : α → α → Bool) (entries : Array α) :
    (heapify before entries).Perm entries :=
  (heapifyBelow_perm before _ entries.toVector).toArray

/-- Insert an entry. -/
def push (before : α → α → Bool) (heap : Array α) (a : α) : Array α :=
  (siftUp before (heap.toVector.push a) ⟨heap.size, Nat.lt_succ_self _⟩).toArray

/-- Take the first entry.  The last one takes its place and is sifted down. -/
def pop? (before : α → α → Bool) (heap : Array α) : Option (α × Array α) :=
  if h : 0 < heap.size then
    let rest := (heap.swap 0 (heap.size - 1)).pop
    let ordered :=
      if hrest : 0 < rest.size then (siftDown before rest.toVector ⟨0, hrest⟩).toArray else rest
    some (heap[0], ordered)
  else none

theorem push_pop (xs : Array α) (h : 0 < xs.size) : xs.pop.push xs[xs.size - 1] = xs := by
  have hne : xs.toList ≠ [] := List.ne_nil_of_length_pos h
  have hlast : xs[xs.size - 1] = xs.toList.getLast hne := (List.getLast_eq_getElem hne).symm
  refine Array.ext' ?_
  rw [Array.toList_push, Array.toList_pop, hlast]
  exact List.dropLast_concat_getLast hne

theorem pop?_perm {before : α → α → Bool} {heap rest : Array α} {a : α}
    (h : pop? before heap = some (a, rest)) : (rest.push a).Perm heap := by
  unfold pop? at h
  split at h
  case isFalse => simp at h
  case isTrue hsize =>
    simp only [Option.some.injEq, Prod.mk.injEq] at h
    obtain ⟨rfl, rfl⟩ := h
    have hswap : (heap.swap 0 (heap.size - 1)).pop.push heap[0] =
        heap.swap 0 (heap.size - 1) := by
      have hlast := push_pop (heap.swap 0 (heap.size - 1)) (by simpa using hsize)
      simpa using hlast
    refine Array.Perm.trans (Array.Perm.push _ ?_) (hswap ▸ Array.swap_perm _ _)
    split
    · exact (siftDown_perm before _ _).toArray
    · exact Array.Perm.refl _

end Milp.Heap
