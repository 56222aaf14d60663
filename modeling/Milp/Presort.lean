/-
  Presorting.

  A presort brings a list into order up to short stretches, which are left as they are; inserting
  the elements one after the other then ends the sort.  What depends on the presort is the order of
  equal elements: a stretch keeps it, a split does not.  It is written down because sums of doubles
  depend on this order; all that proofs use of it is that it permutes.

  * `Presort.pivotPosition`: the pivot is a median of three elements, or of medians in a long list.
  * `Presort.split`: the elements less than a pivot and the others.
  * `Presort.quicksort`: split down to short stretches; after too many splits a heap sorts the rest.
  * `presort`: a list that is in order already is left alone.
  * `presort_perm`: a presort permutes.
-/
import Milp.Heap

namespace Milp

variable {α : Type}

namespace Presort

section

variable (less : α → α → Bool)

/-- Is the list in order? -/
def ascending : List α → Bool
  | a :: b :: rest => !less b a && ascending (b :: rest)
  | _ => true

/-- Is the element at position `i` less than the one at position `j`? -/
def below (xs : Array α) (i j : Nat) : Bool :=
  match xs[i]?, xs[j]? with
  | some a, some b => less a b
  | _, _ => false

/-- Of three positions the one with the median. -/
def median (xs : Array α) (a b c : Nat) : Nat :=
  let least := below less xs a b
  if below less xs a c = least then
    if below less xs b c = least then b else c
  else a

/-- The position of the pivot of the `n` elements from `start` on: of the elements at the start, the
    middle and near the end the median.  In a long list these are pivots of an eighth each. -/
def pivotPosition (xs : Array α) (start n : Nat) : Nat :=
  let eighth := n / 8
  let middle := start + 4 * eighth
  let late := start + 7 * eighth
  if 8 ≤ eighth then
    median less xs (pivotPosition xs start eighth) (pivotPosition xs middle eighth)
      (pivotPosition xs late eighth)
  else median less xs start middle late
termination_by n

/-- Place an element at the border between the elements less than the pivot and the others.  The one
    that was there goes to the end, and the border moves on if the new one is less. -/
def place (pivot : α) (placed : Array α × Nat) (x : α) : Array α × Nat :=
  let last := placed.1.size
  ((placed.1.push x).swapIfInBounds placed.2 last, if less x pivot then placed.2 + 1 else placed.2)

/-- The elements less than a pivot, and the others.  The first element is placed last; the last of
    the lesser elements trades places with the pivot and comes first. -/
def split (pivot : α) (xs : List α) : List α × List α :=
  let (placed, low) := xs.rotateLeft.foldl (place less pivot) (#[], 0)
  ((placed.toList.take low).rotateRight, placed.toList.drop low)

/-- Take all entries from a heap; they come before a list. -/
def unload : Nat → Array α → List α → List α
  | 0, heap, sorted => heap.toList ++ sorted
  | k + 1, heap, sorted =>
    match Heap.pop? (fun a b => less b a) heap with
    | some (a, rest) => unload k rest (a :: sorted)
    | none => heap.toList ++ sorted

/-- Sort by a heap with the greatest element on top. -/
def heapsort (xs : List α) : List α :=
  unload less xs.length (Heap.heapify (fun a b => less b a) xs.toArray) []

/-- The list with the element at a position brought to the front, in exchange for the first. -/
def toFront (p : Nat) (xs : List α) : List α := (xs.toArray.swapIfInBounds 0 p).toList

/-- Sort down to stretches of at most 32 elements, with so many splits one inside the other.  No
    element is less than `bound`; if the pivot is not greater, the elements that are equal to it are
    split off, and they need no sorting. -/
def quicksort : Nat → Option α → List α → List α
  | 0, _, xs => if xs.length ≤ 32 then xs else heapsort less xs
  | splits + 1, bound, xs =>
    if xs.length ≤ 32 then xs
    else
      match toFront (pivotPosition less xs.toArray 0 xs.length) xs with
      | [] => []
      | pivot :: rest =>
        if bound.any fun b => !less b pivot then
          let (equal, high) := split (fun a b => !less b a) pivot rest
          equal ++ pivot :: quicksort splits none high
        else
          let (low, high) := split less pivot rest
          quicksort splits bound low ++ pivot :: quicksort splits (some pivot) high

end

/-! ## Presorting permutes -/

theorem swapIfInBounds_perm (xs : Array α) (i j : Nat) : (xs.swapIfInBounds i j).Perm xs := by
  rw [Array.swapIfInBounds_def]
  split
  · split
    · exact Array.swap_perm _ _
    · exact Array.Perm.refl _
  · exact Array.Perm.refl _

theorem rotateLeft_perm (xs : List α) : xs.rotateLeft.Perm xs := by
  simp only [List.rotateLeft]
  split
  · exact List.Perm.refl _
  · exact List.perm_append_comm.trans (by rw [List.take_append_drop])

theorem rotateRight_perm (xs : List α) : xs.rotateRight.Perm xs := by
  simp only [List.rotateRight]
  split
  · exact List.Perm.refl _
  · exact List.perm_append_comm.trans (by rw [List.take_append_drop])

theorem toFront_perm (p : Nat) (xs : List α) : (toFront p xs).Perm xs :=
  (swapIfInBounds_perm xs.toArray 0 p).toList

theorem foldl_place_perm (less : α → α → Bool) (pivot : α) (xs : List α) (placed : Array α × Nat) :
    (xs.foldl (place less pivot) placed).1.toList.Perm (placed.1.toList ++ xs) := by
  induction xs generalizing placed with
  | nil => simp
  | cons x xs ih =>
    refine (ih _).trans ?_
    have hplace := (swapIfInBounds_perm (placed.1.push x) placed.2 placed.1.size).toList
    exact (hplace.append_right xs).trans (by simp)

theorem split_perm (less : α → α → Bool) (pivot : α) (xs : List α) :
    ((split less pivot xs).1 ++ (split less pivot xs).2).Perm xs := by
  have hplace := foldl_place_perm less pivot xs.rotateLeft (#[], 0)
  refine ((rotateRight_perm _).append_right (split less pivot xs).2).trans ?_
  simp only [split, List.take_append_drop]
  exact hplace.trans (rotateLeft_perm xs)

theorem unload_perm (less : α → α → Bool) (k : Nat) (heap : Array α) (sorted : List α) :
    (unload less k heap sorted).Perm (heap.toList ++ sorted) := by
  induction k generalizing heap sorted with
  | zero => exact List.Perm.refl _
  | succ k ih =>
    rw [unload]
    split
    · rename_i a rest h
      refine (ih rest (a :: sorted)).trans ?_
      have hpop := (Heap.pop?_perm h).toList
      rw [Array.toList_push] at hpop
      rw [← List.singleton_append, ← List.append_assoc]
      exact hpop.append_right sorted
    · exact List.Perm.refl _

theorem heapsort_perm (less : α → α → Bool) (xs : List α) : (heapsort less xs).Perm xs := by
  refine (unload_perm less _ _ _).trans ?_
  rw [List.append_nil]
  exact (Heap.heapify_perm _ xs.toArray).toList

theorem quicksort_perm (less : α → α → Bool) (splits : Nat) (bound : Option α) (xs : List α) :
    (quicksort less splits bound xs).Perm xs := by
  induction splits generalizing bound xs with
  | zero =>
    rw [quicksort]
    split
    · exact List.Perm.refl _
    · exact heapsort_perm less xs
  | succ splits ih =>
    rw [quicksort]
    split
    · exact List.Perm.refl _
    · have hfront := toFront_perm (pivotPosition less xs.toArray 0 xs.length) xs
      split
      · rename_i h
        rw [h] at hfront
        exact hfront
      · rename_i pivot rest h
        rw [h] at hfront
        refine List.Perm.trans ?_ hfront
        split
        · have hsplit := split_perm (fun a b => !less b a) pivot rest
          refine List.perm_middle.trans (List.Perm.cons pivot ?_)
          exact ((ih none _).append_left _).trans hsplit
        · have hsplit := split_perm less pivot rest
          refine List.perm_middle.trans (List.Perm.cons pivot ?_)
          exact ((ih bound _).append (ih (some pivot) _)).trans hsplit

end Presort

open Presort in
/-- Bring a list into order up to short stretches.  There are at most twice as many splits one
    inside the other as an even split needs. -/
def presort (less : α → α → Bool) (xs : List α) : List α :=
  if ascending less xs then xs else quicksort less (2 * Nat.log2 xs.length) none xs

theorem presort_perm (less : α → α → Bool) (xs : List α) : (presort less xs).Perm xs := by
  unfold presort
  split
  · exact List.Perm.refl _
  · exact Presort.quicksort_perm less _ none xs

end Milp
