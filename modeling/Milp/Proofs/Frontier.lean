/-
  What the operations of a frontier do to its keys.

  A frontier is a heap, but what a search relies on is only which keys it holds, whatever the order
  of exploration.

  * `Frontier.push_keys`, `Frontier.pop?_keys`: one key more, one key less.
  * `Frontier.pruneByBound_keys`: the keys split into those that an incumbent rules out and those
    that stay.
-/
import Milp.Frontier.Basic

namespace Milp

namespace Heap

variable {α : Type} {n : Nat}

theorem siftUp_perm (before : α → α → Bool) (v : Vector α n) (i : Fin n) :
    (siftUp before v i).Perm v := by
  fun_induction siftUp before v i with
  | case1 => exact Vector.Perm.refl _
  | case2 v i _ parent _ ih => exact ih.trans (Vector.swap_perm _ _)
  | case3 => exact Vector.Perm.refl _

theorem push_perm (before : α → α → Bool) (heap : Array α) (a : α) :
    (push before heap a).Perm (heap.push a) :=
  (siftUp_perm before (heap.toVector.push a) _).toArray

theorem pop?_eq_none {before : α → α → Bool} {heap : Array α} :
    pop? before heap = none ↔ heap.toList = [] := by
  unfold pop?
  split
  case isTrue h => simpa using Array.ne_empty_of_size_pos h
  case isFalse h => simpa using Array.eq_empty_of_size_eq_zero (by omega)

end Heap

namespace Frontier

variable {F : Type}

/-- The pending nodes, as the frontier knows them. -/
def keys (f : Frontier F) : List (NodeKey F) := f.heap.toList

/-- The key under which a node is inserted. -/
def keyOf (f : Frontier F) (node : Node F) : NodeKey F :=
  ⟨node.id, node.dualBound, node.depth, f.added⟩

variable [Scalar F]

theorem push_keys (f : Frontier F) (id : NodeId) (bound : F) (depth : Nat) :
    (f.push id bound depth).1.keys.Perm (⟨id, bound, depth, f.added⟩ :: f.keys) := by
  have hperm := (Heap.push_perm f.selection.before f.heap ⟨id, bound, depth, f.added⟩).toList
  rw [Array.toList_push] at hperm
  exact hperm.trans List.perm_append_comm

theorem pushNode_keys (f : Frontier F) (node : Node F) :
    (f.pushNode node).keys.Perm (f.keyOf node :: f.keys) := f.push_keys _ _ _

theorem pop?_keys {f rest : Frontier F} {key : NodeKey F} (h : f.pop? = some (key, rest)) :
    f.keys.Perm (key :: rest.keys) := by
  simp only [pop?, Option.map_eq_some_iff, Prod.mk.injEq, Prod.exists] at h
  obtain ⟨a, heap, hpop, rfl, rfl⟩ := h
  have hperm := (Heap.pop?_perm hpop).toList
  rw [Array.toList_push] at hperm
  exact (List.perm_append_comm.symm.trans hperm).symm

theorem pop?_counts {f rest : Frontier F} {key : NodeKey F} (h : f.pop? = some (key, rest)) :
    rest.added = f.added ∧ rest.popped = f.popped + 1 := by
  obtain ⟨_, -, heq⟩ := Option.map_eq_some_iff.1 h
  obtain ⟨-, rfl⟩ := Prod.mk.inj heq
  exact ⟨rfl, rfl⟩

theorem pruneByBound_counts {f rest : Frontier F} {pruned : List (NodeKey F)}
    {incumbent tolerance : F} (h : f.pruneByBound incumbent tolerance = (pruned, rest)) :
    rest.added = f.added ∧ rest.popped = f.popped := by
  obtain ⟨-, rfl⟩ := Prod.mk.inj h
  exact ⟨rfl, rfl⟩

theorem pop?_eq_none {f : Frontier F} : f.pop? = none ↔ f.keys = [] := by
  simp [pop?, Heap.pop?_eq_none, keys]

omit [Scalar F] in
theorem pairwise_mergeSort_seq (keys : List (NodeKey F)) :
    (keys.mergeSort fun a b => a.seq ≤ b.seq).Pairwise fun a b => a.seq ≤ b.seq := by
  have htrans : ∀ a b c : NodeKey F, decide (a.seq ≤ b.seq) = true → decide (b.seq ≤ c.seq) = true →
      decide (a.seq ≤ c.seq) = true := by
    simpa using fun a b c => Nat.le_trans
  have htotal : ∀ a b : NodeKey F, (decide (a.seq ≤ b.seq) || decide (b.seq ≤ a.seq)) = true := by
    simpa using fun a b => Nat.le_total _ _
  exact (List.pairwise_mergeSort htrans htotal keys).imp of_decide_eq_true

section
variable (f : Frontier F) (incumbent tolerance : F)

theorem pruneByBound_pruned : (f.pruneByBound incumbent tolerance).1 =
    (f.keys.filter (prunable incumbent tolerance)).mergeSort fun a b => a.seq ≤ b.seq := by
  rw [pruneByBound, List.partition_eq_filter_filter]
  rfl

theorem pruneByBound_kept : (f.pruneByBound incumbent tolerance).2.keys.Perm
    (f.keys.filter (not ∘ prunable incumbent tolerance)) := by
  rw [pruneByBound, List.partition_eq_filter_filter]
  exact (Heap.heapify_perm f.selection.before _).toList

theorem mem_pruned {key : NodeKey F} : key ∈ (f.pruneByBound incumbent tolerance).1 ↔
    key ∈ f.keys ∧ incumbent - tolerance ≤ key.bound := by
  rw [pruneByBound_pruned, (List.mergeSort_perm _ _).mem_iff, List.mem_filter, prunable,
    decide_eq_true_eq]

theorem mem_kept {key : NodeKey F} : key ∈ (f.pruneByBound incumbent tolerance).2.keys ↔
    key ∈ f.keys ∧ ¬ incumbent - tolerance ≤ key.bound := by
  rw [(f.pruneByBound_kept incumbent tolerance).mem_iff, List.mem_filter, Function.comp_apply,
    prunable, Bool.not_eq_true', decide_eq_false_iff_not]

/-- What is pruned is listed in the order of insertion. -/
theorem pruned_inOrder (h : (f.keys.map NodeKey.seq).Nodup) :
    (f.pruneByBound incumbent tolerance).1.Pairwise fun a b => a.seq < b.seq := by
  have hperm := List.mergeSort_perm (f.keys.filter (prunable incumbent tolerance))
    fun a b => decide (a.seq ≤ b.seq)
  rw [pruneByBound_pruned]
  have hseqs := (hperm.map NodeKey.seq).nodup_iff.2 (h.sublist (List.filter_sublist.map _))
  exact ((pairwise_mergeSort_seq _).and (List.pairwise_map.1 hseqs)).imp fun ⟨hle, hne⟩ =>
    Nat.lt_of_le_of_ne hle hne

end

theorem pruneByBound_keys {f rest : Frontier F} {pruned : List (NodeKey F)} {incumbent tolerance : F}
    (h : f.pruneByBound incumbent tolerance = (pruned, rest)) :
    f.keys.Perm (pruned ++ rest.keys) := by
  have hpruned := f.pruneByBound_pruned incumbent tolerance
  have hkept := f.pruneByBound_kept incumbent tolerance
  rw [h] at hpruned hkept
  have hsorted := List.mergeSort_perm (f.keys.filter (prunable incumbent tolerance))
    fun a b => decide (a.seq ≤ b.seq)
  rw [← hpruned] at hsorted
  exact ((hsorted.append hkept).trans (List.filter_append_perm _ _)).symm

/-- What an incumbent rules out is what its objective rules out. -/
theorem prunable_of_mem_pruned {f rest : Frontier F} {pruned : List (NodeKey F)}
    {incumbent tolerance : F} (h : f.pruneByBound incumbent tolerance = (pruned, rest))
    {key : NodeKey F} (hkey : key ∈ pruned) : incumbent - tolerance ≤ key.bound := by
  have hmem : key ∈ (f.pruneByBound incumbent tolerance).1 := h ▸ hkey
  exact ((f.mem_pruned incumbent tolerance).1 hmem).2

end Frontier

end Milp
