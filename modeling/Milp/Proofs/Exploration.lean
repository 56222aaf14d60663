/-
  A frontier is an ordered list.

  The heap of a frontier, and what pruning makes of it, never show: the frontier answers every call
  as a list does that is kept in the order of exploration.

  * `Selection.Precedes`: the orders of exploration, spelled out; `Selection.before_iff`.
  * `Frontier.Call`, `Frontier.call`, `runAll`: the calls on a frontier, and their replies.
  * `Agenda`: the ordered list; `Agenda.call`: the same calls on it.
  * `Frontier.Keeps`: with any comparator at all, no key is lost or made up.
  * `Frontier.StandsFor`: what ties a frontier to its ordered list; `StandsFor.call`: every call keeps
    it and gets the same reply.
  * `Frontier.runAll_refines`: so any calls get the same replies from both, and what is explored next
    is the one stored key that precedes all others.
-/
import Milp.Proofs.Heap
import Milp.Scalar.Double
import Mathlib.Data.List.Sort

namespace Milp

variable {F : Type} [Scalar F]

/-! ## Orders of exploration -/

namespace Selection

/-- The order of exploration: the strategy, then the sequence of insertion. -/
def Precedes : Selection F → NodeKey F → NodeKey F → Prop
  | bestBound, a, b =>
    Scalar.order a.bound b.bound = .lt ∨ Scalar.order a.bound b.bound = .eq ∧
      (a.depth < b.depth ∨ a.depth = b.depth ∧ a.seq < b.seq)
  | depthFirst, a, b =>
    b.depth < a.depth ∨ a.depth = b.depth ∧
      (Scalar.order a.bound b.bound = .lt ∨ Scalar.order a.bound b.bound = .eq ∧ b.seq < a.seq)
  | breadthFirst, a, b => a.depth < b.depth ∨ a.depth = b.depth ∧ a.seq < b.seq
  | custom comparator, a, b =>
    comparator.compare a b = .lt ∨ comparator.compare a b = .eq ∧ a.seq < b.seq

/-- A comparator of the caller's is a total preorder. -/
def IsPreorder : Selection F → Prop
  | custom comparator => Std.TransCmp comparator.compare
  | _ => True

variable {s : Selection F} {a b : NodeKey F}

theorem before_iff : s.before a b = true ↔ s.Precedes a b := by
  rw [before, beq_iff_eq]
  cases s <;>
    simp only [order, Precedes, Ordering.then_eq_lt, Nat.compare_eq_lt, Nat.compare_eq_eq,
      eq_comm (a := b.depth)]

/-- No two nodes are level. -/
theorem seq_eq_of_order_eq (h : s.order a b = .eq) : a.seq = b.seq := by
  cases s <;> simp only [order, Ordering.then_eq_eq, Nat.compare_eq_eq] at h
  · exact h.2.2
  · exact h.2.2.symm
  · exact h.2
  · exact h.2

theorem precedes_of_isLE (h : (s.order a b).isLE = true) (hne : a.seq ≠ b.seq) :
    s.Precedes a b := by
  rw [← before_iff, before, beq_iff_eq]
  cases horder : s.order a b with
  | lt => rfl
  | eq => exact absurd (seq_eq_of_order_eq horder) hne
  | gt => rw [horder] at h; cases h

/-- Preferring first by one total preorder and then by another is a total preorder. -/
theorem transCmp_order [Std.TransCmp (Scalar.order : F → F → Ordering)] (h : s.IsPreorder) :
    Std.TransCmp s.order := by
  have hbound : Std.TransCmp fun a b : NodeKey F => Scalar.order a.bound b.bound := {
    eq_swap := Std.OrientedCmp.eq_swap
    isLE_trans := Std.TransCmp.isLE_trans }
  cases s with
  | bestBound =>
    exact inferInstanceAs (Std.TransCmp
      (compareLex (fun a b : NodeKey F => Scalar.order a.bound b.bound)
        (compareLex (compareOn NodeKey.depth) (compareOn NodeKey.seq))))
  | depthFirst =>
    exact inferInstanceAs (Std.TransCmp
      (compareLex (fun a b : NodeKey F => compareOn NodeKey.depth b a)
        (compareLex (fun a b => Scalar.order a.bound b.bound)
          fun a b => compareOn NodeKey.seq b a)))
  | breadthFirst =>
    exact inferInstanceAs (Std.TransCmp
      (compareLex (compareOn (NodeKey.depth (F := F))) (compareOn NodeKey.seq)))
  | custom comparator =>
    have : Std.TransCmp comparator.compare := h
    exact inferInstanceAs (Std.TransCmp (compareLex comparator.compare (compareOn NodeKey.seq)))

theorem before_eq_false_iff [Std.OrientedCmp s.order] :
    s.before a b = false ↔ (s.order b a).isLE = true := by
  rw [before, show s.order a b = (s.order b a).swap from Std.OrientedCmp.eq_swap]
  cases s.order b a <;> decide

theorem lawful_before [Std.TransCmp s.order] : Heap.Lawful s.before where
  asymm h := by
    rw [before, beq_iff_eq] at h
    rw [before_eq_false_iff, h]
    rfl
  trans hcb hba := by
    rw [before_eq_false_iff] at hcb hba ⊢
    exact Std.TransCmp.isLE_trans hba hcb

end Selection

/-- Doubles compare by their places in the total order, also zeros and values that are no number. -/
instance : Std.TransCmp (Scalar.order : Float → Float → Ordering) :=
  inferInstanceAs (Std.TransCmp (compareOn Double.rank))

/-! ## Calls -/

/-- A call on a frontier. -/
inductive Frontier.Call (F : Type) where
  | push (id : NodeId) (bound : F) (depth : Nat)
  | pop
  | peek
  | prune (incumbent tolerance : F)

/-- What comes of a call. -/
inductive Frontier.Reply (F : Type) where
  | inserted (key : NodeKey F)
  | popped (key : Option (NodeKey F))
  | peeked (key : Option (NodeKey F))
  | pruned (keys : List (NodeKey F))

/-- Make calls one after the other, and list the replies. -/
def runAll {S C R : Type} (call : S → C → S × R) (s : S) : List C → S × List R
  | [] => (s, [])
  | c :: calls =>
    let (final, replies) := runAll call (call s c).1 calls
    (final, (call s c).2 :: replies)

/-- Two machines that are tied to each other, and stay so with the same replies, give the same
    replies to any calls. -/
theorem runAll_simulates {S T C R : Type} {call : S → C → S × R} {call' : T → C → T × R}
    {Tied : S → T → Prop}
    (hcall : ∀ {s t}, Tied s t → ∀ c, (call s c).2 = (call' t c).2 ∧ Tied (call s c).1 (call' t c).1)
    {s : S} {t : T} (h : Tied s t) (calls : List C) :
    (runAll call s calls).2 = (runAll call' t calls).2 ∧
      Tied (runAll call s calls).1 (runAll call' t calls).1 := by
  induction calls generalizing s t with
  | nil => exact ⟨rfl, h⟩
  | cons c calls ih =>
    obtain ⟨hreply, htied⟩ := hcall h c
    obtain ⟨hreplies, hfinal⟩ := ih htied
    exact ⟨congrArg₂ List.cons hreply hreplies, hfinal⟩

namespace Frontier

def call (f : Frontier F) : Call F → Frontier F × Reply F
  | .push id bound depth =>
    let (f, key) := f.push id bound depth
    (f, .inserted key)
  | .pop =>
    match f.pop? with
    | some (key, rest) => (rest, .popped (some key))
    | none => (f, .popped none)
  | .peek => (f, .peeked f.peek?)
  | .prune incumbent tolerance =>
    let (pruned, rest) := f.pruneByBound incumbent tolerance
    (rest, .pruned pruned)

/-- The key that a call inserts under this number, if it inserts one. -/
def Call.keys (seq : Nat) : Call F → List (NodeKey F)
  | .push id bound depth => [⟨id, bound, depth, seq⟩]
  | _ => []

/-- The keys that calls insert, numbered from `seq` on. -/
def keysOf (seq : Nat) : List (Call F) → List (NodeKey F)
  | [] => []
  | c :: calls => c.keys seq ++ keysOf (seq + (c.keys seq).length) calls

/-- The keys that a call took away. -/
def Reply.removed : Reply F → List (NodeKey F)
  | .popped key => key.toList
  | .pruned keys => keys
  | _ => []

end Frontier

/-! ## The ordered list -/

/-- The stored keys in the order of exploration, and how many were ever inserted. -/
structure Agenda (F : Type) where
  keys : List (NodeKey F) := []
  added : Nat := 0

namespace Agenda

def call (s : Selection F) (a : Agenda F) : Frontier.Call F → Agenda F × Frontier.Reply F
  | .push id bound depth =>
    let key : NodeKey F := ⟨id, bound, depth, a.added⟩
    (⟨a.keys.orderedInsert (fun x y => (s.order x y).isLE = true) key, a.added + 1⟩, .inserted key)
  | .pop => (⟨a.keys.tail, a.added⟩, .popped a.keys.head?)
  | .peek => (a, .peeked a.keys.head?)
  | .prune incumbent tolerance =>
    let (pruned, kept) := a.keys.partition (Frontier.prunable incumbent tolerance)
    (⟨kept, a.added⟩, .pruned (pruned.mergeSort fun x y => x.seq ≤ y.seq))

end Agenda

namespace Frontier

/-! ## No key is lost or made up -/

section
omit [Scalar F]

theorem Call.keys_seq (seq : Nat) (c : Call F) :
    (c.keys seq).map NodeKey.seq = List.range' seq (c.keys seq).length := by
  cases c <;> rfl

theorem keysOf_seq (seq : Nat) (calls : List (Call F)) :
    (keysOf seq calls).map NodeKey.seq = List.range' seq (keysOf seq calls).length := by
  induction calls generalizing seq with
  | nil => rfl
  | cons c calls ih =>
    rw [keysOf, List.map_append, List.length_append, c.keys_seq, ih, List.range'_append_1]

end

theorem call_keys (f : Frontier F) (c : Call F) :
    (f.keys ++ c.keys f.added).Perm ((f.call c).1.keys ++ (f.call c).2.removed) := by
  cases c with
  | push id bound depth =>
    show (f.keys ++ [_]).Perm ((f.push id bound depth).1.keys ++ [])
    rw [List.append_nil]
    exact List.perm_append_comm.trans (f.push_keys id bound depth).symm
  | pop =>
    show (f.keys ++ []).Perm _
    rw [List.append_nil, call]
    cases hpop : f.pop? with
    | none => simp [Reply.removed]
    | some next => exact (pop?_keys hpop).trans (List.perm_append_singleton _ _).symm
  | peek => exact .refl _
  | prune incumbent tolerance =>
    show (f.keys ++ []).Perm _
    rw [List.append_nil]
    exact (pruneByBound_keys Prod.mk.eta.symm).trans List.perm_append_comm

theorem call_added (f : Frontier F) (c : Call F) :
    (f.call c).1.added = f.added + (c.keys f.added).length := by
  cases c with
  | push | peek | prune => rfl
  | pop =>
    rw [call]
    cases hpop : f.pop? with
    | none => rfl
    | some next => exact (pop?_counts hpop).1

theorem runAll_keys (f : Frontier F) (calls : List (Call F)) :
    (f.keys ++ keysOf f.added calls).Perm
      ((runAll call f calls).1.keys ++ (runAll call f calls).2.flatMap Reply.removed) := by
  induction calls generalizing f with
  | nil => exact .refl _
  | cons c calls ih =>
    have hcall := (f.call_keys c).append_right (keysOf (f.call c).1.added calls)
    have hrest := (ih (f.call c).1).append_left (f.call c).2.removed
    rw [List.append_assoc, List.append_assoc] at hcall
    rw [keysOf, ← call_added]
    exact hcall.trans ((List.perm_append_comm_assoc _ _ _).trans
      (hrest.trans (List.perm_append_comm_assoc _ _ _)))

/-- With any comparator at all: what a frontier keeps of the calls made. -/
structure Keeps (f : Frontier F) (calls : List (Call F)) (replies : List (Reply F)) : Prop where
  /-- Every key inserted is stored or was taken away, once. -/
  stored : (keysOf 0 calls).Perm (f.keys ++ replies.flatMap Reply.removed)
  nodup : (keysOf 0 calls).Nodup
  /-- Pruning takes away exactly the keys that an incumbent rules out, -/
  pruned_iff : ∀ incumbent tolerance key, key ∈ (f.pruneByBound incumbent tolerance).1 ↔
    key ∈ f.keys ∧ incumbent - tolerance ≤ key.bound
  /-- leaves the others, -/
  kept_iff : ∀ incumbent tolerance key, key ∈ (f.pruneByBound incumbent tolerance).2.keys ↔
    key ∈ f.keys ∧ ¬ incumbent - tolerance ≤ key.bound
  /-- and lists what it takes in the order of insertion. -/
  inOrder : ∀ incumbent tolerance,
    (f.pruneByBound incumbent tolerance).1.Pairwise fun a b => a.seq < b.seq
  /-- Every sift loop ends. -/
  siftUp_ends : ∀ {n : Nat} (v : Vector (NodeKey F) n) (i : Fin n), ∃ rounds j,
    Heap.Loop (Heap.upRound f.selection.before) rounds (v, i)
      (Heap.siftUp f.selection.before v i, j)
  siftDown_ends : ∀ {n : Nat} (v : Vector (NodeKey F) n) (i : Fin n), ∃ rounds j,
    Heap.Loop (Heap.downRound f.selection.before) rounds (v, i)
      (Heap.siftDown f.selection.before v i, j)

theorem runAll_keeps (s : Selection F) (calls : List (Call F)) :
    (runAll call { selection := s } calls).1.Keeps calls
      (runAll call { selection := s } calls).2 := by
  have hstored := runAll_keys { selection := s } calls
  have hnodup : ((keysOf 0 calls).map NodeKey.seq).Nodup := keysOf_seq 0 calls ▸ List.nodup_range'
  have hseqs := (hstored.map NodeKey.seq).nodup_iff.1 hnodup
  generalize runAll call { selection := s } calls = final at *
  constructor
  · exact hstored
  · exact hnodup.of_map
  · exact fun incumbent tolerance key => final.1.mem_pruned incumbent tolerance
  · exact fun incumbent tolerance key => final.1.mem_kept incumbent tolerance
  · intro incumbent tolerance
    rw [List.map_append] at hseqs
    exact final.1.pruned_inOrder incumbent tolerance (List.nodup_append.1 hseqs).1
  · intro n v i
    obtain ⟨rounds, j, hloop, -⟩ := Heap.siftUp_ends final.1.selection.before v i
    exact ⟨rounds, j, hloop⟩
  · intro n v i
    obtain ⟨rounds, j, hloop, -⟩ := Heap.siftDown_ends final.1.selection.before v i
    exact ⟨rounds, j, hloop⟩

/-- What is taken is what was seen. -/
theorem pop?_fst (f : Frontier F) : f.pop?.map Prod.fst = f.peek? := by
  rw [pop?, Option.map_map]
  exact Heap.pop?_fst _ _

omit [Scalar F] in
/-- Ordered by insertion, the same keys give the same list. -/
theorem mergeSort_seq_congr {xs ys : List (NodeKey F)} (h : xs.Perm ys)
    (hnodup : (ys.map NodeKey.seq).Nodup) :
    (xs.mergeSort fun x y => x.seq ≤ y.seq) = ys.mergeSort fun x y => x.seq ≤ y.seq := by
  have hxs := List.mergeSort_perm xs fun x y => decide (x.seq ≤ y.seq)
  have hys := List.mergeSort_perm ys fun x y => decide (x.seq ≤ y.seq)
  refine List.Perm.eq_of_pairwise ?_ (pairwise_mergeSort_seq xs) (pairwise_mergeSort_seq ys)
    (hxs.trans (h.trans hys.symm))
  intro x y hx hy hxy hyx
  exact List.inj_on_of_nodup_map hnodup (h.mem_iff.1 (hxs.mem_iff.1 hx)) (hys.mem_iff.1 hy)
    (Nat.le_antisymm hxy hyx)

/-! ## The ordered list that a frontier stands for -/

/-- The frontier holds the keys of the list, as a heap; no two keys are level. -/
structure StandsFor (s : Selection F) (f : Frontier F) (a : Agenda F) : Prop where
  selection_eq : f.selection = s
  perm : f.keys.Perm a.keys
  sorted : a.keys.Pairwise fun x y => (s.order x y).isLE = true
  nodup : (a.keys.map NodeKey.seq).Nodup
  isHeap : Heap.IsHeap s.before f.heap
  added_eq : f.added = a.added
  seq_lt : ∀ key ∈ a.keys, key.seq < a.added

variable {s : Selection F} {f rest : Frontier F} {a : Agenda F} {key : NodeKey F}

theorem standsFor_empty (s : Selection F) : StandsFor s { selection := s } {} where
  selection_eq := rfl
  perm := .refl _
  sorted := .nil
  nodup := .nil
  isHeap := fun j => absurd j.isLt (Nat.not_lt_zero _)
  added_eq := rfl
  seq_lt := fun _ hkey => nomatch hkey

namespace StandsFor

theorem precedes (h : StandsFor s f a) : a.keys.Pairwise s.Precedes :=
  (h.sorted.and (List.pairwise_map.1 h.nodup)).imp fun ⟨hle, hne⟩ =>
    Selection.precedes_of_isLE hle hne

variable [Std.TransCmp s.order]

/-- The heap knows the first key of the list. -/
theorem peek?_eq (h : StandsFor s f a) : f.peek? = a.keys.head? := by
  have hperm := h.perm
  have hprecedes := h.precedes
  rcases hkeys : a.keys with _ | ⟨first, others⟩ <;> rw [hkeys] at hperm hprecedes
  · have hnil : f.heap.toList = [] := hperm.eq_nil
    simp [peek?, Array.toList_eq_nil_iff.1 hnil]
  · have hsize : 0 < f.heap.size := by
      rw [← Array.length_toList]
      exact hperm.length_eq ▸ Nat.succ_pos _
    have hroot : f.peek? = some f.heap[0] := Array.getElem?_eq_getElem hsize
    have hmem : f.heap[0] ∈ first :: others :=
      hperm.mem_iff.1 (Array.mem_toList_iff.2 (Array.getElem_mem hsize))
    rw [hroot]
    rcases List.mem_cons.1 hmem with heq | hother
    · exact congrArg some heq
    · -- the first key of the list would come before the first one of the heap
      have hfirst : first ∈ f.heap := Array.mem_toList_iff.1 (hperm.mem_iff.2 List.mem_cons_self)
      have hbefore := Selection.before_iff.2 (List.rel_of_pairwise_cons hprecedes hother)
      have hnot := h.isHeap.not_before_root Selection.lawful_before hroot hfirst
      exact absurd (hbefore.symm.trans hnot) Bool.noConfusion

theorem insert (h : StandsFor s f a) (id : NodeId) (bound : F) (depth : Nat) :
    StandsFor s (f.push id bound depth).1 (a.call s (.push id bound depth)).1 := by
  have : Std.Total fun x y : NodeKey F => (s.order x y).isLE = true :=
    ⟨fun x y => by
      rw [show s.order y x = (s.order x y).swap from Std.OrientedCmp.eq_swap]
      cases s.order x y <;> decide⟩
  have : IsTrans (NodeKey F) fun x y => (s.order x y).isLE = true :=
    ⟨fun x y z => Std.TransCmp.isLE_trans⟩
  have hinsert := List.perm_orderedInsert (fun x y => (s.order x y).isLE = true)
    ⟨id, bound, depth, a.added⟩ a.keys
  have hfresh : a.added ∉ a.keys.map NodeKey.seq := by
    intro hmem
    obtain ⟨key, hkey, heq⟩ := List.mem_map.1 hmem
    exact Nat.ne_of_lt (h.seq_lt key hkey) heq
  exact {
    selection_eq := h.selection_eq
    perm := by
      have hpush := f.push_keys id bound depth
      rw [h.added_eq] at hpush
      exact hpush.trans ((h.perm.cons _).trans hinsert.symm)
    sorted := h.sorted.orderedInsert _ _
    nodup := (hinsert.map NodeKey.seq).nodup_iff.2 (List.nodup_cons.2 ⟨hfresh, h.nodup⟩)
    isHeap := by
      have := h.selection_eq
      subst this
      exact h.isHeap.push Selection.lawful_before _
    added_eq := congrArg (· + 1) h.added_eq
    seq_lt := by
      intro key hkey
      rcases List.mem_cons.1 (hinsert.mem_iff.1 hkey) with rfl | hkey
      · exact Nat.lt_succ_self _
      · exact Nat.lt_succ_of_lt (h.seq_lt key hkey) }

theorem tail (h : StandsFor s f a) (hpop : f.pop? = some (key, rest)) :
    StandsFor s rest ⟨a.keys.tail, a.added⟩ := by
  have hfirst := f.pop?_fst
  rw [hpop, h.peek?_eq] at hfirst
  obtain ⟨keys, hkeys⟩ := List.head?_eq_some_iff.1 hfirst.symm
  obtain ⟨selection_eq, perm, sorted, nodup, isHeap, added_eq, seq_lt⟩ := h
  rw [hkeys] at perm sorted nodup seq_lt ⊢
  obtain ⟨⟨first, heap⟩, hheap, heq⟩ := Option.map_eq_some_iff.1 hpop
  obtain ⟨rfl, rfl⟩ := Prod.mk.inj heq
  subst selection_eq
  exact {
    selection_eq := rfl
    perm := ((pop?_keys hpop).symm.trans perm).cons_inv
    sorted := sorted.of_cons
    nodup := nodup.of_cons
    isHeap := isHeap.pop? Selection.lawful_before hheap
    added_eq := added_eq
    seq_lt := fun key hkey => seq_lt key (List.mem_cons_of_mem _ hkey) }

omit [Std.TransCmp s.order] in
theorem pruned_eq (h : StandsFor s f a) (incumbent tolerance : F) :
    (f.pruneByBound incumbent tolerance).1 =
      (a.keys.filter (prunable incumbent tolerance)).mergeSort fun x y => x.seq ≤ y.seq := by
  rw [pruneByBound_pruned]
  exact mergeSort_seq_congr (h.perm.filter _) (h.nodup.sublist (List.filter_sublist.map _))

theorem prune (h : StandsFor s f a) (incumbent tolerance : F) :
    StandsFor s (f.pruneByBound incumbent tolerance).2
      ⟨a.keys.filter (not ∘ prunable incumbent tolerance), a.added⟩ where
  selection_eq := h.selection_eq
  perm := (f.pruneByBound_kept incumbent tolerance).trans (h.perm.filter _)
  sorted := h.sorted.filter _
  nodup := h.nodup.sublist (List.filter_sublist.map _)
  isHeap := by
    have := h.selection_eq
    subst this
    exact Heap.isHeap_heapify Selection.lawful_before _
  added_eq := h.added_eq
  seq_lt := fun key hkey => h.seq_lt key (List.mem_filter.1 hkey).1

theorem call (h : StandsFor s f a) (c : Call F) :
    (f.call c).2 = (a.call s c).2 ∧ StandsFor s (f.call c).1 (a.call s c).1 := by
  cases c with
  | push id bound depth =>
    have hkey : (f.push id bound depth).2 = ⟨id, bound, depth, a.added⟩ :=
      h.added_eq ▸ rfl
    exact ⟨congrArg Reply.inserted hkey, h.insert id bound depth⟩
  | pop =>
    have hfirst := f.pop?_fst
    rw [h.peek?_eq] at hfirst
    rw [Frontier.call, Agenda.call, ← hfirst]
    cases hpop : f.pop? with
    | none =>
      rw [hpop] at hfirst
      obtain ⟨keys, added⟩ := a
      obtain rfl : keys = [] := List.head?_eq_none_iff.1 hfirst.symm
      exact ⟨rfl, h⟩
    | some next => exact ⟨rfl, h.tail hpop⟩
  | peek => exact ⟨congrArg Reply.peeked h.peek?_eq, h⟩
  | prune incumbent tolerance =>
    have hprune := h.prune incumbent tolerance
    simp only [Agenda.call, List.partition_eq_filter_filter]
    exact ⟨congrArg Reply.pruned (h.pruned_eq incumbent tolerance), hprune⟩

theorem asymm {x y : NodeKey F} (hxy : s.Precedes x y) : ¬ s.Precedes y x := by
  rw [← Selection.before_iff, Bool.not_eq_true]
  exact Selection.lawful_before.asymm (Selection.before_iff.2 hxy)

theorem drain_eq (h : StandsFor s f a) : f.drain.1 = a.keys := by
  have hgo : ∀ (k : Nat) {f : Frontier F} {a : Agenda F} (acc : List (NodeKey F)),
      StandsFor s f a → a.keys.length = k → (drain.go k f acc).1 = acc.reverse ++ a.keys := by
    intro k
    induction k with
    | zero =>
      intro f a acc h hlength
      rw [List.eq_nil_of_length_eq_zero hlength, List.append_nil]
      rfl
    | succ k ih =>
      intro f a acc h hlength
      have hfirst := f.pop?_fst
      rw [h.peek?_eq] at hfirst
      obtain ⟨key, keys, hkeys⟩ := List.exists_cons_of_length_eq_add_one hlength
      rw [hkeys] at hfirst hlength ⊢
      obtain ⟨⟨first, rest⟩, hpop, rfl⟩ := Option.map_eq_some_iff.1 hfirst
      have hrest := h.tail hpop
      rw [hkeys] at hrest
      rw [drain.go, hpop]
      refine (ih _ hrest (Nat.succ.inj hlength)).trans ?_
      rw [List.reverse_cons, List.append_assoc]
      rfl
  exact hgo _ [] h (h.perm.length_eq.symm.trans Array.length_toList)

theorem peek?_iff (h : StandsFor s f a) : f.peek? = some key ↔
    key ∈ f.keys ∧ ∀ other ∈ f.keys, other ≠ key → s.Precedes key other := by
  have hprecedes := h.precedes
  simp only [h.perm.mem_iff, h.peek?_eq, List.head?_eq_some_iff]
  constructor
  · rintro ⟨keys, hkeys⟩
    rw [hkeys] at hprecedes ⊢
    refine ⟨List.mem_cons_self, fun other hother hne => ?_⟩
    exact List.rel_of_pairwise_cons hprecedes ((List.mem_cons.1 hother).resolve_left hne)
  · rintro ⟨hkey, hleast⟩
    rcases hkeys : a.keys with _ | ⟨first, keys⟩ <;> rw [hkeys] at hkey hleast hprecedes
    · cases hkey
    · rcases List.mem_cons.1 hkey with rfl | hother
      · exact ⟨keys, rfl⟩
      · have hfirst := List.rel_of_pairwise_cons hprecedes hother
        have hne : first ≠ key := fun heq => asymm hfirst (heq ▸ hfirst)
        exact absurd (hleast first List.mem_cons_self hne) (asymm hfirst)

end StandsFor

/-- What is explored next is determined by the stored keys alone. -/
structure Explores (s : Selection F) (f : Frontier F) : Prop where
  /-- The key seen first is the one that precedes all others, -/
  peek?_iff : ∀ key, f.peek? = some key ↔
    key ∈ f.keys ∧ ∀ other ∈ f.keys, other ≠ key → s.Precedes key other
  /-- it is the one that is taken, -/
  pop?_fst : f.pop?.map Prod.fst = f.peek?
  /-- and so on, until all keys are taken. -/
  drain_perm : f.drain.1.Perm f.keys
  drain_precedes : f.drain.1.Pairwise s.Precedes

/-- **A frontier refines an ordered list.**  Whatever calls are made, no key is lost or made up, with
    any comparator at all.  If the comparator is a total preorder, the calls get the replies of an
    ordered list, and what is explored next is the stored key that precedes all others; so frontiers
    that hold the same keys are explored in the same order, however they came to hold them. -/
theorem runAll_refines [Std.TransCmp (Scalar.order : F → F → Ordering)] (s : Selection F)
    (calls : List (Call F)) :
    (runAll call { selection := s } calls).1.Keeps calls
        (runAll call { selection := s } calls).2 ∧
      (s.IsPreorder →
        (runAll call { selection := s } calls).2 = (runAll (Agenda.call s) {} calls).2 ∧
        Explores s (runAll call { selection := s } calls).1 ∧
        ∀ calls' : List (Call F),
          (runAll call { selection := s } calls').1.keys.Perm
            (runAll call { selection := s } calls).1.keys →
          (runAll call { selection := s } calls').1.drain.1 =
            (runAll call { selection := s } calls).1.drain.1) := by
  refine ⟨runAll_keeps s calls, fun hpreorder => ?_⟩
  have : Std.TransCmp s.order := Selection.transCmp_order hpreorder
  have hruns := runAll_simulates (fun h => StandsFor.call h) (standsFor_empty s)
  obtain ⟨hreplies, hstands⟩ := hruns calls
  refine ⟨hreplies, ?_, fun calls' hperm => ?_⟩
  · constructor
    · exact fun key => hstands.peek?_iff
    · exact pop?_fst _
    · rw [hstands.drain_eq]
      exact hstands.perm.symm
    · rw [hstands.drain_eq]
      exact hstands.precedes
  · have hstands' := (hruns calls').2
    rw [hstands.drain_eq, hstands'.drain_eq]
    exact List.Perm.eq_of_pairwise (fun x y _ _ hxy hyx => absurd hyx (StandsFor.asymm hxy))
      hstands'.precedes hstands.precedes
      (hstands'.perm.symm.trans (hperm.trans hstands.perm))

/-- A value that is no number, both zeros and a number, the highest bound first: after pruning the
    number the value that is no number comes first, and zero before negative zero. -/
theorem runAll_refines_worstFirst :
    let s : Selection Float := .custom .worstFirst
    let calls : List (Call Float) := [.push 0 (0.0 / 0.0) 0, .push 1 (-0.0) 0, .push 2 0.0 1,
      .push 3 5.0 1, .prune 5.0 0.0, .peek, .pop, .pop, .pop, .pop]
    s.IsPreorder ∧ (runAll call { selection := s } calls).2 = (runAll (Agenda.call s) {} calls).2 ∧
      ((runAll call { selection := s } calls).2.flatMap Reply.removed).map NodeKey.id =
        [3, 0, 2, 1] := by
  intro s calls
  have hpreorder : s.IsPreorder :=
    inferInstanceAs (Std.TransCmp fun a b : NodeKey Float =>
      compareOn (fun key => Double.rank key.bound) b a)
  exact ⟨hpreorder, ((runAll_refines s calls).2 hpreorder).1, by decide +kernel⟩

end Frontier

end Milp
