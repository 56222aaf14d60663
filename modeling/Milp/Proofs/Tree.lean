/-
  The live part of a search tree: what holds of it whatever is created and closed.

  * `Tree.WellFormed`: nodes are stored under their own numbers, parents are live and have smaller
    numbers, and every node counts its live children.
  * `Tree.Settled`: a closed node is live only for the sake of its live children.
  * `Tree.release_spec`: releasing takes away closed nodes only, and leaves the others as they are.
  * `Tree.restrictions_child`: the restrictions of a child are those of its parent, changed by its own
    changes; so they do not depend on the rest of the tree (`Tree.restrictions_congr`).
-/
import Milp.Tree

namespace Milp

variable {F : Type}

/-- One change after the other. -/
def Restrictions.after (r : Restrictions F) (changes : List (BoundChange F)) : Restrictions F :=
  changes.foldl (fun r c => r.set c.var c.new) r

namespace Tree

/-! ## Slots -/

theorem get?_eq_some {t : Tree F} {id : NodeId} {node : Node F} :
    t.get? id = some node ↔ ∃ s, t.slot? id = some s ∧ s.node = node := by
  simp [get?]

theorem get?_of_slot? {t : Tree F} {id : NodeId} {s : Slot F} (h : t.slot? id = some s) :
    t.get? id = some s.node := get?_eq_some.2 ⟨s, h, rfl⟩

theorem slot?_eq_some {t : Tree F} {id : NodeId} {s : Slot F} :
    t.slot? id = some s ↔ t.slots[id]? = some (some s) := by
  simp [slot?, Option.join_eq_some_iff]

theorem slot?_lt {t : Tree F} {id : NodeId} {s : Slot F} (h : t.slot? id = some s) :
    id < t.created := by
  obtain ⟨hlt, -⟩ := Array.getElem?_eq_some_iff.1 (slot?_eq_some.1 h)
  exact hlt

theorem slot?_modifySlot (t : Tree F) (id other : NodeId) (f : Slot F → Slot F) :
    (t.modifySlot id f).slot? other =
      if id = other then (t.slot? other).map f else t.slot? other := by
  simp only [modifySlot, slot?, Array.getElem?_modify]
  split
  · rcases t.slots[other]? with _ | _ | s <;> rfl
  · rfl

theorem slot?_insert (t : Tree F) (node : Node F) (other : NodeId) :
    (t.insert node).slot? other = if other = t.created then some ⟨node, 0⟩ else t.slot? other := by
  simp only [insert, slot?, Array.getElem?_push, created]
  by_cases h : other = t.slots.size
  · simp [h]
  · simp [h]

@[simp] theorem created_modifySlot (t : Tree F) (id : NodeId) (f : Slot F → Slot F) :
    (t.modifySlot id f).created = t.created := by
  simp [modifySlot, created]

@[simp] theorem created_insert (t : Tree F) (node : Node F) :
    (t.insert node).created = t.created + 1 := by
  simp [insert, created]

/-! ## Counting children -/

/-- Is this the slot of a child of `id`? -/
def isChildOf (id : NodeId) (slot : Option (Slot F)) : Bool :=
  slot.any fun s => s.node.parent = some id

/-- The number of live children of a node. -/
def childCount (t : Tree F) (id : NodeId) : Nat := t.slots.countP (isChildOf id)

/-- Changing one entry changes the count by what the entry counted before and counts now. -/
theorem countP_modify {α : Type} (p : α → Bool) (f : α → α) {xs : Array α} {i : Nat} {a : α}
    (h : xs[i]? = some a) :
    (xs.modify i f).countP p + (if p a then 1 else 0) =
      xs.countP p + (if p (f a) then 1 else 0) := by
  obtain ⟨hlt, rfl⟩ := Array.getElem?_eq_some_iff.1 h
  have hset : xs.modify i f = xs.set i (f xs[i]) hlt := by
    refine Array.ext_getElem? fun j => ?_
    rw [Array.getElem?_modify, Array.getElem?_set]
    split
    · subst_vars; simp [hlt]
    · rfl
  rw [hset, Array.countP_set hlt]
  have hle : (if p xs[i] then 1 else 0) ≤ xs.countP p := by
    split
    · exact Array.countP_pos_iff.2 ⟨_, Array.getElem_mem hlt, ‹_›⟩
    · exact Nat.zero_le _
  omega

/-- Changing one entry for another that counts the same. -/
theorem countP_modify_of_eq {α : Type} {p : α → Bool} {f : α → α} {xs : Array α} {i : Nat}
    (h : ∀ a, xs[i]? = some a → p (f a) = p a) : (xs.modify i f).countP p = xs.countP p := by
  rcases hi : xs[i]? with _ | a
  · have hsame : xs.modify i f = xs := by
      refine Array.ext_getElem? fun j => ?_
      rw [Array.getElem?_modify]
      split
      · subst_vars; simp [hi]
      · rfl
    rw [hsame]
  · have hcount := countP_modify p f hi
    rw [h a hi] at hcount
    exact Nat.add_right_cancel hcount

theorem childCount_insert (t : Tree F) (node : Node F) (id : NodeId) :
    (t.insert node).childCount id = t.childCount id + if node.parent = some id then 1 else 0 := by
  simp [insert, childCount, Array.countP_push, isChildOf]

/-- A change that leaves parents alone leaves the counts alone. -/
theorem childCount_modifySlot (t : Tree F) (id other : NodeId) {f : Slot F → Slot F}
    (hf : ∀ s, t.slot? id = some s → (f s).node.parent = s.node.parent) :
    (t.modifySlot id f).childCount other = t.childCount other := by
  refine countP_modify_of_eq fun a ha => ?_
  rcases a with _ | s
  · rfl
  · simp [isChildOf, hf s (slot?_eq_some.2 ha)]

theorem childCount_pos {t : Tree F} {id child : NodeId} {s : Slot F} (h : t.slot? child = some s)
    (hp : s.node.parent = some id) : 0 < t.childCount id :=
  Array.countP_pos_iff.2
    ⟨some s, Array.mem_of_getElem? (slot?_eq_some.1 h), by simp [isChildOf, hp]⟩

/-! ## Well-formed trees -/

/-- Nodes are stored under their own numbers, parents are live and have smaller numbers, and every
    node counts its live children. -/
structure WellFormed (t : Tree F) : Prop where
  id_eq : ∀ {id s}, t.slot? id = some s → s.node.id = id
  parent_lt : ∀ {id s p}, t.slot? id = some s → s.node.parent = some p → p < id
  parent_live : ∀ {id s p}, t.slot? id = some s → s.node.parent = some p → ∃ q, t.slot? p = some q
  liveChildren_eq : ∀ {id s}, t.slot? id = some s → s.liveChildren = t.childCount id

/-- A node that is closed has live children. -/
def SettledAt (t : Tree F) (id : NodeId) : Prop :=
  ∀ s, t.slot? id = some s → s.node.status.isClosed = true → s.liveChildren ≠ 0

/-- Closed nodes are live only for the sake of their live children. -/
def Settled (t : Tree F) : Prop := ∀ id, t.SettledAt id

theorem WellFormed.empty : (Tree.empty : Tree F).WellFormed := by
  have hslot : ∀ id, (Tree.empty : Tree F).slot? id = none := by simp [Tree.empty, slot?]
  constructor <;> simp [hslot]

/-- No live node has the number of the next one as its parent. -/
theorem WellFormed.childCount_created {t : Tree F} (wf : t.WellFormed) :
    t.childCount t.created = 0 := by
  refine Nat.eq_zero_of_not_pos fun hpos => ?_
  obtain ⟨slot, hmem, hchild⟩ := Array.countP_pos_iff.1 hpos
  obtain ⟨j, hj⟩ := Array.getElem?_of_mem hmem
  rcases slot with _ | s
  · simp [isChildOf] at hchild
  · have hs := slot?_eq_some.2 hj
    obtain ⟨q, hq⟩ := wf.parent_live hs (by simpa [isChildOf] using hchild)
    exact absurd (slot?_lt hq) (Nat.lt_irrefl _)

theorem slot?_createRoot [Extended F] (t : Tree F) (id : NodeId) :
    t.createRoot.1.slot? id =
      if id = t.created then some ⟨Node.root t.created, 0⟩ else t.slot? id :=
  slot?_insert t _ id

theorem WellFormed.createRoot [Extended F] {t : Tree F} (wf : t.WellFormed) :
    t.createRoot.1.WellFormed := by
  have hslot : ∀ {id s}, t.createRoot.1.slot? id = some s →
      (id = t.created ∧ s = ⟨Node.root t.created, 0⟩) ∨ t.slot? id = some s := by
    intro id s hs
    rw [slot?_createRoot] at hs
    split at hs
    · exact .inl ⟨‹_›, (Option.some.inj hs).symm⟩
    · exact .inr hs
  have hcount : ∀ id, t.createRoot.1.childCount id = t.childCount id := by
    intro id
    simp [Tree.createRoot, childCount_insert, Node.root]
  constructor
  · intro id s hs
    rcases hslot hs with ⟨rfl, rfl⟩ | hs
    · rfl
    · exact wf.id_eq hs
  · intro id s p hs hp
    rcases hslot hs with ⟨rfl, rfl⟩ | hs
    · cases hp
    · exact wf.parent_lt hs hp
  · intro id s p hs hp
    rcases hslot hs with ⟨rfl, rfl⟩ | hs
    · cases hp
    · obtain ⟨q, hq⟩ := wf.parent_live hs hp
      refine ⟨q, ?_⟩
      rw [slot?_createRoot, if_neg (Nat.ne_of_lt (slot?_lt hq)), hq]
  · intro id s hs
    rw [hcount]
    rcases hslot hs with ⟨rfl, rfl⟩ | hs
    · exact wf.childCount_created.symm
    · exact wf.liveChildren_eq hs

/-- A change that leaves numbers, parents and counts alone keeps a tree well-formed. -/
theorem WellFormed.modifySlot {t : Tree F} (h : t.WellFormed) (id : NodeId) {f : Slot F → Slot F}
    (hid : ∀ s, t.slot? id = some s → (f s).node.id = s.node.id)
    (hparent : ∀ s, t.slot? id = some s → (f s).node.parent = s.node.parent)
    (hcount : ∀ s, (f s).liveChildren = s.liveChildren) : (t.modifySlot id f).WellFormed := by
  -- every slot of the new tree comes from one with the same number, parent and count
  have hslot : ∀ {i s}, (t.modifySlot id f).slot? i = some s → ∃ s₀, t.slot? i = some s₀ ∧
      s.node.id = s₀.node.id ∧ s.node.parent = s₀.node.parent ∧
      s.liveChildren = s₀.liveChildren := by
    intro i s hs
    rw [slot?_modifySlot] at hs
    split at hs
    · rename_i hi
      obtain ⟨s₀, h₀, rfl⟩ := Option.map_eq_some_iff.1 hs
      exact ⟨s₀, h₀, hid s₀ (hi ▸ h₀), hparent s₀ (hi ▸ h₀), hcount s₀⟩
    · exact ⟨s, hs, rfl, rfl, rfl⟩
  constructor
  · intro i s hs
    obtain ⟨s₀, h₀, hi, -, -⟩ := hslot hs
    rw [hi, h.id_eq h₀]
  · intro i s p hs hp
    obtain ⟨s₀, h₀, -, hpar, -⟩ := hslot hs
    exact h.parent_lt h₀ (hpar ▸ hp)
  · intro i s p hs hp
    obtain ⟨s₀, h₀, -, hpar, -⟩ := hslot hs
    obtain ⟨q, hq⟩ := h.parent_live h₀ (hpar ▸ hp)
    rw [slot?_modifySlot, hq]
    split <;> exact ⟨_, rfl⟩
  · intro i s hs
    obtain ⟨s₀, h₀, -, -, hc⟩ := hslot hs
    rw [hc, h.liveChildren_eq h₀, childCount_modifySlot _ _ _ hparent]

theorem get?_modify (t : Tree F) (id other : NodeId) (f : Node F → Node F) :
    (t.modify id f).get? other = if id = other then (t.get? other).map f else t.get? other := by
  simp only [get?, modify, slot?_modifySlot]
  split
  · rcases t.slot? other with _ | s <;> rfl
  · rfl

theorem WellFormed.modify {t : Tree F} (h : t.WellFormed) (id : NodeId) {f : Node F → Node F}
    (hid : ∀ n, t.get? id = some n → (f n).id = n.id)
    (hparent : ∀ n, t.get? id = some n → (f n).parent = n.parent) : (t.modify id f).WellFormed :=
  h.modifySlot id (fun s hs => hid s.node (get?_of_slot? hs))
    (fun s hs => hparent s.node (get?_of_slot? hs)) fun _ => rfl

/-! ## New nodes -/

/-- The tree with a new child, if the parent is live. -/
theorem createChild_eq {t t' : Tree F} {parent child : NodeId} {change : BoundChange F}
    (h : t.createChild parent change = .ok (t', child)) :
    ∃ s, t.slot? parent = some s ∧ child = t.created ∧
      t' = (t.modifySlot parent fun s => { s with liveChildren := s.liveChildren + 1 }).insert
        (s.node.child t.created change) := by
  unfold createChild at h
  split at h
  · cases h
  · rename_i node hnode
    obtain ⟨s, hs, rfl⟩ := get?_eq_some.1 hnode
    injection h with h
    injection h with h₁ h₂
    exact ⟨s, hs, h₂.symm, h₁.symm⟩

/-- A live node can have children. -/
theorem createChild_ok {t : Tree F} {parent : NodeId} {s : Slot F} (h : t.slot? parent = some s)
    (change : BoundChange F) : ∃ t', t.createChild parent change = .ok (t', t.created) := by
  simp [createChild, get?_of_slot? h]

/-- What a new child changes: its own slot, and the count of its parent. -/
theorem slot?_createChild {t t' : Tree F} {parent child : NodeId} {change : BoundChange F}
    (h : t.createChild parent change = .ok (t', child)) (id : NodeId) :
    ∃ s, t.slot? parent = some s ∧
      t'.slot? id =
        if id = t.created then some ⟨s.node.child t.created change, 0⟩
        else if parent = id then some { s with liveChildren := s.liveChildren + 1 }
        else t.slot? id := by
  obtain ⟨s, hs, -, rfl⟩ := createChild_eq h
  refine ⟨s, hs, ?_⟩
  rw [slot?_insert, created_modifySlot, slot?_modifySlot]
  by_cases hid : parent = id
  · subst hid; simp [hs]
  · simp [hid]

theorem get?_createChild {t t' : Tree F} {parent child : NodeId} {change : BoundChange F}
    {node : Node F} (h : t.createChild parent change = .ok (t', child))
    (hnode : t.get? parent = some node) (id : NodeId) :
    t'.get? id = if id = t.created then some (node.child t.created change) else t.get? id := by
  obtain ⟨s, hs, hslot⟩ := slot?_createChild h id
  obtain rfl : s.node = node := by rw [get?_of_slot? hs] at hnode; exact Option.some.inj hnode
  rw [get?, hslot]
  by_cases hid : id = t.created
  · simp [hid]
  · by_cases hp : parent = id
    · subst hp; simp [hid, get?, hs]
    · simp [hid, hp, get?]

theorem WellFormed.createChild {t t' : Tree F} {parent child : NodeId} {change : BoundChange F}
    (wf : t.WellFormed) (h : t.createChild parent change = .ok (t', child)) : t'.WellFormed := by
  obtain ⟨p, hparent, -, ht'⟩ := createChild_eq h
  have hid : p.node.id = parent := wf.id_eq hparent
  have hlt : parent < t.created := slot?_lt hparent
  have hslot : ∀ {id s}, t'.slot? id = some s →
      (id = t.created ∧ s = ⟨p.node.child t.created change, 0⟩) ∨
      (parent = id ∧ s = { p with liveChildren := p.liveChildren + 1 }) ∨
      (parent ≠ id ∧ t.slot? id = some s) := by
    intro id s hs
    obtain ⟨p', hp', heq⟩ := slot?_createChild h id
    obtain rfl : p' = p := Option.some.inj (hp'.symm.trans hparent)
    rw [heq] at hs
    split at hs
    · exact .inl ⟨‹_›, (Option.some.inj hs).symm⟩
    · split at hs
      · exact .inr (.inl ⟨‹_›, (Option.some.inj hs).symm⟩)
      · exact .inr (.inr ⟨‹_›, hs⟩)
  -- slots that were there before are there still
  have hkeep : ∀ {id s}, t.slot? id = some s → ∃ q, t'.slot? id = some q := by
    intro id s hs
    obtain ⟨p', -, heq⟩ := slot?_createChild h id
    rw [heq]
    split
    · exact ⟨_, rfl⟩
    · split
      · exact ⟨_, rfl⟩
      · exact ⟨s, hs⟩
  have hcount : ∀ id, t'.childCount id = t.childCount id + if parent = id then 1 else 0 := by
    intro id
    rw [ht', childCount_insert, childCount_modifySlot]
    · simp [Node.child, hid]
    · exact fun _ _ => rfl
  constructor
  · intro id s hs
    rcases hslot hs with ⟨rfl, rfl⟩ | ⟨rfl, rfl⟩ | ⟨-, hs⟩
    · rfl
    · exact hid
    · exact wf.id_eq hs
  · intro id s q hs hq
    rcases hslot hs with ⟨rfl, rfl⟩ | ⟨rfl, rfl⟩ | ⟨-, hs⟩
    · obtain rfl : parent = q := by simpa [Node.child, hid] using hq
      exact hlt
    · exact wf.parent_lt hparent hq
    · exact wf.parent_lt hs hq
  · intro id s q hs hq
    rcases hslot hs with ⟨rfl, rfl⟩ | ⟨rfl, rfl⟩ | ⟨-, hs⟩
    · obtain rfl : parent = q := by simpa [Node.child, hid] using hq
      exact hkeep hparent
    · obtain ⟨s', hs'⟩ := wf.parent_live hparent hq
      exact hkeep hs'
    · obtain ⟨s', hs'⟩ := wf.parent_live hs hq
      exact hkeep hs'
  · intro id s hs
    rw [hcount]
    rcases hslot hs with ⟨rfl, rfl⟩ | ⟨rfl, rfl⟩ | ⟨hne, hs⟩
    · have hzero := wf.childCount_created
      simp [hzero, Nat.ne_of_lt hlt]
    · simp [wf.liveChildren_eq hparent]
    · simp [hne, wf.liveChildren_eq hs]

/-- A new node is open, and its parent has a child. -/
theorem Settled.createChild {t t' : Tree F} {parent child : NodeId} {change : BoundChange F}
    (settled : t.Settled) (h : t.createChild parent change = .ok (t', child)) : t'.Settled := by
  intro id s hs hclosed
  obtain ⟨p, hp, heq⟩ := slot?_createChild h id
  rw [heq] at hs
  split at hs
  · cases hs
    cases hclosed
  · split at hs
    · cases hs
      exact Nat.succ_ne_zero _
    · exact settled id s hs hclosed

/-! ## Parents -/

/-- Is `id` the parent of the live node `child`? -/
def IsParent (t : Tree F) (id child : NodeId) : Prop :=
  ∃ node, t.get? child = some node ∧ node.parent = some id

/-- A live node that is closed has a live child. -/
theorem exists_isParent {t : Tree F} {id : NodeId} {node : Node F} (wf : t.WellFormed)
    (settled : t.Settled) (hnode : t.get? id = some node)
    (hclosed : node.status.isClosed = true) : ∃ child, t.IsParent id child := by
  obtain ⟨s, hs, rfl⟩ := get?_eq_some.1 hnode
  have hpos : 0 < t.childCount id := by
    rw [← wf.liveChildren_eq hs]
    exact Nat.pos_of_ne_zero (settled id s hs hclosed)
  obtain ⟨slot, hmem, hchild⟩ := Array.countP_pos_iff.1 hpos
  obtain ⟨child, hget⟩ := Array.getElem?_of_mem hmem
  rcases slot with _ | q
  · simp [isChildOf] at hchild
  · exact ⟨child, q.node, get?_of_slot? (slot?_eq_some.2 hget), by simpa [isChildOf] using hchild⟩

/-- A parent is live and older than its child. -/
theorem IsParent.live {t : Tree F} {id other : NodeId} (wf : t.WellFormed)
    (h : t.IsParent id other) : id < other ∧ ∃ node, t.get? id = some node := by
  obtain ⟨node, hnode, hparent⟩ := h
  obtain ⟨s, hs, rfl⟩ := get?_eq_some.1 hnode
  obtain ⟨q, hq⟩ := wf.parent_live hs hparent
  exact ⟨wf.parent_lt hs hparent, q.node, get?_of_slot? hq⟩

/-- A root is the first node, at depth zero; a child is one level below its parent. -/
structure Graded (t : Tree F) : Prop where
  root : ∀ {id node}, t.get? id = some node → node.parent = none → id = 0 ∧ node.depth = 0
  child : ∀ {id p node parent}, t.get? id = some node → node.parent = some p →
    t.get? p = some parent → node.depth = parent.depth + 1

/-- A tree that has its nodes, with their parents and depths, from one before. -/
theorem Graded.of_get? {t t' : Tree F} (h : t.Graded)
    (hget : ∀ {id node}, t'.get? id = some node → ∃ before, t.get? id = some before ∧
      node.parent = before.parent ∧ node.depth = before.depth) : t'.Graded := by
  constructor
  · intro id node hnode hparent
    obtain ⟨before, hbefore, hp, hdepth⟩ := hget hnode
    exact hdepth ▸ h.root hbefore (hp ▸ hparent)
  · intro id p node parent hnode hparent hlive
    obtain ⟨before, hbefore, hp, hdepth⟩ := hget hnode
    obtain ⟨above, habove, -, hdepth'⟩ := hget hlive
    rw [hdepth, hdepth']
    exact h.child hbefore (hp ▸ hparent) habove

/-- A node and its parent after a child was created: the child, or two nodes from before. -/
theorem parent_of_createChild {t t' : Tree F} {parent child id p : NodeId} {change : BoundChange F}
    {node above : Node F} (wf : t.WellFormed) (hcreate : t.createChild parent change = .ok (t', child))
    (hnode : t'.get? id = some node) (hparent : node.parent = some p)
    (hlive : t'.get? p = some above) :
    node = above.child t.created change ∨ t.get? id = some node ∧ t.get? p = some above := by
  obtain ⟨s, hs, -, -⟩ := createChild_eq hcreate
  have hget := get?_createChild hcreate (get?_of_slot? hs)
  have hold : ∀ {id node}, t.get? id = some node → t'.get? id = some node := by
    intro id node hnode
    obtain ⟨q, hq, -⟩ := get?_eq_some.1 hnode
    rw [hget, if_neg (Nat.ne_of_lt (slot?_lt hq)), hnode]
  rw [hget] at hnode
  split at hnode
  · -- the new node
    cases hnode
    obtain rfl : s.node.id = p := Option.some.inj hparent
    rw [wf.id_eq hs, hold (get?_of_slot? hs)] at hlive
    cases hlive
    exact .inl rfl
  · obtain ⟨-, n, hn⟩ := IsParent.live wf ⟨node, hnode, hparent⟩
    have hsame := hold hn
    rw [hlive] at hsame
    exact .inr ⟨hnode, hn.trans hsame.symm⟩

theorem Graded.createChild {t t' : Tree F} {parent child : NodeId} {change : BoundChange F}
    (h : t.Graded) (wf : t.WellFormed) (hcreate : t.createChild parent change = .ok (t', child)) :
    t'.Graded := by
  obtain ⟨s, hs, -, -⟩ := createChild_eq hcreate
  have hget := get?_createChild hcreate (get?_of_slot? hs)
  constructor
  · intro id node hnode hparent
    rw [hget] at hnode
    split at hnode
    · cases hnode
      cases hparent
    · exact h.root hnode hparent
  · intro id p node above hnode hparent hlive
    rcases parent_of_createChild wf hcreate hnode hparent hlive with rfl | ⟨hold, habove⟩
    · rfl
    · exact h.child hold hparent habove

/-! ## Released nodes -/

/-- `t'` is what is left of `t` after closed nodes were taken away. -/
structure Trimmed (t t' : Tree F) : Prop where
  created_eq : t'.created = t.created
  of_get? : ∀ {id n}, t'.get? id = some n → t.get? id = some n
  keeps : ∀ {id n}, t.get? id = some n → n.status.isClosed = false → t'.get? id = some n

theorem Trimmed.refl (t : Tree F) : Trimmed t t := ⟨rfl, id, fun h _ => h⟩

theorem Trimmed.trans {t t' t'' : Tree F} (h : Trimmed t t') (h' : Trimmed t' t'') :
    Trimmed t t'' :=
  ⟨h'.created_eq.trans h.created_eq, fun hn => h.of_get? (h'.of_get? hn),
    fun hn hopen => h'.keeps (h.keeps hn hopen) hopen⟩

/-- The tree without a node, whose parent counts one child less. -/
def detach (t : Tree F) (id : NodeId) (parent : Option NodeId) : Tree F :=
  let dropped : Tree F := ⟨t.slots.modify id fun _ => none, t.released + 1⟩
  match parent with
  | none => dropped
  | some p => dropped.modifySlot p fun s => { s with liveChildren := s.liveChildren - 1 }

theorem slot?_detach (t : Tree F) (id other : NodeId) (parent : Option NodeId) :
    (t.detach id parent).slot? other =
      if id = other then none
      else if parent = some other then
        (t.slot? other).map fun s => { s with liveChildren := s.liveChildren - 1 }
      else t.slot? other := by
  have hdrop : (⟨t.slots.modify id fun _ => none, t.released + 1⟩ : Tree F).slot? other =
      if id = other then none else t.slot? other := by
    simp only [slot?, Array.getElem?_modify]
    split
    · rcases t.slots[other]? with _ | s <;> rfl
    · rfl
  rcases parent with _ | p
  · simp only [detach, hdrop, reduceCtorEq, if_false]
  · simp only [detach, slot?_modifySlot, hdrop, Option.some.injEq]
    by_cases hid : id = other
    · simp [hid]
    · simp [hid]

theorem childCount_detach {t : Tree F} {id : NodeId} {s : Slot F} (h : t.slot? id = some s)
    (other : NodeId) :
    (t.detach id s.node.parent).childCount other + (if s.node.parent = some other then 1 else 0) =
      t.childCount other := by
  have hdrop := countP_modify (isChildOf other) (fun _ => none) (slot?_eq_some.1 h)
  have hcount : (t.detach id s.node.parent).childCount other =
      (t.slots.modify id fun _ => none).countP (isChildOf other) := by
    unfold detach
    split
    · rfl
    · exact childCount_modifySlot _ _ _ fun _ _ => rfl
  rw [hcount, childCount]
  simpa [isChildOf] using hdrop

theorem created_detach (t : Tree F) (id : NodeId) (parent : Option NodeId) :
    (t.detach id parent).created = t.created := by
  unfold detach
  split <;> simp [created, modifySlot]

/-- A node without live children can be taken away. -/
theorem WellFormed.detach {t : Tree F} (wf : t.WellFormed) {id : NodeId} {s : Slot F}
    (h : t.slot? id = some s) (hzero : s.liveChildren = 0) :
    (t.detach id s.node.parent).WellFormed := by
  have hslot : ∀ {j q}, (t.detach id s.node.parent).slot? j = some q → id ≠ j ∧
      ∃ q₀, t.slot? j = some q₀ ∧ q.node = q₀.node ∧
        q.liveChildren =
          if s.node.parent = some j then q₀.liveChildren - 1 else q₀.liveChildren := by
    intro j q hq
    rw [slot?_detach] at hq
    split at hq
    · cases hq
    · rename_i hne
      split at hq
      · rename_i hp
        obtain ⟨q₀, h₀, rfl⟩ := Option.map_eq_some_iff.1 hq
        exact ⟨hne, q₀, h₀, rfl, by simp [hp]⟩
      · rename_i hp
        exact ⟨hne, q, hq, rfl, by simp [hp]⟩
  -- the node has no live children, so no parent is lost
  have hchildless : ∀ {j q}, t.slot? j = some q → q.node.parent ≠ some id := by
    intro j q hq hp
    have := childCount_pos hq hp
    rw [← wf.liveChildren_eq h, hzero] at this
    exact Nat.lt_irrefl _ this
  constructor
  · intro j q hq
    obtain ⟨-, q₀, h₀, hnode, -⟩ := hslot hq
    rw [hnode, wf.id_eq h₀]
  · intro j q p hq hp
    obtain ⟨-, q₀, h₀, hnode, -⟩ := hslot hq
    exact wf.parent_lt h₀ (hnode ▸ hp)
  · intro j q p hq hp
    obtain ⟨-, q₀, h₀, hnode, -⟩ := hslot hq
    rw [hnode] at hp
    obtain ⟨r, hr⟩ := wf.parent_live h₀ hp
    have hne : id ≠ p := fun heq => hchildless h₀ (heq ▸ hp)
    rw [slot?_detach, if_neg hne, hr]
    split <;> exact ⟨_, rfl⟩
  · intro j q hq
    obtain ⟨-, q₀, h₀, -, hcount⟩ := hslot hq
    have hchildren := childCount_detach h j
    rw [hcount, wf.liveChildren_eq h₀]
    split at hchildren
    · simp_all
      omega
    · simp_all

/-- Releasing, one node at a time. -/
theorem release_eq (t : Tree F) (id : NodeId) :
    (t.release id).1 =
      match t.slot? id with
      | none => t
      | some s =>
        if s.liveChildren = 0 ∧ s.node.status.isClosed = true then
          match s.node.parent with
          | none => t.detach id none
          | some p =>
            if p < id then ((t.detach id (some p)).release p).1 else t.detach id (some p)
        else t := by
  rw [release]
  rcases t.slot? id with _ | s
  · rfl
  · simp only [Bool.and_eq_true, decide_eq_true_eq]
    split
    · rcases s.node.parent with _ | p
      · rfl
      · simp only [detach]
        split <;> rfl
    · rfl

/-- Releasing takes away closed nodes only, and leaves no closed node without live children. -/
theorem release_spec (t : Tree F) (id : NodeId) (wf : t.WellFormed)
    (settled : ∀ other, other ≠ id → t.SettledAt other) :
    (t.release id).1.WellFormed ∧ (t.release id).1.Settled ∧ Trimmed t (t.release id).1 := by
  induction id using Nat.strongRecOn generalizing t with
  | _ id ih =>
    rw [release_eq]
    rcases hs : t.slot? id with _ | s
    · refine ⟨wf, fun other => ?_, .refl t⟩
      by_cases hid : other = id
      · intro s' (hs' : t.slot? other = some s')
        rw [hid, hs] at hs'
        cases hs'
      · exact settled other hid
    · simp only
      by_cases hdone : s.liveChildren = 0 ∧ s.node.status.isClosed = true
      · rw [if_pos hdone]
        have wf' := wf.detach hs hdone.1
        have trimmed : Trimmed t (t.detach id s.node.parent) := by
          refine ⟨created_detach _ _ _, fun {j n} hn => ?_, fun {j n} hn hopen => ?_⟩
          · obtain ⟨q, hq, rfl⟩ := get?_eq_some.1 hn
            rw [slot?_detach] at hq
            split at hq
            · cases hq
            · split at hq
              · obtain ⟨q₀, h₀, rfl⟩ := Option.map_eq_some_iff.1 hq
                exact get?_eq_some.2 ⟨q₀, h₀, rfl⟩
              · exact get?_of_slot? hq
          · obtain ⟨q, hq, rfl⟩ := get?_eq_some.1 hn
            have hne : id ≠ j := by
              rintro rfl
              rw [hs] at hq
              cases hq
              rw [hdone.2] at hopen
              cases hopen
            rw [get?, slot?_detach, if_neg hne, hq]
            split <;> rfl
        -- only the parent lost a child
        have settled' : ∀ other, s.node.parent ≠ some other →
            (t.detach id s.node.parent).SettledAt other := by
          intro other hne q hq hclosed
          rw [slot?_detach, if_neg hne] at hq
          split at hq
          · cases hq
          · exact settled other (Ne.symm ‹_›) q hq hclosed
        rcases hp : s.node.parent with _ | p
        · rw [hp] at wf' trimmed settled'
          exact ⟨wf', fun other => settled' other (by simp), trimmed⟩
        · rw [hp] at wf' trimmed settled'
          have hlt : p < id := wf.parent_lt hs hp
          simp only [hlt, if_true]
          obtain ⟨wf'', settled'', trimmed''⟩ := ih p hlt _ wf' fun other hne =>
            settled' other fun heq => hne (Option.some.inj heq).symm
          exact ⟨wf'', settled'', trimmed.trans trimmed''⟩
      · rw [if_neg hdone]
        refine ⟨wf, fun other => ?_, .refl t⟩
        by_cases hid : other = id
        · intro s' hs' hclosed hzero
          rw [hid, hs] at hs'
          cases hs'
          exact hdone ⟨hzero, hclosed⟩
        · exact settled other hid

/-! ## Closed nodes -/

/-- A node with its final status. -/
def finish (status : NodeStatus) (node : Node F) : Node F :=
  let node := { node with status }
  if status = .branched then node.dropPoint else node

theorem finish_id (status : NodeStatus) (node : Node F) : (finish status node).id = node.id := by
  unfold finish
  split <;> rfl

theorem finish_parent (status : NodeStatus) (node : Node F) :
    (finish status node).parent = node.parent := by
  unfold finish
  split <;> rfl

theorem finish_changes (status : NodeStatus) (node : Node F) :
    (finish status node).changes = node.changes := by
  unfold finish
  split <;> rfl

theorem finish_status (status : NodeStatus) (node : Node F) :
    (finish status node).status = status := by
  unfold finish
  split <;> rfl

theorem finish_depth (status : NodeStatus) (node : Node F) :
    (finish status node).depth = node.depth := by
  unfold finish
  split <;> rfl

/-- A live node takes every final status. -/
theorem close_ok {t : Tree F} {id : NodeId} {node : Node F} {status : NodeStatus}
    (h : t.get? id = some node) (hstatus : status.isClosed = true) :
    ∃ released, t.close id status =
      .ok (((t.modify id (finish status)).release id).1, released) := by
  simp only [close, hstatus, h, Bool.not_true, Bool.false_eq_true, if_false]
  exact ⟨_, rfl⟩

theorem close_eq {t t' : Tree F} {id : NodeId} {status : NodeStatus} {released : Nat}
    (h : t.close id status = .ok (t', released)) :
    status.isClosed = true ∧ (∃ node, t.get? id = some node) ∧
      t' = ((t.modify id (finish status)).release id).1 := by
  unfold close at h
  split at h
  · cases h
  · rename_i hstatus
    split at h
    · cases h
    · rename_i node hnode
      injection h with h
      exact ⟨by simpa using hstatus, ⟨node, hnode⟩, (congrArg Prod.fst h).symm⟩

/-- What closing a node leaves: a well-formed tree, with the other open nodes as they were. -/
structure Closed (t : Tree F) (id : NodeId) (t' : Tree F) : Prop where
  wellFormed : t'.WellFormed
  settled : t'.Settled
  created_eq : t'.created = t.created
  keeps : ∀ {other n}, other ≠ id → t.get? other = some n → n.status.isClosed = false →
    t'.get? other = some n
  of_get? : ∀ {other n}, t'.get? other = some n → ∃ n₀, t.get? other = some n₀ ∧
    n.parent = n₀.parent ∧ n.changes = n₀.changes

/-- Closing a node gives it its status and takes away closed nodes. -/
theorem trimmed_close {t t' : Tree F} {id : NodeId} {status : NodeStatus} {released : Nat}
    (wf : t.WellFormed) (settled : t.Settled) (h : t.close id status = .ok (t', released)) :
    t'.WellFormed ∧ t'.Settled ∧ Trimmed (t.modify id (finish status)) t' := by
  obtain ⟨-, -, rfl⟩ := close_eq h
  refine release_spec _ id (wf.modify id (fun n _ => finish_id status n)
    fun n _ => finish_parent status n) fun other hne s hs hclosed => ?_
  rw [modify, slot?_modifySlot, if_neg (Ne.symm hne)] at hs
  exact settled other s hs hclosed

/-- What is live after a node was closed was live before; only the closed node got its status. -/
theorem get?_of_close {t t' : Tree F} {id other : NodeId} {node : Node F} {status : NodeStatus}
    {released : Nat} (wf : t.WellFormed) (settled : t.Settled)
    (h : t.close id status = .ok (t', released)) (hnode : t'.get? other = some node) :
    ∃ before, t.get? other = some before ∧
      node = if other = id then finish status before else before := by
  obtain ⟨-, -, trimmed⟩ := trimmed_close wf settled h
  have hold := trimmed.of_get? hnode
  rw [get?_modify] at hold
  by_cases hid : other = id
  · rw [if_pos hid.symm] at hold
    obtain ⟨before, hbefore, rfl⟩ := Option.map_eq_some_iff.1 hold
    exact ⟨before, hbefore, (if_pos hid).symm⟩
  · rw [if_neg (Ne.symm hid)] at hold
    exact ⟨node, hold, (if_neg hid).symm⟩

theorem close_spec {t t' : Tree F} {id : NodeId} {status : NodeStatus} {released : Nat}
    (wf : t.WellFormed) (settled : t.Settled) (h : t.close id status = .ok (t', released)) :
    Closed t id t' := by
  obtain ⟨wf', settled', trimmed⟩ := trimmed_close wf settled h
  refine ⟨wf', settled', trimmed.created_eq.trans (created_modifySlot _ _ _), ?_, ?_⟩
  · intro other n hne hn hopen
    refine trimmed.keeps ?_ hopen
    rw [get?_modify, if_neg (Ne.symm hne), hn]
  · intro other n hn
    obtain ⟨n₀, h₀, rfl⟩ := get?_of_close wf settled h hn
    refine ⟨n₀, h₀, ?_⟩
    split
    · exact ⟨finish_parent status n₀, finish_changes status n₀⟩
    · exact ⟨rfl, rfl⟩

/-! ## Restrictions -/

theorem restrictions_root {t : Tree F} {id : NodeId} {node : Node F} (h : t.get? id = some node)
    (hp : node.parent = none) :
    t.restrictions id = .ok (Restrictions.empty.after node.changes) := by
  rw [restrictions, path, h]
  simp only [hp, Restrictions.after]
  show Except.ok _ = Except.ok _
  simp

theorem restrictions_child {t : Tree F} {id parent : NodeId} {node : Node F}
    (h : t.get? id = some node) (hp : node.parent = some parent) (hlt : parent < id) :
    t.restrictions id = (t.restrictions parent).map (·.after node.changes) := by
  rw [restrictions, path, h]
  simp only [hp, hlt, if_true]
  rw [restrictions]
  rcases t.path parent with e | nodes
  · rfl
  · show Except.ok _ = Except.ok _
    simp [Restrictions.after, List.flatMap_append, List.foldl_append]

/-- Every live node has restrictions. -/
theorem restrictions_ok {t : Tree F} (wf : t.WellFormed) {id : NodeId} {s : Slot F}
    (h : t.slot? id = some s) : ∃ r, t.restrictions id = .ok r := by
  induction id using Nat.strongRecOn generalizing s with
  | _ id ih =>
    rcases hp : s.node.parent with _ | p
    · exact ⟨_, restrictions_root (get?_of_slot? h) hp⟩
    · obtain ⟨q, hq⟩ := wf.parent_live h hp
      have hlt := wf.parent_lt h hp
      obtain ⟨r, hr⟩ := ih p hlt hq
      exact ⟨_, by rw [restrictions_child (get?_of_slot? h) hp hlt, hr]; rfl⟩

/-- The restrictions of a node depend only on parents and changes on its path. -/
theorem restrictions_congr {t t' : Tree F} (wf : t.WellFormed) (wf' : t'.WellFormed)
    (agree : ∀ {id n n'}, t.get? id = some n → t'.get? id = some n' →
      n'.parent = n.parent ∧ n'.changes = n.changes)
    {id : NodeId} {n n' : Node F} (h : t.get? id = some n) (h' : t'.get? id = some n') :
    t'.restrictions id = t.restrictions id := by
  induction id using Nat.strongRecOn generalizing n n' with
  | _ id ih =>
    obtain ⟨hparent, hchanges⟩ := agree h h'
    obtain ⟨s, hs, rfl⟩ := get?_eq_some.1 h
    obtain ⟨s', hs', rfl⟩ := get?_eq_some.1 h'
    rcases hp : s.node.parent with _ | p
    · rw [restrictions_root h hp, restrictions_root h' (hparent.trans hp), hchanges]
    · have hlt := wf.parent_lt hs hp
      obtain ⟨q, hq⟩ := wf.parent_live hs hp
      obtain ⟨q', hq'⟩ := wf'.parent_live hs' (hparent.trans hp)
      rw [restrictions_child h hp hlt, restrictions_child h' (hparent.trans hp) hlt, hchanges,
        ih p hlt (get?_of_slot? hq) (get?_of_slot? hq')]

/-- Closing a node leaves the restrictions of the open ones as they are. -/
theorem Closed.restrictions_eq {t t' : Tree F} {id other : NodeId} {n : Node F}
    (h : Closed t id t') (wf : t.WellFormed) (hn : t'.get? other = some n) :
    t'.restrictions other = t.restrictions other := by
  obtain ⟨n₀, h₀, -, -⟩ := h.of_get? hn
  refine restrictions_congr wf h.wellFormed (fun {j m m'} hm hm' => ?_) h₀ hn
  obtain ⟨m₀, hm₀, hparent, hchanges⟩ := h.of_get? hm'
  obtain rfl : m₀ = m := Option.some.inj (hm₀.symm.trans hm)
  exact ⟨hparent, hchanges⟩

/-- A new child leaves the restrictions of the other nodes as they are. -/
theorem restrictions_createChild_of_live {t t' : Tree F} {parent child other : NodeId}
    {change : BoundChange F} {n : Node F} (wf : t.WellFormed)
    (h : t.createChild parent change = .ok (t', child)) (hn : t.get? other = some n) :
    t'.restrictions other = t.restrictions other := by
  obtain ⟨s, hs, -⟩ := createChild_eq h
  have hget := get?_createChild h (get?_of_slot? hs)
  have hold : ∀ {j m}, t.get? j = some m → t'.get? j = some m := by
    intro j m hm
    obtain ⟨q, hq, -⟩ := get?_eq_some.1 hm
    rw [hget, if_neg (Nat.ne_of_lt (slot?_lt hq)), hm]
  refine restrictions_congr wf (wf.createChild h) (fun {j m m'} hm hm' => ?_) hn (hold hn)
  obtain rfl : m = m' := Option.some.inj ((hold hm).symm.trans hm')
  exact ⟨rfl, rfl⟩

/-- A new child is restricted like its parent, and by its own change. -/
theorem restrictions_createChild {t t' : Tree F} {parent child : NodeId} {change : BoundChange F}
    (wf : t.WellFormed) (h : t.createChild parent change = .ok (t', child)) :
    t'.restrictions child = (t.restrictions parent).map (·.set change.var change.new) := by
  obtain ⟨s, hs, hchild, -⟩ := createChild_eq h
  have hget := get?_createChild h (get?_of_slot? hs) child
  rw [if_pos hchild] at hget
  have hparent : (s.node.child t.created change).parent = some parent := by
    simp [Node.child, wf.id_eq hs]
  rw [restrictions_child hget hparent (hchild ▸ slot?_lt hs),
    restrictions_createChild_of_live wf h (get?_of_slot? hs)]
  rfl

/-- Replacing a node by one with the same parent and changes leaves all restrictions alone. -/
theorem restrictions_modify {t : Tree F} (wf : t.WellFormed) {id other : NodeId}
    {f : Node F → Node F} {n₀ n : Node F} (h₀ : t.get? id = some n₀) (hid : (f n₀).id = n₀.id)
    (hparent : (f n₀).parent = n₀.parent) (hchanges : (f n₀).changes = n₀.changes)
    (hn : t.get? other = some n) :
    (t.modify id f).restrictions other = t.restrictions other := by
  have hget : ∀ {j m}, t.get? j = some m →
      ∃ m', (t.modify id f).get? j = some m' ∧ m'.parent = m.parent ∧ m'.changes = m.changes := by
    intro j m hm
    rw [get?_modify]
    split
    · subst_vars
      obtain rfl : m = n₀ := Option.some.inj (hm.symm.trans h₀)
      exact ⟨f m, by rw [hm]; rfl, hparent, hchanges⟩
    · exact ⟨m, hm, rfl, rfl⟩
  have wf' : (t.modify id f).WellFormed := wf.modify id
    (fun m hm => by obtain rfl : m = n₀ := Option.some.inj (hm.symm.trans h₀); exact hid)
    (fun m hm => by obtain rfl : m = n₀ := Option.some.inj (hm.symm.trans h₀); exact hparent)
  obtain ⟨n', hn', -, -⟩ := hget hn
  refine restrictions_congr wf wf' (fun {j m m'} hm hm' => ?_) hn hn'
  obtain ⟨m₀, hm₀, h₁, h₂⟩ := hget hm
  obtain rfl : m₀ = m' := Option.some.inj (hm₀.symm.trans hm')
  exact ⟨h₁, h₂⟩

end Tree

end Milp
