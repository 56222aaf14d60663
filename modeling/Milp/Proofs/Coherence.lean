/-
  Tree, frontier and stage belong together.

  * `Config.Coherent`: the tree is well-formed, and the keys of the frontier, the nodes still to be
    closed and the current node are distinct live nodes, each in the state that its place calls for.
  * `Move.coherent`: every move keeps this.
  * `Move.region`: where the restrictions of an open node come from.
  * `Config.Coherent.internal`: as long as it holds no internal error is met, except that a strategy
    may find nothing to branch on, or choose a variable that is no candidate.
-/
import Milp.Proofs.Frontier
import Milp.Proofs.Refinement
import Mathlib.Tactic.Set

namespace Milp

variable {F σ β κ : Type}

/-- The tree holds a pending node with the data of this key. -/
def Tree.Holds (t : Tree F) (key : NodeKey F) : Prop :=
  ∃ node, t.get? key.id = some node ∧ node.status = .pending ∧ node.answer = none ∧
    node.dualBound = key.bound ∧ node.depth = key.depth

theorem Tree.Holds.of_eq {t t' : Tree F} {key : NodeKey F} (h : t.Holds key)
    (heq : t'.get? key.id = t.get? key.id) : t'.Holds key := by
  obtain ⟨node, hnode, hrest⟩ := h
  exact ⟨node, heq.trans hnode, hrest⟩

namespace Search

/-- The tree holds the current node in the state that the stage calls for. -/
def Stage.Fits (t : Tree F) : Stage F κ → Prop
  | idle => True
  | opened id => ∃ node, t.get? id = some node ∧ node.status = .pending ∧ node.answer = none
  | relaxed id r _ => t.restrictions id = .ok r ∧
      ∃ node, t.get? id = some node ∧ node.status = .pending ∧ node.answer = none
  | consulting id r answer _ | weighing id r answer .. => t.restrictions id = .ok r ∧
      ∃ node, t.get? id = some node ∧ node.status = .solved ∧ node.answer = some answer
  | splitting id .. => ∃ node, t.get? id = some node ∧ node.status = .solved
  | closing id status => status.isClosed = true ∧
      ∃ node, t.get? id = some node ∧ node.status.isClosed = false

theorem Stage.Fits.of_eq {t t' : Tree F} {stage : Stage F κ} (h : stage.Fits t)
    (heq : ∀ id, stage.current? = some id →
      t'.get? id = t.get? id ∧ t'.restrictions id = t.restrictions id) : stage.Fits t' := by
  cases stage with
  | idle => trivial
  | opened id => simpa only [Stage.Fits, heq id rfl] using h
  | relaxed id => simpa only [Stage.Fits, heq id rfl] using h
  | consulting id => simpa only [Stage.Fits, heq id rfl] using h
  | weighing id => simpa only [Stage.Fits, heq id rfl] using h
  | splitting id => simpa only [Stage.Fits, heq id rfl] using h
  | closing id => simpa only [Stage.Fits, heq id rfl] using h

/-- The current node is live and open. -/
theorem Stage.Fits.live {t : Tree F} {stage : Stage F κ} (h : stage.Fits t) {id : NodeId}
    (hid : stage.current? = some id) :
    ∃ node, t.get? id = some node ∧ node.status.isClosed = false := by
  have hpending : NodeStatus.pending.isClosed = false := rfl
  have hsolved : NodeStatus.solved.isClosed = false := rfl
  cases stage <;> cases hid
  · obtain ⟨node, hnode, hstatus, -⟩ := h
    exact ⟨node, hnode, by rw [hstatus, hpending]⟩
  · obtain ⟨-, node, hnode, hstatus, -⟩ := h
    exact ⟨node, hnode, by rw [hstatus, hpending]⟩
  · obtain ⟨-, node, hnode, hstatus, -⟩ := h
    exact ⟨node, hnode, by rw [hstatus, hsolved]⟩
  · obtain ⟨-, node, hnode, hstatus, -⟩ := h
    exact ⟨node, hnode, by rw [hstatus, hsolved]⟩
  · obtain ⟨node, hnode, hstatus⟩ := h
    exact ⟨node, hnode, by rw [hstatus, hsolved]⟩
  · exact h.2

namespace Config

/-- The nodes that wait: to be explored, or to be closed for a new incumbent. -/
def waiting (c : Config F σ β κ) : List (NodeKey F) := c.state.frontier.keys ++ c.doomed

/-- The nodes about which nothing is decided, and those that are still to be closed. -/
def openIds (c : Config F σ β κ) : List NodeId :=
  c.waiting.map NodeKey.id ++ c.stage.current?.toList

/-- Tree, frontier and stage belong together. -/
structure Coherent (c : Config F σ β κ) : Prop where
  wellFormed : c.state.tree.WellFormed
  settled : c.state.tree.Settled
  nodup : c.openIds.Nodup
  holds : ∀ key ∈ c.waiting, c.state.tree.Holds key
  fits : c.stage.Fits c.state.tree

namespace Coherent

variable {c : Config F σ β κ}

/-- Open nodes are live and not closed. -/
theorem live (hc : c.Coherent) {id : NodeId} (hid : id ∈ c.openIds) :
    ∃ node, c.state.tree.get? id = some node ∧ node.status.isClosed = false := by
  rcases List.mem_append.1 hid with hid | hid
  · obtain ⟨key, hkey, rfl⟩ := List.mem_map.1 hid
    obtain ⟨node, hnode, hstatus, -⟩ := hc.holds key hkey
    exact ⟨node, hnode, by rw [hstatus]; rfl⟩
  · exact hc.fits.live (Option.mem_toList.1 hid)

/-- Open nodes have restrictions. -/
theorem restrictions (hc : c.Coherent) {id : NodeId} (hid : id ∈ c.openIds) :
    ∃ r, c.state.tree.restrictions id = .ok r := by
  obtain ⟨node, hnode, -⟩ := hc.live hid
  obtain ⟨s, hs, -⟩ := Tree.get?_eq_some.1 hnode
  exact Tree.restrictions_ok hc.wellFormed hs

/-- Another configuration with the same tree, and the same open nodes in another order. -/
theorem rearrange {c' : Config F σ β κ} (hc : c.Coherent) (htree : c'.state.tree = c.state.tree)
    (hopen : c'.openIds.Perm c.openIds) (hwaiting : ∀ key ∈ c'.waiting, key ∈ c.waiting)
    (hfits : c'.stage.Fits c.state.tree) : c'.Coherent where
  wellFormed := htree ▸ hc.wellFormed
  settled := htree ▸ hc.settled
  nodup := hopen.nodup_iff.2 hc.nodup
  holds key hkey := htree ▸ hc.holds key (hwaiting key hkey)
  fits := htree ▸ hfits

/-- Closing a node keeps the nodes that are still open, and their restrictions. -/
theorem keep_of_closed {c' : Config F σ β κ} {id : NodeId} (hc : c.Coherent)
    (hclosed : Tree.Closed c.state.tree id c'.state.tree)
    (hopen : c.openIds.Perm (id :: c'.openIds)) {other : NodeId} (hother : other ∈ c'.openIds) :
    c'.state.tree.get? other = c.state.tree.get? other ∧
      c'.state.tree.restrictions other = c.state.tree.restrictions other := by
  obtain ⟨hid, -⟩ := List.nodup_cons.1 (hopen.nodup_iff.1 hc.nodup)
  have hne : other ≠ id := fun heq => hid (heq ▸ hother)
  obtain ⟨node, hnode, hstatus⟩ := hc.live (hopen.mem_iff.2 (List.mem_cons_of_mem id hother))
  have hnode' := hclosed.keeps hne hnode hstatus
  exact ⟨hnode'.trans hnode.symm, hclosed.restrictions_eq hc.wellFormed hnode'⟩

/-- Closing a node that is open leaves tree, frontier and stage together. -/
theorem of_closed {c' : Config F σ β κ} {id : NodeId} (hc : c.Coherent)
    (hclosed : Tree.Closed c.state.tree id c'.state.tree)
    (hopen : c.openIds.Perm (id :: c'.openIds)) (hwaiting : ∀ key ∈ c'.waiting, key ∈ c.waiting)
    (hfits : c'.stage.Fits c.state.tree) : c'.Coherent := by
  obtain ⟨-, hnodup⟩ := List.nodup_cons.1 (hopen.nodup_iff.1 hc.nodup)
  refine ⟨hclosed.wellFormed, hclosed.settled, hnodup, fun key hkey => ?_, ?_⟩
  · refine (hc.holds key (hwaiting key hkey)).of_eq (hc.keep_of_closed hclosed hopen ?_).1
    exact List.mem_append_left _ (List.mem_map_of_mem hkey)
  · refine hfits.of_eq fun other hother => hc.keep_of_closed hclosed hopen ?_
    exact List.mem_append_right _ (Option.mem_toList.2 hother)

end Coherent

end Config

variable [Extended F] {E : Engine F σ β κ} {c c' : Config F σ β κ} {s : State F σ β κ}

section Initial

variable (E : Engine F σ β κ) (relaxation : σ) (strategy : β) (callbacks : κ)

/-- At the start the root is in the frontier, -/
theorem keys_initial : (State.initial E relaxation strategy callbacks).frontier.keys =
    [⟨0, (Node.root 0 : Node F).dualBound, 0, 0⟩] :=
  List.perm_singleton.1 (Frontier.pushNode_keys ⟨E.settings.selection, #[], 0, 0⟩ (Node.root 0))

/-- and in the tree. -/
theorem get?_initial : (State.initial E relaxation strategy callbacks).tree.get? 0 =
    some (Node.root 0) := by
  show (Tree.empty.createRoot (F := F)).1.get? 0 = _
  rw [Tree.get?, Tree.createRoot, Tree.slot?_insert]
  rfl

theorem restrictions_initial : (State.initial E relaxation strategy callbacks).tree.restrictions 0 =
    .ok Restrictions.empty := by
  rw [Tree.restrictions_root (get?_initial E relaxation strategy callbacks) rfl]
  rfl

/-- At the start there is no other node. -/
theorem eq_root_of_initial {id : NodeId} {node : Node F}
    (h : (State.initial E relaxation strategy callbacks).tree.get? id = some node) :
    id = 0 ∧ node = Node.root 0 := by
  change (Tree.empty.createRoot (F := F)).1.get? id = some node at h
  rw [Tree.get?, Tree.createRoot, Tree.slot?_insert] at h
  split at h
  · exact ⟨‹_›, (Option.some.inj h).symm⟩
  · simp [Tree.empty, Tree.slot?] at h

/-- At the start tree and frontier belong together. -/
theorem Config.coherent_initial :
    (Config.idle (State.initial E relaxation strategy callbacks)).Coherent := by
  refine ⟨Tree.WellFormed.empty.createRoot, fun id s hs hclosed => ?_, ?_, fun key hkey => ?_, trivial⟩
  · have hroot : s = ⟨Node.root 0, 0⟩ := by
      change (Tree.empty.createRoot (F := F)).1.slot? id = some s at hs
      rw [Tree.createRoot, Tree.slot?_insert] at hs
      split at hs
      · exact (Option.some.inj hs).symm
      · simp [Tree.empty, Tree.slot?] at hs
    rw [hroot] at hclosed
    cases hclosed
  · simp only [Config.openIds, Config.waiting, Config.idle, Stage.current?, Option.toList_none,
      List.append_nil, keys_initial]
    simp
  · simp only [Config.waiting, Config.idle, List.append_nil, keys_initial] at hkey
    obtain rfl := List.mem_singleton.1 hkey
    exact ⟨Node.root 0, get?_initial .., rfl, rfl, rfl, rfl⟩

end Initial

/-- Nothing that happened is forgotten. -/
theorem Move.history_suffix (h : Move E c c') : c.state.history <:+ c'.state.history := by
  cases h with
  | record | refuse | adopt | select | spawn =>
    first | exact List.suffix_rfl | exact List.suffix_cons _ _
  | conclude => exact List.suffix_append _ _
  | _ => exact List.suffix_cons _ _

/-- What is decided on is the current node, and it gets a final status. -/
theorem Concludes.spec {stage : Stage F κ} {id : NodeId} {status : NodeStatus}
    {events : List (Event F)} (h : Concludes E s stage id status events) :
    stage.current? = some id ∧ status.isClosed = true := by
  cases h <;> exact ⟨rfl, rfl⟩

/-- Adopting a point leaves the current node. -/
theorem Adopts.current {stage next : Stage F κ} {candidate : Incumbent F}
    (h : Adopts E s stage candidate next) : next.current? = stage.current? := by
  cases h <;> rfl

/-- The stage after adopting a point fits where the one before did. -/
theorem Adopts.fits {stage next : Stage F κ} {candidate : Incumbent F}
    (h : Adopts E s stage candidate next) {t : Tree F} (hfits : stage.Fits t) : next.Fits t := by
  cases h with
  | proposed => exact hfits
  | accepted => exact ⟨rfl, hfits.live rfl⟩

/-- A node with its answer has the number, parent and changes that it had before. -/
theorem record?_spec {before node : Node F} {answer : Answer F} {normalized : F}
    (h : before.record? answer normalized = some node) :
    node.id = before.id ∧ node.parent = before.parent ∧ node.changes = before.changes ∧
      node.status = .solved ∧ node.answer = some answer ∧
      node.dualBound = (if answer.isOptimal then Scalar.max before.dualBound normalized
        else before.dualBound) := by
  unfold Node.record? at h
  split at h
  · cases h
  · cases h
    exact ⟨rfl, rfl, rfl, rfl, rfl, rfl⟩

omit [Extended F] in
theorem record?_depth [Scalar F] {before node : Node F} {answer : Answer F} {normalized : F}
    (h : before.record? answer normalized = some node) : node.depth = before.depth := by
  unfold Node.record? at h
  split at h
  · cases h
  · cases h
    rfl

/-- Recording an answer leaves the waiting nodes, and all restrictions, as they were. -/
theorem Config.Coherent.keep_of_recorded {id other : NodeId} {r : Restrictions F}
    {answer : Answer F} {before node n : Node F} {normalized : F}
    (hc : Config.Coherent ⟨.relaxed id r answer, [], s⟩)
    (hbefore : s.tree.get? id = some before)
    (hrecord : before.record? answer normalized = some node)
    (hn : s.tree.get? other = some n) :
    (other ∈ s.frontier.keys.map NodeKey.id →
      (s.tree.modify id fun _ => node).get? other = s.tree.get? other) ∧
    (s.tree.modify id fun _ => node).restrictions other = s.tree.restrictions other := by
  obtain ⟨hid, hparent, hchanges, -, -, -⟩ := record?_spec hrecord
  refine ⟨fun hmem => ?_, Tree.restrictions_modify (f := fun _ => node) hc.wellFormed hbefore hid
    hparent hchanges hn⟩
  have hnodup := hc.nodup
  simp only [Config.openIds, Config.waiting, Stage.current?, List.append_nil,
    Option.toList_some] at hnodup
  have hne := (List.nodup_cons.1 (List.perm_append_singleton id _ |>.nodup_iff.1 hnodup)).1
  rw [Tree.get?_modify, if_neg fun heq => hne (by rwa [heq])]

/-- Recording an answer at the current node. -/
theorem Config.Coherent.record {id : NodeId} {r : Restrictions F} {answer : Answer F}
    {before node : Node F} {strategy : β} {normalized : F}
    (hc : Config.Coherent ⟨.relaxed id r answer, [], s⟩)
    (hbefore : s.tree.get? id = some before)
    (hrecord : before.record? answer normalized = some node) :
    Config.Coherent ⟨.consulting id r answer E.callbacks, [],
      { s with tree := s.tree.modify id fun _ => node, strategy }⟩ := by
  obtain ⟨hid, hparent, hchanges, hstatus, hanswer, -⟩ := record?_spec hrecord
  have hsame : ∀ {n}, s.tree.get? id = some n → n = before :=
    fun hn => Option.some.inj (hn.symm.trans hbefore)
  have hget : (s.tree.modify id fun _ => node).get? id = some node := by
    rw [Tree.get?_modify, if_pos rfl, hbefore]
    rfl
  refine ⟨?_, ?_, hc.nodup, fun key hkey => ?_, ?_, ?_⟩
  · show (s.tree.modify id fun _ => node).WellFormed
    refine hc.wellFormed.modify id (fun n hn => ?_) fun n hn => ?_
    · rw [hid, hsame hn]
    · rw [hparent, hsame hn]
  · intro other slot hslot hclosed
    simp only [Tree.modify, Tree.slot?_modifySlot] at hslot
    split at hslot
    · obtain ⟨slot₀, -, rfl⟩ := Option.map_eq_some_iff.1 hslot
      rw [show node.status = .solved from hstatus] at hclosed
      cases hclosed
    · exact hc.settled other slot hslot hclosed
  · have hholds := hc.holds key hkey
    obtain ⟨n, hn, -⟩ := hc.holds key hkey
    simp only [Config.waiting, List.append_nil] at hkey
    exact hholds.of_eq ((hc.keep_of_recorded hbefore hrecord hn).1 (List.mem_map_of_mem hkey))
  · rw [← hc.fits.1]
    exact (hc.keep_of_recorded hbefore hrecord hbefore).2
  · exact ⟨node, hget, hstatus, hanswer⟩

omit [Extended F] in
/-- Creating a child leaves the nodes that were live before, and their restrictions, as they
    were. -/
theorem Config.Coherent.keep_of_spawned {id child other : NodeId} {change : BoundChange F}
    {tree : Tree F} {n : Node F} (hc : c.Coherent)
    (hcreate : c.state.tree.createChild id change = .ok (tree, child))
    (hn : c.state.tree.get? other = some n) :
    tree.get? other = c.state.tree.get? other ∧
      tree.restrictions other = c.state.tree.restrictions other := by
  obtain ⟨slot, hslot, -⟩ := Tree.createChild_eq hcreate
  obtain ⟨slot', hslot', -⟩ := Tree.get?_eq_some.1 hn
  refine ⟨?_, Tree.restrictions_createChild_of_live hc.wellFormed hcreate hn⟩
  rw [Tree.get?_createChild hcreate (Tree.get?_of_slot? hslot),
    if_neg (Nat.ne_of_lt (Tree.slot?_lt hslot'))]

omit [Extended F] in
/-- The new node has the restrictions of its parent, with the change. -/
theorem Config.Coherent.child_of_spawned {id child : NodeId} {change : BoundChange F}
    {tree : Tree F} {node : Node F} {r : Restrictions F} (hc : c.Coherent)
    (hcreate : c.state.tree.createChild id change = .ok (tree, child))
    (hnode : tree.get? child = some node) (hr : c.state.tree.restrictions id = .ok r) :
    tree.restrictions node.id = .ok (r.set change.var change.new) := by
  obtain ⟨slot, hslot, rfl, -⟩ := Tree.createChild_eq hcreate
  rw [Tree.get?_createChild hcreate (Tree.get?_of_slot? hslot), if_pos rfl] at hnode
  have hid : node.id = c.state.tree.created := by rw [← Option.some.inj hnode]; rfl
  rw [hid, Tree.restrictions_createChild hc.wellFormed hcreate, hr]
  rfl

/-- Creating a child adds it to the open nodes. -/
theorem openIds_spawned (id : NodeId) (d : Decision F) (change : BoundChange F)
    (left : List (BoundChange F)) (s : State F σ β κ) (tree : Tree F) (node : Node F) :
    (Config.openIds ⟨.splitting id d left, [], s.spawned tree node⟩).Perm
      (node.id :: Config.openIds ⟨.splitting id d (change :: left), [], s⟩) := by
  simp only [Config.openIds, Config.waiting, List.append_nil, Stage.current?]
  exact ((Frontier.pushNode_keys s.frontier node).map NodeKey.id).append_right _

/-- Creating a child of the current node. -/
theorem Config.Coherent.spawn {id child : NodeId} {d : Decision F} {change : BoundChange F}
    {left : List (BoundChange F)} {tree : Tree F} {node : Node F}
    (hc : Config.Coherent ⟨.splitting id d (change :: left), [], s⟩)
    (hcreate : s.tree.createChild id change = .ok (tree, child))
    (hnode : tree.get? child = some node) :
    Config.Coherent ⟨.splitting id d left, [], s.spawned tree node⟩ := by
  obtain ⟨slot, hslot, rfl, -⟩ := Tree.createChild_eq hcreate
  have hget := Tree.get?_createChild hcreate (Tree.get?_of_slot? hslot)
  obtain rfl : slot.node.child s.tree.created change = node := by
    rw [hget, if_pos rfl] at hnode
    exact Option.some.inj hnode
  set node := slot.node.child s.tree.created change with hdef
  have hkeys := Frontier.pushNode_keys s.frontier node
  refine ⟨hc.wellFormed.createChild hcreate, hc.settled.createChild hcreate, ?_,
    fun key hkey => ?_, ?_⟩
  · have hfresh : s.tree.created ∉ Config.openIds ⟨.splitting id d (change :: left), [], s⟩ := by
      intro hmem
      obtain ⟨n, hn, -⟩ := hc.live hmem
      obtain ⟨slot', hslot', -⟩ := Tree.get?_eq_some.1 hn
      exact Nat.lt_irrefl _ (Tree.slot?_lt hslot')
    exact (openIds_spawned ..).nodup_iff.2 (List.nodup_cons.2 ⟨hfresh, hc.nodup⟩)
  · simp only [Config.waiting, List.append_nil] at hkey
    rcases List.mem_cons.1 (hkeys.mem_iff.1 hkey) with rfl | hkey
    · exact ⟨node, hnode, rfl, rfl, rfl, rfl⟩
    · have hholds : s.tree.Holds key := hc.holds key (by simpa [Config.waiting] using hkey)
      have hlive := hholds
      obtain ⟨n, hn, -⟩ := hlive
      exact hholds.of_eq (hc.keep_of_spawned hcreate hn).1
  · have hfits : (Stage.splitting id d left : Stage F κ).Fits s.tree := hc.fits
    refine hfits.of_eq fun other hother => ?_
    obtain ⟨n, hn, -⟩ := hc.fits.live hother
    exact hc.keep_of_spawned hcreate hn

omit [Extended F] in
/-- Closing a doomed node takes it from the open ones. -/
theorem openIds_swept [Scalar F] (E : Engine F σ β κ) (stage : Stage F κ) (key : NodeKey F)
    (doomed : List (NodeKey F)) (s : State F σ β κ) (node : Node F) (tree : Tree F) :
    (Config.openIds ⟨stage, key :: doomed, s⟩).Perm
      (key.id :: Config.openIds ⟨stage, doomed, s.closed E node (.pruned .bound) tree⟩) := by
  have hwaiting : (Config.waiting ⟨stage, key :: doomed, s⟩).Perm
      (key :: Config.waiting ⟨stage, doomed, s⟩) := List.perm_middle
  exact (hwaiting.map NodeKey.id).append_right _

omit [Extended F] in
/-- Closing the current node takes it from the open ones. -/
theorem openIds_closed [Scalar F] (E : Engine F σ β κ) (id : NodeId) (status : NodeStatus)
    (s : State F σ β κ) (node : Node F) (tree : Tree F) :
    (Config.openIds ⟨.closing id status, [], s⟩).Perm
      (id :: Config.openIds ⟨.idle, [], s.closed E node status tree⟩) := by
  simp only [Config.openIds, Stage.current?, Option.toList_some, Option.toList_none,
    List.append_nil, Config.waiting, State.closed]
  exact List.perm_append_singleton _ _

/-- Taking a node leaves it open. -/
theorem openIds_taken {key : NodeKey F} {rest : Frontier F}
    (hpop : s.frontier.pop? = some (key, rest)) (node : Node F) :
    (Config.openIds ⟨.opened key.id, [], s.taken key rest node⟩).Perm
      (Config.openIds ⟨.idle, [], s⟩) := by
  simp only [Config.openIds, Config.waiting, State.taken, Stage.current?, List.append_nil,
    Option.toList_some, Option.toList_none]
  exact (List.perm_append_singleton _ _).trans ((Frontier.pop?_keys hpop).map NodeKey.id).symm

/-- A node that was decided on is still open. -/
theorem openIds_concluded {stage : Stage F κ} {id : NodeId} {status : NodeStatus}
    {events : List (Event F)} (h : Concludes E s stage id status events) :
    Config.openIds ⟨.closing id status, [], s.concluded status events⟩ =
      Config.openIds ⟨stage, [], s⟩ := by
  simp only [Config.openIds, h.spec.1]
  rfl

/-- The nodes that a new incumbent rules out are still open. -/
theorem openIds_adopted {stage next : Stage F κ} {candidate : Incumbent F} {objective tolerance : F}
    {pruned : List (NodeKey F)} {frontier : Frontier F} (h : Adopts E s stage candidate next)
    (hprune : s.frontier.pruneByBound objective tolerance = (pruned, frontier))
    (tracker : Tracker F) (count : Nat) :
    (Config.openIds ⟨next, pruned, s.adopted tracker frontier count⟩).Perm
      (Config.openIds ⟨stage, [], s⟩) := by
  have hkeys := (Frontier.pruneByBound_keys hprune).trans List.perm_append_comm
  simp only [Config.openIds, Config.waiting, State.adopted, List.append_nil, h.current]
  exact (hkeys.map NodeKey.id).symm.append_right _

/-- Every move keeps tree, frontier and stage together. -/
theorem Move.coherent (h : Move E c c') (hc : c.Coherent) : c'.Coherent := by
  cases h with
  | remark => exact hc.rearrange rfl (.refl _) (fun _ h => h) hc.fits
  | @take s key rest node hpop hnode =>
    have hkeys := Frontier.pop?_keys hpop
    have hholds : s.tree.Holds key := hc.holds key (by
      simpa [Config.waiting] using hkeys.mem_iff.2 List.mem_cons_self)
    obtain ⟨n, hn, hstatus, hanswer, -⟩ := hholds
    refine hc.rearrange rfl (openIds_taken hpop node) (fun key' hkey' => ?_)
      ⟨n, hn, hstatus, hanswer⟩
    simp only [Config.waiting, State.taken, List.append_nil] at hkey' ⊢
    exact hkeys.mem_iff.2 (List.mem_cons_of_mem key hkey')
  | conclude h =>
    obtain ⟨hcurrent, hstatus⟩ := h.spec
    exact hc.rearrange rfl (.of_eq (openIds_concluded h)) (fun _ h => h)
      ⟨hstatus, hc.fits.live hcurrent⟩
  | relax hnode hbound hr hdomain hsolve =>
    exact hc.rearrange rfl (.refl _) (fun _ h => h) ⟨hr, hc.fits⟩
  | record hbefore hrecord hlearn => exact hc.record hbefore hrecord
  | @offer s id r answer callback left node shown proposal callbacks hnode hanswer hsolved =>
    rcases proposal with _ | p
    · exact hc.rearrange rfl (.refl _) (fun _ h => h) hc.fits
    · exact hc.rearrange rfl (.refl _) (fun _ h => h) hc.fits
  | refuse hcheck => exact hc.rearrange rfl (.refl _) (fun _ h => h) hc.fits
  | @adopt s stage candidate next tracker pruned frontier h hupdate hprune =>
    have hkeys := (Frontier.pruneByBound_keys hprune).trans List.perm_append_comm
    refine hc.rearrange rfl (openIds_adopted h hprune ..) (fun key hkey => ?_) (h.fits hc.fits)
    simp only [Config.waiting, State.adopted, List.append_nil] at hkey ⊢
    exact hkeys.mem_iff.2 hkey
  | @sweep s stage key doomed node tree released hnode hclose =>
    refine hc.of_closed (Tree.close_spec hc.wellFormed hc.settled hclose) (openIds_swept ..)
      (fun key' hkey' => ?_) hc.fits
    exact (List.perm_middle (a := key)).mem_iff.2 (List.mem_cons_of_mem key hkey')
  | select h hsplit hne hr hbox hselect hvar =>
    obtain ⟨-, node, hnode, hstatus, -⟩ := hc.fits
    exact hc.rearrange rfl (.refl _) (fun _ h => h) ⟨node, hnode, hstatus⟩
  | spawn hcreate hnode => exact hc.spawn hcreate hnode
  | @close s id status node tree released hnode hclose hgo =>
    exact hc.of_closed (Tree.close_spec hc.wellFormed hc.settled hclose) (openIds_closed ..)
      (fun _ h => h) trivial

theorem Moves.coherent (h : Moves E c c') (hc : c.Coherent) : c'.Coherent := by
  induction h with
  | refl => exact hc
  | tail _ hmove ih => exact hmove.coherent ih

/-! ## Regions -/

/-- An open node has the restrictions that it had before, or it was created just now and has those
    of its parent and one more. -/
theorem Move.region (h : Move E c c') (hc : c.Coherent) {id : NodeId} (hid : id ∈ c'.openIds) :
    (id ∈ c.openIds ∧ c'.state.tree.restrictions id = c.state.tree.restrictions id) ∨
      c'.state.statistics.created = c.state.statistics.created + 1 ∧
        ∃ parent d change left r, c.stage = .splitting parent d (change :: left) ∧
          c.state.tree.restrictions parent = .ok r ∧
          c'.state.tree.restrictions id = .ok (r.set change.var change.new) := by
  cases h with
  | remark | relax | refuse | select => exact .inl ⟨hid, rfl⟩
  | take hpop hnode => exact .inl ⟨(openIds_taken hpop _).mem_iff.1 hid, rfl⟩
  | conclude h => exact .inl ⟨openIds_concluded h ▸ hid, rfl⟩
  | @offer s id r answer callback left node shown proposal =>
    refine .inl ⟨?_, rfl⟩
    rcases proposal with _ | p <;> exact hid
  | record hbefore hrecord =>
    obtain ⟨n, hn, -⟩ := hc.live hid
    exact .inl ⟨hid, (hc.keep_of_recorded hbefore hrecord hn).2⟩
  | adopt h hupdate hprune => exact .inl ⟨(openIds_adopted h hprune ..).mem_iff.1 hid, rfl⟩
  | @sweep s stage key doomed node tree released hnode hclose =>
    have hclosed := Tree.close_spec hc.wellFormed hc.settled hclose
    have hopen := openIds_swept E stage key doomed s node tree
    exact .inl ⟨hopen.mem_iff.2 (List.mem_cons_of_mem _ hid),
      (hc.keep_of_closed hclosed hopen hid).2⟩
  | @spawn s parent d change left tree child node hcreate hnode =>
    have hparent : parent ∈ Config.openIds ⟨.splitting parent d (change :: left), [], s⟩ :=
      List.mem_append_right _ (List.mem_singleton_self _)
    obtain ⟨r, hr⟩ := hc.restrictions hparent
    rcases List.mem_cons.1 ((openIds_spawned ..).mem_iff.1 hid) with rfl | hold
    · exact .inr ⟨rfl, parent, d, change, left, r, rfl, hr, hc.child_of_spawned hcreate hnode hr⟩
    · obtain ⟨n, hn, -⟩ := hc.live hold
      exact .inl ⟨hold, (hc.keep_of_spawned hcreate hn).2⟩
  | @close s closed status node tree released hnode hclose hgo =>
    have hclosed := Tree.close_spec hc.wellFormed hc.settled hclose
    have hopen := openIds_closed E closed status s node tree
    exact .inl ⟨hopen.mem_iff.2 (List.mem_cons_of_mem _ hid),
      (hc.keep_of_closed hclosed hopen hid).2⟩

/-- As long as no node is created, the open nodes were open before, with the same restrictions. -/
theorem Move.same_region (h : Move E c c') (hc : c.Coherent)
    (hcreated : c'.state.statistics.created = c.state.statistics.created) {id : NodeId}
    (hid : id ∈ c'.openIds) :
    id ∈ c.openIds ∧ c'.state.tree.restrictions id = c.state.tree.restrictions id := by
  refine (h.region hc hid).resolve_right fun hnew => ?_
  have hone := hnew.1
  omega

/-! ## Internal errors -/

/-- Only open nodes are looked up. -/
theorem Config.looksUp.mem_openIds {id : NodeId} (h : c.looksUp id) : id ∈ c.openIds := by
  obtain ⟨stage, doomed, s⟩ := c
  have hcurrent : ∀ {stage : Stage F κ}, stage.current? = some id →
      id ∈ Config.openIds ⟨stage, [], s⟩ := fun heq =>
    List.mem_append_right _ (Option.mem_toList.2 heq)
  rcases doomed with _ | ⟨key, doomed⟩
  · cases stage with
    | idle =>
      obtain ⟨key, rest, hpop, rfl⟩ := h
      refine List.mem_append_left _ (List.mem_map_of_mem ?_)
      simpa [Config.waiting] using (Frontier.pop?_keys hpop).mem_iff.2 List.mem_cons_self
    | _ => exact hcurrent h
  · obtain rfl : key.id = id := by cases stage <;> exact h
    refine List.mem_append_left _ (List.mem_map_of_mem ?_)
    exact List.mem_append_right _ List.mem_cons_self

/-- As long as tree, frontier and stage belong together, only a strategy can cause an internal
    error. -/
theorem Config.Coherent.internal {defect : Defect} (hc : c.Coherent)
    (h : Fails E c (.internal defect)) :
    (∃ name id n, defect = .nothingToBranchOn name id n) ∨
      ∃ name var, defect = .notACandidate name var := by
  cases h with
  | missing hlook hnone =>
    obtain ⟨node, hnode, -⟩ := hc.live hlook.mem_openIds
    cases hnone.symm.trans hnode
  | vanished hnone =>
    obtain ⟨-, node, hnode, -⟩ := hc.fits
    cases hnone.symm.trans hnode
  | unrestricted hid hr =>
    obtain ⟨r, hr'⟩ := hc.restrictions (List.mem_append_right _ (Option.mem_toList.2 hid))
    cases hr.symm.trans hr'
  | solvedTwice hbefore hnone =>
    obtain ⟨-, node, hnode, hpending, hanswer⟩ := hc.fits
    cases hbefore.symm.trans hnode
    simp [Node.record?, hpending, hanswer] at hnone
  | unanswered hnode hnone =>
    obtain ⟨-, node', hnode', -, hanswer⟩ := hc.fits
    cases hnode.symm.trans hnode'
    cases hnone.symm.trans hanswer
  | notOptimal hnode hnone =>
    obtain ⟨-, node', hnode', -, hanswer⟩ := hc.fits
    cases hnode.symm.trans hnode'
    exact absurd hanswer (hnone _ _)
  | undecided => exact .inl ⟨_, _, _, rfl⟩
  | notACandidate => exact .inr ⟨_, _, rfl⟩

end Search

end Milp
