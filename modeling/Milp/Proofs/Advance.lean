/-
  A search advances.

  With the best bound first, the bounds of the nodes that are taken never decrease; breadth first,
  nodes are taken in the order in which they were created, level by level.  Both are shown in one
  way: each node that waits comes after all nodes that were taken, and so does each child.

  * `State.takenKeys`: the nodes that were taken from the frontier.
  * `Config.Steered`: the frontier stands for an ordered list, and the current node is the one that
    was taken last; `Move.steered`: every move keeps this.
  * `Config.Advances`: the nodes that were taken come one after the other, and before those that
    wait; `Move.advances`: when a move keeps this.
  * `Moves.bestBound`, `Moves.breadthFirst`: the two orders.
  * `solve_advances`: what a search can rely on.
-/
import Milp.Proofs.Accounting
import Milp.Proofs.Exploration
import Milp.Proofs.Lineage
import Milp.Proofs.Protocol

namespace Milp

variable {F σ β κ : Type}

/-- The key that is taken precedes all that stay. -/
theorem Frontier.StandsFor.precedes_rest [Scalar F] {s : Selection F} [Std.TransCmp s.order]
    {f rest : Frontier F} {a : Agenda F} {key : NodeKey F} (h : StandsFor s f a)
    (hpop : f.pop? = some (key, rest)) : ∀ other ∈ rest.keys, s.Precedes key other := by
  have hfirst := f.pop?_fst
  rw [hpop, h.peek?_eq] at hfirst
  obtain ⟨keys, hkeys⟩ := List.head?_eq_some_iff.1 hfirst.symm
  have hprecedes := h.precedes
  have hrest := (h.tail hpop).perm
  rw [hkeys] at hprecedes hrest
  exact fun other hother => List.rel_of_pairwise_cons hprecedes (hrest.mem_iff.1 hother)

/-- The first node was created earlier, and is not deeper. -/
def NodeKey.Older (a b : NodeKey F) : Prop := a.id < b.id ∧ a.depth ≤ b.depth

namespace Search

/-! ## The nodes that were taken -/

/-- The key of the node that was taken from the frontier. -/
def Event.takenKey? : Event F → Option (NodeKey F)
  | .taken key => some key
  | _ => none

/-- The nodes that were taken from the frontier, the latest first. -/
def State.takenKeys (s : State F σ β κ) : List (NodeKey F) := s.history.filterMap Event.takenKey?

theorem Event.takenKey?_of_isRemark {event : Event F} (h : event.isRemark = true) :
    event.takenKey? = none := by
  cases event <;> first | rfl | cases h

variable [Extended F] {E : Engine F σ β κ} {c c' : Config F σ β κ} {s : State F σ β κ} {start : σ}

omit [Extended F] in
theorem State.takenKeys_logged {event : Event F} (h : event.isRemark = true) :
    (s.logged event).takenKeys = s.takenKeys :=
  List.filterMap_cons_none (Event.takenKey?_of_isRemark h)

theorem Concludes.takenKeys_eq {stage : Stage F κ} {id : NodeId} {status : NodeStatus}
    {events : List (Event F)} (h : Concludes E s stage id status events) :
    (s.concluded status events).takenKeys = s.takenKeys := by
  cases h <;> rfl

/-- The frontier is an ordered list of nodes, and the current node is the one that was taken
    last. -/
structure Config.Steered (E : Engine F σ β κ) (start : σ) (c : Config F σ β κ) : Prop where
  lineal : c.Lineal E start
  accounted : c.Accounted
  ordered : E.settings.selection.IsPreorder →
    ∃ agenda, Frontier.StandsFor E.settings.selection c.state.frontier agenda
  current : ∀ id, c.stage.current? = some id → ∃ key earlier,
    c.state.takenKeys = key :: earlier ∧ key.id = id ∧
      ∀ node, c.state.tree.get? id = some node →
        node.parentBound = key.bound ∧ node.depth = key.depth

namespace Config.Steered

/-- A move that takes no node, and leaves the inherited bound and the depth of the current node. -/
theorem of_get? [Scalar.Ranked F] (hc : c.Steered E start) (h : Move E c c')
    (hordered : E.settings.selection.IsPreorder →
      ∃ agenda, Frontier.StandsFor E.settings.selection c'.state.frontier agenda)
    (htaken : c'.state.takenKeys = c.state.takenKeys)
    (hcurrent : ∀ id, c'.stage.current? = some id → c.stage.current? = some id)
    (hget : ∀ {id node}, c.stage.current? = some id → c'.state.tree.get? id = some node →
      ∃ before, c.state.tree.get? id = some before ∧ node.parentBound = before.parentBound ∧
        node.depth = before.depth) : c'.Steered E start where
  lineal := h.lineal hc.lineal
  accounted := h.accounted hc.accounted
  ordered := hordered
  current id hid := by
    obtain ⟨key, earlier, hkeys, hkey, hnode⟩ := hc.current id (hcurrent id hid)
    refine ⟨key, earlier, htaken.trans hkeys, hkey, fun node hn => ?_⟩
    obtain ⟨before, hbefore, hbound, hdepth⟩ := hget (hcurrent id hid) hn
    obtain ⟨hbound', hdepth'⟩ := hnode before hbefore
    exact ⟨hbound.trans hbound', hdepth.trans hdepth'⟩

/-- Such a move that leaves the tree. -/
theorem of_eq [Scalar.Ranked F] (hc : c.Steered E start) (h : Move E c c')
    (hordered : E.settings.selection.IsPreorder →
      ∃ agenda, Frontier.StandsFor E.settings.selection c'.state.frontier agenda)
    (htaken : c'.state.takenKeys = c.state.takenKeys)
    (hcurrent : ∀ id, c'.stage.current? = some id → c.stage.current? = some id)
    (htree : c'.state.tree = c.state.tree) : c'.Steered E start :=
  hc.of_get? h hordered htaken hcurrent fun _ hn => ⟨_, htree ▸ hn, rfl, rfl⟩

/-- A node is closed. -/
theorem of_closed [Scalar.Ranked F] {id : NodeId} {status : NodeStatus} {released : Nat}
    (hc : c.Steered E start) (h : Move E c c')
    (hclose : c.state.tree.close id status = .ok (c'.state.tree, released))
    (hfrontier : c'.state.frontier = c.state.frontier)
    (htaken : c'.state.takenKeys = c.state.takenKeys)
    (hcurrent : ∀ id, c'.stage.current? = some id → c.stage.current? = some id) :
    c'.Steered E start := by
  have hcoherent := hc.lineal.chronicled.tidy.coherent
  refine hc.of_get? h (hfrontier ▸ hc.ordered) htaken hcurrent fun _ hn => ?_
  obtain ⟨before, hbefore, rfl⟩ :=
    Tree.get?_of_close hcoherent.wellFormed hcoherent.settled hclose hn
  refine ⟨before, hbefore, ?_⟩
  split
  · exact ⟨(Tree.finish_bounds ..).1, Tree.finish_depth ..⟩
  · exact ⟨rfl, rfl⟩

/-- The first node of the frontier is taken. -/
theorem take [Scalar.Ranked F] {key : NodeKey F} {rest : Frontier F} {node : Node F}
    (hc : (Config.idle s).Steered E start)
    (hpop : s.frontier.pop? = some (key, rest)) (hnode : s.tree.get? key.id = some node) :
    Config.Steered E start ⟨.opened key.id, [], s.taken key rest node⟩ := by
  have h : Move E (.idle s) ⟨.opened key.id, [], s.taken key rest node⟩ := .take hpop hnode
  have hmem : key ∈ s.frontier.keys := (Frontier.pop?_keys hpop).mem_iff.2 List.mem_cons_self
  obtain ⟨node', hnode', -, hanswer, hbound, hdepth⟩ :=
    hc.lineal.chronicled.tidy.coherent.holds key (List.mem_append_left _ hmem)
  obtain rfl : node = node' := Option.some.inj (hnode.symm.trans hnode')
  refine ⟨h.lineal hc.lineal, h.accounted hc.accounted, fun hpreorder => ?_, fun id hid => ?_⟩
  · have := Selection.transCmp_order hpreorder
    obtain ⟨agenda, hstands⟩ := hc.ordered hpreorder
    exact ⟨_, hstands.tail hpop⟩
  · cases hid
    refine ⟨key, s.takenKeys, rfl, rfl, fun n hn => ?_⟩
    obtain rfl : node = n := Option.some.inj (hnode.symm.trans hn)
    have hderives := (hc.lineal.derives hnode).1
    rw [Node.objective?, hanswer] at hderives
    exact ⟨hderives.symm.trans hbound, hdepth⟩

end Config.Steered

theorem Move.steered [Scalar.Ranked F] (h : Move E c c') (hc : c.Steered E start) :
    c'.Steered E start := by
  have hmove := h
  have hcoherent := hc.lineal.chronicled.tidy.coherent
  cases h with
  | @remark stage doomed s event h =>
    exact hc.of_eq hmove hc.ordered (State.takenKeys_logged h) (fun _ h => h) rfl
  | take hpop hnode => exact hc.take hpop hnode
  | conclude h =>
    exact hc.of_eq hmove hc.ordered h.takenKeys_eq (fun _ hid => h.spec.1.trans hid) rfl
  | relax => exact hc.of_eq hmove hc.ordered rfl (fun _ h => h) rfl
  | @record s id r answer before node strategy hbefore hrecord hlearn =>
    refine hc.of_get? hmove hc.ordered rfl (fun _ h => h) fun hid hn => ?_
    cases hid
    change (s.tree.modify id fun _ => node).get? id = some _ at hn
    rw [Tree.get?_modify, if_pos rfl, hbefore] at hn
    obtain rfl := Option.some.inj hn
    exact ⟨before, hbefore, record?_parentBound hrecord, record?_depth hrecord⟩
  | @offer s id r answer callback left node shown proposal callbacks hnode hanswer hsolved =>
    rcases proposal with _ | p
    · exact hc.of_eq hmove hc.ordered rfl (fun _ h => h) rfl
    · exact hc.of_eq hmove hc.ordered rfl (fun _ h => h) rfl
  | refuse => exact hc.of_eq hmove hc.ordered rfl (fun _ h => h) rfl
  | @adopt s stage candidate next tracker pruned frontier h hupdate hprune =>
    refine hc.of_eq hmove (fun hpreorder => ?_) rfl (fun _ hid => h.current ▸ hid) rfl
    have := Selection.transCmp_order hpreorder
    obtain ⟨agenda, hstands⟩ := hc.ordered hpreorder
    have hkept := hstands.prune tracker.normalized E.settings.tolerance
    rw [hprune] at hkept
    exact ⟨_, hkept⟩
  | sweep hnode hclose => exact hc.of_closed hmove hclose rfl rfl (fun _ h => h)
  | select => exact hc.of_eq hmove hc.ordered rfl (fun _ h => h) rfl
  | @spawn s id d change left tree child node hcreate hnode =>
    refine hc.of_get? hmove (fun hpreorder => ?_) rfl (fun _ h => h) fun hid hn => ?_
    · have := Selection.transCmp_order hpreorder
      obtain ⟨agenda, hstands⟩ := hc.ordered hpreorder
      exact ⟨_, hstands.insert node.id node.dualBound node.depth⟩
    · obtain ⟨before, hbefore, -⟩ := hcoherent.fits.live hid
      refine ⟨before, hbefore, ?_⟩
      obtain ⟨hkeep, -⟩ := hcoherent.keep_of_spawned hcreate hbefore
      cases (hkeep.trans hbefore).symm.trans hn
      exact ⟨rfl, rfl⟩
  | close hnode hclose hgo => exact hc.of_closed hmove hclose rfl rfl (by rintro _ ⟨⟩)

/-- At the start the frontier has the root, and no node was taken. -/
theorem Config.steered_initial [Scalar.Ranked F] (E : Engine F σ β κ) (start : σ) (strategy : β)
    (callbacks : κ) : (Config.idle (State.initial E start strategy callbacks)).Steered E start where
  lineal := Config.lineal_initial E start strategy callbacks
  accounted := Config.accounted_initial E start strategy callbacks
  ordered hpreorder := by
    have := Selection.transCmp_order hpreorder
    exact ⟨_, (Frontier.standsFor_empty E.settings.selection).insert 0 _ 0⟩
  current _ h := nomatch h

/-! ## One node after the other -/

/-- What a move does to the nodes that wait and to those that were taken. -/
inductive Traffic (c c' : Config F σ β κ) : Prop where
  /-- The first node of the frontier is taken. -/
  | takes {key rest} (hpop : c.state.frontier.pop? = some (key, rest))
      (htaken : c'.state.takenKeys = key :: c.state.takenKeys) (hwaiting : c'.waiting = rest.keys)
  /-- A child of the current node is added. -/
  | adds {id child change node} (hid : c.stage.current? = some id)
      (hcreate : c.state.tree.createChild id change = .ok (c'.state.tree, child))
      (hnode : c'.state.tree.get? child = some node)
      (htaken : c'.state.takenKeys = c.state.takenKeys)
      (hwaiting : ∀ key ∈ c'.waiting, key = c.state.frontier.keyOf node ∨ key ∈ c.waiting)
  /-- No node is taken or added. -/
  | keeps (htaken : c'.state.takenKeys = c.state.takenKeys) (hwaiting : c'.waiting ⊆ c.waiting)

theorem Move.traffic (h : Move E c c') : Traffic c c' := by
  cases h with
  | @remark stage doomed s event h =>
    exact .keeps (State.takenKeys_logged h) fun _ h => h
  | take hpop hnode => exact .takes hpop rfl (List.append_nil _)
  | conclude h => exact .keeps h.takenKeys_eq fun _ h => h
  | @adopt s stage candidate next tracker pruned frontier h hupdate hprune =>
    refine .keeps rfl fun key hkey => ?_
    have hkeys := (Frontier.pruneByBound_keys hprune).trans List.perm_append_comm
    exact List.mem_append_left _ (hkeys.mem_iff.2 hkey)
  | @sweep s stage key doomed node tree released hnode hclose =>
    exact .keeps rfl ((List.sublist_cons_self key doomed).append_left _).subset
  | @spawn s id d change left tree child node hcreate hnode =>
    refine .adds rfl hcreate hnode rfl fun key hkey => ?_
    change key ∈ (s.frontier.pushNode node).keys ++ [] at hkey
    rw [List.append_nil, (s.frontier.pushNode_keys node).mem_iff] at hkey
    exact (List.mem_cons.1 hkey).imp_right (List.mem_append_left _)
  | relax | offer | close => exact .keeps rfl fun _ h => h
  | record | refuse | select => exact .keeps rfl fun _ h => h

/-- Each node that was taken comes after those that were taken before, and each node that waits
    after all of them. -/
structure Config.Advances (R : NodeKey F → NodeKey F → Prop) (c : Config F σ β κ) : Prop where
  taken : c.state.takenKeys.Pairwise fun later earlier => R earlier later
  waiting : ∀ key ∈ c.waiting, ∀ earlier ∈ c.state.takenKeys, R earlier key

variable {R : NodeKey F → NodeKey F → Prop}

/-- For this the first node of the frontier has to come before the others, and a child after the
    nodes that were taken. -/
theorem Config.Advances.step (hc : c.Advances R) (h : Traffic c c')
    (hfirst : ∀ {key rest}, c.state.frontier.pop? = some (key, rest) →
      ∀ other ∈ rest.keys, R key other)
    (hchild : ∀ {id child change tree node}, c.stage.current? = some id →
      c.state.tree.createChild id change = .ok (tree, child) → tree.get? child = some node →
      ∀ earlier ∈ c.state.takenKeys, R earlier (c.state.frontier.keyOf node)) :
    c'.Advances R := by
  cases h with
  | takes hpop htaken hwaiting =>
    have hkeys := Frontier.pop?_keys hpop
    have hmem : ∀ {other}, other ∈ _ → other ∈ c.waiting := fun h =>
      List.mem_append_left _ (hkeys.mem_iff.2 h)
    constructor
    · rw [htaken]
      exact List.pairwise_cons.2 ⟨hc.waiting _ (hmem List.mem_cons_self), hc.taken⟩
    · rw [htaken, hwaiting]
      exact fun other hother => List.forall_mem_cons.2
        ⟨hfirst hpop other hother, hc.waiting other (hmem (List.mem_cons_of_mem _ hother))⟩
  | adds hid hcreate hnode htaken hwaiting =>
    refine ⟨htaken ▸ hc.taken, fun key hkey => ?_⟩
    rw [htaken]
    rcases hwaiting key hkey with rfl | hkey
    · exact hchild hid hcreate hnode
    · exact hc.waiting key hkey
  | keeps htaken hwaiting =>
    refine ⟨htaken ▸ hc.taken, fun key hkey => ?_⟩
    rw [htaken]
    exact hc.waiting key (hwaiting hkey)

namespace Config.Steered

/-- A child has the bound of the node that was taken last, or a higher one, and is one level
    below it. -/
theorem child [Scalar.Ordered F] (hc : c.Steered E start) {id child : NodeId}
    {change : BoundChange F} {tree : Tree F} {node : Node F} (hid : c.stage.current? = some id)
    (hcreate : c.state.tree.createChild id change = .ok (tree, child))
    (hnode : tree.get? child = some node) :
    ∃ last earlier, c.state.takenKeys = last :: earlier ∧ last.id < node.id ∧
      node.id = c.state.tree.created ∧ last.bound ≤ node.dualBound ∧
      node.depth = last.depth + 1 := by
  obtain ⟨last, earlier, hkeys, rfl, hlast⟩ := hc.current id hid
  obtain ⟨slot, hslot, rfl, -⟩ := Tree.createChild_eq hcreate
  have hlive := Tree.get?_of_slot? hslot
  rw [Tree.get?_createChild hcreate hlive, if_pos rfl] at hnode
  obtain rfl := Option.some.inj hnode
  obtain ⟨hbound, hdepth⟩ := hlast _ hlive
  refine ⟨last, earlier, hkeys, Tree.slot?_lt hslot, rfl, ?_, congrArg (· + 1) hdepth⟩
  exact hbound ▸ (hc.lineal.number hlive).2

/-- The bounds of waiting nodes are numbers. -/
theorem number [Scalar.Ordered F] (hc : c.Steered E start) {key : NodeKey F}
    (hkey : key ∈ c.waiting) : key.bound ≤ key.bound := by
  obtain ⟨node, hnode, -, -, hbound, -⟩ := hc.lineal.chronicled.tidy.coherent.holds key hkey
  exact hbound ▸ (Scalar.Ordered.refl_of_le (hc.lineal.number hnode).2).2

end Config.Steered

/-! ## The best bound first -/

theorem Config.Steered.bestBound [Scalar.Ordered F] [Scalar.Ranked F] (hc : c.Steered E start)
    (hselection : E.settings.selection = .bestBound) (h : Traffic c c')
    (hadvances : c.Advances fun a b => a.bound ≤ b.bound) :
    c'.Advances fun a b => a.bound ≤ b.bound := by
  refine hadvances.step h (fun {key rest} hpop other hother => ?_)
    fun hid hcreate hnode earlier hearlier => ?_
  · have hkeys := Frontier.pop?_keys hpop
    have hnumber : ∀ {k}, k ∈ key :: rest.keys → k.bound ≤ k.bound := fun hk =>
      hc.number (List.mem_append_left _ (hkeys.mem_iff.2 hk))
    have hpreorder : E.settings.selection.IsPreorder := hselection ▸ trivial
    have := Selection.transCmp_order hpreorder
    obtain ⟨agenda, hstands⟩ := hc.ordered hpreorder
    have hprecedes := hstands.precedes_rest hpop other hother
    rw [hselection] at hprecedes
    refine Scalar.Ranked.le_of_order (hnumber List.mem_cons_self)
      (hnumber (List.mem_cons_of_mem _ hother)) ?_
    rcases hprecedes with hlt | ⟨heq, -⟩
    · rw [hlt]
      rfl
    · rw [heq]
      rfl
  · obtain ⟨last, before, hkeys, -, -, hle, -⟩ := hc.child hid hcreate hnode
    have htaken := hadvances.taken
    rw [hkeys] at htaken hearlier
    rcases List.mem_cons.1 hearlier with rfl | hearlier
    · exact hle
    · exact Scalar.Ordered.le_trans (List.rel_of_pairwise_cons htaken hearlier) hle

/-! ## Breadth first -/

/-- The nodes that wait are on two levels, and the older ones on the upper one. -/
structure Config.Levelled (c : Config F σ β κ) : Prop where
  seq_eq : ∀ key ∈ c.waiting, key.seq = key.id
  ordered : ∀ a ∈ c.waiting, ∀ b ∈ c.waiting, a.id ≤ b.id → a.depth ≤ b.depth
  span : ∀ a ∈ c.waiting, ∀ b ∈ c.waiting, b.depth ≤ a.depth + 1
  last : ∀ last ∈ c.state.takenKeys.head?, ∀ key ∈ c.waiting, key.depth ≤ last.depth + 1

/-- Nodes that wait were created. -/
theorem Config.Steered.id_lt (hc : c.Steered E start) {key : NodeKey F} (hkey : key ∈ c.waiting) :
    key.id < c.state.tree.created := by
  obtain ⟨node, hnode, -⟩ := hc.lineal.chronicled.tidy.coherent.holds key hkey
  obtain ⟨slot, hslot, -⟩ := Tree.get?_eq_some.1 hnode
  exact Tree.slot?_lt hslot

/-- A new node is inserted at the place that its number says. -/
theorem Config.Steered.added_eq (hc : c.Steered E start) :
    c.state.frontier.added = c.state.tree.created :=
  hc.accounted.added_eq.trans hc.accounted.chronicled.count_eq

theorem Config.Steered.breadthFirst [Scalar.Ordered F] [Scalar.Ranked F] (hc : c.Steered E start)
    (hselection : E.settings.selection = .breadthFirst) (h : Traffic c c') (hlevels : c.Levelled)
    (hadvances : c.Advances NodeKey.Older) : c'.Advances NodeKey.Older := by
  refine hadvances.step h (fun {key rest} hpop other hother => ?_)
    fun hid hcreate hnode earlier hearlier => ?_
  · have hkeys := Frontier.pop?_keys hpop
    have hkey : key ∈ c.waiting :=
      List.mem_append_left _ (hkeys.mem_iff.2 List.mem_cons_self)
    have hother' : other ∈ c.waiting :=
      List.mem_append_left _ (hkeys.mem_iff.2 (List.mem_cons_of_mem _ hother))
    have hpreorder : E.settings.selection.IsPreorder := hselection ▸ trivial
    have := Selection.transCmp_order hpreorder
    obtain ⟨agenda, hstands⟩ := hc.ordered hpreorder
    have hprecedes := hstands.precedes_rest hpop other hother
    rw [hselection] at hprecedes
    rcases hprecedes with hlt | ⟨heq, hlt⟩
    · refine ⟨Nat.lt_of_not_le fun hle => ?_, Nat.le_of_lt hlt⟩
      exact Nat.not_le_of_lt hlt (hlevels.ordered other hother' key hkey hle)
    · rw [hlevels.seq_eq key hkey, hlevels.seq_eq other hother'] at hlt
      exact ⟨hlt, Nat.le_of_eq heq⟩
  · obtain ⟨last, before, hkeys, hid, -, -, hdepth⟩ := hc.child hid hcreate hnode
    have htaken := hadvances.taken
    rw [hkeys] at htaken hearlier
    have hlast : NodeKey.Older last (c.state.frontier.keyOf _) :=
      ⟨hid, Nat.le_of_lt (Nat.lt_of_lt_of_eq (Nat.lt_succ_self _) hdepth.symm)⟩
    rcases List.mem_cons.1 hearlier with rfl | hearlier
    · exact hlast
    · obtain ⟨hid', hdepth'⟩ := List.rel_of_pairwise_cons htaken hearlier
      exact ⟨Nat.lt_trans hid' hlast.1, Nat.le_trans hdepth' hlast.2⟩

/-- A child is one level below the node that was taken last, which is not deeper than any that
    waits. -/
theorem Config.Levelled.step [Scalar.Ordered F] (hc : c.Levelled) (hsteered : c.Steered E start)
    (hadvances : c.Advances NodeKey.Older) (h : Traffic c c') : c'.Levelled := by
  cases h with
  | @takes key rest hpop htaken hwaiting =>
    have hkeys := Frontier.pop?_keys hpop
    have hmem : ∀ {other}, other ∈ key :: rest.keys → other ∈ c.waiting := fun h =>
      List.mem_append_left _ (hkeys.mem_iff.2 h)
    have hrest : ∀ {other}, other ∈ c'.waiting → other ∈ c.waiting := fun h =>
      hmem (List.mem_cons_of_mem _ (hwaiting ▸ h))
    refine ⟨fun k hk => hc.seq_eq k (hrest hk),
      fun a ha b hb => hc.ordered a (hrest ha) b (hrest hb),
      fun a ha b hb => hc.span a (hrest ha) b (hrest hb), fun last hlast k hk => ?_⟩
    rw [htaken] at hlast
    obtain rfl : key = last := Option.some.inj hlast
    exact hc.span key (hmem List.mem_cons_self) k (hrest hk)
  | @adds id child change node hid hcreate hnode htaken hwaiting =>
    obtain ⟨last, earlier, hkeys, -, hcreated, -, hdepth⟩ := hsteered.child hid hcreate hnode
    have hlast : last ∈ c.state.takenKeys := hkeys ▸ List.mem_cons_self
    have hupper : ∀ key ∈ c.waiting, last.depth ≤ key.depth ∧ key.depth ≤ node.depth ∧
        key.id < node.id := fun key hkey =>
      ⟨(hadvances.waiting key hkey last hlast).2,
        hdepth ▸ hc.last last (by rw [hkeys]; rfl) key hkey, hcreated ▸ hsteered.id_lt hkey⟩
    constructor
    · intro key hkey
      rcases hwaiting key hkey with rfl | hkey
      · exact hsteered.added_eq.trans hcreated.symm
      · exact hc.seq_eq key hkey
    · intro a ha b hb hle
      rcases hwaiting a ha with rfl | ha <;> rcases hwaiting b hb with rfl | hb
      · exact Nat.le_refl _
      · exact absurd hle (Nat.not_le_of_lt (hupper b hb).2.2)
      · exact (hupper a ha).2.1
      · exact hc.ordered a ha b hb hle
    · intro a ha b hb
      rcases hwaiting a ha with rfl | ha <;> rcases hwaiting b hb with rfl | hb
      · exact Nat.le_succ _
      · exact Nat.le_succ_of_le (hupper b hb).2.1
      · exact Nat.le_trans (Nat.le_of_eq hdepth) (Nat.succ_le_succ (hupper a ha).1)
      · exact hc.span a ha b hb
    · intro last' hlast' key hkey
      rw [htaken, hkeys] at hlast'
      obtain rfl : last = last' := Option.some.inj hlast'
      rcases hwaiting key hkey with rfl | hkey
      · exact Nat.le_of_eq hdepth
      · exact hdepth ▸ (hupper key hkey).2.1
  | keeps htaken hwaiting =>
    exact ⟨fun k hk => hc.seq_eq k (hwaiting hk),
      fun a ha b hb => hc.ordered a (hwaiting ha) b (hwaiting hb),
      fun a ha b hb => hc.span a (hwaiting ha) b (hwaiting hb),
      fun last hlast k hk => hc.last last (htaken ▸ hlast) k (hwaiting hk)⟩

/-! ## Whole searches -/

/-- The nodes that were taken, in the order in which they were taken. -/
def State.pops (s : State F σ β κ) : List (NodeKey F) := s.takenKeys.reverse

/-- With the best bound first, the bounds of the nodes taken never decrease; breadth first, nodes
    are taken in the order of their numbers, and never from a higher level. -/
structure State.Advances (E : Engine F σ β κ) (s : State F σ β κ) : Prop where
  bestBound : E.settings.selection = .bestBound → s.pops.Pairwise fun a b => a.bound ≤ b.bound
  breadthFirst : E.settings.selection = .breadthFirst →
    s.pops.Pairwise fun a b => a.id < b.id ∧ a.depth ≤ b.depth

/-- The current node is the one that was taken last; the key under which it was taken has its depth
    and the bound that it inherited. -/
def Config.AtLast (c : Config F σ β κ) : Prop :=
  ∀ id, c.stage.current? = some id → ∃ key, c.state.pops.getLast? = some key ∧ key.id = id ∧
    ∀ node, c.state.tree.get? id = some node →
      node.parentBound = key.bound ∧ node.depth = key.depth

theorem Config.Steered.atLast (hc : c.Steered E start) : c.AtLast := by
  intro id hid
  obtain ⟨key, earlier, hkeys, hkey, hnode⟩ := hc.current id hid
  refine ⟨key, ?_, hkey, hnode⟩
  rw [State.pops, List.getLast?_reverse, hkeys, List.head?_cons]

/-- At the start no node was taken. -/
theorem Config.advances_initial (E : Engine F σ β κ) (start : σ) (strategy : β) (callbacks : κ)
    (R : NodeKey F → NodeKey F → Prop) :
    (Config.idle (State.initial E start strategy callbacks)).Advances R :=
  ⟨.nil, fun _ _ _ h => nomatch h⟩

/-- At the start the root waits. -/
theorem Config.levelled_initial (E : Engine F σ β κ) (start : σ) (strategy : β) (callbacks : κ) :
    (Config.idle (State.initial E start strategy callbacks)).Levelled := by
  have hroot : ∀ {key}, key ∈ (Config.idle (State.initial E start strategy callbacks)).waiting →
      key = ⟨0, (Node.root 0 : Node F).dualBound, 0, 0⟩ := by
    intro key hkey
    simp only [Config.waiting, Config.idle, List.append_nil, keys_initial] at hkey
    exact List.mem_singleton.1 hkey
  constructor
  · intro key hkey
    rw [hroot hkey]
  · intro a ha b hb _
    rw [hroot ha, hroot hb]
  · intro a ha b hb
    rw [hroot ha, hroot hb]
    exact Nat.zero_le _
  · rintro _ ⟨⟩

section
variable [Scalar.Ordered F] [Scalar.Ranked F]

/-- What holds of every search, and what each of the two orders adds. -/
theorem Moves.advances {strategy : β} {callbacks : κ}
    (h : Moves E (.idle (State.initial E start strategy callbacks)) c) :
    c.Steered E start ∧
      (E.settings.selection = .bestBound → c.Advances fun a b => a.bound ≤ b.bound) ∧
      (E.settings.selection = .breadthFirst → c.Levelled ∧ c.Advances NodeKey.Older) := by
  induction h with
  | refl =>
    exact ⟨Config.steered_initial E start strategy callbacks,
      fun _ => Config.advances_initial E start strategy callbacks _,
      fun _ => ⟨Config.levelled_initial E start strategy callbacks,
        Config.advances_initial E start strategy callbacks _⟩⟩
  | tail _ hmove ih =>
    obtain ⟨hsteered, hbest, hbreadth⟩ := ih
    refine ⟨hmove.steered hsteered, fun hselection => ?_, fun hselection => ?_⟩
    · exact hsteered.bestBound hselection hmove.traffic (hbest hselection)
    · obtain ⟨hlevels, hadvances⟩ := hbreadth hselection
      exact ⟨hlevels.step hsteered hadvances hmove.traffic,
        hsteered.breadthFirst hselection hmove.traffic hlevels hadvances⟩

theorem Moves.state_advances {strategy : β} {callbacks : κ}
    (h : Moves E (.idle (State.initial E start strategy callbacks)) c) : c.state.Advances E := by
  obtain ⟨-, hbest, hbreadth⟩ := h.advances
  exact ⟨fun hselection => List.pairwise_reverse.2 (hbest hselection).taken,
    fun hselection => List.pairwise_reverse.2 (hbreadth hselection).2.taken⟩

omit [Scalar.Ordered F] in
/-- A search that gives up has closed the last failed node. -/
theorem Config.Lineal.abort {id : NodeId} {node : Node F} {tree : Tree F} {released : Nat}
    (hc : Config.Lineal E start ⟨.closing id (.pruned .solverError), [], s⟩)
    (hnode : s.tree.get? id = some node)
    (hclose : s.tree.close id (.pruned .solverError) = .ok (tree, released)) :
    (Config.idle (s.closed E node (.pruned .solverError) tree)).Lineal E start := by
  have h := Move.patient (E := E) hnode hclose
  have hinherited := h.inherited hc.chronicled ⟨hc.inherited.inherits, hc.inherited.recorded⟩
  have htraced : (Config.idle (s.closed E node (.pruned .solverError) tree)).Traced E start :=
    ⟨h.coherent hc.traced.coherent, hc.traced.visited, hc.traced.sense, hc.traced.incumbent,
      trivial⟩
  exact hc.of_closed htraced (h.chronicled hc.chronicled)
    ⟨hinherited.inherits, hinherited.recorded⟩ hnode hclose (fun _ hdivides => hdivides.1) rfl

/-- **Dual bounds and the order of exploration.**  Whatever relaxation, strategy and callbacks do,
    at every moment of every search a closed node has inherited the bound with which its parent was
    closed, and its bound is the largest objective on its path; with the best bound first the bounds
    of the nodes taken never decrease, and breadth first they are taken in the order of their
    numbers and by levels.  The same holds where the search ends, and there of pending nodes too. -/
theorem solve_advances (E : Engine F σ β κ) (start : σ) (strategy : β) (callbacks : κ)
    (steps : Nat) :
    let s₀ := State.initial E start strategy callbacks
    (∀ c, Moves E (.idle s₀) c → c.state.Lineal E ∧ c.state.Advances E ∧ c.AtLast) ∧
    match (solve E steps).run s₀ with
    | .ok _ s | .error (.aborted ..) s => s.Lineal E ∧ s.Advances E ∧ s.Awaits E
    | .error e _ => ∃ c, Moves E (.idle s₀) c ∧ Fails E c e := by
  intro s₀
  refine ⟨fun c hmoves => ⟨hmoves.advances.1.lineal.state, hmoves.state_advances,
    hmoves.advances.1.atLast⟩, ?_⟩
  refine solve_keeps steps (fun hmoves => ?_) (fun h hsummary => ?_)
    fun hmoves hnode hclose => ?_
  · exact ⟨hmoves.advances.1.lineal.state, hmoves.state_advances, hmoves.advances.1.lineal.awaits⟩
  · obtain rfl := hsummary.final_eq
    obtain ⟨hlineal, hadvances, hawaits⟩ := h
    exact ⟨⟨hlineal.nodup, hlineal.inherits, hlineal.lineage, hlineal.largest⟩,
      ⟨hadvances.bestBound, hadvances.breadthFirst⟩, hawaits⟩
  · have hlineal := hmoves.advances.1.lineal.abort hnode hclose
    have hadvances := hmoves.state_advances
    exact ⟨hlineal.state, ⟨hadvances.bestBound, hadvances.breadthFirst⟩, hlineal.awaits⟩

end

/-- The search for the cheapest choice: its first child has the greater objective, and the second
    one, whose relaxation fails, keeps the bound of the root. -/
theorem solve_advances_choice : ∃ s,
    (∃ outcome, (solve choiceSearch 4).run (State.initial choiceSearch () () ()) =
      .ok outcome s) ∧
    s.Lineal choiceSearch ∧ s.Advances choiceSearch ∧
    s.pops.map NodeKey.bound = [.negInf, .fin (1 / 2), .fin (1 / 2)] ∧
    s.trace.map (fun record => (record.parentBound, record.dualBound)) =
      [(.negInf, .fin (1 / 2)), (.fin (1 / 2), .fin (3 / 2)), (.fin (1 / 2), .fin (1 / 2))] := by
  have hrun : read? (fun _ s => (s.pops.map NodeKey.bound,
        s.trace.map fun record => (record.parentBound, record.dualBound)))
      ((solve choiceSearch 4).run (State.initial choiceSearch () () ())) =
        some ([.negInf, .fin (1 / 2), .fin (1 / 2)],
          [(.negInf, .fin (1 / 2)), (.fin (1 / 2), .fin (3 / 2)),
            (.fin (1 / 2), .fin (1 / 2))]) := by
    decide +kernel
  obtain ⟨outcome, s, hsolve, hread⟩ := read?_eq_some hrun
  obtain ⟨hpops, htrace⟩ := Prod.mk.inj hread
  have hadvances := (solve_advances choiceSearch () () () 4).2
  rw [hsolve] at hadvances
  exact ⟨s, ⟨outcome, hsolve⟩, hadvances.1, hadvances.2.1, hpops, htrace⟩

end Search

end Milp
