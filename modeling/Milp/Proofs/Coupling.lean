/-
  Tree and frontier of a search hold the same nodes.

  Between two nodes of a search the frontier has exactly the pending nodes of the tree, and every
  other live node is branched and lives only for a pending node below it.  While a node is processed
  this is broken: the current node is live without being pending, and a new incumbent takes nodes out
  of the frontier before they are closed.

  * `Tree.Above`: the nodes on the way from a node up to its root.
  * `Config.Tidy`: what holds between any two moves; `Move.tidy`: every move keeps it.
  * `State.Coupled`: what it comes to between two nodes.
  * `solve_coupled`: tree and frontier are coupled before each node is taken, and no search ends with
    an internal error.
-/
import Milp.Proofs.Branching
import Milp.Proofs.Cover

namespace Milp

variable {F σ β κ : Type}

/-- `id` is on the way from the live node `other` up to its root. -/
def Tree.Above (t : Tree F) : NodeId → NodeId → Prop := Relation.TransGen t.IsParent

namespace Search

/-! ## The invariant -/

section Invariant

variable [Scalar F]

/-- Has a child of this node been created, while the node is not called branched yet? -/
def Stage.Divides : Stage F κ → NodeId → Prop
  | splitting id d left, other => other = id ∧ left ≠ d.children
  | closing id status, other => other = id ∧ status = .branched
  | _, _ => False

/-- The children that are still to be created are the last of those that the decision has. -/
def Stage.InOrder : Stage F κ → Prop
  | splitting _ d left => left <:+ d.children
  | _ => True

/-- Every live node is open or branched, and only branched nodes have children. -/
structure Config.Tidy (c : Config F σ β κ) : Prop where
  coherent : c.Coherent
  accounted : ∀ {id node}, c.state.tree.get? id = some node →
    node.status = .branched ∨ id ∈ c.openIds
  divided : ∀ {id child node}, c.state.tree.IsParent id child →
    c.state.tree.get? id = some node → node.status = .branched ∨ c.stage.Divides id
  inOrder : c.stage.InOrder

namespace Config.Tidy

variable {c c' : Config F σ β κ}

/-- Another configuration with the same tree, and the same open nodes in another order. -/
theorem rearrange (hc : c.Tidy) (hcoherent : c'.Coherent) (htree : c'.state.tree = c.state.tree)
    (hopen : c'.openIds.Perm c.openIds) (hdivides : ∀ id, c.stage.Divides id → c'.stage.Divides id)
    (horder : c'.stage.InOrder) : c'.Tidy where
  coherent := hcoherent
  accounted hnode := (hc.accounted (htree ▸ hnode)).imp_right hopen.mem_iff.2
  divided hparent hnode := (hc.divided (htree ▸ hparent) (htree ▸ hnode)).imp_right (hdivides _)
  inOrder := horder

/-- Closing an open node: if it has children it becomes branched. -/
theorem of_close {id : NodeId} {status : NodeStatus} {released : Nat} (hc : c.Tidy)
    (hcoherent : c'.Coherent) (hclose : c.state.tree.close id status = .ok (c'.state.tree, released))
    (hopen : c.openIds.Perm (id :: c'.openIds))
    (hstatus : c.stage.Divides id → status = .branched)
    (hdivides : ∀ other, c.stage.Divides other → other = id ∨ c'.stage.Divides other)
    (horder : c'.stage.InOrder) : c'.Tidy := by
  have hget := fun {other node} (h : c'.state.tree.get? other = some node) =>
    Tree.get?_of_close hc.coherent.wellFormed hc.coherent.settled hclose h
  have hparents : ∀ {parent child}, c'.state.tree.IsParent parent child →
      c.state.tree.IsParent parent child := by
    rintro parent child ⟨node, hnode, hparent⟩
    obtain ⟨before, hbefore, rfl⟩ := hget hnode
    refine ⟨before, hbefore, ?_⟩
    split at hparent
    · rwa [Tree.finish_parent] at hparent
    · exact hparent
  -- the closed node is live only if it has children, and then it is branched
  have hbranched : ∀ {child}, c'.state.tree.IsParent id child → status = .branched := by
    intro child hchild
    obtain ⟨n, hn, hstatus'⟩ := hc.coherent.live (hopen.mem_iff.2 List.mem_cons_self)
    rcases hc.divided (hparents hchild) hn with heq | hdiv
    · rw [heq] at hstatus'
      cases hstatus'
    · exact hstatus hdiv
  constructor
  · exact hcoherent
  · intro other node hnode
    obtain ⟨before, hbefore, rfl⟩ := hget hnode
    by_cases hid : other = id
    · subst hid
      rw [if_pos rfl] at hnode ⊢
      have hclosed : (Tree.finish status before).status.isClosed = true := by
        rw [Tree.finish_status]
        exact (Tree.close_eq hclose).1
      obtain ⟨child, hchild⟩ := Tree.exists_isParent hcoherent.wellFormed hcoherent.settled hnode
        hclosed
      exact .inl ((Tree.finish_status ..).trans (hbranched hchild))
    · rw [if_neg hid]
      refine (hc.accounted hbefore).imp_right fun hmem => ?_
      exact (List.mem_cons.1 (hopen.mem_iff.1 hmem)).resolve_left hid
  · intro parent child node hchild hnode
    obtain ⟨before, hbefore, rfl⟩ := hget hnode
    by_cases hid : parent = id
    · subst hid
      rw [if_pos rfl]
      exact .inl ((Tree.finish_status ..).trans (hbranched hchild))
    · rw [if_neg hid]
      refine (hc.divided (hparents hchild) hbefore).imp_right fun hdiv => ?_
      exact (hdivides _ hdiv).resolve_left hid
  · exact horder

end Config.Tidy

end Invariant

variable [Extended F] {E : Engine F σ β κ} {c c' : Config F σ β κ} {s : State F σ β κ}

/-- A node is called branched only if it has children. -/
theorem Concludes.divides {stage : Stage F κ} {id : NodeId} {status : NodeStatus}
    {events : List (Event F)} (h : Concludes E s stage id status events) (other : NodeId)
    (hdiv : stage.Divides other) : (Stage.closing id status : Stage F κ).Divides other := by
  cases h with
  | barren h => exact absurd h.symm hdiv.2
  | branched => exact ⟨hdiv.1, rfl⟩
  | _ => exact False.elim hdiv

/-- Recording an answer: the node has no children yet. -/
theorem Config.Tidy.record {id : NodeId} {r : Restrictions F} {answer : Answer F}
    {before node : Node F} {strategy : β} {normalized : F}
    (hc : Config.Tidy ⟨.relaxed id r answer, [], s⟩)
    (hbefore : s.tree.get? id = some before)
    (hrecord : before.record? answer normalized = some node) :
    Config.Tidy ⟨.consulting id r answer E.callbacks, [],
      { s with tree := s.tree.modify id fun _ => node, strategy }⟩ := by
  obtain ⟨-, hparent, -⟩ := record?_spec hrecord
  have hget : ∀ other n, (s.tree.modify id fun _ => node).get? other = some n →
      ∃ n₀, s.tree.get? other = some n₀ ∧ n.parent = n₀.parent ∧ (other ≠ id → n = n₀) := by
    intro other n hn
    rw [Tree.get?_modify] at hn
    split at hn
    · rename_i hid
      obtain ⟨n₀, hn₀, rfl⟩ := Option.map_eq_some_iff.1 hn
      obtain rfl : n₀ = before := Option.some.inj (hn₀.symm.trans (hid ▸ hbefore))
      exact ⟨n₀, hn₀, hparent, fun hne => absurd hid.symm hne⟩
    · exact ⟨n, hn, rfl, fun _ => rfl⟩
  refine ⟨hc.coherent.record hbefore hrecord, fun {other n} hn => ?_,
    fun {parent child n} hchild hn => ?_, trivial⟩
  · by_cases hid : other = id
    · exact .inr (List.mem_append_right _ (Option.mem_toList.2 (hid ▸ rfl)))
    · obtain ⟨n₀, hn₀, -, heq⟩ := hget other n hn
      rw [heq hid]
      exact hc.accounted hn₀
  · obtain ⟨m, hm, hp⟩ := hchild
    obtain ⟨m₀, hm₀, hsame, -⟩ := hget child m hm
    obtain ⟨n₀, hn₀, -, heq⟩ := hget parent n hn
    have hbranched : n₀.status = .branched :=
      (hc.divided ⟨m₀, hm₀, hsame ▸ hp⟩ hn₀).resolve_right fun h => h
    by_cases hid : parent = id
    · -- the current node is pending
      obtain ⟨-, n₁, hn₁, hpending, -⟩ := hc.coherent.fits
      subst hid
      cases hn₀.symm.trans hn₁
      rw [hbranched] at hpending
      cases hpending
    · rw [heq hid]
      exact .inl hbranched

/-- Creating a child of the current node. -/
theorem Config.Tidy.spawn {id child : NodeId} {d : Decision F} {change : BoundChange F}
    {left : List (BoundChange F)} {tree : Tree F} {node : Node F}
    (hc : Config.Tidy ⟨.splitting id d (change :: left), [], s⟩)
    (hcreate : s.tree.createChild id change = .ok (tree, child))
    (hnode : tree.get? child = some node) :
    Config.Tidy ⟨.splitting id d left, [], s.spawned tree node⟩ := by
  obtain ⟨slot, hslot, rfl, -⟩ := Tree.createChild_eq hcreate
  have hget := Tree.get?_createChild hcreate (Tree.get?_of_slot? hslot)
  have horder : Stage.InOrder (.splitting id d (change :: left) : Stage F κ) := hc.inOrder
  unfold Stage.InOrder at horder
  have hne : left ≠ d.children := fun heq => by
    have := horder.length_le
    rw [heq, List.length_cons] at this
    omega
  have hid : node.id = s.tree.created := by
    rw [hget, if_pos rfl] at hnode
    rw [← Option.some.inj hnode]
    rfl
  have hopen := openIds_spawned id d change left s tree node
  refine ⟨hc.coherent.spawn hcreate hnode, fun {other n} hn => ?_,
    fun {parent other n} hchild hn => ?_, (List.suffix_cons _ _).trans horder⟩
  · change tree.get? other = some n at hn
    rw [hget] at hn
    split at hn
    · rename_i heq
      exact .inr (hopen.mem_iff.2 (by rw [hid, heq]; exact List.mem_cons_self))
    · exact (hc.accounted hn).imp_right fun hmem =>
        hopen.mem_iff.2 (List.mem_cons_of_mem _ hmem)
  · by_cases hparent : parent = id
    · exact .inr ⟨hparent, hne⟩
    · obtain ⟨m, hm, hp⟩ := hchild
      change tree.get? other = some m at hm
      rw [hget] at hm
      split at hm
      · -- the parent of the new node is the current one
        cases hm
        refine absurd (Option.some.inj hp).symm ?_
        rwa [hc.coherent.wellFormed.id_eq hslot]
      · have hisParent : s.tree.IsParent parent other := ⟨m, hm, hp⟩
        obtain ⟨-, n₀, hn₀⟩ := hisParent.live hc.coherent.wellFormed
        obtain ⟨q, hq, -⟩ := Tree.get?_eq_some.1 hn₀
        change tree.get? parent = some n at hn
        rw [hget, if_neg (Nat.ne_of_lt (Tree.slot?_lt hq))] at hn
        exact (hc.divided hisParent hn).imp_right fun hdiv => absurd hdiv.1 hparent

/-- Every move keeps the tree tidy. -/
theorem Move.tidy (h : Move E c c') (hc : c.Tidy) : c'.Tidy := by
  have hcoherent := h.coherent hc.coherent
  cases h with
  | remark => exact hc.rearrange hcoherent rfl (.refl _) (fun _ h => h) hc.inOrder
  | @take s key rest node hpop hnode =>
    exact hc.rearrange hcoherent rfl (openIds_taken hpop node) (fun _ h => h) trivial
  | @conclude s stage id status events h =>
    exact hc.rearrange hcoherent rfl (.of_eq (openIds_concluded h)) h.divides trivial
  | relax => exact hc.rearrange hcoherent rfl (.refl _) (fun _ h => h) trivial
  | record hbefore hrecord hlearn => exact hc.record hbefore hrecord
  | @offer s id r answer callback left node shown proposal callbacks hnode hanswer hsolved =>
    rcases proposal with _ | p
    · exact hc.rearrange hcoherent rfl (.refl _) (fun _ h => h) trivial
    · exact hc.rearrange hcoherent rfl (.refl _) (fun _ h => h) trivial
  | refuse => exact hc.rearrange hcoherent rfl (.refl _) (fun _ h => h) trivial
  | @adopt s stage candidate next tracker pruned frontier h hupdate hprune =>
    refine hc.rearrange hcoherent rfl (openIds_adopted h hprune ..) (fun id hdiv => ?_) ?_
    · cases h <;> exact False.elim hdiv
    · cases h <;> trivial
  | @sweep s stage key doomed node tree released hnode hclose =>
    have hopen := openIds_swept E stage key doomed s node tree
    -- the node is not the current one, which comes later among the open nodes
    have hother : ∀ id, stage.Divides id → id ≠ key.id := by
      rintro id hdiv rfl
      have hcurrent : stage.current? = some key.id := by
        cases stage with
        | splitting | closing => exact congrArg some hdiv.1.symm
        | _ => exact False.elim hdiv
      refine (List.nodup_cons.1 (hopen.nodup_iff.1 hc.coherent.nodup)).1 ?_
      exact List.mem_append_right _ (Option.mem_toList.2 hcurrent)
    exact hc.of_close hcoherent hclose hopen (fun hdiv => absurd rfl (hother _ hdiv))
      (fun _ hdiv => .inr hdiv) hc.inOrder
  | select => exact hc.rearrange hcoherent rfl (.refl _) (fun _ h => False.elim h) List.suffix_rfl
  | spawn hcreate hnode => exact hc.spawn hcreate hnode
  | @close s id status node tree released hnode hclose hgo =>
    exact hc.of_close hcoherent hclose (openIds_closed ..) (fun hdiv => hdiv.2)
      (fun _ hdiv => .inl hdiv.1) trivial

theorem Moves.tidy (h : Moves E c c') (hc : c.Tidy) : c'.Tidy := by
  induction h with
  | refl => exact hc
  | tail _ hmove ih => exact hmove.tidy ih

/-- At the start the only live node is the root, which is in the frontier. -/
theorem Config.tidy_initial (E : Engine F σ β κ) (relaxation : σ) (strategy : β) (callbacks : κ) :
    (Config.idle (State.initial E relaxation strategy callbacks)).Tidy := by
  refine ⟨Config.coherent_initial E relaxation strategy callbacks, fun hnode => ?_, ?_, trivial⟩
  · obtain ⟨rfl, -⟩ := eq_root_of_initial E relaxation strategy callbacks hnode
    have hkeys := keys_initial E relaxation strategy callbacks
    simp [Config.openIds, Config.waiting, Config.idle, hkeys]
  · rintro id child node ⟨m, hm, hparent⟩ -
    obtain ⟨-, rfl⟩ := eq_root_of_initial E relaxation strategy callbacks hm
    cases hparent

/-! ## Between two nodes -/

/-- Tree and frontier hold the same nodes. -/
structure State.Coupled (s : State F σ β κ) : Prop where
  /-- No node is in the frontier twice. -/
  nodup : (s.frontier.keys.map NodeKey.id).Nodup
  /-- A key in the frontier belongs to a pending node with its bound and depth, -/
  held : ∀ key ∈ s.frontier.keys, ∃ node, s.tree.get? key.id = some node ∧
    node.status = .pending ∧ node.dualBound = key.bound ∧ node.depth = key.depth
  /-- and every pending node has one. -/
  queued : ∀ {id node}, s.tree.get? id = some node → node.status = .pending →
    ∃ key ∈ s.frontier.keys, key.id = id
  /-- Every other live node is above a pending one, -/
  needed : ∀ {id node}, s.tree.get? id = some node → node.status ≠ .pending →
    ∃ key ∈ s.frontier.keys, s.tree.Above id key.id
  /-- and whatever is above a live node is live and branched. -/
  branched : ∀ {id other}, s.tree.Above id other →
    ∃ node, s.tree.get? id = some node ∧ node.status = .branched
  /-- Every node counts its live children. -/
  counted : ∀ {id slot}, s.tree.slot? id = some slot → slot.liveChildren = s.tree.childCount id
  /-- Without pending nodes nothing is live. -/
  empty : s.frontier.isEmpty = true → s.tree.isEmpty = true

omit [Extended F] in
theorem Tree.isEmpty_of_get? {t : Tree F} (h : ∀ id, t.get? id = none) : t.isEmpty = true := by
  simp only [Tree.isEmpty, Tree.size, decide_eq_true_eq, Array.countP_eq_zero]
  intro slot hmem
  obtain ⟨id, hid⟩ := Array.getElem?_of_mem hmem
  rcases slot with _ | q
  · simp
  · have hlive := Tree.get?_of_slot? (Tree.slot?_eq_some.2 hid)
    rw [h id] at hlive
    cases hlive

/-- Between two nodes a live node is pending, or branched and above a pending one. -/
theorem Config.Tidy.pending_or_above (hc : (Config.idle s).Tidy) {id : NodeId} {node : Node F}
    (hnode : s.tree.get? id = some node) : (∃ key ∈ s.frontier.keys, key.id = id) ∨
      node.status = .branched ∧ ∃ key ∈ s.frontier.keys, s.tree.Above id key.id := by
  -- the children of a node have larger numbers, so there are no endless chains of them
  induction hn : s.tree.created - id using Nat.strongRecOn generalizing id node with
  | _ n ih =>
    have hwf : s.tree.WellFormed := hc.coherent.wellFormed
    rcases hc.accounted hnode with hbranched | hopen
    · obtain ⟨child, hchild⟩ := Tree.exists_isParent hwf hc.coherent.settled hnode
        (by rw [hbranched]; rfl)
      have hlt := (hchild.live hwf).1
      obtain ⟨m, hm, hparent⟩ := hchild
      have hchild : s.tree.IsParent id child := ⟨m, hm, hparent⟩
      obtain ⟨q, hq, -⟩ := Tree.get?_eq_some.1 hm
      have hcreated := Tree.slot?_lt hq
      refine .inr ⟨hbranched, ?_⟩
      have hless : s.tree.created - child < n :=
        hn ▸ Nat.sub_lt_sub_left (Nat.lt_trans hlt hcreated) hlt
      rcases ih _ hless hm rfl with ⟨key, hkey, rfl⟩ | ⟨-, key, hkey, habove⟩
      · exact ⟨key, hkey, .single hchild⟩
      · exact ⟨key, hkey, .head hchild habove⟩
    · obtain ⟨key, hkey, rfl⟩ : ∃ key ∈ s.frontier.keys, key.id = id := by
        simpa [Config.openIds, Config.waiting, Config.idle, Stage.current?] using hopen
      exact .inl ⟨key, hkey, rfl⟩

/-- Between two nodes a tidy search is coupled. -/
theorem Config.Tidy.coupled (hc : (Config.idle s).Tidy) : s.Coupled := by
  have hwf : s.tree.WellFormed := hc.coherent.wellFormed
  have hheld : ∀ key ∈ s.frontier.keys, s.tree.Holds key := fun key hkey =>
    hc.coherent.holds key (by simpa [Config.waiting, Config.idle] using hkey)
  have hbranched : ∀ {id child}, s.tree.IsParent id child →
      ∃ node, s.tree.get? id = some node ∧ node.status = .branched := by
    intro id child hchild
    obtain ⟨-, node, hnode⟩ := hchild.live hwf
    exact ⟨node, hnode, (hc.divided hchild hnode).resolve_right fun h => h⟩
  constructor
  · have hnodup := hc.coherent.nodup
    simpa [Config.openIds, Config.waiting, Config.idle, Stage.current?] using hnodup
  · intro key hkey
    obtain ⟨node, hnode, hpending, -, hbound, hdepth⟩ := hheld key hkey
    exact ⟨node, hnode, hpending, hbound, hdepth⟩
  · intro id node hnode hpending
    refine (hc.pending_or_above hnode).resolve_right fun h => ?_
    rw [hpending] at h
    cases h.1
  · intro id node hnode hpending
    rcases hc.pending_or_above hnode with ⟨key, hkey, rfl⟩ | ⟨-, habove⟩
    · obtain ⟨n, hn, hstatus, -⟩ := hheld key hkey
      cases hnode.symm.trans hn
      exact absurd hstatus hpending
    · exact habove
  · intro id other habove
    obtain ⟨child, hchild, -⟩ := Relation.TransGen.head'_iff.1 habove
    exact hbranched hchild
  · exact hwf.liveChildren_eq
  · intro hempty
    have hkeys : s.frontier.keys = [] := by
      simpa [Frontier.isEmpty, Frontier.keys] using hempty
    refine Tree.isEmpty_of_get? fun id => Option.eq_none_iff_forall_ne_some.2 fun node hnode => ?_
    rcases hc.pending_or_above hnode with ⟨key, hkey, -⟩ | ⟨-, key, hkey, -⟩
    · rw [hkeys] at hkey
      cases hkey
    · rw [hkeys] at hkey
      cases hkey

/-- A rule that branches on a candidate whenever one is not whole causes no internal error. -/
theorem Config.Coherent.no_internal [Scalar.Ordered F] {defect : Defect} (hc : c.Coherent)
    (hstrategy : E.strategy.BuiltIn ∨ E.strategy.Decisive) : ¬ Fails E c (.internal defect) := by
  intro hfails
  rcases hc.internal hfails with ⟨name, id, n, rfl⟩ | ⟨name, var, rfl⟩
  · cases hfails with
    | @undecided _ _ _ _ x _ split _ _ _ _ hsplit hne _ _ hselect =>
      rcases hstrategy with hbuiltin | hdecisive
      · obtain ⟨var, hvar, value, hvalue, hlt⟩ := fractionalFrom_ne_nil hsplit hne
        obtain ⟨value', hvalue', hnot⟩ := hbuiltin.whole hselect var hvar
        cases hvalue.symm.trans hvalue'
        exact hnot hlt
      · obtain ⟨d, hd, -⟩ := hdecisive _ _ _ _ hselect
        cases hd
  · cases hfails with
    | notACandidate _ _ _ hselect hvar =>
      rcases hstrategy with hbuiltin | hdecisive
      · obtain ⟨interval, hsplits⟩ := hbuiltin.splits hselect
        exact hvar hsplits.mem
      · obtain ⟨d, hd, hmem⟩ := hdecisive _ _ _ _ hselect
        cases hd
        exact hvar hmem

/-- **Coupling.**  Whatever the relaxation and the callbacks answer, tree and frontier hold the same
    nodes after any number of nodes; and no search with a built-in rule, or one that always chooses a
    candidate, ends with an internal error. -/
theorem solve_coupled [Scalar.Ordered F] (E : Engine F σ β κ)
    (hstrategy : E.strategy.BuiltIn ∨ E.strategy.Decisive) (start : σ) (strategy : β)
    (callbacks : κ) (steps : Nat) :
    (∀ s, (solve E steps).run (State.initial E start strategy callbacks) = .ok none s →
      s.Coupled) ∧
    ∀ defect s, (solve E steps).run (State.initial E start strategy callbacks) ≠
      .error (.internal defect) s := by
  have hcases := solve_cases E steps (State.initial E start strategy callbacks)
  constructor
  · intro s hsolve
    rw [hsolve] at hcases
    exact (Moves.tidy hcases.1 (Config.tidy_initial E start strategy callbacks)).coupled
  · intro defect s hsolve
    rw [hsolve] at hcases
    obtain ⟨c, hmoves, hfails, -⟩ := hcases
    have hcoherent := Moves.coherent hmoves (Config.coherent_initial E start strategy callbacks)
    exact hcoherent.no_internal hstrategy hfails

/-- After the root of the segment its upper child is pending, and the root lives only for it. -/
theorem solve_coupled_segment : ∃ s,
    (solve segmentSearch 1).run (State.initial segmentSearch () () ()) = .ok none s ∧
      s.frontier.keys.map NodeKey.depth = [1] ∧ s.Coupled ∧
      ∃ key ∈ s.frontier.keys, s.tree.Above 0 key.id := by
  have hrun : read? (fun solution s => (solution.isNone, s.frontier.keys.map NodeKey.depth,
        (s.tree.get? 0).map Node.status))
      ((solve segmentSearch 1).run (State.initial segmentSearch () () ())) =
        some (true, [1], some .branched) := by
    decide +kernel
  obtain ⟨outcome, s, hsolve, hread⟩ := read?_eq_some hrun
  simp only [Prod.mk.injEq, Option.isNone_iff_eq_none] at hread
  obtain ⟨rfl, hdepths, hroot⟩ := hread
  obtain ⟨root, hget, hbranched⟩ := Option.map_eq_some_iff.1 hroot
  have hcoupled := (solve_coupled segmentSearch (.inl .mostFractional) () () () 1).1 s hsolve
  refine ⟨s, hsolve, hdepths, hcoupled, hcoupled.needed hget ?_⟩
  rw [hbranched]
  simp

end Search

end Milp
