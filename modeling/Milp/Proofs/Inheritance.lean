/-
  A node starts with the dual bound of its parent.

  The bound of a node changes when its answer is recorded, and has its final value from then on.
  Children are created later, so what they inherit is what the record of their parent has.

  * `Tree.Inherits`: the inherited bounds of the live nodes.
  * `Config.Inherited`: this, and that the records have the bounds of closed nodes that are live;
    `Move.inherited`: every move keeps it.
  * `Config.Inherited.parent_record`: the record of the parent of a live node.
-/
import Milp.Proofs.Chronicle

namespace Milp

variable {F σ β κ : Type}

namespace Tree

theorem finish_bounds (status : NodeStatus) (node : Node F) :
    (finish status node).parentBound = node.parentBound ∧
      (finish status node).dualBound = node.dualBound := by
  unfold finish
  split <;> exact ⟨rfl, rfl⟩

/-- A root inherits no bound, and every other node the one of its parent. -/
structure Inherits [Extended F] (t : Tree F) : Prop where
  root : ∀ {id node}, t.get? id = some node → node.parent = none →
    node.parentBound = -Extended.infinity
  child : ∀ {id p node parent}, t.get? id = some node → node.parent = some p →
    t.get? p = some parent → node.parentBound = parent.dualBound

variable [Extended F]

/-- A tree that has its nodes from one before, where no parent got another bound. -/
theorem Inherits.of_get? {t t' : Tree F} (h : t.Inherits)
    (hget : ∀ {id node}, t'.get? id = some node → ∃ before, t.get? id = some before ∧
      node.parent = before.parent ∧ node.parentBound = before.parentBound ∧
      ∀ {child}, t.IsParent id child → node.dualBound = before.dualBound) : t'.Inherits := by
  constructor
  · intro id node hnode hparent
    obtain ⟨before, hbefore, hp, hinherited, -⟩ := hget hnode
    exact hinherited ▸ h.root hbefore (hp ▸ hparent)
  · intro id p node parent hnode hparent hlive
    obtain ⟨before, hbefore, hp, hinherited, -⟩ := hget hnode
    obtain ⟨above, habove, -, -, hdual⟩ := hget hlive
    rw [hp] at hparent
    rw [hinherited, hdual ⟨before, hbefore, hparent⟩]
    exact h.child hbefore hparent habove

theorem Inherits.createChild {t t' : Tree F} {parent child : NodeId} {change : BoundChange F}
    (h : t.Inherits) (wf : t.WellFormed) (hcreate : t.createChild parent change = .ok (t', child)) :
    t'.Inherits := by
  obtain ⟨s, hs, -, -⟩ := createChild_eq hcreate
  have hget := get?_createChild hcreate (get?_of_slot? hs)
  constructor
  · intro id node hnode hparent
    rw [hget] at hnode
    split at hnode
    · cases hnode
      cases hparent
    · exact h.root hnode hparent
  · intro id p node above hnode hparent hlive
    rcases parent_of_createChild wf hcreate hnode hparent hlive with rfl | ⟨hold, habove⟩
    · rfl
    · exact h.child hold hparent habove

end Tree

namespace Search

variable [Extended F] {E : Engine F σ β κ} {c c' : Config F σ β κ} {s : State F σ β κ}

theorem record?_parentBound {before node : Node F} {answer : Answer F} {normalized : F}
    (h : before.record? answer normalized = some node) : node.parentBound = before.parentBound := by
  unfold Node.record? at h
  split at h
  · cases h
  · cases h
    rfl

/-- Bounds are inherited, and the records have those of closed nodes that are live. -/
structure Config.Inherited (E : Engine F σ β κ) (c : Config F σ β κ) : Prop where
  inherits : c.state.tree.Inherits
  recorded : ∀ {id node}, c.state.tree.get? id = some node → node.status.isClosed = true →
    ∃ record ∈ c.state.records, record.id = id ∧ record.status = node.status ∧
      record.depth = node.depth ∧ record.dualBound = E.sense.normalize node.dualBound

namespace Config.Inherited

/-- Another configuration with the same tree and the same records. -/
theorem of_eq (hc : c.Inherited E) (htree : c'.state.tree = c.state.tree)
    (hrecords : c'.state.records = c.state.records) : c'.Inherited E := by
  refine ⟨htree ▸ hc.inherits, ?_⟩
  rw [htree, hrecords]
  exact hc.recorded

/-- Closing a node changes no bound. -/
theorem of_closed {id : NodeId} {node : Node F} {status : NodeStatus} {released : Nat}
    (hc : c.Inherited E) (hcoherent : c.Coherent) (hnode : c.state.tree.get? id = some node)
    (hclose : c.state.tree.close id status = .ok (c'.state.tree, released))
    (hrecords : c'.state.records = E.record node status :: c.state.records) : c'.Inherited E := by
  have hget := fun {other n} (h : c'.state.tree.get? other = some n) =>
    Tree.get?_of_close hcoherent.wellFormed hcoherent.settled hclose h
  refine ⟨hc.inherits.of_get? fun hn => ?_, fun {other n} hn hclosed => ?_⟩
  · obtain ⟨before, hbefore, rfl⟩ := hget hn
    refine ⟨before, hbefore, ?_⟩
    split
    · obtain ⟨hinherited, hdual⟩ := Tree.finish_bounds status before
      exact ⟨Tree.finish_parent .., hinherited, fun _ => hdual⟩
    · exact ⟨rfl, rfl, fun _ => rfl⟩
  · obtain ⟨before, hbefore, rfl⟩ := hget hn
    rw [hrecords]
    by_cases hid : other = id
    · subst hid
      obtain rfl : before = node := Option.some.inj (hbefore.symm.trans hnode)
      rw [if_pos rfl, Tree.finish_status, Tree.finish_depth, (Tree.finish_bounds ..).2]
      exact ⟨E.record before status, List.mem_cons_self, hcoherent.id_eq hnode, rfl, rfl, rfl⟩
    · rw [if_neg hid] at hclosed ⊢
      obtain ⟨record, hmem, hrest⟩ := hc.recorded hbefore hclosed
      exact ⟨record, List.mem_cons_of_mem _ hmem, hrest⟩

/-- The current node gets its bound before it has children. -/
theorem record {id : NodeId} {r : Restrictions F} {answer : Answer F} {before node : Node F}
    {strategy : β} {normalized : F} (hc : Config.Inherited E ⟨.relaxed id r answer, [], s⟩)
    (htidy : Config.Tidy ⟨.relaxed id r answer, [], s⟩) (hbefore : s.tree.get? id = some before)
    (hrecord : before.record? answer normalized = some node) :
    Config.Inherited E ⟨.consulting id r answer E.callbacks, [],
      { s with tree := s.tree.modify id fun _ => node, strategy }⟩ := by
  obtain ⟨-, hparent, -, hstatus, -⟩ := record?_spec hrecord
  obtain ⟨-, fresh, hfresh, hpending, -⟩ := htidy.coherent.fits
  cases hbefore.symm.trans hfresh
  have hget : ∀ {other n}, (s.tree.modify id fun _ => node).get? other = some n →
      other = id ∧ n = node ∨ other ≠ id ∧ s.tree.get? other = some n := by
    intro other n hn
    rw [Tree.get?_modify] at hn
    split at hn
    · rename_i hid
      obtain ⟨_, -, rfl⟩ := Option.map_eq_some_iff.1 hn
      exact .inl ⟨hid.symm, rfl⟩
    · exact .inr ⟨Ne.symm ‹_›, hn⟩
  refine ⟨hc.inherits.of_get? fun hn => ?_, fun hn hclosed => ?_⟩
  · rcases hget hn with ⟨rfl, rfl⟩ | ⟨-, hn⟩
    · refine ⟨before, hbefore, hparent, record?_parentBound hrecord, fun hchild => ?_⟩
      -- a pending node has no children
      rcases htidy.divided hchild hbefore with hbranched | hdiv
      · cases hpending.symm.trans hbranched
      · exact False.elim hdiv
    · exact ⟨_, hn, rfl, rfl, fun _ => rfl⟩
  · rcases hget hn with ⟨rfl, rfl⟩ | ⟨-, hn⟩
    · rw [hstatus] at hclosed
      cases hclosed
    · exact hc.recorded hn hclosed

/-- A child is created with the bound of its parent. -/
theorem spawn {id child : NodeId} {d : Decision F} {change : BoundChange F}
    {left : List (BoundChange F)} {tree : Tree F} {node : Node F}
    (hc : Config.Inherited E ⟨.splitting id d (change :: left), [], s⟩) (wf : s.tree.WellFormed)
    (hcreate : s.tree.createChild id change = .ok (tree, child)) :
    Config.Inherited E ⟨.splitting id d left, [], s.spawned tree node⟩ := by
  obtain ⟨slot, hslot, -, -⟩ := Tree.createChild_eq hcreate
  refine ⟨hc.inherits.createChild wf hcreate, fun {other n} hn hclosed => ?_⟩
  change tree.get? other = some n at hn
  rw [Tree.get?_createChild hcreate (Tree.get?_of_slot? hslot)] at hn
  split at hn
  · cases hn
    cases hclosed
  · exact hc.recorded hn hclosed

/-- The parent of a live node was branched on, unless that is about to be said, and its record has
    the bound that the node inherited. -/
theorem parent_record (hc : c.Inherited E) (hchronicled : c.Chronicled) {id p : NodeId}
    {node : Node F} (hnode : c.state.tree.get? id = some node) (hparent : node.parent = some p)
    (hdivides : ¬ c.stage.Divides p) : ∃ record ∈ c.state.records, record.id = p ∧
      record.status = .branched ∧ node.depth = record.depth + 1 ∧
      E.sense.normalize node.parentBound = record.dualBound := by
  have hisParent : c.state.tree.IsParent p id := ⟨node, hnode, hparent⟩
  obtain ⟨-, parent, hlive⟩ := hisParent.live hchronicled.tidy.coherent.wellFormed
  have hbranched := (hchronicled.tidy.divided hisParent hlive).resolve_right hdivides
  obtain ⟨record, hmem, hid, hstatus, hdepth, hdual⟩ :=
    hc.recorded hlive (by rw [hbranched]; rfl)
  refine ⟨record, hmem, hid, hstatus.trans hbranched, ?_, ?_⟩
  · rw [hdepth]
    exact hchronicled.graded.child hnode hparent hlive
  · rw [hdual, hc.inherits.child hnode hparent hlive]

end Config.Inherited

theorem Move.inherited (h : Move E c c') (hchronicled : c.Chronicled) (hc : c.Inherited E) :
    c'.Inherited E := by
  have hcoherent := hchronicled.tidy.coherent
  cases h with
  | @remark stage doomed s event h =>
    exact hc.of_eq rfl (State.records_logged h)
  | conclude h => exact hc.of_eq rfl h.records_eq
  | record hbefore hrecord hlearn => exact hc.record hchronicled.tidy hbefore hrecord
  | sweep hnode hclose => exact hc.of_closed hcoherent hnode hclose rfl
  | spawn hcreate hnode => exact hc.spawn hcoherent.wellFormed hcreate
  | close hnode hclose hgo => exact hc.of_closed hcoherent hnode hclose rfl
  | _ => exact hc.of_eq rfl rfl

/-- At the start the root is the only node. -/
theorem Config.inherited_initial (E : Engine F σ β κ) (relaxation : σ) (strategy : β)
    (callbacks : κ) : (Config.idle (State.initial E relaxation strategy callbacks)).Inherited E := by
  have hget : ∀ {id node}, (State.initial E relaxation strategy callbacks).tree.get? id = some node →
      id = 0 ∧ node = Node.root 0 := fun h => eq_root_of_initial E relaxation strategy callbacks h
  refine ⟨⟨fun hnode _ => ?_, fun hnode hparent _ => ?_⟩, fun hnode hclosed => ?_⟩
  · obtain ⟨-, rfl⟩ := hget hnode
    rfl
  · obtain ⟨-, rfl⟩ := hget hnode
    cases hparent
  · obtain ⟨-, rfl⟩ := hget hnode
    cases hclosed

end Search

end Milp
