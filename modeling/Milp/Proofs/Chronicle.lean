/-
  Every node that was created is open or has a record.

  Nodes are closed one by one, those that a new incumbent rules out among them.  A node that is
  closed leaves the tree when nothing below it is open, so its record is all that remains of it.

  * `State.trace`: the records of a search, in the order in which the nodes were closed.
  * `Record.Follows`: the record of the parent comes first, and fits.
  * `Effect`: what a move can do to the nodes: nothing, close one, or create one; `Move.effect`.
  * `Config.Chronicled`: every node is open or has a record, and records follow those of parents;
    `Move.chronicled`: every move keeps this.
-/
import Milp.Proofs.Coupling

namespace Milp

variable {F σ β κ : Type}

/-! ## Records -/

/-- The record is that of a root, or comes after that of its parent, which was branched on. -/
def Record.Follows (record : Record F) (earlier : List (Record F)) : Prop :=
  match record.parent with
  | none => record.id = 0 ∧ record.depth = 0
  | some parent => ∃ before ∈ earlier, before.id = parent ∧ before.status = .branched ∧
      record.depth = before.depth + 1

/-- Each of these records, the latest first, follows those before it. -/
def Record.Descend : List (Record F) → Prop
  | [] => True
  | record :: earlier => record.Follows earlier ∧ Descend earlier

theorem Record.Descend.follows {later earlier : List (Record F)} {record : Record F}
    (h : Descend (later ++ record :: earlier)) : record.Follows earlier := by
  induction later with
  | nil => exact h.1
  | cons _ later ih => exact ih h.2

theorem Record.Follows.of_mem {record : Record F} {earlier earlier' : List (Record F)}
    (h : record.Follows earlier) (hmem : ∀ r ∈ earlier, r ∈ earlier') :
    record.Follows earlier' := by
  unfold Follows at h ⊢
  split
  · rename_i hparent
    rwa [hparent] at h
  · rename_i parent hparent
    rw [hparent] at h
    obtain ⟨before, hbefore, hrest⟩ := h
    exact ⟨before, hmem before hbefore, hrest⟩

namespace Search

/-- The record of a closed node. -/
def Event.record? : Event F → Option (Record F)
  | .closed record => some record
  | _ => none

/-- The node whose relaxation was solved. -/
def Event.solved? : Event F → Option NodeId
  | .solved id _ => some id
  | _ => none

/-- A remark is about no node. -/
theorem Event.silent_of_isRemark {event : Event F} (h : event.isRemark = true) :
    event.record? = none ∧ event.solved? = none := by
  cases event <;> first | exact ⟨rfl, rfl⟩ | cases h

namespace State

/-- The records of closed nodes, the latest first. -/
def records (s : State F σ β κ) : List (Record F) := s.history.filterMap Event.record?

/-- The nodes whose relaxations were solved, the latest first. -/
def solvedIds (s : State F σ β κ) : List NodeId := s.history.filterMap Event.solved?

/-- The records of closed nodes, in the order in which they were closed. -/
def trace (s : State F σ β κ) : List (Record F) := s.records.reverse

end State

variable [Extended F] {E : Engine F σ β κ} {c c' : Config F σ β κ} {s : State F σ β κ}

/-- What is said of a decision is no record. -/
theorem Concludes.silent {stage : Stage F κ} {id : NodeId} {status : NodeStatus}
    {events : List (Event F)} (h : Concludes E s stage id status events) :
    events.filterMap Event.record? = [] ∧ events.filterMap Event.solved? = [] := by
  cases h <;> exact ⟨rfl, rfl⟩

omit [Extended F] in
theorem State.records_logged {event : Event F} (h : event.isRemark = true) :
    (s.logged event).records = s.records :=
  List.filterMap_cons_none (Event.silent_of_isRemark h).1

theorem Concludes.records_eq {stage : Stage F κ} {id : NodeId} {status : NodeStatus}
    {events : List (Event F)} (h : Concludes E s stage id status events) :
    (s.concluded status events).records = s.records := by
  simp [State.records, State.concluded, h.silent.1]

/-! ## What moves do to the nodes -/

/-- What a move can do to the nodes. -/
inductive Effect (E : Engine F σ β κ) (c c' : Config F σ β κ) : Prop where
  /-- No node is created or closed. -/
  | keeps (hcount : c'.state.statistics.created = c.state.statistics.created)
      (hcreated : c'.state.tree.created = c.state.tree.created)
      (hget : ∀ {id node}, c'.state.tree.get? id = some node → ∃ before,
        c.state.tree.get? id = some before ∧ node.parent = before.parent ∧
          node.depth = before.depth ∧ (node.status.isClosed = true → node = before))
      (hopen : c'.openIds.Perm c.openIds) (hrecords : c'.state.records = c.state.records)
  /-- An open node is closed.  If it has children, the current decision is to branch on it. -/
  | closes {id : NodeId} {node : Node F} {status : NodeStatus} {released : Nat}
      (hcount : c'.state.statistics.created = c.state.statistics.created)
      (hnode : c.state.tree.get? id = some node)
      (hclose : c.state.tree.close id status = .ok (c'.state.tree, released))
      (hdivides : ∀ other, c.stage.Divides other → other = id)
      (hopen : c.openIds.Perm (id :: c'.openIds))
      (hrecords : c'.state.records = E.record node status :: c.state.records)
  /-- A node is created. -/
  | spawns {id child : NodeId} {change : BoundChange F}
      (hcount : c'.state.statistics.created = c.state.statistics.created + 1)
      (hcreate : c.state.tree.createChild id change = .ok (c'.state.tree, child))
      (hopen : c'.openIds.Perm (child :: c.openIds))
      (hrecords : c'.state.records = c.state.records)

/-- While pending nodes are closed for a new incumbent, no node is being branched on. -/
def Config.Calm (c : Config F σ β κ) : Prop := c.doomed ≠ [] → ∀ id, ¬ c.stage.Divides id

theorem Move.calm (h : Move E c c') (hc : c.Calm) : c'.Calm := by
  cases h with
  | remark => exact hc
  | adopt h =>
    intro _ id hdivides
    cases h with
    | proposed => exact hdivides
    | accepted => exact NodeStatus.noConfusion hdivides.2
  | sweep => exact fun _ => hc (List.cons_ne_nil _ _)
  | _ => exact fun hdoomed => absurd rfl hdoomed

omit [Extended F] in
/-- The number of a live node is the one that it is looked up by. -/
theorem Config.Coherent.id_eq {id : NodeId} {node : Node F} (hc : c.Coherent)
    (h : c.state.tree.get? id = some node) : node.id = id := by
  obtain ⟨slot, hslot, rfl⟩ := Tree.get?_eq_some.1 h
  exact hc.wellFormed.id_eq hslot

/-- A move that leaves the tree and the open nodes does nothing to the nodes. -/
theorem Effect.of_eq (hcount : c'.state.statistics.created = c.state.statistics.created)
    (htree : c'.state.tree = c.state.tree) (hopen : c'.openIds.Perm c.openIds)
    (hrecords : c'.state.records = c.state.records) : Effect E c c' :=
  .keeps hcount (congrArg Tree.created htree)
    (fun {_ node} h => ⟨node, htree ▸ h, rfl, rfl, fun _ => rfl⟩) hopen hrecords

theorem Move.effect (h : Move E c c') (hc : c.Coherent) (hcalm : c.Calm) : Effect E c c' := by
  cases h with
  | @remark stage doomed s event h =>
    exact .of_eq rfl rfl (.refl _) (State.records_logged h)
  | @take s key rest node hpop hnode =>
    exact .of_eq rfl rfl (openIds_taken hpop node) rfl
  | @conclude s stage id status events h =>
    exact .of_eq (Statistics.count_created ..) rfl (.of_eq (openIds_concluded h)) h.records_eq
  | relax => exact .of_eq rfl rfl (.refl _) rfl
  | @record s id r answer before node strategy hbefore hrecord hlearn =>
    obtain ⟨-, hparent, -, hstatus, -⟩ := record?_spec hrecord
    refine .keeps rfl (Tree.created_modifySlot ..) (fun {other n} hn => ?_) (.refl _) rfl
    change (s.tree.modify id fun _ => node).get? other = some n at hn
    rw [Tree.get?_modify] at hn
    split at hn
    · rename_i hid
      obtain ⟨n₀, hn₀, rfl⟩ := Option.map_eq_some_iff.1 hn
      obtain rfl : n₀ = before := Option.some.inj (hn₀.symm.trans (hid ▸ hbefore))
      refine ⟨n₀, hn₀, hparent, record?_depth hrecord, fun hclosed => ?_⟩
      rw [hstatus] at hclosed
      cases hclosed
    · exact ⟨n, hn, rfl, rfl, fun _ => rfl⟩
  | @offer s id r answer callback left node shown proposal callbacks hnode hanswer hsolved =>
    rcases proposal with _ | p
    · exact .of_eq rfl rfl (.refl _) rfl
    · exact .of_eq rfl rfl (.refl _) rfl
  | refuse => exact .of_eq rfl rfl (.refl _) rfl
  | @adopt s stage candidate next tracker pruned frontier h hupdate hprune =>
    exact .of_eq rfl rfl (openIds_adopted h hprune ..) rfl
  | @sweep s stage key doomed node tree released hnode hclose =>
    exact .closes rfl hnode hclose
      (fun other hdivides => absurd hdivides (hcalm (List.cons_ne_nil _ _) other))
      (openIds_swept ..) rfl
  | select => exact .of_eq rfl rfl (.refl _) rfl
  | @spawn s id d change left tree child node hcreate hnode =>
    refine .spawns rfl hcreate ?_ rfl
    have hid : node.id = child := (hc.spawn hcreate hnode).id_eq hnode
    exact hid ▸ openIds_spawned id d change left s tree node
  | @close s id status node tree released hnode hclose hgo =>
    exact .closes rfl hnode hclose (fun other hdivides => hdivides.1) (openIds_closed ..) rfl

/-! ## Every node is open or has a record -/

/-- Every node is open or has a record, and the records follow those of the parents. -/
structure Config.Chronicled (c : Config F σ β κ) : Prop where
  tidy : c.Tidy
  calm : c.Calm
  graded : c.state.tree.Graded
  count_eq : c.state.statistics.created = c.state.tree.created
  perm : (c.state.records.map Record.id ++ c.openIds).Perm (List.range c.state.tree.created)
  /-- A closed node that is still live has a record. -/
  recorded : ∀ {id node}, c.state.tree.get? id = some node → node.status.isClosed = true →
    ∃ record ∈ c.state.records, record.id = id ∧ record.status = node.status ∧
      record.depth = node.depth
  descend : Record.Descend c.state.records

/-- The record of an open node follows those before it. -/
theorem Config.Chronicled.follows {id : NodeId} {node : Node F} (hc : c.Chronicled)
    (hnode : c.state.tree.get? id = some node)
    (hdivides : ∀ other, c.stage.Divides other → other = id) (status : NodeStatus) :
    (E.record node status).Follows c.state.records := by
  have wf := hc.tidy.coherent.wellFormed
  have hid := hc.tidy.coherent.id_eq hnode
  unfold Record.Follows
  show match node.parent with
    | none => node.id = 0 ∧ node.depth = 0
    | some parent => ∃ before ∈ c.state.records, before.id = parent ∧ before.status = .branched ∧
        node.depth = before.depth + 1
  cases hparent : node.parent with
  | none =>
    obtain ⟨hzero, hdepth⟩ := hc.graded.root hnode hparent
    exact ⟨hid.trans hzero, hdepth⟩
  | some p =>
    have hisParent : c.state.tree.IsParent p id := ⟨node, hnode, hparent⟩
    obtain ⟨hlt, parent, hlive⟩ := hisParent.live wf
    -- only a node that is branched on has children, and the closed node is not its own parent
    have hbranched : parent.status = .branched :=
      (hc.tidy.divided hisParent hlive).resolve_right fun hdiv =>
        Nat.ne_of_lt hlt (hdivides p hdiv)
    obtain ⟨before, hmem, hbefore, hstatus, hdepth⟩ :=
      hc.recorded hlive (by rw [hbranched]; rfl)
    exact ⟨before, hmem, hbefore, hstatus.trans hbranched,
      hdepth ▸ hc.graded.child hnode hparent hlive⟩

/-- Between two nodes the frontier has all nodes without a record. -/
theorem Config.Chronicled.perm_idle (hc : (Config.idle s).Chronicled) :
    (s.records.map Record.id ++ s.frontier.keys.map NodeKey.id).Perm
      (List.range s.statistics.created) := by
  have hperm := hc.perm
  rw [← hc.count_eq] at hperm
  simpa only [Config.openIds, Config.waiting, Config.idle, Stage.current?, List.append_nil,
    Option.toList_none] using hperm

theorem Effect.chronicled (h : Effect E c c') (hc : c.Chronicled) (htidy : c'.Tidy)
    (hcalm : c'.Calm) : c'.Chronicled := by
  have wf := hc.tidy.coherent.wellFormed
  cases h with
  | keeps hcount hcreated hget hopen hrecords =>
    refine ⟨htidy, hcalm, hc.graded.of_get? fun hnode => ?_, ?_, ?_, fun hnode hclosed => ?_, ?_⟩
    · obtain ⟨before, hbefore, hparent, hdepth, -⟩ := hget hnode
      exact ⟨before, hbefore, hparent, hdepth⟩
    · rw [hcount, hcreated, hc.count_eq]
    · rw [hrecords, hcreated]
      exact (hopen.append_left _).trans hc.perm
    · obtain ⟨before, hbefore, -, -, hsame⟩ := hget hnode
      obtain rfl := hsame hclosed
      rw [hrecords]
      exact hc.recorded hbefore hclosed
    · rw [hrecords]
      exact hc.descend
  | @closes id node status _ hcount hnode hclose hdivides hopen hrecords =>
    have hget := fun {other n} (h : c'.state.tree.get? other = some n) =>
      Tree.get?_of_close wf hc.tidy.coherent.settled hclose h
    have hcreated := (Tree.close_spec wf hc.tidy.coherent.settled hclose).created_eq
    refine ⟨htidy, hcalm, hc.graded.of_get? fun hn => ?_, ?_, ?_, fun {other n} hn hclosed => ?_,
      ?_⟩
    · obtain ⟨before, hbefore, rfl⟩ := hget hn
      refine ⟨before, hbefore, ?_⟩
      split
      · exact ⟨Tree.finish_parent .., Tree.finish_depth ..⟩
      · exact ⟨rfl, rfl⟩
    · rw [hcount, hcreated, hc.count_eq]
    · rw [hrecords, hcreated, List.map_cons, List.cons_append]
      have hid : (E.record node status).id = id := hc.tidy.coherent.id_eq hnode
      rw [hid]
      exact (List.perm_middle.symm.trans (hopen.symm.append_left _)).trans hc.perm
    · obtain ⟨before, hbefore, rfl⟩ := hget hn
      rw [hrecords]
      by_cases hid : other = id
      · subst hid
        obtain rfl : before = node := Option.some.inj (hbefore.symm.trans hnode)
        rw [if_pos rfl, Tree.finish_status, Tree.finish_depth]
        exact ⟨E.record before status, List.mem_cons_self, hc.tidy.coherent.id_eq hnode, rfl, rfl⟩
      · rw [if_neg hid] at hclosed ⊢
        obtain ⟨record, hmem, hrest⟩ := hc.recorded hbefore hclosed
        exact ⟨record, List.mem_cons_of_mem _ hmem, hrest⟩
    · rw [hrecords]
      exact ⟨hc.follows hnode hdivides status, hc.descend⟩
  | @spawns id child change hcount hcreate hopen hrecords =>
    obtain ⟨slot, hslot, hchild, htree⟩ := Tree.createChild_eq hcreate
    have hget := Tree.get?_createChild hcreate (Tree.get?_of_slot? hslot)
    have hcreated : c'.state.tree.created = c.state.tree.created + 1 := by
      rw [htree, Tree.created_insert, Tree.created_modifySlot]
    refine ⟨htidy, hcalm, hc.graded.createChild wf hcreate, ?_, ?_, fun {other n} hn hclosed => ?_,
      ?_⟩
    · rw [hcount, hcreated, hc.count_eq]
    · have hmiddle := (hopen.append_left (c.state.records.map Record.id)).trans List.perm_middle
      rw [hrecords, hcreated, List.range_succ]
      rw [hchild] at hmiddle
      exact hmiddle.trans ((hc.perm.cons _).trans (List.perm_append_singleton _ _).symm)
    · rw [hget] at hn
      rw [hrecords]
      split at hn
      · cases hn
        cases hclosed
      · exact hc.recorded hn hclosed
    · rw [hrecords]
      exact hc.descend

theorem Move.chronicled (h : Move E c c') (hc : c.Chronicled) : c'.Chronicled :=
  (h.effect hc.tidy.coherent hc.calm).chronicled hc (h.tidy hc.tidy) (h.calm hc.calm)

theorem Moves.chronicled (h : Moves E c c') (hc : c.Chronicled) : c'.Chronicled := by
  induction h with
  | refl => exact hc
  | tail _ hmove ih => exact hmove.chronicled ih

/-- At the start the root is the only node, and it is open. -/
theorem Config.chronicled_initial (E : Engine F σ β κ) (relaxation : σ) (strategy : β)
    (callbacks : κ) : (Config.idle (State.initial E relaxation strategy callbacks)).Chronicled := by
  have hget : ∀ {id node}, (State.initial E relaxation strategy callbacks).tree.get? id = some node →
      id = 0 ∧ node = Node.root 0 := fun h => eq_root_of_initial E relaxation strategy callbacks h
  refine ⟨Config.tidy_initial E relaxation strategy callbacks, fun h => absurd rfl h, ⟨?_, ?_⟩, rfl,
    ?_, ?_, trivial⟩
  · intro id node hnode _
    obtain ⟨rfl, rfl⟩ := hget hnode
    exact ⟨rfl, rfl⟩
  · intro id p node parent hnode hparent _
    obtain ⟨rfl, rfl⟩ := hget hnode
    cases hparent
  · simp only [Config.openIds, Config.waiting, Config.idle, List.append_nil, keys_initial]
    exact .refl _
  · intro id node hnode hclosed
    obtain ⟨rfl, rfl⟩ := hget hnode
    cases hclosed

end Search

end Milp
