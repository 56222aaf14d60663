/-
  What is found out about a node is found out once.

  A node that is taken from the frontier is ruled out by the bound of its parent, has an empty
  domain, or gets its relaxation solved, and an event says which.  A node that a new incumbent rules
  out is closed without having been taken.

  * `State.takenIds`, `State.examinedIds`: the nodes that the events name.
  * `Config.Triaged`: no node is taken or examined twice, and what was closed was examined or never
    taken; `Move.triaged`: every move keeps this.
  * `Config.Triaged.unique`: one event says what was found out about a node; `Config.Triaged.fate`:
    which one there is for a node that was closed.
-/
import Milp.Proofs.Chronicle

namespace Milp.Search

variable {F σ β κ : Type}

/-- The node that was taken from the frontier. -/
def Event.taken? : Event F → Option NodeId
  | .taken key => some key.id
  | _ => none

/-- The node about which it was found out that its relaxation need not be solved, or whose relaxation
    was solved. -/
def Event.examined? : Event F → Option NodeId
  | .dominated id _ | .emptyDomain id _ | .solved id _ => some id
  | _ => none

theorem Event.unexamined_of_isRemark {event : Event F} (h : event.isRemark = true) :
    event.taken? = none ∧ event.examined? = none := by
  cases event <;> first | exact ⟨rfl, rfl⟩ | cases h

namespace State

/-- The nodes that were taken from the frontier, the latest first. -/
def takenIds (s : State F σ β κ) : List NodeId := s.history.filterMap Event.taken?

/-- The nodes that were examined, the latest first. -/
def examinedIds (s : State F σ β κ) : List NodeId := s.history.filterMap Event.examined?

/-- A node whose relaxation was solved was examined. -/
theorem mem_examinedIds_of_solved {s : State F σ β κ} {id : NodeId} (h : id ∈ s.solvedIds) :
    id ∈ s.examinedIds := by
  obtain ⟨event, hevent, hid⟩ := List.mem_filterMap.1 h
  refine List.mem_filterMap.2 ⟨event, hevent, ?_⟩
  cases event <;> cases hid
  rfl

end State

namespace Stage

/-- The current node, before it is examined. -/
def opened? : Stage F κ → Option NodeId
  | opened id => some id
  | _ => none

/-- The current node, once it is examined. -/
def examined? : Stage F κ → Option NodeId
  | opened _ => none
  | stage => stage.current?

end Stage

namespace Config

/-- The numbers of the nodes that wait. -/
def waitingIds (c : Config F σ β κ) : List NodeId := c.waiting.map NodeKey.id

theorem mem_openIds_of_waiting {c : Config F σ β κ} {id : NodeId} (h : id ∈ c.waitingIds) :
    id ∈ c.openIds := List.mem_append_left _ h

theorem mem_openIds_of_current {c : Config F σ β κ} {id : NodeId}
    (h : c.stage.current? = some id) : id ∈ c.openIds :=
  List.mem_append_right _ (Option.mem_toList.2 h)

/-- Nodes are taken once and examined once, and only nodes that were taken are examined. -/
structure Triaged (c : Config F σ β κ) : Prop where
  taken_nodup : (c.state.takenIds ++ c.waitingIds).Nodup
  taken_lt : ∀ id ∈ c.state.takenIds, id < c.state.tree.created
  examined_nodup : c.state.examinedIds.Nodup
  examined_subset : c.state.examinedIds ⊆ c.state.takenIds
  opened : ∀ id, c.stage.opened? = some id → id ∈ c.state.takenIds ∧ id ∉ c.state.examinedIds
  examined : ∀ id, c.stage.examined? = some id → id ∈ c.state.examinedIds
  /-- What was closed was examined, or discarded while it was waiting. -/
  recorded : ∀ record ∈ c.state.records, record.id ∈ c.state.examinedIds ∨
    record.id ∉ c.state.takenIds ∧ record.status = .pruned .bound

end Config

/-- A node with a record is not open any more. -/
theorem Config.Chronicled.not_open [Extended F] {c : Config F σ β κ} (hc : c.Chronicled)
    {record : Record F} (hrecord : record ∈ c.state.records) : record.id ∉ c.openIds := by
  intro hopen
  have hnodup := hc.perm.nodup_iff.2 List.nodup_range
  exact (List.nodup_append.1 hnodup).2.2 _ (List.mem_map_of_mem hrecord) _ hopen rfl

variable [Extended F] {E : Engine F σ β κ} {c c' : Config F σ β κ} {s : State F σ β κ}

/-- What a decision says about a node says whether that was examined just now. -/
theorem Concludes.examines {stage : Stage F κ} {id : NodeId} {status : NodeStatus}
    {events : List (Event F)} (h : Concludes E s stage id status events) :
    events.filterMap Event.taken? = [] ∧
      (stage.opened? = some id ∧ events.filterMap Event.examined? = [id] ∨
        stage.examined? = some id ∧ events.filterMap Event.examined? = []) := by
  cases h with
  | dominated | emptyDomain => exact ⟨rfl, .inl ⟨rfl, rfl⟩⟩
  | _ => exact ⟨rfl, .inr ⟨rfl, rfl⟩⟩

namespace Config.Triaged

omit [Extended F] in
/-- One event says what was found out about a node. -/
theorem unique (hc : c.Triaged) {e₁ e₂ : Event F} {id : NodeId} (h₁ : e₁ ∈ c.state.history)
    (h₂ : e₂ ∈ c.state.history) (hid₁ : e₁.examined? = some id) (hid₂ : e₂.examined? = some id) :
    e₁ = e₂ := by
  have hnodup : (c.state.history.filterMap Event.examined?).Nodup := hc.examined_nodup
  generalize c.state.history = history at h₁ h₂ hnodup
  induction history with
  | nil => cases h₁
  | cons event history ih =>
    have hmem : ∀ {e}, e ∈ history → e.examined? = some id →
        id ∈ history.filterMap Event.examined? := fun h hid => List.mem_filterMap.2 ⟨_, h, hid⟩
    rcases List.mem_cons.1 h₁ with rfl | h₁' <;> rcases List.mem_cons.1 h₂ with rfl | h₂'
    · rfl
    · rw [List.filterMap_cons_some hid₁] at hnodup
      exact absurd (hmem h₂' hid₂) (List.nodup_cons.1 hnodup).1
    · rw [List.filterMap_cons_some hid₂] at hnodup
      exact absurd (hmem h₁' hid₁) (List.nodup_cons.1 hnodup).1
    · refine ih h₁' h₂' ?_
      exact (hnodup.sublist ((List.sublist_cons_self event history).filterMap _))

omit [Extended F] in
/-- A node about which something else was found out was not solved. -/
theorem not_solved (hc : c.Triaged) {event : Event F} {id : NodeId}
    (hevent : event ∈ c.state.history) (hid : event.examined? = some id)
    (hnone : event.solved? = none) : id ∉ c.state.solvedIds := by
  intro hsolved
  obtain ⟨event', hevent', hid'⟩ := List.mem_filterMap.1 hsolved
  have hexamined : event'.examined? = some id := by
    cases event' <;> cases hid'
    rfl
  rw [hc.unique hevent hevent' hid hexamined] at hnone
  cases hnone.symm.trans hid'

omit [Extended F] in
theorem taken_of_solved (hc : c.Triaged) {id : NodeId} (h : id ∈ c.state.solvedIds) :
    id ∈ c.state.takenIds := hc.examined_subset (State.mem_examinedIds_of_solved h)

omit [Extended F] in
/-- A node that waits was not taken. -/
theorem not_taken (hc : c.Triaged) {id : NodeId} (h : id ∈ c.waitingIds) :
    id ∉ c.state.takenIds := fun htaken =>
  (List.nodup_append.1 hc.taken_nodup).2.2 _ htaken _ h rfl

/-- A node that was taken is closed, or is the current one. -/
theorem closed_or_current (hc : c.Triaged) (hchronicled : c.Chronicled) {id : NodeId}
    (h : id ∈ c.state.takenIds) :
    id ∈ c.state.records.map Record.id ∨ c.stage.current? = some id := by
  have hmem := hchronicled.perm.mem_iff.2 (List.mem_range.2 (hc.taken_lt id h))
  refine (List.mem_append.1 hmem).imp_right fun hopen => Option.mem_toList.1 ?_
  exact (List.mem_append.1 hopen).resolve_left fun hwaits => hc.not_taken hwaits h

omit [Extended F] in
/-- What was found out about a closed node, if it was taken. -/
theorem fate (hc : c.Triaged) {record : Record F} (h : record ∈ c.state.records) :
    record.id ∈ c.state.solvedIds ∨ (∃ bound, .dominated record.id bound ∈ c.state.history) ∨
      (∃ var, .emptyDomain record.id var ∈ c.state.history) ∨
      record.id ∉ c.state.takenIds ∧ record.status = .pruned .bound := by
  rcases hc.recorded record h with hexamined | huntaken
  · obtain ⟨event, hevent, hid⟩ := List.mem_filterMap.1 hexamined
    cases event <;> cases hid
    · exact .inr (.inl ⟨_, hevent⟩)
    · exact .inr (.inr (.inl ⟨_, hevent⟩))
    · exact .inl (List.mem_filterMap.2 ⟨_, hevent, rfl⟩)
  · exact .inr (.inr (.inr huntaken))

omit [Extended F] in
/-- Another configuration with the same events about nodes. -/
theorem rearrange (hc : c.Triaged) (htaken : c'.state.takenIds = c.state.takenIds)
    (hexamined : c'.state.examinedIds = c.state.examinedIds)
    (hrecords : c'.state.records = c.state.records)
    (hcreated : c'.state.tree.created = c.state.tree.created)
    (hwaiting : c'.waitingIds.Perm c.waitingIds)
    (hopened : ∀ id, c'.stage.opened? = some id → c.stage.opened? = some id)
    (hstage : ∀ id, c'.stage.examined? = some id → c.stage.examined? = some id) : c'.Triaged where
  taken_nodup := by
    rw [htaken]
    exact (hwaiting.append_left _).nodup_iff.2 hc.taken_nodup
  taken_lt := by
    rw [htaken, hcreated]
    exact hc.taken_lt
  examined_nodup := hexamined ▸ hc.examined_nodup
  examined_subset := by
    rw [htaken, hexamined]
    exact hc.examined_subset
  opened id h := by
    rw [htaken, hexamined]
    exact hc.opened id (hopened id h)
  examined id h := hexamined ▸ hc.examined id (hstage id h)
  recorded := by
    rw [htaken, hexamined, hrecords]
    exact hc.recorded

omit [Extended F] in
/-- The current node is examined. -/
theorem examine {id : NodeId} (hc : c.Triaged) (hid : c.stage.opened? = some id)
    (htaken : c'.state.takenIds = c.state.takenIds)
    (hexamined : c'.state.examinedIds = id :: c.state.examinedIds)
    (hrecords : c'.state.records = c.state.records)
    (hcreated : c'.state.tree.created = c.state.tree.created)
    (hwaiting : c'.waitingIds = c.waitingIds) (hopened : c'.stage.opened? = none)
    (hstage : c'.stage.examined? = some id) : c'.Triaged := by
  obtain ⟨hmem, hnew⟩ := hc.opened id hid
  constructor
  · rw [htaken, hwaiting]
    exact hc.taken_nodup
  · rw [htaken, hcreated]
    exact hc.taken_lt
  · rw [hexamined]
    exact List.nodup_cons.2 ⟨hnew, hc.examined_nodup⟩
  · rw [htaken, hexamined]
    exact List.cons_subset.2 ⟨hmem, hc.examined_subset⟩
  · intro other h
    cases hopened.symm.trans h
  · intro other h
    obtain rfl : id = other := Option.some.inj (hstage.symm.trans h)
    rw [hexamined]
    exact List.mem_cons_self
  · rw [htaken, hexamined, hrecords]
    exact fun record hrecord => (hc.recorded record hrecord).imp_left (List.mem_cons_of_mem _)

/-- A node is taken from the frontier. -/
theorem take {key : NodeKey F} {rest : Frontier F} {node : Node F}
    (hc : Config.Triaged (.idle s)) (hchronicled : Config.Chronicled (.idle s))
    (hpop : s.frontier.pop? = some (key, rest)) (hnode : s.tree.get? key.id = some node) :
    Config.Triaged ⟨.opened key.id, [], s.taken key rest node⟩ := by
  have hkeys : s.frontier.keys.Perm (key :: rest.keys) := Frontier.pop?_keys hpop
  have hids : (Config.waitingIds (.idle s)).Perm (key.id :: rest.keys.map NodeKey.id) := by
    simpa only [Config.waitingIds, Config.waiting, Config.idle, List.append_nil, List.map_cons]
      using hkeys.map NodeKey.id
  have hperm := (hids.append_left s.takenIds).trans List.perm_middle
  have hnodup := hperm.nodup_iff.1 hc.taken_nodup
  have hnew : key.id ∉ s.takenIds := fun hmem =>
    (List.nodup_cons.1 hnodup).1 (List.mem_append_left _ hmem)
  obtain ⟨slot, hslot, -⟩ := Tree.get?_eq_some.1 hnode
  have hwaiting : key.id ∈ Config.waitingIds (.idle s) := hids.mem_iff.2 List.mem_cons_self
  constructor
  · show (key.id :: s.takenIds ++ (rest.keys ++ []).map NodeKey.id).Nodup
    rwa [List.append_nil]
  · exact List.forall_mem_cons.2 ⟨Tree.slot?_lt hslot, hc.taken_lt⟩
  · exact hc.examined_nodup
  · exact List.subset_cons_of_subset _ hc.examined_subset
  · intro id hid
    obtain rfl := Option.some.inj hid
    exact ⟨List.mem_cons_self, fun hmem => hnew (hc.examined_subset hmem)⟩
  · rintro id ⟨⟩
  · intro record hrecord
    refine (hc.recorded record hrecord).imp_right (And.imp_left fun huntaken hmem => ?_)
    -- what was closed does not wait any more
    refine (List.mem_cons.1 hmem).elim (fun heq => ?_) huntaken
    exact hchronicled.not_open hrecord (mem_openIds_of_waiting (heq ▸ hwaiting))

/-- A node is closed: the current one, or one that waits. -/
theorem of_closed {id : NodeId} {node : Node F} {status : NodeStatus} {tree : Tree F}
    (hc : c.Triaged) (hstate : c'.state = c.state.closed E node status tree)
    (hcreated : tree.created = c.state.tree.created) (hid : node.id = id)
    (hwaiting : c'.waitingIds.Sublist c.waitingIds)
    (hopened : ∀ id, c'.stage.opened? = some id → c.stage.opened? = some id)
    (hstage : ∀ id, c'.stage.examined? = some id → c.stage.examined? = some id)
    (hclosed : c.stage.examined? = some id ∨ id ∈ c.waitingIds ∧ status = .pruned .bound) :
    c'.Triaged := by
  have htaken : c'.state.takenIds = c.state.takenIds := by rw [hstate]; rfl
  have hexamined : c'.state.examinedIds = c.state.examinedIds := by rw [hstate]; rfl
  have hrecords : c'.state.records = E.record node status :: c.state.records := by
    rw [hstate]; rfl
  constructor
  · rw [htaken]
    exact hc.taken_nodup.sublist (hwaiting.append_left _)
  · rw [htaken, hstate]
    exact fun other h => Nat.lt_of_lt_of_eq (hc.taken_lt other h) hcreated.symm
  · exact hexamined ▸ hc.examined_nodup
  · rw [htaken, hexamined]
    exact hc.examined_subset
  · intro other h
    rw [htaken, hexamined]
    exact hc.opened other (hopened other h)
  · exact fun other h => hexamined ▸ hc.examined other (hstage other h)
  · rw [htaken, hexamined, hrecords]
    refine List.forall_mem_cons.2 ⟨?_, hc.recorded⟩
    show node.id ∈ _ ∨ node.id ∉ _ ∧ status = .pruned .bound
    rw [hid]
    exact hclosed.imp (hc.examined id) (And.imp_left hc.not_taken)

/-- A child is created. -/
theorem spawn {id child : NodeId} {d : Decision F} {change : BoundChange F}
    {left : List (BoundChange F)} {tree : Tree F} {node : Node F}
    (hc : Config.Triaged ⟨.splitting id d (change :: left), [], s⟩)
    (hcoherent : Config.Coherent ⟨.splitting id d (change :: left), [], s⟩)
    (hcreate : s.tree.createChild id change = .ok (tree, child))
    (hnode : tree.get? child = some node) :
    Config.Triaged ⟨.splitting id d left, [], s.spawned tree node⟩ := by
  obtain ⟨slot, hslot, rfl, htree⟩ := Tree.createChild_eq hcreate
  have hid : node.id = s.tree.created := (hcoherent.spawn hcreate hnode).id_eq hnode
  have hwaiting : (Config.waitingIds ⟨.splitting id d left, [], s.spawned tree node⟩).Perm
      (node.id :: Config.waitingIds ⟨.splitting id d (change :: left), [], s⟩) := by
    simp only [Config.waitingIds, Config.waiting, List.append_nil]
    exact (Frontier.pushNode_keys s.frontier node).map NodeKey.id
  have hcreated : tree.created = s.tree.created + 1 := by
    rw [htree, Tree.created_insert, Tree.created_modifySlot]
  constructor
  · refine ((hwaiting.append_left _).trans List.perm_middle).nodup_iff.2
      (List.nodup_cons.2 ⟨fun hmem => ?_, hc.taken_nodup⟩)
    rw [hid] at hmem
    rcases List.mem_append.1 hmem with htaken | hwaits
    · exact Nat.lt_irrefl _ (hc.taken_lt _ htaken)
    · obtain ⟨n, hn, -⟩ := hcoherent.live (mem_openIds_of_waiting hwaits)
      obtain ⟨q, hq, -⟩ := Tree.get?_eq_some.1 hn
      exact Nat.lt_irrefl _ (Tree.slot?_lt hq)
  · intro other h
    show other < tree.created
    rw [hcreated]
    exact Nat.lt_succ_of_lt (hc.taken_lt other h)
  · exact hc.examined_nodup
  · exact hc.examined_subset
  · rintro _ ⟨⟩
  · exact hc.examined
  · exact hc.recorded

end Config.Triaged

theorem Move.triaged (h : Move E c c') (hchronicled : c.Chronicled) (hc : c.Triaged) :
    c'.Triaged := by
  have hcoherent := hchronicled.tidy.coherent
  cases h with
  | @remark stage doomed s event h =>
    obtain ⟨htaken, hexamined⟩ := Event.unexamined_of_isRemark h
    refine hc.rearrange ?_ ?_ (State.records_logged h) rfl (.refl _) (fun _ h => h)
      (fun _ h => h)
    · simp [State.takenIds, State.logged, htaken]
    · simp [State.examinedIds, State.logged, hexamined]
  | take hpop hnode => exact hc.take hchronicled hpop hnode
  | @conclude s stage id status events h =>
    obtain ⟨htaken, ⟨hid, hexamined⟩ | ⟨hid, hexamined⟩⟩ := h.examines
    · refine hc.examine hid ?_ ?_ h.records_eq rfl rfl rfl rfl
      · simp [State.takenIds, State.concluded, htaken]
      · simp [State.examinedIds, State.concluded, hexamined]
    · refine hc.rearrange ?_ ?_ h.records_eq rfl (.refl _) (by rintro _ ⟨⟩) (fun _ h => h ▸ hid)
      · simp [State.takenIds, State.concluded, htaken]
      · simp [State.examinedIds, State.concluded, hexamined]
  | relax => exact hc.examine rfl rfl rfl rfl rfl rfl rfl rfl
  | record =>
    exact hc.rearrange rfl rfl rfl (Tree.created_modifySlot ..) (.refl _) (by rintro _ ⟨⟩)
      (fun _ h => h)
  | @offer s id r answer callback left node shown proposal callbacks hnode hanswer hsolved =>
    rcases proposal with _ | p
    · exact hc.rearrange rfl rfl rfl rfl (.refl _) (by rintro _ ⟨⟩) (fun _ h => h)
    · exact hc.rearrange rfl rfl rfl rfl (.refl _) (by rintro _ ⟨⟩) (fun _ h => h)
  | refuse | select =>
    exact hc.rearrange rfl rfl rfl rfl (.refl _) (by rintro _ ⟨⟩) (fun _ h => h)
  | @adopt s stage candidate next tracker pruned frontier h hupdate hprune =>
    have hkeys := (Frontier.pruneByBound_keys hprune).trans List.perm_append_comm
    refine hc.rearrange rfl rfl rfl rfl ?_ (fun id hid => ?_) (fun id hid => ?_)
    · simpa only [Config.waitingIds, Config.waiting, State.adopted, List.append_nil]
        using (hkeys.map NodeKey.id).symm
    · cases h <;> cases hid
    · cases h <;> exact hid
  | @sweep s stage key doomed node tree released hnode hclose =>
    refine hc.of_closed rfl (Tree.close_spec hcoherent.wellFormed hcoherent.settled hclose).created_eq
      (hcoherent.id_eq hnode) ?_ (fun _ h => h) (fun _ h => h) (.inr ⟨?_, rfl⟩)
    · exact ((List.sublist_cons_self key doomed).append_left _).map NodeKey.id
    · exact List.mem_map_of_mem (List.mem_append_right _ List.mem_cons_self)
  | spawn hcreate hnode => exact hc.spawn hcoherent hcreate hnode
  | @close s id status node tree released hnode hclose hgo =>
    exact hc.of_closed rfl
      (Tree.close_spec hcoherent.wellFormed hcoherent.settled hclose).created_eq
      (hcoherent.id_eq hnode) (.refl _) (by rintro _ ⟨⟩) (by rintro _ ⟨⟩) (.inl rfl)

/-- At the start no node was taken. -/
theorem Config.triaged_initial (E : Engine F σ β κ) (relaxation : σ) (strategy : β)
    (callbacks : κ) : (Config.idle (State.initial E relaxation strategy callbacks)).Triaged where
  taken_nodup := by
    simp only [Config.waitingIds, Config.waiting, Config.idle, keys_initial]
    exact List.nodup_singleton 0
  taken_lt := by rintro _ ⟨⟩
  examined_nodup := .nil
  examined_subset := List.nil_subset _
  opened := by rintro _ ⟨⟩
  examined := by rintro _ ⟨⟩
  recorded := by rintro _ ⟨⟩

end Milp.Search
