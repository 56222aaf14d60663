/-
  The records that callbacks get tell what became of every node.

  * `Engine.Solved`: what the relaxation of a node was answered.
  * `Config.Answered`: a record has the objective of its own relaxation, and its status is one that
    the answer allows; `Move.answered`: every move keeps this.
  * `Engine.Collects`: something that collects the records that callbacks are told.
  * `State.Recounts`: what a complete trace says.
  * `solve_recounts`: the trace of a search is complete, and it is what was collected.
-/
import Milp.Proofs.Chronicle

namespace Milp

variable {F σ β κ : Type}

theorem Node.objective?_eq_some {node : Node F} {value : F} :
    node.objective? = some value ↔ ∃ x, node.answer = some (.optimal x value) := by
  rw [objective?, Option.bind_eq_some_iff]
  constructor
  · rintro ⟨answer, hanswer, hvalue⟩
    cases answer <;> cases hvalue
    exact ⟨_, hanswer⟩
  · rintro ⟨x, hanswer⟩
    exact ⟨_, hanswer, rfl⟩

/-- A node is branched on or accepted only if its relaxation is optimal, and one that is infeasible,
    unbounded or failed has no objective. -/
def NodeStatus.Suits : NodeStatus → Option F → Prop
  | branched, objective | accepted, objective => objective.isSome = true
  | pruned .infeasible, objective | pruned .unbounded, objective
  | pruned .solverError, objective => objective = none
  | _, _ => True

namespace Search

variable [Extended F] {E : Engine F σ β κ} {c c' : Config F σ β κ} {s : State F σ β κ}

/-! ## Every record has the answer of its own relaxation -/

/-- The relaxation of a node was solved on the way to this history, and this is its answer, after its
    check. -/
def Engine.Solved (E : Engine F σ β κ) (start : State F σ β κ) (history : List (Event F))
    (id : NodeId) (answer : Answer F) : Prop :=
  ∃ s r reply, Moves E (.idle start) ⟨.opened id, [], s⟩ ∧ s.tree.restrictions id = .ok r ∧
    E.relaxation.solve s.relaxation r = .ok reply ∧ answer = reply.answer.check E.problem.vars ∧
    (.solved id reply.notes :: s.history) <:+ history

theorem Engine.Solved.mono {start : State F σ β κ} {history history' : List (Event F)}
    {id : NodeId} {answer : Answer F} (h : E.Solved start history id answer)
    (hhistory : history <:+ history') : E.Solved start history' id answer := by
  obtain ⟨s, r, reply, hmoves, hr, hsolve, hanswer, hsuffix⟩ := h
  exact ⟨s, r, reply, hmoves, hr, hsolve, hanswer, hsuffix.trans hhistory⟩

namespace Stage

/-- An answer that is still to be recorded at the node. -/
def Awaits : Stage F κ → NodeId → Answer F → Prop
  | relaxed id _ answer, other, a => other = id ∧ a = answer
  | _, _, _ => False

/-- Where the decision about the current node calls for an optimal answer, or for none, the node has
    it. -/
def Suits (t : Tree F) : Stage F κ → Prop
  | splitting id .. => ∀ node, t.get? id = some node → node.objective?.isSome = true
  | closing id status => ∀ node, t.get? id = some node → status.Suits node.objective?
  | _ => True

omit [Extended F] in
theorem Awaits.current {stage : Stage F κ} {id : NodeId} {a : Answer F} (h : stage.Awaits id a) :
    stage.current? = some id := by
  cases stage <;> first | exact congrArg some h.1.symm | exact False.elim h

omit [Extended F] in
theorem Suits.of_get? {t t' : Tree F} {stage : Stage F κ} (h : stage.Suits t)
    (hget : ∀ id, stage.current? = some id → t'.get? id = t.get? id) : stage.Suits t' := by
  cases stage with
  | splitting id =>
    intro node hnode
    exact h node ((hget id rfl).symm.trans hnode)
  | closing id =>
    intro node hnode
    exact h node ((hget id rfl).symm.trans hnode)
  | _ => trivial

end Stage

/-- The answers of the relaxation so far, and what the open nodes and the records have of them. -/
structure Config.Answered (E : Engine F σ β κ) (start : State F σ β κ) (c : Config F σ β κ)
    (answers : List (NodeId × Answer F)) : Prop where
  chronicled : c.Chronicled
  reached : Moves E (.idle start) c
  ids_eq : answers.map Prod.fst = c.state.solvedIds
  nodup : (answers.map Prod.fst).Nodup
  lt_created : ∀ {id a}, (id, a) ∈ answers → id < c.state.tree.created
  solved : ∀ {id a}, (id, a) ∈ answers → E.Solved start c.state.history id a
  /-- An open node has its answer, unless that is still to be recorded. -/
  open_iff : ∀ {id node}, id ∈ c.openIds → c.state.tree.get? id = some node →
    ∀ a, (id, a) ∈ answers ↔ node.answer = some a ∨ c.stage.Awaits id a
  suits : c.stage.Suits c.state.tree
  objective_iff : ∀ record ∈ c.state.records, ∀ value, record.objective = some value ↔
    ∃ x, (record.id, .optimal x value) ∈ answers
  record_suits : ∀ record ∈ c.state.records, record.status.Suits record.objective

namespace Config.Answered

variable {start : State F σ β κ} {answers : List (NodeId × Answer F)}

/-- Nothing is known of a node whose relaxation was not solved. -/
theorem not_mem (hc : c.Answered E start answers) {id : NodeId} {node : Node F}
    (hid : id ∈ c.openIds) (hnode : c.state.tree.get? id = some node) (hanswer : node.answer = none)
    (hawaits : ∀ a, ¬ c.stage.Awaits id a) : id ∉ answers.map Prod.fst := by
  intro hmem
  obtain ⟨⟨other, a⟩, ha, rfl⟩ := List.mem_map.1 hmem
  rcases (hc.open_iff hid hnode a).1 ha with h | h
  · rw [hanswer] at h
    cases h
  · exact hawaits a h

/-- Another configuration with the same tree, records and answers. -/
theorem of_eq (hc : c.Answered E start answers) (h : Move E c c')
    (htree : c'.state.tree = c.state.tree) (hrecords : c'.state.records = c.state.records)
    (hsolved : c'.state.solvedIds = c.state.solvedIds)
    (hawaits : ∀ id a, c'.stage.Awaits id a ↔ c.stage.Awaits id a)
    (hsuits : c'.stage.Suits c.state.tree) : c'.Answered E start answers := by
  have hchronicled := h.chronicled hc.chronicled
  have hopen : c'.openIds.Perm c.openIds := by
    have hperm := hchronicled.perm
    rw [hrecords, htree] at hperm
    exact (List.perm_append_left_iff _).1 (hperm.trans hc.chronicled.perm.symm)
  exact {
    chronicled := hchronicled
    reached := hc.reached.tail h
    ids_eq := hc.ids_eq.trans hsolved.symm
    nodup := hc.nodup
    lt_created := htree ▸ hc.lt_created
    solved := fun ha => (hc.solved ha).mono h.history_suffix
    open_iff := fun hid hnode a => by
      rw [hawaits]
      exact hc.open_iff (hopen.mem_iff.1 hid) (htree ▸ hnode) a
    suits := htree ▸ hsuits
    objective_iff := hrecords ▸ hc.objective_iff
    record_suits := hrecords ▸ hc.record_suits }

/-- Closing an open node whose answer was recorded, if any. -/
theorem of_closed {id : NodeId} {node : Node F} {status : NodeStatus} {released : Nat}
    (hc : c.Answered E start answers) (h : Move E c c') (hnode : c.state.tree.get? id = some node)
    (hclose : c.state.tree.close id status = .ok (c'.state.tree, released))
    (hopen : c.openIds.Perm (id :: c'.openIds))
    (hrecords : c'.state.records = E.record node status :: c.state.records)
    (hsolved : c'.state.solvedIds = c.state.solvedIds)
    (hawaits : ∀ other a, c'.stage.Awaits other a ↔ c.stage.Awaits other a)
    (hdone : ∀ a, ¬ c.stage.Awaits id a) (hstatus : status.Suits node.objective?)
    (hsuits : c'.stage.Suits c.state.tree) : c'.Answered E start answers := by
  have hcoherent := hc.chronicled.tidy.coherent
  have hclosed := Tree.close_spec hcoherent.wellFormed hcoherent.settled hclose
  have hkeep := fun {other} (h : other ∈ c'.openIds) =>
    (hcoherent.keep_of_closed hclosed hopen h).1
  have hid : id ∈ c.openIds := hopen.mem_iff.2 List.mem_cons_self
  constructor
  · exact h.chronicled hc.chronicled
  · exact hc.reached.tail h
  · exact hc.ids_eq.trans hsolved.symm
  · exact hc.nodup
  · intro other a ha
    rw [hclosed.created_eq]
    exact hc.lt_created ha
  · exact fun ha => (hc.solved ha).mono h.history_suffix
  · intro other n hother hn a
    rw [hawaits]
    exact hc.open_iff (hopen.mem_iff.2 (List.mem_cons_of_mem _ hother))
      ((hkeep hother).symm.trans hn) a
  · exact hsuits.of_get? fun other hother =>
      hkeep (List.mem_append_right _ (Option.mem_toList.2 hother))
  · rw [hrecords]
    intro record hrecord value
    rcases List.mem_cons.1 hrecord with rfl | hrecord
    · show node.objective? = some value ↔ ∃ x, (node.id, .optimal x value) ∈ answers
      rw [hcoherent.id_eq hnode]
      simp only [hc.open_iff hid hnode, hdone, or_false, Node.objective?_eq_some]
    · exact hc.objective_iff record hrecord value
  · rw [hrecords]
    intro record hrecord
    rcases List.mem_cons.1 hrecord with rfl | hrecord
    · exact hstatus
    · exact hc.record_suits record hrecord

/-- The relaxation of the current node is solved. -/
theorem relax {id : NodeId} {node : Node F} {r : Restrictions F} {reply : Reply F σ}
    (hc : Config.Answered E start ⟨.opened id, [], s⟩ answers)
    (hnode : s.tree.get? id = some node)
    (hbound : s.dominates node E.settings.tolerance = false)
    (hr : s.tree.restrictions id = .ok r)
    (hdomain : r.emptyDomain? E.settings.tolerance = none)
    (hsolve : E.relaxation.solve s.relaxation r = .ok reply) :
    Config.Answered E start ⟨.relaxed id r (reply.answer.check E.problem.vars), [],
        { s with
          relaxation := reply.state
          history := .solved id reply.notes :: s.history }⟩
      ((id, reply.answer.check E.problem.vars) :: answers) := by
  have h := Move.relax hnode hbound hr hdomain hsolve
  have hid : id ∈ Config.openIds ⟨.opened id, [], s⟩ :=
    List.mem_append_right _ (Option.mem_toList.2 rfl)
  obtain ⟨fresh, hfresh, -, hanswer⟩ := hc.chronicled.tidy.coherent.fits
  cases hnode.symm.trans hfresh
  have hnew := hc.not_mem hid hnode hanswer fun _ hawaits => hawaits
  constructor
  · exact h.chronicled hc.chronicled
  · exact hc.reached.tail h
  · exact congrArg (id :: ·) hc.ids_eq
  · exact List.nodup_cons.2 ⟨hnew, hc.nodup⟩
  · intro other a ha
    rcases List.mem_cons.1 ha with heq | ha
    · obtain ⟨slot, hslot, -⟩ := Tree.get?_eq_some.1 hnode
      cases heq
      exact Tree.slot?_lt hslot
    · exact hc.lt_created ha
  · intro other a ha
    rcases List.mem_cons.1 ha with heq | ha
    · cases heq
      exact ⟨s, r, reply, hc.reached, hr, hsolve, rfl, List.suffix_refl _⟩
    · exact (hc.solved ha).mono h.history_suffix
  · intro other n hother hn a
    have hold : (other, a) ∈ answers ↔ n.answer = some a ∨ False := hc.open_iff hother hn a
    rw [List.mem_cons, Prod.mk.injEq, hold, or_false]
    exact or_comm
  · trivial
  · intro record hrecord value
    have hne : record.id ≠ id := by
      rintro rfl
      have hnodup := hc.chronicled.perm.nodup_iff.2 List.nodup_range
      exact (List.nodup_append.1 hnodup).2.2 _ (List.mem_map_of_mem hrecord) _ hid rfl
    have hother : ∀ x, (record.id, Answer.optimal x value) ≠
        (id, reply.answer.check E.problem.vars) := fun x heq => hne (Prod.mk.inj heq).1
    simp only [List.mem_cons, hother, false_or]
    exact hc.objective_iff record hrecord value
  · exact hc.record_suits

/-- The answer is recorded at the current node. -/
theorem record {id : NodeId} {r : Restrictions F} {answer : Answer F} {before node : Node F}
    {strategy : β} (hc : Config.Answered E start ⟨.relaxed id r answer, [], s⟩ answers)
    (hbefore : s.tree.get? id = some before)
    (hrecord : before.record? answer
      (E.sense.normalize (answer.objective?.getD Extended.nan)) = some node)
    (hlearn : E.learned node answer s.strategy = .ok strategy) :
    Config.Answered E start ⟨.consulting id r answer E.callbacks, [],
      { s with tree := s.tree.modify id fun _ => node, strategy }⟩ answers := by
  have h := Move.record (r := r) hbefore hrecord hlearn
  have hid : id ∈ Config.openIds ⟨.relaxed id r answer, [], s⟩ :=
    List.mem_append_right _ (Option.mem_toList.2 rfl)
  obtain ⟨-, fresh, hfresh, -, hnone⟩ := hc.chronicled.tidy.coherent.fits
  cases hbefore.symm.trans hfresh
  obtain ⟨-, -, -, -, hanswer, -⟩ := record?_spec hrecord
  constructor
  · exact h.chronicled hc.chronicled
  · exact hc.reached.tail h
  · exact hc.ids_eq
  · exact hc.nodup
  · intro other a ha
    exact Nat.lt_of_lt_of_eq (hc.lt_created ha) (Tree.created_modifySlot ..).symm
  · exact fun ha => (hc.solved ha).mono h.history_suffix
  · intro other n hother hn a
    change (s.tree.modify id fun _ => node).get? other = some n at hn
    rw [Tree.get?_modify] at hn
    show _ ↔ n.answer = some a ∨ False
    by_cases hsame : id = other
    · subst hsame
      rw [if_pos rfl, hbefore] at hn
      cases hn
      have hawaited : (id, a) ∈ answers ↔ before.answer = some a ∨ id = id ∧ a = answer :=
        hc.open_iff hid hbefore a
      simp only [hawaited, hnone, hanswer, reduceCtorEq, true_and, false_or, Option.some.injEq,
        or_false, eq_comm]
    · rw [if_neg hsame] at hn
      have hother : (other, a) ∈ answers ↔ n.answer = some a ∨ other = id ∧ a = answer :=
        hc.open_iff hother hn a
      simp only [hother, Ne.symm hsame, false_and]
  · trivial
  · exact hc.objective_iff
  · exact hc.record_suits

/-- A child of the current node has no answer yet. -/
theorem spawn {id child : NodeId} {d : Decision F} {change : BoundChange F}
    {left : List (BoundChange F)} {tree : Tree F} {node : Node F}
    (hc : Config.Answered E start ⟨.splitting id d (change :: left), [], s⟩ answers)
    (hcreate : s.tree.createChild id change = .ok (tree, child))
    (hnode : tree.get? child = some node) :
    Config.Answered E start ⟨.splitting id d left, [], s.spawned tree node⟩ answers := by
  have h := (Move.spawn hcreate hnode : Move E ⟨.splitting id d (change :: left), [], s⟩
    ⟨.splitting id d left, [], s.spawned tree node⟩)
  have hcoherent := hc.chronicled.tidy.coherent
  obtain ⟨slot, hslot, rfl, htree⟩ := Tree.createChild_eq hcreate
  have hget := Tree.get?_createChild hcreate (Tree.get?_of_slot? hslot)
  have hid : node.id = s.tree.created := (hcoherent.spawn hcreate hnode).id_eq hnode
  constructor
  · exact h.chronicled hc.chronicled
  · exact hc.reached.tail h
  · exact hc.ids_eq
  · exact hc.nodup
  · intro other a ha
    have hlt : other < s.tree.created := hc.lt_created ha
    show other < tree.created
    rw [htree, Tree.created_insert, Tree.created_modifySlot]
    exact Nat.lt_succ_of_lt hlt
  · exact fun ha => (hc.solved ha).mono h.history_suffix
  · intro other n hother hn a
    change tree.get? other = some n at hn
    rw [hget] at hn
    rcases List.mem_cons.1 ((openIds_spawned id d change left s tree node).mem_iff.1 hother) with
      rfl | hother
    · rw [if_pos hid] at hn
      cases hn
      refine ⟨fun ha => absurd (hc.lt_created ha) ?_, fun h => ?_⟩
      · rw [hid]
        exact Nat.lt_irrefl _
      · exact h.elim (fun h => nomatch h) False.elim
    · obtain ⟨m, hm, -⟩ := hcoherent.live hother
      obtain ⟨q, hq, -⟩ := Tree.get?_eq_some.1 hm
      rw [if_neg (Nat.ne_of_lt (Tree.slot?_lt hq))] at hn
      exact hc.open_iff hother hn a
  · have hsuits : (Stage.splitting id d left : Stage F κ).Suits s.tree := hc.suits
    refine hsuits.of_get? fun other hother => ?_
    obtain rfl : id = other := Option.some.inj hother
    exact (hget id).trans (if_neg (Nat.ne_of_lt (Tree.slot?_lt hslot)))
  · exact hc.objective_iff
  · exact hc.record_suits

end Config.Answered

/-- A decision that calls for an optimal answer is made only for a node that has one. -/
theorem Concludes.suits {stage : Stage F κ} {id : NodeId} {status : NodeStatus}
    {events : List (Event F)} (h : Concludes E s stage id status events)
    (hfits : stage.Fits s.tree) (hsuits : stage.Suits s.tree) :
    (Stage.closing id status : Stage F κ).Suits s.tree := by
  intro node hnode
  cases h with
  | failed | infeasible | unbounded =>
    obtain ⟨-, n, hn, -, hanswer⟩ := hfits
    cases hnode.symm.trans hn
    simp only [NodeStatus.Suits, Node.objective?, hanswer, Option.bind_some, Answer.objective?]
  | branched => exact hsuits node hnode
  | _ => trivial

/-- The node that survives has an objective. -/
theorem Survives.objective? {id : NodeId} {x : List F} {objective : F} {node : Node F}
    (h : Survives E s id x objective) (hnode : s.tree.get? id = some node) :
    node.objective? = some objective := by
  obtain ⟨n, hn, -, hanswer⟩ := h
  cases hnode.symm.trans hn
  exact Node.objective?_eq_some.2 ⟨x, hanswer⟩

/-- Every move keeps answers and records together; a solve adds an answer. -/
theorem Move.answered {start : State F σ β κ} {answers : List (NodeId × Answer F)}
    (h : Move E c c') (hc : c.Answered E start answers) :
    ∃ answers', c'.Answered E start answers' := by
  have hmove := h
  have hsuits := hc.suits
  have hcoherent := hc.chronicled.tidy.coherent
  cases h with
  | @remark stage doomed s event h =>
    refine ⟨answers, hc.of_eq hmove rfl (State.records_logged h) ?_ (fun _ _ => .rfl) hsuits⟩
    simp [State.solvedIds, State.logged, (Event.silent_of_isRemark h).2]
  | take => exact ⟨answers, hc.of_eq hmove rfl rfl rfl (fun _ _ => .rfl) trivial⟩
  | @conclude s stage id status events h =>
    refine ⟨answers, hc.of_eq hmove rfl h.records_eq ?_ (fun other a => ?_)
      (h.suits hcoherent.fits hsuits)⟩
    · simp [State.solvedIds, State.concluded, h.silent.2]
    · cases h <;> exact .rfl
  | relax hnode hbound hr hdomain hsolve => exact ⟨_, hc.relax hnode hbound hr hdomain hsolve⟩
  | record hbefore hrecord hlearn => exact ⟨_, hc.record hbefore hrecord hlearn⟩
  | @offer s id r answer callback left node shown proposal callbacks hnode hanswer hsolved =>
    rcases proposal with _ | p
    · exact ⟨answers, hc.of_eq hmove rfl rfl rfl (fun _ _ => .rfl) trivial⟩
    · exact ⟨answers, hc.of_eq hmove rfl rfl rfl (fun _ _ => .rfl) trivial⟩
  | refuse => exact ⟨answers, hc.of_eq hmove rfl rfl rfl (fun _ _ => .rfl) trivial⟩
  | adopt h =>
    refine ⟨answers, hc.of_eq hmove rfl rfl rfl (fun _ _ => ?_) ?_⟩
    · cases h <;> exact .rfl
    · cases h with
      | proposed => trivial
      | accepted h =>
        intro node hnode
        show node.objective?.isSome = true
        rw [h.objective? hnode, Option.isSome_some]
  | @sweep s stage key doomed node tree released hnode hclose =>
    have hopen := openIds_swept E stage key doomed s node tree
    refine ⟨answers, hc.of_closed hmove hnode hclose hopen rfl rfl (fun _ _ => .rfl)
      (fun a hawaits => ?_) trivial hsuits⟩
    -- the node is not the current one, which comes later among the open nodes
    refine (List.nodup_cons.1 (hopen.nodup_iff.1 hcoherent.nodup)).1 ?_
    exact List.mem_append_right _ (Option.mem_toList.2 hawaits.current)
  | select h =>
    refine ⟨answers, hc.of_eq hmove rfl rfl rfl (fun _ _ => .rfl) fun node hnode => ?_⟩
    rw [h.objective? hnode, Option.isSome_some]
  | spawn hcreate hnode => exact ⟨_, hc.spawn hcreate hnode⟩
  | close hnode hclose hgo =>
    exact ⟨answers, hc.of_closed hmove hnode hclose (openIds_closed ..) rfl rfl (fun _ _ => .rfl)
      (fun _ hawaits => hawaits) (hsuits _ hnode) trivial⟩

theorem Moves.answered {start : State F σ β κ} {answers : List (NodeId × Answer F)}
    (h : Moves E c c') (hc : c.Answered E start answers) :
    ∃ answers', c'.Answered E start answers' := by
  induction h with
  | refl => exact ⟨answers, hc⟩
  | tail _ hmove ih =>
    obtain ⟨_, hanswered⟩ := ih
    exact hmove.answered hanswered

theorem Config.answered_initial (E : Engine F σ β κ) (relaxation : σ) (strategy : β)
    (callbacks : κ) : (Config.idle (State.initial E relaxation strategy callbacks)).Answered E
      (State.initial E relaxation strategy callbacks) [] where
  chronicled := Config.chronicled_initial E relaxation strategy callbacks
  reached := .refl
  ids_eq := rfl
  nodup := .nil
  lt_created := fun h => nomatch h
  solved := fun h => nomatch h
  open_iff := by
    intro id node _ hnode a
    obtain ⟨-, rfl⟩ := eq_root_of_initial E relaxation strategy callbacks hnode
    simp [Config.idle, Stage.Awaits, Node.root]
  suits := trivial
  objective_iff := fun _ h => nomatch h
  record_suits := fun _ h => nomatch h

/-! ## The records reach the callbacks -/

/-- Something among the callbacks collects the records it is told, and no callback touches them
    otherwise. -/
structure Engine.Collects (E : Engine F σ β κ) (collected : κ → List (Record F)) : Prop where
  notify : ∀ record k, collected (E.callbacks.notify record k) = collected k ++ [record]
  onSolved : ∀ callback ∈ E.callbacks, ∀ {view candidates k proposal k'},
    callback.onSolved view candidates k = .ok (proposal, k') → collected k' = collected k

/-- What was collected is the trace. -/
theorem Move.collected {start : σ} {collected : κ → List (Record F)} {before : List (Record F)}
    (h : Move E c c') (hcollects : E.Collects collected) (htraced : c.Traced E start)
    (hc : collected c.state.callbacks = before ++ c.state.trace) :
    collected c'.state.callbacks = before ++ c'.state.trace := by
  have hsame : c'.state.records = c.state.records →
      collected c'.state.callbacks = collected c.state.callbacks →
      collected c'.state.callbacks = before ++ c'.state.trace := by
    intro hrecords hcallbacks
    rw [hcallbacks, hc, State.trace, State.trace, hrecords]
  have hclosed : ∀ {s : State F σ β κ} {node status tree},
      collected s.callbacks = before ++ s.trace →
      collected (s.closed E node status tree).callbacks =
        before ++ (s.closed E node status tree).trace := by
    intro s node status tree hs
    show collected (E.callbacks.notify (E.record node status) s.callbacks) =
      before ++ (E.record node status :: s.records).reverse
    rw [hcollects.notify, hs, List.reverse_cons, List.append_assoc]
    rfl
  cases h with
  | @remark stage doomed s event h =>
    exact hsame (State.records_logged h) rfl
  | conclude h => exact hsame h.records_eq rfl
  | @offer s id r answer callback left node shown proposal callbacks hnode hanswer hsolved =>
    obtain ⟨-, hleft⟩ := htraced.stage
    exact hsame rfl (hcollects.onSolved callback (List.cons_subset.1 hleft).1 hsolved)
  | sweep | close => exact hclosed hc
  | _ => exact hsame rfl rfl

theorem Moves.collected {start : σ} {collected : κ → List (Record F)} {before : List (Record F)}
    (h : Moves E c c') (hcollects : E.Collects collected) (htraced : c.Traced E start)
    (hc : collected c.state.callbacks = before ++ c.state.trace) :
    collected c'.state.callbacks = before ++ c'.state.trace := by
  induction h with
  | refl => exact hc
  | tail hmoves hmove ih => exact hmove.collected hcollects (Moves.traced hmoves htraced) ih

/-! ## The trace of a search -/

/-- The trace tells what became of every node. -/
structure State.Recounts (s : State F σ β κ) (E : Engine F σ β κ) (start : State F σ β κ)
    (answers : List (NodeId × Answer F)) : Prop where
  /-- No node is closed twice. -/
  nodup : (s.trace.map Record.id).Nodup
  /-- The closed nodes are those created that are not in the frontier. -/
  mem_iff : ∀ id, id ∈ s.trace.map Record.id ↔
    id < s.statistics.created ∧ id ∉ s.frontier.keys.map NodeKey.id
  /-- Every record but that of the root comes after that of its parent, which was branched on. -/
  follows : ∀ {earlier record later}, s.trace = earlier ++ record :: later →
    record.Follows earlier
  /-- Relaxations are solved once, for the nodes that the events name. -/
  ids_eq : answers.map Prod.fst = s.solvedIds
  solved_nodup : (answers.map Prod.fst).Nodup
  solved : ∀ {id a}, (id, a) ∈ answers → E.Solved start s.history id a
  /-- A record has an objective exactly if the relaxation of its node is optimal. -/
  objective_iff : ∀ record ∈ s.trace, ∀ value, record.objective = some value ↔
    ∃ x, (record.id, .optimal x value) ∈ answers
  suits : ∀ record ∈ s.trace, record.status.Suits record.objective

/-- Between two nodes the trace is complete. -/
theorem Config.Answered.recounts {start : State F σ β κ} {answers : List (NodeId × Answer F)}
    (hc : (Config.idle s).Answered E start answers) : s.Recounts E start answers := by
  have hperm : (s.trace.map Record.id ++ s.frontier.keys.map NodeKey.id).Perm
      (List.range s.statistics.created) := by
    rw [State.trace, List.map_reverse]
    exact ((List.reverse_perm _).append_right _).trans hc.chronicled.perm_idle
  obtain ⟨hnodup, -, hdisjoint⟩ := List.nodup_append.1 (hperm.nodup_iff.2 List.nodup_range)
  have hmem : ∀ {record}, record ∈ s.trace ↔ record ∈ s.records := List.mem_reverse
  constructor
  · exact hnodup
  · intro id
    rw [← List.mem_range, ← hperm.mem_iff, List.mem_append]
    constructor
    · exact fun hid => ⟨.inl hid, fun hkey => hdisjoint id hid id hkey rfl⟩
    · exact fun ⟨hid, hkey⟩ => hid.resolve_right hkey
  · intro earlier record later htrace
    have hdescend := hc.chronicled.descend
    have hrecords : s.records = later.reverse ++ record :: earlier.reverse := by
      rw [← List.reverse_reverse s.records]
      show s.trace.reverse = _
      rw [htrace, List.reverse_append, List.reverse_cons, List.append_assoc]
      rfl
    rw [show (Config.idle s).state.records = s.records from rfl, hrecords] at hdescend
    exact hdescend.follows.of_mem fun _ h => List.mem_reverse.1 h
  · exact hc.ids_eq
  · exact hc.nodup
  · exact hc.solved
  · exact fun record hrecord => hc.objective_iff record (hmem.1 hrecord)
  · exact fun record hrecord => hc.record_suits record (hmem.1 hrecord)

/-- Summing up closes no node. -/
theorem State.Recounts.of_summary {start s' : State F σ β κ} {answers : List (NodeId × Answer F)}
    {status : SearchStatus} {solution : Solution F} (h : s.Recounts E start answers)
    (hsummary : Summary E s s' status solution) : s'.Recounts E start answers := by
  obtain rfl := hsummary.final_eq
  exact {
    nodup := h.nodup
    mem_iff := h.mem_iff
    follows := h.follows
    ids_eq := h.ids_eq
    solved_nodup := h.solved_nodup
    solved := fun ha => (h.solved ha).mono (List.suffix_cons _ _)
    objective_iff := h.objective_iff
    suits := h.suits }

/-- **The trace is complete.**  However a search ends that does not fail, the records that its
    callbacks were given tell what became of every node. -/
theorem solve_recounts {steps : Nat} {start : σ} {strategy : β} {callbacks : κ}
    {outcome : Option (Solution F)}
    (h : (solve E steps).run (State.initial E start strategy callbacks) = .ok outcome s) :
    (∀ collected, E.Collects collected →
      collected s.callbacks = collected callbacks ++ s.trace) ∧
    ∃ answers, s.Recounts E (State.initial E start strategy callbacks) answers := by
  obtain ⟨s₁, hmoves, hend⟩ := solve_ok h
  have hcollected : ∀ collected, E.Collects collected →
      collected s₁.callbacks = collected callbacks ++ s₁.trace := fun collected hcollects =>
    Moves.collected hmoves hcollects (traced_initial E start strategy callbacks)
      (List.append_nil _).symm
  obtain ⟨answers, hanswered⟩ :=
    Moves.answered hmoves (Config.answered_initial E start strategy callbacks)
  have hrecounts := hanswered.recounts
  rcases hend with ⟨-, rfl⟩ | ⟨status, solution, -, hsummary⟩
  · exact ⟨hcollected, answers, hrecounts⟩
  · refine ⟨?_, answers, hrecounts.of_summary hsummary⟩
    obtain rfl := hsummary.final_eq
    exact hcollected

/-- A callback that keeps all records. -/
def recorder : Callback F (List (Record F)) where
  name := "recorder"
  onSolved := fun _ _ records => .ok (none, records)
  onClosed := fun record records => records ++ [record]

/-- The search for the least whole number of the segment, with all records kept. -/
def recordedSegment : Engine Exact Unit Unit (List (Record Exact)) where
  problem := segmentSearch.problem
  candidates := segmentSearch.candidates
  settings := segmentSearch.settings
  relaxation := segmentSearch.relaxation
  strategy := segmentSearch.strategy
  callbacks := [recorder]
  clock := segmentSearch.clock

theorem recordedSegment_collects : recordedSegment.Collects id where
  notify := fun _ _ => rfl
  onSolved := by
    intro callback hcallback view candidates k proposal k' hsolved
    obtain rfl := List.mem_singleton.1 hcallback
    cases hsolved
    rfl

/-- The root of the segment is branched on, then its upper child is accepted. -/
theorem solve_recounts_segment : ∃ solution s,
    (solve recordedSegment 3).run (State.initial recordedSegment () () []) =
      .ok (some solution) s ∧
    s.callbacks.map (fun record => (record.id, record.parent, record.status)) =
      [(0, none, .branched), (1, some 0, .accepted)] ∧
    s.callbacks = s.trace ∧
    ∃ answers, s.Recounts recordedSegment (State.initial recordedSegment () () []) answers := by
  have hrun : read? (fun solution s => (solution.isSome,
        s.callbacks.map fun record => (record.id, record.parent, record.status)))
      ((solve recordedSegment 3).run (State.initial recordedSegment () () [])) =
        some (true, [(0, none, .branched), (1, some 0, .accepted)]) := by
    decide +kernel
  obtain ⟨outcome, s, hsolve, hread⟩ := read?_eq_some hrun
  simp only [Prod.mk.injEq, Option.isSome_iff_exists] at hread
  obtain ⟨⟨solution, rfl⟩, hrecords⟩ := hread
  obtain ⟨hcollected, hrecounts⟩ := solve_recounts hsolve
  exact ⟨solution, s, hsolve, hrecords, hcollected id recordedSegment_collects, hrecounts⟩

end Search

end Milp
