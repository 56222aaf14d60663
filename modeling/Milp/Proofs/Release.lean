/-
  Whatever is created and closed, the tree holds exactly the nodes that are still needed.

  * `Tree.Releases`: what a release does, one node after the other; `Tree.releases`: and it does so.
  * `Tree.releaseWith`: to release with another way of counting down.  A counter never stands at zero
    when it is counted down, so what would happen there does not matter (`Releases.eq_releaseWith`).
  * `Tree.Call`, `Call.run`: the calls that change a tree, made in place; `run_createChild` and
    `run_close` say that they come to the same, so one that is refused changes nothing.
  * `Log`: the calls made and what came of them, the latest first.  It tells which node is a child of
    which (`Log.IsChild`), and which were closed (`Log.IsClosed`).
  * `Tree.Matches`: what ties a tree to its log; `Matches.make`: every call keeps it.
  * `Tree.makeAll_accurate`: after any calls a node is live if and only if it, or a node below it, was
    not closed; counters and sizes are exact, and so is the number of nodes that a call releases.
-/
import Milp.Proofs.Tree
import Milp.Scalar.Exact
import Mathlib.Logic.Relation

namespace Milp.Tree

variable {F : Type} {t t' : Tree F} {id other : NodeId} {status : NodeStatus} {count : Nat}

/-! ## Sizes -/

theorem size_insert (t : Tree F) (node : Node F) : (t.insert node).size = t.size + 1 := by
  simp [size, insert]

theorem size_modifySlot (t : Tree F) (id : NodeId) (f : Slot F → Slot F) :
    (t.modifySlot id f).size = t.size :=
  countP_modify_of_eq fun a _ => by rcases a with _ | s <;> rfl

theorem size_detach {s : Slot F} (h : t.slot? id = some s) (parent : Option NodeId) :
    (t.detach id parent).size + 1 = t.size := by
  have hdrop := countP_modify Option.isSome (fun _ => none) (slot?_eq_some.1 h)
  have hsize : (t.detach id parent).size =
      (t.slots.modify id fun _ => none).countP Option.isSome := by
    rcases parent with _ | p
    · rfl
    · exact size_modifySlot _ _ _
  rw [hsize]
  simpa [size] using hdrop

theorem released_detach (t : Tree F) (id : NodeId) (parent : Option NodeId) :
    (t.detach id parent).released = t.released + 1 := by
  rcases parent with _ | p <;> rfl

/-- The nodes that are live in one tree and not in another. -/
def leavers (t t' : Tree F) : List NodeId :=
  (List.range t.created).filter fun id => (t.get? id).isSome && (t'.get? id).isNone

theorem size_eq_countP (t : Tree F) :
    t.size = (List.range t.created).countP fun id => (t.get? id).isSome := by
  have hlist : t.slots.toList = (List.range t.created).map t.slot? := by
    refine List.ext_getElem? fun i => ?_
    rw [List.getElem?_map, Array.getElem?_toList]
    by_cases hi : i < t.slots.size
    · simp [hi, created, slot?]
    · simp [hi, created]
  rw [size, ← Array.countP_toList, hlist, List.countP_map]
  refine List.countP_congr fun id _ => ?_
  simp [get?]

theorem length_leavers (hcreated : t'.created = t.created)
    (hof : ∀ {id node}, t'.get? id = some node → ∃ before, t.get? id = some before) :
    t'.size + (t.leavers t').length = t.size := by
  rw [size_eq_countP, size_eq_countP, hcreated, leavers, ← List.countP_eq_length_filter]
  induction List.range t.created with
  | nil => rfl
  | cons id ids ih =>
    simp only [List.countP_cons]
    rcases hid' : t'.get? id with _ | node
    · rcases hid : t.get? id with _ | before <;> simp <;> omega
    · obtain ⟨before, hbefore⟩ := hof hid'
      simp [hbefore]
      omega

/-! ## One node after the other -/

/-- Releasing a node, and then its ancestors as far as they are not needed either. -/
inductive Releases : Tree F → NodeId → Tree F → Nat → Prop where
  | stop {t : Tree F} {id : NodeId} (h : ∀ s, t.slot? id = some s →
      ¬ (s.liveChildren = 0 ∧ s.node.status.isClosed = true)) : Releases t id t 0
  | last {t : Tree F} {id : NodeId} {s : Slot F} (hs : t.slot? id = some s)
      (h : s.liveChildren = 0 ∧ s.node.status.isClosed = true) (hp : s.node.parent = none) :
      Releases t id (t.detach id none) 1
  | next {t t' : Tree F} {id p : NodeId} {s : Slot F} {count : Nat} (hs : t.slot? id = some s)
      (h : s.liveChildren = 0 ∧ s.node.status.isClosed = true) (hp : s.node.parent = some p)
      (hrest : Releases (t.detach id (some p)) p t' count) : Releases t id t' (count + 1)

/-- In a well-formed tree a release goes up from node to node. -/
theorem releases (t : Tree F) (id : NodeId) (wf : t.WellFormed) :
    Releases t id (t.release id).1 (t.release id).2 := by
  induction id using Nat.strongRecOn generalizing t with
  | _ id ih =>
    rw [release]
    rcases hs : t.slot? id with _ | s
    · exact .stop fun s h => by rw [hs] at h; cases h
    by_cases h : s.liveChildren = 0 ∧ s.node.status.isClosed = true
    · simp only [h, decide_true, Bool.and_self, if_true]
      rcases hp : s.node.parent with _ | p
      · exact .last hs h hp
      · have hlt : p < id := wf.parent_lt hs hp
        simp only [hlt, if_true]
        exact .next hs h hp (ih p hlt _ (hp ▸ wf.detach hs h.1))
    · simp only [Bool.and_eq_true, decide_eq_true_eq, h, if_false]
      refine .stop fun s' hs' => ?_
      obtain rfl : s = s' := Option.some.inj (hs.symm.trans hs')
      exact h

/-- As many nodes leave the tree as are counted. -/
theorem Releases.size_add (h : Releases t id t' count) : t'.size + count = t.size := by
  induction h with
  | stop => rfl
  | last hs => exact size_detach hs none
  | next hs _ _ _ ih =>
    rw [← size_detach hs (some _), ← ih]
    rfl

theorem Releases.released_eq (h : Releases t id t' count) :
    t'.released = t.released + count := by
  induction h with
  | stop => rfl
  | last => exact released_detach _ _ _
  | next _ _ _ _ ih =>
    rw [ih, released_detach]
    omega

/-! ## Counting down -/

/-- Release with another way of counting down.  `Tree.release` takes one away, and leaves zero. -/
def releaseWith (lower : Nat → Nat) (t : Tree F) (id : NodeId) : Tree F × Nat :=
  match t.slot? id with
  | none => (t, 0)
  | some s =>
    if s.liveChildren = 0 && s.node.status.isClosed then
      let t : Tree F := ⟨t.slots.modify id fun _ => none, t.released + 1⟩
      match s.node.parent with
      | none => (t, 1)
      | some parent =>
        let t := t.modifySlot parent fun p => { p with liveChildren := lower p.liveChildren }
        if parent < id then
          let (t, others) := releaseWith lower t parent
          (t, others + 1)
        else (t, 1)
    else (t, 0)
termination_by id

/-- Two changes that agree on the slot that is there. -/
theorem modifySlot_congr {f g : Slot F → Slot F} (h : ∀ s, t.slot? id = some s → f s = g s) :
    t.modifySlot id f = t.modifySlot id g := by
  have hslots : t.slots.modify id (Option.map f) = t.slots.modify id (Option.map g) := by
    refine Array.ext_getElem? fun j => ?_
    rw [Array.getElem?_modify, Array.getElem?_modify]
    split
    · rename_i hid
      subst hid
      rcases hj : t.slots[id]? with _ | _ | s
      · rfl
      · rfl
      · simp [h s (slot?_eq_some.2 hj)]
    · rfl
  rw [modifySlot, hslots]
  rfl

/-- Two changes of one node, made one after the other. -/
theorem modify_modify (t : Tree F) (id : NodeId) (f g : Node F → Node F) :
    (t.modify id f).modify id g = t.modify id (g ∘ f) := by
  have hslots : ∀ i : Nat,
      ((t.modify id f).modify id g).slots[i]? = (t.modify id (g ∘ f)).slots[i]? := by
    intro i
    simp only [modify, modifySlot, Array.getElem?_modify]
    split
    · rw [Option.map_map, Option.map_comp_map]
      rfl
    · rfl
  exact congrArg (Tree.mk · t.released) (Array.ext_getElem? hslots)

/-- The parent of a live node counts at least one child, so it can be counted down. -/
theorem modifySlot_lower {lower : Nat → Nat} (hlower : ∀ n, lower (n + 1) = n)
    (wf : t.WellFormed) {s : Slot F} {p : NodeId} (hs : t.slot? id = some s)
    (hp : s.node.parent = some p) :
    (⟨t.slots.modify id fun _ => none, t.released + 1⟩ : Tree F).modifySlot p
      (fun q => { q with liveChildren := lower q.liveChildren }) = t.detach id (some p) := by
  refine modifySlot_congr fun q hq => ?_
  have hne : id ≠ p := (Nat.ne_of_lt (wf.parent_lt hs hp)).symm
  have hq : t.slot? p = some q := by
    have hdrop := slot?_detach t id p none
    rw [if_neg hne, if_neg (by simp)] at hdrop
    exact hdrop ▸ hq
  have hpos : 0 < q.liveChildren := by
    rw [wf.liveChildren_eq hq]
    exact childCount_pos hs hp
  obtain ⟨n, hn⟩ := Nat.exists_eq_succ_of_ne_zero (Nat.ne_of_gt hpos)
  simp [hn, hlower]

/-- What counting down does at zero never matters. -/
theorem Releases.eq_releaseWith {lower : Nat → Nat} (hlower : ∀ n, lower (n + 1) = n)
    (h : Releases t id t' count) (wf : t.WellFormed) : t.releaseWith lower id = (t', count) := by
  induction h with
  | @stop t id h =>
    rw [releaseWith]
    rcases hs : t.slot? id with _ | s
    · rfl
    · simp only [Bool.and_eq_true, decide_eq_true_eq, h s hs, if_false]
  | @last t id s hs h hp =>
    rw [releaseWith, hs]
    simp only [h, decide_true, Bool.and_self, if_true, hp]
    rfl
  | @next t t' id p s count hs h hp hrest ih =>
    have hlt : p < id := wf.parent_lt hs hp
    have hrec := ih (hp ▸ wf.detach hs h.1)
    rw [releaseWith, hs]
    simp only [h, decide_true, Bool.and_self, if_true, hp, hlt, modifySlot_lower hlower wf hs hp,
      hrec]

/-! ## The log -/

/-- A call that changes a tree. -/
inductive Call (F : Type) where
  | createRoot
  | createChild (parent : NodeId) (change : BoundChange F)
  | close (id : NodeId) (status : NodeStatus)

/-- What came of a call. -/
inductive Outcome where
  | created (id : NodeId)
  | released (count : Nat)
  | refused (error : TreeError)
  deriving DecidableEq, Repr

/-- The calls made and what came of them, the latest first. -/
abbrev Log (F : Type) := List (Call F × Outcome)

namespace Log

/-- The call handed out this number. -/
def IsCreated (log : Log F) (id : NodeId) : Prop := ∃ call, (call, .created id) ∈ log

/-- `id` was created as a child of `parent`. -/
def IsChild (log : Log F) (parent id : NodeId) : Prop :=
  ∃ change, (.createChild parent change, .created id) ∈ log

/-- `other` is `id`, or one of its descendants. -/
def Below (log : Log F) : NodeId → NodeId → Prop := Relation.ReflTransGen log.IsChild

def IsClosed (log : Log F) (id : NodeId) : Prop :=
  ∃ status count, (.close id status, .released count) ∈ log

variable {log : Log F} {call : Call F} {outcome : Outcome} {parent : NodeId}

theorem isCreated_cons : IsCreated ((call, outcome) :: log) id ↔
    outcome = .created id ∨ log.IsCreated id := by
  simp [IsCreated, exists_or, eq_comm]

theorem isChild_cons : IsChild ((call, outcome) :: log) parent id ↔
    (∃ change, call = .createChild parent change ∧ outcome = .created id) ∨
      log.IsChild parent id := by
  simp [IsChild, exists_or, eq_comm]

theorem isClosed_cons : IsClosed ((call, outcome) :: log) id ↔
    (∃ status count, call = .close id status ∧ outcome = .released count) ∨ log.IsClosed id := by
  simp [IsClosed, exists_or, eq_comm]

theorem IsChild.isCreated (h : log.IsChild parent id) : log.IsCreated id := ⟨_, h.choose_spec⟩

end Log

/-! ## Trees and their logs -/

/-- The tree is what its log makes of it. -/
structure Matches (t : Tree F) (log : Log F) : Prop where
  wellFormed : t.WellFormed
  settled : t.Settled
  created_iff : ∀ id, log.IsCreated id ↔ id < t.created
  parent_iff : ∀ {id node}, t.get? id = some node → ∀ p, node.parent = some p ↔ log.IsChild p id
  closed_iff : ∀ {id node}, t.get? id = some node →
    (node.status.isClosed = true ↔ log.IsClosed id)
  closed_lt : ∀ id, log.IsClosed id → id < t.created
  closed_of_gone : ∀ id, id < t.created → t.get? id = none → log.IsClosed id
  size_add : t.size + t.released = t.created

theorem matches_empty : (empty : Tree F).Matches [] := by
  have hget : ∀ {id node}, (empty : Tree F).get? id = some node → False := by
    simp [empty, get?, slot?]
  have hslot : ∀ {id s}, (empty : Tree F).slot? id = some s → False := by simp [empty, slot?]
  exact {
    wellFormed := .empty
    settled := fun id s hs => (hslot hs).elim
    created_iff := by simp [Log.IsCreated, empty, created]
    parent_iff := fun hnode => (hget hnode).elim
    closed_iff := fun hnode => (hget hnode).elim
    closed_lt := by simp [Log.IsClosed]
    closed_of_gone := by simp [empty, created]
    size_add := rfl }

variable {log : Log F}

theorem Matches.refuse (h : t.Matches log) (call : Call F) (error : TreeError) :
    t.Matches ((call, .refused error) :: log) where
  wellFormed := h.wellFormed
  settled := h.settled
  created_iff id := by simpa [Log.isCreated_cons] using h.created_iff id
  parent_iff hnode p := by simpa [Log.isChild_cons] using h.parent_iff hnode p
  closed_iff hnode := by simpa [Log.isClosed_cons] using h.closed_iff hnode
  closed_lt id := by simpa [Log.isClosed_cons] using h.closed_lt id
  closed_of_gone id := by simpa [Log.isClosed_cons] using h.closed_of_gone id
  size_add := h.size_add

/-- A new node: it is open, and nothing that the log says of the others changes. -/
theorem Matches.create {call : Call F} {node : Node F} (h : t.Matches log)
    (wf : t'.WellFormed) (settled : t'.Settled) (hcreated : t'.created = t.created + 1)
    (hsize : t'.size = t.size + 1) (hreleased : t'.released = t.released)
    (hget : ∀ id, t'.get? id = if id = t.created then some node else t.get? id)
    (hstatus : node.status = .pending)
    (hparent : ∀ p, node.parent = some p ↔ ∃ change, call = .createChild p change) :
    t'.Matches ((call, .created t.created) :: log) := by
  have hlive : ∀ {id n}, t.get? id = some n → id < t.created := by
    intro id n hn
    obtain ⟨s, hs, -⟩ := get?_eq_some.1 hn
    exact slot?_lt hs
  have hclosed : ∀ id, Log.IsClosed ((call, .created t.created) :: log) id ↔ log.IsClosed id := by
    simp [Log.isClosed_cons]
  have hsplit : ∀ {id n}, t'.get? id = some n →
      (id = t.created ∧ n = node) ∨ t.get? id = some n := by
    intro id n hn
    rw [hget] at hn
    split at hn
    · exact .inl ⟨‹_›, (Option.some.inj hn).symm⟩
    · exact .inr hn
  constructor
  · exact wf
  · exact settled
  · intro id
    rw [Log.isCreated_cons, h.created_iff, hcreated, Outcome.created.injEq,
      Nat.lt_succ_iff_lt_or_eq, or_comm, eq_comm]
  · intro id n hn p
    rw [Log.isChild_cons]
    rcases hsplit hn with ⟨rfl, rfl⟩ | hn
    · have hnew : ¬ log.IsChild p t.created := fun hchild =>
        Nat.lt_irrefl _ ((h.created_iff _).1 hchild.isCreated)
      simp [hparent p, hnew]
    · have hne : t.created ≠ id := (Nat.ne_of_lt (hlive hn)).symm
      simp [hne, h.parent_iff hn p]
  · intro id n hn
    rw [hclosed]
    rcases hsplit hn with ⟨rfl, rfl⟩ | hn
    · have hnew : ¬ log.IsClosed t.created := fun hclosed =>
        Nat.lt_irrefl _ (h.closed_lt _ hclosed)
      simp [hstatus, NodeStatus.isClosed, hnew]
    · exact h.closed_iff hn
  · intro id hid
    rw [hcreated]
    exact Nat.lt_succ_of_lt (h.closed_lt id ((hclosed id).1 hid))
  · intro id hid hnone
    rw [hget] at hnone
    split at hnone
    · cases hnone
    · rw [hcreated] at hid
      have hlt := Nat.lt_of_le_of_ne (Nat.le_of_lt_succ hid) ‹_›
      exact (hclosed id).2 (h.closed_of_gone id hlt hnone)
  · rw [hsize, hreleased, hcreated, ← h.size_add]
    omega

theorem Matches.createChild {parent : NodeId} {change : BoundChange F} (h : t.Matches log)
    (hcreate : t.createChild parent change = .ok (t', id)) :
    t'.Matches ((.createChild parent change, .created id) :: log) := by
  obtain ⟨s, hs, rfl, rfl⟩ := createChild_eq hcreate
  have hget := get?_createChild hcreate (get?_of_slot? hs)
  refine h.create (h.wellFormed.createChild hcreate) (h.settled.createChild hcreate) ?_ ?_ rfl hget
    rfl ?_
  · rw [created_insert, created_modifySlot]
  · rw [size_insert, size_modifySlot]
  · simp [Node.child, h.wellFormed.id_eq hs]

/-- The number that closing a node reports is the number of nodes that it takes away. -/
theorem releases_close (wf : t.WellFormed) (h : t.close id status = .ok (t', count)) :
    Releases (t.modify id (finish status)) id t' count := by
  have hrelease : (t.modify id (finish status)).release id = (t', count) := by
    unfold close at h
    split at h
    · cases h
    · split at h
      · cases h
      · exact Except.ok.inj h
  have hsteps := releases (t.modify id (finish status)) id
    (wf.modify id (fun n _ => finish_id status n) fun n _ => finish_parent status n)
  rwa [hrelease] at hsteps

/-- Closing a node: it is closed if it stays, and only closed nodes leave. -/
theorem Matches.close (h : t.Matches log) (hclose : t.close id status = .ok (t', count)) :
    t'.Matches ((.close id status, .released count) :: log) := by
  have hspec := close_spec h.wellFormed h.settled hclose
  have hstatus := (close_eq hclose).1
  have hsteps := releases_close h.wellFormed hclose
  have hclosed : ∀ other, Log.IsClosed ((.close id status, .released count) :: log) other ↔
      id = other ∨ log.IsClosed other := by
    simp [Log.isClosed_cons]
  constructor
  · exact hspec.wellFormed
  · exact hspec.settled
  · intro other
    simpa [Log.isCreated_cons, hspec.created_eq] using h.created_iff other
  · intro other node hnode p
    obtain ⟨before, hbefore, hparent, -⟩ := hspec.of_get? hnode
    simpa [Log.isChild_cons, hparent] using h.parent_iff hbefore p
  · intro other node hnode
    rw [hclosed]
    obtain ⟨before, hbefore, rfl⟩ := get?_of_close h.wellFormed h.settled hclose hnode
    by_cases hid : other = id
    · simp [hid, finish_status, hstatus]
    · simp [hid, Ne.symm hid, h.closed_iff hbefore]
  · intro other hother
    rw [hspec.created_eq]
    rcases (hclosed other).1 hother with rfl | hother
    · obtain ⟨-, ⟨node, hnode⟩, -⟩ := close_eq hclose
      obtain ⟨s, hs, -⟩ := get?_eq_some.1 hnode
      exact slot?_lt hs
    · exact h.closed_lt other hother
  · intro other hlt hgone
    rw [hspec.created_eq] at hlt
    rw [hclosed]
    by_cases hid : id = other
    · exact .inl hid
    · refine .inr ?_
      rcases hnode : t.get? other with _ | node
      · exact h.closed_of_gone other hlt hnode
      · -- an open node would have stayed
        refine (h.closed_iff hnode).1 (eq_true_of_ne_false fun hopen => ?_)
        cases hgone.symm.trans (hspec.keeps (Ne.symm hid) hnode hopen)
  · have hsize := hsteps.size_add
    have hreleased : t'.released = t.released + count := hsteps.released_eq
    rw [modify, size_modifySlot] at hsize
    rw [hreleased, hspec.created_eq, ← h.size_add, ← hsize]
    omega

/-- The number that closing a node reports is that of the nodes that it takes away. -/
theorem Matches.leavers_close (h : t.Matches log) (hclose : t.close id status = .ok (t', count)) :
    (t.leavers t').length = count ∧ t'.size + count = t.size := by
  have hsteps : t'.size + count = _ := (releases_close h.wellFormed hclose).size_add
  rw [modify, size_modifySlot] at hsteps
  have hspec := close_spec h.wellFormed h.settled hclose
  have hlength := length_leavers hspec.created_eq fun hnode =>
    (hspec.of_get? hnode).imp fun _ hbefore => hbefore.1
  exact ⟨Nat.add_left_cancel (hlength.trans hsteps.symm), hsteps⟩

/-! ## Live nodes -/

/-- A closed node that is live has a child, and at the end of every line of children there is a
    node that was not closed. -/
theorem Matches.exists_open (h : t.Matches log) {node : Node F} (hnode : t.get? id = some node) :
    ∃ other, log.Below id other ∧ ¬ log.IsClosed other := by
  -- children have larger numbers, so the line ends
  induction hn : t.created - id using Nat.strongRecOn generalizing id node with
  | _ n ih =>
    by_cases hclosed : node.status.isClosed = true
    · obtain ⟨child, m, hm, hparent⟩ := exists_isParent h.wellFormed h.settled hnode hclosed
      have hlt := (IsParent.live h.wellFormed ⟨m, hm, hparent⟩).1
      obtain ⟨s, hs, -⟩ := get?_eq_some.1 hm
      have hcreated := slot?_lt hs
      obtain ⟨other, hbelow, hopen⟩ := ih (t.created - child)
        (hn ▸ Nat.sub_lt_sub_left (Nat.lt_trans hlt hcreated) hlt) hm rfl
      exact ⟨other, .head ((h.parent_iff hm id).1 hparent) hbelow, hopen⟩
    · exact ⟨id, .refl, fun hid => hclosed ((h.closed_iff hnode).2 hid)⟩

/-- A node above a live one is live. -/
theorem Matches.live_of_below (h : t.Matches log) (hbelow : log.Below id other) {node : Node F}
    (hnode : t.get? other = some node) : ∃ above, t.get? id = some above := by
  induction hbelow using Relation.ReflTransGen.head_induction_on with
  | refl => exact ⟨node, hnode⟩
  | head hchild _ ih =>
    obtain ⟨m, hm⟩ := ih
    exact (IsParent.live h.wellFormed ⟨m, hm, (h.parent_iff hm _).2 hchild⟩).2

/-- Exactly the nodes are live that were not closed, or have a descendant that was not. -/
theorem Matches.live_iff (h : t.Matches log) : (∃ node, t.get? id = some node) ↔
    log.IsCreated id ∧ ∃ other, log.Below id other ∧ ¬ log.IsClosed other := by
  constructor
  · rintro ⟨node, hnode⟩
    obtain ⟨s, hs, -⟩ := get?_eq_some.1 hnode
    exact ⟨(h.created_iff id).2 (slot?_lt hs), h.exists_open hnode⟩
  · rintro ⟨hcreated, other, hbelow, hopen⟩
    have hother : log.IsCreated other := by
      rcases Relation.ReflTransGen.cases_tail hbelow with rfl | ⟨_, _, hchild⟩
      · exact hcreated
      · exact hchild.isCreated
    rcases hnode : t.get? other with _ | node
    · exact absurd (h.closed_of_gone other ((h.created_iff other).1 hother) hnode) hopen
    · exact h.live_of_below hbelow hnode

/-! ## Any number of calls -/

variable [Extended F]

/-- A call, made step by step on a tree that is changed in place.  What was changed before a call is
    refused stays changed. -/
def Call.run : Call F → EStateM TreeError (Tree F) Outcome
  | createRoot => do
    let id := (← get).created
    modifyThe (Tree F) (·.insert (Node.root id))
    return .created id
  | createChild parent change => do
    let t ← get
    let id := t.created
    let some slot := t.slot? parent | throw (.missing .createChild parent)
    let child := slot.node.child id change
    modifyThe (Tree F) (·.modifySlot parent fun s => { s with liveChildren := s.liveChildren + 1 })
    modifyThe (Tree F) (·.insert child)
    return .created id
  | close id status => do
    if !status.isClosed then throw (.notFinal id status)
    let some _ := (← get).slot? id | throw (.missing .close id)
    modifyThe (Tree F) (·.modify id fun node => { node with status })
    if status = .branched then modifyThe (Tree F) (·.modify id Node.dropPoint)
    let count ← modifyGet fun t => (t.release id).swap
    return .released count

/-- Creating a child in place is creating a child. -/
theorem run_createChild (t : Tree F) (parent : NodeId) (change : BoundChange F) :
    (Call.createChild parent change).run.run t = match t.createChild parent change with
      | .ok (t', id) => .ok (.created id) t'
      | .error error => .error error t := by
  simp only [Call.run, Tree.createChild, get?, EStateM.run_bind, EStateM.run_get]
  cases t.slot? parent <;> rfl

/-- Closing a node in place is closing it. -/
theorem run_close (t : Tree F) (id : NodeId) (status : NodeStatus) :
    (Call.close id status).run.run t = match t.close id status with
      | .ok (t', count) => .ok (.released count) t'
      | .error error => .error error t := by
  simp only [Call.run, Tree.close, get?]
  by_cases hstatus : status.isClosed = true
  · simp only [hstatus, Bool.not_true, Bool.false_eq_true, if_false, EStateM.run_bind,
      EStateM.run_get]
    rcases hslot : t.slot? id with _ | slot
    · rfl
    · by_cases hbranched : status = .branched
      · have hfinish := t.modify_modify id (fun node => { node with status }) Node.dropPoint
        simp only [hbranched, if_true] at hfinish ⊢
        exact congrArg (fun closed : Tree F =>
          EStateM.Result.ok (Outcome.released (closed.release id).2) (closed.release id).1) hfinish
      · simp only [hbranched, if_false]
        rfl
  · simp only [hstatus]
    rfl

/-- Make a call, and tell what came of it. -/
def make (t : Tree F) (call : Call F) : Tree F × Outcome :=
  match call.run.run t with
  | .ok outcome t' => (t', outcome)
  | .error error t' => (t', .refused error)

/-- Make calls on a tree without nodes, and write them down. -/
def makeAll (calls : List (Call F)) : Tree F × Log F :=
  calls.foldl (fun (t, log) call => ((t.make call).1, (call, (t.make call).2) :: log)) (empty, [])

theorem Matches.createRoot (h : t.Matches log) :
    t.createRoot.1.Matches ((.createRoot, .created t.created) :: log) := by
  have hget : ∀ id, t.createRoot.1.get? id =
      if id = t.created then some (Node.root t.created) else t.get? id := by
    intro id
    rw [get?, slot?_createRoot]
    split <;> rfl
  refine h.create h.wellFormed.createRoot ?_ (created_insert ..) (size_insert ..) rfl hget rfl
    (by simp [Node.root])
  · intro id s hs hclosed
    rw [slot?_createRoot] at hs
    split at hs
    · cases hs
      cases hclosed
    · exact h.settled id s hs hclosed

/-- Every call keeps the tree what its log makes of it. -/
theorem Matches.make (h : t.Matches log) (call : Call F) :
    (t.make call).1.Matches ((call, (t.make call).2) :: log) := by
  cases call with
  | createRoot => exact h.createRoot
  | createChild parent change =>
    rw [Tree.make, run_createChild]
    rcases hcreate : t.createChild parent change with error | ⟨t', id⟩
    · exact h.refuse _ error
    · exact h.createChild hcreate
  | close id status =>
    rw [Tree.make, run_close]
    rcases hclose : t.close id status with error | ⟨t', count⟩
    · exact h.refuse _ error
    · exact h.close hclose

theorem matches_makeAll (calls : List (Call F)) : (makeAll calls).1.Matches (makeAll calls).2 := by
  -- the calls that are left are made on a tree that matches its log so far
  suffices hfold : ∀ (r : Tree F × Log F), r.1.Matches r.2 →
      (calls.foldl (fun (t, log) call => ((t.make call).1, (call, (t.make call).2) :: log))
        r).1.Matches
      (calls.foldl (fun (t, log) call => ((t.make call).1, (call, (t.make call).2) :: log)) r).2 from
    hfold _ matches_empty
  induction calls with
  | nil => exact fun r hr => hr
  | cons call calls ih => exact fun r hr => ih _ (hr.make call)

/-- The tree holds exactly the nodes that the calls in its log left needed, and all its numbers are
    exact. -/
structure Accurate (t : Tree F) (log : Log F) : Prop where
  /-- A node is live if it was created, and it or one of its descendants was not closed. -/
  live_iff : ∀ id, (∃ node, t.get? id = some node) ↔
    log.IsCreated id ∧ ∃ other, log.Below id other ∧ ¬ log.IsClosed other
  /-- The parent of a live node is the one that it was created under, -/
  parent_iff : ∀ {id node}, t.get? id = some node → ∀ p, node.parent = some p ↔ log.IsChild p id
  /-- and it is live. -/
  parent_live : ∀ {id node p}, t.get? id = some node → node.parent = some p →
    ∃ parent, t.get? p = some parent
  /-- Every node counts its live children, -/
  counted : ∀ {id n}, t.liveChildren? id = some n → n = t.childCount id
  /-- and is never counted down from zero: it does not matter what would be there. -/
  lowered : ∀ {lower : Nat → Nat}, (∀ n, lower (n + 1) = n) →
    ∀ {id status t' count}, t.close id status = .ok (t', count) →
      (t.modify id (finish status)).releaseWith lower id = (t', count)
  created_iff : ∀ id, log.IsCreated id ↔ id < t.created
  size_eq : t.size = t.created - t.released
  released_le : t.released ≤ t.created
  /-- Closing a node reports how many nodes it takes away, -/
  reported : ∀ {id status t' count}, t.close id status = .ok (t', count) →
    (t.leavers t').length = count ∧ t'.size + count = t.size
  /-- and this is the number that the call leaves in the log. -/
  logged : ∀ {id status count}, (t.make (.close id status)).2 = .released count →
    (t.leavers (t.make (.close id status)).1).length = count ∧
      (t.make (.close id status)).1.size + count = t.size
  /-- A call that is refused changes nothing. -/
  unchanged : ∀ {call : Call F} {error t'}, call.run.run t = .error error t' → t' = t

theorem Call.run_error {call : Call F} {error : TreeError}
    (h : call.run.run t = .error error t') : t' = t := by
  cases call with
  | createRoot => cases h
  | createChild parent change =>
    rw [run_createChild] at h
    rcases hcreate : t.createChild parent change with e | ⟨t'', id⟩ <;>
      rw [hcreate] at h <;> cases h
    rfl
  | close id status =>
    rw [run_close] at h
    rcases hclose : t.close id status with e | ⟨t'', count⟩ <;>
      rw [hclose] at h <;> cases h
    rfl

/-- A call that is told to have released nodes has closed one. -/
theorem close_of_make (h : (t.make (.close id status)).2 = .released count) :
    t.close id status = .ok ((t.make (.close id status)).1, count) := by
  rw [make, run_close] at h ⊢
  rcases hclose : t.close id status with error | ⟨t', released⟩
  · rw [hclose] at h
    cases h
  · rw [hclose] at h
    cases h
    rfl

/-- **Releasing is exact.**  Whatever calls are made, in any order, refused and repeated ones among
    them, the tree is accurate. -/
theorem makeAll_accurate (calls : List (Call F)) :
    (makeAll calls).1.Accurate (makeAll calls).2 := by
  have h := matches_makeAll calls
  have wf := h.wellFormed
  have hsize := h.size_add
  constructor
  · exact fun id => h.live_iff
  · exact h.parent_iff
  · exact fun hnode hp => (IsParent.live wf ⟨_, hnode, hp⟩).2
  · intro id n hn
    obtain ⟨s, hs, rfl⟩ := Option.map_eq_some_iff.1 hn
    exact wf.liveChildren_eq hs
  · intro lower hlower id status t' count hclose
    exact (releases_close wf hclose).eq_releaseWith hlower
      (wf.modify id (fun n _ => finish_id status n) fun n _ => finish_parent status n)
  · exact h.created_iff
  · exact Nat.eq_sub_of_add_eq hsize
  · exact Nat.le.intro ((Nat.add_comm _ _).trans hsize)
  · exact h.leavers_close
  · exact fun hmake => h.leavers_close (close_of_make hmake)
  · exact Call.run_error

/-- A branched root stays for its children, and goes with the second one; the calls in between are
    refused. -/
example :
    let change : BoundChange Exact := ⟨0, ⟨.fin 0, .fin 1⟩, ⟨.fin 0, .fin 0⟩, .fin 0⟩
    (makeAll [.createRoot, .createChild 0 change, .createChild 0 change, .close 0 .branched,
      .close 0 .solved, .close 1 .accepted, .createChild 1 change, .close 1 .accepted,
      .close 2 (.pruned .bound)]).2.map Prod.snd =
    [.released 2, .refused (.missing .close 1), .refused (.missing .createChild 1), .released 1,
      .refused (.notFinal 0 .solved), .released 0, .created 2, .created 1, .created 0] := by
  decide +kernel

end Milp.Tree
