/-
  The domains of the nodes, from the root downwards.

  A change replaces what the changes nearer to the root say of its variable.  The search loses
  nothing by that, since each change is made from the interval that the node itself has: the deepest
  interval of a variable is the intersection of all of them.

  * `Search.Engine.Narrows`: a change of a candidate to an interval inside the one that it has.
  * `Search.Move.narrowing`: with a built-in rule every node but the root has one such change.
  * `Search.Engine.Confines`: what the changes on a path amount to; `Search.Engine.Confines.child`
    adds one more of them.
  * `Search.Engine.Nests`: a node has the domain of its parent, except for one candidate.
  * `Search.solve_nested`: so it is for every node that is live at any time of a search.
-/
import Milp.Proofs.Cover
import Milp.Proofs.Residual

namespace Milp

variable {F : Type}

/-! ## Intervals -/

namespace Interval

variable [Extended F] {i j k : Interval F}

/-- No value of an interval is outside of the other. -/
structure Inside (i j : Interval F) : Prop where
  lower : j.lower ≤ i.lower
  upper : i.upper ≤ j.upper

/-- Two intervals have the same ends, apart from the sign of a zero. -/
def Same (i j : Interval F) : Prop := i.Inside j ∧ j.Inside i

/-- An interval, intersected with what changes set. -/
def meet (i : Interval F) (changes : List (BoundChange F)) : Interval F :=
  changes.foldl (fun i c => i.cut c.new) i

variable [Scalar.Ordered F]

theorem Inside.refl_left (h : i.Inside j) : i.Inside i :=
  ⟨(Scalar.Ordered.refl_of_le h.lower).2, (Scalar.Ordered.refl_of_le h.upper).1⟩

theorem Inside.trans (h : i.Inside j) (h' : j.Inside k) : i.Inside k :=
  ⟨Scalar.Ordered.le_trans h'.lower h.lower, Scalar.Ordered.le_trans h.upper h'.upper⟩

theorem cut_inside_right (hj : j.Inside j) : (i.cut j).Inside j :=
  ⟨Scalar.le_max_right hj.lower, Scalar.min_le_right hj.upper⟩

/-- Cutting an interval down to one inside it leaves that one. -/
theorem Inside.same_cut (h : j.Inside i) : j.Same (i.cut j) := by
  refine ⟨⟨?_, ?_⟩, cut_inside_right h.refl_left⟩
  · exact Scalar.max_le h.lower fun hnumber => hnumber
  · exact Scalar.le_min h.upper fun hnumber => hnumber

/-- The lower half of an interval lies inside it, -/
theorem down_inside (var : Nat) (value : F) (hi : i.Inside i) :
    (BoundChange.down var i value).new.Inside i :=
  ⟨hi.lower, Scalar.min_le_right hi.upper⟩

/-- and so does the upper half. -/
theorem up_inside (var : Nat) (value : F) (hi : i.Inside i) :
    (BoundChange.up var i value).new.Inside i :=
  ⟨Scalar.le_max_right hi.lower, hi.upper⟩

end Interval

/-- The restricted interval of a variable lies inside the one it had. -/
theorem Restrictions.effective_inside_self [Extended F] [Scalar.Ordered F] (r : Restrictions F)
    (var : Nat) {i : Interval F} (hi : i.Inside i) : (r.effective var i).Inside i :=
  ⟨(r.effective_inside var hi.lower hi.upper).1, (r.effective_inside var hi.lower hi.upper).2⟩

/-- No point of a box is outside of the other. -/
def Box.Inside [Extended F] (box outer : Box F) : Prop :=
  ∀ var j, outer.interval var = .ok j → ∃ i, box.interval var = .ok i ∧ i.Inside j

theorem Box.Numbers.inside [Extended F] {box : Box F} (h : box.Numbers) {var : Nat}
    {i : Interval F} (hi : box.interval var = .ok i) : i.Inside i := by
  obtain ⟨hl, hu⟩ := Box.interval_eq_ok.1 hi
  exact ⟨h.lower _ (List.mem_of_getElem? hl), h.upper _ (List.mem_of_getElem? hu)⟩

/-! ## Paths -/

/-- The changes of a variable by the nodes from one up to the root, the deepest change last. -/
def Node.changesOf (nodes : List (Node F)) (var : Nat) : List (BoundChange F) :=
  (nodes.reverse.flatMap Node.changes).filter (·.var = var)

theorem Node.changesOf_cons (node : Node F) (nodes : List (Node F)) (var : Nat) :
    Node.changesOf (node :: nodes) var =
      Node.changesOf nodes var ++ node.changes.filter (·.var = var) := by
  simp [changesOf, List.flatMap_append]

theorem Node.mem_changesOf {nodes : List (Node F)} {var : Nat} {change : BoundChange F} :
    change ∈ Node.changesOf nodes var ↔
      ∃ node ∈ nodes, change ∈ node.changes ∧ change.var = var := by
  simp [changesOf, ← exists_and_right, and_assoc]

namespace Tree

theorem path_root {t : Tree F} {id : NodeId} {node : Node F} (h : t.get? id = some node)
    (hp : node.parent = none) : t.path id = .ok [node] := by
  rw [path, h]
  simp only [hp]

theorem path_child {t : Tree F} {id parent : NodeId} {node : Node F} {nodes : List (Node F)}
    (h : t.get? id = some node) (hp : node.parent = some parent) (hlt : parent < id)
    (hpath : t.path parent = .ok nodes) : t.path id = .ok (node :: nodes) := by
  rw [path, h]
  simp only [hp, hlt, if_true, hpath]
  rfl

/-- Where all nodes are as before, apart from their status, so are the restrictions. -/
theorem restrictions_eq {t t' : Tree F} (wf : t.WellFormed) (wf' : t'.WellFormed)
    (hnodes : ∀ {id n'}, t'.get? id = some n' →
      ∃ n, t.get? id = some n ∧ n'.parent = n.parent ∧ n'.changes = n.changes)
    {id : NodeId} {n' : Node F} (h : t'.get? id = some n') :
    t'.restrictions id = t.restrictions id := by
  obtain ⟨n, hn, -, -⟩ := hnodes h
  refine restrictions_congr wf wf' (fun {j m m'} hm hm' => ?_) hn h
  obtain ⟨m₀, hm₀, hsame⟩ := hnodes hm'
  obtain rfl : m₀ = m := Option.some.inj (hm₀.symm.trans hm)
  exact hsame

end Tree

namespace Search

variable {σ β κ : Type} [Extended F] {E : Engine F σ β κ} {c c' : Config F σ β κ}
  {s : State F σ β κ} {t t' : Tree F} {r : Restrictions F} {change : BoundChange F}

/-! ## Every change narrows -/

/-- A change of a candidate to an interval inside the one that it has. -/
structure Engine.Narrows (E : Engine F σ β κ) (r : Restrictions F) (change : BoundChange F) :
    Prop where
  candidate : change.var ∈ E.candidates
  inside : ∃ i, E.problem.box.interval change.var = .ok i ∧
    change.new.Inside (r.effective change.var i)

/-- A root changes nothing; any other node has one change, which narrows what its parent leaves. -/
def Engine.Descends (E : Engine F σ β κ) (t : Tree F) (node : Node F) : Prop :=
  match node.parent with
  | none => node.changes = []
  | some parent => ∃ change r, node.changes = [change] ∧ t.restrictions parent = .ok r ∧
      E.Narrows r change

/-- The changes of the children that are still to be created narrow what the node leaves. -/
def Stage.Narrowing (E : Engine F σ β κ) (t : Tree F) : Stage F κ → Prop
  | .splitting id _ left => ∃ r, t.restrictions id = .ok r ∧ ∀ change ∈ left, E.Narrows r change
  | _ => True

theorem Stage.Narrowing.of_eq {stage : Stage F κ} (h : stage.Narrowing E t)
    (hr : ∀ id, stage.current? = some id → t'.restrictions id = t.restrictions id) :
    stage.Narrowing E t' := by
  cases stage with
  | splitting id => simpa only [Stage.Narrowing, hr id rfl] using h
  | _ => trivial

/-- All changes narrow, those that were made and those that are still to be made. -/
structure Config.Narrowing (E : Engine F σ β κ) (c : Config F σ β κ) : Prop where
  coherent : c.Coherent
  nodes : ∀ {id node}, c.state.tree.get? id = some node → E.Descends c.state.tree node
  stage : c.stage.Narrowing E c.state.tree

/-- A node descends from where it did, if its parent is restricted as before. -/
theorem Engine.Descends.of_eq {n n' : Node F} (h : E.Descends t n) (hparent : n'.parent = n.parent)
    (hchanges : n'.changes = n.changes)
    (hr : ∀ p, n.parent = some p → t'.restrictions p = t.restrictions p) : E.Descends t' n' := by
  unfold Engine.Descends at h ⊢
  rw [hparent, hchanges]
  rcases hp : n.parent with _ | p
  · simpa only [hp] using h
  · simpa only [hp, hr p hp] using h

omit [Extended F] in
/-- The parent of a live node is live. -/
theorem Config.Coherent.parent_live (hc : c.Coherent) {id p : NodeId} {node : Node F}
    (hnode : c.state.tree.get? id = some node) (hp : node.parent = some p) :
    p < id ∧ ∃ parent, c.state.tree.get? p = some parent := by
  obtain ⟨slot, hslot, rfl⟩ := Tree.get?_eq_some.1 hnode
  obtain ⟨slot', hslot'⟩ := hc.wellFormed.parent_live hslot hp
  exact ⟨hc.wellFormed.parent_lt hslot hp, _, Tree.get?_of_slot? hslot'⟩

/-- Nodes that only get an answer or a status keep their changes. -/
theorem Config.Narrowing.keep (hc : c.Narrowing E) (hc' : c'.Coherent)
    (hnodes : ∀ {id n'}, c'.state.tree.get? id = some n' →
      ∃ n, c.state.tree.get? id = some n ∧ n'.parent = n.parent ∧ n'.changes = n.changes)
    (hstage : c'.stage.Narrowing E c'.state.tree) : c'.Narrowing E := by
  refine ⟨hc', fun {id n'} hn' => ?_, hstage⟩
  obtain ⟨n, hn, hparent, hchanges⟩ := hnodes hn'
  refine (hc.nodes hn).of_eq hparent hchanges fun p hp => ?_
  obtain ⟨-, n'', hn''⟩ := hc'.parent_live hn' (hparent.trans hp)
  exact Tree.restrictions_eq hc.coherent.wellFormed hc'.wellFormed hnodes hn''

/-- The tree stays as it is. -/
theorem Config.Narrowing.rearrange (hc : c.Narrowing E) (hc' : c'.Coherent)
    (htree : c'.state.tree = c.state.tree) (hstage : c'.stage.Narrowing E c.state.tree) :
    c'.Narrowing E :=
  ⟨hc', fun hn => htree ▸ hc.nodes (htree ▸ hn), htree ▸ hstage⟩

/-- Whatever was decided, there are no children left to be created. -/
theorem Adopts.narrowing {stage next : Stage F κ} {candidate : Incumbent F}
    (h : Adopts E s stage candidate next) : next.Narrowing E t := by
  cases h <;> trivial

section Rule

variable [Scalar.Ordered F]

/-- Both halves of an interval lie inside it. -/
theorem Decision.narrows {var : Nat} {value score : F} {i : Interval F}
    (hvar : var ∈ E.candidates) (hi : E.problem.box.interval var = .ok i) (hnumbers : i.Inside i)
    (hchange : change ∈ (Decision.split var value (r.effective var i) score).children) :
    E.Narrows r change := by
  have heffective := (r.effective_inside_self var hnumbers).refl_left
  have hhalf := (List.mem_filter.1 hchange).1
  simp only [List.mem_cons, List.not_mem_nil, or_false] at hhalf
  rcases hhalf with rfl | rfl
  · exact ⟨hvar, i, hi, Interval.down_inside var value heffective⟩
  · exact ⟨hvar, i, hi, Interval.up_inside var value heffective⟩

/-- A built-in rule halves the interval that the variable has at the node. -/
theorem narrows_of_select {strategy strategy' : β} {x : List F} {box : Box F} {d : Decision F}
    (hnumbers : E.problem.box.Numbers) (hstrategy : E.strategy.BuiltIn)
    (hbox : r.applyTo E.problem.box = .ok box)
    (hselect : E.strategy.select strategy (E.query x box) = .ok (some d, strategy')) :
    ∀ change ∈ d.children, E.Narrows r change := by
  obtain ⟨interval, hsplits⟩ := hstrategy.splits hselect
  obtain ⟨i, hi, rfl⟩ := Restrictions.interval_of_applyTo hbox hsplits.box
  intro change hchange
  rw [hsplits.eq] at hchange
  exact Decision.narrows hsplits.mem hi (hnumbers.inside hi) hchange

/-- Every move makes only changes that narrow. -/
theorem Move.narrowing (hnumbers : E.problem.box.Numbers) (hstrategy : E.strategy.BuiltIn)
    (h : Move E c c') (hc : c.Narrowing E) : c'.Narrowing E := by
  have hc' := h.coherent hc.coherent
  cases h with
  | remark | refuse => exact hc.rearrange hc' rfl hc.stage
  | take | conclude | relax => exact hc.rearrange hc' rfl trivial
  | @offer s id r answer callback left node shown proposal callbacks =>
    refine hc.rearrange hc' rfl ?_
    cases proposal <;> trivial
  | adopt h => exact hc.rearrange hc' rfl h.narrowing
  | @record s id r answer before node strategy hbefore hrecord hlearn =>
    obtain ⟨-, hparent, hchanges, -⟩ := record?_spec hrecord
    refine hc.keep hc' (fun {other n'} hn' => ?_) trivial
    simp only [Tree.get?_modify] at hn'
    split at hn'
    · subst_vars
      obtain ⟨n, hn, rfl⟩ := Option.map_eq_some_iff.1 hn'
      obtain rfl : n = before := Option.some.inj (hn.symm.trans hbefore)
      exact ⟨n, hn, hparent, hchanges⟩
    · exact ⟨n', hn', rfl, rfl⟩
  | @sweep s stage key doomed node tree released hnode hclose =>
    have hclosed := Tree.close_spec hc.coherent.wellFormed hc.coherent.settled hclose
    refine hc.keep hc' hclosed.of_get? (hc.stage.of_eq fun other hother => ?_)
    refine (hc.coherent.keep_of_closed hclosed (openIds_swept ..) ?_).2
    exact List.mem_append_right _ (Option.mem_toList.2 hother)
  | close hnode hclose hgo =>
    have hclosed := Tree.close_spec hc.coherent.wellFormed hc.coherent.settled hclose
    exact hc.keep hc' hclosed.of_get? trivial
  | @select s id r answer x objective split restrictions box d strategy h hsplit hne hr hbox
      hselect hvar =>
    exact hc.rearrange hc' rfl ⟨restrictions, hr, narrows_of_select hnumbers hstrategy hbox hselect⟩
  | @spawn s id d change left tree child node hcreate hnode =>
    obtain ⟨r, hr, hleft⟩ := hc.stage
    obtain ⟨hchange, hleft⟩ := List.forall_mem_cons.1 hleft
    obtain ⟨slot, hslot, hchild, -⟩ := Tree.createChild_eq hcreate
    have hlive : s.tree.get? id = some slot.node := Tree.get?_of_slot? hslot
    have hkeep : ∀ {p n}, s.tree.get? p = some n → tree.restrictions p = s.tree.restrictions p :=
      fun hn => (hc.coherent.keep_of_spawned hcreate hn).2
    refine ⟨hc', fun {other n'} hn' => ?_, r, (hkeep hlive).trans hr, hleft⟩
    change tree.get? other = some n' at hn'
    rw [Tree.get?_createChild hcreate hlive] at hn'
    split at hn'
    · obtain rfl := Option.some.inj hn'
      have hid : slot.node.id = id := hc.coherent.wellFormed.id_eq hslot
      exact ⟨change, r, rfl, hid.symm ▸ (hkeep hlive).trans hr, hchange⟩
    · refine (hc.nodes hn').of_eq rfl rfl fun p hp => ?_
      obtain ⟨-, n, hn⟩ := hc.coherent.parent_live hn' hp
      exact hkeep hn

theorem Moves.narrowing (hnumbers : E.problem.box.Numbers) (hstrategy : E.strategy.BuiltIn)
    (h : Moves E c c') (hc : c.Narrowing E) : c'.Narrowing E := by
  induction h with
  | refl => exact hc
  | tail _ hmove ih => exact hmove.narrowing hnumbers hstrategy ih

end Rule

theorem narrowing_initial (E : Engine F σ β κ) (start : σ) (strategy : β) (callbacks : κ) :
    (Config.idle (State.initial E start strategy callbacks)).Narrowing E := by
  refine ⟨Config.coherent_initial E start strategy callbacks, fun {id node} hnode => ?_, trivial⟩
  obtain ⟨-, rfl⟩ := eq_root_of_initial E start strategy callbacks hnode
  rfl

/-! ## What the changes amount to -/

/-- What the changes of the nodes on a path restrict.  The deepest change of a variable counts, and
    its interval is the intersection of all of them with the interval of the program. -/
structure Engine.Confines (E : Engine F σ β κ) (nodes : List (Node F)) (r : Restrictions F) :
    Prop where
  deepest : ∀ var, r.get? var = (Node.changesOf nodes var).getLast?.map BoundChange.new
  candidate : ∀ {var i}, r.get? var = some i → var ∈ E.candidates
  meet : ∀ {var j}, r.get? var = some j → ∃ i, E.problem.box.interval var = .ok i ∧ j.Inside i ∧
    j.Same (i.meet (Node.changesOf nodes var))

/-- The variables that are restricted are those that were branched on. -/
theorem Engine.Confines.restricted {nodes : List (Node F)} (h : E.Confines nodes r) (var : Nat) :
    (∃ i, r.get? var = some i) ↔ ∃ node ∈ nodes, ∃ change ∈ node.changes, change.var = var := by
  rw [← Option.isSome_iff_exists, h.deepest var, Option.isSome_map, List.getLast?_isSome]
  constructor
  · intro hne
    obtain ⟨change, hchange⟩ := List.exists_mem_of_ne_nil _ (by simpa using hne)
    obtain ⟨node, hnode, hmem, hvar⟩ := Node.mem_changesOf.1 hchange
    exact ⟨node, hnode, change, hmem, hvar⟩
  · rintro ⟨node, hnode, change, hmem, hvar⟩
    have hchange := Node.mem_changesOf.2 ⟨node, hnode, hmem, hvar⟩
    simpa using List.ne_nil_of_mem hchange

/-- A root restricts nothing. -/
theorem Engine.Confines.root (E : Engine F σ β κ) {node : Node F} (h : node.changes = []) :
    E.Confines [node] Restrictions.empty where
  deepest var := by simp [Node.changesOf, h]
  candidate hi := by cases hi
  meet hj := by cases hj

section Rule

variable [Scalar.Ordered F]

/-- What a variable has left under the changes on a path is what is left of all of them. -/
theorem Engine.Confines.effective {nodes : List (Node F)} (h : E.Confines nodes r)
    {var : Nat} {i : Interval F} (hi : E.problem.box.interval var = .ok i) (hnumbers : i.Inside i) :
    (r.effective var i).Inside (i.meet (Node.changesOf nodes var)) := by
  unfold Restrictions.effective
  have hdeepest := h.deepest var
  rcases hr : r.get? var with _ | j
  · rw [hr, eq_comm, Option.map_eq_none_iff, List.getLast?_eq_none_iff] at hdeepest
    rw [hdeepest]
    exact hnumbers
  · obtain ⟨i', hi', hinside, hsame⟩ := h.meet hr
    obtain rfl : i' = i := Except.ok.inj (hi'.symm.trans hi)
    exact (Interval.cut_inside_right hinside.refl_left).trans hsame.1

/-- A child restricts one candidate more, or once more. -/
theorem Engine.Confines.child {nodes : List (Node F)} {node : Node F} (h : E.Confines nodes r)
    (hnumbers : E.problem.box.Numbers) (hchange : E.Narrows r change)
    (hnode : node.changes = [change]) :
    E.Confines (node :: nodes) (r.set change.var change.new) := by
  have hchanges : ∀ var, Node.changesOf (node :: nodes) var =
      if change.var = var then Node.changesOf nodes var ++ [change]
      else Node.changesOf nodes var := by
    intro var
    rw [Node.changesOf_cons, hnode]
    split <;> simp [*]
  constructor
  · intro var
    rw [Restrictions.get?_set, hchanges]
    split
    · simp
    · exact h.deepest var
  · intro var j hj
    rw [Restrictions.get?_set] at hj
    split at hj
    · subst_vars
      exact hchange.candidate
    · exact h.candidate hj
  · intro var j hj
    rw [Restrictions.get?_set] at hj
    rw [hchanges]
    split at hj
    · subst_vars
      obtain rfl := Option.some.inj hj
      obtain ⟨i, hi, hinside⟩ := hchange.inside
      have hglobal := hnumbers.inside hi
      refine ⟨i, hi, hinside.trans (r.effective_inside_self _ hglobal), ?_⟩
      rw [if_pos rfl, Interval.meet, List.foldl_append]
      exact (hinside.trans (h.effective hi hglobal)).same_cut
    · rw [if_neg ‹_›]
      exact h.meet hj

/-! ## The domain of a node -/

/-- The path, the restrictions and the bounds of a node. -/
structure Engine.Domain (E : Engine F σ β κ) (t : Tree F) (id : NodeId) (nodes : List (Node F))
    (r : Restrictions F) (box : Box F) : Prop where
  path : t.path id = .ok nodes
  restrictions : t.restrictions id = .ok r
  applied : r.applyTo E.problem.box = .ok box
  confines : E.Confines nodes r
  restricted : ∀ var, (∃ i, r.get? var = some i) ↔
    ∃ node ∈ nodes, ∃ change ∈ node.changes, change.var = var

/-- The root has the bounds of the program.  Any other node has the bounds of its parent, or tighter
    ones, and there is one candidate apart from which they are the same. -/
def Engine.Nests (E : Engine F σ β κ) (t : Tree F) (id : NodeId) (node : Node F) : Prop :=
  ∃ nodes r box, E.Domain t id nodes r box ∧
    match node.parent with
    | none => nodes = [node] ∧ box = E.problem.box
    | some parent => ∃ nodes' r' box', E.Domain t parent nodes' r' box' ∧ nodes = node :: nodes' ∧
        box.Inside box' ∧ ∃ var ∈ E.candidates, ∀ other i, other ≠ var →
          (box.interval other = .ok i ↔ box'.interval other = .ok i)

omit [Scalar.Ordered F] in
/-- Restricting a variable leaves the other ones as they were. -/
theorem interval_of_set {outer box box' : Box F} {var other : Nat} {i j : Interval F}
    (hbox : r.applyTo outer = .ok box) (hbox' : (r.set var j).applyTo outer = .ok box')
    (hne : other ≠ var) : box'.interval other = .ok i ↔ box.interval other = .ok i := by
  have heffective : ∀ i, (r.set var j).effective other i = r.effective other i := by
    intro i
    rw [Restrictions.effective, Restrictions.effective, Restrictions.get?_set, if_neg hne.symm]
  constructor
  · intro hi
    obtain ⟨i₀, hi₀, rfl⟩ := Restrictions.interval_of_applyTo hbox' hi
    rw [heffective]
    exact Restrictions.applyTo_interval hbox hi₀
  · intro hi
    obtain ⟨i₀, hi₀, rfl⟩ := Restrictions.interval_of_applyTo hbox hi
    rw [← heffective]
    exact Restrictions.applyTo_interval hbox' hi₀

/-- A change that narrows leaves no point that was not there before. -/
theorem Engine.Narrows.inside_box {box box' : Box F} (h : E.Narrows r change)
    (hnumbers : E.problem.box.Numbers) (hbox : r.applyTo E.problem.box = .ok box)
    (hbox' : (r.set change.var change.new).applyTo E.problem.box = .ok box') :
    box'.Inside box := by
  intro var j hj
  obtain ⟨i, hi, rfl⟩ := Restrictions.interval_of_applyTo hbox hj
  have heffective := (r.effective_inside_self var (hnumbers.inside hi)).refl_left
  by_cases hvar : var = change.var
  · subst hvar
    obtain ⟨i', hi', hinside⟩ := h.inside
    obtain rfl : i' = i := Except.ok.inj (hi'.symm.trans hi)
    refine ⟨_, Restrictions.applyTo_interval hbox' hi, ?_⟩
    rw [Restrictions.effective, Restrictions.get?_set, if_pos rfl]
    exact (Interval.cut_inside_right hinside.refl_left).trans hinside
  · exact ⟨_, (interval_of_set hbox hbox' hvar).2 hj, heffective⟩

/-- Every live node has the domain of its parent, except for one candidate. -/
theorem Config.Narrowing.nests (hc : c.Narrowing E) (hnumbers : E.problem.box.Numbers)
    (hlength : E.problem.box.upper.length = E.problem.box.lower.length) {id : NodeId}
    {node : Node F} (hnode : c.state.tree.get? id = some node) : E.Nests c.state.tree id node := by
  -- along the path, so that the parent is done
  induction id using Nat.strongRecOn generalizing node with
  | _ id ih =>
    have hdescends := hc.nodes hnode
    rcases hp : node.parent with _ | p
    · simp only [Engine.Descends, hp] at hdescends
      have hr := Tree.restrictions_root hnode hp
      rw [hdescends] at hr
      have hconfines := Engine.Confines.root E hdescends
      refine ⟨[node], _, E.problem.box,
        ⟨Tree.path_root hnode hp, hr, rfl, hconfines, hconfines.restricted⟩, ?_⟩
      simp only [hp, and_self]
    · simp only [Engine.Descends, hp] at hdescends
      obtain ⟨change, r, hchanges, hr, hnarrows⟩ := hdescends
      obtain ⟨hlt, parent, hparent⟩ := hc.coherent.parent_live hnode hp
      obtain ⟨nodes, r', box, hdomain, -⟩ := ih p hlt hparent
      obtain rfl : r' = r := Except.ok.inj (hdomain.restrictions.symm.trans hr)
      obtain ⟨box', hbox'⟩ := (r'.set change.var change.new).applyTo_ok E.problem.box hlength
      have hconfines := hdomain.confines.child hnumbers hnarrows hchanges
      have hrestrictions : c.state.tree.restrictions id = .ok (r'.set change.var change.new) := by
        rw [Tree.restrictions_child hnode hp hlt, hr, hchanges]
        rfl
      refine ⟨node :: nodes, _, box', ⟨Tree.path_child hnode hp hlt hdomain.path, hrestrictions,
        hbox', hconfines, hconfines.restricted⟩, ?_⟩
      simp only [hp]
      exact ⟨nodes, r', box, hdomain, rfl, hnarrows.inside_box hnumbers hdomain.applied hbox',
        change.var, hnarrows.candidate, fun other i hne =>
          interval_of_set hdomain.applied hbox' hne⟩

/-- The domains of a search with a built-in rule are nested: at every time, for every node in the
    tree, and also for the tree that it ends with. -/
theorem solve_nested {P : Program F} (start : σ) (strategy : β) (callbacks : κ)
    (hP : MixedProgram.ofProgram P = .ok E.problem) (hstrategy : E.strategy.BuiltIn) :
    (∀ c, Moves E (.idle (State.initial E start strategy callbacks)) c → ∀ id node,
      c.state.tree.get? id = some node → E.Nests c.state.tree id node) ∧
    ∀ steps outcome s, (solve E steps).run (State.initial E start strategy callbacks) =
      .ok outcome s → ∀ id node, s.tree.get? id = some node → E.Nests s.tree id node := by
  obtain ⟨-, hvalid, hbox⟩ := MixedProgram.ofProgram_eq_ok hP
  have hnumbers := hvalid.numbers_box hbox
  obtain ⟨hlower, hupper⟩ := Program.length_box hbox
  have hnests : ∀ c, Moves E (.idle (State.initial E start strategy callbacks)) c → ∀ id node,
      c.state.tree.get? id = some node → E.Nests c.state.tree id node := by
    intro c hmoves id node hnode
    have hnarrowing := Moves.narrowing hnumbers hstrategy hmoves
      (narrowing_initial E start strategy callbacks)
    exact hnarrowing.nests hnumbers (hupper.trans hlower.symm) hnode
  refine ⟨hnests, fun steps outcome s hsolve id node hnode => ?_⟩
  obtain ⟨s₁, hmoves, ⟨-, rfl⟩ | ⟨status, solution, -, hsummary⟩⟩ := solve_ok hsolve
  · exact hnests _ hmoves id node hnode
  · rw [hsummary.final_eq] at hnode ⊢
    exact hnests _ hmoves id node hnode

end Rule

/-- A relaxation of one variable that has the middle of its interval as its point. -/
def middle : Relaxation Exact Unit where
  name := "middle"
  vars := 1
  solve _ r :=
    let i := r.effective 0 ⟨.fin (1 / 2), .fin 3⟩
    let x := (i.lower + i.upper) / Exact.fin 2
    return ⟨(), .optimal [x] x, []⟩

/-- The search on the segment that splits it in the middle, again and again. -/
def halvedSegment : Engine Exact Unit Unit Unit := { segmentSearch with relaxation := middle }

/-- After two nodes the variable was branched on twice, and the nodes are nested. -/
theorem solve_nested_halves : ∃ s node,
    (solve halvedSegment 2).run (State.initial halvedSegment () () ()) = .ok none s ∧
    s.tree.get? 3 = some node ∧ node.parent = some 1 ∧ halvedSegment.Nests s.tree 3 node := by
  have hrun : read? (fun outcome s => (outcome.isNone, (s.tree.get? 3).map Node.parent))
      ((solve halvedSegment 2).run (State.initial halvedSegment () () ())) =
        some (true, some (some 1)) := by
    decide +kernel
  obtain ⟨outcome, s, hsolve, hread⟩ := read?_eq_some hrun
  obtain ⟨hnone, hmap⟩ := Prod.mk.inj hread
  obtain rfl := Option.isNone_iff_eq_none.1 hnone
  obtain ⟨node, hnode, hparent⟩ := Option.map_eq_some_iff.1 hmap
  exact ⟨s, node, hsolve, hnode, hparent,
    (solve_nested (E := halvedSegment) () () () segment_ok .mostFractional).2 2 none s hsolve 3 node
      hnode⟩

end Search

end Milp
