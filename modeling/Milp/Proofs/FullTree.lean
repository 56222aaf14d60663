/-
  With whole bounds every branching has two children.

  If the bounds of the candidates are whole or infinite, and the points of the relaxation stay inside
  them, a value that is branched on has a whole number on either side.  So both halves are created,
  and their bounds are whole again: no domain is ever empty, and the nodes are those of a full
  binary tree.

  * `Interval.Proper`, `Restrictions.Proper`: intervals in order with whole ends.
  * `Config.parents`: the parents of all nodes, from which children are counted;
    `Effect.parents_perm`, `parents_spawned`: when they change.
  * `fork_of_holds`: a branching inside an interval has two halves, with whole ends.
  * `Config.Forking`: the invariant; `Move.forking`: every move keeps it.
  * `State.Full`: what it comes to between two nodes; `solve_full`: it holds in every search.
-/
import Milp.Proofs.Bound
import Milp.Proofs.Dichotomy
import Milp.Proofs.Nesting
import Milp.Proofs.Span
import Milp.Proofs.Triage

namespace Milp

variable {F σ β κ : Type} [Extended F]

/-! ## Whole regions -/

theorem Interval.Whole.cut {i j : Interval F} (hi : i.Whole) (hj : j.Whole) : (i.cut j).Whole := by
  constructor
  · intro q hq
    rcases Scalar.max_choice i.lower j.lower with h | h <;> rw [Interval.cut, h] at hq
    · exact hi.lower hq
    · exact hj.lower hq
  · intro q hq
    rcases Scalar.min_choice i.upper j.upper with h | h <;> rw [Interval.cut, h] at hq
    · exact hi.upper hq
    · exact hj.upper hq

/-- An interval in order with whole ends. -/
structure Interval.Proper (i : Interval F) : Prop where
  whole : i.Whole
  ordered : i.lower ≤ i.upper

/-- The ends of an interval in order are numbers, so they are infinite if they are not finite. -/
theorem Interval.Proper.ends [Scalar.Ordered F] [Scalar.Faithful F] {i : Interval F}
    (h : i.Proper) : ∀ a ∈ [i.lower, i.upper],
      (∃ z : Int, Scalar.toRat? a = some (z : Rat)) ∨ Scalar.isInfinite a = true := by
  have hend : ∀ {a : F}, a ≤ a → (∀ {q}, Scalar.toRat? a = some q → ∃ z : Int, q = z) →
      (∃ z : Int, Scalar.toRat? a = some (z : Rat)) ∨ Scalar.isInfinite a = true := by
    intro a hnumber hwhole
    by_cases hfinite : Scalar.isFinite a = true
    · obtain ⟨q, hq⟩ := Scalar.Faithful.isFinite_iff.1 hfinite
      obtain ⟨z, rfl⟩ := hwhole hq
      exact .inl ⟨z, hq⟩
    · have hnan : ¬ Scalar.isNaN a = true := fun hnan => Scalar.Ordered.isNaN_iff.1 hnan hnumber
      simp [Scalar.isInfinite, hfinite, hnan]
  obtain ⟨hlower, hupper⟩ := Scalar.Ordered.refl_of_le h.ordered
  simp only [List.forall_mem_cons, List.not_mem_nil, false_imp_iff, implies_true, and_true]
  exact ⟨hend hlower h.whole.lower, hend hupper h.whole.upper⟩

/-- Every restriction is to an interval in order with whole ends. -/
def Restrictions.Proper (r : Restrictions F) : Prop := ∀ var j, r.get? var = some j → j.Proper

namespace Restrictions.Proper

variable {r : Restrictions F} {var : Nat} {i j : Interval F}

theorem set (h : r.Proper) (hj : j.Proper) : (r.set var j).Proper := by
  intro other i hi
  rw [get?_set] at hi
  split at hi
  · exact Option.some.inj hi ▸ hj
  · exact h other i hi

theorem effective (h : r.Proper) (hi : i.Whole) : (r.effective var i).Whole := by
  unfold Restrictions.effective
  split
  · exact hi.cut (h _ _ ‹_›).whole
  · exact hi

/-- No domain is empty, with any tolerance. -/
theorem emptyDomain? [Scalar.Ordered F] [Scalar.Placed F] (h : r.Proper) {t : F}
    (ht : Scalar.isFinite t = true ∧ ¬ t < 0) : r.emptyDomain? t = none := by
  rw [Restrictions.emptyDomain?, Option.map_eq_none_iff, List.find?_eq_none]
  rintro ⟨var, i⟩ hmem
  have hi := (h var i (r.mem_entries.1 hmem)).ordered
  have hmargin := Scalar.Placed.le_add_self (Scalar.Ordered.refl_of_le hi).2 ht.1 ht.2
  simpa using Scalar.not_lt_of_le (Scalar.Ordered.le_trans hi hmargin)

end Restrictions.Proper

/-- The bounds of some variables are whole or infinite. -/
def Box.WholeOn (box : Box F) (vars : List Nat) : Prop :=
  ∀ var ∈ vars, ∀ i, box.interval var = .ok i → i.Whole

/-! ## Forks -/

/-- A node was not closed for an empty domain, and it has two children if it was branched on. -/
structure Record.Forked (record : Record F) (parents : List (Option NodeId)) : Prop where
  proper : record.status ≠ .pruned .emptyDomain
  twins : record.status = .branched → parents.count (some record.id) = 2

namespace Search

variable {E : Engine F σ β κ} {c c' : Config F σ β κ} {s : State F σ β κ} {start : σ}

/-! ## Parents -/

/-- The parent of a live node. -/
def State.parent? (s : State F σ β κ) (id : NodeId) : Option NodeId :=
  (s.tree.get? id).bind Node.parent

/-- The parents of all nodes, closed and open. -/
def Config.parents (c : Config F σ β κ) : List (Option NodeId) :=
  c.state.records.map Record.parent ++ c.openIds.map c.state.parent?

/-- As long as no node is created, the parents stay. -/
theorem Effect.parents_perm (h : Effect E c c') (hc : c.Coherent) (hc' : c'.Coherent)
    (hcreated : c'.state.statistics.created = c.state.statistics.created) :
    c'.parents.Perm c.parents := by
  unfold Config.parents
  cases h with
  | keeps hcount htree hget hopen hrecords =>
    have hsame : ∀ id ∈ c'.openIds, c'.state.parent? id = c.state.parent? id := by
      intro id hid
      obtain ⟨node, hnode, -⟩ := hc'.live hid
      obtain ⟨before, hbefore, hparent, -⟩ := hget hnode
      rw [State.parent?, State.parent?, hnode, hbefore]
      exact hparent
    rw [hrecords, List.map_congr_left hsame]
    exact (hopen.map _).append_left _
  | @closes id node status released hcount hnode hclose hdivides hopen hrecords =>
    have hclosed := Tree.close_spec hc.wellFormed hc.settled hclose
    have hsame : ∀ other ∈ c'.openIds, c'.state.parent? other = c.state.parent? other :=
      fun other hother => congrArg (·.bind Node.parent) (hc.keep_of_closed hclosed hopen hother).1
    have hrecord : (E.record node status).parent = c.state.parent? id := by
      rw [State.parent?, hnode]
      rfl
    rw [hrecords, List.map_cons, hrecord, List.map_congr_left hsame]
    exact List.perm_middle.symm.trans ((hopen.map c.state.parent?).symm.append_left _)
  | spawns hcount => omega

/-- A node that is created has the current node as its parent. -/
theorem parents_spawned {id child : NodeId} {d : Decision F} {change : BoundChange F}
    {left : List (BoundChange F)} {tree : Tree F} {node : Node F}
    (hc : Config.Coherent ⟨.splitting id d (change :: left), [], s⟩)
    (hcreate : s.tree.createChild id change = .ok (tree, child))
    (hnode : tree.get? child = some node) :
    (Config.parents ⟨.splitting id d left, [], s.spawned tree node⟩).Perm
      (some id :: Config.parents ⟨.splitting id d (change :: left), [], s⟩) := by
  have hid : node.id = child := (hc.spawn hcreate hnode).id_eq hnode
  have hnew : (s.spawned tree node).parent? node.id = some id := by
    obtain ⟨slot, hslot, rfl, -⟩ := Tree.createChild_eq hcreate
    rw [State.parent?, hid, show (s.spawned tree node).tree = tree from rfl, hnode]
    rw [Tree.get?_createChild hcreate (Tree.get?_of_slot? hslot), if_pos rfl] at hnode
    rw [← Option.some.inj hnode]
    exact congrArg some (hc.wellFormed.id_eq hslot)
  have hsame : ∀ other ∈ Config.openIds ⟨.splitting id d (change :: left), [], s⟩,
      (s.spawned tree node).parent? other = s.parent? other := by
    intro other hother
    obtain ⟨n, hn, -⟩ := hc.live hother
    exact congrArg (·.bind Node.parent) (hc.keep_of_spawned hcreate hn).1
  have hopen := (openIds_spawned id d change left s tree node).map (s.spawned tree node).parent?
  rw [List.map_cons, hnew, List.map_congr_left hsame] at hopen
  exact (hopen.append_left _).trans List.perm_middle

/-- A node that is open and not being branched on is nobody's parent. -/
theorem Config.Chronicled.not_parent (hc : c.Chronicled) {id : NodeId} (hid : id ∈ c.openIds)
    (hdivides : ¬ c.stage.Divides id) : some id ∉ c.parents := by
  intro hmem
  have hcoherent := hc.tidy.coherent
  rcases List.mem_append.1 hmem with hmem | hmem
  · -- the record of a child comes after that of its parent
    obtain ⟨record, hrecord, hparent⟩ := List.mem_map.1 hmem
    obtain ⟨later, earlier, hsplit⟩ := List.append_of_mem hrecord
    have hfollows : record.Follows earlier := (hsplit ▸ hc.descend).follows
    rw [Record.Follows, hparent] at hfollows
    obtain ⟨before, hbefore, rfl, -⟩ := hfollows
    have hmem : before ∈ c.state.records := by
      rw [hsplit]
      exact List.mem_append_right _ (List.mem_cons_of_mem _ hbefore)
    exact hc.not_open hmem hid
  · obtain ⟨child, -, hparent⟩ := List.mem_map.1 hmem
    obtain ⟨node, hnode, hp⟩ := Option.bind_eq_some_iff.1 hparent
    obtain ⟨n, hn, hstatus⟩ := hcoherent.live hid
    rcases hc.tidy.divided ⟨node, hnode, hp⟩ hn with hbranched | hdiv
    · rw [hbranched] at hstatus
      cases hstatus
    · exact hdivides hdiv

/-! ## Two children -/

/-- What is under way at the current node: it has two halves, those that are not created yet are in
    order and have whole ends; and a node that is to be closed does not have an empty domain, and
    has two children if it was branched on. -/
def Stage.Forks (parents : List (Option NodeId)) : Stage F κ → Prop
  | splitting id d left => d.children.length = 2 ∧ parents.count (some id) + left.length = 2 ∧
      ∀ change ∈ left, change.new.Proper
  | closing id status => status ≠ .pruned .emptyDomain ∧
      (status = .branched → parents.count (some id) = 2)
  | _ => True

/-- How many children of the current node were created while it is not counted as branched. -/
def Stage.born : Stage F κ → Nat
  | splitting _ _ left => 2 - left.length
  | _ => 0

theorem Stage.Forks.of_perm {stage : Stage F κ} {parents parents' : List (Option NodeId)}
    (h : stage.Forks parents) (hperm : parents'.Perm parents) : stage.Forks parents' := by
  cases stage with
  | splitting | closing => simpa only [Stage.Forks, hperm.count_eq] using h
  | _ => trivial

/-- The open nodes have intervals in order with whole ends, and the closed ones two children if they
    were branched on. -/
structure Config.Forking (c : Config F σ β κ) : Prop where
  regions : ∀ {id r}, id ∈ c.openIds → c.state.tree.restrictions id = .ok r → r.Proper
  stage : c.stage.Forks c.parents
  created_eq : c.state.statistics.created = 1 + 2 * c.state.statistics.branched + c.stage.born
  records : ∀ record ∈ c.state.records, record.Forked c.parents

/-- A move keeps the restrictions of open nodes proper. -/
theorem Move.regions (h : Move E c c') (hcoherent : c.Coherent) (hc : c.Forking) {id : NodeId}
    {r : Restrictions F} (hid : id ∈ c'.openIds) (hr : c'.state.tree.restrictions id = .ok r) :
    r.Proper := by
  rcases h.region hcoherent hid with ⟨hopen, hsame⟩ |
    ⟨-, parent, d, change, left, r', hstage, hr', hset⟩
  · exact hc.regions hopen (hsame ▸ hr)
  · cases hset.symm.trans hr
    have hparent : parent ∈ c.openIds := Config.mem_openIds_of_current (hstage ▸ rfl)
    have hforks := hc.stage
    rw [hstage] at hforks
    exact (hc.regions hparent hr').set (hforks.2.2 change List.mem_cons_self)

/-- A move that creates no node keeps the tree full, if it closes only nodes that are forked. -/
theorem Config.Forking.of_keeps (hc : c.Forking) (h : Move E c c') (hchronicled : c.Chronicled)
    (hcreated : c'.state.statistics.created = c.state.statistics.created)
    (hbranched : 2 * c'.state.statistics.branched + c'.stage.born =
      2 * c.state.statistics.branched + c.stage.born)
    (hstage : c'.stage.Forks c.parents)
    (hrecords : ∀ record ∈ c'.state.records, record ∈ c.state.records ∨ record.Forked c.parents) :
    c'.Forking := by
  have hcoherent := hchronicled.tidy.coherent
  have hperm := (h.effect hcoherent hchronicled.calm).parents_perm hcoherent
    (h.coherent hcoherent) hcreated
  refine ⟨h.regions hcoherent hc, hstage.of_perm hperm, ?_, fun record hrecord => ?_⟩
  · have hbefore := hc.created_eq
    omega
  · obtain ⟨hproper, htwins⟩ := (hrecords record hrecord).elim (hc.records record) id
    exact ⟨hproper, hperm.count_eq (some record.id) ▸ htwins⟩

section Full

variable [Scalar.Ordered F] [Scalar.Placed F] [Scalar.Faithful F]

/-- A candidate that is branched on inside its interval has two halves, with whole ends. -/
theorem fork_of_holds {r : Restrictions F} {x : List F} {box : Box F} {d : Decision F}
    {interval : Interval F} (hwhole : E.problem.box.WholeOn E.candidates) (hr : r.Proper)
    (hbox : r.applyTo E.problem.box = .ok box) (hx : x.all Scalar.isFinite = true)
    (hholds : E.Holds r x) (hsplits : (E.query x box).Splits d interval) :
    d.children.length = 2 ∧ ∀ change ∈ d.children, change.new.Proper := by
  obtain ⟨hlower, hupper⟩ :=
    hholds box hbox d.var hsplits.mem d.value interval hsplits.value hsplits.box
  obtain ⟨i, hi, rfl⟩ := Restrictions.interval_of_applyTo hbox hsplits.box
  obtain ⟨v, hv⟩ := Scalar.Faithful.isFinite_iff.1
    (List.all_eq_true.1 hx _ (List.mem_of_getElem? hsplits.value))
  have hhas : (r.effective d.var i).Has (.fin v) := by
    rw [← Scalar.exact_of_toRat? hv]
    exact ⟨Scalar.Placed.le_iff.1 hlower, Scalar.Placed.le_iff.1 hupper⟩
  have heffective : (r.effective d.var i).Whole := hr.effective (hwhole d.var hsplits.mem i hi)
  rw [hsplits.eq]
  refine ⟨?_, fun change hchange => ?_⟩
  · rw [Decision.children_split hv hhas heffective]
    rfl
  · obtain ⟨hends, hordered⟩ := Decision.whole_of_mem_children hv hhas heffective hchange
    exact ⟨hends, hordered⟩

omit [Scalar.Faithful F] in
/-- No decision is that a domain is empty, and a node that is branched on has two children. -/
theorem Config.Forking.concludes {stage : Stage F κ} {id : NodeId} {status : NodeStatus}
    {events : List (Event F)} (hE : E.Checked) (hc : Config.Forking ⟨stage, [], s⟩)
    (h : Concludes E s stage id status events) :
    (Stage.closing id status : Stage F κ).Forks (Config.parents ⟨stage, [], s⟩) ∧
      2 * (s.statistics.count status).branched = 2 * s.statistics.branched + stage.born := by
  have hstage := hc.stage
  cases h with
  | emptyDomain hr hempty =>
    have hproper := hc.regions (Config.mem_openIds_of_current rfl) hr
    rw [hproper.emptyDomain? hE.settings.tolerance] at hempty
    cases hempty
  | barren hnone =>
    have htwo := hstage.1
    rw [hnone] at htwo
    cases htwo
  | branched =>
    exact ⟨⟨nofun, fun _ => hstage.2.1⟩, rfl⟩
  | _ => exact ⟨⟨nofun, nofun⟩, rfl⟩

theorem Move.forking (hE : E.Checked) (hstrategy : E.strategy.BuiltIn)
    (hwhole : E.problem.box.WholeOn E.candidates) (hinside : E.StaysInside start)
    (htraced : c.Traced E start) (hchronicled : c.Chronicled) (h : Move E c c')
    (hc : c.Forking) : c'.Forking := by
  have hmove := h
  have hcoherent := hchronicled.tidy.coherent
  cases h with
  | @remark stage doomed s event h =>
    refine hc.of_keeps hmove hchronicled rfl rfl hc.stage fun record hrecord => .inl ?_
    rwa [show (s.logged event).records = s.records from State.records_logged h] at hrecord
  | take | relax | record | refuse =>
    exact hc.of_keeps hmove hchronicled rfl rfl trivial fun record hrecord => .inl hrecord
  | @offer s id r answer callback left node shown proposal callbacks =>
    rcases proposal with _ | p
    · exact hc.of_keeps hmove hchronicled rfl rfl trivial fun record hrecord => .inl hrecord
    · exact hc.of_keeps hmove hchronicled rfl rfl trivial fun record hrecord => .inl hrecord
  | @conclude s stage id status events h =>
    obtain ⟨hforks, hcount⟩ := hc.concludes hE h
    refine hc.of_keeps hmove hchronicled (Statistics.count_created ..) hcount hforks
      fun record hrecord => .inl ?_
    exact h.records_eq ▸ hrecord
  | @adopt s stage candidate next tracker pruned frontier h hupdate hprune =>
    refine hc.of_keeps hmove hchronicled rfl ?_ ?_ fun record hrecord => .inl hrecord
    · cases h <;> rfl
    · cases h with
      | proposed => trivial
      | accepted => exact ⟨nofun, nofun⟩
  | sweep =>
    refine hc.of_keeps hmove hchronicled rfl rfl hc.stage fun record hrecord => ?_
    refine (List.mem_cons.1 hrecord).symm.imp_right ?_
    rintro rfl
    exact ⟨nofun, nofun⟩
  | @select s id r answer x objective split r' box d strategy h hsplit hne hr hbox hselect hvar =>
    obtain ⟨rfl, hr'⟩ := hcoherent.survives h
    cases hr.symm.trans hr'
    obtain ⟨interval, hsplits⟩ := hstrategy.splits hselect
    have hid : id ∈ Config.openIds ⟨.consulting id r (.optimal x objective) [], [], s⟩ :=
      Config.mem_openIds_of_current rfl
    have hanswers := htraced.stage.1
    obtain ⟨htwo, hproper⟩ := fork_of_holds hwhole (hc.regions hid hr) hbox hanswers.finite.2.2
      (hinside.holds hanswers) hsplits
    refine hc.of_keeps hmove hchronicled rfl ?_ ⟨htwo, ?_, hproper⟩
      fun record hrecord => .inl hrecord
    · rw [Stage.born, htwo]
      rfl
    · rw [List.count_eq_zero_of_not_mem (hchronicled.not_parent hid fun h => h), htwo]
  | @spawn s id d change left tree child node hcreate hnode =>
    obtain ⟨htwo, hcount, hproper⟩ := hc.stage
    have hcreated := hc.created_eq
    have hparents := parents_spawned hcoherent hcreate hnode
    have hopen : id ∈ Config.openIds ⟨.splitting id d (change :: left), [], s⟩ :=
      Config.mem_openIds_of_current rfl
    rw [List.length_cons] at hcount
    refine ⟨hmove.regions hcoherent hc, ⟨htwo, ?_, ?_⟩, ?_, fun record hrecord => ?_⟩
    · rw [hparents.count_eq, List.count_cons_self]
      omega
    · exact fun other hother => hproper other (List.mem_cons_of_mem _ hother)
    · simp only [Stage.born, List.length_cons] at hcreated ⊢
      change s.statistics.created + 1 = 1 + 2 * s.statistics.branched + _
      omega
    · -- the current node has no record yet
      have hother : id ≠ record.id := fun heq => hchronicled.not_open hrecord (heq ▸ hopen)
      obtain ⟨hnotEmpty, htwins⟩ := hc.records record hrecord
      refine ⟨hnotEmpty, fun hbranched => ?_⟩
      rw [hparents.count_eq, List.count_cons_of_ne (fun heq => hother (Option.some.inj heq))]
      exact htwins hbranched
  | @close s id status node tree released hnode =>
    obtain ⟨hnotEmpty, htwins⟩ := hc.stage
    refine hc.of_keeps hmove hchronicled rfl rfl trivial fun record hrecord => ?_
    refine (List.mem_cons.1 hrecord).symm.imp_right ?_
    rintro rfl
    refine ⟨hnotEmpty, fun hbranched => ?_⟩
    rw [show (E.record node status).id = id from hcoherent.id_eq hnode]
    exact htwins hbranched

end Full

/-! ## Whole searches -/

/-- At the start there is the root, which restricts nothing. -/
theorem Config.forking_initial (E : Engine F σ β κ) (start : σ) (strategy : β) (callbacks : κ) :
    (Config.idle (State.initial E start strategy callbacks)).Forking where
  regions {id r} hid hr := by
    have hkeys := keys_initial E start strategy callbacks
    simp only [openIds, waiting, Config.idle, Stage.current?, Option.toList_none,
      List.append_nil, hkeys] at hid
    obtain rfl := List.mem_singleton.1 hid
    cases (restrictions_initial E start strategy callbacks).symm.trans hr
    intro var j hj
    cases hj
  stage := trivial
  created_eq := rfl
  records _ hrecord := absurd hrecord List.not_mem_nil

/-- Between two nodes the search tree is full: each candidate has, at every node that waits, an
    interval in order whose ends are whole or infinite; no node was closed for an empty domain, and
    every node that was branched on has two children, the parents of all nodes being listed. -/
structure State.Full (s : State F σ β κ) (E : Engine F σ β κ) : Prop where
  domains : ∀ key ∈ s.frontier.keys, ∃ r box, s.tree.restrictions key.id = .ok r ∧
    r.applyTo E.problem.box = .ok box ∧ ∀ var ∈ E.candidates, ∃ i, box.interval var = .ok i ∧
      i.lower ≤ i.upper ∧ ∀ a ∈ [i.lower, i.upper],
        (∃ z : Int, Scalar.toRat? a = some (z : Rat)) ∨ Scalar.isInfinite a = true
  length_parents : (Config.idle s).parents.length = s.statistics.created
  records : ∀ record ∈ s.trace, record.Forked (Config.idle s).parents
  created_eq : s.statistics.created = 1 + 2 * s.statistics.branched

section Full

variable [Scalar.Ordered F] [Scalar.Placed F] [Scalar.Faithful F]

theorem Moves.forking {strategy : β} {callbacks : κ} (hE : E.Checked)
    (hstrategy : E.strategy.BuiltIn) (hwhole : E.problem.box.WholeOn E.candidates)
    (hinside : E.StaysInside start)
    (h : Moves E (.idle (State.initial E start strategy callbacks)) c) : c.Forking := by
  induction h with
  | refl => exact Config.forking_initial E start strategy callbacks
  | tail hmoves hmove ih =>
    exact hmove.forking hE hstrategy hwhole hinside
      (Moves.traced hmoves (traced_initial E start strategy callbacks))
      (Moves.chronicled hmoves (Config.chronicled_initial E start strategy callbacks)) ih

omit [Scalar.Placed F] [Scalar.Faithful F] in
/-- What a variable has left at a node is in order, as it is in the program. -/
theorem Engine.Domain.proper {t : Tree F} {id : NodeId} {nodes : List (Node F)}
    {r : Restrictions F} {box : Box F} (h : E.Domain t id nodes r box) (hr : r.Proper) {var : Nat}
    {i : Interval F} (hi : E.problem.box.interval var = .ok i) (hproper : i.Proper) :
    (r.effective var i).Proper := by
  refine ⟨hr.effective hproper.whole, ?_⟩
  unfold Restrictions.effective
  rcases hj : r.get? var with _ | j
  · exact hproper.ordered
  · obtain ⟨i', hi', hinside, -⟩ := h.confines.meet hj
    obtain rfl : i' = i := Except.ok.inj (hi'.symm.trans hi)
    have hcut := hinside.same_cut.1
    exact Scalar.Ordered.le_trans hcut.lower
      (Scalar.Ordered.le_trans (hr var j hj).ordered hcut.upper)

omit [Scalar.Placed F] in
/-- Between two nodes the tree is full. -/
theorem Config.Forking.full {P : Program F} (hc : (Config.idle s).Forking)
    (hP : MixedProgram.ofProgram P = .ok E.problem) (hE : E.Checked)
    (hwhole : E.problem.box.WholeOn E.candidates) (hchronicled : (Config.idle s).Chronicled)
    (hnarrowing : (Config.idle s).Narrowing E) : s.Full E where
  domains key hkey := by
    obtain ⟨hlp, hvalid, hbox⟩ := MixedProgram.ofProgram_eq_ok hP
    have hnumbers := hvalid.numbers_box hbox
    obtain ⟨hlower, hupper⟩ := Program.length_box hbox
    have hid : key.id ∈ (Config.idle s).openIds :=
      mem_openIds_of_waiting (List.mem_map_of_mem (List.mem_append_left _ hkey))
    obtain ⟨node, hnode, -⟩ := hchronicled.tidy.coherent.live hid
    obtain ⟨nodes, r, box, hdomain, -⟩ :=
      hnarrowing.nests hnumbers (hupper.trans hlower.symm) hnode
    refine ⟨r, box, hdomain.restrictions, hdomain.applied, fun var hvar => ?_⟩
    have hlt : var < P.vars := by
      have hlt := hE.candidate_lt var hvar
      rwa [MixedProgram.vars, hlp] at hlt
    have hi : E.problem.box.interval var = .ok ⟨E.problem.box.lower.get ⟨var, hlower ▸ hlt⟩,
        E.problem.box.upper.get ⟨var, hupper ▸ hlt⟩⟩ :=
      Box.interval_eq_ok.2 ⟨List.getElem?_eq_getElem _, List.getElem?_eq_getElem _⟩
    have hinside := hnumbers.inside hi
    have hordered := (Scalar.Ordered.not_lt hinside.upper hinside.lower).1
      (MixedProgram.ofProgram_not_lt hP hi)
    have hproper := hdomain.proper (hc.regions hid hdomain.restrictions) hi
      ⟨hwhole var hvar _ hi, hordered⟩
    exact ⟨_, Restrictions.applyTo_interval hdomain.applied hi, hproper.ordered, hproper.ends⟩
  length_parents := by
    have hperm := hchronicled.perm_idle.length_eq
    have hopen : (Config.idle s).openIds = s.frontier.keys.map NodeKey.id := by
      simp [openIds, waiting, Config.idle, Stage.current?]
    rw [List.length_append, List.length_map, List.length_range] at hperm
    rw [parents, List.length_append, List.length_map, List.length_map, hopen]
    exact hperm
  records record hrecord := hc.records record (List.mem_reverse.1 hrecord)
  created_eq := hc.created_eq

/-- **With whole bounds the search tree is a full binary tree.**  If the bounds of the candidates
    are whole or infinite, and the points of the relaxation stay inside the regions that it is asked
    about, then with a built-in strategy no node is ever closed for an empty domain; and before each
    node is taken and where the search ends, the tree is full, so that the nodes created are one
    more than twice those branched on. -/
theorem solve_full {P : Program F} (start : σ) (strategy : β) (callbacks : κ)
    (hP : MixedProgram.ofProgram P = .ok E.problem) (hE : E.check = .ok ())
    (hstrategy : E.strategy.BuiltIn) (hwhole : E.problem.box.WholeOn E.candidates)
    (hinside : E.StaysInside start) :
    let s₀ := State.initial E start strategy callbacks
    (∀ c, Moves E (.idle s₀) c → ∀ record ∈ c.state.trace, record.status ≠ .pruned .emptyDomain) ∧
    (∀ s, Moves E (.idle s₀) (.idle s) → s.Full E) ∧
    ∀ steps outcome s, (solve E steps).run s₀ = .ok outcome s → s.Full E ∧
      ∀ solution, outcome = some solution →
        solution.statistics.created = 1 + 2 * solution.statistics.branched := by
  intro s₀
  have hE := Engine.check_eq_ok hE
  have hforking : ∀ {c}, Moves E (.idle s₀) c → c.Forking :=
    Moves.forking hE hstrategy hwhole hinside
  have hfull : ∀ s, Moves E (.idle s₀) (.idle s) → s.Full E := by
    intro s hmoves
    obtain ⟨-, hvalid, hbox⟩ := MixedProgram.ofProgram_eq_ok hP
    exact (hforking hmoves).full hP hE hwhole
      (Moves.chronicled hmoves (Config.chronicled_initial E start strategy callbacks))
      (Moves.narrowing (hvalid.numbers_box hbox) hstrategy hmoves
        (narrowing_initial E start strategy callbacks))
  refine ⟨fun c hmoves record hrecord => ?_, hfull, fun steps outcome s hsolve => ?_⟩
  · exact ((hforking hmoves).records record (List.mem_reverse.1 hrecord)).proper
  · obtain ⟨s₁, hmoves, hend⟩ := solve_ok hsolve
    have hfull := hfull s₁ hmoves
    rcases hend with ⟨rfl, rfl⟩ | ⟨status, solution, rfl, hsummary⟩
    · exact ⟨hfull, fun _ h => nomatch h⟩
    · obtain rfl := hsummary.final_eq
      refine ⟨⟨hfull.domains, hfull.length_parents, hfull.records, hfull.created_eq⟩,
        fun solution' hsolution => ?_⟩
      cases hsolution
      rw [hsummary.statistics_eq]
      exact hfull.created_eq

end Full

theorem choiceSearch_interval {var : Nat} {i : Interval Exact}
    (hvar : var ∈ choiceSearch.candidates)
    (hi : choiceSearch.problem.box.interval var = .ok i) : i = ⟨.fin 0, .fin 1⟩ := by
  simp only [choiceSearch, List.mem_cons, List.not_mem_nil, or_false] at hvar
  rcases hvar with rfl | rfl <;> exact (Except.ok.inj hi).symm

/-- The points that the choice is answered with lie in the regions. -/
theorem choiceSearch_staysInside : choiceSearch.StaysInside () := by
  rintro s ⟨entries, hsorted⟩ reply x objective _ hsolve hanswer box hbox var hvar v i hv hi
  obtain ⟨i, hglobal, rfl⟩ := Restrictions.interval_of_applyTo hbox hi
  obtain rfl := choiceSearch_interval hvar hglobal
  have hvars : var = 0 ∨ var = 1 := by simpa [choiceSearch] using hvar
  cases hsolve
  simp only at hanswer
  split at hanswer
  · -- the root
    subst entries
    cases hanswer
    rcases hvars with rfl | rfl <;> cases hv
    · exact (show Exact.fin 0 ≤ .fin (1 / 2) ∧ Exact.fin (1 / 2) ≤ .fin 1 by decide +kernel)
    · exact (show Exact.fin 0 ≤ .fin 0 ∧ Exact.fin 0 ≤ .fin 1 by decide +kernel)
  · split at hanswer
    · subst entries
      cases hanswer
      rcases hvars with rfl | rfl <;> cases hv
      · exact (show Exact.fin 0 ≤ .fin 0 ∧ Exact.fin 0 ≤ .fin 0 by decide +kernel)
      · exact (show Exact.fin 0 ≤ .fin (1 / 2) ∧ Exact.fin (1 / 2) ≤ .fin 1 by decide +kernel)
    · cases hanswer

theorem choiceSearch_wholeOn : choiceSearch.problem.box.WholeOn choiceSearch.candidates := by
  intro var hvar i hi
  obtain rfl := choiceSearch_interval hvar hi
  constructor <;> rintro q ⟨⟩
  · exact ⟨0, rfl⟩
  · exact ⟨1, rfl⟩

/-- The search for the cheapest choice branches on two of its five nodes. -/
theorem solve_full_choice : ∃ solution s,
    (solve choiceSearch 4).run (State.initial choiceSearch () () ()) = .ok (some solution) s ∧
    s.Full choiceSearch ∧ solution.statistics.created = 1 + 2 * solution.statistics.branched ∧
    solution.statistics.branched = 2 := by
  have hrun : read? (fun outcome _ => outcome.map fun solution : Solution Exact =>
        solution.statistics.branched)
      ((solve choiceSearch 4).run (State.initial choiceSearch () () ())) = some (some 2) := by
    decide +kernel
  obtain ⟨outcome, s, hsolve, hread⟩ := read?_eq_some hrun
  obtain ⟨solution, rfl, hbranched⟩ := Option.map_eq_some_iff.1 hread
  obtain ⟨hfull, hcreated⟩ := (solve_full (E := choiceSearch) () () () choice_ok choice_check
    .mostFractional choiceSearch_wholeOn choiceSearch_staysInside).2.2 4 _ s hsolve
  exact ⟨solution, s, hsolve, hfull, hcreated solution rfl, hbranched⟩

end Search

end Milp
