/-
  How many nodes a search can create.

  A branching that narrows both halves leaves less room below each child than there was below the
  node, so a search whose branchings all do this creates a bounded number of nodes, in whatever
  order it explores them.  A branching that repeats its interval opens new room, but not more than
  there was at the root.  So the created nodes are bounded by the branchings that repeat.

  * `Engine.room`, `Engine.capacity`: the nodes that fit below a region, and below the root.
  * `Config.Within`: the invariant; `Move.within`: every move keeps it.
  * `Move.narrows`: if the relaxation stays inside the regions it is asked about, nothing repeats.
  * `solve_ends`: a search whose relaxation does this ends.
-/
import Milp.Proofs.Configuration
import Milp.Proofs.Provenance
import Milp.Proofs.Scalar.Double
import Milp.Proofs.Width

namespace Milp.Search

variable {F σ β κ : Type} [Extended F]

/-! ## Room -/

/-- The number of nodes that can be created below a region, if every branching narrows both
    halves. -/
def Engine.room (E : Engine F σ β κ) (r : Restrictions F) : Nat :=
  2 ^ (r.span E.problem.box E.candidates + 1) - 2

/-- One more than the number of nodes of a tree whose branchings all narrow both halves. -/
def Engine.capacity (E : Engine F σ β κ) : Nat :=
  2 ^ (Restrictions.empty.span E.problem.box E.candidates + 1)

/-- The room below a node. -/
def Engine.roomBelow (E : Engine F σ β κ) (t : Tree F) (id : NodeId) : Nat :=
  match t.restrictions id with
  | .ok r => E.room r
  | .error _ => 0

/-- The room below the current node. -/
def Stage.room (E : Engine F σ β κ) (t : Tree F) : Stage F κ → Nat
  | idle | closing .. => 0
  | opened id | relaxed id .. | consulting id .. | weighing id .. => E.roomBelow t id
  | splitting id _ left =>
    match t.restrictions id with
    | .ok r => (left.map fun change => 1 + E.room (r.set change.var change.new)).sum
    | .error _ => 0

/-- The room below all open nodes. -/
def Config.room (E : Engine F σ β κ) (c : Config F σ β κ) : Nat :=
  (c.state.frontier.keys.map fun key => E.roomBelow c.state.tree key.id).sum +
    c.stage.room E c.state.tree

/-- Is this a branching that repeats its interval? -/
def Event.repeats : Event F → Bool
  | .branched _ d _ => d.repeats
  | _ => false

/-- The number of branchings so far that repeated their interval. -/
def State.repeats (s : State F σ β κ) : Nat := s.history.countP Event.repeats

/-- The same for the branching that is under way. -/
def Stage.repeats : Stage F κ → Nat
  | splitting _ d _ => if d.repeats && !d.children.isEmpty then 1 else 0
  | _ => 0

/-- The intervals of the children that are still to be created are finite. -/
def Stage.Tame : Stage F κ → Prop
  | splitting _ _ left => ∀ change ∈ left, change.new.Finite
  | _ => True

/-- The nodes created, and the room below the open ones, are within what the branchings so far
    allow for. -/
structure Config.Within (E : Engine F σ β κ) (c : Config F σ β κ) : Prop where
  coherent : c.Coherent
  tame : c.stage.Tame
  finite : ∀ id ∈ c.openIds, ∀ r, c.state.tree.restrictions id = .ok r → r.FiniteOn E.candidates
  created : c.state.statistics.created + c.room E <
    (c.state.repeats + c.stage.repeats + 1) * E.capacity
  processed : c.state.statistics.processed + c.state.frontier.keys.length ≤
    c.state.statistics.created

variable {E : Engine F σ β κ} {c c' : Config F σ β κ} {s : State F σ β κ} {start : σ}

theorem Engine.roomBelow_of_eq {t t' : Tree F} {id : NodeId}
    (h : t'.restrictions id = t.restrictions id) : E.roomBelow t' id = E.roomBelow t id := by
  rw [Engine.roomBelow, h, Engine.roomBelow]

theorem Engine.room_add_two (E : Engine F σ β κ) (r : Restrictions F) :
    E.room r + 2 = 2 ^ (r.span E.problem.box E.candidates + 1) := by
  have hpow : 2 ^ 1 ≤ 2 ^ (r.span E.problem.box E.candidates + 1) :=
    Nat.pow_le_pow_right (by decide) (Nat.succ_le_succ (Nat.zero_le _))
  exact Nat.sub_add_cancel hpow

theorem Engine.room_le {r r' : Restrictions F}
    (h : r'.span E.problem.box E.candidates ≤ r.span E.problem.box E.candidates) :
    E.room r' ≤ E.room r := by
  have hpow : 2 ^ (r'.span E.problem.box E.candidates + 1) ≤
      2 ^ (r.span E.problem.box E.candidates + 1) :=
    Nat.pow_le_pow_right (by decide) (Nat.succ_le_succ h)
  rw [← E.room_add_two, ← E.room_add_two] at hpow
  omega

/-- Two narrower regions fit into a region, with one node for each. -/
theorem Engine.two_mul_room_le {r r' : Restrictions F}
    (h : r'.span E.problem.box E.candidates < r.span E.problem.box E.candidates) :
    2 * (1 + E.room r') ≤ E.room r := by
  have hpow : 2 ^ (r'.span E.problem.box E.candidates + 1 + 1) ≤
      2 ^ (r.span E.problem.box E.candidates + 1) :=
    Nat.pow_le_pow_right (by decide) (Nat.succ_le_succ h)
  rw [pow_succ, ← E.room_add_two, ← E.room_add_two] at hpow
  omega

/-- Two children that each need no more than a bound need no more than twice that. -/
theorem Decision.sum_children_le {d : Decision F} {f : BoundChange F → Nat} {bound : Nat}
    (h : ∀ change ∈ d.children, f change ≤ bound) : (d.children.map f).sum ≤ 2 * bound := by
  have hcard := List.sum_le_card_nsmul (d.children.map f) bound (by simpa using h)
  rw [List.length_map, smul_eq_mul] at hcard
  exact hcard.trans (Nat.mul_le_mul_right bound d.length_children_le)

theorem Stage.room_of_eq {t t' : Tree F} {stage : Stage F κ}
    (h : ∀ id, stage.current? = some id → t'.restrictions id = t.restrictions id) :
    stage.room E t' = stage.room E t := by
  cases stage with
  | idle | closing => rfl
  | splitting id => simp only [Stage.room, h id rfl]
  | opened id | relaxed id | consulting id | weighing id => exact Engine.roomBelow_of_eq (h id rfl)

/-- A configuration whose open nodes were open before, where the current node has no more room. -/
theorem Config.room_le (gone : List (NodeKey F))
    (hkeys : c.state.frontier.keys.Perm (gone ++ c'.state.frontier.keys))
    (hsame : ∀ id ∈ c'.openIds, c'.state.tree.restrictions id = c.state.tree.restrictions id)
    (hstage : ∀ t, c'.stage.room E t ≤ c.stage.room E t) : c'.room E ≤ c.room E := by
  have hfrontier : (c'.state.frontier.keys.map fun key => E.roomBelow c'.state.tree key.id) =
      c'.state.frontier.keys.map fun key => E.roomBelow c.state.tree key.id := by
    refine List.map_congr_left fun key hkey => Engine.roomBelow_of_eq (hsame _ ?_)
    exact List.mem_append_left _ (List.mem_map_of_mem (List.mem_append_left _ hkey))
  have hcurrent : c'.stage.room E c'.state.tree = c'.stage.room E c.state.tree :=
    Stage.room_of_eq fun id hid => hsame id (List.mem_append_right _ (Option.mem_toList.2 hid))
  have hsum := (hkeys.map fun key => E.roomBelow c.state.tree key.id).sum_eq
  rw [List.map_append, List.sum_append] at hsum
  have hle := hstage c.state.tree
  unfold Config.room
  rw [hfrontier, hcurrent]
  omega

/-- A move that creates no node keeps the invariant if it opens no room. -/
theorem Config.Within.of_keep (hc : c.Within E) (h : Move E c c') (htame : c'.stage.Tame)
    (hroom : c'.room E ≤ c.room E)
    (hcreated : c'.state.statistics.created = c.state.statistics.created)
    (hrepeats : c.state.repeats + c.stage.repeats ≤ c'.state.repeats + c'.stage.repeats)
    (hprocessed : c'.state.statistics.processed + c'.state.frontier.keys.length ≤
      c.state.statistics.processed + c.state.frontier.keys.length) : c'.Within E := by
  refine ⟨h.coherent hc.coherent, htame, fun id hid r hr => ?_, ?_, ?_⟩
  · obtain ⟨hold, hsame⟩ := h.same_region hc.coherent hcreated hid
    exact hc.finite id hold r (hsame ▸ hr)
  · have hmono : (c.state.repeats + c.stage.repeats + 1) * E.capacity ≤
        (c'.state.repeats + c'.stage.repeats + 1) * E.capacity :=
      Nat.mul_le_mul_right _ (by omega)
    have hlt := hc.created
    omega
  · have hle := hc.processed
    omega

/-! ## Repetitions -/

theorem State.repeats_mono {s s' : State F σ β κ} (h : s.history <:+ s'.history) :
    s.repeats ≤ s'.repeats := h.sublist.countP_le

/-- A decision about a node uses up the branching that was under way. -/
theorem Concludes.repeats_le {stage : Stage F κ} {id : NodeId} {status : NodeStatus}
    {events : List (Event F)} (h : Concludes E s stage id status events) :
    s.repeats + stage.repeats ≤ (s.concluded status events).repeats := by
  cases h with
  | barren h => simp [Stage.repeats, h, State.repeats, State.concluded, Event.repeats]
  | branched h =>
    simp only [State.repeats, State.concluded, List.singleton_append, List.countP_cons,
      Stage.repeats, Event.repeats]
    split <;> simp_all
  | _ => exact State.repeats_mono (List.suffix_append _ _)

variable [Scalar.Faithful F]

/-- The children of a decision fit into the room below its node, unless it repeats its interval;
    then they need no more room in addition than there was below the root. -/
theorem room_children {r : Restrictions F} {x : List F} {box : Box F} {d : Decision F}
    {interval : Interval F} (hfinite : E.problem.box.FiniteOn E.candidates)
    (hr : r.FiniteOn E.candidates) (hbox : r.applyTo E.problem.box = .ok box)
    (hx : x.all Scalar.isFinite = true) (hsplits : (E.query x box).Splits d interval) :
    (∀ change ∈ d.children, change.new.Finite) ∧
      (d.children.map fun change => 1 + E.room (r.set change.var change.new)).sum ≤
        E.room r + (if d.repeats && !d.children.isEmpty then 1 else 0) * E.capacity := by
  obtain ⟨i, hi, rfl⟩ := Restrictions.interval_of_applyTo hbox hsplits.box
  obtain ⟨i', hi', hwhole⟩ := hfinite d.var hsplits.mem
  cases hi.symm.trans hi'
  have heffective := hr.effective hsplits.mem hwhole
  obtain ⟨v, hv⟩ := Scalar.Faithful.isFinite_iff.1
    (List.all_eq_true.1 hx _ (List.mem_of_getElem? hsplits.value))
  have hmem : ∀ {change}, change ∈ d.children →
      change ∈ (Decision.split d.var d.value (r.effective d.var i) d.score).children := by
    intro change h
    rwa [hsplits.eq] at h
  have hvar : ∀ {change}, change ∈ d.children → change.var = d.var := by
    intro change h
    have hpair := (List.mem_filter.1 (hmem h)).1
    simp only [List.mem_cons, List.not_mem_nil, or_false] at hpair
    rcases hpair with rfl | rfl <;> rfl
  refine ⟨fun change h => (Decision.width_le heffective hv (hmem h)).1, ?_⟩
  by_cases hrepeats : d.repeats = true
  · rcases hempty : d.children with _ | ⟨first, rest⟩
    · simp
    · rw [← hempty]
      have hbound : ∀ change ∈ d.children, 1 + E.room (r.set change.var change.new) ≤
          1 + E.room r := by
        intro change h
        obtain ⟨hnew, hle⟩ := Decision.width_le heffective hv (hmem h)
        rw [hvar h]
        exact Nat.add_le_add_left (E.room_le (Restrictions.span_set_le hfinite hi hnew hle)) 1
      have hsum := Decision.sum_children_le hbound
      have hcapacity : E.room r + 2 ≤ E.capacity := by
        rw [E.room_add_two]
        exact Nat.pow_le_pow_right (by decide)
          (Nat.succ_le_succ (Restrictions.span_le hfinite hr))
      have hone : (if d.repeats && !d.children.isEmpty then 1 else 0) = 1 := by
        simp [hrepeats, hempty]
      rw [hone]
      omega
  · have hnot : (Decision.split d.var d.value (r.effective d.var i) d.score).repeats = false := by
      rw [← hsplits.eq]
      exact Bool.eq_false_iff.2 hrepeats
    have hbound : ∀ change ∈ d.children, 1 + E.room (r.set change.var change.new) ≤
        E.room r / 2 := by
      intro change h
      obtain ⟨hnew, -⟩ := Decision.width_le heffective hv (hmem h)
      have hlt := Decision.width_lt heffective hv (hmem h) hnot
      have hroom := E.two_mul_room_le (Restrictions.span_set_lt hfinite hsplits.mem hi hnew hlt)
      rw [hvar h]
      omega
    have hsum := Decision.sum_children_le hbound
    have hnone : (if d.repeats && !d.children.isEmpty then 1 else 0) = 0 := by simp [hrepeats]
    rw [hnone]
    omega

/-! ## Moves -/

omit [Scalar.Faithful F] in
/-- Creating a child takes its node, and the room below it, from the room of the current node. -/
theorem Config.Within.spawn {id child : NodeId} {d : Decision F} {change : BoundChange F}
    {left : List (BoundChange F)} {tree : Tree F} {node : Node F}
    (hc : Config.Within E ⟨.splitting id d (change :: left), [], s⟩)
    (hcreate : s.tree.createChild id change = .ok (tree, child))
    (hnode : tree.get? child = some node) :
    Config.Within E ⟨.splitting id d left, [], s.spawned tree node⟩ := by
  have hcoherent := hc.coherent.spawn hcreate hnode
  have hkeys := Frontier.pushNode_keys s.frontier node
  have hid : id ∈ Config.openIds ⟨.splitting id d (change :: left), [], s⟩ :=
    List.mem_append_right _ (List.mem_singleton_self _)
  obtain ⟨r, hr⟩ := hc.coherent.restrictions hid
  change s.tree.restrictions id = .ok r at hr
  have hchild := hc.coherent.child_of_spawned hcreate hnode hr
  have hsame : ∀ other ∈ Config.openIds ⟨.splitting id d (change :: left), [], s⟩,
      tree.restrictions other = s.tree.restrictions other := by
    intro other hother
    obtain ⟨n, hn, -⟩ := hc.coherent.live hother
    exact (hc.coherent.keep_of_spawned hcreate hn).2
  have hwaiting : ∀ key ∈ s.frontier.keys,
      key.id ∈ Config.openIds ⟨.splitting id d (change :: left), [], s⟩ := fun key hkey =>
    List.mem_append_left _ (List.mem_map_of_mem (List.mem_append_left _ hkey))
  refine ⟨hcoherent, fun c h => hc.tame c (List.mem_cons_of_mem _ h), fun other hother r' hr' => ?_,
    ?_, ?_⟩
  · have hcases := (openIds_spawned id d change left s tree node).mem_iff.1 hother
    rcases List.mem_cons.1 hcases with rfl | hold
    · cases hchild.symm.trans hr'
      exact (hc.finite id hid r hr).set (hc.tame change List.mem_cons_self)
    · exact hc.finite other hold r' ((hsame other hold).symm.trans hr')
  · have hsum := (hkeys.map fun key => E.roomBelow tree key.id).sum_eq
    rw [List.map_cons, List.sum_cons] at hsum
    have hnew : E.roomBelow tree (s.frontier.keyOf node).id =
        E.room (r.set change.var change.new) := by
      rw [show (s.frontier.keyOf node).id = node.id from rfl, Engine.roomBelow, hchild]
    have hold : (s.frontier.keys.map fun key => E.roomBelow tree key.id) =
        s.frontier.keys.map fun key => E.roomBelow s.tree key.id :=
      List.map_congr_left fun key hkey => Engine.roomBelow_of_eq (hsame _ (hwaiting key hkey))
    have hcreated := hc.created
    simp only [Config.room, Stage.room, hr, (hsame id hid).trans hr, List.map_cons, List.sum_cons,
      State.spawned, hnew, hold] at hsum hcreated ⊢
    have hrepeats : ({ s with
        tree
        frontier := s.frontier.pushNode node
        statistics := { s.statistics with created := s.statistics.created + 1 } } :
          State F σ β κ).repeats = s.repeats := rfl
    have hstage : (.splitting id d left : Stage F κ).repeats =
        (.splitting id d (change :: left) : Stage F κ).repeats := rfl
    rw [hrepeats, hstage]
    omega
  · have hlength := hkeys.length_eq
    rw [List.length_cons] at hlength
    have hprocessed := hc.processed
    simp only [State.spawned] at hprocessed ⊢
    omega

omit [Scalar.Faithful F] in
/-- A new incumbent takes the pruned nodes from the open ones, and their room. -/
theorem Config.Within.adopt {stage next : Stage F κ} {candidate : Incumbent F}
    {tracker : Tracker F} {pruned : List (NodeKey F)} {frontier : Frontier F}
    (hc : Config.Within E ⟨stage, [], s⟩) (h : Adopts E s stage candidate next)
    (hupdate : s.tracker.update? candidate E.settings.tolerance = some tracker)
    (hprune : s.frontier.pruneByBound tracker.normalized E.settings.tolerance =
      (pruned, frontier)) :
    Config.Within E ⟨next, pruned, s.adopted tracker frontier pruned.length⟩ := by
  have hmove : Move E ⟨stage, [], s⟩ ⟨next, pruned, s.adopted tracker frontier pruned.length⟩ :=
    .adopt h hupdate hprune
  have hrepeats := State.repeats_mono hmove.history_suffix
  have hkeys := Frontier.pruneByBound_keys hprune
  have hlength := hkeys.length_eq
  rw [List.length_append] at hlength
  refine hc.of_keep hmove ?_ (Config.room_le _ hkeys (fun _ _ => rfl) fun t => ?_) rfl
    (Nat.add_le_add hrepeats ?_) ?_
  · cases h with
    | proposed => exact hc.tame
    | accepted => trivial
  · cases h with
    | proposed => exact le_refl _
    | accepted => exact Nat.zero_le _
  · cases h <;> exact Nat.zero_le _
  · simp only [State.adopted]
    omega

/-- The children of a branching fit into the room below its node, and what a repetition opens. -/
theorem Config.Within.select {id : NodeId} {r : Restrictions F} {x : List F} {objective : F}
    {box : Box F} {d : Decision F} {strategy : β} (hstrategy : E.strategy.BuiltIn)
    (hfinite : E.problem.box.FiniteOn E.candidates)
    (hc : Config.Within E ⟨.consulting id r (.optimal x objective) [], [], s⟩)
    (hcoherent : Config.Coherent ⟨.splitting id d d.children, [], { s with strategy }⟩)
    (hx : x.all Scalar.isFinite = true) (hr : s.tree.restrictions id = .ok r)
    (hbox : r.applyTo E.problem.box = .ok box)
    (hselect : E.strategy.select s.strategy (E.query x box) = .ok (some d, strategy)) :
    Config.Within E ⟨.splitting id d d.children, [], { s with strategy }⟩ := by
  obtain ⟨interval, hsplits⟩ := hstrategy.splits hselect
  have hid : id ∈ Config.openIds ⟨.consulting id r (.optimal x objective) [], [], s⟩ :=
    List.mem_append_right _ (List.mem_singleton_self _)
  obtain ⟨hnew, hsum⟩ := room_children hfinite (hc.finite id hid _ hr) hbox
    hx hsplits
  have hcurrent : (.splitting id d d.children : Stage F κ).room E s.tree ≤
      (.consulting id r (.optimal x objective) [] : Stage F κ).room E s.tree +
        (.splitting id d d.children : Stage F κ).repeats * E.capacity := by
    simpa only [Stage.room, Engine.roomBelow, hr, Stage.repeats] using hsum
  refine ⟨hcoherent, hnew, hc.finite, ?_, hc.processed⟩
  have hcreated := hc.created
  simp only [Config.room, Nat.add_mul] at hcreated ⊢
  simp only [show (.consulting id r (.optimal x objective) [] : Stage F κ).repeats = 0
    from rfl] at hcreated
  have hsame : ({ s with strategy } : State F σ β κ).repeats = s.repeats := rfl
  rw [hsame]
  omega

/-- Every move keeps the nodes created within what the branchings allow for. -/
theorem Move.within (hstrategy : E.strategy.BuiltIn)
    (hfinite : E.problem.box.FiniteOn E.candidates) (htraced : c.Traced E start) (h : Move E c c')
    (hc : c.Within E) : c'.Within E := by
  have hmove := h
  have hrepeats := State.repeats_mono h.history_suffix
  have hsame : c'.state.statistics.created = c.state.statistics.created → ∀ id ∈ c'.openIds,
      c'.state.tree.restrictions id = c.state.tree.restrictions id :=
    fun hcreated id hid => (hmove.same_region hc.coherent hcreated hid).2
  cases h with
  | remark | refuse =>
    exact hc.of_keep hmove hc.tame (le_refl _) rfl (Nat.add_le_add_right hrepeats _) (le_refl _)
  | @take s key rest node hpop hnode =>
    have hkeys := Frontier.pop?_keys hpop
    refine hc.of_keep hmove trivial ?_ rfl hrepeats ?_
    · have hsum := (hkeys.map fun key => E.roomBelow s.tree key.id).sum_eq
      rw [List.map_cons, List.sum_cons] at hsum
      simp only [Config.room, Stage.room, State.taken]
      omega
    · have hlength := hkeys.length_eq
      rw [List.length_cons] at hlength
      simp only [State.taken]
      omega
  | @conclude s stage id status events h =>
    refine hc.of_keep hmove trivial
      (Config.room_le [] (.refl _) (fun _ _ => rfl) fun _ => Nat.zero_le _)
      (Statistics.count_created ..) h.repeats_le ?_
    simp only [State.concluded, Statistics.count_processed, le_refl]
  | relax =>
    exact hc.of_keep hmove trivial (le_refl _) rfl (Nat.add_le_add_right hrepeats _) (le_refl _)
  | record | sweep =>
    exact hc.of_keep hmove hc.tame (Config.room_le [] (.refl _) (hsame rfl) fun _ => le_refl _) rfl
      (Nat.add_le_add_right hrepeats _) (le_refl _)
  | @offer s id r answer callback left node shown proposal callbacks hnode hanswer hsolved =>
    rcases proposal with _ | p
    · exact hc.of_keep hmove hc.tame (le_refl _) rfl (Nat.add_le_add_right hrepeats _) (le_refl _)
    · exact hc.of_keep hmove hc.tame (le_refl _) rfl (Nat.add_le_add_right hrepeats _) (le_refl _)
  | adopt h hupdate hprune => exact hc.adopt h hupdate hprune
  | select h hsplit hne hr hbox hselect hvar =>
    obtain ⟨rfl, hr'⟩ := hc.coherent.survives h
    cases hr.symm.trans hr'
    exact hc.select hstrategy hfinite (hmove.coherent hc.coherent) htraced.stage.1.finite.2.2 hr
      hbox hselect
  | spawn hcreate hnode => exact hc.spawn hcreate hnode
  | close =>
    exact hc.of_keep hmove trivial (Config.room_le [] (.refl _) (hsame rfl) fun _ => le_refl _) rfl
      (Nat.add_le_add_right hrepeats _) (le_refl _)

/-- A run of moves keeps the nodes created within what the branchings allow for. -/
theorem Moves.within (hstrategy : E.strategy.BuiltIn)
    (hfinite : E.problem.box.FiniteOn E.candidates) (htraced : c.Traced E start)
    (h : Moves E c c') (hc : c.Within E) : c'.Within E := by
  induction h with
  | refl => exact hc
  | tail hmoves hmove ih =>
    exact hmove.within hstrategy hfinite (Moves.traced hmoves htraced) ih

omit [Scalar.Faithful F] in
/-- At the start there is the root, and the room below it. -/
theorem within_initial (E : Engine F σ β κ) (start : σ) (strategy : β) (callbacks : κ) :
    (Config.idle (State.initial E start strategy callbacks)).Within E := by
  have hkeys := keys_initial E start strategy callbacks
  have hroot := restrictions_initial E start strategy callbacks
  refine ⟨Config.coherent_initial E start strategy callbacks, trivial, fun id hid r hr => ?_, ?_,
    ?_⟩
  · simp only [Config.openIds, Config.waiting, Config.idle, Stage.current?, Option.toList_none,
      List.append_nil, hkeys] at hid
    obtain rfl := List.mem_singleton.1 hid
    cases hroot.symm.trans hr
    intro var _ i hi
    cases hi
  · have hroom :
        E.roomBelow (State.initial E start strategy callbacks).tree 0 + 2 = E.capacity := by
      rw [Engine.roomBelow, hroot]
      exact E.room_add_two .empty
    have hcreated : (State.initial E start strategy callbacks).statistics.created = 1 := rfl
    have hrepeats : (State.initial E start strategy callbacks).repeats = 0 := rfl
    simp only [Config.idle, Config.room, Stage.room, Stage.repeats, hkeys, List.map_cons,
      List.map_nil, List.sum_cons, List.sum_nil, hcreated, hrepeats]
    omega
  · simp only [Config.idle, hkeys]
    exact Nat.le_refl _

/-! ## Relaxations that stay inside -/

/-- A point lies in the box of a region, as far as the candidates go. -/
def Engine.Holds (E : Engine F σ β κ) (r : Restrictions F) (x : List F) : Prop :=
  ∀ box, r.applyTo E.problem.box = .ok box → ∀ var ∈ E.candidates, ∀ v i, x[var]? = some v →
    box.interval var = .ok i → i.lower ≤ v ∧ v ≤ i.upper

/-- Every optimal point lies in the region that was asked about, as far as the candidates go. -/
def Engine.StaysInside (E : Engine F σ β κ) (start : σ) : Prop :=
  ∀ s r reply x objective, E.relaxation.Visited start s → E.relaxation.solve s r = .ok reply →
    reply.answer = .optimal x objective → E.Holds r x

omit [Scalar.Faithful F] in
theorem Engine.StaysInside.holds {r : Restrictions F} {x : List F} {objective : F}
    (hE : E.StaysInside start) (h : E.Answers start r (.optimal x objective)) : E.Holds r x := by
  obtain ⟨s, reply, hvisited, hsolve, hanswer⟩ := h
  exact hE s r reply x objective hvisited hsolve (Answer.check_eq_optimal hanswer.symm).1

/-- A branching that is under way narrows both halves. -/
def Stage.Narrow : Stage F κ → Prop
  | splitting _ d _ => d.repeats = false
  | _ => True

/-- No branching so far repeated its interval. -/
structure Config.Narrow (c : Config F σ β κ) : Prop where
  stage : c.stage.Narrow
  repeats : c.state.repeats = 0

/-- A candidate that is branched on inside its interval leaves two narrower halves. -/
theorem not_repeats_of_holds {r : Restrictions F} {x : List F} {box : Box F} {d : Decision F}
    {interval : Interval F} (hE : E.Checked) (hfinite : E.problem.box.FiniteOn E.candidates)
    (hr : r.FiniteOn E.candidates) (hbox : r.applyTo E.problem.box = .ok box)
    (hx : x.all Scalar.isFinite = true) (hholds : E.Holds r x)
    (hsplits : (E.query x box).Splits d interval) : d.repeats = false := by
  obtain ⟨hlower, hupper⟩ :=
    hholds box hbox d.var hsplits.mem d.value interval hsplits.value hsplits.box
  obtain ⟨i, hi, rfl⟩ := Restrictions.interval_of_applyTo hbox hsplits.box
  obtain ⟨i', hi', hwhole⟩ := hfinite d.var hsplits.mem
  cases hi.symm.trans hi'
  obtain ⟨v, hv⟩ := Scalar.Faithful.isFinite_iff.1
    (List.all_eq_true.1 hx _ (List.mem_of_getElem? hsplits.value))
  obtain ⟨htolerance, hnonneg⟩ := hE.settings.integrality
  obtain ⟨t, ht⟩ := Scalar.Faithful.isFinite_iff.1 htolerance
  rw [Scalar.Faithful.lt_iff ht Scalar.Faithful.zero_eq, not_lt] at hnonneg
  rw [hsplits.eq]
  exact Decision.not_repeats (hr.effective hsplits.mem hwhole) hv ht hnonneg hsplits.notWhole hlower
    hupper

/-- As long as the relaxation stays inside its regions, every branching narrows both halves. -/
theorem Move.narrow (hE : E.Checked) (hstrategy : E.strategy.BuiltIn)
    (hfinite : E.problem.box.FiniteOn E.candidates) (hinside : E.StaysInside start)
    (htraced : c.Traced E start) (hwithin : c.Within E) (h : Move E c c') (hc : c.Narrow) :
    c'.Narrow := by
  have hzero : ∀ {event : Event F} {history : List (Event F)}, event.repeats = false →
      history.countP Event.repeats = 0 → (event :: history).countP Event.repeats = 0 := by
    intro event history hevent hnone
    rw [List.countP_cons, hnone, hevent]
    rfl
  cases h with
  | @remark stage doomed s event h =>
    refine ⟨hc.stage, hzero ?_ hc.repeats⟩
    cases event <;> first | rfl | cases h
  | take | relax | close => exact ⟨trivial, hzero rfl hc.repeats⟩
  | conclude h =>
    refine ⟨trivial, ?_⟩
    cases h with
    | branched => exact hzero hc.stage hc.repeats
    | refused => exact hc.repeats
    | _ => exact hzero rfl hc.repeats
  | record | spawn => exact ⟨hc.stage, hc.repeats⟩
  | @offer s id r answer callback left node shown proposal callbacks hnode hanswer hsolved =>
    rcases proposal with _ | p
    · exact ⟨trivial, hzero rfl hc.repeats⟩
    · exact ⟨trivial, hzero rfl hc.repeats⟩
  | refuse | sweep => exact ⟨hc.stage, hzero rfl hc.repeats⟩
  | adopt h =>
    refine ⟨?_, hc.repeats⟩
    cases h with
    | proposed => exact hc.stage
    | accepted => trivial
  | @select s id r answer x objective split r box d strategy h hsplit hne hr hbox hselect
      hvar =>
    obtain ⟨rfl, hr'⟩ := hwithin.coherent.survives h
    cases hr.symm.trans hr'
    obtain ⟨interval, hsplits⟩ := hstrategy.splits hselect
    have hid : id ∈ Config.openIds ⟨.consulting id r (.optimal x objective) [], [], s⟩ :=
      List.mem_append_right _ (List.mem_singleton_self _)
    have hanswers := htraced.stage.1
    exact ⟨not_repeats_of_holds hE hfinite (hwithin.finite id hid r hr) hbox hanswers.finite.2.2
      (hinside.holds hanswers) hsplits, hc.repeats⟩

/-- A run of moves keeps that nothing repeats. -/
theorem Moves.narrow (hE : E.Checked) (hstrategy : E.strategy.BuiltIn)
    (hfinite : E.problem.box.FiniteOn E.candidates) (hinside : E.StaysInside start)
    (h : Moves E c c') (htraced : c.Traced E start) (hwithin : c.Within E) (hc : c.Narrow) :
    c'.Narrow := by
  induction h with
  | refl => exact hc
  | tail hmoves hmove ih =>
    exact hmove.narrow hE hstrategy hfinite hinside (Moves.traced hmoves htraced)
      (Moves.within hstrategy hfinite htraced hmoves hwithin) ih

/-- **Termination.**  If the candidates have finite bounds, and the relaxation stays inside the
    regions that it is asked about, a search with a built-in strategy creates less nodes than a
    bound that depends only on the bounds of the candidates, whatever the relaxation answers and the
    callbacks propose; and it ends within that many steps. -/
theorem solve_ends {start : σ} (hE : E.check = .ok ()) (hstrategy : E.strategy.BuiltIn)
    (hfinite : E.problem.box.FiniteOn E.candidates) (hinside : E.StaysInside start) (steps : Nat)
    (strategy : β) (callbacks : κ) :
    (∀ answer s, (solve E steps).run (State.initial E start strategy callbacks) = .ok answer s →
      s.statistics.created < E.capacity) ∧
    (∀ e s, (solve E steps).run (State.initial E start strategy callbacks) = .error e s →
      s.statistics.created < E.capacity) ∧
    (E.capacity ≤ steps →
      ∀ s, (solve E steps).run (State.initial E start strategy callbacks) ≠ .ok none s) := by
  have htraced := traced_initial E start strategy callbacks
  have hwithin := within_initial E start strategy callbacks
  have hcreated : ∀ {c}, Moves E (.idle (State.initial E start strategy callbacks)) c →
      c.state.statistics.created < E.capacity := by
    intro c hmoves
    have hc := Moves.within hstrategy hfinite htraced hmoves hwithin
    have hnarrow := Moves.narrow (Engine.check_eq_ok hE) hstrategy hfinite hinside
      hmoves htraced hwithin ⟨trivial, rfl⟩
    have hstage : c.stage.repeats = 0 := by
      have hstage := hnarrow.stage
      cases hkind : c.stage with
      | splitting id d left =>
        rw [hkind] at hstage
        simp [Stage.repeats, show d.repeats = false from hstage]
      | _ => rfl
    have hlt := hc.created
    rw [hnarrow.repeats, hstage] at hlt
    omega
  have hcases := solve_cases E steps (State.initial E start strategy callbacks)
  refine ⟨fun answer s hsolve => ?_, fun e s hsolve => ?_, fun hsteps s hsolve => ?_⟩
  · rw [hsolve] at hcases
    rcases answer with _ | solution
    · exact hcreated hcases.1
    · obtain ⟨s₁, -, -, hmoves, -, -, -, hsame⟩ := hcases
      rw [hsame]
      exact hcreated hmoves
  · rw [hsolve] at hcases
    obtain ⟨c, hmoves, -, hleaves⟩ := hcases
    rw [hleaves.created_eq]
    exact hcreated hmoves
  · rw [hsolve] at hcases
    obtain ⟨hmoves, hprocessed⟩ := hcases
    have hlt : s.statistics.created < E.capacity := hcreated hmoves
    have hle : s.statistics.processed + s.frontier.keys.length ≤ s.statistics.created :=
      (Moves.within hstrategy hfinite htraced hmoves hwithin).processed
    omega

/-- The least value of one variable in `[0.5, 3]`, which is always inside its region. -/
def leastValue : Relaxation Float Unit where
  name := "least value"
  vars := 1
  solve _ r :=
    let i := r.effective 0 ⟨0.5, 3⟩
    return ⟨(), if i.lower ≤ i.lower ∧ i.lower ≤ i.upper then .optimal [i.lower] i.lower
      else .infeasible, []⟩

/-- The search for the least whole number in `[0.5, 3]`, in doubles. -/
def leastSearch : Engine Float Unit Unit Unit where
  problem :=
    { lp :=
        { cost := [1]
          matrix := ⟨0, 1, [[]], rfl, by simp, by simp [Column.Sorted]⟩
          rhs := []
          blocks := []
          bounds := some [⟨0, some 0.5, some 3⟩]
          kinds := some [.integer] }
      integers := [0]
      binaries := []
      box := ⟨[0.5], [3]⟩ }
  candidates := [0]
  settings := Settings.standard
  relaxation := leastValue
  strategy := Strategy.mostFractional
  callbacks := []
  clock := SearchClock.stopped ⟨0⟩

theorem leastSearch_staysInside : leastSearch.StaysInside () := by
  intro s r reply x objective _ hsolve hanswer box hbox var hvar v i hv hi
  obtain rfl : var = 0 := List.mem_singleton.1 hvar
  cases hi.symm.trans (Restrictions.applyTo_interval hbox (i := ⟨0.5, 3⟩) rfl)
  cases hsolve
  simp only at hanswer
  split at hanswer
  · cases hanswer
    cases hv
    assumption
  · cases hanswer

/-- The interval `[0.5, 3]` is three steps wide. -/
theorem solve_ends_leastSearch : leastSearch.capacity = 16 ∧
    (∀ answer s, (solve leastSearch 16).run (State.initial leastSearch () () ()) = .ok answer s →
      s.statistics.created < 16) ∧
    ∀ s, (solve leastSearch 16).run (State.initial leastSearch () () ()) ≠ .ok none s := by
  have hcapacity : leastSearch.capacity = 16 := by decide +kernel
  have hfinite : leastSearch.problem.box.FiniteOn leastSearch.candidates := by
    intro var hvar
    obtain rfl : var = 0 := List.mem_singleton.1 hvar
    exact ⟨⟨0.5, 3⟩, rfl, 1 / 2, 3, by decide +kernel, by decide +kernel⟩
  obtain ⟨hcreated, -, hends⟩ := solve_ends (E := leastSearch) (by decide +kernel)
    .mostFractional hfinite leastSearch_staysInside 16 () ()
  exact ⟨hcapacity, fun answer s h => hcapacity ▸ hcreated answer s h, hends hcapacity.le⟩

end Milp.Search
