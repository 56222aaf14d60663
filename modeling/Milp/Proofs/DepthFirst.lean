/-
  Depth first, few nodes wait.

  The node that is taken is a deepest one, and its children are one level below it.  So the nodes
  that wait are those that were left beside the path to the node that was taken last, one on each
  level, and the children of that node.

  * `Slender`: at most one number below a front, and no more than two in it, those counted that are
    still to come.
  * `State.depths`: the depths of the nodes that wait; `State.front`: the level of the children of
    the node that was taken last.
  * `Config.Slender`: the depths are slender; `Move.slender`: every move keeps this, depth first.
  * `State.Slim`: what it comes to between two nodes; `solve_slim`: it holds in every search.
-/
import Milp.Proofs.Advance
import Milp.Proofs.Nesting

namespace Milp

variable {F σ β κ : Type}

/-! ## Levels -/

/-- Depths up to a front.  Above the front each occurs once, and in the front twice, those counted
    that are still to come.  The root waits only while it is the front itself. -/
structure Slender (depths : List Nat) (front unborn : Nat) : Prop where
  le_front : ∀ depth ∈ depths, depth ≤ front
  root : depths.count 0 ≤ 1 - front
  once : ∀ depth < front, depths.count depth ≤ 1
  twice : depths.count front + unborn ≤ 2

namespace Slender

variable {depths depths' : List Nat} {front unborn unborn' depth : Nat}

/-- Some nodes leave, and fewer may still come. -/
theorem of_subperm (h : Slender depths front unborn) (hdepths : depths'.Subperm depths)
    (hunborn : unborn' ≤ unborn) : Slender depths' front unborn' where
  le_front depth hmem := h.le_front depth (hdepths.subset hmem)
  root := Nat.le_trans (hdepths.count_le 0) h.root
  once depth hlt := Nat.le_trans (hdepths.count_le depth) (h.once depth hlt)
  twice := Nat.le_trans (Nat.add_le_add (hdepths.count_le front) hunborn) h.twice

/-- A deepest node leaves, and its children come. -/
theorem take (h : Slender depths front unborn) (hdepths : depths.Perm (depth :: depths'))
    (hdeepest : ∀ other ∈ depths', other ≤ depth) : Slender depths' (depth + 1) 2 := by
  have hcount : ∀ other, depths.count other =
      depths'.count other + if depth = other then 1 else 0 := fun other => by
    simp [hdepths.count_eq, List.count_cons]
  have hfront : depth ≤ front := h.le_front depth (hdepths.mem_iff.2 List.mem_cons_self)
  have htwice := h.twice
  constructor
  · exact fun other hother => Nat.le_succ_of_le (hdeepest other hother)
  · have hzero := hcount 0
    have hroot := h.root
    split at hzero <;> omega
  · intro other hother
    have hsame := hcount other
    -- a level above the front had one node, and the front had two and lost one
    rcases Nat.lt_or_eq_of_le (Nat.le_trans (Nat.le_of_lt_succ hother) hfront) with hlt | rfl
    · have honce := h.once other hlt
      omega
    · obtain rfl : depth = other := Nat.le_antisymm hfront (Nat.le_of_lt_succ hother)
      rw [if_pos rfl] at hsame
      omega
  · have hnone : depths'.count (depth + 1) = 0 := List.count_eq_zero_of_not_mem fun hmem =>
      Nat.not_succ_le_self _ (hdeepest _ hmem)
    rw [hnone]

/-- A child comes. -/
theorem add (h : Slender depths front (unborn + 1)) (hfront : 0 < front)
    (hdepths : depths'.Perm (front :: depths)) : Slender depths' front unborn := by
  have hcount : ∀ other, depths'.count other =
      depths.count other + if front = other then 1 else 0 := fun other => by
    simp [hdepths.count_eq, List.count_cons]
  constructor
  · exact fun other hother => (List.mem_cons.1 (hdepths.mem_iff.1 hother)).elim Nat.le_of_eq
      (h.le_front other)
  · rw [hcount, if_neg (Nat.ne_of_gt hfront)]
    exact h.root
  · intro other hother
    rw [hcount, if_neg (Nat.ne_of_gt hother)]
    exact h.once other hother
  · have htwice := h.twice
    rw [hcount, if_pos rfl]
    omega

/-- One on each level above the front but the first, and two in it. -/
theorem length_le (h : Slender depths front unborn) : depths.length ≤ front + 1 := by
  have hcount : ∀ depth, (depths.erase front).count depth =
      depths.count depth - if front = depth then 1 else 0 := fun depth => by
    simp [List.count_erase]
  have htwice := h.twice
  have hnodup : (depths.erase front).Nodup := by
    refine List.nodup_iff_count_le_one.2 fun depth => ?_
    rw [hcount]
    rcases Nat.lt_trichotomy depth front with hlt | rfl | hlt
    · exact Nat.le_trans (Nat.sub_le ..) (h.once depth hlt)
    · rw [if_pos rfl]
      omega
    · rw [List.count_eq_zero_of_not_mem fun hmem => Nat.not_le_of_lt hlt (h.le_front depth hmem)]
      omega
  have hsubset : depths.erase front ⊆ List.range' 1 front := by
    intro depth hdepth
    have hpos := List.count_pos_iff.2 hdepth
    have hle := h.le_front depth (List.mem_of_mem_erase hdepth)
    have hroot := h.root
    rw [hcount] at hpos
    refine List.mem_range'_1.2 ⟨Nat.pos_of_ne_zero ?_, by omega⟩
    rintro rfl
    split at hpos <;> omega
  have hlength := (List.subperm_of_subset hnodup hsubset).length_le
  rw [List.length_range', List.length_erase] at hlength
  split at hlength <;> omega

end Slender

namespace Search

/-- The depths of the nodes that wait. -/
def State.depths (s : State F σ β κ) : List Nat := s.frontier.keys.map NodeKey.depth

/-- The level of the children of the node that was taken last; at the start that of the root. -/
def State.front (s : State F σ β κ) : Nat := s.takenKeys.head?.elim 0 fun last => last.depth + 1

/-- How many children of the current node may still come. -/
def Stage.unborn : Stage F κ → Nat
  | idle | closing .. => 0
  | splitting _ _ left => left.length
  | _ => 2

/-- The depths of the nodes that wait are slender, and the front is next to a node that was
    processed. -/
structure Config.Slender (c : Config F σ β κ) : Prop where
  levels : Milp.Slender c.state.depths c.state.front c.stage.unborn
  front_le : c.state.front ≤ c.state.statistics.maxDepth + 1

variable {c c' : Config F σ β κ} {s : State F σ β κ}

/-- A move that takes no node and adds none. -/
theorem Config.Slender.of_subperm (hc : c.Slender)
    (hdepths : c'.state.depths.Subperm c.state.depths)
    (htaken : c'.state.takenKeys = c.state.takenKeys)
    (hdepth : c'.state.statistics.maxDepth = c.state.statistics.maxDepth)
    (hunborn : c'.stage.unborn ≤ c.stage.unborn) : c'.Slender := by
  have hfront : c'.state.front = c.state.front :=
    congrArg (fun keys : List (NodeKey F) => keys.head?.elim 0 _) htaken
  constructor
  · exact hfront ▸ hc.levels.of_subperm hdepths hunborn
  · rw [hfront, hdepth]
    exact hc.front_le

variable [Extended F] {E : Engine F σ β κ} {start : σ}

/-- A decision is made before the children come, or after. -/
theorem Concludes.unborn_le {stage : Stage F κ} {id : NodeId} {status : NodeStatus}
    {events : List (Event F)} (_ : Concludes E s stage id status events) :
    (Stage.closing id status : Stage F κ).unborn ≤ stage.unborn :=
  Nat.zero_le _

/-- A new incumbent brings no children. -/
theorem Adopts.unborn_le {stage next : Stage F κ} {candidate : Incumbent F}
    (h : Adopts E s stage candidate next) : next.unborn ≤ stage.unborn := by
  cases h with
  | proposed => exact Nat.le_refl _
  | accepted => exact Nat.zero_le _

/-- Depth first, no node that waits is deeper than the one that is taken. -/
theorem Config.Steered.deepest [Scalar.Ranked F] (hc : (Config.idle s).Steered E start)
    (hselection : E.settings.selection = .depthFirst) {key : NodeKey F} {rest : Frontier F}
    (hpop : s.frontier.pop? = some (key, rest)) : ∀ other ∈ rest.keys, other.depth ≤ key.depth := by
  have hpreorder : E.settings.selection.IsPreorder := hselection ▸ trivial
  have := Selection.transCmp_order hpreorder
  obtain ⟨agenda, hstands⟩ := hc.ordered hpreorder
  intro other hother
  have hprecedes := hstands.precedes_rest hpop other hother
  rw [hselection] at hprecedes
  rcases hprecedes with hlt | ⟨heq, -⟩
  · exact Nat.le_of_lt hlt
  · exact Nat.le_of_eq heq.symm

theorem Move.slender [Scalar.Ordered F] [Scalar.Ranked F] (h : Move E c c')
    (hsteered : c.Steered E start) (hselection : E.settings.selection = .depthFirst)
    (hc : c.Slender) : c'.Slender := by
  cases h with
  | @remark stage doomed s event h =>
    exact hc.of_subperm (.refl _) (State.takenKeys_logged h) rfl (Nat.le_refl _)
  | @take s key rest node hpop hnode =>
    have hkeys := Frontier.pop?_keys hpop
    obtain ⟨node', hnode', -, -, -, hdepth⟩ := hsteered.lineal.chronicled.tidy.coherent.holds key
      (List.mem_append_left _ (hkeys.mem_iff.2 List.mem_cons_self))
    obtain rfl : node = node' := Option.some.inj (hnode.symm.trans hnode')
    refine ⟨hc.levels.take (hkeys.map NodeKey.depth) ?_, ?_⟩
    · exact List.forall_mem_map.2 (hsteered.deepest hselection hpop)
    · exact Nat.succ_le_succ (hdepth ▸ Nat.le_max_right ..)
  | @conclude s stage id status events h =>
    exact hc.of_subperm (.refl _) h.takenKeys_eq (Statistics.count_maxDepth ..) h.unborn_le
  | relax => exact hc.of_subperm (.refl _) rfl rfl (Nat.le_refl _)
  | record => exact hc.of_subperm (.refl _) rfl rfl (Nat.le_refl _)
  | @offer s id r answer callback left node shown proposal callbacks hnode hanswer hsolved =>
    rcases proposal with _ | p
    · exact hc.of_subperm (.refl _) rfl rfl (Nat.le_refl _)
    · exact hc.of_subperm (.refl _) rfl rfl (Nat.le_refl _)
  | refuse => exact hc.of_subperm (.refl _) rfl rfl (Nat.le_refl _)
  | @adopt s stage candidate next tracker pruned frontier h hupdate hprune =>
    refine hc.of_subperm ?_ rfl rfl h.unborn_le
    have hkeys := ((Frontier.pruneByBound_keys hprune).map NodeKey.depth).symm
    rw [List.map_append] at hkeys
    exact (List.sublist_append_right _ _).subperm.trans hkeys.subperm
  | sweep => exact hc.of_subperm (.refl _) rfl rfl (Nat.le_refl _)
  | @select s id r answer x objective split restrictions box d strategy =>
    exact hc.of_subperm (.refl _) rfl rfl (Decision.length_children_le d)
  | @spawn s id d change left tree child node hcreate hnode =>
    obtain ⟨last, earlier, htaken, -, -, -, hdepth⟩ := hsteered.child rfl hcreate hnode
    have hfront : s.front = last.depth + 1 := by
      change s.takenKeys = _ at htaken
      rw [State.front, htaken]
      rfl
    refine ⟨hc.levels.add ?_ ?_, hc.front_le⟩
    · exact hfront ▸ Nat.succ_pos _
    · have hkeys := (s.frontier.pushNode_keys node).map NodeKey.depth
      rw [List.map_cons, show (s.frontier.keyOf node).depth = s.front from
        hdepth.trans hfront.symm] at hkeys
      exact hkeys
  | close => exact hc.of_subperm (.refl _) rfl rfl (Nat.le_refl _)

/-- At the start the root waits. -/
theorem Config.slender_initial (E : Engine F σ β κ) (start : σ) (strategy : β) (callbacks : κ) :
    (Config.idle (State.initial E start strategy callbacks)).Slender := by
  have hdepths : (State.initial E start strategy callbacks).depths = [0] := by
    rw [State.depths, keys_initial]
    rfl
  refine ⟨?_, Nat.zero_le _⟩
  change Milp.Slender (State.initial E start strategy callbacks).depths 0 0
  rw [hdepths]
  exact ⟨fun depth hmem => Nat.le_of_eq (List.mem_singleton.1 hmem), Nat.le_refl _,
    fun depth hlt => absurd hlt (Nat.not_lt_zero _), Nat.le_succ _⟩

/-! ## Whole searches -/

section
variable [Scalar.Ordered F] [Scalar.Ranked F]

theorem Moves.slender {strategy : β} {callbacks : κ}
    (h : Moves E (.idle (State.initial E start strategy callbacks)) c)
    (hselection : E.settings.selection = .depthFirst) : c.Slender := by
  induction h with
  | refl => exact Config.slender_initial E start strategy callbacks
  | tail hmoves hmove ih => exact hmove.slender (Moves.advances hmoves).1 hselection ih

end

/-- At most two nodes wait on the deepest level, and at most one on every level above it. -/
structure State.Slim (s : State F σ β κ) : Prop where
  twice : ∀ depth, s.depths.count depth ≤ 2
  once : ∀ depth, ∀ deeper ∈ s.depths, depth < deeper → s.depths.count depth ≤ 1

omit [Extended F] in
theorem Config.Slender.slim (hc : c.Slender) : c.state.Slim where
  twice depth := by
    have htwice := hc.levels.twice
    rcases Nat.lt_trichotomy depth c.state.front with hlt | rfl | hlt
    · exact Nat.le_succ_of_le (hc.levels.once depth hlt)
    · omega
    · rw [List.count_eq_zero_of_not_mem fun hmem =>
        Nat.not_le_of_lt hlt (hc.levels.le_front depth hmem)]
      exact Nat.zero_le _
  once depth deeper hdeeper hlt :=
    hc.levels.once depth (Nat.lt_of_lt_of_le hlt (hc.levels.le_front deeper hdeeper))

omit [Extended F] in
/-- The nodes that wait are bounded by the depth that was reached. -/
theorem Config.Slender.size_le [Scalar F] (hc : c.Slender) :
    c.state.frontier.size ≤ c.state.statistics.maxDepth + 2 := by
  have hlength : c.state.depths.length = c.state.frontier.size :=
    (List.length_map ..).trans Array.length_toList
  have hle := hc.levels.length_le
  have hfront := hc.front_le
  omega

/-- **Depth first, the list of pending nodes is short.**  Whatever relaxation, strategy and callbacks
    do, at most two nodes wait on the deepest level and at most one on every level above it, before
    each node is taken and where the search ends; so never more nodes wait than two and the greatest
    depth of a node that was processed. -/
theorem solve_slim [Scalar.Ordered F] [Scalar.Ranked F] (E : Engine F σ β κ) (start : σ)
    (strategy : β) (callbacks : κ) (steps : Nat)
    (hselection : E.settings.selection = .depthFirst) :
    let s₀ := State.initial E start strategy callbacks
    (∀ c, Moves E (.idle s₀) c →
      c.state.Slim ∧ c.state.frontier.size ≤ c.state.statistics.maxDepth + 2) ∧
    ∀ outcome s, (solve E steps).run s₀ = .ok outcome s →
      s.Slim ∧ s.frontier.size ≤ s.statistics.maxDepth + 2 ∧
      ∀ solution, outcome = some solution →
        solution.statistics.pending ≤ solution.statistics.maxDepth + 2 := by
  intro s₀
  refine ⟨fun c hmoves => ?_, fun outcome s hsolve => ?_⟩
  · have hslender := hmoves.slender hselection
    exact ⟨hslender.slim, hslender.size_le⟩
  · obtain ⟨s₁, hmoves, hend⟩ := solve_ok hsolve
    have hslender := hmoves.slender hselection
    rcases hend with ⟨rfl, rfl⟩ | ⟨status, solution, rfl, hsummary⟩
    · exact ⟨hslender.slim, hslender.size_le, fun _ h => nomatch h⟩
    · have hslim := hslender.slim
      obtain rfl := hsummary.final_eq
      refine ⟨⟨hslim.twice, hslim.once⟩, hslender.size_le, fun solution' hsolution => ?_⟩
      cases hsolution
      rw [hsummary.statistics_eq]
      exact hslender.size_le

/-- The search on the halves of the segment, depth first, which is stopped after two nodes. -/
def deepSegment : Engine Exact Unit Unit Unit :=
  { halvedSegment with
    settings := { halvedSegment.settings with selection := .depthFirst, nodeLimit := some 2 } }

/-- Two children wait then, and the other child of the root; these are as many as can wait. -/
theorem solve_slim_segment : ∃ solution s,
    (solve deepSegment 3).run (State.initial deepSegment () () ()) = .ok (some solution) s ∧
    s.Slim ∧ s.depths = [2, 1, 2] ∧
    solution.statistics.pending ≤ solution.statistics.maxDepth + 2 ∧
    solution.statistics.pending = 3 ∧ solution.statistics.maxDepth = 1 := by
  have hrun : read? (fun outcome s => (outcome.map fun solution : Solution Exact =>
        (solution.statistics.pending, solution.statistics.maxDepth), s.depths))
      ((solve deepSegment 3).run (State.initial deepSegment () () ())) =
        some (some (3, 1), [2, 1, 2]) := by
    decide +kernel
  obtain ⟨outcome, s, hsolve, hread⟩ := read?_eq_some hrun
  obtain ⟨hsolution, hdepths⟩ := Prod.mk.inj hread
  obtain ⟨solution, rfl, hcounts⟩ := Option.map_eq_some_iff.1 hsolution
  obtain ⟨hpending, hdepth⟩ := Prod.mk.inj hcounts
  obtain ⟨hslim, -, hle⟩ := (solve_slim deepSegment () () () 3 rfl).2 _ s hsolve
  exact ⟨solution, s, hsolve, hslim, hdepths, hle solution rfl, hpending, hdepth⟩

end Search

end Milp
