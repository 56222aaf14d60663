/-
  Dual bounds follow the path.

  A node starts with the dual bound of its parent, and an optimal answer can only raise it to its
  objective.  So the bound of a node is the largest objective on the path from the root to it.

  * `Engine.raised`: the bound after an answer; `Engine.IsLargest`: the largest of some objectives.
  * `Config.Lineal`: bounds and objectives of live and closed nodes belong together, and closed
    nodes have inherited from closed nodes; `Move.lineal`: every move keeps this.
  * `Record.Lineage`: the records from a node up to the root; `Config.Lineal.largest`: the bound at
    its lower end.
-/
import Milp.Proofs.Inheritance
import Milp.Proofs.Provenance
import Milp.Proofs.Scalar.Ranked

namespace Milp

variable {F σ β κ : Type}

theorem Answer.objective?_dropPoint (answer : Answer F) :
    answer.dropPoint.objective? = answer.objective? := by
  cases answer <;> rfl

/-- Forgetting the point of the answer keeps its objective. -/
theorem Tree.finish_objective? (status : NodeStatus) (node : Node F) :
    (finish status node).objective? = node.objective? := by
  unfold finish Node.dropPoint Node.objective?
  split
  · rcases node.answer with _ | answer
    · rfl
    · exact Answer.objective?_dropPoint answer
  · rfl

theorem Record.filterMap_objective_cons (record : Record F) (path : List (Record F)) :
    (record :: path).filterMap Record.objective =
      record.objective.toList ++ path.filterMap Record.objective := by
  rw [List.filterMap_cons]
  cases record.objective <;> rfl

/-- The records from one up to that of a root. -/
inductive Record.Lineage (records : List (Record F)) : Record F → List (Record F) → Prop where
  | root {record} (hmem : record ∈ records) (h : record.parent = none) :
      Lineage records record [record]
  | child {record above path} (hmem : record ∈ records) (h : record.parent = some above.id)
      (habove : Lineage records above path) : Lineage records record (record :: path)

/-- Records that follow those of their parents have such paths. -/
theorem Record.Descend.lineage {records : List (Record F)} (h : Descend records)
    {record : Record F} (hmem : record ∈ records) : ∃ path, Lineage records record path := by
  induction hdepth : record.depth generalizing record with
  | zero =>
    obtain ⟨later, earlier, rfl⟩ := List.append_of_mem hmem
    have hfollows := h.follows
    unfold Follows at hfollows
    split at hfollows
    · exact ⟨_, .root hmem ‹_›⟩
    · obtain ⟨above, -, -, -, hbelow⟩ := hfollows
      omega
  | succ depth ih =>
    obtain ⟨later, earlier, rfl⟩ := List.append_of_mem hmem
    have hfollows := h.follows
    unfold Follows at hfollows
    split at hfollows
    · exact ⟨_, .root hmem ‹_›⟩
    · rename_i hparent
      obtain ⟨above, habove, hid, -, hbelow⟩ := hfollows
      have hmem' : above ∈ later ++ record :: earlier :=
        List.mem_append_right _ (List.mem_cons_of_mem _ habove)
      obtain ⟨path, hpath⟩ := ih hmem' (by omega)
      exact ⟨_, .child hmem (hparent.trans (congrArg some hid.symm)) hpath⟩

namespace Search

variable [Extended F] {E : Engine F σ β κ} {c c' : Config F σ β κ} {s : State F σ β κ} {start : σ}

/-! ## Bounds and objectives -/

/-- A bound, in minimisation, raised to an objective. -/
def Engine.raised (E : Engine F σ β κ) (bound : F) : Option F → F
  | some objective => Scalar.max bound (E.sense.normalize objective)
  | none => bound

/-- The bound comes from the inherited one and the objective, which is finite. -/
def Engine.Derives (E : Engine F σ β κ) (inherited bound : F) (objective : Option F) : Prop :=
  bound = E.raised inherited objective ∧
    ∀ value, objective = some value → Scalar.isFinite value = true

/-- The bound, in minimisation, is the largest of the objectives, and `-∞` if there are none. -/
structure Engine.IsLargest (E : Engine F σ β κ) (bound : F) (objectives : List F) : Prop where
  eq_of_nil : objectives = [] → bound = -Extended.infinity
  mem : objectives ≠ [] → bound ∈ objectives.map E.sense.normalize
  le : ∀ objective ∈ objectives, E.sense.normalize objective ≤ bound

/-- What recording an answer makes of the bound. -/
theorem Engine.raised_eq (E : Engine F σ β κ) (bound : F) (answer : Answer F) :
    (if answer.isOptimal then
        Scalar.max bound (E.sense.normalize (answer.objective?.getD Extended.nan))
      else bound) = E.raised bound answer.objective? := by
  cases answer <;> rfl

theorem Engine.isLargest_nil (E : Engine F σ β κ) : E.IsLargest (-Extended.infinity) [] :=
  ⟨fun _ => rfl, fun h => absurd rfl h, fun _ h => nomatch h⟩

section
variable [Scalar.Ordered F] [Scalar.Ranked F]

/-- The largest of finite objectives, or `-∞`, is a number. -/
theorem Engine.IsLargest.number {bound : F} {objectives : List F} (h : E.IsLargest bound objectives)
    (hfinite : ∀ value ∈ objectives, Scalar.isFinite value = true) : bound ≤ bound := by
  by_cases hnil : objectives = []
  · rw [h.eq_of_nil hnil]
    exact Scalar.Ordered.neg_infinity_le
  · obtain ⟨value, hvalue, rfl⟩ := List.mem_map.1 (h.mem hnil)
    exact Scalar.Ordered.le_of_isFinite (E.sense.isFinite_normalize (hfinite value hvalue))

/-- With one more objective, the bound is raised to it. -/
theorem Engine.IsLargest.cons {bound value : F} {objectives : List F}
    (h : E.IsLargest bound objectives) (hfinite : ∀ v ∈ objectives, Scalar.isFinite v = true)
    (hvalue : Scalar.isFinite value = true) :
    E.IsLargest (E.raised bound (some value)) (value :: objectives) := by
  have hbound := h.number hfinite
  have hnumber := Scalar.Ordered.le_of_isFinite (E.sense.isFinite_normalize hvalue)
  have hle := Scalar.le_max_right (a := bound) hnumber
  refine ⟨fun hnil => (by cases hnil), fun _ => ?_, List.forall_mem_cons.2 ⟨hle, fun v hv => ?_⟩⟩
  · show Scalar.max bound (E.sense.normalize value) ∈ _
    rcases Scalar.max_choice bound (E.sense.normalize value) with heq | heq
    · rw [heq, List.map_cons]
      refine List.mem_cons_of_mem _ (h.mem fun hnil => ?_)
      -- without other objectives the bound was below this one
      have hlt := Scalar.Ranked.neg_infinity_lt (E.sense.isFinite_normalize hvalue)
      rw [heq, h.eq_of_nil hnil] at hle
      exact (Scalar.Ordered.not_lt Scalar.Ordered.neg_infinity_le hnumber).2 hle hlt
    · exact List.mem_map.2 ⟨value, List.mem_cons_self, heq.symm⟩
  · exact Scalar.Ordered.le_trans (h.le v hv) (Scalar.le_max_left hbound)

/-- The largest objective, one node further down. -/
theorem Engine.IsLargest.derive {inherited bound : F} {objective : Option F} {objectives : List F}
    (h : E.IsLargest inherited objectives)
    (hfinite : ∀ v ∈ objectives, Scalar.isFinite v = true)
    (hderives : E.Derives inherited bound objective) :
    E.IsLargest bound (objective.toList ++ objectives) ∧
      ∀ v ∈ objective.toList ++ objectives, Scalar.isFinite v = true := by
  obtain ⟨rfl, hvalue⟩ := hderives
  rcases objective with _ | value
  · exact ⟨h, hfinite⟩
  · exact ⟨h.cons hfinite (hvalue value rfl), List.forall_mem_cons.2 ⟨hvalue value rfl, hfinite⟩⟩

end

/-! ## Live and closed nodes -/

/-- Bounds and objectives belong together, of live nodes and in the records, and the records have
    inherited from each other. -/
structure Config.Lineal (E : Engine F σ β κ) (start : σ) (c : Config F σ β κ) : Prop where
  traced : c.Traced E start
  chronicled : c.Chronicled
  inherited : c.Inherited E
  derives : ∀ {id node}, c.state.tree.get? id = some node →
    E.Derives node.parentBound node.dualBound node.objective?
  recorded : ∀ record ∈ c.state.records, E.Derives (E.sense.normalize record.parentBound)
    (E.sense.normalize record.dualBound) record.objective
  root : ∀ record ∈ c.state.records, record.parent = none →
    record.parentBound = E.sense.normalize (-Extended.infinity)
  linked : ∀ record ∈ c.state.records, ∀ parent, record.parent = some parent →
    ∃ above ∈ c.state.records, above.id = parent ∧ record.parentBound = above.dualBound

namespace Config.Lineal

/-- A move that leaves the tree and the records. -/
theorem of_eq (hc : c.Lineal E start) (h : Move E c c') (htree : c'.state.tree = c.state.tree)
    (hrecords : c'.state.records = c.state.records) : c'.Lineal E start where
  traced := h.traced hc.traced
  chronicled := h.chronicled hc.chronicled
  inherited := h.inherited hc.chronicled hc.inherited
  derives := htree ▸ hc.derives
  recorded := hrecords ▸ hc.recorded
  root := hrecords ▸ hc.root
  linked := hrecords ▸ hc.linked

/-- A node is closed; the only one that may be divided is this one. -/
theorem of_closed [Scalar.Ranked F] {id : NodeId} {node : Node F} {status : NodeStatus}
    {released : Nat} (hc : c.Lineal E start) (htraced : c'.Traced E start)
    (hchronicled : c'.Chronicled) (hinherited : c'.Inherited E)
    (hnode : c.state.tree.get? id = some node)
    (hclose : c.state.tree.close id status = .ok (c'.state.tree, released))
    (hdivides : ∀ other, c.stage.Divides other → other = id)
    (hrecords : c'.state.records = E.record node status :: c.state.records) :
    c'.Lineal E start := by
  have hcoherent := hc.chronicled.tidy.coherent
  refine ⟨htraced, hchronicled, hinherited, fun hn => ?_, ?_, ?_, ?_⟩
  · obtain ⟨before, hbefore, rfl⟩ :=
      Tree.get?_of_close hcoherent.wellFormed hcoherent.settled hclose hn
    split
    · rw [(Tree.finish_bounds status before).1, (Tree.finish_bounds status before).2,
        Tree.finish_objective?]
      exact hc.derives hbefore
    · exact hc.derives hbefore
  · rw [hrecords]
    refine List.forall_mem_cons.2 ⟨?_, hc.recorded⟩
    show E.Derives (E.sense.normalize (E.sense.normalize node.parentBound))
      (E.sense.normalize (E.sense.normalize node.dualBound)) node.objective?
    rw [Sense.normalize_normalize, Sense.normalize_normalize]
    exact hc.derives hnode
  · rw [hrecords]
    refine List.forall_mem_cons.2 ⟨fun hparent => ?_, hc.root⟩
    exact congrArg E.sense.normalize (hc.inherited.inherits.root hnode hparent)
  · rw [hrecords]
    refine List.forall_mem_cons.2
      ⟨fun parent hparent => ?_, fun record hrecord parent hparent => ?_⟩
    · have hlt := (Tree.IsParent.live hcoherent.wellFormed ⟨node, hnode, hparent⟩).1
      obtain ⟨above, hmem, hid, -, -, hbound⟩ :=
        hc.inherited.parent_record hc.chronicled hnode hparent
          fun hdiv => Nat.ne_of_lt hlt (hdivides parent hdiv)
      exact ⟨above, List.mem_cons_of_mem _ hmem, hid, hbound⟩
    · obtain ⟨above, hmem, hrest⟩ := hc.linked record hrecord parent hparent
      exact ⟨above, List.mem_cons_of_mem _ hmem, hrest⟩

/-- The bound of the current node is raised to its objective. -/
theorem record {id : NodeId} {r : Restrictions F} {answer : Answer F} {before node : Node F}
    {strategy : β} (hc : Config.Lineal E start ⟨.relaxed id r answer, [], s⟩)
    (h : Move E ⟨.relaxed id r answer, [], s⟩ ⟨.consulting id r answer E.callbacks, [],
      { s with tree := s.tree.modify id fun _ => node, strategy }⟩)
    (hbefore : s.tree.get? id = some before)
    (hrecord : before.record? answer
      (E.sense.normalize (answer.objective?.getD Extended.nan)) = some node) :
    Config.Lineal E start ⟨.consulting id r answer E.callbacks, [],
      { s with tree := s.tree.modify id fun _ => node, strategy }⟩ := by
  refine ⟨h.traced hc.traced, h.chronicled hc.chronicled, h.inherited hc.chronicled hc.inherited,
    fun {other n} hn => ?_, hc.recorded, hc.root, hc.linked⟩
  change (s.tree.modify id fun _ => node).get? other = some n at hn
  rw [Tree.get?_modify] at hn
  split at hn
  · obtain ⟨_, -, rfl⟩ := Option.map_eq_some_iff.1 hn
    obtain ⟨-, -, -, -, hanswer, hbound⟩ := record?_spec hrecord
    obtain ⟨-, fresh, hfresh, -, hnone⟩ := hc.chronicled.tidy.coherent.fits
    cases hbefore.symm.trans hfresh
    -- before its answer the node has the bound that it inherited
    have hinherited : before.dualBound = before.parentBound := by
      have hderives := (hc.derives hbefore).1
      rwa [Node.objective?, hnone] at hderives
    have hobjective : node.objective? = answer.objective? := by rw [Node.objective?, hanswer]; rfl
    rw [Engine.raised_eq, hinherited, ← record?_parentBound hrecord] at hbound
    refine ⟨hobjective ▸ hbound, fun value hvalue => ?_⟩
    rw [hobjective] at hvalue
    cases answer <;> cases hvalue
    exact (Engine.Answers.finite hc.traced.stage).2.1
  · exact hc.derives hn

/-- A child has the bound of its parent, and no answer. -/
theorem spawn {id child : NodeId} {d : Decision F} {change : BoundChange F}
    {left : List (BoundChange F)} {tree : Tree F} {node : Node F}
    (hc : Config.Lineal E start ⟨.splitting id d (change :: left), [], s⟩)
    (hcreate : s.tree.createChild id change = .ok (tree, child))
    (hnode : tree.get? child = some node) :
    Config.Lineal E start ⟨.splitting id d left, [], s.spawned tree node⟩ := by
  have h : Move E ⟨.splitting id d (change :: left), [], s⟩ _ := .spawn hcreate hnode
  obtain ⟨slot, hslot, -, -⟩ := Tree.createChild_eq hcreate
  refine ⟨h.traced hc.traced, h.chronicled hc.chronicled, h.inherited hc.chronicled hc.inherited,
    fun {other n} hn => ?_, hc.recorded, hc.root, hc.linked⟩
  change tree.get? other = some n at hn
  rw [Tree.get?_createChild hcreate (Tree.get?_of_slot? hslot)] at hn
  split at hn
  · cases hn
    exact ⟨rfl, fun _ h => nomatch h⟩
  · exact hc.derives hn

end Config.Lineal

theorem Move.lineal [Scalar.Ranked F] (h : Move E c c') (hc : c.Lineal E start) :
    c'.Lineal E start := by
  have hmove := h
  have htraced := h.traced hc.traced
  have hchronicled := h.chronicled hc.chronicled
  have hinherited := h.inherited hc.chronicled hc.inherited
  cases h with
  | @remark stage doomed s event h =>
    exact hc.of_eq hmove rfl (State.records_logged h)
  | conclude h => exact hc.of_eq hmove rfl h.records_eq
  | record hbefore hrecord hlearn => exact hc.record hmove hbefore hrecord
  | sweep hnode hclose =>
    exact hc.of_closed htraced hchronicled hinherited hnode hclose
      (fun other hdivides => absurd hdivides (hc.chronicled.calm (List.cons_ne_nil _ _) other)) rfl
  | spawn hcreate hnode => exact hc.spawn hcreate hnode
  | close hnode hclose hgo =>
    exact hc.of_closed htraced hchronicled hinherited hnode hclose
      (fun _ hdivides => hdivides.1) rfl
  | _ => exact hc.of_eq hmove rfl rfl

theorem Moves.lineal [Scalar.Ranked F] (h : Moves E c c') (hc : c.Lineal E start) :
    c'.Lineal E start := by
  induction h with
  | refl => exact hc
  | tail _ hmove ih => exact hmove.lineal ih

/-- At the start the root is the only node. -/
theorem Config.lineal_initial (E : Engine F σ β κ) (start : σ) (strategy : β) (callbacks : κ) :
    (Config.idle (State.initial E start strategy callbacks)).Lineal E start where
  traced := traced_initial E start strategy callbacks
  chronicled := Config.chronicled_initial E start strategy callbacks
  inherited := Config.inherited_initial E start strategy callbacks
  derives hnode := by
    obtain ⟨-, rfl⟩ := eq_root_of_initial E start strategy callbacks hnode
    exact ⟨rfl, fun _ h => nomatch h⟩
  recorded _ h := nomatch h
  root _ h := nomatch h
  linked _ h := nomatch h

/-! ## Paths -/

/-- Closed nodes have inherited the bounds with which their parents were closed, and the bound of
    each is the largest objective on its path. -/
structure State.Lineal (E : Engine F σ β κ) (s : State F σ β κ) : Prop where
  /-- Each closed node has one record. -/
  nodup : (s.records.map Record.id).Nodup
  inherits : ∀ record ∈ s.records, ∀ parent, record.parent = some parent →
    ∃ above ∈ s.records, above.id = parent ∧ record.parentBound = above.dualBound
  lineage : ∀ record ∈ s.records, ∃ path, Record.Lineage s.records record path
  largest : ∀ {record path}, Record.Lineage s.records record path →
    E.IsLargest (E.sense.normalize record.dualBound) (path.filterMap Record.objective)

/-- The bound of each pending node is the largest objective on the path to its parent. -/
def State.Awaits (E : Engine F σ β κ) (s : State F σ β κ) : Prop :=
  ∀ key ∈ s.frontier.keys, ∃ node, s.tree.get? key.id = some node ∧ match node.parent with
    | none => E.IsLargest key.bound []
    | some parent => ∃ above path, above.id = parent ∧ Record.Lineage s.records above path ∧
        E.IsLargest key.bound (path.filterMap Record.objective)

theorem Config.Lineal.nodup (hc : c.Lineal E start) : (c.state.records.map Record.id).Nodup :=
  (List.nodup_append.1 (hc.chronicled.perm.nodup_iff.2 List.nodup_range)).1

section
variable [Scalar.Ordered F] [Scalar.Ranked F]

namespace Config.Lineal

/-- The bound of a closed node is the largest objective on its path. -/
theorem largest (hc : c.Lineal E start) {record : Record F} {path : List (Record F)}
    (h : Record.Lineage c.state.records record path) :
    E.IsLargest (E.sense.normalize record.dualBound) (path.filterMap Record.objective) ∧
      ∀ v ∈ path.filterMap Record.objective, Scalar.isFinite v = true := by
  induction h with
  | @root record hmem hparent =>
    have hderives := hc.recorded record hmem
    rw [hc.root record hmem hparent, Sense.normalize_normalize] at hderives
    rw [Record.filterMap_objective_cons]
    exact E.isLargest_nil.derive (fun _ h => nomatch h) hderives
  | @child record above path hmem hparent habove ih =>
    obtain ⟨hlargest, hfinite⟩ := ih
    have hderives := hc.recorded record hmem
    obtain ⟨above', hmem', hid, hbound⟩ := hc.linked record hmem above.id hparent
    have habove' : above ∈ c.state.records := by cases habove <;> assumption
    obtain rfl : above' = above := List.inj_on_of_nodup_map hc.nodup hmem' habove' hid
    rw [hbound] at hderives
    rw [Record.filterMap_objective_cons]
    exact hlargest.derive hfinite hderives

theorem state (hc : c.Lineal E start) : c.state.Lineal E where
  nodup := hc.nodup
  inherits := hc.linked
  lineage _ hrecord := hc.chronicled.descend.lineage hrecord
  largest h := (hc.largest h).1

omit [Scalar.Ranked F] in
/-- The bounds of live nodes are numbers. -/
theorem number (hc : c.Lineal E start) {id : NodeId} {node : Node F}
    (hnode : c.state.tree.get? id = some node) :
    node.parentBound ≤ node.parentBound ∧ node.parentBound ≤ node.dualBound := by
  have hrises : ∀ {n : Node F}, E.Derives n.parentBound n.dualBound n.objective? →
      n.parentBound ≤ n.parentBound → n.parentBound ≤ n.dualBound := by
    rintro n ⟨hbound, -⟩ hnumber
    rw [hbound]
    rcases n.objective? with _ | value
    · exact hnumber
    · exact Scalar.le_max_left hnumber
  induction id using Nat.strongRecOn generalizing node with
  | _ id ih =>
    suffices hnumber : node.parentBound ≤ node.parentBound from
      ⟨hnumber, hrises (hc.derives hnode) hnumber⟩
    cases hparent : node.parent with
    | none =>
      rw [hc.inherited.inherits.root hnode hparent]
      exact Scalar.Ordered.neg_infinity_le
    | some p =>
      obtain ⟨hlt, parent, hlive⟩ := Tree.IsParent.live
        hc.chronicled.tidy.coherent.wellFormed ⟨node, hnode, hparent⟩
      rw [hc.inherited.inherits.child hnode hparent hlive]
      exact (Scalar.Ordered.refl_of_le (ih p hlt hlive).2).2

/-- Between two nodes all parents have a record. -/
theorem awaits (hc : (Config.idle s).Lineal E start) : s.Awaits E := by
  intro key hkey
  obtain ⟨node, hnode, -, hanswer, hbound, -⟩ :=
    hc.chronicled.tidy.coherent.holds key (List.mem_append_left _ hkey)
  refine ⟨node, hnode, ?_⟩
  have hinherited : node.dualBound = node.parentBound := by
    have hderives := (hc.derives hnode).1
    rwa [Node.objective?, hanswer] at hderives
  rw [← hbound, hinherited]
  cases hparent : node.parent with
  | none =>
    rw [hc.inherited.inherits.root hnode hparent]
    exact E.isLargest_nil
  | some parent =>
    obtain ⟨above, hmem, hid, -, -, habove⟩ :=
      hc.inherited.parent_record hc.chronicled hnode hparent (fun h => h)
    obtain ⟨path, hpath⟩ := hc.chronicled.descend.lineage hmem
    refine ⟨above, path, hid, hpath, ?_⟩
    rw [← Sense.normalize_normalize E.sense node.parentBound, habove]
    exact (hc.largest hpath).1

end Config.Lineal

end

end Search

end Milp
