/-
  The live part of a search tree.

  A node stays in the tree as long as it, or a node below it, is not closed: closing a node releases
  it if it has no live children, and then its closed ancestors as far as they have none left.

  * `Tree.createRoot`, `Tree.createChild`: new nodes; numbers are given in order of creation.
  * `Tree.restrictions`: the intervals set on the path from the root to a node; a deeper one counts.
  * `Tree.close`: the final status of a node, and the number of nodes released by it.
-/
import Milp.Node

namespace Milp

variable {F : Type}

/-- A live node and the number of its live children. -/
structure Slot (F : Type) where
  node : Node F
  liveChildren : Nat
  deriving DecidableEq, Repr

/-- The live nodes by number, and how many nodes were released. -/
structure Tree (F : Type) where
  slots : Array (Option (Slot F))
  released : Nat
  deriving DecidableEq, Repr

/-- What a tree is asked for. -/
inductive TreeOperation where
  | createChild
  | node
  | close
  deriving DecidableEq, Repr

def TreeOperation.label : TreeOperation → String
  | createChild => "create_child"
  | node => "node"
  | close => "close"

/-- Why a tree refuses. -/
inductive TreeError where
  | missing (operation : TreeOperation) (id : NodeId)
  | notFinal (id : NodeId) (status : NodeStatus)
  deriving DecidableEq, Repr

/-- The text of an error. -/
def TreeError.message : TreeError → String
  | missing operation id => s!"{operation.label}: node {id.label} is not in the arena"
  | notFinal id status => s!"node {id.label} cannot be closed with status {status.label}"

namespace Tree

/-- No nodes. -/
def empty : Tree F := ⟨#[], 0⟩

/-- The number of nodes ever created. -/
def created (t : Tree F) : Nat := t.slots.size

/-- The number of live nodes. -/
def size (t : Tree F) : Nat := t.slots.countP Option.isSome

def isEmpty (t : Tree F) : Bool := t.size = 0

/-- The slot of a live node. -/
def slot? (t : Tree F) (id : NodeId) : Option (Slot F) := t.slots[id]?.join

/-- A live node. -/
def get? (t : Tree F) (id : NodeId) : Option (Node F) := (t.slot? id).map Slot.node

/-- A live node, or the error that there is none. -/
def node (t : Tree F) (id : NodeId) : Except TreeError (Node F) :=
  match t.get? id with
  | some node => .ok node
  | none => .error (.missing .node id)

/-- The number of live children of a live node. -/
def liveChildren? (t : Tree F) (id : NodeId) : Option Nat := (t.slot? id).map Slot.liveChildren

/-- Change the slot of a live node. -/
def modifySlot (t : Tree F) (id : NodeId) (f : Slot F → Slot F) : Tree F :=
  { t with slots := t.slots.modify id (Option.map f) }

/-- Change a live node. -/
def modify (t : Tree F) (id : NodeId) (f : Node F → Node F) : Tree F :=
  t.modifySlot id fun s => { s with node := f s.node }

/-- Insert a new node without children. -/
def insert (t : Tree F) (node : Node F) : Tree F :=
  { t with slots := t.slots.push (some ⟨node, 0⟩) }

/-- Create a root. -/
def createRoot [Extended F] (t : Tree F) : Tree F × NodeId :=
  (t.insert (Node.root t.created), t.created)

/-- Create a child of a live node. -/
def createChild (t : Tree F) (parent : NodeId) (change : BoundChange F) :
    Except TreeError (Tree F × NodeId) :=
  match t.get? parent with
  | none => .error (.missing .createChild parent)
  | some node =>
    let counted := t.modifySlot parent fun s => { s with liveChildren := s.liveChildren + 1 }
    .ok (counted.insert (node.child t.created change), t.created)

/-- The nodes from a live node up to its root.  A parent has a smaller number than its children, so
    the climb ends. -/
def path (t : Tree F) (id : NodeId) : Except TreeError (List (Node F)) :=
  match t.get? id with
  | none => .error (.missing .node id)
  | some node =>
    match node.parent with
    | none => .ok [node]
    | some parent =>
      if parent < id then (path t parent).map (node :: ·)
      else .error (.missing .node parent)
termination_by id

/-- The restrictions at a node: the changes on its path, the ones nearer to the root first. -/
def restrictions (t : Tree F) (id : NodeId) : Except TreeError (Restrictions F) := do
  let changes := (← t.path id).reverse.flatMap Node.changes
  return changes.foldl (fun r c => r.set c.var c.new) Restrictions.empty

/-- Release a closed node without live children, and then its ancestors as far as the same holds of
    them.  The number counts the nodes released. -/
def release (t : Tree F) (id : NodeId) : Tree F × Nat :=
  match t.slot? id with
  | none => (t, 0)
  | some s =>
    if s.liveChildren = 0 && s.node.status.isClosed then
      let t : Tree F := ⟨t.slots.modify id fun _ => none, t.released + 1⟩
      match s.node.parent with
      | none => (t, 1)
      | some parent =>
        let t := t.modifySlot parent fun p => { p with liveChildren := p.liveChildren - 1 }
        if parent < id then
          let (t, others) := release t parent
          (t, others + 1)
        else (t, 1)
    else (t, 0)
termination_by id

/-- Close a live node with a final status.  The point of a branched node is not needed any more. -/
def close (t : Tree F) (id : NodeId) (status : NodeStatus) : Except TreeError (Tree F × Nat) :=
  if !status.isClosed then .error (.notFinal id status)
  else
    match t.get? id with
    | none => .error (.missing .close id)
    | some _ =>
      let closed := t.modify id fun node =>
        let node := { node with status }
        if status = .branched then node.dropPoint else node
      .ok (closed.release id)

end Tree

end Milp
