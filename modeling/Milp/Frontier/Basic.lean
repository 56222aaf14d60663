/-
  The frontier: the pending nodes of a search, as a heap in the order of exploration.

  * `Frontier.push`, `Frontier.pop?`, `Frontier.peek?`: insert a node, take or see the first.
  * `Frontier.pruneByBound`: take out all nodes that cannot improve on an incumbent, in the order
    of their insertion.
  * `Frontier.bestBound`: the least bound of a pending node.
-/
import Milp.Heap
import Milp.Frontier.Order

namespace Milp

variable {F : Type}

/-- The pending nodes, and how many were ever added and taken. -/
structure Frontier (F : Type) where
  selection : Selection F
  heap : Array (NodeKey F) := #[]
  added : Nat := 0
  popped : Nat := 0

namespace Frontier

variable [Scalar F]

/-- The number of pending nodes. -/
def size (f : Frontier F) : Nat := f.heap.size

def isEmpty (f : Frontier F) : Bool := f.heap.isEmpty

/-- Insert a node with its bound and depth. -/
def push (f : Frontier F) (id : NodeId) (bound : F) (depth : Nat) : Frontier F × NodeKey F :=
  let key : NodeKey F := ⟨id, bound, depth, f.added⟩
  ({ f with heap := Heap.push f.selection.before f.heap key, added := f.added + 1 }, key)

/-- Insert a node. -/
def pushNode (f : Frontier F) (node : Node F) : Frontier F :=
  (f.push node.id node.dualBound node.depth).1

/-- Take the node that is explored next. -/
def pop? (f : Frontier F) : Option (NodeKey F × Frontier F) :=
  (Heap.pop? f.selection.before f.heap).map fun (key, heap) =>
    (key, { f with heap, popped := f.popped + 1 })

/-- The node that is explored next. -/
def peek? (f : Frontier F) : Option (NodeKey F) := f.heap[0]?

/-- The least bound of a pending node; infinity if there is none. -/
def bestBound {F : Type} [Extended F] (f : Frontier F) : F :=
  f.heap.toList.foldl (fun acc key => Scalar.min acc key.bound) Extended.infinity

/-- Can the node not improve on an incumbent with this objective, in minimisation? -/
def prunable (incumbent tolerance : F) (key : NodeKey F) : Bool :=
  incumbent - tolerance ≤ key.bound

/-- Take out all nodes that cannot improve on an incumbent, in the order of their insertion. -/
def pruneByBound (f : Frontier F) (incumbent tolerance : F) : List (NodeKey F) × Frontier F :=
  let (pruned, kept) := f.heap.toList.partition (prunable incumbent tolerance)
  (pruned.mergeSort fun a b => a.seq ≤ b.seq,
    { f with heap := Heap.heapify f.selection.before kept.toArray })

/-- Take all nodes, in the order of exploration; the number of nodes bounds the number of steps. -/
def drain (f : Frontier F) : List (NodeKey F) × Frontier F := go f.size f []
where
  go : Nat → Frontier F → List (NodeKey F) → List (NodeKey F) × Frontier F
    | 0, f, acc => (acc.reverse, f)
    | k + 1, f, acc =>
      match f.pop? with
      | some (key, f) => go k f (key :: acc)
      | none => (acc.reverse, f)

end Frontier

end Milp
