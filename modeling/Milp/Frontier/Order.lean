/-
  Exploration orders.

  * `NodeKey`: what the frontier knows about a pending node.
  * `Selection.order`: the order in which pending nodes are explored.  Every order ends with the
    sequence of insertion, so no two nodes are level.
-/
import Milp.Node

namespace Milp

variable {F : Type}

/-- A pending node: its bound in minimisation, its depth, and its place in the sequence of
    insertions. -/
structure NodeKey (F : Type) where
  id : NodeId
  bound : F
  depth : Nat
  seq : Nat
  deriving DecidableEq, Repr

/-- An exploration order of the caller's: `lt` is explored first. -/
structure Comparator (F : Type) where
  name : String := "custom"
  compare : NodeKey F → NodeKey F → Ordering

namespace Comparator

variable [Scalar F]

/-- The highest bound first. -/
def worstFirst : Comparator F where
  compare a b := Scalar.order b.bound a.bound

/-- No preference at all. -/
def level : Comparator F where
  compare _ _ := .eq

/-- Nodes of even depth first. -/
def evenDepthFirst : Comparator F where
  compare a b := Ord.compare (a.depth % 2) (b.depth % 2)

/-- The highest number first. -/
def newestFirst : Comparator F where
  name := "id-desc"
  compare a b := Ord.compare b.id a.id

end Comparator

/-- Which pending node is explored next. -/
inductive Selection (F : Type) where
  /-- The best bound, then the smaller depth. -/
  | bestBound
  /-- The greater depth, then the best bound, then the latest insertion. -/
  | depthFirst
  /-- The smaller depth. -/
  | breadthFirst
  | custom (comparator : Comparator F)

namespace Selection

def label : Selection F → String
  | bestBound => "BestBound"
  | depthFirst => "DepthFirst"
  | breadthFirst => "BreadthFirst"
  | custom comparator => s!"Custom(NodeComparator({comparator.name}))"

/-- The order of two pending nodes; `lt` is explored first. -/
def order [Scalar F] : Selection F → NodeKey F → NodeKey F → Ordering
  | bestBound, a, b =>
    (Scalar.order a.bound b.bound).then ((compare a.depth b.depth).then (compare a.seq b.seq))
  | depthFirst, a, b =>
    (compare b.depth a.depth).then ((Scalar.order a.bound b.bound).then (compare b.seq a.seq))
  | breadthFirst, a, b => (compare a.depth b.depth).then (compare a.seq b.seq)
  | custom comparator, a, b => (comparator.compare a b).then (compare a.seq b.seq)

/-- Is `a` explored before `b`? -/
def before [Scalar F] (s : Selection F) (a b : NodeKey F) : Bool := s.order a b == .lt

end Selection

end Milp
