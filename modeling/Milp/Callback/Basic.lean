/-
  Callbacks: heuristics and observers that a search calls.

  A callback runs once a node is solved, before it is decided what becomes of the node, and once
  more when a node is closed.  It sees a `View` of the node, may hand back a proposal, and keeps
  what it likes in its own state; tree, frontier and incumbent are out of its reach.

  * `Callback F κ`: a callback with state `κ`.  The callbacks of one search run in order on a common
    state; `Callback.focus` lets a callback work on a part of it.
  * `Callbacks.invoke`, `Callbacks.notify`: call one callback on a solved node, and all of them on a
    closed one.
-/
import Milp.Proposal
import Milp.Restrictions

namespace Milp

variable {F κ τ : Type}

/-- A solved node as callbacks see it.  Bounds and objectives are in the direction of the
    program. -/
structure View (F : Type) where
  id : NodeId
  parent : Option NodeId
  depth : Nat
  parentBound : F
  answer : Answer F
  restrictions : Restrictions F
  problem : MixedProgram F
  sense : Sense
  /-- The objective of the incumbent. -/
  incumbent : Option F

/-- A closed node as callbacks see it.  Bounds are in the direction of the program. -/
structure Record (F : Type) where
  id : NodeId
  parent : Option NodeId
  depth : Nat
  parentBound : F
  dualBound : F
  /-- The objective of its relaxation, if that was solved to optimality. -/
  objective : Option F
  status : NodeStatus
  deriving DecidableEq, Repr

/-- What a search calls.  The list handed to `onSolved` holds the candidates for branching. -/
structure Callback (F κ : Type) where
  name : String
  onSolved : View F → List Nat → κ → Except Fault (Option (Proposal F) × κ)
  onClosed : Record F → κ → κ := fun _ s => s

namespace Callback

def label (c : Callback F κ) : String := s!"NodeCallback({c.name})"

/-- Let a callback work on a part of a larger state. -/
def focus (get : κ → τ) (put : κ → τ → κ) (c : Callback F τ) : Callback F κ where
  name := c.name
  onSolved view candidates s := do
    let (proposal, part) ← c.onSolved view candidates (get s)
    return (proposal, put s part)
  onClosed record s := put s (c.onClosed record (get s))

end Callback

/-- Callbacks in the order in which they are called. -/
abbrev Callbacks (F κ : Type) := List (Callback F κ)

namespace Callbacks

def label (cs : Callbacks F κ) : String :=
  let names := ", ".intercalate (cs.map Callback.label)
  s!"CallbackRegistry \x7b callbacks: [{names}] \x7d"

/-- The name of a callback, empty if there is none. -/
def nameAt (cs : Callbacks F κ) (i : Nat) : String := (cs[i]?.map Callback.name).getD ""

/-- Call one callback on a solved node.  A callback that does not exist proposes nothing. -/
def invoke (cs : Callbacks F κ) (i : Nat) (view : View F) (candidates : List Nat) (s : κ) :
    Except Fault (Option (Proposal F) × κ) :=
  match cs[i]? with
  | some c => c.onSolved view candidates s
  | none => return (none, s)

/-- Tell all callbacks that a node was closed. -/
def notify (cs : Callbacks F κ) (record : Record F) (s : κ) : κ :=
  cs.foldl (fun s c => c.onClosed record s) s

end Callbacks

end Milp
