/-
  Callbacks with simple tasks.

  * `Callback.scripted`: makes proposals that are laid down beforehand.
  * `Callback.observer`: proposes nothing and writes down what it sees.
-/
import Milp.Callback.Basic

namespace Milp

variable {F κ : Type}

/-- A proposal for one node, or for every node. -/
structure ScriptedProposal (F : Type) where
  node : Option NodeId
  proposal : Proposal F
  deriving DecidableEq, Repr

/-- Is the proposal meant for this node? -/
def ScriptedProposal.applies (s : ScriptedProposal F) (id : NodeId) : Bool := s.node.all (· = id)

/-- What observers have seen, the latest last. -/
structure Sightings (F : Type) where
  views : Array (View F) := #[]
  closed : Array (Record F) := #[]

namespace Callback

/-- On every node make the first proposal that is meant for it. -/
def scripted (name : String) (proposals : List (ScriptedProposal F)) : Callback F κ where
  name
  onSolved view _ s := return ((proposals.find? (·.applies view.id)).map (·.proposal), s)

/-- Write down every view and every record. -/
def observer (name : String) : Callback F (Sightings F) where
  name
  onSolved view _ s := return (none, { s with views := s.views.push view })
  onClosed record s := { s with closed := s.closed.push record }

end Callback

end Milp
