/-
  Solutions as JSON values.

  * `Solution.toJson`: records are objects; a status is its name, and so is an origin, but for a
    heuristic, which is an object with the name of the callback.
  * `Solution.ofJson?`: reads what `toJson` writes, and also records as arrays of their fields in
    order, names as objects that hold `null`, and a solution without the field of its incumbent.
    Fields that are not known are passed over, except in a duration.
-/
import Milp.Json.Basic
import Milp.Solution

namespace Milp

variable {F : Type}

namespace Json

/-- The values of the fields of a record, in order; a field that an object does not have is absent.
    An array has to hold all of them, and nothing else. -/
def members? (names : List String) : Json F → Option (List (Option (Json F)))
  | object fields => some (names.map fun name => fields.lookup name)
  | array items => if items.length = names.length then some (items.map some) else none
  | _ => none

/-- A name, alone or with a value. -/
def variant? : Json F → Option (String × Option (Json F))
  | string name => some (name, none)
  | object [(name, v)] => some (name, some v)
  | _ => none

def isNull : Json F → Bool
  | null => true
  | _ => false

/-- A count fits into 64 bits. -/
def count? : Json F → Option Nat := natural? UInt64.size

end Json

open Json

namespace Duration

def toJson (d : Duration) : Json F :=
  object [("secs", ofNat d.secs), ("nanos", ofNat d.nanos)]

/-- Are all fields of an object fields of a duration? -/
def fieldsKnown : Json F → Bool
  | object fields => fields.all fun (name, _) => name = "secs" || name = "nanos"
  | _ => true

/-- Whole seconds are carried over from the nanoseconds, as far as the seconds fit into 64 bits. -/
def ofJson? (j : Json F) : Option Duration :=
  if fieldsKnown j then do
    match ← j.members? ["secs", "nanos"] with
    | [secs, nanos] =>
      let d := Duration.ofParts (← count? (← secs)) (← natural? UInt32.size (← nanos))
      if d.secs < UInt64.size then return d else none
    | _ => none
  else none

end Duration

namespace SearchStatus

/-- The name of a status in JSON. -/
def name : SearchStatus → String
  | optimal => "Optimal"
  | infeasible => "Infeasible"
  | timeLimitReached => "TimeLimitReached"
  | nodeLimitReached => "NodeLimitReached"
  | unsolved => "Unsolved"

def all : List SearchStatus :=
  [optimal, infeasible, timeLimitReached, nodeLimitReached, unsolved]

def toJson (s : SearchStatus) : Json F := string s.name

def ofJson? (j : Json F) : Option SearchStatus := do
  let (name, value) ← j.variant?
  if value.all isNull then all.find? fun s => s.name = name else none

end SearchStatus

namespace Origin

def toJson : Origin → Json F
  | relaxation => string "Relaxation"
  | heuristic name => object [("Heuristic", string name)]

def ofJson? (j : Json F) : Option Origin := do
  match ← j.variant? with
  | ("Relaxation", value) => if value.all isNull then return relaxation else none
  | ("Heuristic", some value) => return heuristic (← value.string?)
  | _ => none

end Origin

namespace Incumbent

variable [Scalar F]

def fields : List String := ["obj_val", "x", "source", "node", "found_at_node"]

def toJson (i : Incumbent F) : Json F :=
  object <| fields.zip [
    ofScalar i.objective, array (i.x.map ofScalar), i.origin.toJson, ofNat i.node,
    ofNat i.foundAt]

def ofJson? (j : Json F) : Option (Incumbent F) := do
  match ← j.members? fields with
  | [objective, x, origin, node, foundAt] =>
    return {
      objective := ← (← objective).scalar?
      x := ← (← x).scalars?
      origin := ← Origin.ofJson? (← origin)
      node := ← count? (← node)
      foundAt := ← count? (← foundAt) }
  | _ => none

end Incumbent

namespace Statistics

variable [Scalar F]

def fields : List String := [
  "nodes_processed", "nodes_created", "nodes_pruned", "nodes_infeasible", "nodes_unbounded",
  "nodes_branched", "nodes_open", "solver_errors", "callback_rejections", "incumbent_updates",
  "max_depth", "best_bound", "gap", "elapsed"]

def toJson (t : Statistics F) : Json F :=
  object <| fields.zip [
    ofNat t.processed, ofNat t.created, ofNat t.pruned, ofNat t.infeasible, ofNat t.unbounded,
    ofNat t.branched, ofNat t.pending, ofNat t.solverErrors, ofNat t.rejections,
    ofNat t.incumbentUpdates, ofNat t.maxDepth, ofScalar t.bestBound, ofScalar t.gap,
    t.elapsed.toJson]

def ofJson? (j : Json F) : Option (Statistics F) := do
  match ← j.members? fields with
  | [processed, created, pruned, infeasible, unbounded, branched, pending, solverErrors,
      rejections, incumbentUpdates, maxDepth, bestBound, gap, elapsed] =>
    return {
      processed := ← count? (← processed)
      created := ← count? (← created)
      pruned := ← count? (← pruned)
      infeasible := ← count? (← infeasible)
      unbounded := ← count? (← unbounded)
      branched := ← count? (← branched)
      pending := ← count? (← pending)
      solverErrors := ← count? (← solverErrors)
      rejections := ← count? (← rejections)
      incumbentUpdates := ← count? (← incumbentUpdates)
      maxDepth := ← count? (← maxDepth)
      bestBound := ← (← bestBound).scalar?
      gap := ← (← gap).scalar?
      elapsed := ← Duration.ofJson? (← elapsed) }
  | _ => none

end Statistics

namespace Solution

variable [Scalar F]

def fields : List String := ["status", "incumbent", "stats"]

def toJson (s : Solution F) : Json F :=
  object <| fields.zip [
    s.status.toJson, (s.incumbent.map Incumbent.toJson).getD null, s.statistics.toJson]

/-- An incumbent that is absent, or `null`, is none. -/
def incumbentOf? : Option (Json F) → Option (Option (Incumbent F))
  | none | some null => some none
  | some j => (Incumbent.ofJson? j).map some

def ofJson? (j : Json F) : Option (Solution F) := do
  match ← j.members? fields with
  | [status, incumbent, statistics] =>
    return {
      status := ← SearchStatus.ofJson? (← status)
      incumbent := ← incumbentOf? incumbent
      statistics := ← Statistics.ofJson? (← statistics) }
  | _ => none

end Solution

end Milp
