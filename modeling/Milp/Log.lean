/-
  Log messages.

  * `Level`: how loud a message is.
  * `Simplex.Note.line?`: the message of a note of the simplex solver.  All but the warning about a
    point that violates its rows are written only if the solve is verbose.
  * `Search.Event.lines`: the messages of an event of a search.  What is of interest for the search
    as a whole is written only if the search is verbose.
-/
import Milp.Search.Event

namespace Milp

variable {F : Type}

/-- How loud a message is. -/
inductive Level where
  | warn
  | info
  | debug
  | trace
  deriving DecidableEq, Repr

def Level.label : Level → String
  | warn => "WARN"
  | info => "INFO"
  | debug => "DEBUG"
  | trace => "TRACE"

/-- A message and its level. -/
structure LogLine where
  level : Level
  text : String
  deriving DecidableEq, Repr

namespace Simplex

/-- The message of a note, if it is written. -/
def Note.line? [Legible F] (verbose : Bool) : Note F → Option LogLine
  | violated amount =>
    let v := Legible.scientific 3 amount
    some ⟨.warn, s!"simplex point violates constraints by {v}, reporting numerical error"⟩
  | emptyDomain var => whenVerbose s!"variable {var} has an empty domain"
  | infeasible amount =>
    let v := Legible.scientific 3 amount
    whenVerbose s!"phase 1 ended with infeasibility {v}"
  | redundant rows => whenVerbose s!"{rows} redundant rows after phase 1"
  | optimal objective phase1 phase2 rows =>
    let v := Legible.scientific 6 objective
    whenVerbose s!"simplex optimal: obj={v} pivots={phase1}+{phase2} rows={rows}"
where
  whenVerbose (text : String) : Option LogLine := if verbose then some ⟨.debug, text⟩ else none

end Simplex

namespace Search.Event

/-- The summary of a search. -/
def summary [Scalar F] [Legible F] (status : SearchStatus) (objective : F) (t : Statistics F) :
    String :=
  let seconds : F := t.elapsed.toSeconds
  s!"B&B finished: {status.label} | obj={Legible.scientific 6 objective} | nodes={t.processed} "
    ++ s!"(created {t.created}, pruned {t.pruned}, infeasible {t.infeasible}) "
    ++ s!"| errors={t.solverErrors} | rejected proposals={t.rejections} "
    ++ s!"| {Legible.fixed 3 seconds}s"

/-- The messages of an event. -/
def lines [Scalar F] [Legible F] (settings : Settings F) : Event F → List LogLine
  | started vars rows candidates relaxation strategy callbacks sense =>
    whenVerbose <|
      s!"B&B start: {vars} vars, {rows} rows, {candidates} candidates, relaxation={relaxation}, "
        ++ s!"branching={strategy}, callbacks={callbacks}, sense={sense.label}"
  | stopped reason processed =>
    whenVerbose s!"Stopping on {reason.label} after {processed} nodes"
  | dominated id bound =>
    let b := Legible.scientific 6 bound
    [⟨.trace, s!"node {id.label} pruned before solve (bound {b})"⟩]
  | emptyDomain id var => [⟨.debug, s!"node {id.label} has an empty domain for x[{var}]"⟩]
  | solved _ notes => notes.filterMap (·.line? settings.relaxation.verbose)
  | rejected callback id violation =>
    [⟨.warn, s!"rejected proposal from '{callback}' at node {id.label}: {violation.message}"⟩]
  | improved objective origin count =>
    let o := Legible.scientific 6 objective
    whenVerbose s!"New incumbent: obj={o} ({origin.label}), pruned {count} nodes"
  | failed id cause => [⟨.warn, s!"relaxation failed at node {id.label}: {cause.message}"⟩]
  | infeasible id => [⟨.trace, s!"node {id.label} infeasible"⟩]
  | unbounded id => [⟨.debug, s!"node {id.label} relaxation unbounded"⟩]
  | pruned id bound =>
    [⟨.trace, s!"node {id.label} pruned by bound {Legible.scientific 6 bound}"⟩]
  | barren id var => [⟨.debug, s!"node {id.label}: both children of x[{var}] are empty"⟩]
  | branched id d children =>
    let value := Legible.fixed 6 d.value
    let score := Legible.scientific 3 d.score
    [⟨.trace, s!"node {id.label} branched on x[{d.var}] = {value} (score {score}), "
      ++ s!"{children} children"⟩]
  | progress processed pending bound incumbent gap elapsed =>
    let seconds : F := elapsed.toSeconds
    let percent := gap * Scalar.ofNat 100
    whenVerbose <|
      s!"Nodes: {processed} ({pending} open) | Bound: {Legible.scientific 6 bound} "
        ++ s!"| Incumbent: {Legible.scientific 6 incumbent} | Gap: {Legible.fixed 2 percent}% "
        ++ s!"| Time: {Legible.fixed 1 seconds}s"
  | finished status objective statistics => whenVerbose (summary status objective statistics)
  | taken _ | offered _ _ | closed _ => []
where
  whenVerbose (text : String) : List LogLine :=
    if settings.verbose then [⟨.info, text⟩] else []

end Search.Event

end Milp
