/-
  Pseudocost branching.

  For every variable and direction the rule keeps the average rise of the bound per unit of distance
  that the variable was moved, and scores a candidate by the product of the rises it expects on the
  two sides.

  * `Estimate`: an average and the number of observations in it; the first observation replaces the
    value that was there before.
  * `Pseudocosts.observe`: learn from a child.  A rise that is not finite, or a distance of almost
    nothing, teaches nothing.  A variable without an estimate gets one, if there is room for it.
-/
import Milp.Branching.Rules

namespace Milp

variable {F : Type} [Scalar F]

/-- An average, and the number of observations in it. -/
structure Estimate (F : Type) where
  cost : F
  count : Nat := 0
  deriving DecidableEq, Repr

/-- The average with one observation more. -/
def Estimate.add (e : Estimate F) (observed : F) : Estimate F :=
  if e.count = 0 then ⟨observed, 1⟩
  else
    let count : F := Scalar.ofNat e.count
    ⟨(e.cost * count + observed) / (count + 1), e.count + 1⟩

/-- The estimates of one variable, for moving it down and up. -/
structure DirectionCosts (F : Type) where
  down : Estimate F
  up : Estimate F
  deriving DecidableEq, Repr

/-- The estimates of a variable nothing is known about. -/
def DirectionCosts.initial : DirectionCosts F := ⟨⟨1, 0⟩, ⟨1, 0⟩⟩

/-- The estimates of the first variables; of all others nothing is known. -/
structure Pseudocosts (F : Type) where
  costs : List (DirectionCosts F) := []
  deriving DecidableEq, Repr

namespace Pseudocosts

/-- Hold estimates of at least `n` variables. -/
def extend (p : Pseudocosts F) (n : Nat) : Pseudocosts F :=
  ⟨p.costs ++ List.replicate (n - p.costs.length) DirectionCosts.initial⟩

/-- The estimates of a variable. -/
def get (p : Pseudocosts F) (var : Nat) : DirectionCosts F :=
  p.costs.getD var DirectionCosts.initial

/-- Seed the estimates with the magnitudes of the cost, at least 0.1; counts stay. -/
def seed (p : Pseudocosts F) (cost : List F) : Pseudocosts F :=
  let extended := p.extend cost.length
  let start (q : F) (d : DirectionCosts F) : DirectionCosts F :=
    let c := Scalar.max (Scalar.abs q) 0.1
    ⟨⟨c, d.down.count⟩, ⟨c, d.up.count⟩⟩
  ⟨List.zipWith start cost extended.costs ++ extended.costs.drop cost.length⟩

/-- The product of the rises expected on the two sides, each at least a millionth. -/
def score (p : Pseudocosts F) (var : Nat) (value : F) : Except Fault F := do
  let d ← fetch p.costs var
  let part := value - Scalar.floor value
  let down := part * d.down.cost
  let up := (1 - part) * d.up.cost
  return Scalar.max down 1e-6 * Scalar.max up 1e-6

/-- Is there an estimate of the variable, or can there be one?  An estimate takes eight bytes. -/
def hasRoom (p : Pseudocosts F) (var : Nat) : Bool :=
  var < p.costs.length || 8 * (var + 1) ≤ addressable

/-- Learn from a child: its change, and the rise of its bound if its relaxation was optimal. -/
def observe (p : Pseudocosts F) (change : BoundChange F) (rise : Option F) :
    Except Fault (Pseudocosts F) :=
  match rise with
  | none => .ok p
  | some rise =>
    let distance := change.distance
    if distance ≤ 1e-6 || !Scalar.isFinite rise then .ok p
    else if p.hasRoom change.var then
      let observed := Scalar.max rise 0 / distance
      let learn (d : DirectionCosts F) : DirectionCosts F :=
        if change.isUp then { d with up := d.up.add observed }
        else { d with down := d.down.add observed }
      .ok ⟨(p.extend (change.var + 1)).costs.modify change.var learn⟩
    else .error .tooLarge

end Pseudocosts

/-- Branch on the candidate with the highest product of expected rises. -/
def Strategy.pseudocost : Strategy F (Pseudocosts F) where
  name := "pseudocost"
  select p q := do
    let p := p.extend q.problem.vars
    return (← bestBy q p.score, p)
  learn := Pseudocosts.observe

end Milp
