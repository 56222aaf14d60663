/-
  Well-formed linear programs.

  * `ProgramError`: what can be wrong with a program, with its `message`.
  * `Program.validate`: the first thing wrong, in a fixed order: shapes, blocks, finite data,
    bounds, kinds.
-/
import Milp.Program.Basic
import Milp.Decimal.Text

namespace Milp

variable {F : Type}

/-- The parts of a program that hold coefficients. -/
inductive DataPart where
  | cost
  | rhs
  | matrix
  deriving DecidableEq, Repr

def DataPart.label : DataPart → String
  | cost => "q"
  | rhs => "b"
  | matrix => "A"

/-- What is wrong with a program, or with the bounds it is solved over. -/
inductive ProgramError (F : Type) where
  | matrixRows (got expected : Nat)
  | matrixCols (got expected : Nat)
  | blockTotal (got expected : Nat)
  | kindCount (got expected : Nat)
  | boundCount (lower upper expected : Nat)
  | emptyBlock (block : Block)
  | boundVariable (var vars : Nat)
  | boundNaN (var : Nat)
  | boundsCrossed (var : Nat) (lower upper : F)
  | nonFinite (part : DataPart)
  deriving DecidableEq, Repr

/-- The text of an error. -/
def ProgramError.message [Legible F] : ProgramError F → String
  | matrixRows got expected => s!"Dimension mismatch: A has {got} rows, expected {expected}"
  | matrixCols got expected => s!"Dimension mismatch: A has {got} cols, expected {expected}"
  | blockTotal got expected =>
    s!"Dimension mismatch: Cone dimensions sum to {got}, expected {expected}"
  | kindCount got expected =>
    s!"Dimension mismatch: Integrality vector has length {got}, expected {expected}"
  | boundCount lower upper expected =>
    s!"Dimension mismatch: bound vectors have lengths {lower}/{upper}, expected {expected}"
  | emptyBlock (.equality _) => "Invalid cone: Zero cone must have positive dimension"
  | emptyBlock (.atMost _) => "Invalid cone: NonNeg cone must have positive dimension"
  | boundVariable var vars => s!"Invalid bound: Bound on variable {var} out of range (n={vars})"
  | boundNaN var => s!"Invalid bound: Variable {var} has a NaN bound"
  | boundsCrossed var lower upper =>
    let l := Legible.plain lower
    let u := Legible.plain upper
    s!"Invalid bound: Variable {var} has lower bound {l} > upper bound {u}"
  | nonFinite part => s!"Non-finite data in {part.label}"

/-- An empty block is malformed. -/
def Block.validate (b : Block) : Except (ProgramError F) Unit :=
  if b.size = 0 then .error (.emptyBlock b) else .ok ()

/-- A bound entry names a variable, is a number, and is not crossed. -/
def VarBound.validate [Scalar F] (vars : Nat) (b : VarBound F) : Except (ProgramError F) Unit :=
  if vars ≤ b.var then .error (.boundVariable b.var vars)
  else if b.lower.any Scalar.isNaN || b.upper.any Scalar.isNaN then .error (.boundNaN b.var)
  else
    match b.lower, b.upper with
    | some l, some u => if u < l then .error (.boundsCrossed b.var l u) else .ok ()
    | _, _ => .ok ()

namespace Program

/-- The total number of rows of the blocks.  Sizes are 64-bit words, so the sum wraps. -/
def blockTotal (P : Program F) : Nat := P.blockRows % UInt64.size

/-- The shapes agree with the numbers of variables and rows. -/
def validateShape (P : Program F) : Except (ProgramError F) Unit :=
  if P.matrix.rows ≠ P.height then .error (.matrixRows P.matrix.rows P.height)
  else if P.matrix.cols ≠ P.vars then .error (.matrixCols P.matrix.cols P.vars)
  else if P.blockTotal ≠ P.height then .error (.blockTotal P.blockTotal P.height)
  else .ok ()

/-- All coefficients are finite. -/
def validateData [Scalar F] (P : Program F) : Except (ProgramError F) Unit :=
  if !P.cost.all Scalar.isFinite then .error (.nonFinite .cost)
  else if !P.rhs.all Scalar.isFinite then .error (.nonFinite .rhs)
  else if !P.matrix.values.all Scalar.isFinite then .error (.nonFinite .matrix)
  else .ok ()

/-- There is one kind a variable, if kinds are given. -/
def validateKinds (P : Program F) : Except (ProgramError F) Unit :=
  match P.kinds with
  | some kinds =>
    if kinds.length ≠ P.vars then .error (.kindCount kinds.length P.vars) else .ok ()
  | none => .ok ()

/-- Check a program; the first thing wrong is reported. -/
def validate [Scalar F] (P : Program F) : Except (ProgramError F) Unit := do
  P.validateShape
  P.blocks.forM Block.validate
  P.validateData
  (P.bounds.getD []).forM (VarBound.validate P.vars)
  P.validateKinds

end Program

end Milp
