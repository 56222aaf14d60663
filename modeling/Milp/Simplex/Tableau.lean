/-
  Simplex tableaus with Bland's pivoting rule.

  A tableau of `m` rows over `w` columns says `cells · y = rhs`, one basic column a row, and carries
  the reduced costs of an objective to minimise.  Rows and columns are numbered by `Fin m` and
  `Fin w`, so no entry outside the tableau can be named.

  * `Tableau.entering`: the first column that may enter and lowers the objective.
  * `Tableau.leaving`: the row that blocks an entering column first; of rows that block at the same
    ratio the one whose basic column comes first.
  * `Tableau.pivot`: exchange the basic column of a row.
  * `Tableau.run`: pivot until nothing enters, nothing blocks, or a limit is met.
  * `Tableau.driveOut`: exchange basic columns at and after a given one for earlier columns.
-/
import Milp.Scalar.Basic

namespace Milp

variable {F : Type}

namespace Simplex

/-- Limits and tolerances of a solve. -/
structure Options (F : Type) where
  /-- The largest number of pivots, both phases together. -/
  maxPivots : Nat
  /-- The time limit in milliseconds. -/
  timeLimit : Option Nat
  verbose : Bool
  /-- Infeasibility that still counts as feasible, per unit of the right-hand side. -/
  feasibility : F
  /-- The magnitude a pivot element has to exceed. -/
  pivot : F
  /-- A reduced cost above minus this does not lower the objective. -/
  optimality : F
  /-- Ratios at most this far apart are equal in the ratio test. -/
  tie : F
  /-- A right-hand side above minus this is zero. -/
  roundOff : F
  /-- The largest violation of an answer, per unit of the right-hand side. -/
  residual : F

/-- The options used where none are given. -/
def Options.standard [Scalar F] : Options F where
  maxPivots := 50000
  timeLimit := none
  verbose := false
  feasibility := 1e-9
  pivot := 1e-11
  optimality := 1e-10
  tie := 1e-12
  roundOff := 1e-12
  residual := 1e-6

/-- A row of a tableau: `cells · y = rhs`, solved for its basic column. -/
structure Row (F : Type) (w : Nat) where
  basic : Fin w
  cells : Vector F w
  rhs : F

/-- The objective over the columns: `reduced · y - negated`. -/
structure CostRow (F : Type) (w : Nat) where
  reduced : Vector F w
  negated : F

/-- A tableau of `m` rows over `w` columns. -/
structure Tableau (F : Type) (m w : Nat) where
  rows : Vector (Row F w) m
  objective : CostRow F w
  enterable : Vector Bool w

/-- Why pivoting stopped. -/
inductive Stop where
  | optimal
  | unbounded
  | pivotLimit
  | interrupted
  | numerical
  deriving DecidableEq, Repr

variable {m w : Nat}

namespace Row

/-- Divide by the cell of a column and make that column basic. -/
def normalize [Scalar F] (row : Row F w) (col : Fin w) : Row F w :=
  let p := row.cells.get col
  ⟨col, row.cells.map (· / p), row.rhs / p⟩

/-- Take off the multiple of the pivot row that clears the cell of a column. -/
def eliminate [Scalar F] (row pivot : Row F w) (col : Fin w) : Row F w :=
  let factor := row.cells.get col
  if factor == 0 then row
  else
    { row with
      cells := (Vector.zipWith (fun v p => v - factor * p) row.cells pivot.cells).set col 0 col.isLt
      rhs := row.rhs - factor * pivot.rhs }

/-- A right-hand side that is negative by no more than round-off is zero. -/
def settle [Scalar F] (roundOff : F) (row : Row F w) : Row F w :=
  if row.rhs < 0 && -roundOff < row.rhs then { row with rhs := 0 } else row

end Row

namespace CostRow

/-- Take off a multiple of a row. -/
def subtract [Scalar F] (z : CostRow F w) (factor : F) (row : Row F w) : CostRow F w :=
  ⟨Vector.zipWith (fun v p => v - factor * p) z.reduced row.cells,
    z.negated - factor * row.rhs⟩

/-- Take off the multiple of a row that clears the reduced cost of its basic column. -/
def price [Scalar F] (z : CostRow F w) (row : Row F w) : CostRow F w :=
  let factor := z.reduced.get row.basic
  if factor == 0 then z else z.subtract factor row

/-- The same, with the reduced cost set to zero exactly. -/
def eliminate [Scalar F] (z : CostRow F w) (pivot : Row F w) (col : Fin w) : CostRow F w :=
  let factor := z.reduced.get col
  if factor == 0 then z
  else
    let z := z.subtract factor pivot
    { z with reduced := z.reduced.set col 0 col.isLt }

end CostRow

namespace Tableau

/-- The tableau of a list of rows.  Every column may enter, and there is no objective yet. -/
def ofRows [Scalar F] (rows : Vector (Row F w) m) : Tableau F m w :=
  ⟨rows, ⟨Vector.replicate w 0, 0⟩, Vector.replicate w true⟩

/-- Install a cost vector, priced out for the basic columns. -/
def setCost [Scalar F] (T : Tableau F m w) (cost : Vector F w) : Tableau F m w :=
  { T with objective := T.rows.toList.foldl CostRow.price ⟨cost, 0⟩ }

/-- Keep the columns at and after `first` from entering. -/
def block (T : Tableau F m w) (first : Nat) : Tableau F m w :=
  { T with enterable := Vector.ofFn fun j => T.enterable.get j && decide (j.val < first) }

/-- The value of the objective at the basic solution. -/
def value [Scalar F] (T : Tableau F m w) : F := -T.objective.negated

/-- The value of every column at the basic solution. -/
def primal [Scalar F] (T : Tableau F m w) : Vector F w :=
  T.rows.toList.foldl (fun y row => y.set row.basic row.rhs row.basic.isLt) (Vector.replicate w 0)

/-- The first column that may enter and lowers the objective. -/
def entering [Scalar F] (opts : Options F) (T : Tableau F m w) : Option (Fin w) :=
  (List.finRange w).find? fun j =>
    T.enterable.get j && decide (T.objective.reduced.get j < -opts.optimality)

/-- One step of the ratio test: the better of the row kept so far, with its ratio, and row `r`.
    A row blocks if its pivot element is large enough. -/
def challenge [Scalar F] (opts : Options F) (T : Tableau F m w) (col : Fin w)
    (best : Option (Fin m × F)) (r : Fin m) : Option (Fin m × F) :=
  let row := T.rows.get r
  let element := row.cells.get col
  if element ≤ opts.pivot then best
  else
    let ratio := row.rhs / element
    match best with
    | none => some (r, ratio)
    | some (kept, least) =>
      if ratio < least - opts.tie ||
          (ratio ≤ least + opts.tie && decide (row.basic < (T.rows.get kept).basic)) then
        some (r, ratio)
      else best

/-- The row that blocks an entering column first. -/
def leaving [Scalar F] (opts : Options F) (T : Tableau F m w) (col : Fin w) : Option (Fin m) :=
  ((List.finRange m).foldl (T.challenge opts col) none).map Prod.fst

/-- Make column `col` basic in row `r`. -/
def pivot [Scalar F] (opts : Options F) (T : Tableau F m w) (r : Fin m) (col : Fin w) :
    Tableau F m w :=
  let pivotRow := (T.rows.get r).normalize col
  { T with
    rows := Vector.ofFn fun i =>
      (if i = r then pivotRow else (T.rows.get i).eliminate pivotRow col).settle opts.roundOff
    objective := T.objective.eliminate pivotRow col }

/-- The next pivot, or the reason why there is none. -/
def choose [Scalar F] (opts : Options F) (T : Tableau F m w) : Except Stop (Fin m × Fin w) :=
  match T.entering opts with
  | none => .error .optimal
  | some col =>
    match T.leaving opts col with
    | none => .error .unbounded
    | some r => .ok (r, col)

/-- Where pivoting stopped, and how many pivots had been made by then. -/
structure Halt (F : Type) (m w : Nat) where
  stop : Stop
  tableau : Tableau F m w
  pivots : Nat

/-- Pivot until a reason to stop.  `late k` tells whether time is up once `k` pivots are made; it is
    asked before each pivot, after the budget. -/
def run [Scalar F] (opts : Options F) (late : Nat → Bool) :
    Nat → Nat → Tableau F m w → Halt F m w
  | 0, pivots, T =>
    match T.choose opts with
    | .error stop => ⟨stop, T, pivots⟩
    | .ok _ => ⟨.pivotLimit, T, pivots⟩
  | budget + 1, pivots, T =>
    match T.choose opts with
    | .error stop => ⟨stop, T, pivots⟩
    | .ok (r, col) =>
      if late pivots then ⟨.interrupted, T, pivots⟩
      else
        let T := T.pivot opts r col
        if Scalar.isFinite T.objective.negated then run opts late budget (pivots + 1) T
        else ⟨.numerical, T, pivots + 1⟩

/-- The first earlier column that can replace the basic column of a row. -/
def replacement [Scalar F] (opts : Options F) (first : Nat) (T : Tableau F m w) (r : Fin m) :
    Option (Fin w) :=
  (List.finRange w).find? fun j =>
    decide (j.val < first) && T.enterable.get j &&
      decide (opts.pivot < Scalar.abs ((T.rows.get r).cells.get j))

/-- One row of `driveOut`.  The number counts the rows that keep their basic column. -/
def expel [Scalar F] (opts : Options F) (first : Nat) (s : Tableau F m w × Nat) (r : Fin m) :
    Tableau F m w × Nat :=
  if (s.1.rows.get r).basic.val < first then s
  else
    match s.1.replacement opts first r with
    | some col => (s.1.pivot opts r col, s.2)
    | none => (s.1, s.2 + 1)

/-- Exchange basic columns at and after `first` for earlier ones, row by row, and count the rows in
    which there is none: these rows are redundant. -/
def driveOut [Scalar F] (opts : Options F) (first : Nat) (T : Tableau F m w) :
    Tableau F m w × Nat :=
  (List.finRange m).foldl (expel opts first) (T, 0)

end Tableau

end Simplex

end Milp
