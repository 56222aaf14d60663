/-
  The equality form of a bounded linear program: `min cost · y + offset`, `T y = rhs`, `y ≥ 0`.

  Every variable is written over nonnegative columns:

      lower bound finite:      x = lower + y     (`y ≤ upper - lower` is a row if upper is finite)
      only upper bound finite: x = upper - y
      free:                    x = y⁺ - y⁻

  A row that is no equality gets a slack column.  Rows with a negative right-hand side are negated;
  rows whose slack cannot start basic get an artificial column.

  * `DenseProgram`: a program over a box, in dense rows, as a minimisation.
  * `EqualityForm.build`: the equality form; its columns are the structural ones, then the slacks,
    then the artificial ones.
  * `EqualityForm.recover`: the values of the variables from the values of the columns.
-/
import Milp.Program.Residual
import Milp.Simplex.Tableau

namespace Milp

variable {F : Type}

/-- A vector of a length that is known beforehand. -/
def Checked.vector {α : Type} (n : Nat) (xs : List α) : Except Fault (Vector α n) :=
  if h : xs.length = n then .ok ⟨xs.toArray, by simpa using h⟩ else .error .outOfRange

namespace Simplex

/-- A linear program over a box in dense rows.  The cost is to be minimised. -/
structure DenseProgram (F : Type) (m n : Nat) where
  rows : Vector (Vector F n) m
  rhs : Vector F m
  equality : Vector Bool m
  cost : Vector F n
  lower : Vector F n
  upper : Vector F n

/-- The dense rows of a program over a box. -/
def DenseProgram.of [Scalar F] (P : Program F) (box : Box F) :
    Except Fault (DenseProgram F P.height P.vars) := do
  let rows ← P.cells
  let equality ← Checked.vector P.height (← P.equalities)
  let lower ← Checked.vector P.vars box.lower
  let upper ← Checked.vector P.vars box.upper
  return {
    rows, equality, lower, upper
    rhs := ⟨P.rhs.toArray, rfl⟩
    cost := Vector.map P.sense.normalize ⟨P.cost.toArray, rfl⟩ }

/-- How a variable is written over nonnegative columns. -/
inductive Substitution (F : Type) where
  | shifted (offset : F)
  | reflected (offset : F)
  | split
  deriving DecidableEq, Repr

/-- A structural column: the variable it belongs to, and whether it counts negatively. -/
structure Source (n : Nat) where
  var : Fin n
  negated : Bool
  deriving DecidableEq

namespace Substitution

/-- The substitution of a variable with these bounds. -/
def ofBounds [Scalar F] (lower upper : F) : Substitution F :=
  if Scalar.isFinite lower then shifted lower
  else if Scalar.isFinite upper then reflected upper
  else split

/-- The columns of a variable. -/
def sources {n : Nat} (j : Fin n) : Substitution F → List (Source n)
  | shifted _ => [⟨j, false⟩]
  | reflected _ => [⟨j, true⟩]
  | split => [⟨j, false⟩, ⟨j, true⟩]

/-- The part of the value that no column carries. -/
def offset? : Substitution F → Option F
  | shifted offset | reflected offset => some offset
  | split => none

end Substitution

/-- How a row starts: basic in its slack, or basic in an artificial column, either because its slack
    counts negatively or because it has none. -/
inductive Opening where
  | slack
  | surplus
  | fixed
  deriving DecidableEq, Repr

namespace Opening

def hasSlack : Opening → Bool
  | slack | surplus => true
  | fixed => false

def hasArtificial : Opening → Bool
  | slack => false
  | surplus | fixed => true

end Opening

/-- A row over `k` structural columns, before the other columns are laid out. -/
structure OpenRow (F : Type) (k : Nat) where
  cells : Vector F k
  rhs : F
  opening : Opening

/-- Orient a row: its right-hand side must not be negative. -/
def OpenRow.orient [Scalar F] {k : Nat} (cells : Vector F k) (rhs : F) (equality : Bool) :
    OpenRow F k :=
  if rhs < 0 then ⟨cells.map (-·), -rhs, if equality then .fixed else .surplus⟩
  else ⟨cells, rhs, if equality then .fixed else .slack⟩

theorem countP_take_lt {α : Type} (p : α → Bool) {xs : List α} {i : Nat} (hi : i < xs.length)
    (h : p xs[i] = true) : (xs.take i).countP p < xs.countP p := by
  have hsplit : xs.countP p = (xs.take i).countP p + (xs.drop i).countP p := by
    rw [← List.countP_append, List.take_append_drop]
  rw [hsplit, List.drop_eq_getElem_cons hi, List.countP_cons_of_pos h]
  omega

/-- The equality form of a program with `n` variables. -/
structure EqualityForm (F : Type) (n : Nat) where
  height : Nat
  width : Nat
  rows : Vector (Row F width) height
  cost : Vector F width
  offset : F
  firstArtificial : Nat
  substitutions : Vector (Substitution F) n

section Build

variable {m n : Nat}

/-- The substitution of every variable. -/
def DenseProgram.substitutions [Scalar F] (D : DenseProgram F m n) : Vector (Substitution F) n :=
  Vector.zipWith Substitution.ofBounds D.lower D.upper

/-- The structural columns, variable by variable. -/
def structuralColumns (substitutions : Vector (Substitution F) n) : List (Source n) :=
  (List.finRange n).flatMap fun j => (substitutions.get j).sources j

/-- The coefficient of a structural column where its variable has coefficient `a`. -/
def Source.coefficient [Scalar F] (s : Source n) (a : F) : F :=
  if a == 0 then 0 else if s.negated then -a else a

/-- A right-hand side less what the offsets of the variables contribute to the row. -/
def shiftedRhs [Scalar F] (substitutions : Vector (Substitution F) n) (row : Vector F n) (rhs : F) :
    F :=
  (List.finRange n).foldl
    (fun b j =>
      if row.get j == 0 then b
      else
        match (substitutions.get j).offset? with
        | some offset => b - row.get j * offset
        | none => b)
    rhs

/-- Row `i` of the program over the structural columns. -/
def DenseProgram.baseRow [Scalar F] (D : DenseProgram F m n)
    (substitutions : Vector (Substitution F) n) (sources : List (Source n)) (i : Fin m) :
    OpenRow F sources.length :=
  let row := D.rows.get i
  OpenRow.orient
    (Vector.ofFn fun c => (sources.get c).coefficient (row.get (sources.get c).var))
    (shiftedRhs substitutions row (D.rhs.get i)) (D.equality.get i)

/-- The row of a variable with two finite bounds: its column is at most their distance. -/
def DenseProgram.widthRow? [Scalar F] (D : DenseProgram F m n) (sources : List (Source n))
    (j : Fin n) : Option (OpenRow F sources.length) :=
  if Scalar.isFinite (D.lower.get j) && Scalar.isFinite (D.upper.get j) then
    some <| OpenRow.orient (Vector.ofFn fun c => if (sources.get c).var = j then 1 else 0)
      (Scalar.max (D.upper.get j - D.lower.get j) 0) false
  else none

/-- The rows of the program, then the rows of the variables with two finite bounds. -/
def DenseProgram.openRows [Scalar F] (D : DenseProgram F m n)
    (substitutions : Vector (Substitution F) n) (sources : List (Source n)) :
    List (OpenRow F sources.length) :=
  (List.finRange m).map (D.baseRow substitutions sources) ++
    (List.finRange n).filterMap (D.widthRow? sources)

/-- Lay out row `i` of a list: its slack and artificial columns follow those of the rows before. -/
def layRow [Scalar F] {k : Nat} (rows : List (OpenRow F k)) (i : Fin rows.length) :
    Row F (k + rows.countP (·.opening.hasSlack) + rows.countP (·.opening.hasArtificial)) :=
  let row := rows.get i
  let before := rows.take i
  let slackAt := k + before.countP (·.opening.hasSlack)
  let artificialAt :=
    k + rows.countP (·.opening.hasSlack) + before.countP (·.opening.hasArtificial)
  { basic :=
      if h : row.opening.hasArtificial = true then
        ⟨artificialAt, Nat.add_lt_add_left (countP_take_lt _ i.isLt h) _⟩
      else
        ⟨slackAt, by
          have hslack : row.opening.hasSlack = true := by
            cases ho : row.opening <;> simp_all [Opening.hasSlack, Opening.hasArtificial]
          exact Nat.lt_of_lt_of_le (Nat.add_lt_add_left (countP_take_lt _ i.isLt hslack) k)
            (Nat.le_add_right _ _)⟩
    cells := Vector.ofFn fun c =>
      if h : c.val < k then row.cells[c.val]
      else if row.opening.hasSlack && c.val = slackAt then
        if row.opening = .surplus then -1 else 1
      else if row.opening.hasArtificial && c.val = artificialAt then 1
      else 0
    rhs := row.rhs }

/-- The constant part of the objective. -/
def DenseProgram.offset [Scalar F] (D : DenseProgram F m n)
    (substitutions : Vector (Substitution F) n) : F :=
  (List.finRange n).foldl
    (fun acc j =>
      match (substitutions.get j).offset? with
      | some offset => acc + D.cost.get j * offset
      | none => acc)
    0

/-- The cost of a column; slack and artificial columns cost nothing. -/
def DenseProgram.columnCost [Scalar F] (D : DenseProgram F m n) (sources : List (Source n))
    (c : Nat) : F :=
  if h : c < sources.length then
    let s := sources[c]
    if s.negated then -D.cost.get s.var else D.cost.get s.var
  else 0

/-- The equality form of a dense program. -/
def EqualityForm.build [Scalar F] (D : DenseProgram F m n) : EqualityForm F n :=
  let substitutions := D.substitutions
  let sources := structuralColumns substitutions
  let rows := D.openRows substitutions sources
  let slacks := rows.countP (·.opening.hasSlack)
  let artificials := rows.countP (·.opening.hasArtificial)
  { height := rows.length
    width := sources.length + slacks + artificials
    rows := Vector.ofFn (layRow rows)
    cost := Vector.ofFn fun c => D.columnCost sources c
    offset := D.offset substitutions
    firstArtificial := sources.length + slacks
    substitutions }

end Build

/-- Read the values of variables off the values of their columns, from first to last. -/
def Substitution.recover [Scalar F] : List (Substitution F) → List F → Except Fault (List F)
  | [], _ => .ok []
  | shifted offset :: rest, y :: ys => return (offset + y) :: (← recover rest ys)
  | reflected offset :: rest, y :: ys => return (offset - y) :: (← recover rest ys)
  | split :: rest, pos :: neg :: ys => return (pos - neg) :: (← recover rest ys)
  | _ :: _, _ => .error .outOfRange

/-- The values of the variables from the values of the columns. -/
def EqualityForm.recover [Scalar F] {n : Nat} (form : EqualityForm F n) (y : List F) :
    Except Fault (List F) :=
  Substitution.recover form.substitutions.toList y

/-- The largest magnitude of a right-hand side, at least one. -/
def EqualityForm.scale [Scalar F] {n : Nat} (form : EqualityForm F n) : F :=
  form.rows.toList.foldl (fun acc row => Scalar.max acc (Scalar.abs row.rhs)) 1

end Simplex

end Milp
