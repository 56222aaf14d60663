/-
  Linear programs in rows.

      optimise  cost · x   subject to   A x + s = rhs,  s ∈ K,  lower ≤ x ≤ upper

  where `K` is a product of blocks: in an equality block the slack `s` is zero, in the other blocks
  it is nonnegative, so the row says `≤`.

  * `Program`: the data as given; nothing about it is checked.
  * `Sense.normalize`: the map into minimisation, which is its own inverse.
  * `Program.box`: the bounds in force.  A variable without an entry is nonnegative, the last entry
    of a variable counts, and a binary variable stays within `[0, 1]`.
  * `Program.equalities`: which rows are equalities, block by block.
-/
import Milp.Matrix

namespace Milp

variable {F : Type}

/-- The direction of optimisation. -/
inductive Sense where
  | minimize
  | maximize
  deriving DecidableEq, Repr

namespace Sense

/-- An objective value as a value to minimise, and back. -/
def normalize [Scalar F] : Sense → F → F
  | minimize, value => value
  | maximize, value => -value

/-- The worst objective value. -/
def worst [Extended F] (s : Sense) : F := s.normalize Extended.infinity

/-- Is `a` better than `b` by more than the tolerance? -/
def better [Scalar F] (s : Sense) (a b tolerance : F) : Bool :=
  s.normalize a < s.normalize b - tolerance

def label : Sense → String
  | minimize => "min"
  | maximize => "max"

end Sense

/-- A run of consecutive rows of one kind. -/
inductive Block where
  | equality (size : Nat)
  | atMost (size : Nat)
  deriving DecidableEq, Repr

namespace Block

def size : Block → Nat
  | equality n => n
  | atMost n => n

/-- One flag a row: is it an equality? -/
def flags : Block → List Bool
  | equality n => List.replicate n true
  | atMost n => List.replicate n false

/-- The block cut down to at most `n` rows. -/
def limit (n : Nat) : Block → Block
  | equality size => equality (min n size)
  | atMost size => atMost (min n size)

theorem flags_limit (n : Nat) (b : Block) : (b.limit n).flags = b.flags.take n := by
  cases b <;> simp [limit, flags, List.take_replicate]

theorem length_flags (b : Block) : b.flags.length = b.size := by
  cases b <;> simp [flags, size]

/-- The flags of the first `n` rows of a list of blocks. -/
def firstFlags : Nat → List Block → List Bool
  | _, [] => []
  | n, b :: rest => (b.limit n).flags ++ firstFlags (n - b.size) rest

theorem firstFlags_eq_take (n : Nat) (blocks : List Block) :
    firstFlags n blocks = (blocks.flatMap flags).take n := by
  induction blocks generalizing n with
  | nil => simp [firstFlags]
  | cons b rest ih =>
    rw [firstFlags, ih, flags_limit, List.flatMap_cons, List.take_append, length_flags]

end Block

/-- The bounds of one variable; a missing bound is infinite. -/
structure VarBound (F : Type) where
  var : Nat
  lower : Option F
  upper : Option F

/-- The values a variable may take. -/
inductive VarKind where
  | continuous
  | integer
  | binary
  deriving DecidableEq, Repr

/-- An interval; it may be empty. -/
structure Interval (F : Type) where
  lower : F
  upper : F
  deriving DecidableEq, Repr

/-- Lower and upper bounds of all variables. -/
structure Box (F : Type) where
  lower : List F
  upper : List F
  deriving DecidableEq, Repr

namespace Box

/-- The box with the bounds of one variable replaced. -/
def put (box : Box F) (var : Nat) (i : Interval F) : Box F :=
  ⟨box.lower.set var i.lower, box.upper.set var i.upper⟩

/-- The bounds of one variable. -/
def interval (box : Box F) (var : Nat) : Except Fault (Interval F) := do
  return ⟨← fetch box.lower var, ← fetch box.upper var⟩

/-- The first variable whose lower bound exceeds its upper bound by more than a tolerance. -/
def emptyDomain? [Scalar F] (box : Box F) (tolerance : F) : Option Nat :=
  (box.lower.zip box.upper).findIdx? fun (l, u) => u + tolerance < l

/-- Cut the bounds of one variable down to an interval.  Bounds are never widened. -/
def cut [Scalar F] (box : Box F) (var : Nat) (i : Interval F) : Except Fault (Box F) := do
  let lower ← amend box.lower var fun l => Scalar.max l i.lower
  let upper ← amend box.upper var fun u => Scalar.min u i.upper
  return ⟨lower, upper⟩

end Box

/-- A linear program, as given. -/
structure Program (F : Type) where
  cost : List F
  matrix : Matrix F
  rhs : List F
  blocks : List Block
  bounds : Option (List (VarBound F)) := none
  kinds : Option (List VarKind) := none
  sense : Sense := .minimize

namespace Program

/-- The number of variables. -/
def vars (P : Program F) : Nat := P.cost.length

/-- The number of rows. -/
def height (P : Program F) : Nat := P.rhs.length

/-- The number of rows of all blocks. -/
def blockRows (P : Program F) : Nat := P.blocks.foldl (fun total b => total + b.size) 0

/-- One flag a row, for the first `n` rows of the blocks: is it an equality?  There is room for a
    flag for each entry of the right-hand side; blocks with more rows than that have to fit into
    one list, even if fewer rows are asked for. -/
def firstEqualities (n : Nat) (P : Program F) : Except Fault (List Bool) :=
  if P.blockRows ≤ max P.height addressable then .ok (Block.firstFlags n P.blocks)
  else .error .tooLarge

/-- One flag a row of the blocks: is it an equality? -/
def equalities (P : Program F) : Except Fault (List Bool) := P.firstEqualities P.blockRows

/-- The bounds in force before binary variables are cut to `[0, 1]`.  Entries of variables that the
    program does not have are passed over. -/
def givenBox [Extended F] (P : Program F) : Box F :=
  let entries := (P.bounds.getD []).filter fun b => b.var < P.vars
  entries.foldl
    (fun box b => box.put b.var
      ⟨b.lower.getD (-Extended.infinity), b.upper.getD Extended.infinity⟩)
    ⟨List.replicate P.vars 0, List.replicate P.vars Extended.infinity⟩

/-- The bounds in force. -/
def box [Extended F] (P : Program F) : Except Fault (Box F) :=
  (P.kinds.getD []).zipIdx.foldlM
    (fun box (kind, i) => if kind = .binary then box.cut i ⟨0, 1⟩ else pure box)
    P.givenBox

end Program

end Milp
