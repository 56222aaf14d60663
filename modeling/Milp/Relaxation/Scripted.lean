/-
  Relaxations with answers that are laid down beforehand.

  * `Relaxation.scripted`: the k-th solve, counted from zero, is answered from a table; a solve that
    the table does not list goes to another relaxation.
  * `Relaxation.exhausted`: fails at every solve.
-/
import Milp.Relaxation.Basic

namespace Milp.Relaxation

variable {F σ : Type}

/-- A relaxation whose table has run out. -/
def exhausted (vars : Nat) : Relaxation F Unit where
  name := "exhausted"
  vars
  solve _ _ := return ⟨(), .failed (.reported "script exhausted"), []⟩

/-- Answer from a table, and ask another relaxation where the table is silent.  The state counts the
    solves. -/
def scripted (name : String) (vars : Nat) (table : List (Nat × Answer F))
    (fallback : Relaxation F σ) : Relaxation F (Nat × σ) where
  name
  vars
  solve := fun (k, s) r =>
    match table.lookup k with
    | some answer => return ⟨(k + 1, s), answer, []⟩
    | none => do
      let reply ← fallback.solve s r
      return ⟨(k + 1, reply.state), reply.answer, reply.notes⟩

end Milp.Relaxation
