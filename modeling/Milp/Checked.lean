/-
  Checked reads and sizes.

  A vector that a caller hands in may be shorter than the indices used on it.  Reading past its end
  is not a value but a `Fault`, and the computation that reads ends there.  So does one that asks
  for a list of more entries than any memory can hold.
-/

namespace Milp

/-- Why a computation could not go on. -/
inductive Fault where
  | outOfRange
  | tooLarge
  deriving DecidableEq, Repr

/-- The largest number of bytes that one list may take. -/
def addressable : Nat := 9223372036854775807

/-- The entry at an index. -/
def fetch {α : Type} (xs : List α) (i : Nat) : Except Fault α :=
  match xs[i]? with
  | some x => .ok x
  | none => .error .outOfRange

/-- Change the entry at an index. -/
def amend {α : Type} (xs : List α) (i : Nat) (f : α → α) : Except Fault (List α) :=
  if i < xs.length then .ok (xs.modify i f) else .error .outOfRange

end Milp
