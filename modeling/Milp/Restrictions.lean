/-
  Bound restrictions of one relaxation solve.

  * `Restrictions`: at most one interval a variable, in the order of the variables.
  * `Restrictions.set`: restrict a variable; the last restriction of a variable counts.
  * `Restrictions.applyTo`: intersect the restrictions into a box.  A variable that the box does not
    have is passed over, and a restriction that is looser than the box changes nothing.
  * `Overlay`: a box with restrictions applied, which remembers what it changed;
    `Overlay.restore` undoes it.
-/
import Milp.Program.Basic

namespace Milp

variable {F : Type}

namespace Restrictions

/-- Insert an interval into a list in the order of the variables. -/
def insert (var : Nat) (i : Interval F) :
    List (Nat × Interval F) → List (Nat × Interval F)
  | [] => [(var, i)]
  | (v, j) :: rest =>
    if var < v then (var, i) :: (v, j) :: rest
    else if var = v then (var, i) :: rest
    else (v, j) :: insert var i rest

theorem mem_insert {var : Nat} {i : Interval F} {entries : List (Nat × Interval F)}
    {e : Nat × Interval F} (h : e ∈ insert var i entries) : e = (var, i) ∨ e ∈ entries := by
  induction entries with
  | nil => exact Or.inl (List.mem_singleton.1 h)
  | cons a rest ih =>
    obtain ⟨v, j⟩ := a
    simp only [insert] at h
    split at h
    · exact List.mem_cons.1 h
    · split at h
      · exact (List.mem_cons.1 h).imp id (List.mem_cons_of_mem _)
      · rcases List.mem_cons.1 h with rfl | h
        · exact Or.inr List.mem_cons_self
        · exact (ih h).imp id (List.mem_cons_of_mem _)

theorem sorted_insert (var : Nat) (i : Interval F) {entries : List (Nat × Interval F)}
    (h : entries.Pairwise fun a b => a.1 < b.1) :
    (insert var i entries).Pairwise fun a b => a.1 < b.1 := by
  induction entries with
  | nil => exact List.pairwise_singleton _ _
  | cons a rest ih =>
    obtain ⟨v, j⟩ := a
    obtain ⟨hhead, hrest⟩ := List.pairwise_cons.1 h
    simp only [insert]
    split
    · rename_i hlt
      refine List.pairwise_cons.2 ⟨fun e he => ?_, h⟩
      rcases List.mem_cons.1 he with rfl | he
      · exact hlt
      · exact Nat.lt_trans hlt (hhead e he)
    · split
      · rename_i heq
        exact List.pairwise_cons.2 ⟨fun e he => heq ▸ hhead e he, hrest⟩
      · rename_i hlt hne
        refine List.pairwise_cons.2 ⟨fun e he => ?_, ih hrest⟩
        rcases mem_insert he with rfl | he
        · simp only; omega
        · exact hhead e he

end Restrictions

/-- The restricted variables in order, each with its interval. -/
structure Restrictions (F : Type) where
  entries : List (Nat × Interval F)
  sorted : entries.Pairwise fun a b => a.1 < b.1

namespace Restrictions

/-- Nothing is restricted. -/
def empty : Restrictions F := ⟨[], List.Pairwise.nil⟩

/-- Restrict a variable; an earlier restriction of it goes. -/
def set (r : Restrictions F) (var : Nat) (i : Interval F) : Restrictions F :=
  ⟨insert var i r.entries, sorted_insert var i r.sorted⟩

/-- The interval of a variable, if it is restricted. -/
def get? (r : Restrictions F) (var : Nat) : Option (Interval F) := r.entries.lookup var

/-- The number of restricted variables. -/
def size (r : Restrictions F) : Nat := r.entries.length

def isEmpty (r : Restrictions F) : Bool := r.entries.isEmpty

/-- The first variable whose interval is empty by more than the tolerance. -/
def emptyDomain? [Scalar F] (r : Restrictions F) (tolerance : F) : Option Nat :=
  (r.entries.find? fun (_, i) => decide (i.upper + tolerance < i.lower)).map Prod.fst

/-- Intersect the restrictions into a box. -/
def applyTo [Scalar F] (r : Restrictions F) (box : Box F) : Except Fault (Box F) :=
  r.entries.foldlM
    (fun box (var, i) => if var < box.lower.length then box.cut var i else pure box) box

end Restrictions

/-- A box with restrictions applied, and the intervals it had before, the latest change first. -/
structure Overlay (F : Type) where
  box : Box F
  saved : List (Nat × Interval F)

namespace Overlay

/-- Apply one restriction and remember the interval it replaces. -/
def push [Scalar F] (o : Overlay F) (var : Nat) (i : Interval F) : Except Fault (Overlay F) :=
  if var < o.box.lower.length then do
    let before ← o.box.interval var
    return ⟨← o.box.cut var i, (var, before) :: o.saved⟩
  else pure o

/-- Apply restrictions to a box. -/
def apply [Scalar F] (box : Box F) (r : Restrictions F) : Except Fault (Overlay F) :=
  r.entries.foldlM (fun o (var, i) => o.push var i) ⟨box, []⟩

/-- The box as it was, the latest change undone first. -/
def restore (o : Overlay F) : Box F :=
  o.saved.foldl (fun box (var, i) => box.put var i) o.box

end Overlay

end Milp
