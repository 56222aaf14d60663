/-
  Sparse matrices, stored by column.

  Of the conversion of triplets to columns this is assumed: the triplets of a cell are added up to
  one stored entry, the rows of a column increase, and an entry stays stored also if it is zero.
  The triplets are added up in the order that an unstable sort by columns and rows gives them.  This
  order matters only where sums are rounded: over exact scalars a cell holds the sum of its
  triplets, whatever their order.

  * `Matrix.ofTriplets`: a matrix from `(row, column, value)` triplets.  Triplets of one cell are
    added up; a zero that is given is stored.
  * `Matrix.arrange`: the order in which triplets are added up.  Up to 32 triplets, and more if they
    are given cell by cell, it keeps the order of the triplets of a cell.
  * `Matrix.ofShape`: a matrix from triplets, in a shape of its own, which may be too large.
  * `Matrix.cell`: the value of a cell, zero if nothing is stored there.
  * `Column.mem_collect`, `Column.sorted_collect`: a collected column holds the rows of its
    triplets, in order.
-/
import Milp.Scalar.Basic
import Milp.Checked
import Milp.Presort

namespace Milp

variable {F : Type}

/-- The stored cells of one column: row and value. -/
abbrev Column (F : Type) := List (Nat × F)

namespace Column

/-- Add a value to the cell of a row. -/
def add [Add F] (row : Nat) (value : F) : Column F → Column F
  | [] => [(row, value)]
  | (i, v) :: rest =>
    if row < i then (row, value) :: (i, v) :: rest
    else if row = i then (i, v + value) :: rest
    else (i, v) :: add row value rest

/-- The rows increase, so no row is stored twice. -/
def Sorted (c : Column F) : Prop := c.Pairwise fun a b => a.1 < b.1

theorem mem_add [Add F] {row : Nat} {value : F} {c : Column F} {e : Nat × F}
    (h : e ∈ add row value c) : e.1 = row ∨ ∃ e' ∈ c, e'.1 = e.1 := by
  induction c with
  | nil => simp only [add, List.mem_singleton] at h; exact Or.inl (by rw [h])
  | cons a rest ih =>
    obtain ⟨i, v⟩ := a
    simp only [add] at h
    split at h
    · rcases List.mem_cons.1 h with h | h
      · exact Or.inl (by rw [h])
      · exact Or.inr ⟨e, h, rfl⟩
    · split at h
      · rcases List.mem_cons.1 h with h | h
        · exact Or.inr ⟨(i, v), List.mem_cons_self, by rw [h]⟩
        · exact Or.inr ⟨e, List.mem_cons_of_mem _ h, rfl⟩
      · rcases List.mem_cons.1 h with h | h
        · exact Or.inr ⟨(i, v), List.mem_cons_self, by rw [h]⟩
        · rcases ih h with h | ⟨e', he', heq⟩
          · exact Or.inl h
          · exact Or.inr ⟨e', List.mem_cons_of_mem _ he', heq⟩

theorem sorted_add [Add F] (row : Nat) (value : F) {c : Column F} (h : Sorted c) :
    Sorted (add row value c) := by
  induction c with
  | nil => exact List.pairwise_singleton _ _
  | cons a rest ih =>
    obtain ⟨i, v⟩ := a
    obtain ⟨hhead, hrest⟩ := List.pairwise_cons.1 h
    simp only [add]
    split
    · rename_i hlt
      refine List.pairwise_cons.2 ⟨fun e he => ?_, h⟩
      rcases List.mem_cons.1 he with rfl | he
      · exact hlt
      · exact Nat.lt_trans hlt (hhead e he)
    · split
      · exact List.pairwise_cons.2 ⟨hhead, hrest⟩
      · rename_i hlt hne
        refine List.pairwise_cons.2 ⟨fun e he => ?_, ih hrest⟩
        rcases mem_add he with heq | ⟨e', he', heq⟩
        · simp only [heq]; omega
        · rw [← heq]; exact hhead e' he'

/-- Add a list of cells, one after the other. -/
def addAll [Add F] (c : Column F) : List (Nat × F) → Column F
  | [] => c
  | (row, value) :: rest => addAll (add row value c) rest

theorem mem_addAll [Add F] {cells : List (Nat × F)} {c : Column F} {e : Nat × F}
    (h : e ∈ addAll c cells) : (∃ a ∈ cells, a.1 = e.1) ∨ ∃ e' ∈ c, e'.1 = e.1 := by
  induction cells generalizing c with
  | nil => exact Or.inr ⟨e, h, rfl⟩
  | cons a rest ih =>
    rcases ih h with ⟨a', ha', heq⟩ | ⟨e', he', heq⟩
    · exact Or.inl ⟨a', List.mem_cons_of_mem _ ha', heq⟩
    · rcases mem_add he' with hrow | ⟨e'', he'', heq'⟩
      · exact Or.inl ⟨a, List.mem_cons_self, by rw [← heq, hrow]⟩
      · exact Or.inr ⟨e'', he'', by rw [heq', heq]⟩

theorem sorted_addAll [Add F] {cells : List (Nat × F)} {c : Column F} (h : Sorted c) :
    Sorted (addAll c cells) := by
  induction cells generalizing c with
  | nil => exact h
  | cons a rest ih => exact ih (sorted_add _ _ h)

/-- The cells of column `j` in a list of triplets. -/
def collect [Add F] (triplets : List (Nat × Nat × F)) (j : Nat) : Column F :=
  addAll [] ((triplets.filter fun t => t.2.1 = j).map fun t => (t.1, t.2.2))

theorem mem_collect [Add F] {triplets : List (Nat × Nat × F)} {j : Nat} {e : Nat × F}
    (h : e ∈ collect triplets j) : ∃ t ∈ triplets, t.1 = e.1 := by
  rcases mem_addAll h with ⟨a, ha, heq⟩ | ⟨_, h, _⟩
  · obtain ⟨t, ht, rfl⟩ := List.mem_map.1 ha
    exact ⟨t, (List.mem_filter.1 ht).1, heq⟩
  · simp at h

theorem sorted_collect [Add F] (triplets : List (Nat × Nat × F)) (j : Nat) :
    Sorted (collect triplets j) :=
  sorted_addAll List.Pairwise.nil

end Column

/-- A sparse matrix: every column stores some of its rows, in increasing order. -/
structure Matrix (F : Type) where
  rows : Nat
  cols : Nat
  columns : List (Column F)
  length_columns : columns.length = cols
  row_lt : ∀ c ∈ columns, ∀ e ∈ c, e.1 < rows
  sorted : ∀ c ∈ columns, Column.Sorted c

namespace Matrix

/-- Does a triplet come before another?  Triplets go by column, then by row. -/
def cellBefore (s t : Nat × Nat × F) : Bool :=
  s.2.1 < t.2.1 || (s.2.1 = t.2.1 && s.1 < t.1)

/-- Triplets in the order in which they are added up. -/
def arrange (triplets : List (Nat × Nat × F)) : List (Nat × Nat × F) :=
  presort cellBefore triplets

theorem mem_arrange {triplets : List (Nat × Nat × F)} {t : Nat × Nat × F} :
    t ∈ arrange triplets ↔ t ∈ triplets :=
  (presort_perm cellBefore triplets).mem_iff

/-- The matrix of a list of triplets.  A triplet outside the matrix has no cell. -/
def ofTriplets [Add F] (rows cols : Nat) (triplets : List (Nat × Nat × F)) :
    Except Fault (Matrix F) :=
  if h : ∀ t ∈ triplets, t.1 < rows ∧ t.2.1 < cols then
    .ok
      { rows, cols
        columns := (List.range cols).map (Column.collect (arrange triplets))
        length_columns := by simp
        row_lt := by
          intro c hc e he
          obtain ⟨j, -, rfl⟩ := List.mem_map.1 hc
          obtain ⟨t, ht, heq⟩ := Column.mem_collect he
          exact heq ▸ (h t (mem_arrange.1 ht)).1
        sorted := by
          intro c hc
          obtain ⟨j, -, rfl⟩ := List.mem_map.1 hc
          exact Column.sorted_collect _ _ }
  else .error .outOfRange

/-- The matrix of a list of triplets, in a shape that the data does not give.  The start of every
    column and the end of the last take eight bytes each, and have to fit into one list. -/
def ofShape [Add F] (rows cols : Nat) (triplets : List (Nat × Nat × F)) :
    Except Fault (Matrix F) :=
  if 8 * (cols + 1) ≤ addressable then ofTriplets rows cols triplets else .error .tooLarge

/-- The number of stored cells. -/
def stored (a : Matrix F) : Nat := a.columns.flatten.length

/-- The stored values. -/
def values (a : Matrix F) : List F := a.columns.flatMap fun c => c.map Prod.snd

/-- The value of a cell.  A stored value is added to zero. -/
def cell [Scalar F] (a : Matrix F) (i j : Nat) : F :=
  match (a.columns.getD j []).lookup i with
  | some v => 0 + v
  | none => 0

/-- Do all stored cells lie in the first `rows` rows and `cols` columns? -/
def fits (a : Matrix F) (rows cols : Nat) : Bool :=
  a.columns.all (fun c => c.all fun e => e.1 < rows) && (a.columns.drop cols).all List.isEmpty

end Matrix

end Milp
