/-
  What the branching rules decide.

  * `BranchQuery.Splits`: a decision halves the interval of a candidate, which is not whole, at its
    value.
  * `Strategy.BuiltIn.splits`: every decision of a rule is of this form.
  * `Strategy.BuiltIn.whole`: without a decision every candidate is whole.
  * `Strategy.Decisive`: a rule that always chooses a candidate.
-/
import Milp.Branching.Pseudocost
import Milp.Proofs.Restrictions
import Milp.Proofs.Scalar.Ordered

namespace Milp

variable {F β : Type} [Scalar F]

/-- A decision has at most two children. -/
theorem Decision.length_children_le (d : Decision F) : d.children.length ≤ 2 :=
  List.length_filter_le _ [d.down, d.up]

/-- The rules that come with the search. -/
inductive Strategy.BuiltIn : {β : Type} → Strategy F β → Prop where
  | mostFractional : BuiltIn Strategy.mostFractional
  | firstFractional : BuiltIn Strategy.firstFractional
  | pseudocost : BuiltIn Strategy.pseudocost

/-- A decision halves the interval of a candidate at its value.  The two comparisons are the two
    ways in which the rules find that a value is not whole. -/
structure BranchQuery.Splits (q : BranchQuery F) (d : Decision F) (interval : Interval F) :
    Prop where
  mem : d.var ∈ q.candidates
  value : q.x[d.var]? = some d.value
  box : q.box.interval d.var = .ok interval
  eq : d = Decision.split d.var d.value interval d.score
  notWhole : ¬ Scalar.fractionality d.value ≤ q.tolerance ∨
    q.tolerance < Scalar.fractionality d.value

/-- Halving an interval fails only where there is nothing to read. -/
theorem BranchQuery.split_eq_ok {q : BranchQuery F} {var : Nat} {score : F} {d : Decision F} :
    q.split var score = .ok d ↔ ∃ value interval, q.x[var]? = some value ∧
      q.box.interval var = .ok interval ∧ d = Decision.split var value interval score := by
  unfold BranchQuery.split
  rcases hx : fetch q.x var with e | value
  · have hnone : ∀ v, q.x[var]? ≠ some v := fun v hv => by
      rw [← fetch_eq_ok, hx] at hv; cases hv
    simp [Bind.bind, Except.bind, hnone]
  rcases hi : q.box.interval var with e | interval
  · simp [Bind.bind, Except.bind]
  · rw [fetch_eq_ok] at hx
    simp [Bind.bind, Except.bind, pure, Except.pure, hx, eq_comm]

/-- The best candidate so far is a candidate that is not whole. -/
def Chosen (x : List F) (candidates : List Nat) (tolerance : F) (best : Option (Nat × F)) : Prop :=
  ∀ var score, best = some (var, score) →
    var ∈ candidates ∧ ∃ value, x[var]? = some value ∧ ¬ Scalar.fractionality value ≤ tolerance

/-- What looking at one candidate may lead to. -/
theorem considerBy_eq_ok {x : List F} {tolerance : F} {score : Nat → F → Except Fault F}
    {best best' : Option (Nat × F)} {var : Nat}
    (h : considerBy x tolerance score best var = .ok best') :
    best' = best ∨ ∃ value s, x[var]? = some value ∧
      ¬ Scalar.fractionality value ≤ tolerance ∧ best' = some (var, s) := by
  unfold considerBy at h
  rcases hx : fetch x var with e | value
  · rw [hx] at h; cases h
  rw [hx] at h
  simp only [Bind.bind, Except.bind] at h
  split at h
  · cases h
    exact .inl rfl
  · rename_i hnot
    rcases hs : score var value with e | s
    · rw [hs] at h; cases h
    rw [hs] at h
    rcases best with _ | ⟨v, b⟩
    · cases h
      exact .inr ⟨value, s, fetch_eq_ok.1 hx, hnot, rfl⟩
    · simp only at h
      split at h <;> cases h
      · exact .inr ⟨value, s, fetch_eq_ok.1 hx, hnot, rfl⟩
      · exact .inl rfl

theorem foldlM_considerBy {x : List F} {tolerance : F} {score : Nat → F → Except Fault F}
    {all candidates : List Nat} {best best' : Option (Nat × F)}
    (hsub : ∀ var ∈ candidates, var ∈ all) (hbest : Chosen x all tolerance best)
    (h : candidates.foldlM (considerBy x tolerance score) best = .ok best') :
    Chosen x all tolerance best' := by
  induction candidates generalizing best with
  | nil => cases h; exact hbest
  | cons var rest ih =>
    rw [List.foldlM_cons] at h
    rcases hstep : considerBy x tolerance score best var with e | best₁
    · rw [hstep] at h; cases h
    rw [hstep] at h
    refine ih (fun v hv => hsub v (List.mem_cons_of_mem var hv)) ?_ h
    obtain rfl | ⟨value, s, hvalue, hnot, rfl⟩ := considerBy_eq_ok hstep
    · exact hbest
    · intro v t heq
      cases heq
      exact ⟨hsub var List.mem_cons_self, value, hvalue, hnot⟩

theorem bestBy_splits {q : BranchQuery F} {score : Nat → F → Except Fault F} {d : Decision F}
    (h : bestBy q score = .ok (some d)) : ∃ interval, q.Splits d interval := by
  unfold bestBy at h
  rcases hfold : q.candidates.foldlM (considerBy q.x q.tolerance score) none with e | best
  · rw [hfold] at h; cases h
  rw [hfold] at h
  have hchosen : Chosen q.x q.candidates q.tolerance best :=
    foldlM_considerBy (fun _ h => h) (fun _ _ h => by cases h) hfold
  rcases best with _ | ⟨var, s⟩
  · cases h
  · obtain ⟨hmem, value, hvalue, hnot⟩ := hchosen var s rfl
    simp only [Bind.bind, Except.bind] at h
    rcases hsplit : q.split var s with e | d'
    · rw [hsplit] at h; cases h
    rw [hsplit] at h
    cases h
    obtain ⟨value', interval, hvalue', hbox, rfl⟩ := BranchQuery.split_eq_ok.1 hsplit
    obtain rfl : value = value' := Option.some.inj (hvalue.symm.trans hvalue')
    exact ⟨interval, hmem, hvalue, hbox, rfl, .inl hnot⟩

theorem firstNotWhole_eq_ok {x : List F} {tolerance : F} {candidates : List Nat} {var : Nat}
    (h : Strategy.firstNotWhole x tolerance candidates = .ok (some var)) :
    var ∈ candidates ∧ ∃ value, x[var]? = some value ∧ tolerance < Scalar.fractionality value := by
  induction candidates with
  | nil => cases h
  | cons v rest ih =>
    unfold Strategy.firstNotWhole at h
    rcases hx : fetch x v with e | value
    · rw [hx] at h; cases h
    rw [hx] at h
    simp only [Bind.bind, Except.bind] at h
    split at h
    · cases h
      exact ⟨List.mem_cons_self, value, fetch_eq_ok.1 hx, ‹_›⟩
    · obtain ⟨hmem, hvalue⟩ := ih h
      exact ⟨List.mem_cons_of_mem v hmem, hvalue⟩

/-- Every decision of a built-in rule halves the interval of a candidate that is not whole. -/
theorem Strategy.BuiltIn.splits {S : Strategy F β} (hS : S.BuiltIn) {b b' : β} {q : BranchQuery F}
    {d : Decision F} (h : S.select b q = .ok (some d, b')) : ∃ interval, q.Splits d interval := by
  cases hS with
  | mostFractional =>
    simp only [Strategy.mostFractional, Bind.bind, Except.bind] at h
    split at h
    · cases h
    · rename_i o hbest
      cases h
      exact bestBy_splits hbest
  | pseudocost =>
    simp only [Strategy.pseudocost, Bind.bind, Except.bind] at h
    split at h
    · cases h
    · rename_i o hbest
      cases h
      exact bestBy_splits hbest
  | firstFractional =>
    simp only [Strategy.firstFractional, Bind.bind, Except.bind] at h
    split at h
    · cases h
    · rename_i o hfirst
      rcases o with _ | var
      · cases h
      · obtain ⟨hmem, value, hvalue, hlt⟩ := firstNotWhole_eq_ok hfirst
        simp only at h
        split at h
        · cases h
        · rename_i d' hsplit
          cases h
          obtain ⟨value', interval, hvalue', hbox, rfl⟩ := BranchQuery.split_eq_ok.1 hsplit
          obtain rfl : value = value' := Option.some.inj (hvalue.symm.trans hvalue')
          exact ⟨interval, hmem, hvalue, hbox, rfl, .inr hlt⟩

/-! ## No decision -/

/-- A best candidate is kept or replaced, never forgotten. -/
theorem considerBy_eq_none {x : List F} {tolerance : F} {score : Nat → F → Except Fault F}
    {best : Option (Nat × F)} {var : Nat} (h : considerBy x tolerance score best var = .ok none) :
    best = none ∧ ∃ value, x[var]? = some value ∧ Scalar.fractionality value ≤ tolerance := by
  unfold considerBy at h
  rcases hx : fetch x var with e | value
  · rw [hx] at h; cases h
  rw [hx] at h
  simp only [Bind.bind, Except.bind] at h
  split at h
  · cases h
    exact ⟨rfl, value, fetch_eq_ok.1 hx, ‹_›⟩
  · rcases hs : score var value with e | s
    · rw [hs] at h; cases h
    rw [hs] at h
    rcases best with _ | ⟨v, b⟩
    · cases h
    · simp only at h
      split at h <;> cases h

theorem foldlM_considerBy_eq_none {x : List F} {tolerance : F} {score : Nat → F → Except Fault F}
    {candidates : List Nat} {best : Option (Nat × F)}
    (h : candidates.foldlM (considerBy x tolerance score) best = .ok none) :
    best = none ∧ ∀ var ∈ candidates, ∃ value, x[var]? = some value ∧
      Scalar.fractionality value ≤ tolerance := by
  induction candidates generalizing best with
  | nil =>
    cases h
    exact ⟨rfl, by simp⟩
  | cons var rest ih =>
    rw [List.foldlM_cons] at h
    rcases hstep : considerBy x tolerance score best var with e | best₁
    · rw [hstep] at h; cases h
    rw [hstep] at h
    obtain ⟨rfl, hrest⟩ := ih h
    obtain ⟨hbest, hvar⟩ := considerBy_eq_none hstep
    exact ⟨hbest, List.forall_mem_cons.2 ⟨hvar, hrest⟩⟩

theorem bestBy_eq_none {q : BranchQuery F} {score : Nat → F → Except Fault F}
    (h : bestBy q score = .ok none) : ∀ var ∈ q.candidates, ∃ value, q.x[var]? = some value ∧
      Scalar.fractionality value ≤ q.tolerance := by
  unfold bestBy at h
  rcases hfold : q.candidates.foldlM (considerBy q.x q.tolerance score) none with e | best
  · rw [hfold] at h; cases h
  rw [hfold] at h
  rcases best with _ | ⟨var, s⟩
  · exact (foldlM_considerBy_eq_none hfold).2
  · simp only [Bind.bind, Except.bind] at h
    split at h <;> cases h

theorem firstNotWhole_eq_none {x : List F} {tolerance : F} {candidates : List Nat}
    (h : Strategy.firstNotWhole x tolerance candidates = .ok none) :
    ∀ var ∈ candidates, ∃ value, x[var]? = some value ∧
      ¬ tolerance < Scalar.fractionality value := by
  induction candidates with
  | nil => simp
  | cons v rest ih =>
    unfold Strategy.firstNotWhole at h
    rcases hx : fetch x v with e | value
    · rw [hx] at h; cases h
    rw [hx] at h
    simp only [Bind.bind, Except.bind] at h
    split at h
    · cases h
    · exact List.forall_mem_cons.2 ⟨⟨value, fetch_eq_ok.1 hx, ‹_›⟩, ih h⟩

/-- A variable in the list of those that are not whole is not whole. -/
theorem fractionalFrom_ne_nil {x : List F} {tolerance : F} {place : Nat} {vars : List Nat}
    {split : List (FractionalVar F)} (h : fractionalFrom x tolerance place vars = .ok split)
    (hne : split ≠ []) :
    ∃ var ∈ vars, ∃ value, x[var]? = some value ∧ tolerance < Scalar.fractionality value := by
  induction vars generalizing place split with
  | nil =>
    cases h
    exact absurd rfl hne
  | cons var rest ih =>
    unfold fractionalFrom at h
    rcases hx : fetch x var with e | value
    · rw [hx] at h; cases h
    rcases hrest : fractionalFrom x tolerance (place + 1) rest with e | others
    · rw [hx, hrest] at h; cases h
    rw [hx, hrest] at h
    simp only [Bind.bind, Except.bind] at h
    split at h
    · exact ⟨var, List.mem_cons_self, value, fetch_eq_ok.1 hx, ‹_›⟩
    · cases h
      obtain ⟨v, hv, hvalue⟩ := ih hrest hne
      exact ⟨v, List.mem_cons_of_mem var hv, hvalue⟩

/-- If a built-in rule makes no decision then every candidate is whole. -/
theorem Strategy.BuiltIn.whole {F : Type} [Extended F] [Scalar.Ordered F] {S : Strategy F β}
    (hS : S.BuiltIn) {b b' : β} {q : BranchQuery F} (h : S.select b q = .ok (none, b')) :
    ∀ var ∈ q.candidates, ∃ value, q.x[var]? = some value ∧
      ¬ q.tolerance < Scalar.fractionality value := by
  have hbest : ∀ {score}, bestBy q score = .ok none → ∀ var ∈ q.candidates, ∃ value,
      q.x[var]? = some value ∧ ¬ q.tolerance < Scalar.fractionality value := by
    intro score hnone var hvar
    obtain ⟨value, hvalue, hle⟩ := bestBy_eq_none hnone var hvar
    obtain ⟨hleft, hright⟩ := Scalar.Ordered.refl_of_le hle
    exact ⟨value, hvalue, (Scalar.Ordered.not_lt hright hleft).2 hle⟩
  cases hS with
  | mostFractional =>
    simp only [Strategy.mostFractional, Bind.bind, Except.bind] at h
    split at h
    · cases h
    · rename_i o hnone
      cases h
      exact hbest hnone
  | pseudocost =>
    simp only [Strategy.pseudocost, Bind.bind, Except.bind] at h
    split at h
    · cases h
    · rename_i o hnone
      cases h
      exact hbest hnone
  | firstFractional =>
    simp only [Strategy.firstFractional, Bind.bind, Except.bind] at h
    split at h
    · cases h
    · rename_i o hfirst
      rcases o with _ | var
      · exact firstNotWhole_eq_none hfirst
      · simp only at h
        split at h <;> cases h

/-- A rule that always chooses one of the candidates. -/
def Strategy.Decisive (S : Strategy F β) : Prop :=
  ∀ b q o b', S.select b q = .ok (o, b') → ∃ d, o = some d ∧ d.var ∈ q.candidates

end Milp
