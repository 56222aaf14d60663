/-
  What the branching rules choose.

  The test for whole values, the list of the candidates that are not whole, and the three rules each
  go over the candidates in a loop of their own.  They agree on which candidates are whole, so a rule
  makes a decision exactly if the test fails, and then on a candidate of the list.

  * `BranchQuery.fractionals`: the candidates that are not whole, with their places and values.
  * `Leads`: an element of a list has the highest score, and is the first that has it.
  * `Pseudocosts.worth`: the score of a candidate in pseudocost branching, a number whatever was
    learned.
  * `bestBy_chooses`: going over the candidates with a score ends at the one that leads.
  * `BranchQuery.rules_agree`: test, list and rules agree, for every query.
-/
import Milp.Proofs.Branching
import Milp.Proofs.Scalar.Tolerance

namespace Milp

variable {F : Type}

/-! ## The element that leads -/

section Leads

variable {α : Type} {score : α → F} {xs : List α} {a b : α}

/-- An element with the highest score in a list: those before it have lower scores, and those after
    it no higher ones. -/
def Leads [Scalar F] (score : α → F) (xs : List α) (a : α) : Prop :=
  ∃ before after, xs = before ++ a :: after ∧ (∀ b ∈ before, score b < score a) ∧
    ∀ b ∈ after, score b ≤ score a

/-- Of two elements the one with the higher score; of equal scores the first. -/
def prefer [Scalar F] (score : α → F) (a b : α) : α := if score a < score b then b else a

/-- The element preferred to what was found so far, if anything was. -/
def preferTo [Scalar F] (score : α → F) (best : Option α) (a : α) : Option α :=
  some (best.elim a (prefer score · a))

variable [Extended F] [Scalar.Placed F] [Scalar.Ordered F]

omit [Scalar.Placed F] [Scalar.Ordered F] in
theorem Leads.mem (h : Leads score xs a) : a ∈ xs := by
  obtain ⟨before, after, rfl, -, -⟩ := h
  simp

/-- One element more. -/
theorem Leads.prefer (h : Leads score xs a) (ha : score a ≤ score a) (hb : score b ≤ score b) :
    Leads score (xs ++ [b]) (prefer score a b) := by
  obtain ⟨before, after, rfl, hbefore, hafter⟩ := h
  unfold Milp.prefer
  split
  · rename_i hlt
    refine ⟨before ++ a :: after, [], rfl, fun c hc => ?_, by simp⟩
    rcases List.mem_append.1 hc with hc | hc
    · exact Scalar.lt_of_lt_of_le (hbefore c hc) (Scalar.Ordered.le_of_lt hlt)
    · rcases List.mem_cons.1 hc with rfl | hc
      · exact hlt
      · exact Scalar.lt_of_le_of_lt (hafter c hc) hlt
  · rename_i hnot
    refine ⟨before, after ++ [b], by simp, hbefore, fun c hc => ?_⟩
    rcases List.mem_append.1 hc with hc | hc
    · exact hafter c hc
    · rw [List.mem_singleton.1 hc]
      exact (Scalar.Ordered.not_lt ha hb).1 hnot

/-- Going on to prefer elements keeps the one that leads. -/
theorem Leads.foldl {rest : List α} (h : Leads score xs a) (ha : score a ≤ score a)
    (hrest : ∀ b ∈ rest, score b ≤ score b) :
    Leads score (xs ++ rest) (rest.foldl (Milp.prefer score) a) := by
  induction rest generalizing xs a with
  | nil => rwa [List.append_nil]
  | cons b rest ih =>
    obtain ⟨hb, hrest⟩ := List.forall_mem_cons.1 hrest
    have hnext : score (Milp.prefer score a b) ≤ score (Milp.prefer score a b) := by
      unfold Milp.prefer
      split
      · exact hb
      · exact ha
    have hlead := ih (h.prefer ha hb) hnext hrest
    rwa [List.append_assoc] at hlead

omit [Scalar.Placed F] [Scalar.Ordered F] in
theorem foldl_preferTo (score : α → F) (a : α) (xs : List α) :
    xs.foldl (preferTo score) (some a) = some (xs.foldl (Milp.prefer score) a) := by
  induction xs generalizing a with
  | nil => rfl
  | cons b xs ih => exact ih _

/-- Preferring one element after the other finds the one that leads, if there are any. -/
theorem foldl_preferTo_leads (h : ∀ a ∈ xs, score a ≤ score a) :
    xs = [] ∧ xs.foldl (preferTo score) none = none ∨
      ∃ a, xs.foldl (preferTo score) none = some a ∧ Leads score xs a := by
  cases xs with
  | nil => exact .inl ⟨rfl, rfl⟩
  | cons a rest =>
    obtain ⟨ha, hrest⟩ := List.forall_mem_cons.1 h
    have hself : Leads score [a] a := ⟨[], [], rfl, by simp, by simp⟩
    exact .inr ⟨_, foldl_preferTo score a rest, hself.foldl ha hrest⟩

end Leads

/-! ## The candidates that are not whole -/

section Loops

variable [Scalar F] {x : List F} {tolerance : F} {place : Nat} {vars : List Nat}

/-- A candidate with its place, if it is not whole. -/
def notWhole? (x : List F) (tolerance : F) (candidate : Nat × Nat) : Option (FractionalVar F) :=
  (x[candidate.1]?.filter fun value => tolerance < Scalar.fractionality value).map fun value =>
    ⟨candidate.2, candidate.1, value⟩

theorem notWhole?_eq_some {candidate : Nat × Nat} {e : FractionalVar F} :
    notWhole? x tolerance candidate = some e ↔ candidate = (e.var, e.place) ∧
      x[e.var]? = some e.value ∧ tolerance < Scalar.fractionality e.value := by
  obtain ⟨var, place⟩ := candidate
  rw [notWhole?, Option.map_eq_some_iff]
  constructor
  · rintro ⟨value, hvalue, rfl⟩
    simpa [Option.filter_eq_some_iff] using hvalue
  · rintro ⟨heq, hvalue, hlt⟩
    cases heq
    exact ⟨e.value, by simpa [Option.filter_eq_some_iff] using ⟨hvalue, hlt⟩, rfl⟩

/-- The candidates from a place on that are not whole. -/
def fractionalsFrom (x : List F) (tolerance : F) (place : Nat) (vars : List Nat) :
    List (FractionalVar F) :=
  (vars.zipIdx place).filterMap (notWhole? x tolerance)

theorem fractionalsFrom_cons {var : Nat} {value : F} (hvalue : x[var]? = some value) :
    fractionalsFrom x tolerance place (var :: vars) =
      if tolerance < Scalar.fractionality value then
        ⟨place, var, value⟩ :: fractionalsFrom x tolerance (place + 1) vars
      else fractionalsFrom x tolerance (place + 1) vars := by
  rw [fractionalsFrom, List.zipIdx_cons, List.filterMap_cons, notWhole?, hvalue]
  split <;> simp_all [fractionalsFrom]

/-- The list of the candidates that are not whole, as it is computed. -/
theorem fractionalFrom_eq (h : ∀ var ∈ vars, var < x.length) :
    fractionalFrom x tolerance place vars = .ok (fractionalsFrom x tolerance place vars) := by
  induction vars generalizing place with
  | nil => rfl
  | cons var rest ih =>
    obtain ⟨hvar, hrest⟩ := List.forall_mem_cons.1 h
    have hvalue := List.getElem?_eq_getElem hvar
    rw [fractionalFrom, fetch_eq_ok.2 hvalue, ih hrest, fractionalsFrom_cons hvalue]
    simp only [Bind.bind, Except.bind]
    split <;> rfl

/-- The first candidate that is not whole is the first of the list. -/
theorem firstNotWhole_eq (h : ∀ var ∈ vars, var < x.length) :
    Strategy.firstNotWhole x tolerance vars =
      .ok ((fractionalsFrom x tolerance place vars).head?.map FractionalVar.var) := by
  induction vars generalizing place with
  | nil => rfl
  | cons var rest ih =>
    obtain ⟨hvar, hrest⟩ := List.forall_mem_cons.1 h
    have hvalue := List.getElem?_eq_getElem hvar
    rw [Strategy.firstNotWhole, fetch_eq_ok.2 hvalue, fractionalsFrom_cons hvalue]
    simp only [Bind.bind, Except.bind]
    split
    · rfl
    · exact ih hrest

end Loops

/-! ## The loops -/

section Numbers

variable [Extended F] [Scalar.Ordered F] [Scalar.Faithful F] [Scalar.Measured F] {x : List F}
  {tolerance : F} {place : Nat} {vars : List Nat}

/-- The test for whole values passes if the list is empty. -/
theorem integralOn_eq (h : ∀ var ∈ vars, var < x.length) (hx : x.all Scalar.isFinite = true)
    (htolerance : tolerance ≤ tolerance) :
    integralOn x tolerance vars = .ok (fractionalsFrom x tolerance place vars).isEmpty := by
  induction vars generalizing place with
  | nil => rfl
  | cons var rest ih =>
    obtain ⟨hvar, hrest⟩ := List.forall_mem_cons.1 h
    have hvalue := List.getElem?_eq_getElem hvar
    have hfinite := List.all_eq_true.1 hx _ (List.getElem_mem hvar)
    rw [integralOn, fetch_eq_ok.2 hvalue, fractionalsFrom_cons hvalue]
    simp only [Bind.bind, Except.bind, Scalar.fractionality_le_iff hfinite htolerance, ite_not]
    split
    · rfl
    · exact ih hrest

/-- A variable with its score, as the loop over the candidates keeps it. -/
def FractionalVar.scored (worth : FractionalVar F → F) (e : FractionalVar F) : Nat × F :=
  (e.var, worth e)

omit [Scalar.Ordered F] [Scalar.Faithful F] [Scalar.Measured F] in
/-- Looking at a candidate that is not whole. -/
theorem considerBy_entry {score : Nat → F → Except Fault F} {worth : FractionalVar F → F}
    {e : FractionalVar F} (hvalue : x[e.var]? = some e.value)
    (hnot : ¬ Scalar.fractionality e.value ≤ tolerance)
    (hscore : score e.var e.value = .ok (worth e)) (best : Option (FractionalVar F)) :
    considerBy x tolerance score (best.map (·.scored worth)) e.var =
      .ok ((preferTo worth best e).map (·.scored worth)) := by
  rw [considerBy, fetch_eq_ok.2 hvalue]
  simp only [Bind.bind, Except.bind, if_neg hnot, hscore]
  cases best with
  | none => rfl
  | some b =>
    by_cases hlt : worth b < worth e
    · simp [preferTo, prefer, FractionalVar.scored, hlt, pure, Except.pure]
    · simp [preferTo, prefer, FractionalVar.scored, hlt, pure, Except.pure]

/-- Going over the candidates with a score is going over the list of those that are not whole. -/
theorem foldlM_considerBy_eq {score : Nat → F → Except Fault F} {worth : FractionalVar F → F}
    (h : ∀ var ∈ vars, var < x.length) (hx : x.all Scalar.isFinite = true)
    (htolerance : tolerance ≤ tolerance)
    (hscore : ∀ e ∈ fractionalsFrom x tolerance place vars,
      score e.var e.value = .ok (worth e)) (best : Option (FractionalVar F)) :
    vars.foldlM (considerBy x tolerance score) (best.map (·.scored worth)) =
      .ok (((fractionalsFrom x tolerance place vars).foldl (preferTo worth) best).map
        (·.scored worth)) := by
  induction vars generalizing place best with
  | nil => rfl
  | cons var rest ih =>
    obtain ⟨hvar, hrest⟩ := List.forall_mem_cons.1 h
    have hvalue := List.getElem?_eq_getElem hvar
    have hfinite := List.all_eq_true.1 hx _ (List.getElem_mem hvar)
    have hle := Scalar.fractionality_le_iff hfinite htolerance
    -- the loop passes over what is whole, the list takes what is not
    rw [fractionalsFrom_cons hvalue] at hscore ⊢
    rw [List.foldlM_cons]
    split at hscore
    · rename_i hlt
      obtain ⟨hfirst, hlater⟩ := List.forall_mem_cons.1 hscore
      rw [if_pos hlt, considerBy_entry (e := ⟨place, var, x[var]⟩) hvalue
        (fun hnot => hle.1 hnot hlt) hfirst]
      exact ih hrest hlater _
    · rename_i hnot
      rw [if_neg hnot, considerBy, fetch_eq_ok.2 hvalue]
      simp only [Bind.bind, Except.bind, if_pos (hle.2 hnot)]
      exact ih hrest hscore best

end Numbers

/-! ## Queries -/

/-- The candidates of a query that are not whole. -/
def BranchQuery.fractionals [Scalar F] (q : BranchQuery F) : List (FractionalVar F) :=
  fractionalsFrom q.x q.tolerance 0 q.candidates

/-- A query as the search makes it: point and box have the size of the program, the point is finite,
    the candidates are variables, and the tolerance is a number. -/
structure BranchQuery.Proper [Scalar F] (q : BranchQuery F) : Prop where
  length : q.x.length = q.problem.vars
  lower : q.box.lower.length = q.problem.vars
  upper : q.box.upper.length = q.problem.vars
  finite : q.x.all Scalar.isFinite = true
  candidate_lt : ∀ var ∈ q.candidates, var < q.problem.vars
  tolerance : q.tolerance ≤ q.tolerance

/-- What a rule decides: nothing if all candidates are whole, and else to split the interval of the
    candidate that is best, of those that are not whole, at its value. -/
structure BranchQuery.Chooses [Scalar F] (q : BranchQuery F) (best : FractionalVar F → Prop)
    (score : FractionalVar F → F) (d? : Option (Decision F)) : Prop where
  none_iff : d? = none ↔ q.fractionals = []
  chosen : ∀ d, d? = some d → ∃ e ∈ q.fractionals, best e ∧ ∃ interval,
    q.box.interval e.var = .ok interval ∧ d = Decision.split e.var e.value interval (score e)

namespace BranchQuery

section

variable [Scalar F] {q : BranchQuery F} {e : FractionalVar F}

/-- The entries of the list are the candidates that are not whole. -/
theorem mem_fractionals : e ∈ q.fractionals ↔ q.candidates[e.place]? = some e.var ∧
    q.x[e.var]? = some e.value ∧ q.tolerance < Scalar.fractionality e.value := by
  rw [fractionals, fractionalsFrom, List.mem_filterMap]
  simp only [notWhole?_eq_some]
  constructor
  · rintro ⟨candidate, hmem, rfl, he⟩
    exact ⟨List.mk_mem_zipIdx_iff_getElem?.1 hmem, he⟩
  · rintro ⟨hplace, he⟩
    exact ⟨_, List.mk_mem_zipIdx_iff_getElem?.2 hplace, rfl, he⟩

theorem Chooses.nothing (h : q.fractionals = []) (best : FractionalVar F → Prop)
    (score : FractionalVar F → F) : q.Chooses best score none :=
  ⟨iff_of_true rfl h, fun _ hd => by cases hd⟩

/-- The interval of an entry can be split. -/
theorem Proper.split (hq : q.Proper) (he : e ∈ q.fractionals) (s : F) : ∃ interval,
    q.box.interval e.var = .ok interval ∧
      q.split e.var s = .ok (Decision.split e.var e.value interval s) := by
  obtain ⟨hplace, hvalue, -⟩ := mem_fractionals.1 he
  have hvar := hq.candidate_lt _ (List.mem_of_getElem? hplace)
  have hlower := List.getElem?_eq_getElem (l := q.box.lower) (hq.lower ▸ hvar)
  have hupper := List.getElem?_eq_getElem (l := q.box.upper) (hq.upper ▸ hvar)
  have hinterval : q.box.interval e.var = .ok ⟨_, _⟩ := Box.interval_eq_ok.2 ⟨hlower, hupper⟩
  exact ⟨_, hinterval, split_eq_ok.2 ⟨_, _, hvalue, hinterval, rfl⟩⟩

theorem Proper.candidate_lt_length (hq : q.Proper) : ∀ var ∈ q.candidates, var < q.x.length :=
  fun var hvar => hq.length ▸ hq.candidate_lt var hvar

theorem Proper.var_lt (hq : q.Proper) (he : e ∈ q.fractionals) : e.var < q.problem.vars :=
  hq.candidate_lt _ (List.mem_of_getElem? (mem_fractionals.1 he).1)

theorem Proper.isFinite_value (hq : q.Proper) (he : e ∈ q.fractionals) :
    Scalar.isFinite e.value = true :=
  List.all_eq_true.1 hq.finite _ (List.mem_of_getElem? (mem_fractionals.1 he).2.1)

end

end BranchQuery

/-! ## The scores of pseudocost branching -/

namespace Pseudocosts

section

variable [Scalar F] {p : Pseudocosts F} {n var : Nat}

/-- The product of the rises expected on the two sides of a variable, each at least a millionth. -/
def worth (p : Pseudocosts F) (var : Nat) (value : F) : F :=
  let d := p.get var
  let part := value - Scalar.floor value
  Scalar.max (part * d.down.cost) 1e-6 * Scalar.max ((1 - part) * d.up.cost) 1e-6

theorem get_of_lt (h : var < p.costs.length) : p.get var = p.costs[var] := by
  rw [get, List.getD_eq_getElem?_getD, List.getElem?_eq_getElem h]
  rfl

theorem get_of_le (h : p.costs.length ≤ var) : p.get var = DirectionCosts.initial := by
  rw [get, List.getD_eq_getElem?_getD, List.getElem?_eq_none h]
  rfl

/-- Holding estimates of more variables changes none. -/
theorem get_extend : (p.extend n).get var = p.get var := by
  unfold get extend
  rw [List.getD_eq_getElem?_getD, List.getD_eq_getElem?_getD]
  by_cases hvar : var < p.costs.length
  · rw [List.getElem?_append_left hvar]
  · rw [List.getElem?_append_right (not_lt.1 hvar), List.getElem?_replicate,
      List.getElem?_eq_none (not_lt.1 hvar)]
    split <;> rfl

theorem length_extend : (p.extend n).costs.length = Nat.max p.costs.length n := by
  simp only [extend, List.length_append, List.length_replicate, Nat.max_def]
  split <;> omega

/-- A variable that there are estimates of has a score. -/
theorem score_extend (h : var < n) (value : F) :
    (p.extend n).score var value = .ok (p.worth var value) := by
  have hvar : var < (p.extend n).costs.length := by
    rw [length_extend]
    exact lt_of_lt_of_le h (Nat.le_max_right _ _)
  have hget : (p.extend n).costs[var]? = some (p.get var) := by
    rw [← get_extend (n := n), get_of_lt hvar, List.getElem?_eq_getElem hvar]
  rw [score, fetch_eq_ok.2 hget]
  rfl

end

/-- A score is a number, also where an estimate is infinite or no number. -/
theorem worth_number [Extended F] [Scalar.Ordered F] [Scalar.Placed F] [Scalar.Tolerant F]
    (p : Pseudocosts F) (var : Nat) (value : F) : p.worth var value ≤ p.worth var value := by
  have hpos (a : F) : 0 < Scalar.max a 1e-6 :=
    Scalar.lt_of_lt_of_le Scalar.Tolerant.millionth (Scalar.le_max_right Scalar.millionth_number)
  exact Scalar.Ordered.mul_le_mul_self (hpos _) (hpos _)

end Pseudocosts

/-! ## What the rules choose -/

namespace BranchQuery

variable [Extended F] [Scalar.Ordered F] [Scalar.Faithful F] [Scalar.Measured F] [Scalar.Placed F]
  {q : BranchQuery F}

/-- A rule that goes over the candidates with a score decides on the entry that leads. -/
theorem bestBy_chooses (hq : q.Proper) (score : Nat → F → Except Fault F)
    (worth : FractionalVar F → F)
    (hscore : ∀ e ∈ q.fractionals, score e.var e.value = .ok (worth e))
    (hnumber : ∀ e ∈ q.fractionals, worth e ≤ worth e) :
    ∃ d?, bestBy q score = .ok d? ∧ q.Chooses (Leads worth q.fractionals) worth d? := by
  have hfold := foldlM_considerBy_eq hq.candidate_lt_length hq.finite hq.tolerance hscore none
  change q.candidates.foldlM (considerBy q.x q.tolerance score) none =
    .ok ((q.fractionals.foldl (preferTo worth) none).map (·.scored worth)) at hfold
  unfold bestBy
  rw [hfold]
  rcases foldl_preferTo_leads hnumber with ⟨hnil, hnone⟩ | ⟨e, hsome, hlead⟩
  · rw [hnone]
    exact ⟨none, rfl, .nothing hnil _ _⟩
  · obtain ⟨interval, hinterval, hsplit⟩ := hq.split hlead.mem (worth e)
    refine ⟨some (Decision.split e.var e.value interval (worth e)), ?_, ⟨?_, ?_⟩⟩
    · rw [hsome]
      simp only [Option.map_some, FractionalVar.scored, Bind.bind, Except.bind, hsplit]
      rfl
    · exact iff_of_false nofun (List.ne_nil_of_mem hlead.mem)
    · rintro d ⟨⟩
      exact ⟨e, hlead.mem, hlead, interval, hinterval, rfl⟩

theorem mostFractional_chooses (hq : q.Proper) :
    ∃ d?, Strategy.mostFractional.select () q = .ok (d?, ()) ∧
      q.Chooses (Leads (fun e => Scalar.fractionality e.value) q.fractionals)
        (fun e => Scalar.fractionality e.value) d? := by
  obtain ⟨d?, hd, hchooses⟩ := bestBy_chooses hq
    (fun _ value => return Scalar.fractionality value) (fun e => Scalar.fractionality e.value)
    (fun _ _ => rfl) fun e he => Scalar.fractionality_number (hq.isFinite_value he)
  refine ⟨d?, ?_, hchooses⟩
  show (do return (← bestBy q _, ())) = Except.ok (d?, ())
  rw [hd]
  rfl

theorem pseudocost_chooses [Scalar.Tolerant F] (hq : q.Proper) (p : Pseudocosts F) :
    ∃ d?, Strategy.pseudocost.select p q = .ok (d?, p.extend q.problem.vars) ∧
      q.Chooses (Leads (fun e => p.worth e.var e.value) q.fractionals)
        (fun e => p.worth e.var e.value) d? := by
  obtain ⟨d?, hd, hchooses⟩ := bestBy_chooses hq (p.extend q.problem.vars).score
    (fun e => p.worth e.var e.value)
    (fun e he => Pseudocosts.score_extend (hq.var_lt he) e.value)
    fun e _ => p.worth_number e.var e.value
  refine ⟨d?, ?_, hchooses⟩
  show (do return (← bestBy q _, p.extend q.problem.vars)) = Except.ok (d?, _)
  rw [hd]
  rfl

omit [Scalar.Ordered F] [Scalar.Faithful F] [Scalar.Measured F] [Scalar.Placed F] in
theorem firstFractional_chooses (hq : q.Proper) :
    ∃ d?, Strategy.firstFractional.select () q = .ok (d?, ()) ∧
      q.Chooses (fun e => q.fractionals.head? = some e) (fun _ => 0) d? := by
  have hfirst : Strategy.firstNotWhole q.x q.tolerance q.candidates =
      .ok (q.fractionals.head?.map FractionalVar.var) := firstNotWhole_eq hq.candidate_lt_length
  show ∃ d?, (Strategy.firstNotWhole q.x q.tolerance q.candidates >>= _) = Except.ok (d?, ()) ∧ _
  rw [hfirst]
  rcases hhead : q.fractionals.head? with _ | e
  · exact ⟨none, rfl, .nothing (List.head?_eq_none_iff.1 hhead) _ _⟩
  · have hmem := List.mem_of_head? hhead
    obtain ⟨interval, hinterval, hsplit⟩ := hq.split hmem 0
    refine ⟨some (Decision.split e.var e.value interval 0), ?_, ⟨?_, ?_⟩⟩
    · simp only [Option.map_some, Bind.bind, Except.bind, hsplit]
      rfl
    · exact iff_of_false nofun (List.ne_nil_of_mem hmem)
    · rintro d ⟨⟩
      exact ⟨e, hmem, rfl, interval, hinterval, rfl⟩

/-- The test for whole values, the list of those that are not whole and the three rules agree: the
    test passes if the list is empty, and then no rule makes a decision, and else every rule splits
    the interval of an entry of the list.  The first fractional rule takes the first entry, the
    others the first entry with the highest score. -/
structure Agree (q : BranchQuery F) (p : Pseudocosts F) : Prop where
  list : fractional q.x q.tolerance q.candidates = .ok q.fractionals
  test : integralOn q.x q.tolerance q.candidates = .ok q.fractionals.isEmpty
  first : ∃ d?, Strategy.firstFractional.select () q = .ok (d?, ()) ∧
    q.Chooses (fun e => q.fractionals.head? = some e) (fun _ => 0) d?
  most : ∃ d?, Strategy.mostFractional.select () q = .ok (d?, ()) ∧
    q.Chooses (Leads (fun e => Scalar.fractionality e.value) q.fractionals)
      (fun e => Scalar.fractionality e.value) d?
  score : ∀ e ∈ q.fractionals,
    (p.extend q.problem.vars).score e.var e.value = .ok (p.worth e.var e.value)
  pseudocost : ∃ d?, Strategy.pseudocost.select p q = .ok (d?, p.extend q.problem.vars) ∧
    q.Chooses (Leads (fun e => p.worth e.var e.value) q.fractionals)
      (fun e => p.worth e.var e.value) d?

/-- **The branching rules agree with the test for whole values**, for every query and whatever
    pseudocost branching has learned. -/
theorem rules_agree [Scalar.Tolerant F] (hq : q.Proper) (p : Pseudocosts F) : q.Agree p :=
  ⟨fractionalFrom_eq hq.candidate_lt_length,
    integralOn_eq hq.candidate_lt_length hq.finite hq.tolerance,
    firstFractional_chooses hq, mostFractional_chooses hq,
    fun e he => Pseudocosts.score_extend (hq.var_lt he) e.value, pseudocost_chooses hq p⟩

/-- Two variables in the middle between whole numbers, and a whole one, the last variable first. -/
def tied : BranchQuery Float where
  x := [0.5, 1, 0.5]
  candidates := [2, 1, 0]
  problem :=
    { lp :=
        { cost := [1, 1, 1]
          matrix := ⟨0, 3, [[], [], []], rfl, by simp, by simp [Column.Sorted]⟩
          rhs := []
          blocks := [] }
      integers := [0, 1, 2]
      binaries := []
      box := ⟨[0, 0, 0], [1, 1, 1]⟩ }
  box := ⟨[0, 0, 0], [1, 1, 1]⟩
  tolerance := 1e-6

/-- Of equal fractionalities the first one counts; an infinite estimate goes before all others. -/
theorem rules_agree_tied :
    tied.Agree ⟨[⟨⟨Extended.infinity, 1⟩, ⟨1, 0⟩⟩]⟩ ∧
      (Strategy.mostFractional.select () tied).map (·.1.map Decision.var) = .ok (some 2) ∧
      (Strategy.pseudocost.select ⟨[⟨⟨Extended.infinity, 1⟩, ⟨1, 0⟩⟩]⟩ tied).map
        (·.1.map Decision.var) = .ok (some 0) :=
  ⟨rules_agree ⟨by decide +kernel, rfl, rfl, by decide +kernel, by decide, by decide +kernel⟩ _,
    by decide +kernel, by decide +kernel⟩

end BranchQuery

end Milp
