/-
  What pseudocost branching learns.

  From the calls that a search makes, the estimates of a variable can be read without replaying
  them: each is the mean of what the calls taught about the variable and the direction, or the value
  it was seeded with.

  * `Pseudocosts.replay`: the estimates after some calls, from none at all.
  * `Pseudocosts.Call.lesson?`: the rise per unit of distance that a call teaches.
  * `Estimate.mean`: the mean of some lessons, and their number.
  * `Pseudocosts.replay_averages`: after a replay, each estimate is the mean of its lessons.
-/
import Milp.Proofs.Choice

namespace Milp

/-! ## The estimates of one variable -/

/-- The estimate for one direction. -/
def DirectionCosts.toward {F : Type} (d : DirectionCosts F) (up : Bool) : Estimate F :=
  if up then d.up else d.down

namespace Pseudocosts

variable {F : Type} [Scalar F] {p : Pseudocosts F} {var : Nat}

theorem get_modify {i : Nat} (h : i < p.costs.length) (f : DirectionCosts F → DirectionCosts F) :
    (Pseudocosts.mk (p.costs.modify i f)).get var = if i = var then f (p.get var) else p.get var := by
  by_cases hvar : var < p.costs.length
  · rw [get_of_lt (p := ⟨p.costs.modify i f⟩) (by simpa using hvar), get_of_lt hvar,
      List.getElem_modify]
  · have hle := not_lt.1 hvar
    rw [get_of_le (p := ⟨p.costs.modify i f⟩) (by simpa using hle), get_of_le hle,
      if_neg (by omega)]

/-- Seeding replaces the values of the variables that the cost covers; counts stay. -/
theorem get_seed (cost : List F) (up : Bool) :
    ((p.seed cost).get var).toward up =
      ⟨(cost[var]?.map fun q => Scalar.max (Scalar.abs q) 0.1).getD ((p.get var).toward up).cost,
        ((p.get var).toward up).count⟩ := by
  have hlength : cost.length ≤ (p.extend cost.length).costs.length := by
    rw [length_extend]
    exact Nat.le_max_right _ _
  rw [← get_extend (p := p) (n := cost.length)]
  unfold seed
  dsimp only
  generalize p.extend cost.length = extended at hlength ⊢
  rcases lt_or_ge var cost.length with hvar | hvar
  · have hlt := lt_of_lt_of_le hvar hlength
    rw [get, List.getD_eq_getElem?_getD, List.getElem?_append_left (by simp [hvar, hlt]),
      List.getElem?_zipWith, List.getElem?_eq_getElem hvar, List.getElem?_eq_getElem hlt,
      get_of_lt hlt]
    cases up <;> rfl
  · rw [get, List.getD_eq_getElem?_getD, List.getElem?_append_right (by simp [hvar, hlength]),
      List.length_zipWith, Nat.min_eq_left hlength, List.getElem?_drop,
      Nat.add_sub_cancel' hvar, ← List.getD_eq_getElem?_getD, List.getElem?_eq_none hvar]
    rfl

/-- Learning changes the estimate of one variable in one direction. -/
theorem get_observe {change : BoundChange F} {rise : F} {p' : Pseudocosts F}
    (h : p.observe change (some rise) = .ok p') (up : Bool) :
    (p'.get var).toward up =
      if change.var = var ∧ change.isUp = up ∧ Scalar.isFinite rise = true ∧
          ¬ change.distance ≤ 1e-6 then
        ((p.get var).toward up).add (Scalar.max rise 0 / change.distance)
      else (p.get var).toward up := by
  unfold observe at h
  dsimp only at h
  split at h
  · rename_i hskip
    cases h
    rw [if_neg]
    rintro ⟨-, -, hfinite, hdistance⟩
    simp [hfinite, hdistance] at hskip
  · rename_i hlearn
    split at h
    · cases h
      rw [get_modify (by rw [length_extend]; exact Nat.le_max_right _ _), get_extend]
      obtain ⟨hdistance, hfinite⟩ : ¬ change.distance ≤ 1e-6 ∧ Scalar.isFinite rise = true := by
        simpa using hlearn
      -- the estimate is for one direction, and the change goes in one
      cases up <;> cases hup : change.isUp <;> simp [hdistance, hfinite, DirectionCosts.toward]
        <;> split <;> rfl
    · cases h

end Pseudocosts

/-! ## Means -/

namespace Exact

theorem ofNat_eq (n : Nat) : Scalar.ofNat n = fin n := by
  show fin (Rational.ofDecimal n false 0) = fin n
  simp [Rational.ofDecimal, Rat.mkRat_one]

/-- The rise per unit of distance is a rational, also if the distance is infinite. -/
theorem exists_max_div {rise distance : Exact} (hrise : Scalar.isFinite rise = true)
    (hdistance : 1e-6 < distance) : ∃ q, 0 ≤ q ∧ Scalar.max rise 0 / distance = fin q := by
  obtain ⟨r, rfl⟩ := isFinite_iff.1 hrise
  have hpos : fin 0 < distance := by
    rw [← zero_eq]
    exact Scalar.lt_of_lt_of_le Scalar.Tolerant.millionth (le_of_lt hdistance)
  rw [zero_eq, max_fin]
  cases distance with
  | nan | negInf => cases hpos
  | fin d =>
    have hd := fin_lt_fin.1 hpos
    exact ⟨_, div_nonneg (le_max_right r 0) hd.le, fin_div_fin hd.ne'⟩
  | posInf => exact ⟨0, le_rfl, rfl⟩

end Exact

namespace Estimate

/-- The mean of some observations, and their number; without any, the value at the start. -/
def mean (start : Exact) (seen : List Rat) : Estimate Exact :=
  ⟨if seen = [] then start else .fin (seen.sum / seen.length), seen.length⟩

/-- One observation more. -/
theorem mean_add (start : Exact) (seen : List Rat) (q : Rat) :
    (mean start seen).add (.fin q) = mean start (seen ++ [q]) := by
  rcases eq_or_ne seen [] with rfl | hne
  · simp [mean, add]
  · have hlength : (seen.length : Rat) ≠ 0 := by simpa using hne
    have hnext : (seen.length : Rat) + 1 ≠ 0 := by positivity
    simp only [mean, add, List.length_eq_zero_iff, hne, if_false, Exact.ofNat_eq, Exact.one_eq,
      Exact.fin_mul_fin, Exact.fin_add_fin, Exact.fin_div_fin hnext, div_mul_cancel₀ _ hlength,
      List.append_ne_nil_of_left_ne_nil hne, List.sum_append, List.sum_singleton,
      List.length_append, List.length_singleton, Nat.cast_add, Nat.cast_one]

/-- The order of the observations does not matter. -/
theorem mean_perm {seen seen' : List Rat} (h : seen.Perm seen') (start : Exact) :
    mean start seen = mean start seen' := by
  have hnil : seen = [] ↔ seen' = [] := by
    rw [← List.length_eq_zero_iff, h.length_eq, List.length_eq_zero_iff]
  simp only [mean, hnil, h.sum_eq, h.length_eq]

theorem zero_le_mean {start : Exact} {seen : List Rat} (hstart : 0 ≤ start)
    (hseen : ∀ q ∈ seen, 0 ≤ q) : 0 ≤ (mean start seen).cost := by
  unfold mean
  dsimp only
  split
  · exact hstart
  · rw [Exact.zero_eq, Exact.fin_le_fin]
    exact div_nonneg (List.sum_nonneg hseen) (Nat.cast_nonneg _)

end Estimate

/-! ## Calls -/

namespace Pseudocosts

/-- A call: the estimates are seeded, a query is decided, or a child is reported. -/
inductive Call where
  | seed (cost : List Exact)
  | select (q : BranchQuery Exact)
  | observe (change : BoundChange Exact) (rise : Option Exact)

namespace Call

/-- The estimates after a call. -/
def run (p : Pseudocosts Exact) : Call → Except Fault (Pseudocosts Exact)
  | seed cost => .ok (p.seed cost)
  | select q => (Strategy.pseudocost.select p q).map Prod.snd
  | observe change rise => Strategy.pseudocost.learn p change rise

def isSeed : Call → Bool
  | seed _ => true
  | _ => false

def isSelect : Call → Bool
  | select _ => true
  | _ => false

/-- A call that goes through: a query is proper, and there is room for the variable of a child. -/
def Possible : Call → Prop
  | seed _ => True
  | select q => q.Proper
  | observe change _ => 8 * (change.var + 1) ≤ addressable

/-- The distance of a change is a number, as it is where the value that was branched at is finite. -/
def Measured : Call → Prop
  | observe change _ => change.distance ≤ change.distance
  | _ => True

/-- Can a call change the estimates of a variable? -/
def concerns (var : Nat) : Call → Bool
  | seed _ => true
  | select _ => false
  | observe change _ => change.var = var

/-- The value that a call seeds the estimates of a variable with. -/
def start? (var : Nat) : Call → Option Exact
  | seed cost => cost[var]?.map fun q => Scalar.max (Scalar.abs q) 0.1
  | _ => none

/-- The rise per unit of distance that a call teaches about moving a variable in a direction.  A
    bound that falls counts as one that stays. -/
def lesson? (var : Nat) (up : Bool) : Call → Option Rat
  | observe change (some rise) =>
    if change.var = var ∧ change.isUp = up ∧ Scalar.isFinite rise = true ∧
        1e-6 < change.distance then
      some (Scalar.max rise 0 / change.distance).rat
    else none
  | _ => none

end Call

/-- The estimates after some calls; at first nothing is known. -/
def replay (calls : List Call) : Except Fault (Pseudocosts Exact) := calls.foldlM Call.run {}

/-- Before the estimates are seeded there are only selections, so they are seeded at most once. -/
def Orderly (calls : List Call) : Prop := calls.Pairwise fun a b => b.isSeed → a.isSelect

/-- The value that the estimates of a variable start at. -/
def starting (calls : List Call) (var : Nat) : Exact :=
  (calls.filterMap (Call.start? var)).head?.getD 1

/-- What calls teach about moving a variable in a direction. -/
def lessons (calls : List Call) (var : Nat) (up : Bool) : List Rat :=
  calls.filterMap (Call.lesson? var up)

/-- Each estimate is the mean of its lessons, and starts at its seed.  It is not negative, and
    depends only on the calls that concern its variable, and not on their order. -/
structure Averages (calls : List Call) (p : Pseudocosts Exact) : Prop where
  estimate : ∀ var up, (p.get var).toward up = .mean (starting calls var) (lessons calls var up)
  nonneg : ∀ var up, 0 ≤ ((p.get var).toward up).cost
  depends : ∀ calls' p', Orderly calls' → (∀ c ∈ calls', c.Measured) → replay calls' = .ok p' →
    ∀ var, (calls'.filter (Call.concerns var)).Perm (calls.filter (Call.concerns var)) →
      p'.get var = p.get var

section

variable {calls calls' : List Call} {c : Call} {p p' : Pseudocosts Exact} {var : Nat} {up : Bool}

theorem run_select_eq {q : BranchQuery Exact} (h : (Call.select q).run p = .ok p') :
    p' = p.extend q.problem.vars := by
  change Except.map Prod.snd (do return (← bestBy q _, p.extend q.problem.vars)) = _ at h
  rcases hbest : bestBy q (p.extend q.problem.vars).score with e | d?
  · rw [hbest] at h
    cases h
  · rw [hbest] at h
    cases h
    rfl

/-- A call that can be made goes through. -/
theorem run_of_possible (h : c.Possible) (p : Pseudocosts Exact) : ∃ p', c.run p = .ok p' := by
  cases c with
  | seed cost => exact ⟨_, rfl⟩
  | select q =>
    obtain ⟨d?, hd, -⟩ := BranchQuery.pseudocost_chooses h p
    exact ⟨_, by rw [Call.run, hd]; rfl⟩
  | observe change rise =>
    have hroom : p.hasRoom change.var = true := by simp [hasRoom, show 8 * (_ + 1) ≤ _ from h]
    cases rise with
    | none => exact ⟨p, rfl⟩
    | some rise =>
      change ∃ p', p.observe change (some rise) = .ok p'
      simp only [observe, hroom, if_true]
      split <;> exact ⟨_, rfl⟩

theorem replay_append (calls : List Call) (c : Call) :
    replay (calls ++ [c]) = replay calls >>= fun p => c.run p := by
  simp [replay, List.foldlM_append]

theorem replay_of_possible (h : ∀ c ∈ calls, c.Possible) : ∃ p, replay calls = .ok p := by
  induction calls using List.reverseRecOn with
  | nil => exact ⟨{}, rfl⟩
  | append_singleton calls c ih =>
    obtain ⟨hcalls, hc⟩ := List.forall_mem_append.1 h
    obtain ⟨p, hp⟩ := ih hcalls
    obtain ⟨p', hp'⟩ := run_of_possible (hc c (List.mem_singleton_self c)) p
    exact ⟨p', by rw [replay_append, hp]; exact hp'⟩

/-! ## What a call changes -/

theorem lessons_append (calls : List Call) (c : Call) (var : Nat) (up : Bool) :
    lessons (calls ++ [c]) var up = lessons calls var up ++ (c.lesson? var up).toList := by
  rw [lessons, List.filterMap_append]
  cases h : c.lesson? var up <;> simp [h, lessons]

theorem starting_append (h : c.start? var = none) :
    starting (calls ++ [c]) var = starting calls var := by
  simp [starting, List.filterMap_append, h]

/-- Selections teach nothing. -/
theorem lessons_of_selects (h : ∀ a ∈ calls, a.isSelect = true) : lessons calls var up = [] := by
  refine List.filterMap_eq_nil_iff.2 fun a ha => ?_
  cases a with
  | select q => rfl
  | _ => cases h _ ha

theorem filterMap_start?_of_selects (h : ∀ a ∈ calls, a.isSelect = true) :
    calls.filterMap (Call.start? var) = [] := by
  refine List.filterMap_eq_nil_iff.2 fun a ha => ?_
  cases a with
  | select q => rfl
  | _ => cases h _ ha

/-- A lesson is added to the estimate of its variable and direction. -/
theorem get_run_observe {change : BoundChange Exact} {rise : Option Exact}
    (hc : (Call.observe change rise).Measured) (h : (Call.observe change rise).run p = .ok p') :
    (p'.get var).toward up = ((Call.observe change rise).lesson? var up).elim
      ((p.get var).toward up) fun q => ((p.get var).toward up).add (.fin q) := by
  cases rise with
  | none =>
    cases h
    rfl
  | some rise =>
    have hdistance : ¬ change.distance ≤ 1e-6 ↔ 1e-6 < change.distance := by
      rw [← Scalar.Ordered.not_lt Scalar.millionth_number hc, not_not]
    simp only [get_observe h, hdistance, Call.lesson?]
    split
    · rename_i hlearn
      obtain ⟨q, -, hq⟩ := Exact.exists_max_div hlearn.2.2.1 hlearn.2.2.2
      rw [hq]
      rfl
    · rfl

theorem zero_le_lesson {q : Rat} (h : c.lesson? var up = some q) : 0 ≤ q := by
  unfold Call.lesson? at h
  split at h
  · split at h
    · rename_i hlearn
      obtain ⟨q', hnonneg, hq'⟩ := Exact.exists_max_div hlearn.2.2.1 hlearn.2.2.2
      rw [hq'] at h
      cases h
      exact hnonneg
    · cases h
  · cases h

theorem zero_le_starting : 0 ≤ starting calls var := by
  have hone : (0 : Exact) ≤ 1 := Exact.le_of_lt Scalar.Ordered.zero_lt_one
  have htenth : (0 : Exact) ≤ 0.1 := by decide +kernel
  rcases hhead : (calls.filterMap (Call.start? var)).head? with _ | start
  · rwa [starting, hhead]
  · rw [starting, hhead]
    obtain ⟨c, -, hc⟩ := List.mem_filterMap.1 (List.mem_of_head? hhead)
    unfold Call.start? at hc
    split at hc
    · obtain ⟨q, -, rfl⟩ := Option.map_eq_some_iff.1 hc
      exact Exact.le_trans htenth (Scalar.le_max_right (Scalar.Ordered.refl_of_le htenth).2)
    · cases hc

/-! ## Replays -/

/-- One call more: a seed comes before all lessons, and a lesson is one number more in a mean. -/
theorem estimate_step
    (hp : ∀ var up, (p.get var).toward up = .mean (starting calls var) (lessons calls var up))
    (hseed : c.isSeed → ∀ a ∈ calls, a.isSelect) (hc : c.Measured) (h : c.run p = .ok p')
    (var : Nat) (up : Bool) : (p'.get var).toward up =
      .mean (starting (calls ++ [c]) var) (lessons (calls ++ [c]) var up) := by
  rw [lessons_append]
  cases c with
  | seed cost =>
    cases h
    have hselects := hseed rfl
    rw [get_seed, hp, lessons_of_selects hselects, starting, starting, List.filterMap_append,
      filterMap_start?_of_selects hselects]
    cases hq : cost[var]? <;> simp [Call.start?, Call.lesson?, Estimate.mean, hq]
  | select q =>
    rw [run_select_eq h, get_extend, hp, starting_append rfl]
    exact congrArg _ (List.append_nil _).symm
  | observe change rise =>
    rw [get_run_observe hc h, hp, starting_append rfl]
    cases (Call.observe change rise).lesson? var up with
    | none => rw [Option.toList_none, List.append_nil, Option.elim_none]
    | some q => exact Estimate.mean_add _ _ q

theorem estimate_of_replay (horderly : Orderly calls) (hcalls : ∀ c ∈ calls, c.Measured)
    (h : replay calls = .ok p) (var : Nat) (up : Bool) :
    (p.get var).toward up = .mean (starting calls var) (lessons calls var up) := by
  -- on the last call, since a seed says something of all calls before it
  induction calls using List.reverseRecOn generalizing p var up with
  | nil =>
    cases h
    cases up <;> rfl
  | append_singleton calls c ih =>
    obtain ⟨hbefore, -, hseed⟩ := List.pairwise_append.1 horderly
    obtain ⟨hmeasured, hc⟩ := List.forall_mem_append.1 hcalls
    rw [replay_append] at h
    rcases hp : replay calls with e | q
    · rw [hp] at h
      cases h
    · rw [hp] at h
      exact estimate_step (ih hbefore hmeasured hp)
        (fun hc a ha => hseed a ha c (List.mem_singleton_self c) hc)
        (hc c (List.mem_singleton_self c)) h var up

/-! ## What the estimates depend on -/

/-- What is read off the calls that concern a variable is read off all calls. -/
theorem filterMap_concerns {α : Type} {f : Call → Option α}
    (h : ∀ c, c.concerns var = false → f c = none) (calls : List Call) :
    (calls.filter (Call.concerns var)).filterMap f = calls.filterMap f := by
  rw [List.filterMap_filter]
  refine List.filterMap_congr fun c _ => ?_
  split
  · rfl
  · rw [h c (Bool.eq_false_iff.2 ‹_›)]

theorem lesson?_of_not_concerns (h : c.concerns var = false) : c.lesson? var up = none := by
  unfold Call.lesson?
  split
  · exact if_neg fun hlearn => of_decide_eq_false h hlearn.1
  · rfl

theorem start?_of_not_concerns (h : c.concerns var = false) : c.start? var = none := by
  cases c with
  | seed _ => cases h
  | _ => rfl

/-- The estimates of a variable are seeded at most once. -/
theorem pairwise_start? (h : Orderly calls) :
    (calls.filterMap (Call.start? var)).Pairwise fun _ _ => False := by
  refine List.pairwise_filterMap.2 (h.imp fun {a b} hab x hx y hy => ?_)
  have hseed {c : Call} {start} (hc : c.start? var = some start) : c.isSeed = true := by
    unfold Call.start? at hc
    split at hc
    · rfl
    · cases hc
  have hselect := hab (hseed hy)
  cases a with
  | select q => cases hseed hx
  | _ => cases hselect

theorem starting_perm (h : Orderly calls) (h' : Orderly calls')
    (hperm : (calls'.filter (Call.concerns var)).Perm (calls.filter (Call.concerns var))) :
    starting calls' var = starting calls var := by
  have hseeds := hperm.filterMap (Call.start? var)
  rw [filterMap_concerns fun _ => start?_of_not_concerns,
    filterMap_concerns fun _ => start?_of_not_concerns] at hseeds
  rw [starting, starting, hseeds.eq_of_pairwise (fun _ _ _ _ hfalse => hfalse.elim)
    (pairwise_start? h') (pairwise_start? h)]

theorem lessons_perm
    (hperm : (calls'.filter (Call.concerns var)).Perm (calls.filter (Call.concerns var))) :
    (lessons calls' var up).Perm (lessons calls var up) := by
  have hlessons := hperm.filterMap (Call.lesson? var up)
  rwa [filterMap_concerns fun _ => lesson?_of_not_concerns,
    filterMap_concerns fun _ => lesson?_of_not_concerns] at hlessons

theorem toward_ext {F : Type} {d d' : DirectionCosts F} (h : ∀ up, d.toward up = d'.toward up) :
    d = d' := by
  cases d
  cases d'
  exact congrArg₂ _ (h false) (h true)

end

/-- **Pseudocosts are averages**: after each sequence of calls that go through, each estimate is
    the mean of what the calls taught about its variable and direction. -/
theorem replay_averages {calls : List Call} (horderly : Orderly calls)
    (hcalls : ∀ c ∈ calls, c.Measured) :
    ((∀ c ∈ calls, c.Possible) → ∃ p, replay calls = .ok p) ∧
      ∀ p, replay calls = .ok p → Averages calls p := by
  refine ⟨replay_of_possible, fun p hp => ?_⟩
  have hestimate := estimate_of_replay horderly hcalls hp
  refine ⟨hestimate, fun var up => ?_, fun calls' p' horderly' hcalls' hp' var hperm => ?_⟩
  · rw [hestimate]
    refine Estimate.zero_le_mean zero_le_starting fun q hq => ?_
    obtain ⟨c, -, hc⟩ := List.mem_filterMap.1 hq
    exact zero_le_lesson hc
  · refine toward_ext fun up => ?_
    rw [hestimate, estimate_of_replay horderly' hcalls' hp', starting_perm horderly horderly' hperm]
    exact Estimate.mean_perm (lessons_perm hperm) _

/-- A variable in the middle between whole numbers, and a whole one. -/
def middle : BranchQuery Exact where
  x := [.fin (1 / 2), .fin 1]
  candidates := [0, 1]
  problem :=
    { lp :=
        { cost := [.fin 3, .fin 0]
          matrix := ⟨0, 2, [[], []], rfl, by simp, by simp [Column.Sorted]⟩
          rhs := []
          blocks := [] }
      integers := [0, 1]
      binaries := []
      box := ⟨[.fin 0, .fin 0], [.fin 2, .fin 2]⟩ }
  box := ⟨[.fin 0, .fin 0], [.fin 2, .fin 2]⟩
  tolerance := .fin 0

/-- The first variable is moved up twice; the bound rises once, and falls once. -/
def visits : List Call :=
  [.select middle, .seed [.fin 3, .fin 0],
    .observe ⟨0, ⟨.fin 0, .fin 2⟩, ⟨.fin 1, .fin 2⟩, .fin (1 / 2)⟩ (some (.fin 2)),
    .select middle,
    .observe ⟨0, ⟨.fin 0, .fin 2⟩, ⟨.fin 1, .fin 2⟩, .fin (1 / 4)⟩ (some (.fin (-1)))]

theorem replay_averages_visits : ∃ p, replay visits = .ok p ∧ Averages visits p ∧
    (p.get 0).toward true = ⟨.fin 2, 2⟩ ∧ (p.get 0).toward false = ⟨.fin 3, 0⟩ := by
  have hmiddle : middle.Proper :=
    ⟨rfl, rfl, rfl, by decide +kernel, by decide +kernel, by decide +kernel⟩
  have hmeasured : ∀ c ∈ visits, c.Measured := by
    simp only [visits, List.forall_mem_cons, Call.Measured, true_and]
    exact ⟨by decide +kernel, by decide +kernel, List.forall_mem_nil _⟩
  have hpossible : ∀ c ∈ visits, c.Possible := by
    simp only [visits, List.forall_mem_cons, Call.Possible, true_and]
    exact ⟨hmiddle, by decide +kernel, hmiddle, by decide +kernel, List.forall_mem_nil _⟩
  have horderly : Orderly visits := by simp [Orderly, visits, Call.isSeed, Call.isSelect]
  have haverages := replay_averages horderly hmeasured
  obtain ⟨p, hp⟩ := haverages.1 hpossible
  refine ⟨p, hp, haverages.2 p hp, ?_, ?_⟩
  · rw [(haverages.2 p hp).estimate]
    decide +kernel
  · rw [(haverages.2 p hp).estimate]
    decide +kernel

end Pseudocosts

end Milp
