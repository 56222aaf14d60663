/-
  The incumbent after a sequence of candidates.

  A candidate replaces the incumbent only if it is better by more than a tolerance.  To be within
  the tolerance of each other is not transitive, yet a series of candidates that are each refused
  loses no more than the tolerance once: what an incumbent refuses, all that replace it refuse.

  * `Tracker.offer`, `Tracker.offerAll`: one candidate, and one after the other.
  * `Tracker.KeepsBest`: what a tracker is for the candidates it was offered;
    `Tracker.KeepsBest.offer`: one candidate more.
  * `Tracker.offerAll_keepsBest`: the tracker keeps the best of all sequences of finite candidates.
-/
import Milp.Incumbent
import Milp.Proofs.Scalar.Exact

namespace Milp

variable {F : Type}

/-! ## Offers -/

namespace Tracker

variable [Scalar F]

/-- Was the candidate accepted, and the tracker after that. -/
def offer (t : Tracker F) (candidate : Incumbent F) (tolerance : F) : Bool × Tracker F :=
  match t.update? candidate tolerance with
  | some next => (true, next)
  | none => (false, t)

/-- The candidates that were accepted, in their order, and the tracker after all of them. -/
def offerAll (t : Tracker F) (tolerance : F) :
    List (Incumbent F) → List (Incumbent F) × Tracker F
  | [] => ([], t)
  | candidate :: rest =>
    let (taken, next) := t.offer candidate tolerance
    let (accepted, last) := next.offerAll tolerance rest
    (if taken then candidate :: accepted else accepted, last)

variable {t : Tracker F} {candidate : Incumbent F} {tolerance : F}

theorem offer_of_improves (h : t.improves candidate.objective tolerance = true) :
    t.offer candidate tolerance =
      (true, { t with best := some candidate, updates := t.updates + 1 }) := by
  rw [offer, update?, if_pos h]

theorem offer_of_not_improves (h : t.improves candidate.objective tolerance = false) :
    t.offer candidate tolerance = (false, t) := by
  rw [offer, update?, h]
  rfl

/-- The answer is what `improves` says. -/
theorem offer_fst : (t.offer candidate tolerance).1 = t.improves candidate.objective tolerance := by
  cases h : t.improves candidate.objective tolerance with
  | true => rw [offer_of_improves h]
  | false => rw [offer_of_not_improves h]

end Tracker

/-! ## Better by more than the tolerance -/

namespace Exact

variable {a b t : Exact}

protected theorem lt_trans {c : Exact} (h : a < b) (h' : b < c) : a < c :=
  lt_of_lt_of_le h (le_of_lt h')

protected theorem lt_irrefl (a : Exact) : ¬ a < a := by
  cases a <;> simp [lt_def, below]

/-- Below a value by more than a tolerance, infinite or not. -/
theorem lt_of_lt_sub (h : a < b - t) (ht : 0 ≤ t) : a < b := by
  rw [zero_eq] at ht
  cases a <;> cases b <;> cases t <;>
    simp_all [le_def, lt_def, below, same, sub_def, Exact.add, Exact.neg]
  grind

end Exact

namespace Sense

variable {s : Sense} {a b c tolerance : Exact}

theorem better_iff :
    s.better a b tolerance = true ↔ s.normalize a < s.normalize b - tolerance := by
  rw [better, decide_eq_true_eq]

theorem not_better_self (ht : 0 ≤ tolerance) : s.better a a tolerance = false := by
  rw [Bool.eq_false_iff, Ne, better_iff]
  exact fun h => Exact.lt_irrefl _ (Exact.lt_of_lt_sub h ht)

theorem better_trans (ht : 0 ≤ tolerance) (h : s.better a b tolerance = true)
    (h' : s.better b c tolerance = true) : s.better a c tolerance = true := by
  rw [better_iff] at *
  exact Exact.lt_trans (Exact.lt_of_lt_sub h ht) h'

/-- What was refused before a value was replaced by a better one is refused after that. -/
theorem not_better_of_better (ht : 0 ≤ tolerance) (hnew : s.better b c tolerance = true)
    (h : s.better a c tolerance = false) : s.better a b tolerance = false := by
  rw [Bool.eq_false_iff] at *
  exact fun hbetter => h (better_trans ht hbetter hnew)

end Sense

/-! ## The best of the candidates offered -/

namespace Tracker

/-- A tracker that was offered candidates and accepted some of them.

    * It is empty only if there was none, and the incumbent is the last that was accepted.
    * The incumbent is the first of the candidates that has its objective.
    * No candidate is better than the incumbent by more than the tolerance.
    * Every accepted candidate was offered, and is better by more than the tolerance than those
      accepted before; the updates count them. -/
structure KeepsBest (tolerance : Exact) (offered accepted : List (Incumbent Exact))
    (t : Tracker Exact) : Prop where
  empty : t.best = none ↔ offered = []
  earliest : ∀ i, t.best = some i → ∃ before after, offered = before ++ i :: after ∧
    ∀ j ∈ before, j.objective ≠ i.objective
  unbeaten : ∀ i, t.best = some i → ∀ j ∈ offered,
    t.sense.better j.objective i.objective tolerance = false
  among : accepted.Sublist offered
  last : accepted.getLast? = t.best
  chain : accepted.Pairwise fun i j => t.sense.better j.objective i.objective tolerance = true
  updates : t.updates = accepted.length

variable {tolerance : Exact} {offered accepted : List (Incumbent Exact)} {t : Tracker Exact}
  {candidate : Incumbent Exact}

theorem keepsBest_nil (sense : Sense) : KeepsBest tolerance [] [] { sense } where
  empty := by simp
  earliest := nofun
  unbeaten := nofun
  among := .slnil
  last := rfl
  chain := .nil
  updates := rfl

/-- What is better than the incumbent is better than all that were accepted. -/
theorem KeepsBest.better_accepted {a : Exact} {j : Incumbent Exact}
    (h : KeepsBest tolerance offered accepted t) (ht : 0 ≤ tolerance)
    (hbest : ∀ i, t.best = some i → t.sense.better a i.objective tolerance = true)
    (hj : j ∈ accepted) : t.sense.better a j.objective tolerance = true := by
  rcases List.eq_nil_or_concat' accepted with rfl | ⟨front, last, rfl⟩
  · cases hj
  have hlast : t.best = some last := by rw [← h.last, List.getLast?_concat]
  rcases List.mem_append.1 hj with hj | hj
  · have hbetter := (List.pairwise_append.1 h.chain).2.2 j hj last (List.mem_singleton_self last)
    exact Sense.better_trans ht (hbest last hlast) hbetter
  · rw [List.mem_singleton.1 hj]
    exact hbest last hlast

/-- The candidate is better than the incumbent, so no earlier one has its objective. -/
theorem KeepsBest.accept (h : KeepsBest tolerance offered accepted t) (ht : 0 ≤ tolerance)
    (himproves : t.improves candidate.objective tolerance = true) :
    KeepsBest tolerance (offered ++ [candidate]) (accepted ++ [candidate])
      { t with best := some candidate, updates := t.updates + 1 } := by
  -- What is known of the candidate, whether or not there was an incumbent.
  have hbest : ∀ i, t.best = some i →
      t.sense.better candidate.objective i.objective tolerance = true := by
    intro i hi
    rwa [improves, hi] at himproves
  have hoffered : ∀ j ∈ offered, ∃ i, t.best = some i := by
    intro j hj
    rw [← Option.ne_none_iff_exists']
    exact fun hnone => List.ne_nil_of_mem hj (h.empty.1 hnone)
  refine ⟨by simp, ?_, ?_, h.among.append (.refl _), by simp, ?_, ?_⟩
  · rintro _ ⟨⟩
    refine ⟨offered, [], rfl, fun j hj heq => ?_⟩
    obtain ⟨i, hi⟩ := hoffered j hj
    have hrefused := h.unbeaten i hi j hj
    rw [heq, hbest i hi] at hrefused
    cases hrefused
  · rintro _ ⟨⟩ j hj
    rcases List.mem_append.1 hj with hj | hj
    · obtain ⟨i, hi⟩ := hoffered j hj
      exact Sense.not_better_of_better ht (hbest i hi) (h.unbeaten i hi j hj)
    · rw [List.mem_singleton.1 hj]
      exact Sense.not_better_self ht
  · rw [List.pairwise_append]
    refine ⟨h.chain, List.pairwise_singleton _ _, fun j hj k hk => ?_⟩
    rw [List.mem_singleton.1 hk]
    exact h.better_accepted ht hbest hj
  · rw [List.length_append, List.length_singleton, h.updates]

theorem KeepsBest.refuse (h : KeepsBest tolerance offered accepted t)
    (hfinite : Scalar.isFinite candidate.objective = true)
    (himproves : t.improves candidate.objective tolerance = false) :
    KeepsBest tolerance (offered ++ [candidate]) accepted t := by
  -- The first candidate would have been accepted.
  obtain ⟨best, hbest⟩ : ∃ i, t.best = some i := by
    rw [← Option.ne_none_iff_exists']
    intro hnone
    rw [improves, hnone] at himproves
    exact Bool.false_ne_true (himproves.symm.trans hfinite)
  rw [improves, hbest] at himproves
  refine ⟨by simp [hbest], fun i hi => ?_, fun i hi j hj => ?_,
    h.among.trans (List.sublist_append_left _ _), h.last, h.chain, h.updates⟩
  · obtain ⟨before, after, rfl, hbefore⟩ := h.earliest i hi
    exact ⟨before, after ++ [candidate], by simp, hbefore⟩
  · rcases List.mem_append.1 hj with hj | hj
    · exact h.unbeaten i hi j hj
    · obtain rfl : best = i := Option.some.inj (hbest.symm.trans hi)
      rw [List.mem_singleton.1 hj]
      exact himproves

/-- One candidate more. -/
theorem KeepsBest.offer (h : KeepsBest tolerance offered accepted t) (ht : 0 ≤ tolerance)
    (hfinite : Scalar.isFinite candidate.objective = true) :
    KeepsBest tolerance (offered ++ [candidate])
      (if (t.offer candidate tolerance).1 then accepted ++ [candidate] else accepted)
      (t.offer candidate tolerance).2 := by
  cases himproves : t.improves candidate.objective tolerance with
  | true =>
    rw [offer_of_improves himproves]
    exact h.accept ht himproves
  | false =>
    rw [offer_of_not_improves himproves]
    exact h.refuse hfinite himproves

/-- Going on to offer candidates. -/
theorem KeepsBest.offerAll {rest : List (Incumbent Exact)}
    (h : KeepsBest tolerance offered accepted t) (ht : 0 ≤ tolerance)
    (hfinite : ∀ i ∈ rest, Scalar.isFinite i.objective = true) :
    KeepsBest tolerance (offered ++ rest) (accepted ++ (t.offerAll tolerance rest).1)
      (t.offerAll tolerance rest).2 := by
  induction rest generalizing offered accepted t with
  | nil => simpa [Tracker.offerAll] using h
  | cons candidate rest ih =>
    obtain ⟨hcandidate, hrest⟩ := List.forall_mem_cons.1 hfinite
    have hlast := ih (h.offer ht hcandidate) hrest
    rw [List.append_assoc, List.singleton_append] at hlast
    rw [Tracker.offerAll]
    cases htaken : (t.offer candidate tolerance).1 <;> simp_all

theorem offerAll_sense (candidates : List (Incumbent Exact)) :
    (t.offerAll tolerance candidates).2.sense = t.sense := by
  induction candidates generalizing t with
  | nil => rfl
  | cons candidate rest ih =>
    rw [offerAll, ih]
    cases h : t.improves candidate.objective tolerance with
    | true => rw [offer_of_improves h]
    | false => rw [offer_of_not_improves h]

/-- **A tracker never misses more than the tolerance.**  For both directions, every tolerance that
    is not negative and every sequence of finite candidates, and so after each part of it: the
    incumbent is the first offered with its objective, no candidate beats it by more than the
    tolerance, and the accepted ones get better in steps larger than that.  Whether a further
    candidate is accepted is what `improves` says; if so it is the incumbent and counted, and if not
    nothing changes. -/
theorem offerAll_keepsBest (sense : Sense) (tolerance : Exact) (ht : 0 ≤ tolerance)
    (offered : List (Incumbent Exact))
    (hfinite : ∀ i ∈ offered, Scalar.isFinite i.objective = true) :
    ∃ accepted t, ({ sense } : Tracker Exact).offerAll tolerance offered = (accepted, t) ∧
      t.sense = sense ∧ KeepsBest tolerance offered accepted t ∧ ∀ candidate,
        (t.offer candidate tolerance).1 = t.improves candidate.objective tolerance ∧
        (t.offer candidate tolerance).2 =
          if t.improves candidate.objective tolerance then
            { t with best := some candidate, updates := t.updates + 1 }
          else t := by
  refine ⟨_, _, rfl, offerAll_sense offered, ?_, fun candidate => ⟨offer_fst, ?_⟩⟩
  · exact (keepsBest_nil sense).offerAll ht hfinite
  · split
    · rw [offer_of_improves ‹_›]
    · rw [offer_of_not_improves (Bool.eq_false_iff.2 ‹_›)]

/-- Candidates of a maximisation: two near ties of the first, then a better one and its equal. -/
def nearTies : List (Incumbent Exact) :=
  [1, 7 / 5, 3 / 2, 2, 2].zipIdx.map fun (value, k) => ⟨.fin value, [], .relaxation, k, k⟩

theorem offerAll_keepsBest_nearTies :
    (0 : Exact) ≤ .fin (1 / 2) ∧ (∀ i ∈ nearTies, Scalar.isFinite i.objective = true) ∧
      ∃ accepted t, ({ sense := .maximize } : Tracker Exact).offerAll (.fin (1 / 2)) nearTies =
          (accepted, t) ∧
        accepted.map (·.node) = [0, 3] ∧ t.objective = .fin 2 ∧ t.updates = 2 ∧
        KeepsBest (.fin (1 / 2)) nearTies accepted t := by
  have ht : (0 : Exact) ≤ .fin (1 / 2) := by decide +kernel
  have hfinite : ∀ i ∈ nearTies, Scalar.isFinite i.objective = true := by decide +kernel
  obtain ⟨accepted, t, hall, -, hkeeps, -⟩ := offerAll_keepsBest .maximize _ ht nearTies hfinite
  have hnodes : (({ sense := .maximize } : Tracker Exact).offerAll (.fin (1 / 2))
      nearTies).1.map (·.node) = [0, 3] := by decide +kernel
  have hlast : (({ sense := .maximize } : Tracker Exact).offerAll (.fin (1 / 2))
      nearTies).2.objective = .fin 2 := by decide +kernel
  rw [hall] at hnodes hlast
  refine ⟨ht, hfinite, accepted, t, hall, hnodes, hlast, ?_, hkeeps⟩
  rw [hkeeps.updates, ← List.length_map (·.node), hnodes]
  rfl

end Tracker

end Milp
