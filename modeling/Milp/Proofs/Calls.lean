/-
  The calls of callbacks that the events of a search stand for.

  Events say which node was shown to a callback, and which node was closed.  A closed node is reported
  to all callbacks, so one event may stand for many calls.

  * `Call`: a call of one callback; `Engine.calls`: the calls that a history stands for.
  * `Engine.replay`: make calls again.
  * `shown_calls`, `reported_calls`: which callbacks are called for a node, and in which order.
  * `calls_inOrder`: no node is shown after it was reported.
-/
import Milp.Proofs.Chronicle

namespace Milp

variable {F σ β κ : Type}

namespace Callbacks

/-- Tell one callback that a node was closed. -/
def report (cs : Callbacks F κ) (i : Nat) (record : Record F) (s : κ) : κ :=
  match cs[i]? with
  | some c => c.onClosed record s
  | none => s

/-- Telling all callbacks is telling one after the other, in their order. -/
theorem notify_eq (cs : Callbacks F κ) (record : Record F) (s : κ) :
    cs.notify record s = (List.range cs.length).foldl (fun s i => cs.report i record s) s := by
  induction cs generalizing s with
  | nil => rfl
  | cons c cs ih =>
    rw [List.length_cons, List.range_succ_eq_map, List.foldl_cons, List.foldl_map]
    exact ih (c.onClosed record s)

end Callbacks

namespace Search

/-! ## Calls -/

/-- A call of a callback.  Callbacks are numbered in the order in which they are given. -/
inductive Call (F : Type) where
  /-- A solved node is shown. -/
  | solved (place : Nat) (view : View F)
  /-- A closed node is reported. -/
  | closed (place : Nat) (record : Record F)

namespace Call

/-- Which callback is shown this node? -/
def shown? (id : NodeId) : Call F → Option Nat
  | solved place view => if view.id = id then some place else none
  | closed .. => none

/-- Which callback is this node reported to? -/
def reported? (id : NodeId) : Call F → Option Nat
  | solved .. => none
  | closed place record => if record.id = id then some place else none

/-- After a node was reported it is not shown. -/
def InOrder : Call F → Call F → Prop
  | closed _ record, solved _ view => view.id ≠ record.id
  | _, _ => True

end Call

/-- Was this node shown to a callback? -/
def Event.shows (id : NodeId) : Event F → Bool
  | .offered _ view => view.id = id
  | _ => false

/-- Is no callback called? -/
def Event.isQuiet : Event F → Bool
  | .offered .. | .closed .. => false
  | _ => true

theorem Event.isQuiet_of_isRemark {event : Event F} (h : event.isRemark = true) :
    event.isQuiet = true := by
  cases event <;> first | rfl | cases h

theorem Event.not_shows_of_isQuiet {event : Event F} (h : event.isQuiet = true) (id : NodeId) :
    event.shows id = false := by
  cases event <;> first | rfl | cases h

namespace Engine

variable (E : Engine F σ β κ)

/-- The calls that an event stands for, after the events before it.  A node is shown to the callbacks
    one after the other, and it is reported to all of them. -/
def callsAt (earlier : List (Event F)) : Event F → List (Call F)
  | .offered _ view => [.solved (earlier.countP (Event.shows view.id)) view]
  | .closed record => (List.range E.callbacks.length).map (.closed · record)
  | _ => []

/-- The calls that a history stands for, in the order in which they are made. -/
def calls : List (Event F) → List (Call F)
  | [] => []
  | event :: earlier => calls earlier ++ E.callsAt earlier event

/-- Make a call. -/
def call (k : κ) : Call F → Except Fault κ
  | .solved place view => (E.callbacks.invoke place view E.candidates k).map Prod.snd
  | .closed place record => .ok (E.callbacks.report place record k)

/-- Make calls, one after the other. -/
def replay (calls : List (Call F)) (k : κ) : Except Fault κ := calls.foldlM E.call k

variable {E}

theorem callsAt_of_isQuiet {event : Event F} (h : event.isQuiet = true) (earlier : List (Event F)) :
    E.callsAt earlier event = [] := by
  cases event <;> first | rfl | cases h

theorem calls_of_isQuiet {events : List (Event F)} (h : ∀ event ∈ events, event.isQuiet = true)
    (history : List (Event F)) : E.calls (events ++ history) = E.calls history := by
  induction events with
  | nil => rfl
  | cons event events ih =>
    obtain ⟨hevent, hevents⟩ := List.forall_mem_cons.1 h
    rw [List.cons_append, calls, callsAt_of_isQuiet hevent, List.append_nil, ih hevents]

/-- Reporting a node to one callback after the other is telling all of them. -/
theorem replay_reports (record : Record F) (k : κ) :
    E.replay ((List.range E.callbacks.length).map (.closed · record)) k =
      .ok (E.callbacks.notify record k) := by
  rw [replay, List.foldlM_map, Callbacks.notify_eq]
  exact List.foldlM_pure ..

theorem replay_append (calls calls' : List (Call F)) (k : κ) :
    E.replay (calls ++ calls') k = (E.replay calls k).bind (E.replay calls') :=
  List.foldlM_append ..

/-- A node is shown to the callbacks in their order. -/
theorem shown_calls (history : List (Event F)) (id : NodeId) :
    (E.calls history).filterMap (Call.shown? id) =
      List.range (history.countP (Event.shows id)) := by
  induction history with
  | nil => rfl
  | cons event earlier ih =>
    rw [calls, List.filterMap_append, ih]
    cases event with
    | offered name view =>
      by_cases hid : view.id = id
      · simp [callsAt, Call.shown?, Event.shows, hid, List.range_succ]
      · simp [callsAt, Call.shown?, Event.shows, hid]
    | closed record => simp [callsAt, Call.shown?, Event.shows, List.filterMap_map]
    | _ => simp [callsAt, Event.shows]

/-- A node that is closed once is reported to all callbacks in their order. -/
theorem reported_calls {history : List (Event F)}
    (hnodup : ((history.filterMap Event.record?).map Record.id).Nodup) (id : NodeId) :
    (E.calls history).filterMap (Call.reported? id) =
      if id ∈ (history.filterMap Event.record?).map Record.id then List.range E.callbacks.length
      else [] := by
  induction history with
  | nil => rfl
  | cons event earlier ih =>
    rw [calls, List.filterMap_append]
    cases event with
    | closed record =>
      obtain ⟨hnew, hnodup⟩ := List.nodup_cons.1 hnodup
      rw [ih hnodup]
      by_cases hid : record.id = id
      · subst hid
        simp [callsAt, Call.reported?, List.filterMap_map, Function.comp_def, Event.record?, hnew]
      · have hmem : id ∈ ((Event.closed record :: earlier).filterMap Event.record?).map Record.id ↔
            id ∈ (earlier.filterMap Event.record?).map Record.id := by
          show id ∈ record.id :: _ ↔ _
          rw [List.mem_cons, or_iff_right (Ne.symm hid)]
        simp only [hmem]
        simp [callsAt, Call.reported?, List.filterMap_map, Function.comp_def, hid]
    | _ => exact (List.append_nil _).trans (ih hnodup)

/-- What is reported was closed. -/
theorem mem_of_reported {history : List (Event F)} {place : Nat} {record : Record F}
    (h : .closed place record ∈ E.calls history) : .closed record ∈ history := by
  induction history with
  | nil => cases h
  | cons event earlier ih =>
    rcases List.mem_append.1 h with h | h
    · exact List.mem_cons_of_mem _ (ih h)
    · cases event with
      | closed record' =>
        obtain ⟨_, -, heq⟩ := List.mem_map.1 h
        cases heq
        exact List.mem_cons_self
      | offered name view => cases List.mem_singleton.1 h
      | _ => cases h

/-- If no node is shown that was closed before, no node is shown that was reported before. -/
theorem calls_inOrder {history : List (Event F)}
    (h : ∀ {name view earlier}, .offered name view :: earlier <:+ history →
      ∀ record, .closed record ∈ earlier → record.id ≠ view.id) :
    (E.calls history).Pairwise Call.InOrder := by
  induction history with
  | nil => exact .nil
  | cons event earlier ih =>
    have hearlier := ih fun hsuffix => h (hsuffix.trans (List.suffix_cons _ _))
    refine List.pairwise_append.2 ⟨hearlier, ?_, fun call hcall call' hcall' => ?_⟩
    · cases event with
      | closed record => exact List.pairwise_map.2 (List.pairwise_of_forall fun _ _ => trivial)
      | offered name view => exact List.pairwise_singleton ..
      | _ => exact .nil
    · cases event with
      | closed record =>
        obtain ⟨_, -, rfl⟩ := List.mem_map.1 hcall'
        cases call <;> trivial
      | offered name view =>
        obtain rfl := List.mem_singleton.1 hcall'
        cases call with
        | solved => trivial
        | closed place record =>
          exact (h (List.suffix_refl _) record (mem_of_reported hcall)).symm
      | _ => cases hcall'

end Engine

/-- Quiet events hide no offer. -/
theorem suffix_of_isQuiet {events history earlier : List (Event F)} {name : String} {view : View F}
    (hquiet : ∀ event ∈ events, event.isQuiet = true)
    (h : .offered name view :: earlier <:+ events ++ history) :
    .offered name view :: earlier <:+ history := by
  induction events with
  | nil => exact h
  | cons event events ih =>
    obtain ⟨hevent, hevents⟩ := List.forall_mem_cons.1 hquiet
    rcases List.suffix_cons_iff.1 h with heq | h
    · cases (List.cons.inj heq).1
      cases hevent
    · exact ih hevents h

theorem countP_of_isQuiet {events history : List (Event F)}
    (hquiet : ∀ event ∈ events, event.isQuiet = true) (id : NodeId) :
    (events ++ history).countP (Event.shows id) = history.countP (Event.shows id) := by
  rw [List.countP_append, List.countP_eq_zero.2, Nat.zero_add]
  intro event hevent
  simp [Event.not_shows_of_isQuiet (hquiet event hevent) id]

end Search

end Milp
