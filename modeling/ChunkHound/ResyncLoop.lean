import ChunkHound.StepSystem
import Mathlib.Tactic.Common

/-!
# The resync loop

`request_resync` and `_dispatch_resync` of `pipeline.py`, with what asks for a resync : the
overflow of the event queue, and the lost payloads of the Watchman adapter (`watchman.py`).

A request made by a task of its own is first only `spawned`. The dispatch task sleeps until a
whole debounce period has passed without a request, then runs the callback, and runs it again
when a request has come meanwhile, which it tells by the clock reading of the newest one.

`history` records what happened, newest first. Counters and texts that only the status
reports are left out.
-/

namespace ChunkHound.Resync

/-- What the history records. Callbacks are numbered. -/
inductive Mark
  | request
  | dropEvent
  | dropPayload
  | rejectPayload
  | start (n : ℕ)
  | succeed (n : ℕ)
  | fail (n : ℕ)
  | idle
  deriving DecidableEq, Repr

/-- The dispatch task : not there, not yet begun, sleeping with the request it saw, or running
callback `n` for the request it saw. -/
inductive Dispatch
  | none
  | created
  | debouncing (requestedAt : Option ℕ)
  | running (n : ℕ) (startedRequestAt : Option ℕ)
  deriving DecidableEq, Repr

/-- `_event_queue_overflow_state`. -/
inductive Overflow
  | idle | reconciling | failed
  deriving DecidableEq, Repr

structure State where
  callbackSet : Bool
  clock : ℕ
  needsResync : Bool
  lastRequest : Option ℕ
  dispatch : Dispatch
  spawned : ℕ
  overflow : Overflow
  callbacks : ℕ
  history : List Mark
  deriving DecidableEq, Repr

def init (callbackSet : Bool) : State :=
  ⟨callbackSet, 0, false, none, .none, 0, .idle, 0, []⟩

inductive Action
  | tick
  | request
  | runSpawned
  | dropEvent
  | dropPayload
  | rejectPayload
  | loseSync
  | beginDispatch
  | debounceElapses
  | callbackReturns (ok : Bool)
  deriving DecidableEq, Repr

namespace State

/-- `request_resync`. -/
def requestResync (s : State) : State :=
  { s with
    needsResync := true
    lastRequest := some s.clock
    dispatch := if s.dispatch = .none then .created else s.dispatch
    history := .request :: s.history }

/-- `_start_transient_task(self.request_resync(…))`. -/
def spawnRequest (s : State) : State := { s with spawned := s.spawned + 1 }

def record (s : State) (m : Mark) : State := { s with history := m :: s.history }

/-- `_record_event_queue_overflow`. -/
def dropEvent (s : State) : State :=
  let s := s.record .dropEvent
  if s.overflow = .idle then { s with overflow := .reconciling }.spawnRequest else s

/-- `_handle_subscription_queue_overflow`. -/
def dropPayload (s : State) : State :=
  let s := s.record .dropPayload
  if s.needsResync then s else s.spawnRequest

/-- `_complete_event_queue_overflow_burst`. -/
def completeOverflow (s : State) (success : Bool) : State :=
  if s.overflow = .idle then s
  else if success then { s with overflow := .idle }.record .idle
  else { s with overflow := .failed }

/-- The dispatch task starts the callback. -/
def startCallback (s : State) : State :=
  { s with
    dispatch := .running s.callbacks s.lastRequest
    callbacks := s.callbacks + 1
    history := .start s.callbacks :: s.history }

/-- The dispatch task ends. -/
def endDispatch (s : State) : State := { s with dispatch := .none }

/-- The debounce period is over. -/
def debounceElapses (s : State) (requestedAt : Option ℕ) : State :=
  if requestedAt = s.lastRequest then
    if s.callbackSet then s.startCallback else (s.completeOverflow false).endDispatch
  else { s with dispatch := .debouncing s.lastRequest }

/-- Callback `n` returns. -/
def callbackReturns (s : State) (n : ℕ) (startedRequestAt : Option ℕ) (ok : Bool) : State :=
  if ok then
    let s := ({ s with needsResync := false }.record (.succeed n)).completeOverflow true
    if startedRequestAt = s.lastRequest then s.endDispatch else s.startCallback
  else ((s.record (.fail n)).completeOverflow false).endDispatch

section CompleteOverflow

variable (s : State) (success : Bool)

@[simp] theorem completeOverflow_dispatch : (s.completeOverflow success).dispatch = s.dispatch := by
  unfold completeOverflow
  split_ifs <;> rfl

@[simp] theorem completeOverflow_lastRequest :
    (s.completeOverflow success).lastRequest = s.lastRequest := by
  unfold completeOverflow
  split_ifs <;> rfl

@[simp] theorem completeOverflow_needsResync :
    (s.completeOverflow success).needsResync = s.needsResync := by
  unfold completeOverflow
  split_ifs <;> rfl

@[simp] theorem completeOverflow_spawned : (s.completeOverflow success).spawned = s.spawned := by
  unfold completeOverflow
  split_ifs <;> rfl

@[simp] theorem completeOverflow_callbackSet :
    (s.completeOverflow success).callbackSet = s.callbackSet := by
  unfold completeOverflow
  split_ifs <;> rfl

end CompleteOverflow

end State

def step (s : State) : Action → Option State
  | .tick => some { s with clock := s.clock + 1 }
  | .request => some s.requestResync
  | .runSpawned =>
    if s.spawned = 0 then none else some { s with spawned := s.spawned - 1 }.requestResync
  | .dropEvent => some s.dropEvent
  | .dropPayload => some s.dropPayload
  | .rejectPayload => some (s.record .rejectPayload).spawnRequest
  | .loseSync => some s.spawnRequest
  | .beginDispatch =>
    if s.dispatch = .created then some { s with dispatch := .debouncing s.lastRequest } else none
  | .debounceElapses =>
    match s.dispatch with
    | .debouncing requestedAt => some (s.debounceElapses requestedAt)
    | _ => none
  | .callbackReturns ok =>
    match s.dispatch with
    | .running n startedRequestAt => some (s.callbackReturns n startedRequestAt ok)
    | _ => none

variable {s s' : State}

theorem runSpawned_cases (h : step s .runSpawned = some s') :
    s.spawned ≠ 0 ∧ s' = { s with spawned := s.spawned - 1 }.requestResync := by
  obtain ⟨hspawned, ⟨⟩⟩ := Option.ite_none_left_eq_some.1 h
  exact ⟨hspawned, rfl⟩

theorem beginDispatch_cases (h : step s .beginDispatch = some s') :
    s.dispatch = .created ∧ s' = { s with dispatch := .debouncing s.lastRequest } := by
  obtain ⟨hcreated, ⟨⟩⟩ := Option.ite_none_right_eq_some.1 h
  exact ⟨hcreated, rfl⟩

theorem debounceElapses_cases (h : step s .debounceElapses = some s') :
    ∃ requestedAt, s.dispatch = .debouncing requestedAt ∧ s' = s.debounceElapses requestedAt := by
  simp only [step] at h
  split at h
  · rename_i requestedAt hd
    exact ⟨requestedAt, hd, (Option.some.inj h).symm⟩
  · cases h

theorem callbackReturns_cases {ok : Bool} (h : step s (.callbackReturns ok) = some s') :
    ∃ n startedRequestAt, s.dispatch = .running n startedRequestAt ∧
      s' = s.callbackReturns n startedRequestAt ok := by
  simp only [step] at h
  split at h
  · rename_i n startedRequestAt hd
    exact ⟨n, startedRequestAt, hd, (Option.some.inj h).symm⟩
  · cases h

/-! ## Requests -/

open StepSystem

/-- A callback has started and succeeded. -/
def Served (after : List Mark) : Prop :=
  ∃ n late early, after = late ++ .start n :: early ∧ .succeed n ∈ late

variable {after : List Mark}

theorem Served.cons (h : Served after) (m : Mark) : Served (m :: after) := by
  obtain ⟨n, late, early, rfl, hn⟩ := h
  exact ⟨n, m :: late, early, rfl, List.mem_cons_of_mem m hn⟩

theorem served_of_start {n : ℕ} (h : .start n ∈ after) :
    Served (.succeed n :: after) := by
  obtain ⟨late, early, rfl⟩ := List.append_of_mem h
  exact ⟨n, .succeed n :: late, early, rfl, List.mem_cons_self⟩

/-- A request is served, or the flag tells, or the running callback started after it. -/
def Honoured (s : State) (after : List Mark) : Prop :=
  Served after ∨ s.needsResync = true ∨
    ∃ n startedRequestAt, s.dispatch = .running n startedRequestAt ∧ .start n ∈ after

/-- What keeps a request from being lost : the flag, and while a callback runs that it came
after, its clock reading. -/
def Kept (s : State) (after : List Mark) : Prop :=
  match s.dispatch with
  | .running n startedRequestAt =>
    .start n ∈ after ∨ (s.needsResync = true ∧ s.lastRequest ≠ startedRequestAt)
  | _ => s.needsResync = true

def RequestsKept (s : State) : Prop :=
  Since .request (fun after => Served after ∨ Kept s after) s.history

/-- No request comes at the clock reading of the one the running callback was started for, and
no callback fails with the flag cleared. -/
def Timely (s : State) : Action → Prop
  | .request | .runSpawned => ∀ n, s.dispatch ≠ .running n (some s.clock)
  | .callbackReturns false => s.needsResync = true
  | _ => True

section Requests

variable {s s' : State}

theorem Kept.cons {after : List Mark} (h : Kept s after) (m : Mark) : Kept s (m :: after) := by
  unfold Kept at *
  split at h
  · exact h.imp_left (List.mem_cons_of_mem m)
  · exact h

/-- A mark that is no request keeps the requests, when the rest of the state does. -/
theorem RequestsKept.record (h : RequestsKept s) {m : Mark} (hm : m ≠ .request)
    (hkept : ∀ after, Kept s after → Served (m :: after) ∨ Kept s' (m :: after))
    (hhistory : s'.history = m :: s.history) : RequestsKept s' := by
  unfold RequestsKept
  rw [hhistory]
  exact Since.cons hm (h.mono fun after ha =>
    ha.elim (fun hserved => Or.inl (hserved.cons m)) (hkept after))

theorem RequestsKept.record_same (h : RequestsKept s) {m : Mark} (hm : m ≠ .request) :
    RequestsKept (s.record m) :=
  h.record hm (fun _ ha => Or.inr (ha.cons m)) rfl

theorem requestsKept_request (h : RequestsKept s)
    (hclock : ∀ n, s.dispatch ≠ .running n (some s.clock)) : RequestsKept s.requestResync := by
  have hkept : ∀ after, Kept s.requestResync after := by
    intro after
    unfold Kept State.requestResync
    cases hd : s.dispatch with
    | running n startedRequestAt =>
      refine Or.inr ⟨rfl, fun heq => hclock n ?_⟩
      obtain rfl : some s.clock = startedRequestAt := heq
      exact hd
    | none => rfl
    | created => rfl
    | debouncing requestedAt => rfl
  exact since_cons.2 ⟨fun _ => Or.inr (hkept []), h.mono fun after ha => Or.inr (hkept _)⟩

/-- The overflow state does not matter to requests. -/
theorem requestsKept_completeOverflow (h : RequestsKept s) (success : Bool) :
    RequestsKept (s.completeOverflow success) := by
  unfold State.completeOverflow
  split
  · exact h
  · split
    · exact RequestsKept.record_same (s := { s with overflow := .idle }) h (by simp)
    · exact h

theorem served_completeOverflow (h : Since .request Served s.history) (success : Bool) :
    Since .request Served (s.completeOverflow success).history := by
  unfold State.completeOverflow
  split
  · exact h
  · split
    · exact Since.cons (by simp) (h.mono fun after ha => ha.cons .idle)
    · exact h

/-- A callback starts after every request there is. -/
theorem requestsKept_startCallback (s : State) : RequestsKept s.startCallback :=
  Since.cons (by simp) fun _ _ _ => Or.inr (Or.inl List.mem_cons_self)

theorem requestsKept_of_flag (hflag : s.needsResync = true)
    (hdispatch : ∀ n startedRequestAt, s.dispatch ≠ .running n startedRequestAt) :
    RequestsKept s := by
  intro after before _
  refine Or.inr ?_
  unfold Kept
  split
  · rename_i n startedRequestAt hd
    exact absurd hd (hdispatch n startedRequestAt)
  · exact hflag

theorem requestsKept_debounceElapses (h : RequestsKept s) {requestedAt : Option ℕ}
    (hd : s.dispatch = .debouncing requestedAt) : RequestsKept (s.debounceElapses requestedAt) := by
  have hflag : Since .request (fun after => Served after ∨ s.needsResync = true) s.history := by
    refine h.mono fun after ha => ha.imp_right fun hkept => ?_
    simpa [Kept, hd] using hkept
  unfold State.debounceElapses
  split
  · split
    · exact requestsKept_startCallback s
    · have hover : RequestsKept (s.completeOverflow false) := requestsKept_completeOverflow h false
      refine hover.mono fun after ha => ha.imp_right fun hkept => ?_
      simpa [Kept, hd, State.endDispatch] using hkept
  · refine hflag.mono fun after ha => ha.imp_right fun hkept => ?_
    simpa [Kept] using hkept

/-- A callback that succeeds serves every request it started after, and is run again when
there is another. -/
theorem requestsKept_succeed (h : RequestsKept s) {n : ℕ} {startedRequestAt : Option ℕ}
    (hd : s.dispatch = .running n startedRequestAt) :
    RequestsKept (s.callbackReturns n startedRequestAt true) := by
  simp only [State.callbackReturns, if_true]
  split
  · rename_i hlast
    have hlast : startedRequestAt = s.lastRequest := by simpa [State.record] using hlast
    have hserved : Since .request Served
        (({ s with needsResync := false } : State).record (.succeed n)).history := by
      refine Since.cons (by simp) (h.mono fun after ha => ?_)
      rcases ha with hserved | hkept
      · exact hserved.cons (.succeed n)
      · rw [Kept, hd] at hkept
        rcases hkept with hstart | ⟨-, hne⟩
        · exact served_of_start hstart
        · exact absurd hlast.symm hne
    exact (served_completeOverflow hserved true).mono fun after ha => Or.inl ha
  · exact requestsKept_startCallback _

theorem requestsKept_step {a : Action} (h : RequestsKept s) (hok : Timely s a)
    (hs : step s a = some s') : RequestsKept s' := by
  cases a with
  | tick =>
    obtain rfl := Option.some.inj hs
    exact h
  | request =>
    obtain rfl := Option.some.inj hs
    exact requestsKept_request h hok
  | runSpawned =>
    obtain ⟨-, rfl⟩ := runSpawned_cases hs
    exact requestsKept_request (s := { s with spawned := s.spawned - 1 }) h hok
  | dropEvent =>
    obtain rfl := Option.some.inj hs
    unfold State.dropEvent
    simp only
    split
    · exact h.record_same (by simp)
    · exact h.record_same (by simp)
  | dropPayload =>
    obtain rfl := Option.some.inj hs
    unfold State.dropPayload
    simp only
    split
    · exact h.record_same (by simp)
    · exact h.record_same (by simp)
  | rejectPayload =>
    obtain rfl := Option.some.inj hs
    exact h.record_same (by simp)
  | loseSync =>
    obtain rfl := Option.some.inj hs
    exact h
  | beginDispatch =>
    obtain ⟨hd, rfl⟩ := beginDispatch_cases hs
    refine h.mono fun after ha => ha.imp_right fun hkept => ?_
    simpa [Kept, hd] using hkept
  | debounceElapses =>
    obtain ⟨requestedAt, hd, rfl⟩ := debounceElapses_cases hs
    exact requestsKept_debounceElapses h hd
  | callbackReturns ok =>
    obtain ⟨n, startedRequestAt, hd, rfl⟩ := callbackReturns_cases hs
    cases ok with
    | true => exact requestsKept_succeed h hd
    | false =>
      refine requestsKept_of_flag ?_ ?_
      · have hflag : s.needsResync = true := hok
        simpa [State.callbackReturns, State.record, State.endDispatch] using hflag
      · simp [State.callbackReturns, State.endDispatch]

/-- In every run of timely steps each request is served by a callback that started after it,
or the flag still tells, or the callback that will serve it runs. -/
theorem requests_honoured (callbackSet : Bool)
    (h : ReachWhen step Timely (init callbackSet) s) :
    Since .request (Honoured s) s.history := by
  have hinit : RequestsKept (init callbackSet) := since_nil
  have hkept : RequestsKept s := h.invariant hinit fun s a s' hs hok hstep =>
    requestsKept_step hs hok hstep
  refine hkept.mono fun after ha => ha.imp_right fun hk => ?_
  unfold Kept at hk
  split at hk
  · rename_i n startedRequestAt hd
    rcases hk with hstart | ⟨hflag, -⟩
    · exact Or.inr ⟨n, startedRequestAt, hd, hstart⟩
    · exact Or.inl hflag
  · exact Or.inl hk

/-- One request, served. -/
theorem requests_honoured_one : ∃ s, s.dispatch = .none ∧ .request ∈ s.history ∧
    Since .request (Honoured s) s.history := by
  have hrequest : ReachWhen step Timely (init true) (init true).requestResync :=
    .step .init (a := .request) (fun n hn => nomatch hn) rfl
  have hbegin := hrequest.step (a := Action.beginDispatch) trivial rfl
  have hstart := hbegin.step (a := Action.debounceElapses) trivial rfl
  have hdone := hstart.step (a := Action.callbackReturns true) trivial rfl
  exact ⟨_, rfl, by decide, requests_honoured true hdone⟩

/-- A second request comes while the callback of the first runs. The callback succeeds and
clears the flag, its second run fails, and the second request is lost with the flag clear. -/
theorem second_request_lost :
    ¬ ∀ s, Reach step (init true) s → Since .request (Honoured s) s.history := by
  intro h
  have hr : Reach step (init true)
      ⟨true, 1, false, some 1, .none, 0, .idle, 2,
        [.fail 1, .start 1, .succeed 0, .request, .start 0, .request]⟩ :=
    Reach.of_execute [.request, .beginDispatch, .debounceElapses, .tick, .request,
      .callbackReturns true, .callbackReturns false] (by decide)
  rcases h _ hr [.fail 1, .start 1, .succeed 0] [.start 0, .request] rfl with
    ⟨n, late, early, heq, hn⟩ | hflag | ⟨n, startedRequestAt, hd, -⟩
  · have hstart : Mark.start n ∈ [.fail 1, .start 1, .succeed 0] := by
      rw [heq]
      exact List.mem_append_right _ List.mem_cons_self
    have hsucceed : Mark.succeed n ∈ [.fail 1, .start 1, .succeed 0] := by
      rw [heq]
      exact List.mem_append_left _ hn
    simp at hstart hsucceed
    omega
  · cases hflag
  · cases hd

end Requests

end ChunkHound.Resync
