import ChunkHound.StepSystem

/-!
# Starting the watchdog

A thread starts the observer and gives it to the event loop, where the future of the thread runs
its callback and then wakes the set-up, which adopts it. The set-up may time out or be cancelled,
and the service may be stopped, between any two of these steps.

The observer goes from hand to hand : the thread, the future, the callback, the set-up and the
service (`Inv.held`). It is dropped when the set-up is interrupted after the callback left the
observer to it (`interrupted_setup_leaks`), when the callback leaves it to a set-up that is gone, and
when a stop gives up on a thread that is past its last check. Where none of these happens it is
adopted or stopped (`observer_owned_of_careful`).

A step of the loop runs up to the next await. The set-up may be interrupted after its result
arrived, as it may from Python 3.12 on.
-/

namespace ChunkHound.Watchdog

open StepSystem

/-! ## State -/

/-- What `_bootstrap_fs_monitor` returns. -/
inductive Result
  | observer
  | none
  | error
  deriving DecidableEq

/-- Where the thread is : its observer is `started` until the abort was last checked. -/
inductive Thread
  | queued
  | starting
  | started
  | checked
  | returned (result : Result)
  | ended
  deriving DecidableEq

inductive Future
  | pending
  | resolved (result : Result)
  | cancelled
  deriving DecidableEq

/-- Where `_setup_watchdog_with_timeout` is. `settling` is the sleep of the polling backend. -/
inductive Setup
  | waiting
  | woken (result : Result)
  | settling
  | finished
  deriving DecidableEq

/-- The awaits of a stop. -/
inductive Stop
  | none
  | requested
  | awaiting
  | joining
  | cancelling
  | done
  deriving DecidableEq

/-- `abort` is the event of the thread. That of the service is the same until a stop replaces it. -/
structure State where
  thread : Thread
  future : Future
  callbackPending : Bool
  futureRef : Bool
  abort : Bool
  newAbort : Option Bool
  setup : Setup
  setupCancelled : Bool
  stop : Stop
  usingPolling : Bool
  pollingTask : Bool
  observerStarted : Bool
  observerStopped : Bool
  adopted : Bool
  deriving DecidableEq

/-- The thread is in the executor, and the set-up waits. -/
def State.start : State where
  thread := .queued
  future := .pending
  callbackPending := false
  futureRef := true
  abort := false
  newAbort := none
  setup := .waiting
  setupCancelled := false
  stop := .none
  usingPolling := false
  pollingTask := false
  observerStarted := false
  observerStopped := false
  adopted := false

namespace State

/-- `_watchdog_bootstrap_abort.is_set()`. -/
def aborted (s : State) : Bool := s.newAbort.getD s.abort

def setAbort (s : State) : State :=
  match s.newAbort with
  | none => { s with abort := true }
  | some _ => { s with newAbort := some true }

/-- The observer of a bootstrap is not wanted any more. -/
def refuses (s : State) : Bool := s.aborted || s.usingPolling || decide (s.stop ≠ .none)

/-! ## The set-up -/

/-- The end of the set-up drops a future that is done. -/
def finishSetup (s : State) : State :=
  { s with
    setup := .finished
    futureRef := s.futureRef && decide (s.future = .pending) }

/-- `_start_polling_backend` up to its sleep. -/
def startPolling (s : State) : State :=
  if s.usingPolling && s.pollingTask then { s with setup := .settling }
  else { s with setup := .settling, usingPolling := true, pollingTask := true }

/-- `_adopt_watchdog_monitor`. -/
def adopt (s : State) : State :=
  if s.refuses then { s with observerStopped := true }
  else { s with adopted := true, usingPolling := false }

/-- The result reaches the set-up. -/
def wake (s : State) (result : Result) : State :=
  match result with
  | .none => s.finishSetup
  | .observer => s.adopt.finishSetup
  | .error => s.setAbort.startPolling

/-- A set-up that waits has its result. -/
def wakeSetup (s : State) (result : Result) : State :=
  if s.setup = .waiting then { s with setup := .woken result } else s

/-- `_handle_watchdog_bootstrap_done`, and the waking of the set-up. -/
def callback (s : State) : State :=
  let done := { s with callbackPending := false, futureRef := false }
  match s.future with
  | .resolved .observer =>
    if s.refuses then { done with observerStopped := true }.wakeSetup .observer
    else done.wakeSetup .observer
  | .resolved result => done.wakeSetup result
  | _ => done

/-! ## Stopping -/

/-- The end of `stop`, with a new abort event. -/
def finishStop (s : State) : State :=
  { s with
    stop := .done
    futureRef := false
    newAbort := some false }

def cancelPolling (s : State) : State :=
  if s.pollingTask then { s with stop := .cancelling }
  else { s with usingPolling := false }.finishStop

/-- `_stop_observer` and what follows it. -/
def stopObserver (s : State) : State :=
  let s := { s with futureRef := false }
  if s.adopted then { s with stop := .joining, observerStopped := true } else s.cancelPolling

/-- The set-up is cancelled, and `_cancel_watchdog_bootstrap_future` starts. -/
def stopAdapter (s : State) : State :=
  let s := { s with setupCancelled := decide (s.setup ≠ Setup.finished) }.setAbort
  if s.futureRef ∧ s.future = .pending then { s with stop := .awaiting } else s.stopObserver

end State

/-! ## Steps -/

inductive Act
  | begin
  | drop
  | startObserver
  | startRaises
  | check
  | alive (isAlive : Bool)
  | resolve
  | callback
  | wake
  | timeout
  | cancel
  | settled
  | stop
  | stopAdapter
  | stopFutureDone
  | stopWaitEnds
  | stopJoined
  | stopPollingEnded
  deriving DecidableEq

/-- One step of the thread (`begin` to `alive`), of the loop or of a stop. `cancel` is a cancellation
that reaches the set-up, and `stopWaitEnds` the end of a stop's wait by its timeout or a
cancellation. -/
def step (s : State) : Act → Option State
  | .begin => if s.thread = .queued then some { s with thread := .starting } else none
  | .drop =>
    if s.thread = .queued ∧ s.future = .cancelled then some { s with thread := .ended } else none
  | .startObserver =>
    if s.thread = .starting then some { s with thread := .started, observerStarted := true }
    else none
  | .startRaises =>
    if s.thread = .starting then some { s with thread := .returned .error } else none
  | .check =>
    if s.thread = .started then
      if s.abort then some { s with thread := .returned .none, observerStopped := true }
      else some { s with thread := .checked }
    else none
  | .alive isAlive =>
    if s.thread = .checked then
      if isAlive then some { s with thread := .returned .observer }
      else some { s with thread := .returned .error, observerStopped := true }
    else none
  | .resolve =>
    match s.thread with
    | .returned result =>
      if s.future = .pending then
        some { s with thread := .ended, future := .resolved result, callbackPending := true }
      else some { s with thread := .ended }
    | _ => none
  | .callback => if s.callbackPending then some s.callback else none
  | .wake =>
    match s.setup with
    | .woken result => some (s.wake result)
    | _ => none
  | .timeout =>
    match s.setup with
    | .waiting => if s.setupCancelled then none else some s.setAbort.startPolling
    | .woken _ => if s.setupCancelled then none else some s.setAbort.startPolling
    | _ => none
  | .cancel => if s.setup = .finished then none else some s.finishSetup
  | .settled => if s.setup = .settling then some s.finishSetup else none
  | .stop => if s.stop = .none then some { s with stop := .requested } else none
  | .stopAdapter => if s.stop = .requested then some s.stopAdapter else none
  | .stopFutureDone =>
    if s.stop = .awaiting ∧ s.future ≠ .pending then some s.stopObserver else none
  | .stopWaitEnds =>
    if s.stop = .awaiting ∧ s.future = .pending then
      some { s with future := .cancelled, callbackPending := true }.stopObserver
    else none
  | .stopJoined =>
    if s.stop = .joining then some { s with adopted := false }.cancelPolling else none
  | .stopPollingEnded =>
    if s.stop = .cancelling then
      some { s with pollingTask := false, usingPolling := false }.finishStop
    else none

/-- The set-up is not interrupted once the observer was left to it, the callback leaves it to no
set-up that is gone, and a stop does not give up on a thread that is past its last check. -/
def Careful (s : State) : Act → Prop
  | .timeout => s.setup ≠ .woken .observer
  | .cancel => s.setup ≠ .woken .observer
  | .callback => s.future = .resolved .observer → s.refuses = true ∨ s.setup = .waiting
  | .stopWaitEnds => s.thread ≠ .checked ∧ s.thread ≠ .returned .observer
  | _ => True

instance : ∀ (s : State) (a : Act), Decidable (Careful s a) := fun s a => by
  unfold Careful
  split <;> infer_instance

/-- Nothing runs but the service, the observer and the polling task. -/
def Quiescent (s : State) : Prop :=
  (s.thread = .queued ∨ s.thread = .ended) ∧ s.callbackPending = false ∧ s.setup = .finished ∧
    (s.stop = .none ∨ s.stop = .done)

/-- An observer that was started is adopted or stopped, and none is adopted while polling. -/
def Owned (s : State) : Prop :=
  Quiescent s →
    (s.observerStarted = true → s.adopted = true ∨ s.observerStopped = true) ∧
    ¬(s.adopted = true ∧ s.pollingTask = true)

/-! ## Invariant -/

/-- Somebody has the observer. -/
def Held (s : State) : Prop :=
  s.observerStopped = true ∨ s.adopted = true ∨ s.thread = .started ∨ s.thread = .checked ∨
    (s.thread = .returned .observer ∧ s.future = .pending) ∨
    (s.future = .resolved .observer ∧ s.callbackPending = true) ∨ s.setup = .woken .observer

structure Inv (s : State) : Prop where
  held : s.observerStarted = true → Held s
  ended : ∀ result, s.future = .resolved result → s.thread = .ended
  cancelled : s.future = .cancelled →
    s.abort = true ∧ s.thread ≠ .checked ∧ s.thread ≠ .returned .observer
  adopted : s.adopted = true → s.usingPolling = false ∧ s.setup = .finished
  polling : s.pollingTask = true → s.usingPolling = true
  awaiting : s.stop = .awaiting → s.abort = true
  joining : s.stop = .joining → s.observerStopped = true
  event : s.stop ≠ .done → s.newAbort = none

theorem inv_start : Inv .start where
  held h := by cases h
  ended result h := by cases h
  cancelled h := by cases h
  adopted h := by cases h
  polling h := by cases h
  awaiting h := by cases h
  joining h := by cases h
  event _ := rfl

variable {s s' : State}

/-- The thread moves where nobody has to take the observer from it. -/
theorem Inv.moveThread {thread : Thread} (h : Inv s)
    (hfrom : s.thread = .queued ∨ s.thread = .starting)
    (hto : thread ≠ .checked ∧ thread ≠ .returned .observer) :
    Inv { s with thread := thread } :=
  { h with
    ended := fun result hf => by
      rcases hfrom with hfrom | hfrom <;> cases hfrom.symm.trans (h.ended result hf)
    held := fun hstarted => by
      have hheld := h.held hstarted
      grind [Held]
    cancelled := fun hc => ⟨(h.cancelled hc).1, hto⟩ }

theorem Inv.setAbort (h : Inv s) : Inv s.setAbort := by
  unfold State.setAbort
  split
  · exact { h with
      cancelled := fun hc => ⟨rfl, (h.cancelled hc).2⟩
      awaiting := fun _ => rfl }
  · rename_i b hb
    exact { h with event := fun hstop => by cases hb.symm.trans (h.event hstop) }

theorem setAbort_of_none (h : s.newAbort = none) : s.setAbort = { s with abort := true } := by
  unfold State.setAbort
  rw [h]

theorem setAbort_setup : s.setAbort.setup = s.setup := by
  unfold State.setAbort
  split <;> rfl

/-- A set-up that ends has no observer, or has dealt with it. -/
theorem Inv.finishSetup (h : Inv s)
    (hwoken : s.setup = .woken .observer → s.observerStopped = true ∨ s.adopted = true) :
    Inv s.finishSetup :=
  { h with
    held := fun hstarted => by
      have hheld : Held s := h.held hstarted
      unfold State.finishSetup
      grind [Held]
    adopted := fun hadopted => ⟨(h.adopted hadopted).1, rfl⟩ }

theorem Inv.startPolling (h : Inv s) (hsetup : s.setup ≠ .finished)
    (hwoken : s.setup ≠ .woken .observer) : Inv s.startPolling := by
  have hadopted : s.adopted ≠ true := fun hadopted => hsetup (h.adopted hadopted).2
  have hheld : s.observerStarted = true → Held { s with setup := .settling } := by
    intro hstarted
    have hheld := h.held hstarted
    grind [Held]
  unfold State.startPolling
  split
  · exact { h with
      held := hheld
      adopted := fun hno => absurd hno hadopted }
  · exact { h with
      held := hheld
      adopted := fun hno => absurd hno hadopted
      polling := fun _ => rfl }

/-- The observer is stopped, or adopted where nothing polls. -/
theorem Inv.adopt (h : Inv s) : Inv s.adopt.finishSetup := by
  unfold State.adopt
  split
  · have hstopped : Inv { s with observerStopped := true } :=
      { h with
        held := fun _ => Or.inl rfl
        joining := fun _ => rfl }
    exact hstopped.finishSetup fun _ => Or.inl rfl
  · rename_i hrefuses
    have hpolling : s.pollingTask ≠ true := by
      intro htask
      simp [State.refuses, h.polling htask] at hrefuses
    exact { h with
      held := fun _ => Or.inr (Or.inl rfl)
      adopted := fun _ => ⟨rfl, rfl⟩
      polling := fun htask => absurd htask hpolling }

theorem Inv.wake {result : Result} (h : Inv s) (hsetup : s.setup = .woken result) :
    Inv (s.wake result) := by
  cases result with
  | none => exact h.finishSetup fun hwoken => by cases hsetup.symm.trans hwoken
  | observer => exact h.adopt
  | error =>
    have hsame : s.setAbort.setup = .woken .error := setAbort_setup.trans hsetup
    exact h.setAbort.startPolling (by rw [hsame]; nofun) (by rw [hsame]; nofun)

theorem Inv.wakeSetup (h : Inv s) (result : Result) : Inv (s.wakeSetup result) := by
  unfold State.wakeSetup
  split
  · rename_i hwaiting
    exact { h with
      held := fun hstarted => by
        have hheld := h.held hstarted
        grind [Held]
      adopted := fun hadopted => by cases hwaiting.symm.trans (h.adopted hadopted).2 }
  · exact h

/-- The callback stops the observer, or leaves it to a set-up that waits. -/
theorem Inv.callback (h : Inv s)
    (hok : s.future = .resolved .observer → s.refuses = true ∨ s.setup = .waiting) :
    Inv s.callback := by
  have hdrop : s.future ≠ .resolved .observer →
      Inv { s with callbackPending := false, futureRef := false } := fun hf =>
    { h with
      held := fun hstarted => by
        have hheld := h.held hstarted
        grind [Held] }
  unfold State.callback
  dsimp only
  split
  · rename_i hf
    split
    · have hstopped : Inv { s with
          callbackPending := false, futureRef := false, observerStopped := true } :=
        { h with
          held := fun _ => Or.inl rfl
          joining := fun _ => rfl }
      exact hstopped.wakeSetup .observer
    · rename_i hrefuses
      have hwaiting := (hok hf).resolve_left hrefuses
      unfold State.wakeSetup
      rw [if_pos hwaiting]
      exact { h with
        held := fun _ => by simp [Held]
        adopted := fun hadopted => by cases hwaiting.symm.trans (h.adopted hadopted).2 }
  · rename_i result hne hf
    exact (hdrop fun hobserver => hne (Future.resolved.inj (hf.symm.trans hobserver))).wakeSetup
      result
  · rename_i hne
    exact hdrop (hne .observer)

theorem Inv.finishStop (h : Inv s) : Inv s.finishStop :=
  { h with
    awaiting := fun hno => by cases hno
    joining := fun hno => by cases hno
    event := fun hno => absurd rfl hno }

theorem Inv.cancelPolling (h : Inv s) (hstop : s.stop ≠ .done) : Inv s.cancelPolling := by
  unfold State.cancelPolling
  split
  · exact { h with
      awaiting := fun hno => by cases hno
      joining := fun hno => by cases hno
      event := fun _ => h.event hstop }
  · rename_i htask
    have hnot : Inv { s with usingPolling := false } :=
      { h with
        adopted := fun hadopted => ⟨rfl, (h.adopted hadopted).2⟩
        polling := fun hno => absurd hno htask }
    exact hnot.finishStop

theorem Inv.stopObserver (h : Inv s) (hstop : s.stop ≠ .done) : Inv s.stopObserver := by
  have href : Inv { s with futureRef := false } := { h with }
  unfold State.stopObserver
  dsimp only
  split
  · exact { h with
      held := fun _ => Or.inl rfl
      awaiting := fun hno => by cases hno
      joining := fun _ => rfl
      event := fun _ => h.event hstop }
  · exact href.cancelPolling hstop

theorem Inv.stopAdapter (h : Inv s) (hstop : s.stop = .requested) : Inv s.stopAdapter := by
  have hnone : s.newAbort = none := h.event (by rw [hstop]; nofun)
  have habort : Inv { s with setupCancelled := decide (s.setup ≠ Setup.finished), abort := true } :=
    { h with
      cancelled := fun hc => ⟨rfl, (h.cancelled hc).2⟩
      awaiting := fun _ => rfl }
  unfold State.stopAdapter
  rw [setAbort_of_none (s := { s with setupCancelled := decide (s.setup ≠ Setup.finished) }) hnone]
  dsimp only
  split
  · exact { habort with
      awaiting := fun _ => rfl
      joining := fun hno => by cases hno
      event := fun _ => hnone }
  · exact habort.stopObserver fun hdone => by cases hstop.symm.trans hdone

/-- The future is not resolved before the thread has ended. -/
theorem Inv.unresolved (h : Inv s) (hthread : s.thread ≠ .ended) (result : Result) :
    s.future ≠ .resolved result :=
  fun hf => hthread (h.ended result hf)

/-- The last check of the abort. -/
theorem Inv.check (h : Inv s) (hs : step s .check = some s') : Inv s' := by
  obtain ⟨hthread, hs⟩ := Option.ite_none_right_eq_some.1 hs
  have hended := h.unresolved (by rw [hthread]; nofun)
  split at hs
  · obtain rfl := Option.some.inj hs
    exact { h with
      held := fun _ => Or.inl rfl
      ended := fun result hf => absurd hf (hended result)
      cancelled := fun hc => ⟨(h.cancelled hc).1, nofun, nofun⟩
      joining := fun _ => rfl }
  · rename_i habort
    obtain rfl := Option.some.inj hs
    exact { h with
      held := fun _ => by simp [Held]
      ended := fun result hf => absurd hf (hended result)
      cancelled := fun hc => absurd (h.cancelled hc).1 habort }

/-- The observer is looked at once more and returned. -/
theorem Inv.alive {isAlive : Bool} (h : Inv s) (hs : step s (.alive isAlive) = some s') :
    Inv s' := by
  obtain ⟨hthread, hs⟩ := Option.ite_none_right_eq_some.1 hs
  have hended := h.unresolved (by rw [hthread]; nofun)
  have hcancelled : s.future ≠ .cancelled := fun hc => (h.cancelled hc).2.1 hthread
  split at hs
  · obtain rfl := Option.some.inj hs
    have hpending : s.future = .pending := by
      cases hf : s.future with
      | pending => rfl
      | resolved result => exact absurd hf (hended result)
      | cancelled => exact absurd hf hcancelled
    exact { h with
      held := fun _ => by simp [Held, hpending]
      ended := fun result hf => absurd hf (hended result)
      cancelled := fun hc => absurd hc hcancelled }
  · obtain rfl := Option.some.inj hs
    exact { h with
      held := fun _ => Or.inl rfl
      ended := fun result hf => absurd hf (hended result)
      cancelled := fun hc => absurd hc hcancelled
      joining := fun _ => rfl }

/-- The thread ends, and its future has the result unless it was cancelled. -/
theorem Inv.resolve (h : Inv s) (hs : step s .resolve = some s') : Inv s' := by
  simp only [Watchdog.step] at hs
  split at hs
  · rename_i result hthread
    split at hs
    · rename_i hpending
      obtain rfl := Option.some.inj hs
      exact { h with
        held := fun hstarted => by
          have hheld := h.held hstarted
          grind [Held]
        ended := fun _ _ => rfl
        cancelled := fun hc => by cases hc }
    · rename_i hpending
      obtain rfl := Option.some.inj hs
      exact { h with
        held := fun hstarted => by
          have hheld := h.held hstarted
          grind [Held]
        ended := fun _ _ => rfl
        cancelled := fun hc => ⟨(h.cancelled hc).1, nofun, nofun⟩ }
  · cases hs

/-- A stop cancels the future. -/
theorem Inv.stopWaitEnds (h : Inv s) (hok : Careful s .stopWaitEnds)
    (hs : step s .stopWaitEnds = some s') : Inv s' := by
  obtain ⟨⟨hstop, hpending⟩, ⟨⟩⟩ := Option.ite_none_right_eq_some.1 hs
  have hcancelled : Inv { s with future := .cancelled, callbackPending := true } :=
    { h with
      held := fun hstarted => by
        have hheld := h.held hstarted
        have hthread := hok.2
        grind [Held]
      ended := fun result hf => by cases hf
      cancelled := fun _ => ⟨h.awaiting hstop, hok⟩ }
  refine hcancelled.stopObserver fun hdone => ?_
  cases hstop.symm.trans hdone

/-- The adopted observer has ended. -/
theorem Inv.stopJoined (h : Inv s) (hs : step s .stopJoined = some s') : Inv s' := by
  obtain ⟨hstop, ⟨⟩⟩ := Option.ite_none_right_eq_some.1 hs
  have hgone : Inv { s with adopted := false } :=
    { h with
      held := fun _ => Or.inl (h.joining hstop)
      adopted := fun hno => by cases hno }
  refine hgone.cancelPolling fun hdone => ?_
  cases hstop.symm.trans hdone

theorem Inv.step {a : Act} (h : Inv s) (hok : Careful s a) (hs : step s a = some s') : Inv s' := by
  cases a with
  | begin =>
    obtain ⟨hthread, ⟨⟩⟩ := Option.ite_none_right_eq_some.1 hs
    exact h.moveThread (Or.inl hthread) (by decide)
  | drop =>
    obtain ⟨⟨hthread, -⟩, ⟨⟩⟩ := Option.ite_none_right_eq_some.1 hs
    exact h.moveThread (Or.inl hthread) (by decide)
  | startObserver =>
    obtain ⟨hthread, ⟨⟩⟩ := Option.ite_none_right_eq_some.1 hs
    exact { h with
      held := fun _ => by simp [Held]
      ended := fun result hf => by cases hthread.symm.trans (h.ended result hf)
      cancelled := fun hc => ⟨(h.cancelled hc).1, nofun, nofun⟩ }
  | startRaises =>
    obtain ⟨hthread, ⟨⟩⟩ := Option.ite_none_right_eq_some.1 hs
    exact h.moveThread (Or.inr hthread) (by decide)
  | check => exact h.check hs
  | alive isAlive => exact h.alive hs
  | resolve => exact h.resolve hs
  | callback =>
    obtain ⟨-, ⟨⟩⟩ := Option.ite_none_right_eq_some.1 hs
    exact h.callback hok
  | wake =>
    simp only [Watchdog.step] at hs
    split at hs
    · rename_i result hsetup
      obtain rfl := Option.some.inj hs
      exact h.wake hsetup
    · cases hs
  | timeout =>
    have hpolls : s.setup ≠ .finished → Inv s.setAbort.startPolling := by
      intro hsetup
      rw [← setAbort_setup] at hsetup
      exact h.setAbort.startPolling hsetup (by rw [setAbort_setup]; exact hok)
    simp only [Watchdog.step] at hs
    split at hs
    · rename_i hsetup
      obtain ⟨-, ⟨⟩⟩ := Option.ite_none_left_eq_some.1 hs
      exact hpolls (by rw [hsetup]; nofun)
    · rename_i result hsetup
      obtain ⟨-, ⟨⟩⟩ := Option.ite_none_left_eq_some.1 hs
      exact hpolls (by rw [hsetup]; nofun)
    · cases hs
  | cancel =>
    obtain ⟨-, ⟨⟩⟩ := Option.ite_none_left_eq_some.1 hs
    exact h.finishSetup fun hwoken => absurd hwoken hok
  | settled =>
    obtain ⟨hsetup, ⟨⟩⟩ := Option.ite_none_right_eq_some.1 hs
    exact h.finishSetup fun hwoken => by cases hsetup.symm.trans hwoken
  | stop =>
    obtain ⟨hstop, ⟨⟩⟩ := Option.ite_none_right_eq_some.1 hs
    exact { h with
      awaiting := fun hno => by cases hno
      joining := fun hno => by cases hno
      event := fun _ => h.event (by rw [hstop]; nofun) }
  | stopAdapter =>
    obtain ⟨hstop, ⟨⟩⟩ := Option.ite_none_right_eq_some.1 hs
    exact h.stopAdapter hstop
  | stopFutureDone =>
    obtain ⟨⟨hstop, -⟩, ⟨⟩⟩ := Option.ite_none_right_eq_some.1 hs
    exact h.stopObserver (by rw [hstop]; nofun)
  | stopWaitEnds => exact h.stopWaitEnds hok hs
  | stopJoined => exact h.stopJoined hs
  | stopPollingEnded =>
    obtain ⟨hstop, ⟨⟩⟩ := Option.ite_none_right_eq_some.1 hs
    have hidle : Inv { s with pollingTask := false, usingPolling := false } :=
      { h with
        adopted := fun hadopted => ⟨rfl, (h.adopted hadopted).2⟩
        polling := fun hno => by cases hno }
    exact hidle.finishStop

/-- The observer has been dealt with when nothing is on its way. -/
theorem Inv.owned (h : Inv s) : Owned s := by
  rintro ⟨hthread, hcallback, hsetup, -⟩
  refine ⟨fun hstarted => ?_, fun ⟨hadopted, htask⟩ => ?_⟩
  · rcases h.held hstarted with hstopped | hadopted | hheld | hheld | ⟨hheld, -⟩ | ⟨-, hheld⟩ | hheld
    · exact Or.inr hstopped
    · exact Or.inl hadopted
    · rcases hthread with hthread | hthread <;> cases hthread.symm.trans hheld
    · rcases hthread with hthread | hthread <;> cases hthread.symm.trans hheld
    · rcases hthread with hthread | hthread <;> cases hthread.symm.trans hheld
    · cases hcallback.symm.trans hheld
    · cases hsetup.symm.trans hheld
  · have hpolling := h.polling htask
    rw [(h.adopted hadopted).1] at hpolling
    cases hpolling

/-! ## Results -/

/-- In runs where no interruption and no stop drops the observer on its way, it is adopted or stopped
in the end, and never adopted while polling. -/
theorem observer_owned_of_careful (h : ReachWhen step Careful .start s) : Owned s :=
  (h.invariant inv_start fun _ _ _ hi hok hs => hi.step hok hs).owned

/-- The set-up times out, and the callback stops the observer that comes late. -/
theorem owned_after_timeout : ∃ s, execute (guarded step Careful) .start
      [.begin, .startObserver, .check, .timeout, .settled, .alive true, .resolve, .callback] =
        some s ∧
    s.observerStopped = true ∧ s.pollingTask = true ∧ Quiescent s ∧ Owned s := by
  have hsome : ((execute (guarded step Careful) .start [.begin, .startObserver, .check, .timeout,
      .settled, .alive true, .resolve, .callback]).any fun s => s.observerStopped = true ∧
        s.pollingTask = true ∧ s.thread = .ended ∧ s.callbackPending = false ∧
        s.setup = .finished ∧ s.stop = .none) = true := by
    decide
  obtain ⟨s, hs, hall⟩ := (Option.any_eq_true _ _).1 hsome
  obtain ⟨hstopped, htask, hthread, hcallback, hsetup, hstop⟩ := of_decide_eq_true hall
  exact ⟨s, hs, hstopped, htask, ⟨Or.inr hthread, hcallback, hsetup, Or.inl hstop⟩,
    observer_owned_of_careful (.of_guarded (.of_execute _ hs))⟩

/-- The service is stopped after the callback left the observer to the set-up and before the set-up
woke : it is cancelled, and nobody has the observer. -/
theorem interrupted_setup_leaks : ∃ s, Reach step .start s ∧ Quiescent s ∧
    s.observerStarted = true ∧ s.adopted = false ∧ s.observerStopped = false ∧ ¬Owned s := by
  have hsome : ((execute step .start [.begin, .startObserver, .check, .alive true, .resolve,
      .callback, .stop, .stopAdapter, .cancel]).any fun s => s.thread = .ended ∧
        s.callbackPending = false ∧ s.setup = .finished ∧ s.stop = .done ∧
        s.observerStarted = true ∧ s.adopted = false ∧ s.observerStopped = false) = true := by
    decide
  obtain ⟨s, hs, hall⟩ := (Option.any_eq_true _ _).1 hsome
  obtain ⟨hthread, hcallback, hsetup, hstop, hstarted, hadopted, hstopped⟩ := of_decide_eq_true hall
  have hquiet : Quiescent s := ⟨Or.inr hthread, hcallback, hsetup, Or.inr hstop⟩
  refine ⟨s, .of_execute _ hs, hquiet, hstarted, hadopted, hstopped, fun h => ?_⟩
  rcases (h hquiet).1 hstarted with hno | hno
  · cases hadopted.symm.trans hno
  · cases hstopped.symm.trans hno

end ChunkHound.Watchdog
