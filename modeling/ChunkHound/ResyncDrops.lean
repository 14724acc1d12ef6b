import ChunkHound.ResyncLoop
import Mathlib

/-!
# Dropped events

When the event queue is full an event is dropped. The first drop asks for a resync, and
`_event_queue_overflow_state` then stays set until a callback has run, so the drops of one
burst share a request. A drop is made good by a callback that starts after it.

The state stays set while the callback runs, and is `failed` after one that raised : a drop
that comes then asks for nothing. `drops_reconciled` says for which drops a callback follows.
-/

namespace ChunkHound.Resync

open StepSystem

/-- A callback has started. -/
def Started (after : List Mark) : Prop := ∃ n, .start n ∈ after

variable {after : List Mark}

theorem Started.cons (h : Started after) (m : Mark) : Started (m :: after) := by
  obtain ⟨n, hn⟩ := h
  exact ⟨n, List.mem_cons_of_mem m hn⟩

/-- Each return of the overflow state to idle comes after a callback has started and
succeeded. -/
def IdleServed (after : List Mark) : Prop :=
  ∀ late mid, after = late ++ .idle :: mid → Served mid

/-- Nothing is left that will start a callback, and none runs. -/
def Quiet (s : State) : Prop := s.spawned = 0 ∧ s.dispatch = .none

def NotRunning (s : State) : Prop := ∀ n startedRequestAt, s.dispatch ≠ .running n startedRequestAt

/-- A callback is still to start. -/
def StartAhead (s : State) : Prop :=
  0 < s.spawned ∨ s.dispatch = .created ∨ ∃ requestedAt, s.dispatch = .debouncing requestedAt

theorem idleServed_nil : IdleServed [] := by
  intro late mid heq
  simp at heq

theorem IdleServed.cons (h : IdleServed after) {m : Mark} (hm : m ≠ .idle) :
    IdleServed (m :: after) := by
  intro late mid heq
  cases late with
  | nil => exact absurd (List.cons.inj heq).1 hm
  | cons l late => exact h late mid (List.cons.inj heq).2

theorem IdleServed.cons_idle (h : IdleServed after) (hserved : Served after) :
    IdleServed (.idle :: after) := by
  intro late mid heq
  cases late with
  | nil =>
    rw [← (List.cons.inj heq).2]
    exact hserved
  | cons l late => exact h late mid (List.cons.inj heq).2

section Drops

variable {s s' : State}

/-- What is kept of a dropped event. -/
structure DropKept (s : State) (after : List Mark) : Prop where
  idle : IdleServed after
  running : ∀ n startedRequestAt, s.dispatch = .running n startedRequestAt → .start n ∈ after
  ahead : Started after ∨ StartAhead s

/-- An event is dropped only while no callback runs, and with the overflow state idle or a
callback still to start. -/
def DropsBeforeStart (s : State) : Action → Prop
  | .dropEvent => NotRunning s ∧ (s.overflow = .idle ∨ StartAhead s)
  | _ => True

def DropsKept (s : State) : Prop := Since .dropEvent (DropKept s) s.history

theorem DropKept.cons {after : List Mark} (h : DropKept s after) {m : Mark} (hm : m ≠ .idle) :
    DropKept s (m :: after) where
  idle := h.idle.cons hm
  running n startedRequestAt hd := List.mem_cons_of_mem m (h.running n startedRequestAt hd)
  ahead := h.ahead.imp_left fun hs => hs.cons m

/-- Another state in which a callback is still to start whenever it was, and none runs that
did not. -/
theorem DropKept.state {after : List Mark} (h : DropKept s after)
    (hd : ∀ n startedRequestAt, s'.dispatch = .running n startedRequestAt →
      s.dispatch = .running n startedRequestAt)
    (hahead : StartAhead s → StartAhead s' ∨ Started after) : DropKept s' after where
  idle := h.idle
  running n startedRequestAt hn := h.running n startedRequestAt (hd n startedRequestAt hn)
  ahead := h.ahead.elim Or.inl fun ha => (hahead ha).symm

theorem StartAhead.request (h : NotRunning s) : StartAhead s.requestResync := by
  unfold StartAhead State.requestResync
  cases hd : s.dispatch with
  | none => exact Or.inr (Or.inl rfl)
  | created => exact Or.inr (Or.inl rfl)
  | debouncing requestedAt => exact Or.inr (Or.inr ⟨requestedAt, rfl⟩)
  | running n startedRequestAt => exact absurd hd (h n startedRequestAt)

variable {startedRequestAt : Option ℕ}

variable {n : ℕ}

theorem requestResync_running (h : s.requestResync.dispatch = .running n startedRequestAt) :
    s.dispatch = .running n startedRequestAt := by
  unfold State.requestResync at h
  simp only at h
  split at h
  · cases h
  · exact h

/-- A request keeps the drops : it starts the dispatch task, or one is there. -/
theorem dropsKept_request (h : DropsKept s) (hdispatch : s'.dispatch = s.dispatch)
    (hhistory : s'.history = s.history) : DropsKept s'.requestResync := by
  have hold : Since .dropEvent (DropKept s) s'.history := by
    rw [hhistory]
    exact h
  refine Since.cons (by simp) (hold.mono fun after ha => ?_)
  refine (ha.cons (m := .request) (by simp)).state (fun n startedRequestAt hd => ?_) fun _ => ?_
  · rw [← hdispatch]
    exact requestResync_running hd
  · by_cases hrun : NotRunning s'
    · exact Or.inl (.request hrun)
    · simp only [NotRunning, not_forall, not_not] at hrun
      obtain ⟨n, startedRequestAt, hd⟩ := hrun
      rw [hdispatch] at hd
      exact Or.inr ⟨n, List.mem_cons_of_mem _ (ha.running n startedRequestAt hd)⟩

/-- A mark that is no drop keeps the drops, when the rest of the state does. -/
theorem DropsKept.record (h : DropsKept s) {m : Mark} (hdrop : m ≠ .dropEvent) (hidle : m ≠ .idle)
    (hd : ∀ n startedRequestAt, s'.dispatch = .running n startedRequestAt →
      s.dispatch = .running n startedRequestAt)
    (hahead : StartAhead s → StartAhead s') (hhistory : s'.history = m :: s.history) :
    DropsKept s' := by
  unfold DropsKept
  rw [hhistory]
  exact Since.cons hdrop (h.mono fun after ha =>
    (ha.cons hidle).state hd fun hs => Or.inl (hahead hs))

theorem DropsKept.state (h : DropsKept s)
    (hd : ∀ n startedRequestAt, s'.dispatch = .running n startedRequestAt →
      s.dispatch = .running n startedRequestAt)
    (hahead : StartAhead s → StartAhead s') (hhistory : s'.history = s.history) :
    DropsKept s' := by
  unfold DropsKept
  rw [hhistory]
  exact h.mono fun after ha => ha.state hd fun hs => Or.inl (hahead hs)

theorem StartAhead.spawn (s : State) : StartAhead s.spawnRequest :=
  Or.inl (Nat.succ_pos s.spawned)

/-- A callback starts after every drop there is. -/
theorem dropsKept_startCallback (h : Since .dropEvent IdleServed s.history) :
    DropsKept s.startCallback := by
  refine Since.cons (by simp) (h.mono fun after ha => ⟨ha.cons (by simp), ?_, ?_⟩)
  · intro n startedRequestAt hd
    obtain ⟨rfl, -⟩ := Dispatch.running.inj hd
    exact List.mem_cons_self
  · exact Or.inl ⟨s.callbacks, List.mem_cons_self⟩

theorem dropsKept_dropEvent (h : DropsKept s) (hok : DropsBeforeStart s .dropEvent) :
    DropsKept s.dropEvent := by
  obtain ⟨hrun, hguard⟩ := hok
  have hahead : StartAhead s.dropEvent := by
    unfold State.dropEvent
    simp only
    split
    · exact .spawn _
    · rename_i hover
      exact hguard.resolve_left hover
  have hdispatch : s.dropEvent.dispatch = s.dispatch := by
    unfold State.dropEvent
    simp only
    split <;> rfl
  have hhistory : s.dropEvent.history = .dropEvent :: s.history := by
    unfold State.dropEvent
    simp only
    split <;> rfl
  unfold DropsKept
  rw [hhistory]
  refine since_cons.2 ⟨fun _ => ⟨idleServed_nil, ?_, Or.inr hahead⟩, h.mono fun after ha => ?_⟩
  · intro n startedRequestAt hd
    exact absurd (hdispatch.symm.trans hd) (hrun n startedRequestAt)
  · refine (ha.cons (by simp)).state (fun n startedRequestAt hd => ?_) fun _ => Or.inl hahead
    exact hdispatch.symm.trans hd

/-- When the callback succeeds, it started after every drop there is. -/
theorem dropsKept_succeed (h : DropsKept s) (hd : s.dispatch = .running n startedRequestAt) :
    DropsKept (s.callbackReturns n startedRequestAt true) := by
  have hserved : Since .dropEvent (fun after => IdleServed after ∧ Served after ∧ Started after)
      (({ s with needsResync := false } : State).record (.succeed n)).history := by
    refine Since.cons (by simp) (h.mono fun after ha => ?_)
    have hstart := ha.running n startedRequestAt hd
    exact ⟨ha.idle.cons (by simp), served_of_start hstart, Started.cons ⟨n, hstart⟩ _⟩
  have hover : Since .dropEvent (fun after => IdleServed after ∧ Started after)
      ((({ s with needsResync := false } : State).record (.succeed n)).completeOverflow
        true).history := by
    unfold State.completeOverflow
    split
    · exact hserved.mono fun after ha => ⟨ha.1, ha.2.2⟩
    · exact Since.cons (by simp) (hserved.mono fun after ha =>
        ⟨ha.1.cons_idle ha.2.1, ha.2.2.cons .idle⟩)
  simp only [State.callbackReturns, if_true]
  split
  · refine hover.mono fun after ha => ⟨ha.1, ?_, Or.inl ha.2⟩
    intro m requestedAt hrun
    have hnone : Dispatch.none = .running m requestedAt := hrun
    cases hnone
  · exact dropsKept_startCallback (hover.mono fun after ha => ha.1)

theorem completeOverflow_false_history (s : State) :
    (s.completeOverflow false).history = s.history := by
  unfold State.completeOverflow
  split <;> rfl

theorem dropsKept_fail (h : DropsKept s) (hd : s.dispatch = .running n startedRequestAt) :
    DropsKept (s.callbackReturns n startedRequestAt false) := by
  have hhistory : (s.callbackReturns n startedRequestAt false).history = .fail n :: s.history :=
    completeOverflow_false_history _
  unfold DropsKept
  rw [hhistory]
  refine Since.cons (by simp) (h.mono fun after ha => ⟨ha.idle.cons (by simp), ?_, ?_⟩)
  · intro m requestedAt hrun
    have hnone : Dispatch.none = .running m requestedAt := hrun
    cases hnone
  · exact Or.inl (Started.cons ⟨n, ha.running n startedRequestAt hd⟩ _)

/-- What a step keeps of the drops, with a callback configured. -/
structure DropInv (s : State) : Prop where
  callback : s.callbackSet = true
  drops : DropsKept s

@[simp] theorem dropEvent_callbackSet (s : State) : s.dropEvent.callbackSet = s.callbackSet := by
  unfold State.dropEvent
  simp only
  split <;> rfl

@[simp] theorem dropPayload_callbackSet (s : State) :
    s.dropPayload.callbackSet = s.callbackSet := by
  unfold State.dropPayload
  simp only
  split <;> rfl

@[simp] theorem debounceElapses_callbackSet (s : State) (requestedAt : Option ℕ) :
    (s.debounceElapses requestedAt).callbackSet = s.callbackSet := by
  unfold State.debounceElapses
  split_ifs <;> simp [State.startCallback, State.endDispatch]

@[simp] theorem callbackReturns_callbackSet (s : State) (n : ℕ) (startedRequestAt : Option ℕ)
    (ok : Bool) : (s.callbackReturns n startedRequestAt ok).callbackSet = s.callbackSet := by
  unfold State.callbackReturns
  simp only
  split_ifs <;> simp [State.startCallback, State.endDispatch, State.record]

/-- Nothing takes the callback away. -/
theorem callbackSet_step {a : Action} (hs : step s a = some s') :
    s'.callbackSet = s.callbackSet := by
  cases a <;> simp only [step] at hs <;> (try split at hs) <;> cases hs <;>
    simp [State.requestResync, State.record, State.spawnRequest]

theorem dropsKept_step {a : Action} (h : DropInv s) (hok : DropsBeforeStart s a)
    (hs : step s a = some s') : DropsKept s' := by
  have hdrops := h.drops
  cases a with
  | tick =>
    obtain rfl := Option.some.inj hs
    exact hdrops.state (fun _ _ hd => hd) id rfl
  | request =>
    obtain rfl := Option.some.inj hs
    exact dropsKept_request hdrops rfl rfl
  | runSpawned =>
    obtain ⟨-, rfl⟩ := runSpawned_cases hs
    exact dropsKept_request hdrops rfl rfl
  | dropEvent =>
    obtain rfl := Option.some.inj hs
    exact dropsKept_dropEvent hdrops hok
  | dropPayload =>
    obtain rfl := Option.some.inj hs
    unfold State.dropPayload
    simp only
    split
    · exact hdrops.record (by simp) (by simp) (fun _ _ hd => hd) id rfl
    · exact hdrops.record (by simp) (by simp) (fun _ _ hd => hd) (fun _ => .spawn _) rfl
  | rejectPayload =>
    obtain rfl := Option.some.inj hs
    exact hdrops.record (by simp) (by simp) (fun _ _ hd => hd) (fun _ => .spawn _) rfl
  | loseSync =>
    obtain rfl := Option.some.inj hs
    exact hdrops.state (fun _ _ hd => hd) (fun _ => .spawn _) rfl
  | beginDispatch =>
    obtain ⟨-, rfl⟩ := beginDispatch_cases hs
    exact hdrops.state (fun _ _ hd => nomatch hd) (fun _ => Or.inr (Or.inr ⟨_, rfl⟩)) rfl
  | debounceElapses =>
    obtain ⟨requestedAt, -, rfl⟩ := debounceElapses_cases hs
    unfold State.debounceElapses
    rw [if_pos h.callback]
    split
    · exact dropsKept_startCallback (hdrops.mono fun after ha => ha.idle)
    · exact hdrops.state (fun _ _ hd => nomatch hd) (fun _ => Or.inr (Or.inr ⟨_, rfl⟩)) rfl
  | callbackReturns ok =>
    obtain ⟨n, startedRequestAt, hd, rfl⟩ := callbackReturns_cases hs
    cases ok with
    | true => exact dropsKept_succeed hdrops hd
    | false => exact dropsKept_fail hdrops hd

/-- With a callback configured, and events dropped only before the next callback starts : the
overflow state never returns to idle without a callback that started after the drop and
succeeded, and a callback does start after it. -/
theorem drops_reconciled (h : ReachWhen step DropsBeforeStart (init true) s) :
    Since .dropEvent (fun after => IdleServed after ∧ (Quiet s → Started after)) s.history := by
  have hinit : DropInv (init true) := ⟨rfl, since_nil⟩
  have hinv : DropInv s := h.invariant hinit fun s a s' hs hok hstep =>
    ⟨(callbackSet_step hstep).trans hs.callback, dropsKept_step hs hok hstep⟩
  refine hinv.drops.mono fun after ha => ⟨ha.idle, fun hquiet => ?_⟩
  rcases ha.ahead with hstarted | hspawned | hcreated | ⟨requestedAt, hdebouncing⟩
  · exact hstarted
  · exact absurd hquiet.1 (Nat.ne_of_gt hspawned)
  · exact nomatch hquiet.2.symm.trans hcreated
  · exact nomatch hquiet.2.symm.trans hdebouncing

/-- Two events dropped in one burst, made good by one callback. -/
theorem drops_reconciled_burst : ∃ s, Quiet s ∧ .dropEvent ∈ s.history ∧
    Since .dropEvent (fun after => IdleServed after ∧ (Quiet s → Started after)) s.history := by
  have hfirst : ReachWhen step DropsBeforeStart (init true) (init true).dropEvent :=
    .step .init (a := .dropEvent) ⟨(fun _ _ hd => nomatch hd), Or.inl rfl⟩ rfl
  have hsecond := hfirst.step (a := Action.dropEvent)
    ⟨(fun _ _ hd => nomatch hd), Or.inr (Or.inl (by decide))⟩ rfl
  have hrequest := hsecond.step (a := Action.runSpawned) trivial rfl
  have hbegin := hrequest.step (a := Action.beginDispatch) trivial rfl
  have hstart := hbegin.step (a := Action.debounceElapses) trivial rfl
  have hdone := hstart.step (a := Action.callbackReturns true) trivial rfl
  exact ⟨_, ⟨rfl, rfl⟩, by decide, drops_reconciled hdone⟩

/-- An event is dropped while the callback for an earlier drop runs. The callback succeeds, and
the overflow state is idle with no callback since that drop. -/
theorem drop_during_callback :
    ¬ ∀ s, Reach step (init true) s →
      Since .dropEvent (fun after => IdleServed after ∧ (Quiet s → Started after)) s.history := by
  intro h
  have hr : Reach step (init true)
      ⟨true, 0, false, some 0, .none, 0, .idle, 1,
        [.idle, .succeed 0, .dropEvent, .start 0, .request, .dropEvent]⟩ :=
    Reach.of_execute [.dropEvent, .runSpawned, .beginDispatch, .debounceElapses, .dropEvent,
      .callbackReturns true] (by decide)
  obtain ⟨n, hstart⟩ := (h _ hr [.idle, .succeed 0] [.start 0, .request, .dropEvent] rfl).2
    ⟨rfl, rfl⟩
  simp at hstart

end Drops

end ChunkHound.Resync
