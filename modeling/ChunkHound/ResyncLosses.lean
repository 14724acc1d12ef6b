import ChunkHound.ResyncDrops

/-!
# Lost payloads

When the queue of a Watchman subscription is full a payload is dropped, and asks for a resync
unless one is flagged (`_handle_subscription_queue_overflow`). A payload that cannot be
translated always asks for one. Either is made good by a callback that starts after it.

The flag is set from the request to the end of the callback, and stays set after one that
raised, so a payload dropped then asks for nothing. `losses_reconciled` says for which losses
a callback follows.
-/

namespace ChunkHound.Resync

open StepSystem

/-- The payloads lost : dropped with the queue full, or rejected in translation. -/
def Lost (m : Mark) : Prop := m = .dropPayload ∨ m = .rejectPayload

/-- A callback is still to start, or the running one will be run again. -/
def Ahead (s : State) : Prop :=
  StartAhead s ∨
    ∃ n startedRequestAt, s.dispatch = .running n startedRequestAt ∧
      s.lastRequest ≠ startedRequestAt

def LossesKept (s : State) : Prop :=
  ∀ m, Lost m → Since m (fun after => Started after ∨ Ahead s) s.history

/-- A callback has started since every loss. -/
def Scanned (s : State) : Prop := ∀ m, Lost m → Since m Started s.history

/-- Unless a callback has started since every loss : a payload is dropped with the flag set only
when a callback is still to start, no request comes at the clock reading of the one the running
callback was started for, and no callback raises while a newer request waits for its end. -/
def LossesSeen (s : State) : Action → Prop
  | .dropPayload => s.needsResync = false ∨ Ahead s
  | .request | .runSpawned => Scanned s ∨ ∀ n, s.dispatch ≠ .running n (some s.clock)
  | .callbackReturns false =>
    Scanned s ∨ 0 < s.spawned ∨
      ∀ n startedRequestAt, s.dispatch = .running n startedRequestAt →
        s.lastRequest = startedRequestAt
  | _ => True

section Losses

variable {s s' : State}

theorem lossesKept_of_ahead (h : Ahead s) : LossesKept s := fun _ _ _ _ _ => Or.inr h

theorem LossesKept.state (h : LossesKept s) (hahead : Ahead s → Ahead s')
    (hhistory : s'.history = s.history) : LossesKept s' := by
  intro m hm
  rw [hhistory]
  exact (h m hm).mono fun after ha => ha.imp_right hahead

/-- A mark that is no loss keeps the losses, when the rest of the state does. -/
theorem LossesKept.record (h : LossesKept s) {k : Mark} (hk : ¬ Lost k)
    (hahead : Ahead s → Ahead s') (hhistory : s'.history = k :: s.history) : LossesKept s' := by
  intro m hm
  rw [hhistory]
  refine Since.cons (fun heq => hk (heq ▸ hm)) ((h m hm).mono fun after ha => ?_)
  exact ha.imp (fun hs => hs.cons k) hahead

theorem Scanned.record (h : Scanned s) {k : Mark} (hk : ¬ Lost k)
    (hhistory : s'.history = k :: s.history) : LossesKept s' := by
  intro m hm
  rw [hhistory]
  refine Since.cons (fun heq => hk (heq ▸ hm)) ((h m hm).mono fun after ha => ?_)
  exact Or.inl (ha.cons k)

/-- A callback starts after every loss there is. -/
theorem lossesKept_startCallback (s : State) : LossesKept s.startCallback := by
  intro m hm
  refine Since.cons (fun heq => ?_) fun after _ _ => Or.inl ⟨s.callbacks, List.mem_cons_self⟩
  rcases hm with rfl | rfl <;> cases heq

/-- A request starts the dispatch task, or is seen by it, or makes the running callback run
again. -/
theorem ahead_request (hclock : ∀ n, s.dispatch ≠ .running n (some s.clock)) :
    Ahead s.requestResync := by
  by_cases hrun : NotRunning s
  · exact Or.inl (.request hrun)
  · simp only [NotRunning, not_forall, not_not] at hrun
    obtain ⟨n, startedRequestAt, hd⟩ := hrun
    refine Or.inr ⟨n, startedRequestAt, by simp [State.requestResync, hd], fun heq => ?_⟩
    obtain rfl : some s.clock = startedRequestAt := heq
    exact hclock n hd

/-- Only a callback still to start is left when none runs. -/
theorem Ahead.startAhead (h : Ahead s) (hrun : NotRunning s) : StartAhead s := by
  rcases h with hstart | ⟨n, startedRequestAt, hd, -⟩
  · exact hstart
  · exact absurd hd (hrun n startedRequestAt)

theorem lossesKept_completeOverflow (h : LossesKept s) (success : Bool) :
    LossesKept (s.completeOverflow success) := by
  have hahead : Ahead s → Ahead (s.completeOverflow success) := by
    simp only [Ahead, StartAhead, State.completeOverflow_dispatch,
      State.completeOverflow_lastRequest, State.completeOverflow_spawned]
    exact id
  by_cases hidle : (s.completeOverflow success).history = .idle :: s.history
  · exact h.record (by simp [Lost]) hahead hidle
  · refine h.state hahead ?_
    unfold State.completeOverflow at hidle ⊢
    split_ifs at hidle ⊢
    · rfl
    · exact absurd rfl hidle
    · rfl

variable {startedRequestAt : Option ℕ}

variable {n : ℕ}

/-- The running callback ends, and with it the dispatch task. -/
theorem Ahead.endDispatch (hd : s.dispatch = .running n startedRequestAt)
    (hlast : 0 < s.spawned ∨ s.lastRequest = startedRequestAt) (h : Ahead s) :
    Ahead s.endDispatch := by
  rcases hlast with hspawned | hlast
  · exact Or.inl (Or.inl hspawned)
  · rcases h with (hspawned | hcreated | ⟨requestedAt, hdebouncing⟩) | ⟨m, requestedAt, hrun, hne⟩
    · exact Or.inl (Or.inl hspawned)
    · exact nomatch hd.symm.trans hcreated
    · exact nomatch hd.symm.trans hdebouncing
    · obtain ⟨-, rfl⟩ := Dispatch.running.inj (hd.symm.trans hrun)
      exact absurd hlast hne

/-- The callback succeeds : with a newer request it is run again, without one nothing is
waiting for its end. -/
theorem lossesKept_succeed (h : LossesKept s) (hd : s.dispatch = .running n startedRequestAt) :
    LossesKept (s.callbackReturns n startedRequestAt true) := by
  have hsucceed : LossesKept (({ s with needsResync := false } : State).record (.succeed n)) :=
    h.record (by simp [Lost]) id rfl
  have hover := lossesKept_completeOverflow hsucceed true
  simp only [State.callbackReturns, if_true]
  split
  · rename_i hlast
    refine hover.state (Ahead.endDispatch (n := n) ?_ (Or.inr hlast.symm)) rfl
    simpa [State.record] using hd
  · exact lossesKept_startCallback _

/-- The callback raises, with no loss that waits for it to be run again. -/
theorem lossesKept_fail (h : LossesKept s) (hd : s.dispatch = .running n startedRequestAt)
    (hok : LossesSeen s (.callbackReturns false)) :
    LossesKept (s.callbackReturns n startedRequestAt false) := by
  have hhistory : (s.callbackReturns n startedRequestAt false).history = .fail n :: s.history :=
    completeOverflow_false_history _
  rcases hok with hscanned | hlast
  · exact hscanned.record (by simp [Lost]) hhistory
  · have hfail : LossesKept (s.record (.fail n)) := h.record (k := .fail n) (by simp [Lost]) id rfl
    have hover := lossesKept_completeOverflow hfail false
    have hrun : ((s.record (.fail n)).completeOverflow false).dispatch =
        .running n startedRequestAt := by
      simpa [State.record] using hd
    refine hover.state (Ahead.endDispatch hrun ?_) rfl
    simpa [State.record] using hlast.imp_right fun hseen => hseen n startedRequestAt hd

theorem lossesKept_request
    (hok : Scanned s ∨ ∀ n, s.dispatch ≠ .running n (some s.clock)) :
    LossesKept s.requestResync := by
  rcases hok with hscanned | hclock
  · exact hscanned.record (by simp [Lost]) rfl
  · exact lossesKept_of_ahead (ahead_request hclock)

theorem lossesKept_dropPayload (hok : LossesSeen s .dropPayload) :
    LossesKept s.dropPayload := by
  unfold State.dropPayload
  simp only
  split
  · rename_i hflag
    have hahead : Ahead s := hok.resolve_left fun hclear => by
      simp [State.record, hclear] at hflag
    exact lossesKept_of_ahead hahead
  · exact lossesKept_of_ahead (Or.inl (.spawn _))

structure LossInv (s : State) : Prop where
  callback : s.callbackSet = true
  losses : LossesKept s

theorem lossesKept_step {a : Action} (h : LossInv s) (hok : LossesSeen s a)
    (hs : step s a = some s') : LossesKept s' := by
  have hlosses := h.losses
  cases a with
  | tick =>
    obtain rfl := Option.some.inj hs
    exact hlosses.state id rfl
  | request =>
    obtain rfl := Option.some.inj hs
    exact lossesKept_request hok
  | runSpawned =>
    obtain ⟨-, rfl⟩ := runSpawned_cases hs
    rcases hok with hscanned | hclock
    · exact hscanned.record (by simp [Lost]) rfl
    · exact lossesKept_of_ahead (ahead_request hclock)
  | dropEvent =>
    obtain rfl := Option.some.inj hs
    unfold State.dropEvent
    simp only
    split
    · exact lossesKept_of_ahead (Or.inl (.spawn _))
    · exact hlosses.record (by simp [Lost]) id rfl
  | dropPayload =>
    obtain rfl := Option.some.inj hs
    exact lossesKept_dropPayload hok
  | rejectPayload =>
    obtain rfl := Option.some.inj hs
    exact lossesKept_of_ahead (Or.inl (.spawn _))
  | loseSync =>
    obtain rfl := Option.some.inj hs
    exact lossesKept_of_ahead (Or.inl (.spawn _))
  | beginDispatch =>
    obtain ⟨-, rfl⟩ := beginDispatch_cases hs
    exact lossesKept_of_ahead (Or.inl (Or.inr (Or.inr ⟨_, rfl⟩)))
  | debounceElapses =>
    obtain ⟨requestedAt, -, rfl⟩ := debounceElapses_cases hs
    unfold State.debounceElapses
    rw [if_pos h.callback]
    split
    · exact lossesKept_startCallback s
    · exact lossesKept_of_ahead (Or.inl (Or.inr (Or.inr ⟨_, rfl⟩)))
  | callbackReturns ok =>
    obtain ⟨n, startedRequestAt, hd, rfl⟩ := callbackReturns_cases hs
    cases ok with
    | true => exact lossesKept_succeed hlosses hd
    | false => exact lossesKept_fail hlosses hd hok

/-- With a callback configured, and every loss seen : a callback starts after it. -/
theorem losses_reconciled (h : ReachWhen step LossesSeen (init true) s) {m : Mark} (hm : Lost m) :
    Since m (fun after => Quiet s → Started after) s.history := by
  have hinit : LossInv (init true) := ⟨rfl, fun _ _ => since_nil⟩
  have hinv : LossInv s := h.invariant hinit fun s a s' hs hok hstep =>
    ⟨(callbackSet_step hstep).trans hs.callback, lossesKept_step hs hok hstep⟩
  refine (hinv.losses m hm).mono fun after ha hquiet => ha.elim id fun hahead => ?_
  have hrun : NotRunning s := fun n startedRequestAt hd => nomatch hquiet.2.symm.trans hd
  rcases hahead.startAhead hrun with hspawned | hcreated | ⟨requestedAt, hdebouncing⟩
  · exact absurd hquiet.1 (Nat.ne_of_gt hspawned)
  · exact nomatch hquiet.2.symm.trans hcreated
  · exact nomatch hquiet.2.symm.trans hdebouncing

/-- A payload is dropped, and a second one while its request is debounced. -/
theorem losses_reconciled_debouncing : ∃ s, Quiet s ∧ .dropPayload ∈ s.history ∧
    Since .dropPayload (fun after => Quiet s → Started after) s.history := by
  have hfirst : ReachWhen step LossesSeen (init true) (init true).dropPayload :=
    .step .init (a := .dropPayload) (Or.inl rfl) rfl
  have hrequest := hfirst.step (a := Action.runSpawned) (Or.inr fun _ hd => nomatch hd) rfl
  have hsecond := hrequest.step (a := Action.dropPayload)
    (Or.inr (Or.inl (Or.inr (Or.inl rfl)))) rfl
  have hbegin := hsecond.step (a := Action.beginDispatch) trivial rfl
  have hstart := hbegin.step (a := Action.debounceElapses) trivial rfl
  have hdone := hstart.step (a := Action.callbackReturns true) trivial rfl
  exact ⟨_, ⟨rfl, rfl⟩, by decide, losses_reconciled hdone (Or.inl rfl)⟩

/-- A payload is dropped while a callback runs. The flag is still set, so it asks for nothing;
the callback succeeds and clears the flag. -/
theorem drop_during_scan :
    ¬ ∀ s, Reach step (init true) s → ∀ m, Lost m →
      Since m (fun after => Quiet s → Started after) s.history := by
  intro h
  have hr : Reach step (init true)
      ⟨true, 0, false, some 0, .none, 0, .idle, 1,
        [.succeed 0, .dropPayload, .start 0, .request]⟩ :=
    Reach.of_execute [.request, .beginDispatch, .debounceElapses, .dropPayload,
      .callbackReturns true] (by decide)
  obtain ⟨n, hstart⟩ := h _ hr .dropPayload (Or.inl rfl) [.succeed 0] [.start 0, .request] rfl
    ⟨rfl, rfl⟩
  simp at hstart

end Losses

end ChunkHound.Resync
