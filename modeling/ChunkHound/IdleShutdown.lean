import ChunkHound.StepSystem
import Mathlib.Logic.Function.Basic

/-!
# Shutdown of an idle daemon

`ClientManager` of `client_manager.py`, and in `server.py` the handlers of the connections and the
tasks of `_delayed_shutdown`. All run on one event loop : a step is what a task does between two
awaits. The loop picks the next task in any order, and the poll of PIDs finds any of the clients
dead.

`remove` calls `_on_all_clients_gone` whenever no session remains, also when there was none to
remove. A task that is not done suppresses a new one, and its callback may run after a new one took
its place. Still an idle daemon has a task pending (`idle_pending`).

`run` tears the daemon down once the event is set.
-/

namespace ChunkHound.IdleShutdown

open StepSystem

variable {κ : Type*}

/-! ## Tasks -/

/-- A task of `_delayed_shutdown`. It is `finished` until its done callback has run. -/
inductive Task
  | unborn
  | created
  | sleeping
  | cancelling
  | finished
  | collected
  deriving DecidableEq

namespace Task

/-- `task.done()` -/
def done : Task → Bool
  | .finished | .collected => true
  | _ => false

/-- The task has yet to look whether a client is there, and has not been told to stop. -/
def pending : Task → Bool
  | .created | .sleeping => true
  | _ => false

end Task

/-- Where `_handle_client` is for a connection. -/
inductive Handler (κ : Type*)
  | absent
  | reading
  | serving (clientId : κ)
  | closed
  deriving DecidableEq

/-- Where `poll_pids` is : the clients it found dead are evicted one after another. -/
inductive Poll (κ : Type*)
  | absent
  | sleeping
  | evicting (dead : List κ)
  | closing (cid : κ) (dead : List κ)
  | cancelled
  deriving DecidableEq

/-- Where `_graceful_shutdown` is. -/
inductive Teardown
  | waiting
  | closingAll
  | stoppingPoll
  | stoppingDelayed
  | awaiting (task : ℕ)
  | ended
  deriving DecidableEq

/-! ## The daemon -/

/-- `sessions` is a dictionary from client ids to PIDs. `registered` records that some client has
registered, and `next` is the next task. -/
structure State (κ : Type*) where
  sessions : List (κ × ℕ)
  handlers : ℕ → Handler κ
  poll : Poll κ
  tasks : ℕ → Task
  next : ℕ
  delayed : Option ℕ
  event : Bool
  teardown : Teardown
  registered : Bool

inductive Act (κ : Type*)
  | connect (c : ℕ)
  | reject (c : ℕ)
  | register (c : ℕ) (clientId : κ) (pid : ℕ)
  | leave (c : ℕ)
  | startPoll
  | wakePoll (dead : List ℕ)
  | poll
  | runTask (t : ℕ)
  | callback (t : ℕ)
  | signal
  | tearDown
  deriving DecidableEq

def start : State κ :=
  { sessions := []
    handlers := fun _ => .absent
    poll := .absent
    tasks := fun _ => .unborn
    next := 0
    delayed := none
    event := false
    teardown := .waiting
    registered := false }

namespace State

def setTask (s : State κ) (t : ℕ) (task : Task) : State κ :=
  { s with tasks := Function.update s.tasks t task }

def setHandler (s : State κ) (c : ℕ) (handler : Handler κ) : State κ :=
  { s with handlers := Function.update s.handlers c handler }

def schedule (s : State κ) : State κ :=
  { s.setTask s.next .created with next := s.next + 1, delayed := some s.next }

/-- `_on_all_clients_gone` -/
def onAllClientsGone (s : State κ) : State κ :=
  match s.delayed with
  | some t => if (s.tasks t).done then s.schedule else s
  | none => s.schedule

/-- `_clear_delayed_shutdown_task` -/
def clearDelayedShutdownTask (s : State κ) (t : ℕ) : State κ :=
  if s.delayed = some t then { s with delayed := none } else s

/-- What `_delayed_shutdown` does after its delay, up to its end. -/
def finishDelayed (s : State κ) (t : ℕ) : State κ :=
  if s.sessions.length = 0 then { s.setTask t .finished with event := true }
  else s.setTask t .finished

/-- A task of `_delayed_shutdown` is resumed. `waits` says whether `_shutdown_delay > 0`. -/
def runTask (waits : Bool) (s : State κ) (t : ℕ) : Option (State κ) :=
  match s.tasks t with
  | .created => if waits then some (s.setTask t .sleeping) else some (s.finishDelayed t)
  | .sleeping => some (s.finishDelayed t)
  | .cancelling => some (s.setTask t .finished)
  | _ => none

/-- `_graceful_shutdown`, up to the next await, once the event is set. The `finally` of `run` also
comes to it when the start-up raises, before there is any of this state. -/
def tearDown (s : State κ) : Option (State κ) :=
  match s.teardown with
  | .waiting => if s.event then some { s with teardown := .closingAll } else none
  | .closingAll => some { s with sessions := [], teardown := .stoppingPoll }
  | .stoppingPoll => some { s with poll := .cancelled, teardown := .stoppingDelayed }
  | .stoppingDelayed =>
    match s.delayed with
    | none => some { s with teardown := .ended }
    | some t =>
      if (s.tasks t).done then some { s with teardown := .awaiting t }
      else some { s.setTask t .cancelling with teardown := .awaiting t }
  | .awaiting t =>
    if (s.tasks t).done then some { s.clearDelayedShutdownTask t with teardown := .ended }
    else none
  | .ended => none

variable [DecidableEq κ]

/-- `ClientManager.register` -/
def register (s : State κ) (clientId : κ) (pid : ℕ) : State κ :=
  { s with
    sessions :=
      if s.sessions.any fun e => e.1 = clientId then
        s.sessions.map fun e => if e.1 = clientId then (clientId, pid) else e
      else s.sessions ++ [(clientId, pid)]
    registered := true }

/-- `ClientManager.remove` -/
def remove (s : State κ) (clientId : κ) : State κ :=
  let s := { s with sessions := s.sessions.filter fun e => e.1 ≠ clientId }
  if s.sessions = [] then s.onAllClientsGone else s

/-- `poll_pids` between two awaits. -/
def stepPoll (s : State κ) : Option (State κ) :=
  match s.poll with
  | .evicting [] => some { s with poll := .sleeping }
  | .evicting (cid :: dead) =>
    if s.sessions.any fun e => e.1 = cid then some { s with poll := .closing cid dead }
    else some { s with poll := .evicting dead }
  | .closing cid dead => some { s.remove cid with poll := .evicting dead }
  | _ => none

/-- `_handle_client` ends. -/
def leave (s : State κ) (c : ℕ) : Option (State κ) :=
  match s.handlers c with
  | .serving clientId => some ((s.remove clientId).setHandler c .closed)
  | _ => none

end State

def step [DecidableEq κ] (waits : Bool) (s : State κ) : Act κ → Option (State κ)
  | .connect c => if s.handlers c = .absent then some (s.setHandler c .reading) else none
  | .reject c => if s.handlers c = .reading then some (s.setHandler c .closed) else none
  | .register c clientId pid =>
    if s.handlers c = .reading then
      some ((s.register clientId pid).setHandler c (.serving clientId))
    else none
  | .leave c => s.leave c
  | .startPoll =>
    if s.poll = .absent ∧ s.teardown = .waiting then some { s with poll := .sleeping } else none
  | .wakePoll dead =>
    if s.poll = .sleeping then
      some { s with poll := .evicting ((s.sessions.filter fun e => e.2 ∈ dead).map Prod.fst) }
    else none
  | .poll => s.stepPoll
  | .runTask t => s.runTask waits t
  | .callback t =>
    if s.tasks t = .finished then some ((s.setTask t .collected).clearDelayedShutdownTask t)
    else none
  | .signal => some { s with event := true }
  | .tearDown => s.tearDown

/-! ## What is pending -/

namespace State

/-- A task of `_delayed_shutdown` is pending. -/
def Pending (s : State κ) : Prop := ∃ t, s.delayed = some t ∧ (s.tasks t).pending = true

/-- The delayed task is one that was made, and only the teardown cancels a task. -/
structure Sound (s : State κ) : Prop where
  ended : s.teardown ≠ .waiting → s.event = true
  cancelled : ∀ t, s.tasks t = .cancelling → s.event = true
  born : ∀ t, s.delayed = some t → s.tasks t ≠ .unborn

/-- The daemon does not stay idle. -/
structure Inv (s : State κ) : Prop extends Sound s where
  watched : s.registered = true → s.sessions = [] → s.event = true ∨ s.Pending

variable {s s' : State κ} {t : ℕ} {task : Task}

theorem inv_start : (start : State κ).Inv :=
  ⟨⟨fun h => absurd rfl h, nofun, nofun⟩, nofun⟩

/-- Once the event is set it is enough to know the delayed task. -/
theorem Inv.of_event (he : s.event = true) (born : ∀ t, s.delayed = some t → s.tasks t ≠ .unborn) :
    s.Inv :=
  ⟨⟨fun _ => he, fun _ _ => he, born⟩, fun _ _ => Or.inl he⟩

theorem setTask_self : (s.setTask t task).tasks t = task := Function.update_self ..

theorem setTask_other {u : ℕ} (hne : u ≠ t) : (s.setTask t task).tasks u = s.tasks u :=
  Function.update_of_ne hne ..

/-- A task moves on. -/
theorem Sound.setTask (h : s.Sound) (hc : task ≠ .cancelling) (hu : task ≠ .unborn) :
    (s.setTask t task).Sound where
  ended := h.ended
  cancelled u hu' := by
    rcases eq_or_ne u t with rfl | hne
    · exact absurd (setTask_self.symm.trans hu') hc
    · exact h.cancelled u ((setTask_other hne).symm.trans hu')
  born u hd := by
    rcases eq_or_ne u t with rfl | hne
    · rwa [setTask_self]
    · rw [setTask_other hne]
      exact h.born u hd

/-- A task that ends leaves the one that is pending. -/
theorem Pending.setTask (h : s.Pending) (ht : s.delayed = some t → task.pending = true) :
    (s.setTask t task).Pending := by
  obtain ⟨u, hd, hp⟩ := h
  refine ⟨u, hd, ?_⟩
  rcases eq_or_ne u t with rfl | hne
  · rw [setTask_self]
    exact ht hd
  · rwa [setTask_other hne]

/-! ## Nobody is left -/

theorem pending_schedule (s : State κ) : s.schedule.Pending :=
  ⟨s.next, rfl, by simp [schedule, setTask, Task.pending]⟩

theorem Sound.schedule (h : s.Sound) : s.schedule.Sound where
  ended := h.ended
  cancelled := by
    have hset : (s.setTask s.next .created).Sound := h.setTask nofun nofun
    exact hset.cancelled
  born t ht := by
    obtain rfl := Option.some.inj ht
    exact fun hnew => nomatch setTask_self.symm.trans hnew

theorem Sound.onAllClientsGone (h : s.Sound) : s.onAllClientsGone.Sound := by
  unfold State.onAllClientsGone
  split
  · split
    · exact h.schedule
    · exact h
  · exact h.schedule

/-- A task that is not done is pending, or the daemon is going down. -/
theorem Sound.pending_onAllClientsGone (h : s.Sound) :
    s.onAllClientsGone.event = true ∨ s.onAllClientsGone.Pending := by
  unfold State.onAllClientsGone
  split
  · rename_i t ht
    split
    · exact Or.inr s.pending_schedule
    · rename_i hdone
      cases htask : s.tasks t with
      | unborn => exact absurd htask (h.born t ht)
      | cancelling => exact Or.inl (h.cancelled t htask)
      | created | sleeping => exact Or.inr ⟨t, ht, by rw [htask]; rfl⟩
      | finished | collected =>
        rw [htask] at hdone
        exact absurd rfl hdone
  · exact Or.inr s.pending_schedule

/-! ## Steps -/

/-- Whether or not the client was still there, the last to go is followed by a task. -/
theorem Inv.remove [DecidableEq κ] (h : s.Inv) (clientId : κ) : (s.remove clientId).Inv := by
  have hsound : { s with sessions := s.sessions.filter fun e => e.1 ≠ clientId }.Sound :=
    ⟨h.ended, h.cancelled, h.born⟩
  unfold State.remove
  simp only
  split
  · exact ⟨hsound.onAllClientsGone, fun _ _ => hsound.pending_onAllClientsGone⟩
  · rename_i hne
    exact ⟨hsound, fun _ hnil => absurd hnil hne⟩

theorem register_sessions_ne [DecidableEq κ] (s : State κ) (clientId : κ) (pid : ℕ) :
    (s.register clientId pid).sessions ≠ [] := by
  unfold register
  simp only
  split
  · rename_i hany
    obtain ⟨e, he, -⟩ := List.any_eq_true.1 hany
    exact fun hnil => List.ne_nil_of_mem he (List.map_eq_nil_iff.1 hnil)
  · exact List.append_ne_nil_of_right_ne_nil _ (List.cons_ne_nil _ _)

/-- The task that looks and finds a client is not the last : that client has yet to go. -/
theorem Inv.finishDelayed (h : s.Inv) : (s.finishDelayed t).Inv := by
  have hsound : (s.setTask t .finished).Sound := h.toSound.setTask nofun nofun
  unfold State.finishDelayed
  split
  · exact .of_event rfl hsound.born
  · rename_i hlen
    exact ⟨hsound, fun _ hnil => absurd (congrArg List.length hnil) hlen⟩

variable {waits : Bool}

theorem Inv.runTask (h : s.Inv) (hs : s.runTask waits t = some s') : s'.Inv := by
  unfold State.runTask at hs
  split at hs
  · split at hs
    · obtain rfl := Option.some.inj hs
      exact ⟨h.toSound.setTask nofun nofun,
        fun hr hnil => (h.watched hr hnil).imp_right fun hp => hp.setTask fun _ => rfl⟩
    · obtain rfl := Option.some.inj hs
      exact h.finishDelayed
  · obtain rfl := Option.some.inj hs
    exact h.finishDelayed
  · rename_i hc
    have hsound : (s.setTask t .finished).Sound := h.toSound.setTask nofun nofun
    obtain rfl := Option.some.inj hs
    exact .of_event (h.cancelled t hc) hsound.born
  · cases hs

/-- The callback of a task that is over forgets no other. -/
theorem Inv.callback (h : s.Inv) (ht : s.tasks t = .finished) :
    ((s.setTask t .collected).clearDelayedShutdownTask t).Inv := by
  have hsound : (s.setTask t .collected).Sound := h.toSound.setTask nofun nofun
  unfold clearDelayedShutdownTask
  split
  · rename_i hd
    refine ⟨⟨hsound.ended, hsound.cancelled, nofun⟩, fun hr hnil => ?_⟩
    refine (h.watched hr hnil).imp_right fun ⟨u, hu, hp⟩ => ?_
    obtain rfl := Option.some.inj (hd.symm.trans hu)
    rw [ht] at hp
    cases hp
  · rename_i hd
    exact ⟨hsound, fun hr hnil =>
      (h.watched hr hnil).imp_right fun hp => hp.setTask fun hd' => absurd hd' hd⟩

/-- The teardown only runs once the event is set. -/
theorem Inv.tearDown (h : s.Inv) (hs : s.tearDown = some s') : s'.Inv := by
  unfold State.tearDown at hs
  split at hs
  · obtain ⟨he, ⟨⟩⟩ := Option.ite_none_right_eq_some.1 hs
    exact .of_event he h.born
  all_goals
    rename_i hphase
    have he : s.event = true := h.ended (by rw [hphase]; nofun)
  · obtain rfl := Option.some.inj hs
    exact .of_event he h.born
  · obtain rfl := Option.some.inj hs
    exact .of_event he h.born
  · split at hs
    · obtain rfl := Option.some.inj hs
      exact .of_event he h.born
    · rename_i t _
      split at hs
      · obtain rfl := Option.some.inj hs
        exact .of_event he h.born
      · obtain rfl := Option.some.inj hs
        refine .of_event he fun u hu => ?_
        rcases eq_or_ne u t with rfl | hne
        · exact fun hnew => nomatch setTask_self.symm.trans hnew
        · exact fun hnew => h.born u hu ((setTask_other hne).symm.trans hnew)
  · obtain ⟨-, ⟨⟩⟩ := Option.ite_none_right_eq_some.1 hs
    unfold clearDelayedShutdownTask
    split
    · exact .of_event he nofun
    · exact .of_event he h.born
  · cases hs

theorem Inv.stepPoll [DecidableEq κ] (h : s.Inv) (hs : s.stepPoll = some s') : s'.Inv := by
  unfold State.stepPoll at hs
  split at hs
  · obtain rfl := Option.some.inj hs
    exact { h with }
  · split at hs <;> obtain rfl := Option.some.inj hs <;> exact { h with }
  · rename_i cid dead _
    obtain rfl := Option.some.inj hs
    exact { h.remove cid with }
  · cases hs

theorem Inv.step [DecidableEq κ] {a : Act κ} (h : s.Inv)
    (hs : step waits s a = some s') : s'.Inv := by
  cases a with
  | connect c | reject c =>
    obtain ⟨-, ⟨⟩⟩ := Option.ite_none_right_eq_some.1 hs
    exact { h with }
  | register c clientId pid =>
    obtain ⟨-, ⟨⟩⟩ := Option.ite_none_right_eq_some.1 hs
    exact ⟨⟨h.ended, h.cancelled, h.born⟩,
      fun _ hnil => absurd hnil (register_sessions_ne s clientId pid)⟩
  | leave c =>
    have hs : s.leave c = some s' := hs
    unfold State.leave at hs
    split at hs
    · rename_i clientId _
      obtain rfl := Option.some.inj hs
      exact { h.remove clientId with }
    · cases hs
  | startPoll | wakePoll dead =>
    obtain ⟨-, ⟨⟩⟩ := Option.ite_none_right_eq_some.1 hs
    exact { h with }
  | poll => exact h.stepPoll hs
  | runTask t => exact h.runTask hs
  | callback t =>
    obtain ⟨ht, ⟨⟩⟩ := Option.ite_none_right_eq_some.1 hs
    exact h.callback ht
  | signal =>
    obtain rfl := Option.some.inj hs
    exact .of_event rfl h.born
  | tearDown => exact h.tearDown hs

/-- Only a task that finds nobody sets the event. -/
theorem runTask_event (hs : s.runTask waits t = some s') (he : s.event = false)
    (he' : s'.event = true) : s.sessions = [] ∧ s'.sessions = [] := by
  have hfinish : (s.finishDelayed t).event = true →
      s.sessions = [] ∧ (s.finishDelayed t).sessions = [] := by
    unfold finishDelayed
    split
    · rename_i hlen
      exact fun _ => ⟨List.eq_nil_of_length_eq_zero hlen, List.eq_nil_of_length_eq_zero hlen⟩
    · exact fun hset => absurd (he.symm.trans hset) nofun
  unfold runTask at hs
  split at hs
  · split at hs
    · obtain rfl := Option.some.inj hs
      exact absurd (he.symm.trans he') nofun
    · obtain rfl := Option.some.inj hs
      exact hfinish he'
  · obtain rfl := Option.some.inj hs
    exact hfinish he'
  · obtain rfl := Option.some.inj hs
    exact absurd (he.symm.trans he') nofun
  · cases hs

end State

/-! ## Results -/

variable [DecidableEq κ]

theorem inv_of_reach {waits : Bool} {s : State κ} (h : Reach (step waits) start s) : s.Inv :=
  h.invariant State.inv_start fun _ _ _ hi _ hs => hi.step hs

/-- A daemon whose clients are gone has a task pending or goes down, and no task takes it down
while a client is there. -/
theorem idle_pending {waits : Bool} {s : State κ} (h : Reach (step waits) start s) :
    (s.registered = true → s.sessions = [] → s.event = true ∨ s.Pending) ∧
      ∀ t s', step waits s (.runTask t) = some s' → s.event = false → s'.event = true →
        s.sessions = [] ∧ s'.sessions = [] :=
  ⟨(inv_of_reach h).watched, fun _ _ hs he he' => State.runTask_event hs he he'⟩

/-- The poll evicts a client that has left, and another comes and leaves during the delay. The task
that the first made is the one that stays. -/
def twiceRemoved : List (Act ℕ) :=
  [.connect 0, .register 0 10 100, .startPoll, .wakePoll [100], .poll, .leave 0, .runTask 0,
    .connect 1, .register 1 11 101, .poll, .poll, .leave 1]

theorem idle_pending_twiceRemoved : ∃ s, execute (step true) start twiceRemoved = some s ∧
    (s.event = true ∨ s.Pending) := by
  have hsome : ((execute (step true) start twiceRemoved).any fun s =>
      s.registered = true ∧ s.sessions = []) = true := by
    decide
  obtain ⟨s, hs, hall⟩ := (Option.any_eq_true _ _).1 hsome
  obtain ⟨hr, hnil⟩ := of_decide_eq_true hall
  exact ⟨s, hs, (idle_pending (.of_execute _ hs)).1 hr hnil⟩

end ChunkHound.IdleShutdown
