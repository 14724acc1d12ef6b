import ChunkHound.StepSystem
import Mathlib.Algebra.Order.BigOperators.Group.List
import Mathlib.Tactic.Common

/-!
# Synthesis maps

`_run_synthesis_maps` starts a task for each cluster, which asks a semaphore for a permit before its
map runs. The first failing map records its error and sets the abort, after which no map starts. The
caller waits for the tasks, and before it raises it cancels those that are left and waits until all
are done, whatever cancels it meanwhile.

The semaphore is that of `asyncio` : first come, first served, and a permit goes from its holder
to the first waiter that is not cancelled. No step makes a permit or loses one (`total_step`).
-/

namespace ChunkHound.SynthesisMaps

open StepSystem

/-! ## State -/

variable {ρ ε : Type*}

/-- An error of the map with the given number, or a cancellation that it raised. -/
structure Failure (ε : Type*) where
  map : ℕ
  error : Option ε
  deriving DecidableEq

inductive Outcome (ρ ε : Type*)
  | ok (result : ρ)
  | failed (error : Option ε)
  | aborted
  | cancelled
  deriving DecidableEq

/-- Where a task is. A waiter is `granted` when it has its permit and did not go on yet. -/
inductive Phase (ρ ε : Type*)
  | created
  | queued
  | granted
  | running
  | done (outcome : Outcome ρ ε)
  deriving DecidableEq

structure Task (ρ ε : Type*) where
  phase : Phase ρ ε
  cancelRequested : Bool
  deriving DecidableEq

/-- What the caller raises. -/
inductive Raised (ε : Type*)
  | callerCancelled
  | failure (f : Failure ε)
  | withoutTrigger
  deriving DecidableEq

/-- Where the caller is : in `asyncio.wait`, in the first or second `cancel_and_settle`, or at its
end. `interrupted` is whether it was cancelled in the first. -/
inductive Caller (ρ ε : Type*)
  | waiting (pending : List ℕ)
  | settling (raising : Raised ε) (interrupted : Bool)
  | resettling
  | returned (results : List ρ)
  | raised (e : Raised ε)
  deriving DecidableEq

inductive Event (ε : Type*)
  | started (map : ℕ)
  | recorded (f : Failure ε)
  deriving DecidableEq

/-- The log lists the newest event first. -/
structure State (ρ ε : Type*) where
  tasks : List (Task ρ ε)
  value : ℕ
  waiters : List ℕ
  abort : Bool
  trigger : Option (Failure ε)
  caller : Caller ρ ε
  callerCancelled : Bool
  log : List (Event ε)

namespace Task

def isDone (t : Task ρ ε) : Bool :=
  match t.phase with
  | .done _ => true
  | _ => false

/-- The future on which the task waits for a permit is not done. -/
def isPending (t : Task ρ ε) : Bool :=
  match t.phase with
  | .queued => !t.cancelRequested
  | _ => false

/-- The task keeps others from going first. -/
def blocks (t : Task ρ ε) : Bool :=
  match t.phase with
  | .queued => !t.cancelRequested
  | .granted => true
  | _ => false

/-- The task has a permit. -/
def holds (t : Task ρ ε) : Bool :=
  match t.phase with
  | .granted => true
  | .running => true
  | _ => false

def isRunning (t : Task ρ ε) : Bool :=
  match t.phase with
  | .running => true
  | _ => false

def result? (t : Task ρ ε) : Option ρ :=
  match t.phase with
  | .done (.ok r) => some r
  | _ => none

variable {t : Task ρ ε}

theorem phase_of_isRunning (h : t.isRunning = true) : t.phase = .running := by
  unfold isRunning at h
  split at h
  · assumption
  · cases h

theorem holds_of_isRunning (h : t.isRunning = true) : t.holds = true := by
  rw [holds, phase_of_isRunning h]

theorem isDone_of_isRunning (h : t.isRunning = true) : t.isDone = false := by
  rw [isDone, phase_of_isRunning h]

end Task

def Event.failure? : Event ε → Option (Failure ε)
  | .started _ => none
  | .recorded f => some f

namespace State

/-- The failures, newest first. -/
def failures (s : State ρ ε) : List (Failure ε) := s.log.filterMap Event.failure?

def setPhase (s : State ρ ε) (i : ℕ) (phase : Phase ρ ε) : State ρ ε :=
  { s with tasks := s.tasks.modify i fun t => { t with phase := phase } }

/-! ## The semaphore -/

/-- `Semaphore.locked`. -/
def locked (s : State ρ ε) : Bool :=
  s.value = 0 || s.waiters.any fun w => (s.tasks[w]?).any Task.blocks

/-- Up to `n` waiters get a permit. -/
def wakeWaiters : ℕ → State ρ ε → State ρ ε
  | 0, s => s
  | n + 1, s =>
    match s.waiters.find? fun w => (s.tasks[w]?).any Task.isPending with
    | none => s
    | some w => wakeWaiters n ({ s with value := s.value - 1 }.setPhase w .granted)

/-- `Semaphore.release`. -/
def release (s : State ρ ε) : State ρ ε := wakeWaiters 1 { s with value := s.value + 1 }

/-- A waiter leaves the queue, with or without its permit. -/
def leaveQueue (s : State ρ ε) (i : ℕ) : State ρ ε :=
  let s := { s with waiters := s.waiters.erase i }
  wakeWaiters s.value s

/-! ## The tasks -/

/-- `_map_synthesis_on_cluster` starts. -/
def startMap (s : State ρ ε) (i : ℕ) : State ρ ε :=
  { s with log := .started i :: s.log }.setPhase i .running

/-- The first step of `run_map`. -/
def startTask (s : State ρ ε) (i : ℕ) (t : Task ρ ε) : State ρ ε :=
  if t.cancelRequested then s.setPhase i (.done .cancelled)
  else if s.abort then s.setPhase i (.done .aborted)
  else if s.locked then { s with waiters := s.waiters ++ [i] }.setPhase i .queued
  else { s with value := s.value - 1 }.startMap i

/-- `run_map` goes on after it waited for a permit. -/
def resumeTask (s : State ρ ε) (i : ℕ) (t : Task ρ ε) : Option (State ρ ε) :=
  match t.phase with
  | .queued =>
    if t.cancelRequested then some ((s.setPhase i (.done .cancelled)).leaveQueue i) else none
  | .granted =>
    if t.cancelRequested then
      some (({ s with value := s.value + 1 }.setPhase i (.done .cancelled)).leaveQueue i)
    else if s.abort then
      some ((s.setPhase i (.done .aborted)).leaveQueue i).release
    else some ((s.startMap i).leaveQueue i)
  | _ => none

/-- The map of a task ends. -/
def finishMap (s : State ρ ε) (i : ℕ) (result : Except (Option ε) ρ) : State ρ ε :=
  match result with
  | .ok r => (s.setPhase i (.done (.ok r))).release
  | .error e =>
    ({ s with
      trigger := s.trigger <|> some (Failure.mk i e)
      abort := true
      log := .recorded ⟨i, e⟩ :: s.log }.setPhase i (.done (.failed e))).release

/-! ## The caller -/

def cancelTasks (s : State ρ ε) : State ρ ε :=
  { s with
    tasks := s.tasks.map fun t => if t.isDone then t else { t with cancelRequested := true } }

/-- `cancel_and_settle` up to its await. -/
def cancelAndSettle (s : State ρ ε) (caller : Caller ρ ε) : State ρ ε :=
  { s.cancelTasks with abort := true, caller := caller }

/-- What is raised when the caller was not cancelled. -/
def ofTrigger (s : State ρ ε) : Raised ε := s.trigger.elim .withoutTrigger .failure

/-- The caller is cancelled. -/
def cancelCaller (s : State ρ ε) : Option (State ρ ε) :=
  match s.caller with
  | .waiting _ => some { s with callerCancelled := true }
  | .settling raising _ =>
    some { s.cancelTasks with callerCancelled := true, caller := .settling raising true }
  | .resettling => some { s.cancelTasks with callerCancelled := true }
  | _ => none

/-- The caller wakes. -/
def wakeCaller (s : State ρ ε) : Option (State ρ ε) :=
  match s.caller with
  | .waiting pending =>
    if s.callerCancelled then some (s.cancelAndSettle (.settling .callerCancelled false))
    else if pending.any fun i => (s.tasks[i]?).any Task.isDone then
      if s.abort then some (s.cancelAndSettle (.settling s.ofTrigger false))
      else
        match pending.filter fun i => !(s.tasks[i]?).any Task.isDone with
        | [] => some { s with caller := .returned (s.tasks.filterMap Task.result?) }
        | pending => some { s with caller := .waiting pending }
    else none
  | .settling raising interrupted =>
    if s.tasks.all Task.isDone then
      if interrupted then some (s.cancelAndSettle .resettling)
      else some { s with caller := .raised raising }
    else none
  | .resettling =>
    if s.tasks.all Task.isDone then some { s with caller := .raised .callerCancelled } else none
  | _ => none

end State

/-! ## Steps -/

inductive Act (ρ ε : Type*)
  | start (i : ℕ)
  | resume (i : ℕ)
  | finish (i : ℕ) (result : Except (Option ε) ρ)
  | cancelCaller
  | wakeCaller

/-- What an action does to the run. -/
def step (s : State ρ ε) : Act ρ ε → Option (State ρ ε)
  | .start i =>
    match s.tasks[i]? with
    | some t => match t.phase with
      | .created => some (s.startTask i t)
      | _ => none
    | none => none
  | .resume i =>
    match s.tasks[i]? with
    | some t => s.resumeTask i t
    | none => none
  | .finish i result =>
    match s.tasks[i]? with
    | some t => if t.isRunning then some (s.finishMap i result) else none
    | none => none
  | .cancelCaller => s.cancelCaller
  | .wakeCaller => s.wakeCaller

/-- The tasks are created, and the caller waits for them when there are any. -/
def start (maxConcurrency n : ℕ) : State ρ ε where
  tasks := List.replicate n ⟨.created, false⟩
  value := maxConcurrency
  waiters := []
  abort := false
  trigger := none
  caller := if n = 0 then .returned [] else .waiting (List.range n)
  callerCancelled := false
  log := []

/-! ## Tasks that change -/

section Tasks

variable {s s' : State ρ ε} {i : ℕ} {t : Task ρ ε} {phase : Phase ρ ε}

/-- How many tasks have a permit. -/
def held (s : State ρ ε) : ℕ := s.tasks.countP Task.holds

theorem countP_modify {α : Type*} (p : α → Bool) (f : α → α) {a : α} :
    ∀ {l : List α} {i : ℕ}, l[i]? = some a →
      (l.modify i f).countP p + (if p a then 1 else 0) = l.countP p + if p (f a) then 1 else 0
  | b :: l, 0, h => by
    obtain rfl := Option.some.inj h
    rw [List.modify_zero_cons, List.countP_cons, List.countP_cons]
    omega
  | b :: l, i + 1, h => by
    have ih := countP_modify p f (l := l) (i := i) h
    rw [List.modify_succ_cons, List.countP_cons, List.countP_cons]
    omega

/-- The permits, taken or not. -/
def total (s : State ρ ε) : ℕ := s.value + held s

theorem held_setPhase (phase : Phase ρ ε) (h : s.tasks[i]? = some t) :
    held (s.setPhase i phase) + (if t.holds then 1 else 0) =
      held s + if (⟨phase, t.cancelRequested⟩ : Task ρ ε).holds then 1 else 0 :=
  countP_modify Task.holds _ h

theorem holds_of_isPending (h : t.isPending = true) : t.holds = false := by
  unfold Task.isPending at h
  unfold Task.holds
  split at h
  · rename_i hphase
    rw [hphase]
  · cases h

theorem total_wakeWaiters : ∀ (n : ℕ) (s : State ρ ε), n ≤ s.value →
    total (State.wakeWaiters n s) = total s
  | 0, s, _ => rfl
  | n + 1, s, hn => by
    unfold State.wakeWaiters
    split
    · rfl
    · rename_i w hw
      have hany : (s.tasks[w]?).any Task.isPending = true := by simpa using List.find?_some hw
      obtain ⟨t, ht, hpending⟩ := (Option.any_eq_true _ _).1 hany
      have hheld := held_setPhase (s := { s with value := s.value - 1 }) .granted ht
      rw [holds_of_isPending hpending] at hheld
      have hle : n ≤ ({ s with value := s.value - 1 }.setPhase w .granted).value :=
        Nat.le_sub_one_of_lt hn
      rw [total_wakeWaiters n _ hle]
      have hsame : held { s with value := s.value - 1 } = held s := rfl
      simp only [Task.holds, if_true, if_false, hsame, Bool.false_eq_true] at hheld
      show s.value - 1 + held _ = s.value + held s
      omega

theorem total_leaveQueue (s : State ρ ε) (i : ℕ) : total (s.leaveQueue i) = total s :=
  total_wakeWaiters s.value { s with waiters := s.waiters.erase i } (Nat.le_refl _)

theorem total_release (s : State ρ ε) : total s.release = total s + 1 := by
  rw [State.release, total_wakeWaiters 1 _ (Nat.le_add_left 1 s.value)]
  show s.value + 1 + held s = s.value + held s + 1
  omega

/-- A task without a permit goes on without one. -/
theorem total_setPhase (h : s.tasks[i]? = some t)
    (hsame : (⟨phase, t.cancelRequested⟩ : Task ρ ε).holds = t.holds) :
    total (s.setPhase i phase) = total s := by
  have hheld := held_setPhase phase h
  rw [hsame] at hheld
  show s.value + held _ = s.value + held s
  omega

/-- A task that ends gives up its permit. -/
theorem total_done (outcome : Outcome ρ ε) (h : s.tasks[i]? = some t) (hholds : t.holds = true) :
    total (s.setPhase i (.done outcome)) + 1 = total s := by
  have hheld := held_setPhase (.done outcome) h
  rw [hholds] at hheld
  simp only [Task.holds, if_true, Bool.false_eq_true, if_false] at hheld
  show s.value + held _ + 1 = s.value + held s
  omega

theorem total_cancelTasks (s : State ρ ε) : total s.cancelTasks = total s := by
  have hheld : held s.cancelTasks = held s := by
    unfold held State.cancelTasks
    rw [List.countP_map]
    refine List.countP_congr fun t _ => ?_
    show Task.holds (if t.isDone then t else { t with cancelRequested := true }) = true ↔ _
    split <;> rfl
  show s.value + held s.cancelTasks = s.value + held s
  rw [hheld]

theorem total_startTask (h : s.tasks[i]? = some t) (hphase : t.phase = .created) :
    total (s.startTask i t) = total s := by
  have hholds : t.holds = false := by
    unfold Task.holds
    rw [hphase]
  unfold State.startTask
  split
  · exact total_setPhase h hholds.symm
  · split
    · exact total_setPhase h hholds.symm
    · split
      · exact total_setPhase (s := { s with waiters := s.waiters ++ [i] }) h hholds.symm
      · rename_i hlocked
        have hvalue : s.value ≠ 0 := fun h0 => hlocked (by simp [State.locked, h0])
        have hheld := held_setPhase .running h
        rw [hholds] at hheld
        simp only [Task.holds, if_true, Bool.false_eq_true, if_false] at hheld
        show s.value - 1 + held (s.setPhase i .running) = s.value + held s
        omega

theorem total_resumeTask (h : s.tasks[i]? = some t) (hs : s.resumeTask i t = some s') :
    total s' = total s := by
  unfold State.resumeTask at hs
  split at hs
  · rename_i hphase
    obtain ⟨-, ⟨⟩⟩ := Option.ite_none_right_eq_some.1 hs
    rw [total_leaveQueue]
    exact total_setPhase h (by simp [Task.holds, hphase])
  · rename_i hphase
    have hholds : t.holds = true := by simp [Task.holds, hphase]
    split at hs
    · obtain rfl := Option.some.inj hs
      rw [total_leaveQueue]
      have hdone := total_done .cancelled h hholds
      have hmore : total ({ s with value := s.value + 1 }.setPhase i (.done .cancelled)) =
          total (s.setPhase i (.done .cancelled)) + 1 := by
        show s.value + 1 + held _ = s.value + held _ + 1
        exact Nat.add_right_comm ..
      rw [hmore, hdone]
    · split at hs
      · obtain rfl := Option.some.inj hs
        rw [total_release, total_leaveQueue, total_done .aborted h hholds]
      · obtain rfl := Option.some.inj hs
        rw [total_leaveQueue]
        exact total_setPhase (s := { s with log := .started i :: s.log }) h hholds.symm
  · cases hs

theorem total_finishMap {result : Except (Option ε) ρ} (h : s.tasks[i]? = some t)
    (hrunning : t.isRunning = true) : total (s.finishMap i result) = total s := by
  have hholds : t.holds = true := Task.holds_of_isRunning hrunning
  cases result with
  | ok r =>
    show total (State.release _) = _
    rw [total_release, total_done (.ok r) h hholds]
  | error e =>
    show total (State.release _) = _
    rw [total_release]
    exact total_done (s := { s with
      trigger := s.trigger <|> some (Failure.mk i e)
      abort := true
      log := .recorded ⟨i, e⟩ :: s.log }) (.failed e) h hholds

theorem total_step {a : Act ρ ε} (hs : step s a = some s') : total s' = total s := by
  cases a with
  | start i =>
    simp only [step] at hs
    split at hs
    · rename_i t ht
      split at hs
      · rename_i hphase
        obtain rfl := Option.some.inj hs
        exact total_startTask ht hphase
      · cases hs
    · cases hs
  | resume i =>
    simp only [step] at hs
    split at hs
    · rename_i t ht
      exact total_resumeTask ht hs
    · cases hs
  | finish i result =>
    simp only [step] at hs
    split at hs
    · rename_i t ht
      obtain ⟨hrunning, ⟨⟩⟩ := Option.ite_none_right_eq_some.1 hs
      exact total_finishMap ht hrunning
    · cases hs
  | cancelCaller =>
    simp only [step, State.cancelCaller] at hs
    split at hs
    · obtain rfl := Option.some.inj hs
      rfl
    · obtain rfl := Option.some.inj hs
      exact total_cancelTasks s
    · obtain rfl := Option.some.inj hs
      exact total_cancelTasks s
    · cases hs
  | wakeCaller =>
    simp only [step, State.wakeCaller] at hs
    split at hs
    · split at hs
      · obtain rfl := Option.some.inj hs
        exact total_cancelTasks s
      · obtain ⟨-, hs⟩ := Option.ite_none_right_eq_some.1 hs
        split at hs
        · obtain rfl := Option.some.inj hs
          exact total_cancelTasks s
        · split at hs <;> obtain rfl := Option.some.inj hs <;> rfl
    · obtain ⟨-, hs⟩ := Option.ite_none_right_eq_some.1 hs
      split at hs
      · obtain rfl := Option.some.inj hs
        exact total_cancelTasks s
      · obtain rfl := Option.some.inj hs
        rfl
    · obtain ⟨-, ⟨⟩⟩ := Option.ite_none_right_eq_some.1 hs
      rfl
    · cases hs

end Tasks

end ChunkHound.SynthesisMaps
