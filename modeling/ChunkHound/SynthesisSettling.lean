import ChunkHound.SynthesisMaps
import Mathlib

/-!
# Settling synthesis maps

What is done stays done (`Keeps`), and a step of a task leaves alone what the caller decides by
(`Frame`). So at its end the caller leaves no task behind, and it raises its cancellation or the
first failure (`maps_settled`).

When a cancellation reaches the caller after the last map succeeded and before it woke, the
cancellation is raised (`cancelled_after_success`).
-/

namespace ChunkHound.SynthesisMaps

open StepSystem

section Settling

variable {ρ ε : Type*} {s s' : State ρ ε} {i : ℕ} {t : Task ρ ε} {phase : Phase ρ ε}

/-! ## Tasks that end -/

/-- What is done stays done. -/
structure Keeps (s s' : State ρ ε) : Prop where
  length : s'.tasks.length = s.tasks.length
  done : ∀ (i : ℕ) (t : Task ρ ε), s.tasks[i]? = some t → t.isDone = true →
    s'.tasks[i]? = some t

/-- Only tasks, the semaphore and its queue change, and a task that ends succeeds, or the abort is
set. -/
structure Frame (s s' : State ρ ε) : Prop where
  keeps : Keeps s s'
  new : ∀ (i : ℕ) (t : Task ρ ε), s'.tasks[i]? = some t → t.isDone = true →
    s.tasks[i]? = some t ∨ t.result?.isSome = true ∨ s.abort = true
  requested : ∀ (i : ℕ) (t : Task ρ ε), s'.tasks[i]? = some t → t.cancelRequested = true →
    s.abort = true ∨ ∃ u : Task ρ ε, s.tasks[i]? = some u ∧ u.cancelRequested = true
  abort : s'.abort = s.abort
  trigger : s'.trigger = s.trigger
  caller : s'.caller = s.caller
  callerCancelled : s'.callerCancelled = s.callerCancelled
  log : s'.log = s.log

/-- The tasks are the same. -/
theorem Frame.ofTasks (htasks : s'.tasks = s.tasks) (habort : s'.abort = s.abort)
    (htrigger : s'.trigger = s.trigger) (hcaller : s'.caller = s.caller)
    (hcancelled : s'.callerCancelled = s.callerCancelled) (hlog : s'.log = s.log) :
    Frame s s' where
  keeps := ⟨by rw [htasks], fun i t ht _ => by rw [htasks]; exact ht⟩
  new i t ht _ := Or.inl (by rw [← htasks]; exact ht)
  requested i t ht hrequested := Or.inr ⟨t, by rw [← htasks]; exact ht, hrequested⟩
  abort := habort
  trigger := htrigger
  caller := hcaller
  callerCancelled := hcancelled
  log := hlog

theorem Frame.trans {s'' : State ρ ε} (h : Frame s s') (h' : Frame s' s'') : Frame s s'' where
  keeps := ⟨h'.keeps.length.trans h.keeps.length,
    fun i t ht hdone => h'.keeps.done i t (h.keeps.done i t ht hdone) hdone⟩
  new i t ht hdone := by
    rcases h'.new i t ht hdone with hold | hok | habort
    · exact h.new i t hold hdone
    · exact Or.inr (Or.inl hok)
    · exact Or.inr (Or.inr (h.abort ▸ habort))
  requested i t ht hrequested := by
    rcases h'.requested i t ht hrequested with habort | ⟨u, hu, hrequested⟩
    · exact Or.inl (h.abort ▸ habort)
    · exact h.requested i u hu hrequested
  abort := h'.abort.trans h.abort
  trigger := h'.trigger.trans h.trigger
  caller := h'.caller.trans h.caller
  callerCancelled := h'.callerCancelled.trans h.callerCancelled
  log := h'.log.trans h.log

theorem getElem?_setPhase (s : State ρ ε) (i j : ℕ) (phase : Phase ρ ε) :
    (s.setPhase i phase).tasks[j]? =
      (s.tasks[j]?).map fun t => if i = j then { t with phase := phase } else t :=
  List.getElem?_modify ..

theorem keeps_setPhase (phase : Phase ρ ε) (h : s.tasks[i]? = some t) (hnot : t.isDone = false) :
    Keeps s (s.setPhase i phase) where
  length := List.length_modify ..
  done j u hu hdone := by
    rw [getElem?_setPhase, hu, Option.map_some, if_neg]
    rintro rfl
    obtain rfl := Option.some.inj (h.symm.trans hu)
    rw [hnot] at hdone
    cases hdone

theorem Frame.setPhase (h : s.tasks[i]? = some t) (hnot : t.isDone = false)
    (hok : (⟨phase, t.cancelRequested⟩ : Task ρ ε).isDone = true →
      (⟨phase, t.cancelRequested⟩ : Task ρ ε).result?.isSome = true ∨ s.abort = true) :
    Frame s (s.setPhase i phase) where
  keeps := keeps_setPhase phase h hnot
  new j u hu hdone := by
    rw [getElem?_setPhase, Option.map_eq_some_iff] at hu
    obtain ⟨v, hv, rfl⟩ := hu
    by_cases hij : i = j
    · subst hij
      obtain rfl := Option.some.inj (h.symm.trans hv)
      rw [if_pos rfl] at hdone ⊢
      exact Or.inr (hok hdone)
    · rw [if_neg hij]
      exact Or.inl hv
  requested j u hu hrequested := by
    rw [getElem?_setPhase, Option.map_eq_some_iff] at hu
    obtain ⟨v, hv, rfl⟩ := hu
    refine Or.inr ⟨v, hv, ?_⟩
    split at hrequested <;> exact hrequested
  abort := rfl
  trigger := rfl
  caller := rfl
  callerCancelled := rfl
  log := rfl

theorem not_done_of_isPending (h : t.isPending = true) : t.isDone = false := by
  unfold Task.isPending at h
  unfold Task.isDone
  split at h
  · rename_i hphase
    rw [hphase]
  · cases h

theorem Frame.wakeWaiters : ∀ (n : ℕ) (s : State ρ ε), Frame s (s.wakeWaiters n)
  | 0, s => .ofTasks rfl rfl rfl rfl rfl rfl
  | n + 1, s => by
    unfold State.wakeWaiters
    split
    · exact .ofTasks rfl rfl rfl rfl rfl rfl
    · rename_i w hw
      have hany : (s.tasks[w]?).any Task.isPending = true := by simpa using List.find?_some hw
      obtain ⟨t, ht, hpending⟩ := (Option.any_eq_true _ _).1 hany
      have hvalue : Frame s { s with value := s.value - 1 } := .ofTasks rfl rfl rfl rfl rfl rfl
      have hgrant : Frame { s with value := s.value - 1 }
          ({ s with value := s.value - 1 }.setPhase w .granted) :=
        .setPhase ht (not_done_of_isPending hpending) fun hno => by cases hno
      exact (hvalue.trans hgrant).trans (Frame.wakeWaiters n _)

theorem Frame.leaveQueue (s : State ρ ε) (i : ℕ) : Frame s (s.leaveQueue i) := by
  have hwaiters : Frame s { s with waiters := s.waiters.erase i } :=
    .ofTasks rfl rfl rfl rfl rfl rfl
  exact hwaiters.trans (.wakeWaiters s.value _)

theorem Frame.release (s : State ρ ε) : Frame s s.release := by
  have hvalue : Frame s { s with value := s.value + 1 } := .ofTasks rfl rfl rfl rfl rfl rfl
  exact hvalue.trans (.wakeWaiters 1 _)

theorem isDone_cancelled (t : Task ρ ε) (b : Bool) :
    ({ t with cancelRequested := b } : Task ρ ε).isDone = t.isDone := rfl

theorem Frame.cancelTasks (habort : s.abort = true) : Frame s s.cancelTasks where
  keeps := by
    refine ⟨List.length_map _, fun i t ht hdone => ?_⟩
    show (s.tasks.map _)[i]? = some t
    rw [List.getElem?_map, ht, Option.map_some, if_pos hdone]
  new i t ht hdone := by
    have ht : (s.tasks.map fun t =>
        if t.isDone then t else { t with cancelRequested := true })[i]? = some t := ht
    rw [List.getElem?_map, Option.map_eq_some_iff] at ht
    obtain ⟨u, hu, rfl⟩ := ht
    by_cases hu' : u.isDone = true
    · rw [if_pos hu']
      exact Or.inl hu
    · rw [if_neg hu', isDone_cancelled] at hdone
      exact absurd hdone hu'
  requested _ _ _ _ := Or.inl habort
  abort := rfl
  trigger := rfl
  caller := rfl
  callerCancelled := rfl
  log := rfl

/-- Tasks that are all done stay as they are. -/
theorem Keeps.tasks_eq (h : Keeps s s') (hall : ∀ t ∈ s.tasks, t.isDone = true) :
    s'.tasks = s.tasks := by
  refine List.ext_getElem? fun i => ?_
  cases ht : s.tasks[i]? with
  | none =>
    rw [List.getElem?_eq_none_iff] at ht ⊢
    rw [h.length]
    exact ht
  | some t => exact h.done i t ht (hall t (List.mem_of_getElem? ht))

/-! ## Invariant -/

def RaisedOk (s : State ρ ε) : Raised ε → Prop
  | .callerCancelled => s.callerCancelled = true
  | .failure f => s.trigger = some f
  | .withoutTrigger => False

/-- While the caller waits only a failure sets the abort, and what is done does not have to be
waited for. At its end all tasks are done. -/
def CallerOk (s : State ρ ε) : Caller ρ ε → Prop
  | .waiting pending => pending ≠ [] ∧ (∀ i ∈ pending, i < s.tasks.length) ∧
    (s.abort = true → s.trigger.isSome = true) ∧
    ∀ (i : ℕ) (t : Task ρ ε), s.tasks[i]? = some t → t.isDone = true ∨ i ∈ pending
  | .settling raising interrupted => s.abort = true ∧ RaisedOk s raising ∧
    (interrupted = true → s.callerCancelled = true)
  | .resettling => s.abort = true ∧ s.callerCancelled = true
  | .returned results => s.tasks.map Task.result? = results.map some
  | .raised e => (∀ t ∈ s.tasks, t.isDone = true) ∧ RaisedOk s e

structure Inv (s : State ρ ε) : Prop where
  aborted : ∀ (i : ℕ) (t : Task ρ ε), s.tasks[i]? = some t → t.isDone = true →
    t.result?.isSome = true ∨ s.abort = true
  trigger : s.trigger = s.failures.getLast?
  abort : s.trigger.isSome = true → s.abort = true
  failed : ∀ f, s.trigger = some f →
    ∃ t, s.tasks[f.map]? = some t ∧ t.phase = .done (.failed f.error)
  since : ∀ f, Since (.recorded f) (fun after => ∀ i, .started i ∉ after) s.log
  requested : ∀ (i : ℕ) (t : Task ρ ε), s.tasks[i]? = some t → t.cancelRequested = true →
    s.abort = true
  caller : CallerOk s s.caller

theorem isDone_of_result? {r : ρ} (h : t.result? = some r) : t.isDone = true := by
  unfold Task.result? at h
  unfold Task.isDone
  split at h
  · rename_i hphase
    rw [hphase]
  · cases h

theorem RaisedOk.mono {e : Raised ε} (h : RaisedOk s e)
    (htrigger : ∀ f, s.trigger = some f → s'.trigger = some f)
    (hcancelled : s.callerCancelled = true → s'.callerCancelled = true) : RaisedOk s' e := by
  cases e with
  | callerCancelled => exact hcancelled h
  | failure f => exact htrigger f h
  | withoutTrigger => exact h

variable {caller : Caller ρ ε}

theorem CallerOk.mono (h : CallerOk s caller) (hk : Keeps s s')
    (habort : s.abort = true → s'.abort = true)
    (htrigger : ∀ f, s.trigger = some f → s'.trigger = some f)
    (hnew : s'.abort = true → s.abort = true ∨ s'.trigger.isSome = true)
    (hcancelled : s.callerCancelled = true → s'.callerCancelled = true) : CallerOk s' caller := by
  cases caller with
  | waiting pending =>
    obtain ⟨hne, hlt, hfailed, hall⟩ := h
    refine ⟨hne, fun i hi => hk.length ▸ hlt i hi, fun ha => ?_, fun i t ht => ?_⟩
    · rcases hnew ha with hold | hsome
      · obtain ⟨f, hf⟩ := Option.isSome_iff_exists.1 (hfailed hold)
        rw [htrigger f hf]
        rfl
      · exact hsome
    · have hlt : i < s.tasks.length := hk.length ▸ (List.getElem?_eq_some_iff.1 ht).1
      rcases hall i _ (List.getElem?_eq_getElem hlt) with hdone | hmem
      · have hsame := hk.done i _ (List.getElem?_eq_getElem hlt) hdone
        rw [← Option.some.inj (ht.symm.trans hsame)] at hdone
        exact Or.inl hdone
      · exact Or.inr hmem
  | settling raising interrupted =>
    exact ⟨habort h.1, h.2.1.mono htrigger hcancelled, fun hi => hcancelled (h.2.2 hi)⟩
  | resettling => exact ⟨habort h.1, hcancelled h.2⟩
  | returned results =>
    have hdone : ∀ t ∈ s.tasks, t.isDone = true := by
      intro t ht
      have hmem : t.result? ∈ results.map some := h ▸ List.mem_map_of_mem ht
      obtain ⟨r, -, hr⟩ := List.mem_map.1 hmem
      exact isDone_of_result? hr.symm
    show s'.tasks.map Task.result? = _
    rw [hk.tasks_eq hdone]
    exact h
  | raised e =>
    refine ⟨?_, h.2.mono htrigger hcancelled⟩
    rw [hk.tasks_eq h.1]
    exact h.1

theorem Inv.frame (h : Inv s) (hf : Frame s s') : Inv s' where
  aborted i t ht hdone := by
    rw [hf.abort]
    rcases hf.new i t ht hdone with hold | hok | habort
    · exact h.aborted i t hold hdone
    · exact Or.inl hok
    · exact Or.inr habort
  trigger := by
    unfold State.failures
    rw [hf.trigger, hf.log]
    exact h.trigger
  abort := by
    rw [hf.trigger, hf.abort]
    exact h.abort
  failed f hfailed := by
    obtain ⟨t, ht, hphase⟩ := h.failed f (hf.trigger ▸ hfailed)
    exact ⟨t, hf.keeps.done _ t ht (by simp [Task.isDone, hphase]), hphase⟩
  since := by
    rw [hf.log]
    exact h.since
  requested i t ht hrequested := by
    rw [hf.abort]
    rcases hf.requested i t ht hrequested with habort | ⟨u, hu, hrequested⟩
    · exact habort
    · exact h.requested i u hu hrequested
  caller := by
    rw [hf.caller]
    refine h.caller.mono hf.keeps ?_ ?_ ?_ ?_
    · rw [hf.abort]
      exact id
    · rw [hf.trigger]
      exact fun _ => id
    · rw [hf.abort]
      exact Or.inl
    · rw [hf.callerCancelled]
      exact id

/-- A map starts, where no failure was recorded. -/
theorem Inv.logStarted (h : Inv s) (habort : s.abort = false) (i : ℕ) :
    Inv { s with log := .started i :: s.log } := by
  have hnone : s.trigger = none := by
    cases htrigger : s.trigger with
    | none => rfl
    | some f =>
      have hset := h.abort (by rw [htrigger]; rfl)
      rw [habort] at hset
      cases hset
  have hfailures : s.failures = [] := List.getLast?_eq_none_iff.1 (h.trigger.symm.trans hnone)
  exact { h with
    since := fun f => by
      refine since_cons.2 ⟨nofun, fun after before heq => ?_⟩
      have hmem : f ∈ s.failures :=
        List.mem_filterMap.2 ⟨.recorded f, by rw [heq]; simp, rfl⟩
      rw [hfailures] at hmem
      cases hmem }

theorem Inv.startMap (h : Inv s) (ht : s.tasks[i]? = some t) (hnot : t.isDone = false)
    (habort : s.abort = false) : Inv (s.startMap i) :=
  (h.logStarted habort i).frame (.setPhase (s := { s with log := .started i :: s.log }) ht hnot
    fun hno => by cases hno)

theorem Inv.startTask (h : Inv s) (ht : s.tasks[i]? = some t) (hphase : t.phase = .created) :
    Inv (s.startTask i t) := by
  have hcancel := h.requested i t ht
  have hnot : t.isDone = false := by simp [Task.isDone, hphase]
  unfold State.startTask
  split
  · rename_i hrequested
    exact h.frame (.setPhase ht hnot fun _ => Or.inr (hcancel hrequested))
  · split
    · rename_i habort
      exact h.frame (.setPhase ht hnot fun _ => Or.inr habort)
    · rename_i habort
      split
      · have hwaiters : Frame s { s with waiters := s.waiters ++ [i] } :=
          .ofTasks rfl rfl rfl rfl rfl rfl
        refine h.frame (hwaiters.trans (.setPhase ht hnot fun hno => ?_))
        cases hno
      · have hvalue : Frame s { s with value := s.value - 1 } := .ofTasks rfl rfl rfl rfl rfl rfl
        exact (h.frame hvalue).startMap ht hnot (Bool.not_eq_true _ ▸ habort)

theorem Inv.resumeTask (h : Inv s) (ht : s.tasks[i]? = some t)
    (hs : s.resumeTask i t = some s') : Inv s' := by
  have hcancel := h.requested i t ht
  unfold State.resumeTask at hs
  split at hs
  · rename_i hphase
    have hnot : t.isDone = false := by simp [Task.isDone, hphase]
    obtain ⟨hrequested, ⟨⟩⟩ := Option.ite_none_right_eq_some.1 hs
    exact (h.frame (.setPhase ht hnot fun _ => Or.inr (hcancel hrequested))).frame (.leaveQueue _ i)
  · rename_i hphase
    have hnot : t.isDone = false := by simp [Task.isDone, hphase]
    split at hs
    · rename_i hrequested
      obtain rfl := Option.some.inj hs
      have hvalue : Frame s { s with value := s.value + 1 } := .ofTasks rfl rfl rfl rfl rfl rfl
      have hdone : Frame { s with value := s.value + 1 }
          ({ s with value := s.value + 1 }.setPhase i (.done .cancelled)) :=
        .setPhase ht hnot fun _ => Or.inr (hcancel hrequested)
      exact ((h.frame hvalue).frame hdone).frame (.leaveQueue _ i)
    · split at hs
      · rename_i habort
        obtain rfl := Option.some.inj hs
        have hdone : Frame s (s.setPhase i (.done .aborted)) :=
          .setPhase ht hnot fun _ => Or.inr habort
        exact ((h.frame hdone).frame (.leaveQueue _ i)).frame (.release _)
      · rename_i habort
        obtain rfl := Option.some.inj hs
        exact (h.startMap ht hnot (Bool.not_eq_true _ ▸ habort)).frame (.leaveQueue _ i)
  · cases hs

/-- A failure is recorded, and the first one stays the trigger. -/
theorem Inv.failMap {e : Option ε} (h : Inv s) (ht : s.tasks[i]? = some t)
    (hnot : t.isDone = false) :
    Inv ({ s with
      trigger := s.trigger <|> some (Failure.mk i e)
      abort := true
      log := .recorded ⟨i, e⟩ :: s.log }.setPhase i (.done (.failed e))) := by
  have hkeeps : Keeps s ({ s with
      trigger := s.trigger <|> some (Failure.mk i e)
      abort := true
      log := .recorded ⟨i, e⟩ :: s.log }.setPhase i (.done (.failed e))) := by
    have hk := keeps_setPhase (.done (.failed e)) ht hnot
    exact ⟨hk.length, hk.done⟩
  have hfirst : ∀ f, s.trigger = some f →
      (s.trigger <|> some (Failure.mk i e)) = some f := fun f hf => by rw [hf]; rfl
  constructor
  · exact fun _ _ _ _ => Or.inr rfl
  · have hlast : (Failure.mk i e :: s.failures).getLast? =
        some (s.failures.getLast?.getD ⟨i, e⟩) := List.getLast?_cons
    refine Eq.trans ?_ hlast.symm
    show (s.trigger <|> some (Failure.mk i e)) = _
    rw [← h.trigger]
    cases s.trigger <;> rfl
  · exact fun _ => rfl
  · intro f hf
    have hf : (s.trigger <|> some (Failure.mk i e)) = some f := hf
    cases htrigger : s.trigger with
    | none =>
      rw [htrigger] at hf
      obtain rfl := Option.some.inj hf
      refine ⟨⟨.done (.failed e), t.cancelRequested⟩, ?_, rfl⟩
      show (State.setPhase _ i _).tasks[i]? = _
      rw [getElem?_setPhase, show State.tasks _ = s.tasks from rfl, ht]
      simp
    | some g =>
      rw [htrigger] at hf
      obtain rfl := Option.some.inj hf
      obtain ⟨u, hu, hphase⟩ := h.failed g htrigger
      exact ⟨u, hkeeps.done _ u hu (by simp [Task.isDone, hphase]), hphase⟩
  · intro f
    refine since_cons.2 ⟨fun _ _ => List.not_mem_nil, (h.since f).mono fun after hafter j => ?_⟩
    rw [List.mem_cons, not_or]
    exact ⟨(fun h => by cases h), hafter j⟩
  · exact fun _ _ _ _ => rfl
  · refine h.caller.mono hkeeps (fun _ => rfl) hfirst (fun _ => Or.inr ?_) id
    show (s.trigger <|> some (Failure.mk i e)).isSome = true
    cases s.trigger <;> rfl

theorem Inv.finishMap {result : Except (Option ε) ρ} (h : Inv s) (ht : s.tasks[i]? = some t)
    (hrunning : t.isRunning = true) : Inv (s.finishMap i result) := by
  have hnot : t.isDone = false := Task.isDone_of_isRunning hrunning
  cases result with
  | ok r =>
    have hdone : Frame s (s.setPhase i (.done (.ok r))) := .setPhase ht hnot fun _ => Or.inl rfl
    exact (h.frame hdone).frame (.release _)
  | error e => exact (h.failMap ht hnot).frame (.release _)

/-- The caller goes to `cancel_and_settle`. -/
theorem Inv.cancelAndSettle (h : Inv s)
    (hcaller : CallerOk { s with abort := true, caller := caller } caller) :
    Inv (s.cancelAndSettle caller) := by
  have hset : Inv { s with abort := true, caller := caller } :=
    { h with
      aborted := fun _ _ _ _ => Or.inr rfl
      abort := fun _ => rfl
      requested := fun _ _ _ _ => rfl
      caller := hcaller }
  exact hset.frame (.cancelTasks rfl)

theorem raisedOk_ofTrigger (h : s.trigger.isSome = true) : RaisedOk s s.ofTrigger := by
  obtain ⟨f, hf⟩ := Option.isSome_iff_exists.1 h
  unfold State.ofTrigger
  rw [hf]
  exact hf

theorem Inv.cancelCaller (h : Inv s) (hs : s.cancelCaller = some s') : Inv s' := by
  have hcaller := h.caller
  unfold State.cancelCaller at hs
  split at hs
  · rename_i pending hwaiting
    obtain rfl := Option.some.inj hs
    exact { h with
      caller := h.caller.mono ⟨rfl, fun _ _ ht _ => ht⟩ id (fun _ => id) Or.inl fun _ => rfl }
  · rename_i raising interrupted hsettling
    obtain rfl := Option.some.inj hs
    rw [hsettling] at hcaller
    have hset : Inv { s with callerCancelled := true, caller := .settling raising true } :=
      { h with
        caller := ⟨hcaller.1, hcaller.2.1.mono (fun _ => id) fun _ => rfl, fun _ => rfl⟩ }
    exact hset.frame (.cancelTasks hcaller.1)
  · rename_i hresettling
    obtain rfl := Option.some.inj hs
    rw [hresettling] at hcaller
    have hset : Inv { s with callerCancelled := true } :=
      { h with
        caller := h.caller.mono ⟨rfl, fun _ _ ht _ => ht⟩ id (fun _ => id) Or.inl fun _ => rfl }
    exact hset.frame (.cancelTasks hcaller.1)
  · cases hs

theorem filterMap_result? : ∀ {l : List (Task ρ ε)}, (∀ t ∈ l, t.result?.isSome = true) →
    l.map Task.result? = (l.filterMap Task.result?).map some
  | [], _ => rfl
  | t :: l, h => by
    obtain ⟨ht, hl⟩ := List.forall_mem_cons.1 h
    obtain ⟨r, hr⟩ := Option.isSome_iff_exists.1 ht
    rw [List.map_cons, List.filterMap_cons, hr, List.map_cons, filterMap_result? hl]

/-- The tasks that the caller still waits for. -/
theorem done_or_mem_filter {pending : List ℕ}
    (hall : ∀ (i : ℕ) (t : Task ρ ε), s.tasks[i]? = some t →
      t.isDone = true ∨ i ∈ pending)
    (ht : s.tasks[i]? = some t) :
    t.isDone = true ∨ i ∈ pending.filter fun i => !(s.tasks[i]?).any Task.isDone := by
  by_cases hdone : t.isDone = true
  · exact Or.inl hdone
  · refine Or.inr (List.mem_filter.2 ⟨(hall i t ht).resolve_left hdone, ?_⟩)
    rw [ht]
    simpa using hdone

theorem Inv.wakeCaller (h : Inv s) (hs : s.wakeCaller = some s') : Inv s' := by
  have hcaller := h.caller
  unfold State.wakeCaller at hs
  split at hs
  · rename_i pending hwaiting
    rw [hwaiting] at hcaller
    obtain ⟨hne, hlt, hfailed, hall⟩ := hcaller
    split at hs
    · rename_i hcancelled
      obtain rfl := Option.some.inj hs
      exact h.cancelAndSettle ⟨rfl, hcancelled, nofun⟩
    · obtain ⟨-, hs⟩ := Option.ite_none_right_eq_some.1 hs
      split at hs
      · rename_i habort
        obtain rfl := Option.some.inj hs
        refine h.cancelAndSettle ⟨rfl, ?_, nofun⟩
        exact (raisedOk_ofTrigger (hfailed habort)).mono (fun _ => id) id
      · rename_i habort
        split at hs
        · rename_i hnil
          obtain rfl := Option.some.inj hs
          refine { h with caller := filterMap_result? fun t ht => ?_ }
          obtain ⟨i, hi⟩ := List.mem_iff_getElem?.1 ht
          rcases done_or_mem_filter hall hi with hdone | hmem
          · exact (h.aborted i t hi hdone).resolve_right habort
          · rw [hnil] at hmem
            cases hmem
        · rename_i rest hrest
          obtain rfl := Option.some.inj hs
          exact { h with
            caller := ⟨hrest, fun i hi => hlt i (List.mem_of_mem_filter hi), hfailed,
              fun i t ht => done_or_mem_filter hall ht⟩ }
  · rename_i raising interrupted hsettling
    rw [hsettling] at hcaller
    obtain ⟨hdone, hs⟩ := Option.ite_none_right_eq_some.1 hs
    split at hs
    · rename_i hinterrupted
      obtain rfl := Option.some.inj hs
      exact h.cancelAndSettle ⟨rfl, hcaller.2.2 hinterrupted⟩
    · obtain rfl := Option.some.inj hs
      exact { h with caller := ⟨List.all_eq_true.1 hdone, hcaller.2.1⟩ }
  · rename_i hresettling
    rw [hresettling] at hcaller
    obtain ⟨hdone, ⟨⟩⟩ := Option.ite_none_right_eq_some.1 hs
    exact { h with caller := ⟨List.all_eq_true.1 hdone, hcaller.2⟩ }
  · cases hs

theorem Inv.step {a : Act ρ ε} (h : Inv s) (hs : step s a = some s') : Inv s' := by
  cases a with
  | start i =>
    simp only [SynthesisMaps.step] at hs
    split at hs
    · rename_i t ht
      split at hs
      · rename_i hphase
        obtain rfl := Option.some.inj hs
        exact h.startTask ht hphase
      · cases hs
    · cases hs
  | resume i =>
    simp only [SynthesisMaps.step] at hs
    split at hs
    · rename_i t ht
      exact h.resumeTask ht hs
    · cases hs
  | finish i result =>
    simp only [SynthesisMaps.step] at hs
    split at hs
    · rename_i t ht
      obtain ⟨hrunning, ⟨⟩⟩ := Option.ite_none_right_eq_some.1 hs
      exact h.finishMap ht hrunning
    · cases hs
  | cancelCaller => exact h.cancelCaller hs
  | wakeCaller => exact h.wakeCaller hs

theorem inv_start (maxConcurrency n : ℕ) : Inv (start maxConcurrency n : State ρ ε) where
  aborted i t ht hdone := by
    obtain ⟨-, rfl⟩ := List.mem_replicate.1 (List.mem_of_getElem? ht)
    cases hdone
  trigger := rfl
  abort hno := by cases hno
  failed f hno := by cases hno
  since f := since_nil
  requested i t ht hrequested := by
    obtain ⟨-, rfl⟩ := List.mem_replicate.1 (List.mem_of_getElem? ht)
    cases hrequested
  caller := by
    by_cases hn : n = 0
    · subst hn
      rfl
    · have hcaller : (start maxConcurrency n : State ρ ε).caller = .waiting (List.range n) :=
        if_neg hn
      rw [hcaller]
      have hlen : (start maxConcurrency n : State ρ ε).tasks.length = n := List.length_replicate
      refine ⟨fun hnil => hn (List.range_eq_nil.1 hnil), fun i hi => ?_, nofun,
        fun i t ht => Or.inr ?_⟩
      · rw [hlen]
        exact List.mem_range.1 hi
      · rw [List.mem_range, ← hlen]
        exact (List.getElem?_eq_some_iff.1 ht).1

/-! ## Results -/

theorem total_of_reach {maxConcurrency n : ℕ} (h : Reach step (start maxConcurrency n) s) :
    total s = maxConcurrency := by
  refine h.invariant (I := fun s => total s = maxConcurrency) ?_ fun _ _ _ hi _ hs =>
    (total_step hs).trans hi
  show maxConcurrency + List.countP Task.holds (List.replicate n _) = maxConcurrency
  rw [List.countP_replicate]
  rfl

theorem running_le_held (s : State ρ ε) : s.tasks.countP Task.isRunning ≤ held s :=
  List.countP_mono_left fun _ _ => Task.holds_of_isRunning

/-- Where every map succeeded, no failure was recorded. -/
theorem Inv.trigger_none (h : Inv s) (hall : ∀ t ∈ s.tasks, t.result?.isSome = true) :
    s.trigger = none := by
  cases htrigger : s.trigger with
  | none => rfl
  | some f =>
    obtain ⟨t, ht, hphase⟩ := h.failed f htrigger
    have hok := hall t (List.mem_of_getElem? ht)
    simp [Task.result?, hphase] at hok

/-- Where every map succeeded and the caller was not cancelled, it has returned or returns next. -/
theorem Inv.returns (h : Inv s) (hall : ∀ t ∈ s.tasks, t.result?.isSome = true)
    (hcancelled : s.callerCancelled = false) :
    ∃ results, s.tasks.map Task.result? = results.map some ∧
      (s.caller = .returned results ∨
        s.wakeCaller.map (·.caller) = some (.returned results)) := by
  have hnone := h.trigger_none hall
  have hcaller := h.caller
  have hraised : ∀ e, ¬RaisedOk s e := by
    intro e he
    cases e with
    | callerCancelled => cases hcancelled.symm.trans he
    | failure f => cases hnone.symm.trans he
    | withoutTrigger => exact he
  cases hphase : s.caller with
  | waiting pending =>
    rw [hphase] at hcaller
    obtain ⟨hne, hlt, hfailed, -⟩ := hcaller
    have hdone : ∀ i ∈ pending, (s.tasks[i]?).any Task.isDone = true := by
      intro i hi
      rw [List.getElem?_eq_getElem (hlt i hi)]
      obtain ⟨r, hr⟩ := Option.isSome_iff_exists.1 (hall _ (List.getElem_mem (hlt i hi)))
      exact isDone_of_result? hr
    have habort : s.abort = false := by
      rw [← Bool.not_eq_true]
      intro ha
      have hsome := hfailed ha
      rw [hnone] at hsome
      cases hsome
    have hany : (pending.any fun i => (s.tasks[i]?).any Task.isDone) = true := by
      obtain ⟨i, rest, rfl⟩ := List.exists_cons_of_ne_nil hne
      exact List.any_eq_true.2 ⟨i, List.mem_cons_self, hdone i List.mem_cons_self⟩
    have hnil : (pending.filter fun i => !(s.tasks[i]?).any Task.isDone) = [] := by
      refine List.filter_eq_nil_iff.2 fun i hi => ?_
      rw [hdone i hi]
      decide
    refine ⟨s.tasks.filterMap Task.result?, filterMap_result? hall, Or.inr ?_⟩
    unfold State.wakeCaller
    simp only [hphase, hcancelled, hany, habort, hnil, Bool.false_eq_true, if_false, if_true]
    rfl
  | settling raising interrupted =>
    rw [hphase] at hcaller
    exact absurd hcaller.2.1 (hraised raising)
  | resettling =>
    rw [hphase] at hcaller
    cases hcancelled.symm.trans hcaller.2
  | returned results =>
    rw [hphase] at hcaller
    exact ⟨results, hcaller, Or.inl rfl⟩
  | raised e =>
    rw [hphase] at hcaller
    exact absurd hcaller.2 (hraised e)

/-- The call has returned or raised. -/
def Caller.isEnded : Caller ρ ε → Bool
  | .returned _ => true
  | .raised _ => true
  | _ => false

/-- Whatever is cancelled and in whatever order the maps end : when the call ends all its tasks are
done, at most `maxConcurrency` maps run at once, and none starts after a failure was recorded. It
returns only the results of all clusters, in order, and does so when every map succeeded and the
caller was not cancelled. It raises only the cancellation of the caller or the first failure. -/
theorem maps_settled (maxConcurrency n : ℕ) {s : State ρ ε}
    (h : Reach step (start maxConcurrency n) s) :
    (s.caller.isEnded = true → ∀ t ∈ s.tasks, t.isDone = true) ∧
    s.tasks.countP Task.isRunning ≤ maxConcurrency ∧
    (∀ f, Since (.recorded f) (fun after => ∀ i, .started i ∉ after) s.log) ∧
    (∀ results, s.caller = .returned results →
      s.tasks.map Task.result? = results.map some) ∧
    (∀ e, s.caller = .raised e → (e = .callerCancelled ∧ s.callerCancelled = true) ∨
      ∃ f, e = .failure f ∧ s.failures.getLast? = some f) ∧
    ((∀ t ∈ s.tasks, t.result?.isSome = true) → s.callerCancelled = false →
      ∃ results, s.tasks.map Task.result? = results.map some ∧
        (s.caller = .returned results ∨
          s.wakeCaller.map (·.caller) = some (.returned results))) := by
  have hinv : Inv s := h.invariant (inv_start maxConcurrency n) fun _ _ _ hi _ hs => hi.step hs
  have hcaller := hinv.caller
  refine ⟨fun hended => ?_, ?_, hinv.since, fun results hreturned => ?_, fun e hraised => ?_,
    hinv.returns⟩
  · unfold Caller.isEnded at hended
    split at hended
    · rename_i results hreturned
      rw [hreturned] at hcaller
      intro t ht
      have hmem : t.result? ∈ results.map some := hcaller ▸ List.mem_map_of_mem ht
      obtain ⟨r, -, hr⟩ := List.mem_map.1 hmem
      exact isDone_of_result? hr.symm
    · rename_i e hraised
      rw [hraised] at hcaller
      exact hcaller.1
    · cases hended
  · have htotal := total_of_reach h
    have hle := running_le_held s
    unfold total at htotal
    omega
  · rw [hreturned] at hcaller
    exact hcaller
  · rw [hraised] at hcaller
    obtain ⟨-, hok⟩ := hcaller
    cases e with
    | callerCancelled => exact Or.inl ⟨rfl, hok⟩
    | failure f => exact Or.inr ⟨f, rfl, hinv.trigger.symm.trans hok⟩
    | withoutTrigger => exact hok.elim

/-- The first map fails while a second one runs and a third one waits, and the caller is cancelled
while it cleans up. -/
theorem maps_settled_failing : ∃ s : State ℕ String, execute step (start 2 3)
      [.start 0, .start 1, .start 2, .finish 0 (.error (some "overloaded")), .wakeCaller,
        .cancelCaller, .resume 2, .finish 1 (.ok 5), .wakeCaller, .wakeCaller] = some s ∧
    s.caller = .raised .callerCancelled ∧ (∀ t ∈ s.tasks, t.isDone = true) ∧
    s.log = [.recorded ⟨0, some "overloaded"⟩, .started 1, .started 0] := by
  have hsome : ((execute step (start 2 3 : State ℕ String)
      [.start 0, .start 1, .start 2, .finish 0 (.error (some "overloaded")), .wakeCaller,
        .cancelCaller, .resume 2, .finish 1 (.ok 5), .wakeCaller, .wakeCaller]).any
        fun s => s.caller = .raised .callerCancelled ∧
          s.log = [.recorded ⟨0, some "overloaded"⟩, .started 1, .started 0]) = true := by
    decide
  obtain ⟨s, hs, hall⟩ := (Option.any_eq_true _ _).1 hsome
  obtain ⟨hraised, hlog⟩ := of_decide_eq_true hall
  refine ⟨s, hs, hraised, (maps_settled 2 3 (.of_execute _ hs)).1 ?_, hlog⟩
  rw [hraised]
  rfl

/-- The only map succeeds, and a cancellation reaches the caller before it wakes. -/
theorem cancelled_after_success : ∃ s : State ℕ String, Reach step (start 1 1) s ∧
    s.tasks.map Task.result? = [some 5] ∧ s.caller = .raised .callerCancelled := by
  have hsome : ((execute step (start 1 1 : State ℕ String) [.start 0, .finish 0 (.ok 5),
      .cancelCaller, .wakeCaller, .wakeCaller]).any fun s =>
        s.tasks.map Task.result? = [some 5] ∧ s.caller = .raised .callerCancelled) = true := by
    decide
  obtain ⟨s, hs, hall⟩ := (Option.any_eq_true _ _).1 hsome
  exact ⟨s, .of_execute _ hs, of_decide_eq_true hall⟩

end Settling

end ChunkHound.SynthesisMaps
