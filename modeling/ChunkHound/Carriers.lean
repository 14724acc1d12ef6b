import ChunkHound.Realtime
import Mathlib.Logic.Relation

/-!
# Carriers of pending mutations

A registered mutation is carried by one that waits, in the file queue, in a debounce task or
in a retry task : the registrations are wired to the mutations that wait (`Queues.Wired`) in
every state the pipeline reaches while no mutation is taken whose path cannot be normalised : such
a one is out of the queue and stays registered (`raised_at_dequeue`). What the worker holds was
released when it was taken.

Most steps only add to the queues (`Queued`). The carriers can always be drained
(`Queues.drains`), and then nothing is registered.
-/

namespace ChunkHound

/-! ## Draining the carriers -/

namespace Queues

/-- A carrier goes on : a timer fires, or the worker takes a mutation. -/
inductive Carry (latest : Generations) : Queues → Queues → Prop
  | debounce {q q' : Queues} (i : ℕ) : q.debounceFires i = some q' → Carry latest q q'
  | retry {q q' : Queues} (i : ℕ) : q.retryFires latest i = some q' → Carry latest q q'
  | take {q q' : Queues} (m : Mutation) (owned : Bool) : q.dequeue latest = some (m, owned, q') →
      Carry latest q q'

/-- How far the carriers are from the worker. -/
def distance (q : Queues) : ℕ :=
  2 * (q.debounceTasks.length + q.retryTasks.length) + q.fileQueue.length

section Drain

variable {q q' : Queues} {latest : Generations}

theorem Carry.wired (h : q.Wired) (hc : Carry latest q q') : q'.Wired := by
  cases hc with
  | debounce i hf =>
    have hgrows : Grows latest q q' := debounceFires_grows h hf
    exact hgrows.wired
  | retry i hf => exact (retryFires_grows h hf).wired
  | take m owned hd => exact (dequeue_taken h hd).wired

/-- A release moves nothing. -/
theorem release_tasks (q : Queues) (m : Mutation) :
    (q.release m).fileQueue = q.fileQueue ∧ (q.release m).debounceTasks = q.debounceTasks ∧
      (q.release m).retryTasks = q.retryTasks := by
  unfold release
  split <;> exact ⟨rfl, rfl, rfl⟩

theorem distance_release (q : Queues) (m : Mutation) : (q.release m).distance = q.distance := by
  obtain ⟨hfile, hdebounce, hretry⟩ := release_tasks q m
  rw [distance, hfile, hdebounce, hretry, distance]

theorem distance_put (q : Queues) (m : Mutation) : (q.put m).distance = q.distance + 1 := by
  simp [distance, put]
  omega

theorem debounceFires_distance {i : ℕ} (hf : q.debounceFires i = some q') :
    q'.distance < q.distance := by
  obtain ⟨m, hi, rfl⟩ := Option.map_eq_some_iff.1 hf
  have hlt : i < q.debounceTasks.length := (List.getElem?_eq_some_iff.1 hi).1
  have herase : distance { q with debounceTasks := q.debounceTasks.eraseIdx i } + 2 =
      q.distance := by
    simp only [distance, List.length_eraseIdx_of_lt hlt]
    omega
  have hfire : ∀ r : Queues, r.fileQueue = q.fileQueue →
      r.debounceTasks = q.debounceTasks.eraseIdx i → r.retryTasks = q.retryTasks →
      r.distance + 2 = q.distance := by
    intro r hfile hdebounce hretry
    rw [← herase, distance, distance, hfile, hdebounce, hretry]
  simp only
  split
  · split
    · rw [distance_put]
      have hr := hfire { q with
        debounceTasks := q.debounceTasks.eraseIdx i
        pendingDebounce := Function.update q.pendingDebounce m.path false } rfl rfl rfl
      omega
    · rw [distance_release]
      have hr := hfire { q with
        debounceTasks := q.debounceTasks.eraseIdx i
        pendingDebounce := Function.update q.pendingDebounce m.path false } rfl rfl rfl
      omega
  · rw [distance_release]
    omega

theorem retryFires_distance {i : ℕ} (hf : q.retryFires latest i = some q') :
    q'.distance < q.distance := by
  obtain ⟨m, hi, rfl⟩ := Option.map_eq_some_iff.1 hf
  have hlt : i < q.retryTasks.length := (List.getElem?_eq_some_iff.1 hi).1
  have herase : distance { q with retryTasks := q.retryTasks.eraseIdx i } + 2 = q.distance := by
    simp only [distance, List.length_eraseIdx_of_lt hlt]
    omega
  simp only
  split
  · omega
  · split
    · rw [distance_release]
      omega
    · rw [distance_put]
      omega

theorem dequeue_distance {m : Mutation} {owned : Bool}
    (hd : q.dequeue latest = some (m, owned, q')) :
    q'.distance < q.distance := by
  obtain ⟨⟨x, rest⟩, hpop, heq⟩ := Option.map_eq_some_iff.1 hd
  obtain ⟨rfl, hrest⟩ := Prod.mk.inj heq
  obtain ⟨rfl, rfl⟩ := Prod.mk.inj hrest
  have hlen := (popMin_perm hpop).length_eq
  rw [distance_release]
  simp only [List.length_cons] at hlen
  simp only [distance]
  omega

theorem Carry.distance_lt (hc : Carry latest q q') : q'.distance < q.distance := by
  cases hc with
  | debounce i hf => exact debounceFires_distance hf
  | retry i hf => exact retryFires_distance hf
  | take m owned hd => exact dequeue_distance hd

/-- While a mutation waits, a carrier can go on. -/
theorem exists_carry (latest : Generations) (hne : q.items ≠ []) : ∃ q', Carry latest q q' := by
  cases hdebounce : q.debounceTasks with
  | cons m ms =>
    exact ⟨_, .debounce 0 (by simp [debounceFires, hdebounce]; rfl)⟩
  | nil =>
    cases hretry : q.retryTasks with
    | cons m ms => exact ⟨_, .retry 0 (by simp [retryFires, hretry]; rfl)⟩
    | nil =>
      cases hd : q.dequeue latest with
      | none =>
        have hpop : popMin q.fileQueue = none := Option.map_eq_none_iff.1 hd
        simp [items, hdebounce, hretry, popMin_eq_none hpop] at hne
      | some r => exact ⟨r.2.2, .take r.1 r.2.1 hd⟩

/-- With no carrier left nothing is registered. -/
theorem Wired.pending_none (h : q.Wired) (hitems : q.items = []) (key : Operation × String) :
    q.pendingMutations key = none := by
  cases hp : q.pendingMutations key with
  | none => rfl
  | some m =>
    obtain ⟨-, x, hx, -⟩ := h.pending key m hp
    rw [hitems] at hx
    cases hx

/-- The carriers can be drained. -/
theorem drains (latest : Generations) (start : Queues) :
    ∃ q', Relation.ReflTransGen (Carry latest) start q' ∧ q'.items = [] := by
  by_cases hne : start.items = []
  · exact ⟨start, .refl, hne⟩
  · obtain ⟨q₁, hc⟩ := exists_carry latest hne
    have hlt := hc.distance_lt
    obtain ⟨q', hrun, hempty⟩ := drains latest q₁
    exact ⟨q', .head hc hrun, hempty⟩
termination_by start.distance

theorem Wired.carried (h : q.Wired) (hrun : Relation.ReflTransGen (Carry latest) q q') :
    q'.Wired := by
  induction hrun with
  | refl => exact h
  | tail _ hc ih => exact hc.wired ih

/-- A registered mutation has exactly one carrier. -/
theorem Wired.one_carrier (h : q.Wired) {key : Operation × String} {m : Mutation}
    (hm : q.pendingMutations key = some m) :
    ∃ x, q.items.filter (fun y => y.mutationId = m.mutationId) = [x] ∧ x.key = key := by
  obtain ⟨-, x, hx, hid, hkey, -⟩ := h.pending key m hm
  refine ⟨x, ?_, hkey⟩
  obtain ⟨before, after, hsplit⟩ := List.append_of_mem hx
  have hnd := h.ids
  rw [hsplit, List.map_append, List.map_cons, List.nodup_append, List.nodup_cons] at hnd
  obtain ⟨-, ⟨hafter, -⟩, hcross⟩ := hnd
  have hbefore : before.filter (fun y => y.mutationId = m.mutationId) = [] := by
    refine List.filter_eq_nil_iff.2 fun y hy heq => ?_
    have heq : y.mutationId = m.mutationId := by simpa using heq
    exact hcross _ (List.mem_map_of_mem hy) _ List.mem_cons_self (heq.trans hid.symm)
  have hrest : after.filter (fun y => y.mutationId = m.mutationId) = [] := by
    refine List.filter_eq_nil_iff.2 fun y hy heq => ?_
    have heq : y.mutationId = m.mutationId := by simpa using heq
    refine hafter ?_
    rw [hid, ← heq]
    exact List.mem_map_of_mem hy
  rw [hsplit, List.filter_append, List.filter_cons_of_pos (by simpa using hid), hbefore, hrest]
  rfl

end Drain

end Queues

/-! ## The invariant of the pipeline -/

namespace Realtime

open StepSystem

/-- A delete carries the generation of the event it comes from. -/
def Dated (m : Mutation) : Prop :=
  m.operation = .delete ∨ m.operation = .dirDelete → m.sourceGeneration.isSome

theorem dated_of_reads {m : Mutation} (hop : m.operation = .change ∨ m.operation = .scan) :
    Dated m := by
  rintro (hd | hd)
  · rcases hop with hop | hop <;> simp [hd] at hop
  · rcases hop with hop | hop <;> simp [hd] at hop

/-- The mutation kept aside by a batch of deletes. -/
def Buffered (buffered : Option (Mutation × Bool)) : Prop :=
  ∀ d, buffered = some d → d.1.operation ≠ .delete ∧ Dated d.1

/-- The mutation kept aside for the next turn of the worker. -/
def Worker.buffered : Worker → Option (Mutation × Bool)
  | .idle buffered | .deleting _ buffered => buffered
  | _ => none

/-- The worker holds mutations of the operation it carries out. -/
def Worker.Sound : Worker → Prop
  | .idle buffered => Buffered buffered
  | .processing m _ => m.operation = .change ∨ m.operation = .scan
  | .deleting batch buffered => (∀ m ∈ batch, m.operation = .delete ∧ Dated m) ∧ Buffered buffered
  | .cleaningDirectory m => m.operation = .dirDelete ∧ Dated m
  | .indexingDirectory m => m.operation = .dirIndex
  | .embedding m => m.operation = .embed

/-- The worker neither reads nor deletes. -/
def Worker.Side : Worker → Prop
  | .cleaningDirectory _ | .indexingDirectory _ | .embedding _ => True
  | _ => False

structure Inv (s : State) : Prop where
  wired : s.queues.Wired
  events : ∀ e ∈ s.eventQueue, (s.latestSourceGeneration e.2).isSome
  worker : s.worker.Sound

/-- Nothing but the queues changes, where mutations are only added, and the failed files. -/
structure Queued (s s' : State) : Prop where
  grows : Queues.Grows s.latestSourceGeneration s.queues s'.queues
  rest : s' = { s with queues := s'.queues, failedFiles := s'.failedFiles }
  failed : ∀ p, s.failedFiles p = true → s'.failedFiles p = true

section Queued

variable {s s₁ s' : State}

theorem Queued.latest (h : Queued s s') :
    s'.latestSourceGeneration = s.latestSourceGeneration := by rw [h.rest]

theorem Queued.worker (h : Queued s s') : s'.worker = s.worker := by rw [h.rest]

theorem Queued.events (h : Queued s s') : s'.eventQueue = s.eventQueue := by rw [h.rest]

theorem Queued.refl (h : s.queues.Wired) : Queued s s := ⟨.refl h, rfl, fun _ => id⟩

theorem Queued.trans (h : Queued s s₁) (h' : Queued s₁ s') : Queued s s' where
  grows := h.grows.trans (h.latest ▸ h'.grows)
  rest := by
    rw [h'.rest, h.rest]
  failed p hp := h'.failed p (h.failed p hp)

/-- A step for each element of a list, each only adding to the queues. -/
theorem queued_foldl {β : Type*} {f : State → β → State} {P : β → Prop}
    (hf : ∀ s b, s.queues.Wired → P b → Queued s (f s b)) :
    ∀ (bs : List β) {s : State}, s.queues.Wired → (∀ b ∈ bs, P b) → Queued s (bs.foldl f s)
  | [], _, h, _ => .refl h
  | b :: bs, s, h, hb => by
    have hfirst := hf s b h (hb b List.mem_cons_self)
    exact hfirst.trans (queued_foldl hf bs hfirst.grows.wired fun c hc =>
      hb c (List.mem_cons_of_mem b hc))

theorem Inv.queued (h : Inv s) (hq : Queued s s') : Inv s' where
  wired := hq.grows.wired
  events := by
    rw [hq.events, hq.latest]
    exact h.events
  worker := by
    rw [hq.worker]
    exact h.worker

theorem fail_self (s : State) (path : String) : (s.fail path).failedFiles path = true :=
  Function.update_self ..

theorem fail_mono (s : State) (path : String) {p : String} (hp : s.failedFiles p = true) :
    (s.fail path).failedFiles p = true := by
  simp only [State.fail, Function.update_apply]
  split
  · rfl
  · exact hp

theorem queued_fail (h : s.queues.Wired) (path : String) : Queued s (s.fail path) :=
  ⟨.refl h, rfl, fun _ hp => fail_mono s path hp⟩

theorem queued_addFile (h : s.queues.Wired) (path : String) (priority : AddPriority) :
    Queued s (s.addFile path priority) :=
  ⟨Queues.addFile_grows h .., rfl, fun _ => id⟩

theorem queued_enqueue (h : s.queues.Wired) {operation : Operation} {path : String}
    {generation : Option ℕ}
    (hdated : operation = .delete ∨ operation = .dirDelete → generation.isSome) :
    Queued s (s.enqueue operation path generation) :=
  ⟨Queues.enqueueNew_grows h hdated, rfl, fun _ => id⟩

theorem queued_refresh (h : s.queues.Wired) (path : String) :
    Queued s (s.refreshPendingChange path) :=
  ⟨Queues.refreshPendingChange_grows h .., rfl, fun _ => id⟩

theorem queued_retryOrFail (h : s.queues.Wired) {m : Mutation} (hdated : Dated m) :
    Queued s (s.retryOrFail m) := by
  unfold State.retryOrFail
  split
  · rename_i q hq
    exact ⟨(Queues.scheduleRetry_spec h hdated hq).1, rfl, fun _ => id⟩
  · exact queued_fail h m.path

theorem queued_retryDelete (h : s.queues.Wired) {m : Mutation} (hdated : Dated m) :
    Queued s (s.retryDelete m) := by
  unfold State.retryDelete Queues.scheduleDeleteRetry
  split
  · rename_i q hq
    split at hq
    · obtain rfl := Option.some.inj hq
      exact .refl h
    · exact ⟨(Queues.scheduleRetry_spec h hdated hq).1, rfl, fun _ => id⟩
  · exact queued_fail h m.path

theorem queued_reschedule (h : s.queues.Wired) (outcome : Outcome) {m : Mutation}
    (hdated : Dated m) : Queued s (s.reschedule outcome m) := by
  unfold State.reschedule
  split
  · rename_i q hq
    split at hq
    · unfold Queues.scheduleDeleteRetry at hq
      split at hq
      · obtain rfl := Option.some.inj hq
        exact .refl h
      · exact ⟨(Queues.scheduleRetry_spec h hdated hq).1, rfl, fun _ => id⟩
    · exact ⟨(Queues.scheduleRetry_spec h hdated hq).1, rfl, fun _ => id⟩
  · exact .refl h

end Queued

/-! ## Steps keep the invariant -/

section Steps

variable {s s' : State}

theorem inv_init (disk rows : String → Bool) : Inv (init disk rows) where
  wired := Queues.wired_empty
  events _ h := nomatch h
  worker _ h := nomatch h

theorem Inv.withWorker (h : Inv s) {w : Worker} (hw : w.Sound) : Inv { s with worker := w } :=
  ⟨h.wired, h.events, hw⟩

theorem Inv.fail (h : Inv s) (path : String) : Inv (s.fail path) :=
  h.queued (queued_fail h.wired path)

theorem Inv.addFile (h : Inv s) (path : String) (priority : AddPriority) :
    Inv (s.addFile path priority) :=
  h.queued (queued_addFile h.wired path priority)

variable {m : Mutation}

theorem Inv.retryOrFail (h : Inv s) (hdated : Dated m) : Inv (s.retryOrFail m) :=
  h.queued (queued_retryOrFail h.wired hdated)

theorem inv_advanced (h : Inv s) (path : String) : Inv (s.advanceGeneration path) where
  wired := h.wired
  events e he := by
    simp only [State.advanceGeneration, Function.update_apply]
    split
    · rfl
    · exact h.events e he
  worker := h.worker

theorem inv_report (h : Inv s) (event : EventType) (path : String) : Inv (s.report event path) := by
  cases event <;> exact ⟨h.wired, h.events, h.worker⟩

theorem inv_recordAccepted (h : Inv s) (event : EventType) (path : String) :
    Inv (s.recordAccepted event path) := by
  have hadvanced := inv_advanced (inv_report h event path) path
  exact hadvanced.queued (queued_refresh hadvanced.wired path)

theorem recordAccepted_latest (s : State) (event : EventType) (path : String) :
    (s.recordAccepted event path).latestSourceGeneration =
      Function.update s.latestSourceGeneration path (some (s.nextSourceGeneration + 1)) := by
  cases event <;> rfl

/-- An accepted event gives its path a generation. -/
theorem recordAccepted_isSome (s : State) (event : EventType) (path : String) :
    ((s.recordAccepted event path).latestSourceGeneration path).isSome := by
  rw [recordAccepted_latest, Function.update_self]
  rfl

/-- An event is recorded and queued, or refused. -/
theorem accept_eq (s : State) (event : EventType) (path : String) :
    s.accept event path =
      if s.eventQueue.length < eventQueueMaxsize then
        { s.recordAccepted event path with eventQueue := s.eventQueue ++ [(event, path)] }
      else s := by
  unfold State.accept
  cases event <;> rfl

theorem inv_accept (h : Inv s) (event : EventType) (path : String) : Inv (s.accept event path) := by
  rw [accept_eq]
  split
  · have hrecorded := inv_recordAccepted h event path
    have hold : (s.recordAccepted event path).eventQueue = s.eventQueue := by cases event <;> rfl
    refine ⟨hrecorded.wired, fun e he => ?_, hrecorded.worker⟩
    rcases List.mem_append.1 he with he | he
    · exact hrecorded.events e (hold ▸ he)
    · rw [List.mem_singleton.1 he]
      exact recordAccepted_isSome s event path
  · exact h

/-- The state in which an event is handled that is no duplicate. -/
def State.remember (s : State) (event : EventType) (path : String)
    (rest : List (EventType × String)) : State :=
  { s with
    eventQueue := rest
    recentFileEvents := Function.update s.recentFileEvents path (some event) }

/-- An event is dropped as a duplicate, or handled. -/
theorem consume_cases (h : Inv s) {inWindow : Bool} (hs : s.consume inWindow = some s') :
    ∃ event path rest, s.eventQueue = (event, path) :: rest ∧
      (s.latestSourceGeneration path).isSome ∧
        ((s.recentFileEvents path = some event ∧ inWindow = true ∧
          s' = { s with eventQueue := rest }) ∨
        s' = (s.remember event path rest).handleEvent event path) := by
  unfold State.consume at hs
  split at hs
  · cases hs
  · rename_i event path rest hqueue
    refine ⟨event, path, rest, hqueue, h.events (event, path) (hqueue ▸ List.mem_cons_self), ?_⟩
    simp only at hs
    split at hs
    · rename_i hdup
      exact Or.inl ⟨hdup.1, hdup.2, (Option.some.inj hs).symm⟩
    · exact Or.inr (Option.some.inj hs).symm

theorem queued_handleEvent (h : s.queues.Wired) (event : EventType) {path : String}
    (hlatest : (s.latestSourceGeneration path).isSome) : Queued s (s.handleEvent event path) := by
  unfold State.handleEvent
  split
  · exact queued_addFile h path .change
  · exact queued_addFile h path .change
  · exact queued_enqueue h fun _ => hlatest
  · exact queued_enqueue h fun hop => by simp at hop
  · exact queued_enqueue h fun _ => hlatest

theorem inv_consume (h : Inv s) {inWindow : Bool} (hs : s.consume inWindow = some s') :
    Inv s' := by
  obtain ⟨event, path, rest, hqueue, hlatest, hcase⟩ := consume_cases h hs
  have hevents : ∀ e ∈ rest, (s.latestSourceGeneration e.2).isSome := fun e he =>
    h.events e (hqueue ▸ List.mem_cons_of_mem _ he)
  rcases hcase with ⟨-, -, rfl⟩ | rfl
  · exact ⟨h.wired, hevents, h.worker⟩
  · have hinv : Inv (s.remember event path rest) := ⟨h.wired, hevents, h.worker⟩
    exact hinv.queued (queued_handleEvent hinv.wired event hlatest)

/-- The event is lost. -/
theorem consumeRaises_cases (hs : s.consumeRaises = some s') :
    ∃ event path rest, s.eventQueue = (event, path) :: rest ∧ s' = s.remember event path rest := by
  unfold State.consumeRaises at hs
  split at hs
  · cases hs
  · rename_i event path rest hqueue
    exact ⟨event, path, rest, hqueue, (Option.some.inj hs).symm⟩

theorem inv_consumeRaises (h : Inv s) (hs : s.consumeRaises = some s') : Inv s' := by
  obtain ⟨event, path, rest, hqueue, rfl⟩ := consumeRaises_cases hs
  exact ⟨h.wired, fun e he => h.events e (hqueue ▸ List.mem_cons_of_mem _ he), h.worker⟩

theorem inv_pollChanged (h : Inv s) (path : String) : Inv (s.pollChanged path) := by
  have hadded := h.addFile path .change
  unfold State.pollChanged
  simp only
  split
  · exact inv_recordAccepted hadded .modified path
  · have hadvanced := inv_advanced hadded path
    have hrefreshed := hadvanced.queued (queued_refresh hadvanced.wired path)
    exact ⟨Queues.reserve_wired hrefreshed.wired .., hrefreshed.events, hrefreshed.worker⟩

theorem inv_pollDeleted (h : Inv s) (path : String) : Inv (s.pollDeleted path) := by
  have hrecorded := inv_recordAccepted h .deleted path
  exact hrecorded.queued (queued_enqueue hrecorded.wired fun _ =>
    recordAccepted_isSome s .deleted path)

theorem buffered_collected {latest : Generations} {q : Queues} {batch : List (Mutation × Bool)}
    {r : List (Mutation × Bool) × Option (Mutation × Bool) × Queues}
    (hc : Queues.Collected latest q batch r) : Buffered r.2.1 := fun d hd =>
  ⟨(hc.buffered d hd).1, fun hdop =>
    hdop.elim (fun h => absurd h (hc.buffered d hd).1) (hc.buffered d hd).2⟩

/-- The worker begins with a mutation, whatever it did before. -/
theorem inv_begin (hwired : s.queues.Wired)
    (hevents : ∀ e ∈ s.eventQueue, (s.latestSourceGeneration e.2).isSome)
    (hdated : Dated m) (owned : Bool) : Inv (s.begin m owned) := by
  have hidle : Inv { s with worker := .idle none } :=
    ⟨hwired, hevents, fun _ hd => nomatch hd⟩
  unfold State.begin
  split
  · rename_i hop
    split
    · exact ⟨hwired, hevents, Or.inl hop⟩
    · exact hidle.fail m.path
  · rename_i hop
    split
    · exact ⟨hwired, hevents, Or.inr hop⟩
    · exact hidle.fail m.path
  · rename_i hop
    have hc := Queues.collectDeletes_collected s.latestSourceGeneration (deleteBatchSize - 1)
      [(m, owned)] hwired
    simp only
    split
    · exact ⟨hc.wired, hevents, buffered_collected hc⟩
    · refine ⟨hc.wired, hevents, fun x hx => ?_, buffered_collected hc⟩
      obtain ⟨d, hd, rfl⟩ := List.mem_map.1 hx
      rcases hc.deletes d (List.mem_of_mem_filter hd) with hfirst | ⟨hdop, hsome⟩
      · rw [List.mem_singleton.1 hfirst]
        exact ⟨hop, hdated⟩
      · exact ⟨hdop, fun _ => hsome⟩
  · rename_i hop
    exact ⟨hwired, hevents, hop, hdated⟩
  · rename_i hop
    exact ⟨hwired, hevents, hop⟩
  · rename_i hop
    exact ⟨hwired, hevents, hop⟩

/-- The worker at rest goes on with a mutation, one kept aside or one from the queue, and only that
one no longer waits. -/
structure Takes (s t : State) (m : Mutation) (owned : Bool) : Prop where
  idle : ∃ buffered, s.worker = .idle buffered
  rest : t = { s with queues := t.queues, worker := t.worker, held := some m.path }
  wired : t.queues.Wired
  dated : Dated m
  change : ∀ p, s.queues.HasChange p → t.queues.HasChange p ∨ m.Reads p
  delete : ∀ p, s.queues.HasDelete s.latestSourceGeneration p →
    t.queues.HasDelete s.latestSourceGeneration p ∨
      (m.key = (.delete, p) ∧ owned = true ∧ m.stale s.latestSourceGeneration = false)
  buffered : ∀ d, s.worker.buffered = some d → d.1 = m

theorem takes_next (h : Inv s) {t : State} {owned : Bool}
    (hn : s.next = some (m, owned, t)) : Takes s t m owned := by
  unfold State.next at hn
  split at hn
  · rename_i m' owned' hworker
    obtain ⟨rfl, hrest⟩ := Prod.mk.inj (Option.some.inj hn)
    obtain ⟨rfl, rfl⟩ := Prod.mk.inj hrest
    have hb : Buffered (some (m', owned')) := by
      have hsound := h.worker
      rwa [hworker] at hsound
    refine ⟨⟨_, hworker⟩, rfl, h.wired, (hb _ rfl).2, fun _ => Or.inl, fun _ => Or.inl,
      fun d hd => ?_⟩
    rw [hworker] at hd
    rw [← Option.some.inj hd]
  · rename_i hworker
    obtain ⟨⟨m', owned', q⟩, hd, heq⟩ := Option.map_eq_some_iff.1 hn
    obtain ⟨rfl, hrest⟩ := Prod.mk.inj heq
    obtain ⟨rfl, rfl⟩ := Prod.mk.inj hrest
    have ht := Queues.dequeue_taken h.wired hd
    refine ⟨⟨_, hworker⟩, rfl, ht.wired, ht.dated, ht.change, ht.delete, fun d hd => ?_⟩
    rw [hworker] at hd
    cases hd
  · cases hn

theorem Takes.events {t : State} {owned : Bool} (ht : Takes s t m owned)
    (h : Inv s) : ∀ e ∈ t.eventQueue, (t.latestSourceGeneration e.2).isSome := by
  rw [ht.rest]
  exact h.events

theorem take_cases (h : Inv s) (hs : s.take = some s') :
    ∃ t m owned, Takes s t m owned ∧ s' = t.begin m owned := by
  obtain ⟨⟨m, owned, t⟩, hn, rfl⟩ := Option.map_eq_some_iff.1 hs
  exact ⟨t, m, owned, takes_next h hn, rfl⟩

theorem inv_take (h : Inv s) (hs : s.take = some s') : Inv s' := by
  obtain ⟨t, m, owned, ht, rfl⟩ := take_cases h hs
  exact inv_begin ht.wired (ht.events h) ht.dated owned

/-- A staleness check raises : the batch of deletes is taken, and the first of it fails. -/
theorem checkRaises_cases (h : Inv s) (hs : s.checkRaises = some s') :
    ∃ t m owned batch buffered queues, Takes s t m owned ∧ m.operation = .delete ∧
      Queues.collectDeletes t.latestSourceGeneration (deleteBatchSize - 1) t.queues
        [(m, owned)] = (batch, buffered, queues) ∧
      s' = { t with queues := queues, worker := .idle buffered }.fail m.path := by
  obtain ⟨⟨m, owned, t⟩, hn, hs⟩ := Option.bind_eq_some_iff.1 hs
  simp only at hs
  split at hs
  · rename_i hop
    exact ⟨t, m, owned, _, _, _, takes_next h hn, hop, rfl, (Option.some.inj hs).symm⟩
  · cases hs

theorem inv_checkRaises (h : Inv s) (hs : s.checkRaises = some s') : Inv s' := by
  obtain ⟨t, m, owned, batch, buffered, queues, ht, -, hcollect, rfl⟩ := checkRaises_cases h hs
  have hc := Queues.collectDeletes_collected t.latestSourceGeneration (deleteBatchSize - 1)
    [(m, owned)] ht.wired
  rw [hcollect] at hc
  have hidle : Inv { t with queues := queues, worker := .idle buffered } :=
    ⟨hc.wired, ht.events h, buffered_collected hc⟩
  exact hidle.fail m.path

theorem inv_endReading (h : Inv s) (path : String) : Inv (s.endReading path) :=
  ⟨Queues.drain_wired h.wired path, h.events, fun _ hd => nomatch hd⟩

theorem inv_finishProcessing (h : Inv s)
    (hop : m.operation = .change ∨ m.operation = .scan) (fresh : Bool) (outcome : Outcome)
    (wrote : Bool) : Inv (s.finishProcessing m fresh outcome wrote) := by
  have hrows : Inv { s with rows := Function.update s.rows m.path (s.rows m.path || wrote) } :=
    ⟨h.wired, h.events, h.worker⟩
  have hended := inv_endReading hrows m.path
  have hreturned : ∀ seen, Inv (({ s with
      rows := Function.update s.rows m.path (s.rows m.path || wrote)
      read := Function.update s.read m.path (s.read m.path || seen)
      recentFileEvents := Function.update s.recentFileEvents m.path none }.addFile
        m.path .embed).endReading m.path) := fun seen => by
    have hread : Inv { s with
        rows := Function.update s.rows m.path (s.rows m.path || wrote)
        read := Function.update s.read m.path (s.read m.path || seen)
        recentFileEvents := Function.update s.recentFileEvents m.path none } :=
      ⟨h.wired, h.events, h.worker⟩
    exact inv_endReading (hread.addFile m.path .embed) m.path
  unfold State.finishProcessing
  simp only
  split
  · exact hreturned fresh
  · exact hreturned false
  · exact hended.retryOrFail (dated_of_reads hop)
  · exact hended.fail m.path

variable {batch : List Mutation}

/-- A batch of deletes that is not carried out is queued again, or fails. -/
theorem queued_finishDelete (h : s.queues.Wired)
    (hdated : ∀ m ∈ batch, Dated m) (buffered : Option (Mutation × Bool)) (outcome : Outcome)
    (deleted : List String) :
    Queued (s.endDelete batch buffered deleted)
      (s.finishDelete batch buffered outcome deleted) := by
  unfold State.finishDelete
  simp only
  split
  · exact .refl h
  · exact .refl h
  · exact queued_foldl (f := State.retryDelete) (P := Dated)
      (fun _ _ hw hm => queued_retryDelete hw hm) batch h hdated
  · exact queued_foldl (f := State.retryOrFail) (P := Dated)
      (fun _ _ hw hm => queued_retryOrFail hw hm) batch h hdated
  · exact queued_foldl (P := Dated) (fun _ m hw _ => queued_fail hw m.path) batch h hdated

variable {outcome : Outcome}

variable {deleted : List String}

/-- A batch is put off up to a path that cannot be normalised : the first of it fails. -/
theorem retriesRaise_cases (h : Inv s) {n : ℕ} (hs : s.retriesRaise outcome n deleted = some s') :
    ∃ batch buffered, s.worker = .deleting batch buffered ∧
      (∀ m ∈ batch, m.operation = .delete ∧ Dated m) ∧ Buffered buffered ∧
      (outcome = .conflict ∨ outcome = .unavailable) ∧
      s' = ((batch.take n).foldl (fun s m => s.reschedule outcome m)
        (s.endDelete batch buffered deleted)).fail (s.held.getD "<unknown>") ∧
      Queued (s.endDelete batch buffered deleted) s' := by
  have hsound := h.worker
  unfold State.retriesRaise at hs
  split at hs
  · rename_i batch buffered hworker
    rw [hworker] at hsound
    split at hs
    · rename_i houtcome
      have hqueued : Queued (s.endDelete batch buffered deleted)
          ((batch.take n).foldl (fun s m => s.reschedule outcome m)
            (s.endDelete batch buffered deleted)) :=
        queued_foldl (P := Dated) (fun _ _ hw hm => queued_reschedule hw outcome hm) _ h.wired
          fun m hm => (hsound.1 m (List.mem_of_mem_take hm)).2
      obtain rfl := Option.some.inj hs
      exact ⟨batch, buffered, hworker, hsound.1, hsound.2, houtcome, rfl,
        hqueued.trans (queued_fail hqueued.grows.wired _)⟩
    · cases hs
  · cases hs

theorem inv_endDelete (h : Inv s) {buffered : Option (Mutation × Bool)}
    (hbuffered : Buffered buffered) (deleted : List String) :
    Inv (s.endDelete batch buffered deleted) :=
  ⟨h.wired, h.events, hbuffered⟩

theorem inv_retriesRaise (h : Inv s) {n : ℕ}
    (hs : s.retriesRaise outcome n deleted = some s') : Inv s' := by
  obtain ⟨batch, buffered, -, -, hbuffered, -, -, hqueued⟩ := retriesRaise_cases h hs
  exact (inv_endDelete h hbuffered deleted).queued hqueued

variable {files : List String}

/-- What the worker is done with : a reading, a batch of deletes, or something that leaves
only mutations behind. -/
theorem finish_cases (h : Inv s) {wrote : Bool} (hs : s.finish outcome wrote files = some s') :
    (∃ m fresh, s.worker = .processing m fresh ∧
      s' = s.finishProcessing m fresh outcome wrote) ∨
    (∃ batch buffered, s.worker = .deleting batch buffered ∧
      s' = s.finishDelete batch buffered outcome files) ∨
    s.worker.Side ∧ Queued { s with worker := .idle none } s' := by
  have hsound := h.worker
  have hidle : ({ s with worker := .idle none } : State).queues.Wired := h.wired
  unfold State.finish at hs
  split at hs
  · cases hs
  · rename_i m fresh hworker
    exact Or.inl ⟨m, fresh, hworker, (Option.some.inj hs).symm⟩
  · rename_i batch buffered hworker
    exact Or.inr (Or.inl ⟨batch, buffered, hworker, (Option.some.inj hs).symm⟩)
  · rename_i m hworker
    rw [hworker] at hsound ⊢
    refine Or.inr (Or.inr ⟨trivial, ?_⟩)
    have hfiles : Queued { s with worker := .idle none }
        (files.foldl (fun s f => s.enqueue .delete f m.sourceGeneration)
          { s with worker := .idle none }) :=
      queued_foldl (P := fun _ => True)
        (fun s f hw _ => queued_enqueue hw fun _ => hsound.2 (Or.inr hsound.1)) files hidle
        fun _ _ => trivial
    simp only at hs
    split at hs
    · obtain rfl := Option.some.inj hs
      exact hfiles
    · obtain rfl := Option.some.inj hs
      exact hfiles.trans (queued_retryOrFail hfiles.grows.wired hsound.2)
    · obtain rfl := Option.some.inj hs
      exact hfiles.trans (queued_fail hfiles.grows.wired m.path)
  · rename_i hworker
    rw [hworker]
    refine Or.inr (Or.inr ⟨trivial, ?_⟩)
    simp only at hs
    split at hs
    · obtain rfl := Option.some.inj hs
      exact queued_foldl (P := fun _ => True)
        (fun s f hw _ => queued_addFile hw f .change) files hidle fun _ _ => trivial
    · obtain rfl := Option.some.inj hs
      exact .refl hidle
  · rename_i m hworker
    rw [hworker] at hsound ⊢
    refine Or.inr (Or.inr ⟨trivial, ?_⟩)
    have hdated : Dated m := by
      have hop : m.operation = .embed := hsound
      simp [Dated, hop]
    simp only at hs
    split at hs
    · obtain rfl := Option.some.inj hs
      exact queued_retryOrFail hidle hdated
    · obtain rfl := Option.some.inj hs
      exact .refl hidle

theorem inv_finish (h : Inv s) {wrote : Bool}
    (hs : s.finish outcome wrote files = some s') : Inv s' := by
  have hsound := h.worker
  rcases finish_cases h hs with ⟨m, fresh, hworker, rfl⟩ | ⟨batch, buffered, hworker, rfl⟩ |
    ⟨-, hqueued⟩
  · rw [hworker] at hsound
    exact inv_finishProcessing h hsound fresh outcome wrote
  · rw [hworker] at hsound
    obtain ⟨hbatch, hbuffered⟩ := hsound
    exact (inv_endDelete h hbuffered files).queued
      (queued_finishDelete h.wired (fun m hm => (hbatch m hm).2) buffered outcome files)
  · have hidle : Inv { s with worker := .idle none } := h.withWorker fun _ hd => nomatch hd
    exact hidle.queued hqueued

theorem inv_write (h : Inv s) (path : String) : Inv (s.write path) := by
  refine ⟨h.wired, h.events, ?_⟩
  have hsound := h.worker
  unfold State.write
  simp only
  split
  · rename_i m fresh hworker
    rwa [hworker] at hsound
  · exact hsound

/-- The path of the mutation that is taken cannot be normalised. -/
def Raises (a : Action) : Prop := a = .takeRaises

theorem inv_step (h : Inv s) {a : Action} (hok : ¬ Raises a) (hs : step s a = some s') :
    Inv s' := by
  cases a with
  | write path =>
    obtain rfl := Option.some.inj hs
    exact inv_write h path
  | unlink path =>
    simp only [step] at hs
    split at hs
    · obtain rfl := Option.some.inj hs
      exact ⟨h.wired, h.events, h.worker⟩
    · cases hs
  | accept event path =>
    obtain rfl := Option.some.inj hs
    exact inv_accept h event path
  | consume inWindow => exact inv_consume h hs
  | consumeRaises => exact inv_consumeRaises h hs
  | forget path =>
    obtain rfl := Option.some.inj hs
    exact ⟨h.wired, h.events, h.worker⟩
  | pollChanged path =>
    obtain rfl := Option.some.inj hs
    exact inv_pollChanged h path
  | pollDeleted path =>
    obtain rfl := Option.some.inj hs
    exact inv_pollDeleted h path
  | addFile path priority =>
    obtain rfl := Option.some.inj hs
    exact h.addFile path priority
  | debounceFires i =>
    obtain ⟨q, hq, rfl⟩ := Option.map_eq_some_iff.1 hs
    have hgrows : Queues.Grows s.latestSourceGeneration s.queues q :=
      Queues.debounceFires_grows h.wired hq
    exact ⟨hgrows.wired, h.events, h.worker⟩
  | retryFires i =>
    obtain ⟨q, hq, rfl⟩ := Option.map_eq_some_iff.1 hs
    exact ⟨(Queues.retryFires_grows h.wired hq).wired, h.events, h.worker⟩
  | retryRaises i =>
    obtain ⟨q, hq, rfl⟩ := Option.map_eq_some_iff.1 hs
    obtain ⟨m, -, -, ht⟩ : ∃ m, s.queues.retryTasks[i]? = some m ∧ m.operation = .delete ∧
        Queues.Taken s.latestSourceGeneration s.queues q m true :=
      Queues.retryRaises_taken h.wired hq
    exact ⟨ht.wired, h.events, h.worker⟩
  | take => exact inv_take h hs
  | takeRaises => exact absurd rfl hok
  | checkRaises => exact inv_checkRaises h hs
  | retriesRaise outcome n files => exact inv_retriesRaise h hs
  | finish outcome wrote files => exact inv_finish h hs

end Steps

end Realtime

end ChunkHound
