import ChunkHound.MutationQueues
import ChunkHound.Raising
import ChunkHound.Slices
import Mathlib.Data.Int.Notation

/-!
# The count of mutations being processed

`_record_processing_started` and `_record_processing_finished` count the mutations that the worker
of the realtime service is processing. Each processor starts its mutation and finishes it in a
`finally`, so the count is as before however the processing ends.

A batch of deletes starts its mutations in a loop in front of its `try`, and asks there whether each
one is stale. The answer looks at the disk and may raise, which a batch does not undo : the count is
as before exactly when no such question raises with a mutation started (`balanced_iff`). In a run
where none does, the count at every `await` is the number of mutations being processed.

Every `await`, and every call that may raise, has its outcome as a parameter. Time stamps, messages
and the sets of failed files are left out.
-/

namespace ChunkHound.Processing

open Raising

/-- `DuckDBTransactionConflictError`, `DatabaseTemporarilyUnavailableError`, `CancelledError`, and
any other exception. -/
inductive Err
  | conflict
  | unavailable
  | cancelled
  | other
  deriving DecidableEq

/-- `finishedMutationIds` is a local variable of a batch of deletes. `observed` has the count at
every `await`, with the number of mutations being processed there. -/
structure State where
  activeProcessingCount : ℤ
  finishedMutationIds : List ℕ
  observed : List (ℤ × ℕ)
  deriving DecidableEq

abbrev ProcessM := EStateM Err State

/-! ## Steps -/

def State.started (s : State) : State :=
  { s with activeProcessingCount := s.activeProcessingCount + 1 }

def State.finished (s : State) : State :=
  if 0 < s.activeProcessingCount then
    { s with activeProcessingCount := s.activeProcessingCount - 1 }
  else s

/-- `_record_processing_started`. -/
def recordProcessingStarted : ProcessM Unit := modify State.started

/-- `_record_processing_finished`. -/
def recordProcessingFinished : ProcessM Unit := modify State.finished

section Call

variable {α : Type}

/-- A call that may raise. -/
def call : Except Err α → ProcessM α
  | .ok a => pure a
  | .error e => throw e

/-- An `await` in the processing of some mutations. -/
def awaitFor (processed : List Mutation) (outcome : Except Err α) : ProcessM α := do
  modify fun s => { s with observed := s.observed ++ [(s.activeProcessingCount, processed.length)] }
  call outcome

end Call

/-! ## Processors -/

/-- `stale…` are the outcomes of `_delete_mutation_is_stale`. -/
structure DeleteOutcomes where
  staleAtEntry : Except Err Bool
  staleWhenStarted : Except Err Bool
  removeFile : Except Err Unit
  staleAfterConflict : Except Err Bool
  scheduleRetry : Except Err Bool
  staleAfterRetry : Except Err Bool
  compactionBusy : Except Err Bool

namespace DeleteOutcomes

variable (o : DeleteOutcomes)

/-- The body of the `try`. -/
def run (mutation : Mutation) : ProcessM Unit := do
  if ← call o.staleWhenStarted then pure () else awaitFor [mutation] o.removeFile

/-- The `except` branches. -/
def handle : Err → ProcessM Unit
  | .conflict => do
    if ← call o.staleAfterConflict then pure ()
    else if ← call o.scheduleRetry then
      let _ ← call o.staleAfterRetry
    else pure ()
  | .unavailable => do
    let _ ← call o.compactionBusy
  | .cancelled => throw .cancelled
  | .other => pure ()

end DeleteOutcomes

/-- `_process_delete_mutation`. A superseded delete that is not stale is skipped. -/
def processDeleteMutation (o : DeleteOutcomes) (mutation : Mutation) (owned : Bool) :
    ProcessM Unit := do
  if ← (if owned then pure true else call o.staleAtEntry) then
    recordProcessingStarted
    tryFinally (tryCatch (o.run mutation) o.handle) recordProcessingFinished

structure BatchOutcomes where
  staleAtEntry : Mutation → Except Err Bool
  staleWhenStarted : Mutation → Except Err Bool
  deleteFiles : Except Err Unit
  staleAfterConflict : Mutation → Except Err Bool
  scheduleRetry : Mutation → Except Err Bool
  compactionBusy : Except Err Unit

/-- `finished_mutation_ids.add`. -/
def State.addId (s : State) (mutation : Mutation) : State :=
  { s with finishedMutationIds := s.finishedMutationIds ++ [mutation.mutationId] }

/-- A mutation of a batch is finished, and its id kept. -/
def finishMutation (mutation : Mutation) : ProcessM PUnit := do
  recordProcessingFinished
  modify (·.addId mutation)

/-- The mutations whose ids are not kept. -/
def State.unfinished (s : State) (mutations : List Mutation) : List Mutation :=
  mutations.filter (·.mutationId ∉ s.finishedMutationIds)

namespace BatchOutcomes

variable (o : BatchOutcomes)

/-- A turn of the first loop, which collects `active_mutations`. -/
def start (active : List Mutation) (entry : Mutation × Bool) : ProcessM (List Mutation) := do
  if ← (if entry.2 then pure true else call (o.staleAtEntry entry.1)) then
    recordProcessingStarted
    if ← call (o.staleWhenStarted entry.1) then finishMutation entry.1
    pure (active ++ [entry.1])
  else pure active

/-- The body of the `try`. -/
def run (executable : List Mutation) : ProcessM Unit := do
  awaitFor executable o.deleteFiles
  executable.forM finishMutation

/-- A mutation after a conflict : it is stale, or is tried again. -/
def retry (mutation : Mutation) : ProcessM PUnit := do
  if ← call (o.staleAfterConflict mutation) then finishMutation mutation
  else
    let _ ← call (o.scheduleRetry mutation)

/-- The `except` branches. -/
def handle (executable : List Mutation) : Err → ProcessM Unit
  | .conflict => executable.forM o.retry
  | .unavailable => call o.compactionBusy
  | .cancelled => throw .cancelled
  | .other => pure ()

end BatchOutcomes

/-- The loop of the `finally`. -/
def finishRest (active : List Mutation) : ProcessM Unit :=
  active.forM fun mutation => do
    if mutation.mutationId ∈ (← get).finishedMutationIds then pure ()
    else recordProcessingFinished

/-- What follows the first loop. -/
def BatchOutcomes.settle (o : BatchOutcomes) (active : List Mutation) : ProcessM Unit := do
  let executable := (← get).unfinished active
  if executable = [] then pure ()
  else tryFinally (tryCatch (o.run executable) (o.handle executable)) (finishRest active)

/-- Mutations with whether they were still pending when they were taken. No two have an id in
common, since ids are counted up and the queue is thrown away when the count starts again. -/
structure DeleteBatch where
  mutations : List (Mutation × Bool)
  distinct : (mutations.map fun entry => entry.1.mutationId).Nodup

/-- `_process_delete_batch`. -/
def processDeleteBatch (o : BatchOutcomes) (mutations : List (Mutation × Bool)) :
    ProcessM Unit := do
  modify fun s => { s with finishedMutationIds := [] }
  let active ← mutations.foldlM o.start []
  o.settle active

/-- The outcomes of a processor that awaits one call, and of `_handle_compaction_busy`. -/
structure AwaitOutcomes where
  awaits : Except Err Unit
  compactionBusy : Except Err Bool

/-- The `except` branches. -/
def AwaitOutcomes.handle (o : AwaitOutcomes) : Err → ProcessM Unit
  | .unavailable => do
    let _ ← call o.compactionBusy
  | .cancelled => throw .cancelled
  | .conflict | .other => pure ()

/-- `_process_deleted_directory_mutation`. -/
def processDeletedDirectoryMutation (o : AwaitOutcomes) (mutation : Mutation) :
    ProcessM Unit := do
  recordProcessingStarted
  tryFinally (tryCatch (awaitFor [mutation] o.awaits) o.handle) recordProcessingFinished

/-- The branch of the worker that generates embeddings. -/
def processEmbed (o : AwaitOutcomes) (mutation : Mutation) : ProcessM Unit :=
  tryFinally
    (tryCatch
      (do
        recordProcessingStarted
        awaitFor [mutation] o.awaits)
      o.handle)
    recordProcessingFinished

/-- The files of a directory are collected, and added one by one. -/
structure IndexOutcomes where
  collect : Except Err Unit
  addFile : List (Except Err Unit)

/-- `_index_directory`. -/
def indexDirectory (o : IndexOutcomes) (mutation : Mutation) : ProcessM Unit := do
  recordProcessingStarted
  tryFinally
    (tryCatch
      (do
        awaitFor [mutation] o.collect
        o.addFile.forM (awaitFor [mutation]))
      fun error => if error = .cancelled then throw error else pure ())
    recordProcessingFinished

/-- `flush` is there for a provider that can flush. -/
structure ChangeOutcomes where
  fileExists : Except Err Bool
  notifyMissing : Except Err Unit
  processFile : Except Err Unit
  flush : Option (Except Err Unit)
  notifyIndexed : Except Err Unit
  addEmbed : Except Err Unit
  drain : Except Err Unit

/-- An `await` that is left out where there is no outcome. -/
def awaitIfAny (processed : List Mutation) : Option (Except Err Unit) → ProcessM Unit
  | some outcome => awaitFor processed outcome
  | none => pure ()

/-- The body of the `try`. -/
def ChangeOutcomes.run (o : ChangeOutcomes) (mutation : Mutation) : ProcessM (Option Err) := do
  awaitFor [mutation] o.processFile
  awaitIfAny [mutation] o.flush
  awaitFor [mutation] o.notifyIndexed
  awaitFor [mutation] o.addEmbed
  pure none

/-- The branch of the worker that reads a file. An error is raised behind the `finally`, which hands
on the follow-up change. -/
def processChange (o : ChangeOutcomes) (mutation : Mutation) : ProcessM Unit := do
  if ← call o.fileExists then
    recordProcessingStarted
    let processingError ← tryFinally
      (tryCatch (o.run mutation) fun error =>
        if error = .cancelled then throw error else pure (some error))
      (do
        recordProcessingFinished
        awaitFor [] o.drain)
    match processingError with
    | some error => throw error
    | none => pure ()
  else awaitFor [] o.notifyMissing

/-! ## The worker -/

/-- What the worker processes, with the outcomes. -/
inductive Job
  | delete (o : DeleteOutcomes) (mutation : Mutation) (owned : Bool)
  | deleteBatch (o : BatchOutcomes) (batch : DeleteBatch)
  | dirDelete (o : AwaitOutcomes) (mutation : Mutation)
  | dirIndex (o : IndexOutcomes) (mutation : Mutation)
  | embed (o : AwaitOutcomes) (mutation : Mutation)
  | change (o : ChangeOutcomes) (mutation : Mutation)

def Job.process : Job → ProcessM Unit
  | .delete o mutation owned => processDeleteMutation o mutation owned
  | .deleteBatch o batch => processDeleteBatch o batch.mutations
  | .dirDelete o mutation => processDeletedDirectoryMutation o mutation
  | .dirIndex o mutation => indexDirectory o mutation
  | .embed o mutation => processEmbed o mutation
  | .change o mutation => processChange o mutation

/-- A turn of the worker. `queueGet` is missing where a mutation was buffered. -/
structure Turn where
  queueGet : Option (Except Err Unit)
  job : Job
  scheduleRetry : Except Err Bool
  notifyFailed : Except Err Unit

/-- The body of the outer `try`. -/
def Turn.run (turn : Turn) : ProcessM Unit := do
  awaitIfAny [] turn.queueGet
  turn.job.process

/-- The outer `except` branches. -/
def Turn.handle (turn : Turn) : Err → ProcessM Unit
  | .cancelled => throw .cancelled
  | .unavailable => do
    if ← call turn.scheduleRetry then pure () else awaitFor [] turn.notifyFailed
  | .conflict | .other => awaitFor [] turn.notifyFailed

/-- `_process_loop`. -/
def processLoop (turns : List Turn) : ProcessM PUnit :=
  turns.forM fun turn => tryCatch turn.run turn.handle

/-! ## Counting -/

/-- The count is that of some mutations above what it was, and at every `await` it was as many above
as were being processed. -/
structure Counts (base k : ℕ) (s : State) : Prop where
  count : s.activeProcessingCount = base + k
  observed : ∀ o ∈ s.observed, o.1 = base + o.2

theorem Counts.started {base k : ℕ} {s : State} (h : Counts base k s) :
    Counts base (k + 1) s.started := by
  refine ⟨?_, h.observed⟩
  have hcount := h.count
  unfold State.started
  push_cast
  omega

theorem Counts.finished {base k : ℕ} {s : State} (h : Counts base (k + 1) s) :
    Counts base k s.finished := by
  have hcount := h.count
  push_cast at hcount
  unfold State.finished
  rw [if_pos (by omega)]
  exact ⟨by dsimp only; omega, h.observed⟩

section Triples

variable {base k : ℕ} {P : State → Prop} {α : Type} {E : Err → State → Prop}

theorem triple_call (outcome : Except Err α) :
    Triple P (call outcome) (fun _ => P) fun _ => P := by
  cases outcome with
  | ok a => exact Triple.pure a fun _ hs => hs
  | error e => exact Triple.throw fun _ hs => hs

theorem triple_started :
    Triple (Counts base k) recordProcessingStarted (fun _ => Counts base (k + 1)) E :=
  Triple.modify fun _ hs => hs.started

theorem triple_finished :
    Triple (Counts base (k + 1)) recordProcessingFinished (fun _ => Counts base k) E :=
  Triple.modify fun _ hs => hs.finished

theorem triple_await {processed : List Mutation} (h : processed.length = k)
    (outcome : Except Err α) :
    Triple (Counts base k) (awaitFor processed outcome) (fun _ => Counts base k)
      fun _ => Counts base k := by
  refine Triple.seq (Triple.modify fun s hs => ⟨hs.count, fun o ho => ?_⟩) (triple_call outcome)
  rcases List.mem_append.1 ho with ho | ho
  · exact hs.observed o ho
  · rw [List.mem_singleton.1 ho, h]
    exact hs.count

theorem triple_awaitOne (mutation : Mutation) (outcome : Except Err α) :
    Triple (Counts base 1) (awaitFor [mutation] outcome) (fun _ => Counts base 1)
      fun _ => Counts base 1 :=
  triple_await (k := 1) rfl outcome

theorem triple_awaitNone (outcome : Except Err α) :
    Triple (Counts base 0) (awaitFor [] outcome) (fun _ => Counts base 0)
      fun _ => Counts base 0 :=
  triple_await (k := 0) rfl outcome

/-- A mutation that is started, and finished however its processing ends. -/
theorem triple_bracket {p : ProcessM Unit}
    (hp : Triple (Counts base 1) p (fun _ => Counts base 1) fun _ => Counts base 1) :
    Triple (Counts base 0)
      (do
        recordProcessingStarted
        tryFinally p recordProcessingFinished)
      (fun _ => Counts base 0) fun _ => Counts base 0 :=
  triple_started.seq (hp.cleanup triple_finished)

theorem triple_delete (o : DeleteOutcomes) (mutation : Mutation) (owned : Bool) :
    Triple (Counts base 0) (processDeleteMutation o mutation owned) (fun _ => Counts base 0)
      fun _ => Counts base 0 := by
  have hrun : Triple (Counts base 1) (o.run mutation) (fun _ => Counts base 1)
      fun _ => Counts base 1 :=
    (triple_call _).bind fun stale => Triple.ite (fun _ => Triple.pure _ fun _ hs => hs)
      fun _ => triple_awaitOne _ _
  have hhandle : ∀ error, Triple (Counts base 1) (o.handle error) (fun _ => Counts base 1)
      fun _ => Counts base 1 := by
    intro error
    cases error with
    | conflict =>
      refine (triple_call _).bind fun stale => Triple.ite (fun _ => Triple.pure _ fun _ hs => hs)
        fun _ => (triple_call _).bind fun scheduled => Triple.ite (fun _ => ?_)
          fun _ => Triple.pure _ fun _ hs => hs
      exact (triple_call _).bind fun _ => Triple.pure _ fun _ hs => hs
    | unavailable => exact (triple_call _).bind fun _ => Triple.pure _ fun _ hs => hs
    | cancelled => exact Triple.throw fun _ hs => hs
    | other => exact Triple.pure _ fun _ hs => hs
  refine Triple.bind (Q := fun _ => Counts base 0) ?_ fun proceeds => Triple.ite (fun _ => ?_)
    fun _ => Triple.pure _ fun _ hs => hs
  · exact Triple.ite (fun _ => Triple.pure _ fun _ hs => hs) fun _ => triple_call _
  · exact triple_bracket (hrun.tryCatch hhandle)

theorem triple_handleAwait (o : AwaitOutcomes) (error : Err) :
    Triple P (o.handle error) (fun _ => P) fun _ => P := by
  cases error with
  | unavailable => exact (triple_call _).bind fun _ => Triple.pure _ fun _ hs => hs
  | cancelled => exact Triple.throw fun _ hs => hs
  | conflict => exact Triple.pure _ fun _ hs => hs
  | other => exact Triple.pure _ fun _ hs => hs

theorem triple_dirDelete (o : AwaitOutcomes) (mutation : Mutation) :
    Triple (Counts base 0) (processDeletedDirectoryMutation o mutation) (fun _ => Counts base 0)
      fun _ => Counts base 0 :=
  triple_bracket ((triple_awaitOne _ _).tryCatch (triple_handleAwait o))

theorem triple_embed (o : AwaitOutcomes) (mutation : Mutation) :
    Triple (Counts base 0) (processEmbed o mutation) (fun _ => Counts base 0)
      fun _ => Counts base 0 :=
  ((triple_started.seq (triple_awaitOne _ _)).tryCatch (triple_handleAwait o)).cleanup
    triple_finished

theorem triple_dirIndex (o : IndexOutcomes) (mutation : Mutation) :
    Triple (Counts base 0) (indexDirectory o mutation) (fun _ => Counts base 0)
      fun _ => Counts base 0 := by
  refine triple_bracket (Triple.tryCatch (E := fun _ => Counts base 1) ?_ fun error => ?_)
  · exact (triple_awaitOne _ _).seq (Triple.forM fun _ _ => triple_awaitOne _ _)
  · exact Triple.ite (fun _ => Triple.throw fun _ hs => hs) fun _ => Triple.pure _ fun _ hs => hs

theorem triple_runChange (o : ChangeOutcomes) (mutation : Mutation) :
    Triple (Counts base 1) (o.run mutation) (fun _ => Counts base 1) fun _ => Counts base 1 := by
  have hflush : Triple (Counts base 1) (awaitIfAny [mutation] o.flush) (fun _ => Counts base 1)
      fun _ => Counts base 1 := by
    cases o.flush with
    | none => exact Triple.pure _ fun _ hs => hs
    | some flush => exact triple_awaitOne _ _
  exact (triple_awaitOne _ _).seq (hflush.seq ((triple_awaitOne _ _).seq
    ((triple_awaitOne _ _).seq (Triple.pure _ fun _ hs => hs))))

theorem triple_change (o : ChangeOutcomes) (mutation : Mutation) :
    Triple (Counts base 0) (processChange o mutation) (fun _ => Counts base 0)
      fun _ => Counts base 0 := by
  refine (triple_call _).bind fun found => Triple.ite (fun _ => ?_) fun _ => triple_awaitNone _
  refine triple_started.seq (Triple.bind (Q := fun _ => Counts base 0) ?_ fun error => ?_)
  · refine Triple.cleanup (M := Counts base 1) ((triple_runChange o mutation).tryCatch fun error =>
      Triple.ite (fun _ => Triple.throw fun _ hs => hs) fun _ => Triple.pure _ fun _ hs => hs) ?_
    exact triple_finished.seq (triple_awaitNone _)
  · cases error with
    | none => exact Triple.pure _ fun _ hs => hs
    | some error => exact Triple.throw fun _ hs => hs

end Triples

/-! ## Batches of deletes -/

/-- What a turn of the first loop of a batch comes to. -/
inductive Check
  | skipped
  | stale
  | opened
  | raisedAtEntry (error : Err)
  | raisedWhenStarted (error : Err)
  deriving DecidableEq

def Check.raises : Check → Bool
  | .raisedAtEntry _ | .raisedWhenStarted _ => true
  | .skipped | .stale | .opened => false

namespace BatchOutcomes

variable (o : BatchOutcomes)

def check (entry : Mutation × Bool) : Check :=
  match (if entry.2 then .ok true else o.staleAtEntry entry.1) with
  | .error error => .raisedAtEntry error
  | .ok false => .skipped
  | .ok true =>
    match o.staleWhenStarted entry.1 with
    | .error error => .raisedWhenStarted error
    | .ok true => .stale
    | .ok false => .opened

/-- The question whether a mutation is stale raises while some mutation is started and not
finished : this one, one in front of it, or one of before. -/
def Leaks (before : Prop) (entries : List (Mutation × Bool)) : Prop :=
  ∃ front entry rest, entries = front ++ entry :: rest ∧
    (∀ d ∈ front, (o.check d).raises = false) ∧
      ((∃ error, o.check entry = .raisedWhenStarted error) ∨
        ((∃ error, o.check entry = .raisedAtEntry error) ∧
          (before ∨ ∃ d ∈ front, o.check d = .opened)))

end BatchOutcomes

section Batch

variable {base : ℕ} {o : BatchOutcomes} {active : List Mutation} {s : State} {m : Mutation}

theorem leaks_nil {before : Prop} : ¬ o.Leaks before [] := by
  rintro ⟨front, entry, rest, heq, -⟩
  cases front <;> cases heq

theorem leaks_cons {before : Prop} {entry : Mutation × Bool} {entries : List (Mutation × Bool)} :
    o.Leaks before (entry :: entries) ↔
      ((∃ error, o.check entry = .raisedWhenStarted error) ∨
        ((∃ error, o.check entry = .raisedAtEntry error) ∧ before)) ∨
      ((o.check entry).raises = false ∧
        o.Leaks (before ∨ o.check entry = .opened) entries) := by
  unfold BatchOutcomes.Leaks
  rw [Slices.exists_split_cons]
  refine or_congr ?_ ?_
  · simp
  · simp only [List.forall_mem_cons, List.exists_mem_cons_iff, ← exists_and_left, or_assoc]
    refine exists_congr fun front => exists_congr fun x => exists_congr fun rest => ?_
    tauto

theorem start_eq (o : BatchOutcomes) (active : List Mutation) (entry : Mutation × Bool)
    (s : State) : o.start active entry s =
      match o.check entry with
      | .skipped => .ok active s
      | .stale => .ok (active ++ [entry.1]) (s.started.finished.addId entry.1)
      | .opened => .ok (active ++ [entry.1]) s.started
      | .raisedAtEntry error => .error error s
      | .raisedWhenStarted error => .error error s.started := by
  obtain ⟨m, owned⟩ := entry
  unfold BatchOutcomes.start BatchOutcomes.check
  dsimp only
  generalize o.staleAtEntry m = atEntry
  generalize o.staleWhenStarted m = whenStarted
  cases owned with
  | true => rcases whenStarted with error | (_ | _) <;> rfl
  | false =>
    rcases atEntry with error | (_ | _)
    · rfl
    · rfl
    · rcases whenStarted with error | (_ | _) <;> rfl

/-- While a batch is started : the ids of its mutations are distinct, those kept are of active ones,
and the active ones without are counted. -/
structure InBatch (base : ℕ) (active : List Mutation) (rest : List (Mutation × Bool))
    (s : State) : Prop where
  distinct : (active.map (·.mutationId) ++ rest.map fun entry => entry.1.mutationId).Nodup
  kept : ∀ i ∈ s.finishedMutationIds, i ∈ active.map (·.mutationId)
  counts : Counts base (s.unfinished active).length s

variable {rest : List (Mutation × Bool)} {owned : Bool}

theorem mem_unfinished : m ∈ s.unfinished active ↔
    m ∈ active ∧ m.mutationId ∉ s.finishedMutationIds := by
  simp [State.unfinished]

@[simp] theorem finishedMutationIds_finished (s : State) :
    s.finished.finishedMutationIds = s.finishedMutationIds := by
  unfold State.finished
  split <;> rfl

@[simp] theorem unfinished_finished (s : State) (active : List Mutation) :
    s.finished.unfinished active = s.unfinished active := by
  simp [State.unfinished]

/-- The ids that are kept once a mutation is finished. -/
theorem mem_finishedMutationIds {i : ℕ} : i ∈ (s.finished.addId m).finishedMutationIds ↔
    i ∈ s.finishedMutationIds ∨ i = m.mutationId := by
  simp [State.addId]

/-- A mutation whose id was not kept is no longer among the unfinished once it is. -/
theorem unfinished_addId (h : (active.map (·.mutationId)).Nodup) (hm : m ∈ s.unfinished active) :
    (s.unfinished active).length = ((s.addId m).unfinished active).length + 1 := by
  have hnodup : (s.unfinished active).Nodup := (h.of_map _).filter _
  have herase : (s.addId m).unfinished active = (s.unfinished active).erase m := by
    rw [hnodup.erase_eq_filter, State.unfinished, State.unfinished, List.filter_filter]
    refine List.filter_congr fun x hx => ?_
    have hid : x.mutationId = m.mutationId ↔ x = m :=
      ⟨fun heq => List.inj_on_of_nodup_map h hx (mem_unfinished.1 hm).1 heq, congrArg _⟩
    by_cases hxm : x = m
    · simp [State.addId, hxm]
    · simp [State.addId, hid, hxm]
  rw [herase, List.length_erase_of_mem hm]
  have hpos := List.length_pos_of_mem hm
  omega

theorem InBatch.skip (h : InBatch base active ((m, owned) :: rest) s) :
    InBatch base active rest s where
  distinct := h.distinct.sublist ((List.sublist_cons_self _ _).append_left _)
  kept := h.kept
  counts := h.counts

theorem unfinished_concat (hm : m.mutationId ∉ s.finishedMutationIds) :
    s.unfinished (active ++ [m]) = s.unfinished active ++ [m] := by
  simp [State.unfinished, List.filter_append, hm]

theorem InBatch.notKept (h : InBatch base active ((m, owned) :: rest) s) :
    m.mutationId ∉ s.finishedMutationIds := fun hm => by
  refine List.disjoint_of_nodup_append h.distinct (h.kept _ hm) ?_
  simp

theorem InBatch.start (h : InBatch base active ((m, owned) :: rest) s) :
    InBatch base (active ++ [m]) rest s.started where
  distinct := by simpa using h.distinct
  kept i hi := by
    rw [List.map_append]
    exact List.mem_append_left _ (h.kept i hi)
  counts := by
    have hsame : s.started.unfinished (active ++ [m]) = s.unfinished active ++ [m] :=
      unfinished_concat h.notKept
    rw [hsame, List.length_append]
    exact h.counts.started

theorem InBatch.finish (h : InBatch base active rest s) (hm : m ∈ s.unfinished active) :
    InBatch base active rest (s.finished.addId m) := by
  have hlength := unfinished_addId h.distinct.of_append_left hm
  have hsame : (s.finished.addId m).unfinished active = (s.addId m).unfinished active := by
    simp [State.unfinished, State.addId]
  refine ⟨h.distinct, fun i hi => ?_, ?_⟩
  · rcases mem_finishedMutationIds.1 hi with hi | rfl
    · exact h.kept i hi
    · exact List.mem_map_of_mem (mem_unfinished.1 hm).1
  · have hcounts := h.counts
    rw [hlength] at hcounts
    rw [hsame]
    exact ⟨hcounts.finished.count, hcounts.finished.observed⟩

/-- A mutation that is stale when it is started counts for nothing. -/
theorem InBatch.stale (h : InBatch base active ((m, owned) :: rest) s) :
    InBatch base (active ++ [m]) rest (s.started.finished.addId m) ∧
      ((s.started.finished.addId m).unfinished (active ++ [m])).length =
        (s.unfinished active).length := by
  have hstart := h.start
  have hm : m ∈ s.started.unfinished (active ++ [m]) :=
    mem_unfinished.2 ⟨by simp, h.notKept⟩
  have hfinish := hstart.finish hm
  refine ⟨hfinish, ?_⟩
  have hbefore := h.counts.started.finished.count
  have hafter := hfinish.counts.count
  have hsame : (s.started.finished.addId m).activeProcessingCount =
      s.started.finished.activeProcessingCount := rfl
  omega

theorem ne_nil_iff_length {α : Type} {xs ys : List α} (h : xs.length = ys.length) :
    xs ≠ [] ↔ ys ≠ [] := by
  rw [← List.length_pos_iff, ← List.length_pos_iff, h]

/-- The first loop returns with a batch that leaks nothing, or it raises, and then the count is as
before exactly when the batch does not leak. -/
theorem meets_startAll : ∀ {entries : List (Mutation × Bool)} {active : List Mutation} {s : State},
    InBatch base active entries s →
    Meets
      (fun active' s' => InBatch base active' [] s' ∧ ¬ o.Leaks (s.unfinished active ≠ []) entries)
      (fun _ s' => (∀ o ∈ s'.observed, o.1 = base + o.2) ∧
        (s'.activeProcessingCount = base ↔ ¬ o.Leaks (s.unfinished active ≠ []) entries))
      (entries.foldlM o.start active s)
  | [], active, s, h => ⟨h, leaks_nil⟩
  | (m, owned) :: entries, active, s, h => by
    have hrun : ((m, owned) :: entries).foldlM o.start active s =
        EStateM.bind (o.start active (m, owned)) (fun active => entries.foldlM o.start active) s :=
      rfl
    rw [hrun, EStateM.bind, start_eq, leaks_cons]
    cases hcheck : o.check (m, owned) with
    | skipped =>
      simpa [hcheck, Check.raises] using meets_startAll h.skip
    | stale =>
      obtain ⟨hstale, hlength⟩ := h.stale
      have ih := meets_startAll hstale
      rw [ne_nil_iff_length hlength] at ih
      simpa [hcheck, Check.raises] using ih
    | opened =>
      have ih := meets_startAll h.start
      have hopen : s.started.unfinished (active ++ [m]) ≠ [] :=
        List.ne_nil_of_mem (mem_unfinished.2 ⟨by simp, h.notKept⟩)
      simpa [hcheck, Check.raises, hopen] using ih
    | raisedAtEntry error =>
      refine ⟨h.counts.observed, ?_⟩
      have hcount := h.counts.count
      by_cases hnil : s.unfinished active = []
      · simp [Check.raises, hnil, hcount]
      · have hpos := List.length_pos_iff.2 hnil
        have hne : s.activeProcessingCount ≠ base := by omega
        simp [Check.raises, hnil, hne]
    | raisedWhenStarted error =>
      refine ⟨h.counts.observed, ?_⟩
      have hcount := h.counts.started.count
      push_cast at hcount
      refine iff_of_false (by omega) ?_
      simp

/-- While mutations of a batch are worked through : the rest of them are unfinished. -/
structure Working (base : ℕ) (active rest : List Mutation) (s : State) : Prop where
  batch : InBatch base active [] s
  unfinished : ∀ m ∈ rest, m ∈ s.unfinished active
  distinct : (rest.map (·.mutationId)).Nodup

theorem InBatch.working (h : InBatch base active [] s) :
    Working base active (s.unfinished active) s where
  batch := h
  unfinished _ hm := hm
  distinct := by
    have hdistinct := h.distinct
    rw [List.map_nil, List.append_nil] at hdistinct
    exact hdistinct.sublist (List.filter_sublist.map _)

variable {rest : List Mutation}

theorem Working.tail (h : Working base active (m :: rest) s) :
    Working base active rest s where
  batch := h.batch
  unfinished x hx := h.unfinished x (List.mem_cons_of_mem m hx)
  distinct := (List.nodup_cons.1 h.distinct).2

theorem Working.finish (h : Working base active (m :: rest) s) :
    Working base active rest (s.finished.addId m) where
  batch := h.batch.finish (h.unfinished m List.mem_cons_self)
  unfinished x hx := by
    obtain ⟨hactive, hid⟩ := mem_unfinished.1 (h.unfinished x (List.mem_cons_of_mem m hx))
    refine mem_unfinished.2 ⟨hactive, fun hkept => ?_⟩
    rcases mem_finishedMutationIds.1 hkept with hkept | heq
    · exact hid hkept
    · have hne := (List.nodup_cons.1 h.distinct).1
      exact hne (List.mem_map.2 ⟨x, hx, heq⟩)
  distinct := h.tail.distinct

variable {E : Err → State → Prop}

theorem triple_finishMutation :
    Triple (Working base active (m :: rest)) (finishMutation m)
      (fun _ => Working base active rest) E :=
  Triple.seq (M := fun s => Working base active rest (s.addId m))
    (Triple.modify fun _ hs => hs.finish) (Triple.modify fun _ hs => hs)

theorem triple_retry (o : BatchOutcomes) :
    Triple (Working base active (m :: rest)) (o.retry m)
      (fun _ => Working base active rest) fun _ => InBatch base active [] := by
  refine Triple.bind (Q := fun _ => Working base active (m :: rest)) ?_ fun stale =>
    Triple.ite (fun _ => triple_finishMutation) fun _ => ?_
  · exact (triple_call _).conseq (fun _ hs => hs) (fun _ _ hs => hs) fun _ _ hs => hs.batch
  · refine Triple.bind (Q := fun _ => Working base active rest) ?_ fun _ =>
      Triple.pure _ fun _ hs => hs
    exact (triple_call _).conseq (fun _ hs => hs) (fun _ _ hs => hs.tail) fun _ _ hs => hs.batch

variable {executable : List Mutation}

theorem triple_handleBatch (o : BatchOutcomes) (error : Err) :
    Triple (Working base active executable) (o.handle executable error)
      (fun _ => InBatch base active []) fun _ => InBatch base active [] := by
  cases error with
  | conflict =>
    exact (Triple.forM_rest (fun _ _ => triple_retry o) executable).conseq (fun _ hs => hs)
      (fun _ _ hs => hs.batch) fun _ _ hs => hs
  | unavailable =>
    exact (triple_call _).conseq (fun _ hs => hs.batch) (fun _ _ hs => hs) fun _ _ hs => hs
  | cancelled => exact Triple.throw fun _ hs => hs.batch
  | other => exact Triple.pure _ fun _ hs => hs.batch

theorem triple_runBatch (o : BatchOutcomes) :
    Triple (fun s => Working base active executable s ∧ s.unfinished active = executable)
      (o.run executable) (fun _ => InBatch base active [])
      fun _ => Working base active executable := by
  have hawait : Triple
      (fun s => Working base active executable s ∧ s.unfinished active = executable)
      (awaitFor executable o.deleteFiles) (fun _ => Working base active executable)
      fun _ => Working base active executable := by
    refine Triple.seq (Triple.modify fun s hs => ?_) (triple_call _)
    obtain ⟨hworking, hexecutable⟩ := hs
    refine ⟨⟨hworking.batch.distinct, hworking.batch.kept, hworking.batch.counts.count, ?_⟩,
      hworking.unfinished, hworking.distinct⟩
    intro o ho
    rcases List.mem_append.1 ho with ho | ho
    · exact hworking.batch.counts.observed o ho
    · rw [List.mem_singleton.1 ho, ← hexecutable]
      exact hworking.batch.counts.count
  exact hawait.seq ((Triple.forM_rest (fun _ _ => triple_finishMutation) executable).conseq
    (fun _ hs => hs) (fun _ _ hs => hs.batch) fun _ _ hs => hs)

/-- The `finally` of a batch finishes what is not finished. -/
theorem triple_finishRest :
    Triple (fun s => Counts base (s.unfinished active).length s) (finishRest active)
      (fun _ => Counts base 0) E := by
  refine Triple.forM_rest (I := fun rest s => Counts base (s.unfinished rest).length s)
    (fun m rest => ?_) active
  refine Triple.get_bind fun t ht => Triple.ite (fun hkept => Triple.pure _ ?_) fun hkept => ?_
  · rintro s rfl
    simpa [State.unfinished, hkept] using ht
  · refine Triple.modify ?_
    rintro s rfl
    have hlength : (s.unfinished (m :: rest)).length = (s.unfinished rest).length + 1 := by
      simp [State.unfinished, hkept]
    rw [unfinished_finished]
    rw [hlength] at ht
    exact ht.finished

/-- Behind the first loop a batch finishes all it started. -/
theorem triple_settle (o : BatchOutcomes) :
    Triple (InBatch base active []) (o.settle active) (fun _ => Counts base 0)
      fun _ => Counts base 0 := by
  refine Triple.get_bind fun t ht => Triple.ite (fun hnil => Triple.pure _ ?_) fun _ => ?_
  · rintro s rfl
    have hcounts := ht.counts
    rwa [hnil] at hcounts
  · refine (Triple.cleanup (M := InBatch base active []) ?_ (triple_finishRest.pre ?_))
    · refine Triple.tryCatch ((triple_runBatch o).pre ?_) (triple_handleBatch o)
      rintro s rfl
      exact ⟨ht.working, rfl⟩
    · exact fun s hs => hs.counts

/-- A batch leaves the count as it was exactly when it does not leak. -/
theorem meets_deleteBatch (o : BatchOutcomes) (batch : DeleteBatch) (h : Counts base 0 s) :
    Meets (fun _ s' => Counts base 0 s' ∧ ¬ o.Leaks False batch.mutations)
      (fun _ s' => (∀ o ∈ s'.observed, o.1 = base + o.2) ∧
        (s'.activeProcessingCount = base ↔ ¬ o.Leaks False batch.mutations))
      (processDeleteBatch o batch.mutations s) := by
  have hbatch : InBatch base [] batch.mutations { s with finishedMutationIds := [] } :=
    ⟨batch.distinct, (fun i hi => nomatch hi), h.count, h.observed⟩
  have hstart := meets_startAll (o := o) hbatch
  have hrun : processDeleteBatch o batch.mutations s =
      EStateM.bind (batch.mutations.foldlM o.start []) o.settle
        { s with finishedMutationIds := [] } := rfl
  have hnone : (({ s with finishedMutationIds := [] } : State).unfinished [] ≠ []) = False := by
    simp [State.unfinished]
  rw [hnone] at hstart
  rw [hrun, EStateM.bind]
  cases hloop : batch.mutations.foldlM o.start [] { s with finishedMutationIds := [] } with
  | error error s' =>
    rw [hloop] at hstart
    exact hstart
  | ok active s' =>
    rw [hloop] at hstart
    obtain ⟨hin, hleaks⟩ := hstart
    have hsettle := triple_settle o s' hin
    dsimp only
    cases hr : o.settle active s' with
    | ok a t =>
      rw [hr] at hsettle
      exact ⟨hsettle, hleaks⟩
    | error e t =>
      rw [hr] at hsettle
      refine ⟨hsettle.observed, iff_of_true ?_ hleaks⟩
      simpa using hsettle.count

end Batch

/-! ## Runs of the worker -/

/-- The processing raises with a mutation started that is never finished. Only a batch of deletes
does so. -/
def Job.Leaks : Job → Prop
  | .deleteBatch o batch => o.Leaks False batch.mutations
  | .delete .. | .dirDelete .. | .dirIndex .. | .embed .. | .change .. => False

section Runs

variable {base : ℕ}

/-- Where a program keeps the count however it ends. -/
theorem meets_of_triple {p : ProcessM Unit} {s : State}
    (hp : Triple (Counts base 0) p (fun _ => Counts base 0) fun _ => Counts base 0)
    (h : Counts base 0 s) :
    Meets (fun _ s' => Counts base 0 s' ∧ ¬ False)
      (fun _ s' => (∀ o ∈ s'.observed, o.1 = base + o.2) ∧
        (s'.activeProcessingCount = base ↔ ¬ False)) (p s) := by
  have hmeets := hp s h
  cases hr : p s with
  | ok a t =>
    rw [hr] at hmeets
    exact ⟨hmeets, not_false⟩
  | error e t =>
    rw [hr] at hmeets
    refine ⟨hmeets.observed, iff_of_true ?_ not_false⟩
    simpa using hmeets.count

theorem Job.meets_process (job : Job) {s : State} (h : Counts base 0 s) :
    Meets (fun _ s' => Counts base 0 s' ∧ ¬ job.Leaks)
      (fun _ s' => (∀ o ∈ s'.observed, o.1 = base + o.2) ∧
        (s'.activeProcessingCount = base ↔ ¬ job.Leaks)) (job.process s) := by
  cases job with
  | delete o mutation owned => exact meets_of_triple (triple_delete o mutation owned) h
  | deleteBatch o batch => exact meets_deleteBatch o batch h
  | dirDelete o mutation => exact meets_of_triple (triple_dirDelete o mutation) h
  | dirIndex o mutation => exact meets_of_triple (triple_dirIndex o mutation) h
  | embed o mutation => exact meets_of_triple (triple_embed o mutation) h
  | change o mutation => exact meets_of_triple (triple_change o mutation) h

/-- A turn whose processing does not leak keeps the count. -/
theorem Turn.triple (turn : Turn) (h : ¬ turn.job.Leaks) :
    Triple (Counts base 0) (tryCatch turn.run turn.handle) (fun _ => Counts base 0)
      fun _ => Counts base 0 := by
  have hget : Triple (Counts base 0) (awaitIfAny [] turn.queueGet) (fun _ => Counts base 0)
      fun _ => Counts base 0 := by
    cases turn.queueGet with
    | none => exact Triple.pure _ fun _ hs => hs
    | some outcome => exact triple_awaitNone _
  have hjob : Triple (Counts base 0) turn.job.process (fun _ => Counts base 0)
      fun _ => Counts base 0 := by
    intro s hs
    have hmeets := turn.job.meets_process hs
    cases hr : turn.job.process s with
    | ok a t =>
      rw [hr] at hmeets
      exact hmeets.1
    | error e t =>
      rw [hr] at hmeets
      exact ⟨by simpa using hmeets.2.2 h, hmeets.1⟩
  refine Triple.tryCatch (hget.seq hjob) fun error => ?_
  cases error with
  | cancelled => exact Triple.throw fun _ hs => hs
  | unavailable =>
    exact (triple_call _).bind fun scheduled => Triple.ite
      (fun _ => Triple.pure _ fun _ hs => hs) fun _ => triple_awaitNone _
  | conflict => exact triple_awaitNone _
  | other => exact triple_awaitNone _

/-- The processing of a mutation leaves the count as it was exactly when it does not leak. In a run
of the worker in which none leaks, the count at every `await` is the number of mutations being
processed, and at the end it is zero. -/
theorem balanced_iff (job : Job) (ids : List ℕ) (turns : List Turn)
    (hturns : ∀ turn ∈ turns, ¬ turn.job.Leaks) :
    ((state (job.process ⟨base, ids, []⟩)).activeProcessingCount = base ↔ ¬ job.Leaks) ∧
    (state (processLoop turns ⟨0, ids, []⟩)).activeProcessingCount = 0 ∧
    ∀ o ∈ (state (processLoop turns ⟨0, ids, []⟩)).observed, o.1 = o.2 ∧ 0 ≤ o.1 := by
  constructor
  · have hbase : Counts base 0 ⟨base, ids, []⟩ := ⟨by simp, fun o ho => nomatch ho⟩
    have hmeets := job.meets_process hbase
    cases hr : job.process ⟨base, ids, []⟩ with
    | ok a t =>
      rw [hr] at hmeets
      have hcount : t.activeProcessingCount = base := by simpa using hmeets.1.count
      exact iff_of_true hcount hmeets.2
    | error e t =>
      rw [hr] at hmeets
      exact hmeets.2
  · have hzero : Counts 0 0 ⟨0, ids, []⟩ := ⟨by simp, fun o ho => nomatch ho⟩
    have hrun : Triple (Counts 0 0) (processLoop turns) (fun _ => Counts 0 0)
        fun _ => Counts 0 0 :=
      Triple.forM fun turn hturn => turn.triple (hturns turn hturn)
    have hcounts : Counts 0 0 (state (processLoop turns ⟨0, ids, []⟩)) := (hrun _ hzero).state
    refine ⟨by simpa using hcounts.count, fun o ho => ?_⟩
    have hobserved := hcounts.observed o ho
    omega

end Runs

def deleteOf (mutationId : ℕ) (path : String) : Mutation := ⟨mutationId, .delete, path, 0, some 1⟩

/-- Two deletes, taken from the queue together. -/
def twoDeletes : DeleteBatch :=
  ⟨[(deleteOf 1 "a.py", true), (deleteOf 2 "b.py", true)], by decide⟩

/-- The outcomes where nothing raises, but for the questions whether a mutation is stale. -/
def deletesWhere (stale : Except Err Bool) : BatchOutcomes where
  staleAtEntry _ := stale
  staleWhenStarted _ := stale
  deleteFiles := .ok ()
  staleAfterConflict _ := stale
  scheduleRetry _ := .ok true
  compactionBusy := .ok ()

def quietTurn : Turn := ⟨some (.ok ()), .deleteBatch (deletesWhere (.ok true)) twoDeletes, .ok true,
  .ok ()⟩

theorem balanced_twoDeletes :
    ((state ((Job.deleteBatch (deletesWhere (.ok false)) twoDeletes).process
          ⟨(0 : ℕ), [], []⟩)).activeProcessingCount = (0 : ℕ) ↔
        ¬ (Job.deleteBatch (deletesWhere (.ok false)) twoDeletes).Leaks) ∧
      (state (processLoop [quietTurn] ⟨0, [], []⟩)).activeProcessingCount = 0 ∧
      ∀ o ∈ (state (processLoop [quietTurn] ⟨0, [], []⟩)).observed, o.1 = o.2 ∧ 0 ≤ o.1 := by
  refine balanced_iff _ _ _ fun turn hturn => ?_
  rw [List.mem_singleton.1 hturn]
  rintro ⟨front, entry, rest, -, -, ⟨error, herror⟩ | ⟨⟨error, herror⟩, -⟩⟩
  · obtain ⟨m, _ | _⟩ := entry <;> cases herror
  · obtain ⟨m, _ | _⟩ := entry <;> cases herror

/-- A batch whose question whether its first mutation is stale raises leaves the count at one. -/
theorem stale_check_leaks :
    (state ((Job.deleteBatch (deletesWhere (.error .other)) twoDeletes).process
      ⟨0, [], []⟩)).activeProcessingCount = 1 := by
  decide

end ChunkHound.Processing
