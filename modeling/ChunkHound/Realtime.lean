import ChunkHound.MutationQueues
import ChunkHound.StepSystem

/-!
# The realtime pipeline

`_record_accepted_event`, `_consume_events`, `_polling_monitor` and `_process_loop` of
`pipeline.py` as one step function. A step is a stretch of the event loop between two awaits
that wait : an event is accepted or consumed, a timer fires, the worker takes a mutation or is
done with one. What the disk and the database do between is in the labels.

A mutation that the worker holds is no longer registered. A batch of deletes may leave one
more mutation `buffered` for the next turn of the loop.

Normalising a path raises where one of its directories may not be searched. The steps whose names
end so are those of an event that is consumed, of a delete's retry, of a mutation that is taken, of
a delete that is checked, and of deletes that the database put off. An event whose path raises as
it comes is not accepted, and a path that raises when its reading ends counts as failed. Left out
is a reading that the database put off and whose path then raises, which ends the loop.

`read`, `reported` and `deleteReported` are what the properties speak of : that the newest
content of a path has been read, that it was reported by an accepted event, and that its
absence was. The counters and texts of the status reports are left out, and so is `stop`,
which empties everything.
-/

namespace ChunkHound.Realtime

/-- The types of the events. -/
inductive EventType
  | created | modified | deleted | dirCreated | dirDeleted
  deriving DecidableEq

/-- What the worker does. `fresh` : the file has not been written since. -/
inductive Worker
  | idle (buffered : Option (Mutation × Bool))
  | processing (m : Mutation) (fresh : Bool)
  | deleting (batch : List Mutation) (buffered : Option (Mutation × Bool))
  | cleaningDirectory (m : Mutation)
  | indexingDirectory (m : Mutation)
  | embedding (m : Mutation)

/-- How what the worker does ends. `unread` : `process_file` returns and has not read the file, as
with the status `error`. -/
inductive Outcome
  | ok | unread | conflict | unavailable | error
  deriving DecidableEq

/-- `_EVENT_QUEUE_MAXSIZE`. -/
def eventQueueMaxsize : ℕ := 1000

/-- The pipeline. `held` is the path of the mutation the worker took last. -/
structure State where
  eventQueue : List (EventType × String)
  recentFileEvents : String → Option EventType
  nextSourceGeneration : ℕ
  latestSourceGeneration : Generations
  queues : Queues
  worker : Worker
  held : Option String
  failedFiles : String → Bool
  disk : String → Bool
  rows : String → Bool
  read : String → Bool
  reported : String → Bool
  deleteReported : String → Bool

/-- The pipeline as it starts, over any disk and any database. -/
def init (disk rows : String → Bool) : State where
  eventQueue := []
  recentFileEvents _ := none
  nextSourceGeneration := 0
  latestSourceGeneration _ := none
  queues := .empty
  worker := .idle none
  held := none
  failedFiles _ := false
  disk := disk
  rows := rows
  read _ := false
  reported _ := false
  deleteReported _ := false

/-- A step. The `files` at the end of a job are those of the directory, or the paths of the batch
that the database deleted. -/
inductive Action
  | write (path : String)
  | unlink (path : String)
  | accept (event : EventType) (path : String)
  | consume (inWindow : Bool)
  | consumeRaises
  | forget (path : String)
  | pollChanged (path : String)
  | pollDeleted (path : String)
  | addFile (path : String) (priority : AddPriority)
  | debounceFires (i : ℕ)
  | retryFires (i : ℕ)
  | retryRaises (i : ℕ)
  | take
  | takeRaises
  | checkRaises
  | retriesRaise (outcome : Outcome) (n : ℕ) (files : List String)
  | finish (outcome : Outcome) (wrote : Bool) (files : List String)

namespace State

/-- The path is in `_active_change_generations`. -/
def active (s : State) (path : String) : Bool :=
  match s.worker with
  | .processing m _ => m.path = path
  | _ => false

/-- `failed_files.add`. -/
def fail (s : State) (path : String) : State :=
  { s with failedFiles := Function.update s.failedFiles path true }

/-- `_advance_source_generation`. -/
def advanceGeneration (s : State) (path : String) : State :=
  { s with
    nextSourceGeneration := s.nextSourceGeneration + 1
    latestSourceGeneration :=
      Function.update s.latestSourceGeneration path (some (s.nextSourceGeneration + 1)) }

def refreshPendingChange (s : State) (path : String) : State :=
  { s with queues := s.queues.refreshPendingChange path (s.latestSourceGeneration path) }

/-- The event is recorded as reported. -/
def report (s : State) (event : EventType) (path : String) : State :=
  match event with
  | .created | .modified => { s with reported := Function.update s.reported path true }
  | .deleted =>
    { s with deleteReported := Function.update s.deleteReported path (!s.disk path) }
  | _ => s

/-- `_record_accepted_event`. -/
def recordAccepted (s : State) (event : EventType) (path : String) : State :=
  ((s.report event path).advanceGeneration path).refreshPendingChange path

/-- `_enqueue_realtime_event` and `_handle_queue_result`. -/
def accept (s : State) (event : EventType) (path : String) : State :=
  if s.eventQueue.length < eventQueueMaxsize then
    { s with eventQueue := s.eventQueue ++ [(event, path)] }.recordAccepted event path
  else s

def addFile (s : State) (path : String) (priority : AddPriority) : State :=
  { s with
    queues := (s.queues.addFile path priority (s.latestSourceGeneration path)
      (s.active path)).2 }

def enqueue (s : State) (operation : Operation) (path : String) (generation : Option ℕ) :
    State :=
  { s with queues := s.queues.enqueueNew operation path generation }

/-- `_consume_events`, for an event that is no duplicate. -/
def handleEvent (s : State) (event : EventType) (path : String) : State :=
  match event with
  | .created | .modified => s.addFile path .change
  | .deleted => s.enqueue .delete path (s.latestSourceGeneration path)
  | .dirCreated => s.enqueue .dirIndex path none
  | .dirDeleted => s.enqueue .dirDelete path (s.latestSourceGeneration path)

/-- One turn of `_consume_events`. `inWindow` : the newest event of the path was handled less
than `_EVENT_DEDUP_WINDOW_SECONDS` ago. -/
def consume (s : State) (inWindow : Bool) : Option State :=
  match s.eventQueue with
  | [] => none
  | (event, path) :: rest =>
    let s := { s with eventQueue := rest }
    if s.recentFileEvents path = some event ∧ inWindow then some s
    else
      some ({ s with
        recentFileEvents := Function.update s.recentFileEvents path (some event) }.handleEvent
          event path)

/-- One turn of `_consume_events`, for an event that is no duplicate and whose path cannot be
normalised. -/
def consumeRaises (s : State) : Option State :=
  match s.eventQueue with
  | [] => none
  | (event, path) :: rest =>
    some { s with
      eventQueue := rest
      recentFileEvents := Function.update s.recentFileEvents path (some event) }

/-- `_polling_monitor`, for a file that is new or has changed. -/
def pollChanged (s : State) (path : String) : State :=
  let (admitted, queues) :=
    s.queues.addFile path .change (s.latestSourceGeneration path) (s.active path)
  let s := { s with queues := queues }
  if admitted then s.recordAccepted .modified path
  else
    let s := (s.advanceGeneration path).refreshPendingChange path
    { s with queues := s.queues.reserve path (s.latestSourceGeneration path) }

/-- `_polling_monitor`, for a file that is gone. -/
def pollDeleted (s : State) (path : String) : State :=
  let s := s.recordAccepted .deleted path
  s.enqueue .delete path (s.latestSourceGeneration path)

/-- The deletes of a batch that are carried out : the others were superseded, or are stale. -/
def executable (latest : Generations) (batch : List (Mutation × Bool)) : List Mutation :=
  (batch.filter fun d => d.2 && !d.1.stale latest).map Prod.fst

/-- `_process_loop` begins with a mutation. -/
def begin (s : State) (m : Mutation) (owned : Bool) : State :=
  match m.operation with
  | .change | .scan =>
    if s.disk m.path then { s with worker := .processing m true }
    else { s with worker := .idle none }.fail m.path
  | .delete =>
    let (batch, buffered, queues) := Queues.collectDeletes s.latestSourceGeneration
      (deleteBatchSize - 1) s.queues [(m, owned)]
    match executable s.latestSourceGeneration batch with
    | [] => { s with queues := queues, worker := .idle buffered }
    | deletes => { s with queues := queues, worker := .deleting deletes buffered }
  | .dirDelete => { s with worker := .cleaningDirectory m }
  | .dirIndex => { s with worker := .indexingDirectory m }
  | .embed => { s with worker := .embedding m }

/-- The mutation the worker goes on with : the one kept aside, or one from the queue. -/
def next (s : State) : Option (Mutation × Bool × State) :=
  match s.worker with
  | .idle (some (m, owned)) => some (m, owned, { s with worker := .idle none, held := some m.path })
  | .idle none =>
    (s.queues.dequeue s.latestSourceGeneration).map fun (m, owned, queues) =>
      (m, owned, { s with queues := queues, held := some m.path })
  | _ => none

/-- One turn of `_process_loop`. -/
def take (s : State) : Option State := s.next.map fun (m, owned, s) => s.begin m owned

/-- `_process_loop`, where `_prepare_dequeued_mutation` raises : the mutation that failed is taken
to be the one before. -/
def takeRaises (s : State) : Option State :=
  match s.worker with
  | .idle none =>
    match s.queues.dequeueRaises with
    | some queues => some ({ s with queues := queues }.fail (s.held.getD "<unknown>"))
    | none =>
      s.next.bind fun (m, _, s) =>
        if m.operation = .delete then
          (s.queues.collectRaises s.latestSourceGeneration (deleteBatchSize - 1)).map fun queues =>
            { s with queues := queues }.fail m.path
        else none
  | _ => none

/-- `_process_delete_mutation` or `_process_delete_batch`, where a staleness check raises : the
first of the batch fails. -/
def checkRaises (s : State) : Option State :=
  s.next.bind fun (m, owned, s) =>
    if m.operation = .delete then
      let (_, buffered, queues) := Queues.collectDeletes s.latestSourceGeneration
        (deleteBatchSize - 1) s.queues [(m, owned)]
      some ({ s with queues := queues, worker := .idle buffered }.fail m.path)
    else none

/-- `_handle_compaction_busy`. -/
def retryOrFail (s : State) (m : Mutation) : State :=
  match s.queues.scheduleRetry m with
  | some queues => { s with queues := queues }
  | none => s.fail m.path

/-- A delete that met a transaction conflict. -/
def retryDelete (s : State) (m : Mutation) : State :=
  match s.queues.scheduleDeleteRetry s.latestSourceGeneration m with
  | some queues => { s with queues := queues }
  | none => s.fail m.path

/-- The database is done with a batch, some of whose paths it has deleted. -/
def endDelete (s : State) (batch : List Mutation) (buffered : Option (Mutation × Bool))
    (deleted : List String) : State :=
  { s with
    worker := .idle buffered
    rows := fun p => s.rows p && !(batch.any fun m => m.path = p ∧ p ∈ deleted) }

/-- A delete that is put off is scheduled again while its retries last. -/
def reschedule (s : State) (outcome : Outcome) (m : Mutation) : State :=
  match (if outcome = .conflict then s.queues.scheduleDeleteRetry s.latestSourceGeneration m
    else s.queues.scheduleRetry m) with
  | some queues => { s with queues := queues }
  | none => s

/-- A batch is put off, and the path of the one behind the first `n` cannot be normalised : the
first of the batch fails. -/
def retriesRaise (s : State) (outcome : Outcome) (n : ℕ) (deleted : List String) : Option State :=
  match s.worker with
  | .deleting batch buffered =>
    if outcome = .conflict ∨ outcome = .unavailable then
      some (((batch.take n).foldl (fun s m => s.reschedule outcome m)
        (s.endDelete batch buffered deleted)).fail (s.held.getD "<unknown>"))
    else none
  | _ => none

/-- The path is no longer active, and its reserved follow-up is queued. -/
def endReading (s : State) (path : String) : State :=
  { s with worker := .idle none, queues := s.queues.drain path }

/-- `process_file` returns or raises. -/
def finishProcessing (s : State) (m : Mutation) (fresh : Bool) (outcome : Outcome)
    (wrote : Bool) : State :=
  let s := { s with rows := Function.update s.rows m.path (s.rows m.path || wrote) }
  let returned := fun seen =>
    let s := { s with
      read := Function.update s.read m.path (s.read m.path || seen)
      recentFileEvents := Function.update s.recentFileEvents m.path none }
    (s.addFile m.path .embed).endReading m.path
  match outcome with
  | .ok => returned fresh
  | .unread => returned false
  | .unavailable => (s.endReading m.path).retryOrFail m
  | _ => (s.endReading m.path).fail m.path

/-- `delete_files_batch_async` returns or raises, once it has deleted some of the paths. LanceDB
returns also where it has not deleted a path. -/
def finishDelete (s : State) (batch : List Mutation) (buffered : Option (Mutation × Bool))
    (outcome : Outcome) (deleted : List String) : State :=
  let s := s.endDelete batch buffered deleted
  match outcome with
  | .ok | .unread => s
  | .conflict => batch.foldl retryDelete s
  | .unavailable => batch.foldl retryOrFail s
  | .error => batch.foldl (fun s m => s.fail m.path) s

/-- The worker is done. `files` : what a directory holds, in the database or on the disk, or what
the database deleted. -/
def finish (s : State) (outcome : Outcome) (wrote : Bool) (files : List String) : Option State :=
  match s.worker with
  | .idle _ => none
  | .processing m fresh => some (s.finishProcessing m fresh outcome wrote)
  | .deleting batch buffered => some (s.finishDelete batch buffered outcome files)
  | .cleaningDirectory m =>
    let s := files.foldl (fun s f => s.enqueue .delete f m.sourceGeneration)
      { s with worker := .idle none }
    match outcome with
    | .ok => some s
    | .unavailable => some (s.retryOrFail m)
    | _ => some (s.fail m.path)
  | .indexingDirectory _ =>
    let s := { s with worker := .idle none }
    if outcome = .ok then some (files.foldl (fun s f => s.addFile f .change) s) else some s
  | .embedding m =>
    let s := { s with worker := .idle none }
    if outcome = .unavailable then some (s.retryOrFail m) else some s

/-- The file is written : its content has not been read, and its presence not been reported. -/
def write (s : State) (path : String) : State :=
  { s with
    disk := Function.update s.disk path true
    read := Function.update s.read path false
    reported := Function.update s.reported path false
    deleteReported := Function.update s.deleteReported path false
    worker :=
      match s.worker with
      | .processing m fresh => .processing m (fresh && m.path ≠ path)
      | w => w }

end State

/-- One step of the pipeline, of the disk or of the database. -/
def step (s : State) : Action → Option State
  | .write path => some (s.write path)
  | .unlink path =>
    if s.disk path then some { s with disk := Function.update s.disk path false } else none
  | .accept event path => some (s.accept event path)
  | .consume inWindow => s.consume inWindow
  | .consumeRaises => s.consumeRaises
  | .forget path =>
    some { s with recentFileEvents := Function.update s.recentFileEvents path none }
  | .pollChanged path => some (s.pollChanged path)
  | .pollDeleted path => some (s.pollDeleted path)
  | .addFile path priority => some (s.addFile path priority)
  | .debounceFires i => (s.queues.debounceFires i).map fun q => { s with queues := q }
  | .retryFires i =>
    (s.queues.retryFires s.latestSourceGeneration i).map fun q => { s with queues := q }
  | .retryRaises i => (s.queues.retryRaises i).map fun q => { s with queues := q }
  | .take => s.take
  | .takeRaises => s.takeRaises
  | .checkRaises => s.checkRaises
  | .retriesRaise outcome n files => s.retriesRaise outcome n files
  | .finish outcome wrote files => s.finish outcome wrote files

end ChunkHound.Realtime
