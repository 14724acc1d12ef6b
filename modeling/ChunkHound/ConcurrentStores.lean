import ChunkHound.CrashHoare
import ChunkHound.SmartStore

/-!
# Two stores on one connection

Two `_store_parsed_results` coroutines that store different files through one provider, one
executor operation at a time. There is one connection, so one transaction : an operation goes
to the open transaction, whoever began it, and commits by itself where there is none. `BEGIN`
raises inside a transaction, and the handler's `ROLLBACK` then ends that one.

Where no operation of a store falls between another's `BEGIN` and its `COMMIT` or `ROLLBACK`,
the stores are isolated (`isolated_of_exclusive`) : what is left of a transaction, run on what
it sees, is `storeFile` on the committed tables (`finish`), so the committed tables are those of
whole files stored one after the other. The locks of `process_file` are per file and do not see
to that.
-/

namespace ChunkHound.Stores

open CrashHoare StepSystem

/-! ## The connection -/

/-- The committed tables, and what the open transaction sees. -/
structure StoreDb where
  committed : IndexDb
  transaction : Option IndexDb

namespace StoreDb

/-- What a statement reads. -/
def view (db : StoreDb) : IndexDb := db.transaction.getD db.committed

/-- A statement in the open transaction, or one that commits by itself. -/
def write (db : StoreDb) (tables : IndexDb) : StoreDb :=
  match db.transaction with
  | some _ => { db with transaction := some tables }
  | none => { db with committed := tables }

/-- `BEGIN TRANSACTION`. None when it raises. -/
def begin_ (db : StoreDb) : Option StoreDb :=
  match db.transaction with
  | some _ => none
  | none => some { db with transaction := some db.committed }

/-- `COMMIT`. None when it raises. -/
def commit (db : StoreDb) : Option StoreDb :=
  db.transaction.map fun tables => ⟨tables, none⟩

/-- `ROLLBACK`. Without a transaction it is skipped. -/
def rollback (db : StoreDb) : StoreDb := { db with transaction := none }

end StoreDb

/-- The database after an operation, and whether it returned. -/
def perform (o : Outcome) (db : StoreDb) (f : StoreDb → Option StoreDb) : StoreDb × Bool :=
  match o, f db with
  | .ok, some db' => (db', true)
  | .failedAfter, some db' => (db', false)
  | _, _ => (db, false)

/-! ## A coroutine -/

/-- Where a coroutine is : before the next file, before an operation of a transaction, or before
the `ROLLBACK` of one of the two handlers. -/
inductive StorePhase
  | idle
  | begun
  | looked (existingFile : Option FileEntry)
  | recorded (fileId : ℕ)
  | deleting (ids : List ℕ) (chunksToStore : List Chunk)
  | inserting (chunksToStore : List Chunk)
  | committing
  | failed
  | cancelled
  | stopped
  deriving DecidableEq

/-- `results` are the files to store, the current one first, and `stored` those counted as
stored. -/
structure Store where
  phase : StorePhase
  results : List ParsedFileResult
  stored : List ParsedFileResult

namespace StorePhase

/-- Between `BEGIN` and the `COMMIT` or `ROLLBACK` that ends the transaction. -/
def inside : StorePhase → Bool
  | .idle => false
  | .stopped => false
  | _ => true

/-- Before a statement or the `COMMIT` of a transaction. -/
def active : StorePhase → Bool
  | .begun => true
  | .looked _ => true
  | .recorded _ => true
  | .deleting _ _ => true
  | .inserting _ => true
  | .committing => true
  | _ => false

end StorePhase

section Phases

variable (splitter : Splitter) (order : IterationOrder)

/-- The operations that follow `get_chunks_by_file_id`. A list that is empty has no operation. -/
def afterRead (r : ParsedFileResult) (fileId : ℕ) (existingChunks : List Chunk) : StorePhase :=
  let newChunkModels := r.chunks.map (withFileId fileId)
  if existingChunks ≠ [] then
    let chunkDiff := diffChunks order newChunkModels existingChunks
    let ids := (chunkDiff.deleted ++ chunkDiff.modified).filterMap (·.id)
    let chunksToStore := validateChunkSizes splitter (chunkDiff.added ++ chunkDiff.modified)
    if ids ≠ [] then .deleting ids chunksToStore
    else if chunksToStore = [] then .committing
    else .inserting chunksToStore
  else .inserting (validateChunkSizes splitter newChunkModels)

/-- The second operation of `_store_file_record`. -/
def recordFile (tables : IndexDb) (r : ParsedFileResult) :
    Option FileEntry → ℕ × Bool × IndexDb
  | some f => (f.id, true, tables.updateFile f.id r.fileSize r.fileMtime r.contentHash)
  | none => (tables.filesIdSeq, false, tables.insertFile r)

/-- The next operation of a coroutine in a transaction, the tables it leaves and the phase after
it. -/
def statement (r : ParsedFileResult) (tables : IndexDb) : StorePhase → IndexDb × StorePhase
  | .begun => (tables, .looked (tables.getFileByPath r.path))
  | .looked existingFile =>
    let (fileId, isExisting, tables) := recordFile tables r existingFile
    (tables, if isExisting then .recorded fileId else
      .inserting (validateChunkSizes splitter (r.chunks.map (withFileId fileId))))
  | .recorded fileId => (tables, afterRead splitter order r fileId (tables.getChunksByFileId fileId))
  | .deleting ids chunksToStore =>
    (tables.deleteChunksBatch ids,
      if chunksToStore = [] then .committing else .inserting chunksToStore)
  | .inserting chunksToStore => ((tables.insertChunksBatch chunksToStore).1, .committing)
  | phase => (tables, phase)

/-- The handler of an operation that did not return. -/
def handler (isCancelled : Bool) : StorePhase := if isCancelled then .cancelled else .failed

/-- One executor operation of a coroutine, and the `CancelledError` it may be given while it
awaits it. None when the coroutine has ended. A progress update that raises is no step of its own :
after the `COMMIT` it is one that took effect and did not return, elsewhere it ends the
coroutine. -/
def Store.op (o : Outcome) (isCancelled : Bool) (db : StoreDb) (st : Store) :
    Option (StoreDb × Store) :=
  match st.phase, st.results with
  | .stopped, _ => none
  | _, [] => none
  | .idle, r :: rest =>
    match r.status with
    | .error _ => some (db, { st with results := rest })
    | .skipped reason =>
      let (db, returned) := perform o db fun db =>
        some (db.write (db.view.recordSkippedFile r reason))
      some (db, { st with
        phase := if returned || !isCancelled then .idle else .stopped
        results := rest })
    | .success =>
      let (db, returned) := perform o db StoreDb.begin_
      some (db, { st with phase := if returned then .begun else handler isCancelled })
  | .committing, r :: rest =>
    let (db, returned) := perform o db StoreDb.commit
    some (db, if returned then ⟨.idle, rest, r :: st.stored⟩
      else { st with phase := handler isCancelled })
  | .failed, _ :: rest =>
    let (db, returned) := perform o db fun db => some db.rollback
    some (db, { st with phase := if returned then .idle else .stopped, results := rest })
  | .cancelled, _ :: rest =>
    let (db, _) := perform o db fun db => some db.rollback
    some (db, { st with phase := .stopped, results := rest })
  | phase, r :: _ =>
    let (db', returned) := perform o db fun db =>
      some (db.write (statement splitter order r db.view phase).1)
    some (db', { st with
      phase := if returned then (statement splitter order r db.view phase).2
        else handler isCancelled })

end Phases

/-! ## Two coroutines -/

structure StoreRun where
  db : StoreDb
  stores : Bool → Store

/-- The coroutine whose operation is executed, what becomes of it, and whether the coroutine is
cancelled meanwhile. -/
structure StoreStep where
  who : Bool
  outcome : Outcome
  isCancelled : Bool
  deriving DecidableEq

def StoreRun.step (splitter : Splitter) (order : IterationOrder) (s : StoreRun) (a : StoreStep) :
    Option StoreRun :=
  ((s.stores a.who).op splitter order a.outcome a.isCancelled s.db).map fun (db, st) =>
    ⟨db, Function.update s.stores a.who st⟩

/-- Two coroutines about to start. -/
def StoreRun.start (db : IndexDb) (results : Bool → List ParsedFileResult) : StoreRun where
  db := ⟨db, none⟩
  stores who := ⟨.idle, results who, []⟩

/-- No operation between the `BEGIN` of the other coroutine and the end of its transaction. -/
def Exclusive (s : StoreRun) (a : StoreStep) : Prop :=
  (s.stores !a.who).phase.inside = false

instance (s : StoreRun) (a : StoreStep) : Decidable (Exclusive s a) :=
  inferInstanceAs (Decidable (_ = _))

/-! ## Isolation -/

section Isolation

variable (splitter : Splitter) (order : IterationOrder)

/-- The rows a file has once `r` is stored : those still parsed, and the new contents. -/
def NewRows (rows : List ChunkEntry) (r : ParsedFileResult) (rows' : List ChunkEntry) : Prop :=
  ∃ fileId n, rows' = keptRows rows r.chunks ++ IndexDb.newEntries n (validateChunkSizes splitter
    ((insertedChunks order rows r.chunks).map (withFileId fileId)))

/-- The files a coroutine has not finished with. -/
def Store.pending (st : Store) : List ParsedFileResult :=
  match st.phase with
  | .failed => st.results.tail
  | .cancelled => st.results.tail
  | _ => st.results

/-- Each file has its old rows or completely new ones : new ones once it is counted as stored, and
old ones until its commit. -/
def Isolated (db : IndexDb) (results : Bool → List ParsedFileResult) (s : StoreRun) : Prop :=
  ∀ who, ∀ r ∈ results who, r.status = .success →
    (s.db.committed.fileChunks r.path = db.fileChunks r.path ∨
      NewRows splitter order (db.fileChunks r.path) r (s.db.committed.fileChunks r.path)) ∧
    (r ∈ (s.stores who).stored →
      NewRows splitter order (db.fileChunks r.path) r (s.db.committed.fileChunks r.path)) ∧
    (r ∈ (s.stores who).pending →
      s.db.committed.fileChunks r.path = db.fileChunks r.path)

end Isolation

/-! ## What is left of a transaction -/

section Finish

variable {splitter : Splitter} {order : IterationOrder} {r : ParsedFileResult}

theorem deleteChunksBatch_nil (db : IndexDb) : db.deleteChunksBatch [] = db := by
  simp [IndexDb.deleteChunksBatch]

theorem insertChunksBatch_nil (db : IndexDb) : (db.insertChunksBatch []).1 = db := by
  simp [IndexDb.insertChunksBatch, IndexDb.newEntries]

/-- The tables when the rest of the transaction has run. -/
def finish (splitter : Splitter) (order : IterationOrder) (r : ParsedFileResult)
    (tables : IndexDb) : StorePhase → IndexDb
  | .begun => (storeFile splitter order tables r).1
  | .looked existingFile => finishRecord (recordFile tables r existingFile)
  | .recorded fileId =>
    finishRead tables (afterRead splitter order r fileId (tables.getChunksByFileId fileId))
  | phase => finishRead tables phase
where
  /-- The same after the file was recorded. -/
  finishRecord : ℕ × Bool × IndexDb → IndexDb
    | (fileId, true, tables) =>
      finishRead tables (afterRead splitter order r fileId (tables.getChunksByFileId fileId))
    | (fileId, false, tables) =>
      (tables.insertChunksBatch
        (validateChunkSizes splitter (r.chunks.map (withFileId fileId)))).1
  /-- The same after the chunks were read. -/
  finishRead (tables : IndexDb) : StorePhase → IndexDb
    | .deleting ids chunksToStore =>
      ((tables.deleteChunksBatch ids).insertChunksBatch chunksToStore).1
    | .inserting chunksToStore => (tables.insertChunksBatch chunksToStore).1
    | _ => tables

/-- Deleting and inserting what the diff says, where lists that are empty have no operation. -/
theorem finishRead_afterRead (tables : IndexDb) (fileId : ℕ) (existingChunks : List Chunk) :
    finish.finishRead tables (afterRead splitter order r fileId existingChunks) =
      (if existingChunks ≠ [] then
        let chunkDiff := diffChunks order (r.chunks.map (withFileId fileId)) existingChunks
        (tables.deleteChunksBatch
          ((chunkDiff.deleted ++ chunkDiff.modified).filterMap (·.id))).insertChunksBatch
            (validateChunkSizes splitter (chunkDiff.added ++ chunkDiff.modified))
      else tables.insertChunksBatch
        (validateChunkSizes splitter (r.chunks.map (withFileId fileId)))).1 := by
  unfold afterRead
  by_cases hE : existingChunks ≠ []
  · simp only [if_pos hE]
    split
    · rfl
    · rename_i hids
      rw [not_not.1 hids, deleteChunksBatch_nil]
      split
      · rename_i hnil
        rw [hnil, insertChunksBatch_nil]
        rfl
      · rfl
  · simp only [if_neg hE]
    rfl

theorem finish_afterRead (tables : IndexDb) (fileId : ℕ) (existingChunks : List Chunk) :
    finish splitter order r tables (afterRead splitter order r fileId existingChunks) =
      finish.finishRead tables (afterRead splitter order r fileId existingChunks) := by
  unfold afterRead
  by_cases hE : existingChunks ≠ []
  · simp only [if_pos hE]
    split
    · rfl
    · split <;> rfl
  · simp only [if_neg hE]
    rfl

theorem recordFile_getFileByPath (tables : IndexDb) :
    recordFile tables r (tables.getFileByPath r.path) = storeFileRecord tables r := by
  unfold storeFileRecord
  cases tables.getFileByPath r.path <;> rfl

/-- A statement leaves the same end. -/
theorem finish_statement (tables : IndexDb) (phase : StorePhase) :
    finish splitter order r (statement splitter order r tables phase).1
      (statement splitter order r tables phase).2 = finish splitter order r tables phase := by
  cases phase with
  | begun =>
    show finish.finishRecord splitter order r
      (recordFile tables r (tables.getFileByPath r.path)) = (storeFile splitter order tables r).1
    rw [recordFile_getFileByPath]
    unfold storeFile
    generalize storeFileRecord tables r = recorded
    obtain ⟨fileId, isExisting, tables'⟩ := recorded
    cases isExisting with
    | false => rfl
    | true => exact finishRead_afterRead tables' fileId _
  | looked existingFile =>
    cases existingFile with
    | some f => rfl
    | none => rfl
  | recorded fileId => exact finish_afterRead tables fileId _
  | deleting ids chunksToStore =>
    show finish splitter order r (tables.deleteChunksBatch ids)
      (if chunksToStore = [] then .committing else .inserting chunksToStore) = _
    split
    · rename_i hnil
      rw [hnil]
      exact (insertChunksBatch_nil _).symm
    · rfl
  | inserting chunksToStore => rfl
  | idle => rfl
  | committing => rfl
  | failed => rfl
  | cancelled => rfl
  | stopped => rfl

end Finish

/-! ## The files stored one after the other -/

section Replay

variable (splitter : Splitter) (order : IterationOrder)

/-- The tables when results were stored in that order, each by itself. -/
def replay (db : IndexDb) (log : List ParsedFileResult) : IndexDb :=
  (log.foldl (storeParsedResult splitter order) (db, .empty)).1

theorem replay_append (db : IndexDb) (log : List ParsedFileResult) (r : ParsedFileResult) :
    replay splitter order db (log ++ [r]) =
      match r.status with
      | .error _ => replay splitter order db log
      | .skipped reason => (replay splitter order db log).recordSkippedFile r reason
      | .success => (storeFile splitter order (replay splitter order db log) r).1 := by
  rw [replay, List.foldl_append, List.foldl_cons, List.foldl_nil, storeParsedResult]
  cases r.status <;> rfl

end Replay

/-! ## What the operations keep -/

/-- A coroutine counts as stored only what was committed, and has nothing of that before it. -/
structure Store.Logged (results log : List ParsedFileResult) (st : Store) : Prop where
  stored : st.stored ⊆ log
  pending : ∀ r ∈ st.pending, r ∉ log
  rest : st.results <:+ results

/-- The open transaction of a coroutine will have stored its file when it has run. -/
def Store.Finishing (splitter : Splitter) (order : IterationOrder) (db : StoreDb) (st : Store) :
    Prop :=
  st.phase.active = true → ∃ r rest tables, st.results = r :: rest ∧ r.status = .success ∧
    db.transaction = some tables ∧
      finish splitter order r tables st.phase = (storeFile splitter order db.committed r).1

/-! ## One operation -/

/-- An operation that commits nothing and stays with the file : another operation of its
transaction comes next, or a handler. -/
structure Store.Continues (splitter : Splitter) (order : IterationOrder) (isCancelled : Bool)
    (db db' : StoreDb) (st st' : Store) : Prop where
  committed : db'.committed = db.committed
  results : st'.results = st.results
  stored : st'.stored = st.stored
  finishing : st'.Finishing splitter order db'
  phase : st'.phase.active = true ∨ st'.phase = handler isCancelled

section Operation

variable {splitter : Splitter} {order : IterationOrder} {o : Outcome} {isCancelled : Bool}
variable {sdb sdb' : StoreDb} {tables : IndexDb} {phase : StorePhase} {st' : Store}
variable {r : ParsedFileResult} {rest stored : List ParsedFileResult}

theorem inside_of_active {phase : StorePhase} (h : phase.active = true) : phase.inside = true := by
  cases phase <;> first | rfl | cases h

theorem handler_not_active (isCancelled : Bool) : (handler isCancelled).active = false := by
  cases isCancelled <;> rfl

theorem finishing_of_not_active {st : Store} (h : st.phase.active = false) :
    st.Finishing splitter order sdb := by
  intro hact
  rw [hact] at h
  cases h

theorem finishing_of_not_inside {st : Store} (h : st.phase.inside = false) :
    st.Finishing splitter order sdb := by
  intro hact
  rw [inside_of_active hact] at h
  cases h

/-- What an operation did, or that it did nothing and raised. -/
theorem perform_cases {o : Outcome} {sdb : StoreDb} {f : StoreDb → Option StoreDb} {sdb' : StoreDb}
    {returned : Bool} (h : perform o sdb f = (sdb', returned)) :
    f sdb = some sdb' ∨ (sdb' = sdb ∧ returned = false) := by
  unfold perform at h
  split at h
  · rename_i hf
    obtain ⟨rfl, -⟩ := Prod.mk.inj h
    exact Or.inl hf
  · rename_i hf
    obtain ⟨rfl, -⟩ := Prod.mk.inj h
    exact Or.inl hf
  · obtain ⟨rfl, rfl⟩ := Prod.mk.inj h
    exact Or.inr ⟨rfl, rfl⟩

/-- A statement is followed by another or by the `COMMIT`. -/
theorem statement_active (h : phase.active = true) :
    (statement splitter order r tables phase).2.active = true := by
  cases phase with
  | begun => rfl
  | looked existingFile => cases existingFile <;> rfl
  | recorded fileId =>
    show (afterRead splitter order r fileId _).active = true
    unfold afterRead
    by_cases hE : tables.getChunksByFileId fileId ≠ []
    · simp only [if_pos hE]
      split
      · rfl
      · split <;> rfl
    · simp only [if_neg hE]
      rfl
  | deleting ids chunksToStore =>
    show (if chunksToStore = [] then StorePhase.committing else .inserting chunksToStore).active =
      true
    split <;> rfl
  | inserting chunksToStore => rfl
  | committing => rfl
  | idle => cases h
  | failed => cases h
  | cancelled => cases h
  | stopped => cases h

/-- The operation of a phase that only executes a statement. -/
theorem op_statement (hact : phase.active = true) (hne : phase ≠ .committing) :
    (⟨phase, r :: rest, stored⟩ : Store).op splitter order o isCancelled sdb =
      (let (sdb', returned) := perform o sdb fun db =>
        some (db.write (statement splitter order r db.view phase).1)
      some (sdb', ⟨if returned then (statement splitter order r sdb.view phase).2
        else handler isCancelled, r :: rest, stored⟩)) := by
  cases phase <;> first | rfl | exact absurd rfl hne | cases hact

/-- An operation that raised goes to its handler. -/
theorem continues_handler (hcommitted : sdb'.committed = sdb.committed) :
    Store.Continues splitter order isCancelled sdb sdb' ⟨phase, r :: rest, stored⟩
      ⟨handler isCancelled, r :: rest, stored⟩ where
  committed := hcommitted
  results := rfl
  stored := rfl
  finishing := finishing_of_not_active (handler_not_active isCancelled)
  phase := Or.inr rfl

/-- `BEGIN`. -/
theorem begin_continues (hs : r.status = .success)
    (hop : (⟨.idle, r :: rest, stored⟩ : Store).op splitter order o isCancelled sdb =
      some (sdb', st')) :
    Store.Continues splitter order isCancelled sdb sdb' ⟨.idle, r :: rest, stored⟩ st' := by
  simp only [Store.op, hs] at hop
  generalize hperform : perform o sdb StoreDb.begin_ = performed at hop
  obtain ⟨sdb'', returned⟩ := performed
  obtain ⟨rfl, rfl⟩ := Prod.mk.inj (Option.some.inj hop)
  rcases perform_cases hperform with hbegin | ⟨rfl, rfl⟩
  · cases htr : sdb.transaction with
    | some tables => simp [StoreDb.begin_, htr] at hbegin
    | none =>
      simp only [StoreDb.begin_, htr, Option.some.injEq] at hbegin
      subst hbegin
      cases returned with
      | true =>
        exact ⟨rfl, rfl, rfl, fun _ => ⟨r, rest, sdb.committed, rfl, hs, rfl, rfl⟩, Or.inl rfl⟩
      | false => exact continues_handler rfl
  · exact continues_handler rfl

/-- A statement of a transaction. -/
theorem statement_continues (hact : phase.active = true) (hne : phase ≠ .committing)
    (hf : (⟨phase, r :: rest, stored⟩ : Store).Finishing splitter order sdb)
    (hop : (⟨phase, r :: rest, stored⟩ : Store).op splitter order o isCancelled sdb =
      some (sdb', st')) :
    Store.Continues splitter order isCancelled sdb sdb' ⟨phase, r :: rest, stored⟩ st' := by
  rw [op_statement hact hne] at hop
  generalize hperform : perform o sdb (fun db =>
    some (db.write (statement splitter order r db.view phase).1)) = performed at hop
  obtain ⟨sdb'', returned⟩ := performed
  obtain ⟨rfl, rfl⟩ := Prod.mk.inj (Option.some.inj hop)
  obtain ⟨r', rest', tables, hres, hs, htr, hfinish⟩ := hf hact
  obtain ⟨rfl, rfl⟩ := List.cons.inj hres
  rcases perform_cases hperform with hwrite | ⟨rfl, rfl⟩
  · obtain rfl := Option.some.inj hwrite
    have hview : sdb.view = tables := by simp [StoreDb.view, htr]
    have hcommitted : (sdb.write (statement splitter order r sdb.view phase).1).committed =
        sdb.committed := by simp [StoreDb.write, htr]
    cases returned with
    | true =>
      refine ⟨hcommitted, rfl, rfl, fun _ => ?_, Or.inl (statement_active hact)⟩
      refine ⟨r, rest, (statement splitter order r tables phase).1, rfl, hs, ?_, ?_⟩
      · simp [StoreDb.write, htr, hview]
      · rw [hcommitted, ← hfinish, hview]
        exact finish_statement tables phase
    | false => exact continues_handler hcommitted
  · exact continues_handler rfl

end Operation

/-! ## Two stores -/

/-- What holds while no coroutine comes between another's operations. `log` are the files that
were committed, in order. -/
structure Inv (splitter : Splitter) (order : IterationOrder) (db : IndexDb)
    (results : Bool → List ParsedFileResult) (s : StoreRun) (log : List ParsedFileResult) :
    Prop where
  committed : s.db.committed = replay splitter order db log
  nodup : (log.map (·.path)).Nodup
  ofResults : ∀ r ∈ log, ∃ who, r ∈ results who
  logged : ∀ who, (s.stores who).Logged (results who) log
  exclusive : ∀ who, (s.stores who).phase.inside = true → (s.stores !who).phase.inside = false
  finishing : ∀ who, (s.stores who).Finishing splitter order s.db

theorem mem_results_of_pending {st : Store} {r : ParsedFileResult} (h : r ∈ st.pending) :
    r ∈ st.results := by
  unfold Store.pending at h
  split at h
  · exact List.mem_of_mem_tail h
  · exact List.mem_of_mem_tail h
  · exact h

/-- No file is in both lists, nor twice in one. -/
def Distinct (results : Bool → List ParsedFileResult) : Prop :=
  ((results true ++ results false).map (·.path)).Nodup

variable {results : Bool → List ParsedFileResult}

theorem Distinct.nodup (h : Distinct results)
    (who : Bool) : ((results who).map (·.path)).Nodup := by
  rw [Distinct, List.map_append] at h
  cases who with
  | true => exact h.of_append_left
  | false => exact h.of_append_right

theorem Distinct.path_inj (h : Distinct results)
    {r r' : ParsedFileResult} {who who' : Bool} (hr : r ∈ results who) (hr' : r' ∈ results who')
    (hp : r.path = r'.path) : r = r' := by
  have hmem : ∀ {x : ParsedFileResult} {w : Bool}, x ∈ results w →
      x ∈ results true ++ results false := by
    intro x w hx
    cases w with
    | true => exact List.mem_append_left _ hx
    | false => exact List.mem_append_right _ hx
  exact List.inj_on_of_nodup_map h (hmem hr) (hmem hr') hp

/-- The coroutines have no file in common. -/
theorem Distinct.ne (h : Distinct results)
    {r r' : ParsedFileResult} {who : Bool} (hr : r ∈ results who) (hr' : r' ∈ results !who) :
    r ≠ r' := by
  rintro rfl
  rw [Distinct, List.map_append] at h
  have hdis := List.disjoint_of_nodup_append h
  cases who with
  | true => exact hdis (List.mem_map_of_mem hr) (List.mem_map_of_mem hr')
  | false => exact hdis (List.mem_map_of_mem hr') (List.mem_map_of_mem hr)

theorem forall_update {f : Bool → Store} {who : Bool} {st : Store} {P : Bool → Store → Prop}
    (hself : P who st) (hother : P (!who) (f !who)) (w : Bool) :
    P w (Function.update f who st w) := by
  by_cases hw : w = who
  · subst hw
    rwa [Function.update_self]
  · obtain rfl : w = !who := Bool.eq_not.2 hw
    rwa [Function.update_of_ne hw]

section Step

variable {splitter : Splitter} {order : IterationOrder} {db : IndexDb}
variable {results : Bool → List ParsedFileResult} {s : StoreRun} {log : List ParsedFileResult}
variable {who : Bool} {db' : StoreDb} {st' : Store}

theorem exclusive_update (hex : (s.stores !who).phase.inside = false) (w : Bool) :
    (Function.update s.stores who st' w).phase.inside = true →
      (Function.update s.stores who st' !w).phase.inside = false := by
  have hne : (!who) ≠ who := by cases who <;> decide
  by_cases hw : w = who
  · subst hw
    rw [Function.update_of_ne hne]
    exact fun _ => hex
  · obtain rfl : w = !who := Bool.eq_not.2 hw
    rw [Function.update_of_ne hne, hex]
    exact nofun

/-- An operation that commits nothing. -/
theorem Inv.same (h : Inv splitter order db results s log)
    (hex : (s.stores !who).phase.inside = false) (hcommitted : db'.committed = s.db.committed)
    (hlogged : st'.Logged (results who) log) (hfinishing : st'.Finishing splitter order db') :
    Inv splitter order db results ⟨db', Function.update s.stores who st'⟩ log where
  committed := hcommitted.trans h.committed
  nodup := h.nodup
  ofResults := h.ofResults
  logged := forall_update (P := fun w st => st.Logged (results w) log) hlogged (h.logged _)
  exclusive := exclusive_update hex
  finishing := forall_update (P := fun _ st => st.Finishing splitter order db') hfinishing
    (finishing_of_not_inside hex)

variable {r : ParsedFileResult}

/-- An operation that commits a file. -/
theorem Inv.commits (h : Inv splitter order db results s log) (hdis : Distinct results)
    (hex : (s.stores !who).phase.inside = false) (hr : r ∈ results who)
    (hnew : r ∉ log) (hcommitted : db'.committed = replay splitter order db (log ++ [r]))
    (hlogged : st'.Logged (results who) (log ++ [r])) (hidle : st'.phase.active = false) :
    Inv splitter order db results ⟨db', Function.update s.stores who st'⟩ (log ++ [r]) where
  committed := hcommitted
  nodup := by
    rw [List.map_append, List.map_singleton]
    refine h.nodup.append (List.nodup_singleton _) ?_
    rw [List.disjoint_singleton]
    intro hmem
    obtain ⟨r', hr', hp⟩ := List.mem_map.1 hmem
    obtain ⟨who', hwho'⟩ := h.ofResults r' hr'
    rw [hdis.path_inj hwho' hr hp] at hr'
    exact hnew hr'
  ofResults := by
    intro r' hr'
    rcases List.mem_append.1 hr' with hr' | hr'
    · exact h.ofResults r' hr'
    · exact ⟨who, List.mem_singleton.1 hr' ▸ hr⟩
  logged := by
    refine forall_update (P := fun w st => st.Logged (results w) (log ++ [r])) hlogged ?_
    obtain ⟨hstored, hpending, hrest⟩ := h.logged !who
    refine ⟨fun x hx => List.mem_append_left _ (hstored hx), fun x hx hmem => ?_, hrest⟩
    rcases List.mem_append.1 hmem with hmem | hmem
    · exact hpending x hx hmem
    · have hxr : x ∈ results !who := hrest.subset (mem_results_of_pending hx)
      exact hdis.ne hr hxr (List.mem_singleton.1 hmem).symm
  exclusive := exclusive_update hex
  finishing := forall_update (P := fun _ st => st.Finishing splitter order db')
    (finishing_of_not_active hidle) (finishing_of_not_inside hex)

variable {st : Store}

/-- A coroutine that counts nothing as stored. -/
theorem Store.Logged.cont (h : st.Logged (results who) log)
    (hstored : st'.stored = st.stored) (hpending : st'.pending ⊆ st.pending)
    (hrest : st'.results <:+ st.results) : st'.Logged (results who) log :=
  ⟨hstored ▸ h.stored, fun r hr => h.pending r (hpending hr), hrest.trans h.rest⟩

/-- A statement of a transaction. -/
theorem statement_logged (h : st.Logged (results who) log) {phase : StorePhase}
    (hact : st.phase.active = true) :
    (⟨phase, st.results, st.stored⟩ : Store).Logged (results who) log := by
  refine h.cont rfl (fun r hr => ?_) (List.suffix_refl _)
  have hst : st.pending = st.results := by
    unfold Store.pending
    revert hact
    cases st.phase <;> first | exact fun _ => rfl | exact nofun
  rw [hst]
  have hres := mem_results_of_pending hr
  exact hres

/-- The next file. -/
theorem next_logged (h : st.Logged (results who) log)
    {rest : List ParsedFileResult} (hres : st.results = r :: rest) (phase : StorePhase) :
    (⟨phase, rest, st.stored⟩ : Store).Logged (results who) log := by
  refine h.cont rfl (fun r' hr' => ?_) (hres ▸ List.suffix_cons r rest)
  have hmem : r' ∈ rest := mem_results_of_pending hr'
  unfold Store.pending
  rw [hres]
  split
  · exact hmem
  · exact hmem
  · exact List.mem_cons_of_mem r hmem

/-- The next file, when this one was committed. -/
theorem commit_logged (hdis : Distinct results) (h : st.Logged (results who) log)
    {rest : List ParsedFileResult} (hres : st.results = r :: rest)
    (phase : StorePhase) {stored : List ParsedFileResult} (hstored : stored ⊆ log ++ [r]) :
    (⟨phase, rest, stored⟩ : Store).Logged (results who) (log ++ [r]) := by
  have hnext := next_logged h hres phase
  refine ⟨hstored, fun r' hr' hmem => ?_, hnext.rest⟩
  rcases List.mem_append.1 hmem with hmem | hmem
  · exact hnext.pending r' hr' hmem
  · have hpaths : ((r :: rest).map (·.path)).Nodup :=
      (hdis.nodup who).sublist ((hres ▸ h.rest).sublist.map _)
    obtain rfl := List.mem_singleton.1 hmem
    have hrest : r' ∈ rest := mem_results_of_pending hr'
    exact (List.nodup_cons.1 hpaths).1 (List.mem_map_of_mem hrest)

variable {o : Outcome} {isCancelled : Bool} {r : ParsedFileResult}
variable {rest stored : List ParsedFileResult}

/-- A file that was skipped. -/
theorem Inv.skip (h : Inv splitter order db results s log) (hdis : Distinct results)
    (hex : (s.stores !who).phase.inside = false)
    (hl : (⟨.idle, r :: rest, stored⟩ : Store).Logged (results who) log) {reason : String}
    (hs : r.status = .skipped reason)
    (hop : (⟨.idle, r :: rest, stored⟩ : Store).op splitter order o isCancelled s.db =
      some (db', st')) :
    ∃ log', Inv splitter order db results ⟨db', Function.update s.stores who st'⟩ log' := by
  have hr : r ∈ results who := hl.rest.subset List.mem_cons_self
  have hnew : r ∉ log := hl.pending r List.mem_cons_self
  simp only [Store.op, hs] at hop
  generalize hperform : perform o s.db
    (fun db => some (db.write (db.view.recordSkippedFile r reason))) = performed at hop
  obtain ⟨sdb', returned⟩ := performed
  obtain ⟨rfl, rfl⟩ := Prod.mk.inj (Option.some.inj hop)
  have hactive : (if (returned || !isCancelled) = true then StorePhase.idle
      else StorePhase.stopped).active = false := by
    split <;> rfl
  have hlogged := next_logged hl rfl
    (if (returned || !isCancelled) = true then StorePhase.idle else .stopped)
  rcases perform_cases hperform with hwrite | ⟨rfl, -⟩
  · obtain rfl := Option.some.inj hwrite
    cases htr : s.db.transaction with
    | some tables =>
      refine ⟨log, h.same hex ?_ hlogged (finishing_of_not_active hactive)⟩
      simp [StoreDb.write, htr]
    | none =>
      refine ⟨log ++ [r], h.commits hdis hex hr hnew ?_ ?_ hactive⟩
      · rw [replay_append, hs, ← h.committed]
        simp [StoreDb.write, StoreDb.view, htr]
      · exact commit_logged hdis hl rfl _ fun x hx => List.mem_append_left _ (hl.stored hx)
  · exact ⟨log, h.same hex rfl hlogged (finishing_of_not_active hactive)⟩

/-- An operation of a transaction, or its `BEGIN`. -/
theorem Inv.continues (h : Inv splitter order db results s log)
    (hex : (s.stores !who).phase.inside = false)
    (hl : st.Logged (results who) log) (hpending : st.pending = st.results)
    (hc : st.Continues splitter order isCancelled s.db db' st') :
    Inv splitter order db results ⟨db', Function.update s.stores who st'⟩ log := by
  have hrest : st'.results <:+ st.results := hc.results ▸ List.suffix_refl st'.results
  refine h.same hex hc.committed (hl.cont hc.stored (fun r hr => ?_) hrest) hc.finishing
  rw [hpending, ← hc.results]
  exact mem_results_of_pending hr

/-- `COMMIT`. -/
theorem Inv.commit (h : Inv splitter order db results s log) (hdis : Distinct results)
    (hex : (s.stores !who).phase.inside = false)
    (hl : (⟨.committing, r :: rest, stored⟩ : Store).Logged (results who) log)
    (hf : (⟨.committing, r :: rest, stored⟩ : Store).Finishing splitter order s.db)
    (hop : (⟨.committing, r :: rest, stored⟩ : Store).op splitter order o isCancelled s.db =
      some (db', st')) :
    ∃ log', Inv splitter order db results ⟨db', Function.update s.stores who st'⟩ log' := by
  have hr : r ∈ results who := hl.rest.subset List.mem_cons_self
  have hnew : r ∉ log := hl.pending r List.mem_cons_self
  simp only [Store.op] at hop
  generalize hperform : perform o s.db StoreDb.commit = performed at hop
  obtain ⟨sdb', returned⟩ := performed
  obtain ⟨rfl, rfl⟩ := Prod.mk.inj (Option.some.inj hop)
  obtain ⟨r', rest', tables, hres, hs, htr, hfinish⟩ := hf rfl
  obtain ⟨rfl, rfl⟩ := List.cons.inj hres
  have hraised : (handler isCancelled).active = false := handler_not_active isCancelled
  rcases perform_cases hperform with hcommit | ⟨rfl, rfl⟩
  · simp only [StoreDb.commit, htr, Option.map_some, Option.some.injEq] at hcommit
    subst hcommit
    have htables : tables = replay splitter order db (log ++ [r]) := by
      rw [replay_append, hs, ← h.committed, ← hfinish]
      rfl
    cases returned with
    | true =>
      refine ⟨log ++ [r], h.commits hdis hex hr hnew htables ?_ rfl⟩
      refine commit_logged hdis hl rfl _ fun x hx => ?_
      rcases List.mem_cons.1 hx with rfl | hx
      · exact List.mem_append_right _ List.mem_cons_self
      · exact List.mem_append_left _ (hl.stored hx)
    | false =>
      refine ⟨log ++ [r], h.commits hdis hex hr hnew htables ?_ hraised⟩
      have hnext := commit_logged hdis hl rfl .stopped
        fun x hx => List.mem_append_left [r] (hl.stored hx)
      refine ⟨hnext.stored, fun x hx => hnext.pending x ?_, hl.rest⟩
      cases isCancelled with
      | true => exact hx
      | false => exact hx
  · exact ⟨log, h.same hex rfl (statement_logged hl rfl) (finishing_of_not_active hraised)⟩

/-- `ROLLBACK`. -/
theorem Inv.rollback (h : Inv splitter order db results s log)
    (hex : (s.stores !who).phase.inside = false) {phase : StorePhase}
    (hl : (⟨phase, r :: rest, stored⟩ : Store).Logged (results who) log) {sdb' : StoreDb}
    {returned : Bool}
    (hperform : perform o s.db (fun db => some db.rollback) = (sdb', returned))
    {phase' : StorePhase} (hphase : phase'.active = false) :
    Inv splitter order db results
      ⟨sdb', Function.update s.stores who ⟨phase', rest, stored⟩⟩ log := by
  have hcommitted : sdb'.committed = s.db.committed := by
    rcases perform_cases hperform with hroll | ⟨rfl, -⟩
    · obtain rfl := Option.some.inj hroll
      rfl
    · rfl
  exact h.same hex hcommitted (next_logged hl rfl _) (finishing_of_not_active hphase)

/-- What one operation keeps. -/
theorem Inv.op (h : Inv splitter order db results s log) (hdis : Distinct results)
    (hex : (s.stores !who).phase.inside = false)
    (hop : (s.stores who).op splitter order o isCancelled s.db = some (db', st')) :
    ∃ log', Inv splitter order db results ⟨db', Function.update s.stores who st'⟩ log' := by
  have hl := h.logged who
  have hf := h.finishing who
  generalize s.stores who = st at hl hf hop
  obtain ⟨phase, rs, stored⟩ := st
  cases rs with
  | nil => cases phase <;> cases hop
  | cons r rest =>
    cases phase with
    | idle =>
      cases hs : r.status with
      | success => exact ⟨log, h.continues hex hl rfl (begin_continues hs hop)⟩
      | skipped reason => exact h.skip hdis hex hl hs hop
      | error message =>
        simp only [Store.op, hs] at hop
        obtain ⟨rfl, rfl⟩ := Prod.mk.inj (Option.some.inj hop)
        exact ⟨log, h.same hex rfl (next_logged hl rfl _) (finishing_of_not_active rfl)⟩
    | begun =>
      exact ⟨log, h.continues hex hl rfl (statement_continues rfl (by simp) hf hop)⟩
    | looked _ =>
      exact ⟨log, h.continues hex hl rfl (statement_continues rfl (by simp) hf hop)⟩
    | recorded _ =>
      exact ⟨log, h.continues hex hl rfl (statement_continues rfl (by simp) hf hop)⟩
    | deleting _ _ =>
      exact ⟨log, h.continues hex hl rfl (statement_continues rfl (by simp) hf hop)⟩
    | inserting _ =>
      exact ⟨log, h.continues hex hl rfl (statement_continues rfl (by simp) hf hop)⟩
    | committing => exact h.commit hdis hex hl hf hop
    | failed =>
      simp only [Store.op] at hop
      generalize hperform : perform o s.db (fun db => some db.rollback) = performed at hop
      obtain ⟨sdb', returned⟩ := performed
      obtain ⟨rfl, rfl⟩ := Prod.mk.inj (Option.some.inj hop)
      refine ⟨log, h.rollback hex hl hperform ?_⟩
      cases returned <;> rfl
    | cancelled =>
      simp only [Store.op] at hop
      generalize hperform : perform o s.db (fun db => some db.rollback) = performed at hop
      obtain ⟨sdb', returned⟩ := performed
      obtain ⟨rfl, rfl⟩ := Prod.mk.inj (Option.some.inj hop)
      exact ⟨log, h.rollback hex hl hperform rfl⟩
    | stopped => cases hop

theorem inv_start (splitter : Splitter) (order : IterationOrder) (db : IndexDb)
    (results : Bool → List ParsedFileResult) :
    Inv splitter order db results (StoreRun.start db results) [] where
  committed := rfl
  nodup := List.nodup_nil
  ofResults := by simp
  logged := fun who => ⟨List.Subset.refl _, by simp, List.suffix_refl _⟩
  exclusive := fun who h => by cases h
  finishing := fun who => finishing_of_not_active rfl

/-- What every run keeps. -/
theorem inv_of_exclusive (hdis : Distinct results)
    (h : ReachWhen (StoreRun.step splitter order) Exclusive (StoreRun.start db results) s) :
    ∃ log, Inv splitter order db results s log := by
  refine h.invariant (I := fun s => ∃ log, Inv splitter order db results s log)
    ⟨[], inv_start splitter order db results⟩ ?_
  rintro s a s' ⟨log, hinv⟩ hex hstep
  obtain ⟨⟨db', st'⟩, hop, rfl⟩ := Option.map_eq_some_iff.1 hstep
  exact hinv.op hdis hex hop

end Step

/-! ## Isolation -/

section Isolated

variable {splitter : Splitter} {order : IterationOrder} {db : IndexDb}
variable {results : Bool → List ParsedFileResult} {s : StoreRun} {log : List ParsedFileResult}

/-- A file that was committed has its new rows. -/
theorem Inv.newRows (h : Inv splitter order db results s log) (hwf : db.WF)
    {r : ParsedFileResult} (hr : r ∈ log) (hs : r.status = .success) :
    NewRows splitter order (db.fileChunks r.path) r (s.db.committed.fileChunks r.path) := by
  rw [h.committed]
  exact fileChunks_storeParsedResults _ _ hwf h.nodup hr hs

/-- Any other has its old ones. -/
theorem Inv.oldRows (h : Inv splitter order db results s log) (hdis : Distinct results)
    (hwf : db.WF) {r : ParsedFileResult} {who : Bool} (hr : r ∈ results who) (hnew : r ∉ log) :
    s.db.committed.fileChunks r.path = db.fileChunks r.path := by
  rw [h.committed]
  refine (foldl_storeParsedResult_other splitter order log
    (show (db, StoreStats.empty).1.WF from hwf)).2 r.path fun hmem => ?_
  obtain ⟨r', hr', hp⟩ := List.mem_map.1 hmem
  obtain ⟨who', hwho'⟩ := h.ofResults r' hr'
  exact hnew (hdis.path_inj hwho' hr hp ▸ hr')

/-- Two stores of which neither does anything inside a transaction of the other. -/
theorem isolated_of_exclusive (splitter : Splitter) (order : IterationOrder) {db : IndexDb}
    (hwf : db.WF) {results : Bool → List ParsedFileResult} (hdis : Distinct results)
    {s : StoreRun}
    (h : ReachWhen (StoreRun.step splitter order) Exclusive (StoreRun.start db results) s) :
    Isolated splitter order db results s := by
  obtain ⟨log, hinv⟩ := inv_of_exclusive hdis h
  intro who r hr hs
  refine ⟨?_, fun hstored => ?_, fun hpending => ?_⟩
  · by_cases hmem : r ∈ log
    · exact Or.inr (hinv.newRows hwf hmem hs)
    · exact Or.inl (hinv.oldRows hdis hwf hr hmem)
  · exact hinv.newRows hwf ((hinv.logged who).stored hstored) hs
  · exact hinv.oldRows hdis hwf hr ((hinv.logged who).pending r hpending)

end Isolated

/-! ## A transaction that another store ends -/

/-- `g`, which replaced `f`. -/
def replacedChunk : Chunk :=
  { movedChunk 1 firstLine_ok with
    symbol := some "g"
    code := "def g():\n    pass"
    lines_ok := by decide
    code_ok := by decide }

/-- One coroutine stores `a.py`, the other `b.py`. -/
def twoFiles : Bool → List ParsedFileResult
  | true => [⟨"a.py", [replacedChunk], "python", 20, 2, .success, some "h3"⟩]
  | false => [⟨"b.py", [movedChunk 1 firstLine_ok], "python", 20, 1, .success, some "h1"⟩]

/-- All operations of a store. -/
def allOperations (who : Bool) (n : ℕ) : List StoreStep := List.replicate n ⟨who, .ok, false⟩

/-- `BEGIN` to `COMMIT` of `a.py`, then of `b.py`. -/
theorem isolated_in_turn : ∃ s, execute (guarded (StoreRun.step charSplitter insertionOrder)
      Exclusive) (StoreRun.start indexedOnce twoFiles) (allOperations true 7 ++
        allOperations false 5) = some s ∧
    (∀ who, (s.stores who).stored.length = 1) ∧
      Isolated charSplitter insertionOrder indexedOnce twoFiles s := by
  have hsome : ((execute (guarded (StoreRun.step charSplitter insertionOrder) Exclusive)
      (StoreRun.start indexedOnce twoFiles) (allOperations true 7 ++
        allOperations false 5)).any fun s => decide (∀ who, (s.stores who).stored.length = 1)) =
          true := by decide +kernel
  obtain ⟨s, hs, hall⟩ := (Option.any_eq_true _ _).1 hsome
  exact ⟨s, hs, of_decide_eq_true hall, isolated_of_exclusive charSplitter insertionOrder
    indexedOnce_wf (by unfold Distinct; decide) (.of_guarded (.of_execute _ hs))⟩

/-- The rows of `a.py` when the store of `b.py` began between the deletion and the insertion of
its chunks : `BEGIN` raises, `ROLLBACK` discards the deletion, and the insertion commits by
itself. -/
theorem rolledBack_mixes : indexedOnce.WF ∧ Distinct twoFiles ∧
    ∃ s, Reach (StoreRun.step charSplitter insertionOrder)
      (StoreRun.start indexedOnce twoFiles) s ∧
        ¬Isolated charSplitter insertionOrder indexedOnce twoFiles s := by
  refine ⟨indexedOnce_wf, by unfold Distinct; decide, ?_⟩
  have hsome : ((execute (StoreRun.step charSplitter insertionOrder)
      (StoreRun.start indexedOnce twoFiles) (allOperations true 5 ++ allOperations false 2 ++
        allOperations true 1)).any fun s =>
          decide ((s.db.committed.fileChunks "a.py").length = 2)) = true := by decide +kernel
  obtain ⟨s, hs, hlen⟩ := (Option.any_eq_true _ _).1 hsome
  refine ⟨s, .of_execute _ hs, fun hiso => ?_⟩
  have htwo : (s.db.committed.fileChunks "a.py").length = 2 := of_decide_eq_true hlen
  obtain ⟨hold | ⟨fileId, n, hnew⟩, -, -⟩ := hiso true _ List.mem_cons_self rfl
  · have hone : (indexedOnce.fileChunks "a.py").length = 1 := by decide +kernel
    rw [hold, hone] at htwo
    cases htwo
  · rw [hnew, validateChunkSizes_withFileId] at htwo
    have hkept : (keptRows (indexedOnce.fileChunks "a.py") [replacedChunk]).length = 0 := by
      decide +kernel
    have hinserted : (validateChunkSizes charSplitter (insertedChunks insertionOrder
        (indexedOnce.fileChunks "a.py") [replacedChunk])).length = 1 := by decide +kernel
    rw [List.length_append, hkept, ← List.length_map (f := fun e : ChunkEntry => e.chunk),
      IndexDb.newEntries_chunk, List.length_map, hinserted] at htwo
    cases htwo

end ChunkHound.Stores
