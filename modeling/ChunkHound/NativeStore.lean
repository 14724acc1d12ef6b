import ChunkHound.Slices
import ChunkHound.StepSystem
import Mathlib.Data.Rat.Defs

/-!
# The native index store

The tables the Rust backend keeps in DuckDB, and the functions of
`src/db/duckdb_backend/write.rs` that the store thread calls : `deletePaths`,
`preDeleteForUpsert`, `upsertFile`, `insertChunksForFile`, `insertEmbeddingsTxn`,
`writeBatchesInOneTxn`. Each is a function of the tables it reads and writes.

`Commit` names the committed transactions and auto-commit statements of a run, in the
order `prepare_write` and the store thread issue them (`prepareWrite`, `storeThread`). A
run is cut after some number of them : by a kill, or by a statement that fails and rolls
its transaction back.

`known_dims` is primed by `open` with the embedding tables on disk and extended with
each table `prepare_write` creates, so it is the table list here. The columns `name`,
`extension`, `created_at` and `updated_at` are read by no function of the model and left
out. `modified_time` holds what the diff phase reads back for the epoch written,
`toTimestamp`.
-/

namespace ChunkHound

open StepSystem Slices

/-- The bit pattern of an `f32`. -/
abbrev F32 := UInt32

/-- The bytes of a file. -/
abbrev Bytes := List UInt8

structure ChunkRecord where
  chunkType : String
  symbol : Option String
  code : String
  startLine : Option ℤ
  endLine : Option ℤ
  startByte : Option ℤ
  endByte : Option ℤ
  language : Option String
  metadata : Option String
  embedding : Option (List F32)
  provider : Option String
  model : Option String
  deriving DecidableEq, Repr

/-- `parsedFrom` is ghost : the bytes the parse stage read. No function reads it. -/
structure FileRecord where
  existingFileId : Option ℕ
  path : String
  mtime : Option ℚ
  sizeBytes : Option ℤ
  contentHash : Option String
  language : Option String
  skipReason : Option String
  chunks : List ChunkRecord
  parsedFrom : Option Bytes
  deriving DecidableEq, Repr

structure DbWriterBatch where
  files : List FileRecord
  deletePaths : List String
  deriving DecidableEq, Repr

/-- A row of `files`. -/
structure FileRow where
  id : ℕ
  path : String
  size : Option ℤ
  modifiedTime : Option ℚ
  contentHash : Option String
  language : Option String
  skipReason : Option String
  deriving DecidableEq, Repr

/-- A row of `chunks`. -/
structure ChunkRow where
  id : ℕ
  fileId : ℕ
  chunkType : String
  symbol : Option String
  code : String
  startLine : Option ℤ
  endLine : Option ℤ
  startByte : Option ℤ
  endByte : Option ℤ
  language : Option String
  metadata : Option String
  deriving DecidableEq, Repr

/-- A row of an `embeddings_{dims}` table. -/
structure EmbeddingRow where
  chunkId : ℕ
  provider : String
  model : String
  embedding : List F32
  dims : ℕ
  deriving DecidableEq, Repr

/-- The tables and the two id sequences. `embeddings` holds the rows of every
`embeddings_{dims}` table; a row's table is the one of its `dims`. -/
structure Db where
  files : List FileRow
  chunks : List ChunkRow
  embeddings : List EmbeddingRow
  embeddingTables : List ℕ
  filesIdSeq : ℕ
  chunksIdSeq : ℕ
  deriving DecidableEq, Repr

/-- What `setup_schema` leaves on a new file. -/
def Db.empty : Db where
  files := []
  chunks := []
  embeddings := []
  embeddingTables := []
  filesIdSeq := 1
  chunksIdSeq := 1

inductive DbError
  | foreignKey
  | noSuchTable (dims : ℕ)
  deriving DecidableEq, Repr

namespace Db

/-- `SELECT id FROM files WHERE path IN (paths)`. -/
def fileIdsOf (db : Db) (paths : List String) : List ℕ :=
  (db.files.filter (·.path ∈ paths)).map (·.id)

/-- `SELECT path FROM files WHERE id = ?`. -/
def pathOf (db : Db) (id : ℕ) : Option String :=
  (db.files.find? (·.id = id)).map (·.path)

/-- The chunk rows of one file. -/
def ownedChunks (db : Db) (fileId : ℕ) : List ChunkRow :=
  db.chunks.filter (·.fileId = fileId)

/-- Delete the embeddings of the chunks of `ids`, then the chunks. -/
def deleteChunksOf (db : Db) (ids : List ℕ) : Db :=
  { db with
    embeddings := db.embeddings.filter fun e =>
      ¬(db.chunks.filter (·.fileId ∈ ids)).any (·.id = e.chunkId)
    chunks := db.chunks.filter (·.fileId ∉ ids) }

/-- `UPDATE files SET … WHERE sel`, with the number of rows updated. -/
def updateFiles (db : Db) (sel : FileRow → Bool) (set : FileRow → FileRow) : Db × ℕ :=
  ({ db with files := db.files.map fun r => if sel r then set r else r }, db.files.countP sel)

end Db

/-- The dirty marker : `SET modified_time = NULL, content_hash = NULL`. -/
def FileRow.dirty (r : FileRow) : FileRow :=
  { r with modifiedTime := none, contentHash := none }

/-- The row an upsert of the record leaves under `id`. Every modelled column is set. -/
def FileRecord.row (toTimestamp : ℚ → ℚ) (file : FileRecord) (id : ℕ) : FileRow where
  id := id
  path := file.path
  size := file.sizeBytes
  modifiedTime := file.mtime.map toTimestamp
  contentHash := file.contentHash
  language := file.language
  skipReason := file.skipReason

/-- The row `INSERT INTO chunks` makes of a record. -/
def ChunkRecord.row (c : ChunkRecord) (id fileId : ℕ) : ChunkRow where
  id := id
  fileId := fileId
  chunkType := c.chunkType
  symbol := c.symbol
  code := c.code
  startLine := c.startLine
  endLine := c.endLine
  startByte := c.startByte
  endByte := c.endByte
  language := c.language
  metadata := c.metadata

/-- Paths per statement of a path-based delete. -/
def deleteBatch : ℕ := 500

/-! ## Deletes -/

/-- Phase 1 of `delete_paths`, one transaction : embeddings and chunks of every path. -/
def deletePathsPhase1 (db : Db) (paths : List String) : Db :=
  (slices deleteBatch paths).foldl (fun db batch => db.deleteChunksOf (db.fileIdsOf batch)) db

/-- One auto-commit statement of phase 2 : `DELETE FROM files WHERE path IN (batch)`.
DuckDB refuses it while a chunk refers to one of the rows. -/
def deletePathsPhase2 (db : Db) (batch : List String) : Except DbError Db :=
  if db.chunks.any (·.fileId ∈ db.fileIdsOf batch) then .error .foreignKey
  else .ok { db with files := db.files.filter (·.path ∉ batch) }

/-- The records whose id still names their path. -/
def byId (db : Db) (files : List FileRecord) : List ℕ :=
  files.filterMap fun f => f.existingFileId.filter fun id => db.pathOf id = some f.path

/-- The paths of the other records. -/
def byPath (db : Db) (files : List FileRecord) : List String :=
  (files.filter fun f =>
    match f.existingFileId with
    | none => true
    | some id => db.pathOf id ≠ some f.path).map (·.path)

/-- `pre_delete_for_upsert` : mark the rows dirty and delete their chunks, by id where the
id still names the path and by path elsewhere, in one transaction. -/
def preDeleteForUpsert (db : Db) (batch : DbWriterBatch) : Db :=
  let ids := byId db batch.files
  let paths := byPath db batch.files
  let db₁ := ((db.updateFiles (·.id ∈ ids) FileRow.dirty).1).deleteChunksOf ids
  let db₂ := (db₁.updateFiles (·.path ∈ paths) FileRow.dirty).1
  db₂.deleteChunksOf (db₂.fileIdsOf paths)

/-- `CREATE TABLE IF NOT EXISTS "embeddings_{dims}"`. -/
def ensureEmbeddingTableDims (db : Db) (dims : ℕ) : Db :=
  if dims ∈ db.embeddingTables then db
  else { db with embeddingTables := db.embeddingTables ++ [dims] }

/-! ## Writes -/

section Write

variable (toTimestamp : ℚ → ℚ)

/-- `upsert_file` : update by `id` and `path` when the diff knew the row, else select by
path and update or insert. -/
def upsertFile (db : Db) (file : FileRecord) : ℕ × Db :=
  let slow : ℕ × Db :=
    match db.files.find? (·.path = file.path) with
    | some r =>
      (r.id, (db.updateFiles (·.id = r.id) fun r =>
        { file.row toTimestamp r.id with path := r.path }).1)
    | none =>
      (db.filesIdSeq,
        { db with
          files := db.files ++ [file.row toTimestamp db.filesIdSeq]
          filesIdSeq := db.filesIdSeq + 1 })
  match file.existingFileId with
  | some id =>
    let (db', rowsUpdated) := db.updateFiles (fun r => r.id = id ∧ r.path = file.path)
      fun r => { file.row toTimestamp r.id with path := r.path }
    if rowsUpdated = 1 then (id, db') else slow
  | none => slow

/-- The rows of consecutive inserts whose ids start at `firstId`. -/
def chunkRows (chunks : List ChunkRecord) (firstId fileId : ℕ) : List ChunkRow :=
  (chunks.zipIdx firstId).map fun (c, id) => c.row id fileId

/-- One `INSERT INTO chunks … RETURNING id`. The rows take the next ids in order. -/
def insertChunkSlice (db : Db) (fileId : ℕ) (slice : List ChunkRecord) :
    Except DbError (List ChunkRow × Db) :=
  if db.files.any (·.id = fileId) then
    let rows := chunkRows slice db.chunksIdSeq fileId
    .ok (rows, { db with
      chunks := db.chunks ++ rows
      chunksIdSeq := db.chunksIdSeq + slice.length })
  else .error .foreignKey

/-- The loop of `insert_chunks_for_file` over its slices. -/
def insertChunkSlices (fileId : ℕ) :
    Db → List (List ChunkRecord) → Except DbError (List ChunkRow × Db)
  | db, [] => .ok ([], db)
  | db, slice :: rest => do
    let (rows, db) ← insertChunkSlice db fileId slice
    let (more, db) ← insertChunkSlices fileId db rest
    return (rows ++ more, db)

/-- `insert_chunks_for_file`, with the rows it made. -/
def insertChunksForFile (db : Db) (fileId : ℕ) (chunks : List ChunkRecord)
    (insertBatchSize : ℕ) : Except DbError (List ChunkRow × Db) :=
  insertChunkSlices fileId db (slices (max insertBatchSize 1) chunks)

/-- An upsert of the history : the row it wrote, the record, the chunk rows inserted with
it. Ghost; the store keeps no such log. -/
structure Upsert where
  fileId : ℕ
  record : FileRecord
  inserted : List ChunkRow
  deriving DecidableEq, Repr

/-- The first loop of `write_batch_inner`. -/
def upsertFiles : Db → List FileRecord → List ℕ × Db
  | db, [] => ([], db)
  | db, file :: files =>
    let (id, db) := upsertFile toTimestamp db file
    let (ids, db) := upsertFiles db files
    (id :: ids, db)

/-- The second loop of `write_batch_inner`. -/
def insertChunksLoop (insertBatchSize : ℕ) :
    Db → List (FileRecord × ℕ) → Except DbError (List Upsert × Db)
  | db, [] => .ok ([], db)
  | db, (file, id) :: rest => do
    let (rows, db) ← insertChunksForFile db id file.chunks insertBatchSize
    let (us, db) ← insertChunksLoop insertBatchSize db rest
    return (⟨id, file, rows⟩ :: us, db)

/-- The chunk rows with an embedding to store, with the record the vector comes from. -/
def embeddingPairs (us : List Upsert) : List (ChunkRow × ChunkRecord) :=
  us.flatMap fun u => (u.inserted.zip u.record.chunks).filter fun p =>
    (p.2.embedding.map fun e => !e.isEmpty).getD false

/-- The row of one embedding insert. -/
def embeddingRow (row : ChunkRow) (c : ChunkRecord) (e : List F32) : EmbeddingRow where
  chunkId := row.id
  provider := c.provider.getD "unknown"
  model := c.model.getD "unknown"
  embedding := e
  dims := e.length

/-- One row of `INSERT … ON CONFLICT (chunk_id, provider, model) DO UPDATE`. -/
def insertEmbedding (db : Db) (row : EmbeddingRow) : Except DbError Db :=
  if row.dims ∈ db.embeddingTables then
    .ok { db with
      embeddings := db.embeddings.filter (fun e => ¬(e.dims = row.dims ∧ e.chunkId = row.chunkId ∧
        e.provider = row.provider ∧ e.model = row.model)) ++ [row] }
  else .error (.noSuchTable row.dims)

/-- `insert_embeddings_txn`. -/
def insertEmbeddingsTxn (db : Db) (pairs : List (ChunkRow × ChunkRecord)) : Except DbError Db :=
  pairs.foldlM (fun db p =>
    match p.2.embedding with
    | some e => if e.isEmpty then .ok db else insertEmbedding db (embeddingRow p.1 p.2 e)
    | none => .ok db) db

/-- `write_batch_inner` followed by `insert_embeddings_txn`, inside the transaction. -/
def writeBatchInner (insertBatchSize : ℕ) (db : Db) (batch : DbWriterBatch) :
    Except DbError (List Upsert × Db) := do
  let (ids, db) := upsertFiles toTimestamp db batch.files
  let (us, db) ← insertChunksLoop insertBatchSize db (batch.files.zip ids)
  let db ← insertEmbeddingsTxn db (embeddingPairs us)
  return (us, db)

/-- `write_batches_in_one_txn`, with the upserts in order. An error rolls every batch
back. -/
def writeBatchesInOneTxn (insertBatchSize : ℕ) :
    Db → List DbWriterBatch → Except DbError (List Upsert × Db)
  | db, [] => .ok ([], db)
  | db, batch :: rest => do
    let (us, db) ← writeBatchInner toTimestamp insertBatchSize db batch
    let (more, db) ← writeBatchesInOneTxn insertBatchSize db rest
    return (us ++ more, db)

end Write

/-! ## The store thread's commits -/

/-- One committed transaction or auto-commit statement. -/
inductive Commit
  | deletePathsPhase1 (paths : List String)
  | deletePathsPhase2 (batch : List String)
  | preDeleteForUpsert (batch : DbWriterBatch)
  | ensureEmbeddingTableDims (dims : ℕ)
  | writeBatchesInOneTxn (batches : List DbWriterBatch)
  deriving DecidableEq, Repr

/-- The commits of `delete_paths`. -/
def deletePaths (paths : List String) : List Commit :=
  if paths = [] then []
  else .deletePathsPhase1 paths :: (slices deleteBatch paths).map .deletePathsPhase2

/-- The vector sizes of a batch, from `collect_dims_and_count`. -/
def collectDims (batch : DbWriterBatch) : List ℕ :=
  ((batch.files.flatMap (·.chunks)).filterMap fun c =>
    c.embedding.bind fun e => if e.isEmpty then none else some e.length).dedup

/-- The commits of `prepare_write`. -/
def prepareWrite (batch : DbWriterBatch) : List Commit :=
  deletePaths batch.deletePaths ++
    (if batch.files = [] then [] else [.preDeleteForUpsert batch]) ++
    (collectDims batch).map .ensureEmbeddingTableDims

/-- The batch of the pipeline's file records : `build_db_batch` leaves `delete_paths`
empty. -/
def fileBatch (files : List FileRecord) : DbWriterBatch :=
  ⟨files, []⟩

/-- What the store thread commits for a batch received. `STORE_COMMIT_INTERVAL` is 1. -/
def batchCommits (files : List FileRecord) : List Commit :=
  prepareWrite (fileBatch files) ++ [.writeBatchesInOneTxn [fileBatch files]]

/-- The commits of a run of the store thread : the orphan deletes once, then every batch
received. -/
def storeThread (orphans : List String) (batches : List (List FileRecord)) : List Commit :=
  (if orphans = [] then [] else prepareWrite ⟨[], orphans⟩) ++ batches.flatMap batchCommits

/-- The database with the upsert history, newest first. -/
structure Store where
  db : Db
  upserts : List Upsert
  deriving DecidableEq, Repr

/-- A new index. -/
def Store.empty : Store :=
  ⟨.empty, []⟩

/-- The latest upsert of a row. -/
def Store.lastUpsert (s : Store) (fileId : ℕ) : Option Upsert :=
  s.upserts.find? (·.fileId = fileId)

/-- Run one commit. -/
def Commit.run (toTimestamp : ℚ → ℚ) (insertBatchSize : ℕ) (s : Store) :
    Commit → Except DbError Store
  | .deletePathsPhase1 paths => .ok { s with db := ChunkHound.deletePathsPhase1 s.db paths }
  | .deletePathsPhase2 batch =>
    (ChunkHound.deletePathsPhase2 s.db batch).map fun db => { s with db := db }
  | .preDeleteForUpsert batch => .ok { s with db := ChunkHound.preDeleteForUpsert s.db batch }
  | .ensureEmbeddingTableDims dims =>
    .ok { s with db := ChunkHound.ensureEmbeddingTableDims s.db dims }
  | .writeBatchesInOneTxn batches =>
    (ChunkHound.writeBatchesInOneTxn toTimestamp insertBatchSize s.db batches).map fun p =>
      ⟨p.2, p.1.reverse ++ s.upserts⟩

/-- A run of the store thread that is killed, or fails, after `cut` commits. -/
structure Session where
  orphans : List String
  batches : List (List FileRecord)
  cut : ℕ
  deriving DecidableEq, Repr

/-- The committed state a session leaves. -/
def Session.run (toTimestamp : ℚ → ℚ) (insertBatchSize : ℕ) (s : Store) (sess : Session) :
    Store :=
  cutRun (Commit.run toTimestamp insertBatchSize) (storeThread sess.orphans sess.batches)
    sess.cut s

end ChunkHound
