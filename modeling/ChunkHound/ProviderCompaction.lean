import ChunkHound.CompactionSwap

/-!
# Compaction in the Python provider

`_executor_compact_database` of `duckdb_provider.py` moves the live database to
`.compact_backup`, rebuilds it in `.compact_new` and moves the result to the live path. When a
step raises, `_compact_restore` moves the backup back, and `_recover_interrupted_compaction`
does so when the provider connects. All are programs over the three files (`CrashHoare.Prog`).

A connection is no part of the state : what needs one can raise anyway. Statements that touch
indexes, extensions or the sequences' values change no row, and there is no WAL once
`CHECKPOINT` and the closing of both connections have returned.
-/

namespace ChunkHound

open CrashHoare

/-- The database path, `.compact_backup` and `.compact_new`. -/
inductive ProviderPath
  | live
  | backup
  | compacted
  deriving DecidableEq, Repr

structure ProviderDisk where
  live : Option DbFile
  backup : Option DbFile
  compacted : Option DbFile

namespace ProviderDisk

def file (d : ProviderDisk) : ProviderPath → Option DbFile
  | .live => d.live
  | .backup => d.backup
  | .compacted => d.compacted

def setFile (d : ProviderDisk) (path : ProviderPath) (f : Option DbFile) : ProviderDisk :=
  match path with
  | .live => { d with live := f }
  | .backup => { d with backup := f }
  | .compacted => { d with compacted := f }

end ProviderDisk

/-- A program of the provider. It raises what the swap of the native backend raises. -/
abbrev ProviderM := Prog ProviderDisk SwapError

namespace Provider

/-! ## Files and connections -/

/-- `path.unlink(missing_ok=True)`. -/
def unlink (path : ProviderPath) : ProviderM Unit :=
  Prog.act .io fun d => some (d.setFile path none)

/-- `_unlink_compacted` : on Windows a file still held is left in place. -/
def unlinkCompacted (isWindows : Bool) : ProviderM Unit :=
  if isWindows then Prog.attempt (unlink .compacted) else unlink .compacted

/-- `os.replace`. `_atomic_replace` tries it several times on Windows. -/
def atomicReplace (src dst : ProviderPath) : ProviderM Unit :=
  Prog.act .io fun d => (d.file src).map fun f => (d.setFile dst (some f)).setFile src none

/-- `os.path.getsize`, which raises when there is no file. -/
def getsize (path : ProviderPath) : ProviderM Unit :=
  Prog.query .io fun d => (d.file path).map fun _ => ()

/-- A statement, or a close, that changes no row. -/
def execute : ProviderM Unit := Prog.act .duckDb some

/-- `duckdb.connect`, which creates the file before it writes to it. -/
def duckdbConnect (path : ProviderPath) : ProviderM Unit := do
  Prog.act .duckDb fun d => some (d.setFile path (some ((d.file path).getD .zeroLength)))
  Prog.act .duckDb fun d => some (d.setFile path (some (.image (openedImage (d.file path)))))

/-- `duckdb.connect(read_only=True)`, which needs a database. -/
def duckdbConnectReadOnly : ProviderM Unit :=
  Prog.query .duckDb fun d => match d.live with
    | some (.image _) => some ()
    | _ => none

/-- `_create_connection`, and `_create_connection_manager_connection` : connect and load `vss`. -/
def createConnection : ProviderM Unit := do
  duckdbConnect .live
  execute

/-- `_executor_create_schema` creates what does not exist. -/
def createSchema : ProviderM Unit :=
  Prog.act .duckDb fun d => match d.live with
    | some (.image img) => some { d with live := some (.image img.setupSchema) }
    | _ => none

/-- `_executor_ensure_all_hnsw_indexes`, where there were any before. -/
def restoreHnsw (hadHnsw : Bool) : ProviderM Unit := if hadHnsw then execute else pure ()

/-- `_close_live_compaction_connections` : the executor's connection and the manager's. -/
def closeLiveCompactionConnections : ProviderM Unit := do
  execute
  execute

/-! ## The steps of a compaction -/

/-- `_compact_prepare`. -/
def compactPrepare (isWindows : Bool) : ProviderM Unit := do
  execute -- CHECKPOINT
  getsize .live
  closeLiveCompactionConnections
  unlink .backup
  unlinkCompacted isWindows
  atomicReplace .live .backup

/-- A query on the attached backup. -/
def querySrc {α : Type} (f : DbImage → Option α) : ProviderM α :=
  Prog.query .duckDb fun d => match d.backup with
    | some (.image src) => f src
    | _ => none

/-- A statement on the new database, with the backup attached as `src`. -/
def executeTgt (stmt : Statement) : ProviderM Unit :=
  Prog.act .duckDb fun d => match d.compacted, d.backup with
    | some (.image img), some (.image src) =>
      (stmt.apply src img).map fun img' => { d with compacted := some (.image img') }
    | _, _ => none

/-- `ATTACH '{backup_path}' AS src`. -/
def attachBackup : ProviderM Unit :=
  Prog.act .duckDb fun d => some { d with backup := some (.image (openedImage d.backup)) }

def srcMaxId (name : TableName) : ProviderM ℤ :=
  querySrc fun src => (src.tables name).map DbImage.maxId

def maxEmbeddingId (embTables : List ℕ) : ProviderM ℤ :=
  embTables.foldlM (fun m dims => do
    let tableMax ← srcMaxId (.embeddings dims)
    return max m tableMax) 0

/-- Create an embedding table and copy its rows. -/
def copyEmbeddingTable (dims : ℕ) : ProviderM Unit := do
  executeTgt (.createTable (.embeddings dims))
  executeTgt (.insertSelect (.embeddings dims) embCol)

/-- `_compact_copy_data`. Two statements list tables and indexes of `src`, and the last ones are
`DETACH`, the indexes of each embedding table, `CHECKPOINT` and the close. -/
def compactCopyData : ProviderM Unit := do
  duckdbConnect .compacted
  execute
  attachBackup
  let maxFileId ← srcMaxId .files
  let maxChunkId ← srcMaxId .chunks
  let embTables ← querySrc fun src => some src.embeddingTables
  let maxEmbId ← maxEmbeddingId embTables
  executeTgt (.createSequence .filesIdSeq (maxFileId + 1))
  executeTgt (.createSequence .chunksIdSeq (maxChunkId + 1))
  executeTgt (.createSequence .embeddingsIdSeq (maxEmbId + 1))
  executeTgt (.createTable .files)
  executeTgt (.createTable .chunks)
  execute
  executeTgt (.createTable .schemaVersion)
  executeTgt (.insertSelectStar .schemaVersion)
  executeTgt (.insertSelect .files filesCol)
  executeTgt (.insertSelect .chunks chunksCol)
  embTables.forM copyEmbeddingTable
  execute
  executeTgt .other
  embTables.forM fun _ => executeTgt .other
  executeTgt .other
  execute

/-- `_compact_finalize`. -/
def compactFinalize (hadHnsw : Bool) : ProviderM Unit := do
  atomicReplace .compacted .live
  createConnection
  createConnection
  execute
  restoreHnsw hadHnsw
  unlink .backup
  getsize .live

/-- Move the backup back, where there is one. -/
def restoreBackup : ProviderM Unit := do
  let d ← Prog.get
  if d.backup.isSome then
    atomicReplace .backup .live
  else
    pure ()

/-- `_compact_restore`. -/
def compactRestore (isWindows hadHnsw : Bool) : ProviderM Unit := do
  closeLiveCompactionConnections
  restoreBackup
  unlinkCompacted isWindows
  createConnection
  createSchema
  execute
  restoreHnsw hadHnsw
  createConnection

/-- `_executor_compact_database`. A restore that fails is logged, and the error raised again. -/
def executorCompactDatabase (isWindows hadHnsw transactionActive : Bool) : ProviderM Unit :=
  if transactionActive then
    Prog.throw (.other "Cannot compact database while a transaction is active")
  else
    Prog.tryCatch
      (do
        compactPrepare isWindows
        compactCopyData
        compactFinalize hadHnsw)
      fun e => do
        Prog.attempt (compactRestore isWindows hadHnsw)
        Prog.throw e

/-! ## Connecting -/

/-- Take the backup for the live file, where the live file is missing or empty. -/
def recoverBackup : ProviderM Unit := do
  let d ← Prog.get
  if d.backup.isSome ∧ isMissingOrEmpty d.live then
    unlink .live
    atomicReplace .backup .live
  else if ¬isMissingOrEmpty d.live then
    unlink .backup
  else
    pure ()

/-- `_recover_interrupted_compaction`. -/
def recoverInterruptedCompaction (isWindows : Bool) : ProviderM Unit := do
  recoverBackup
  unlinkCompacted isWindows

/-- `DuckDBProvider.connect` : the root check, the manager's connection with its extensions, and
the executor's with the schema. A read-only connection neither recovers nor creates anything. -/
def connect (isWindows readOnly : Bool) : ProviderM Unit := do
  execute
  if readOnly then
    duckdbConnectReadOnly
    execute
    duckdbConnectReadOnly
  else
    recoverInterruptedCompaction isWindows
    duckdbConnect .live
    execute
    createConnection
    createSchema
    execute

end Provider

end ChunkHound
