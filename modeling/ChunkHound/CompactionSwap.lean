import ChunkHound.CrashHoare
import ChunkHound.DbImage

/-!
# Compaction and its recovery

`run_attach_copy_compaction` copies the live database into `.compact` and swaps the two in
three phases, each announced in `.swap_intent`. `recover_swap_intent` finishes or rolls back
a swap that was interrupted. Both are programs over the disk (`CrashHoare.Prog`) : every
rename, remove and statement, and every piece of an intent that is written, can fail, fail after
taking effect, or be the point where the process is killed.

The content is without a WAL : a `CHECKPOINT` precedes every rename of a complete database,
and a file stands for its main file together with the sidecar of an unfinished copy.
-/

namespace ChunkHound

open CrashHoare StepSystem

/-- A database file. Zero length is how `Connection::open` first creates it. -/
inductive DbFile
  | zeroLength
  | image (img : DbImage)

/-- The content of `.swap_intent`. -/
inductive SwapIntent
  | preSwap
  | phase1
  | phase2
  | other (text : String)
  deriving DecidableEq, Repr

/-- The database path and its two siblings `.old` and `.compact`. -/
inductive DbPath
  | live
  | old
  | compact
  deriving DecidableEq, Repr

structure Disk where
  live : Option DbFile
  old : Option DbFile
  compact : Option DbFile
  intent : Option SwapIntent

namespace Disk

def file (d : Disk) : DbPath → Option DbFile
  | .live => d.live
  | .old => d.old
  | .compact => d.compact

def setFile (d : Disk) (path : DbPath) (f : Option DbFile) : Disk :=
  match path with
  | .live => { d with live := f }
  | .old => { d with old := f }
  | .compact => { d with compact := f }

end Disk

inductive SwapError
  | io
  | duckDb
  | other (message : String)
  deriving DecidableEq, Repr

/-- A program on the files of one database. -/
abbrev SwapM := Prog Disk SwapError

/-! ## File operations -/

/-- Absent, or a zero-length file. -/
def isMissingOrEmpty : Option DbFile → Bool
  | none => true
  | some .zeroLength => true
  | some (.image _) => false

/-- What is written for a phase. -/
def SwapIntent.text : SwapIntent → String
  | .preSwap => "pre-swap"
  | .phase1 => "phase1"
  | .phase2 => "phase2"
  | .other text => text

/-- What the intent file holds while a phase is written : nothing, once it is created or
truncated, and then every prefix of the text but the last. -/
def tornTexts (phase : SwapIntent) : List String :=
  (phase.text.toList.inits.map String.ofList).dropLast

/-- The content of the intent file becomes `intent`. -/
def putIntent (intent : SwapIntent) : SwapM Unit :=
  Prog.act .io fun d => some { d with intent := some intent }

/-- Create or truncate the intent file, write it piece by piece, and sync it. -/
def writeIntent (phase : SwapIntent) : SwapM Unit := do
  (tornTexts phase).forM fun text => putIntent (.other text)
  putIntent phase
  Prog.act .io some

def removeIntent : SwapM Unit :=
  Prog.act .io fun d => d.intent.map fun _ => { d with intent := none }

/-- Rename over whatever is at `dst`. The main file is all there is to move. -/
def renameDbWithWal (src dst : DbPath) : SwapM Unit :=
  Prog.act .io fun d => (d.file src).map fun f => (d.setFile dst (some f)).setFile src none

def removeDbFile (path : DbPath) : SwapM Unit :=
  Prog.act .io fun d => (d.file path).map fun _ => d.setFile path none

def removeDbFileBestEffort (path : DbPath) : SwapM Unit :=
  Prog.attempt (removeDbFile path)

/-- The database `Connection::open` finds, a new one where there is none. -/
def openedImage : Option DbFile → DbImage
  | some (.image img) => img
  | _ => .empty

/-- `Connection::open`, which creates the file before it writes to it. -/
def openConnection (path : DbPath) : SwapM Unit := do
  Prog.act .duckDb fun d => some (d.setFile path (some ((d.file path).getD .zeroLength)))
  Prog.act .duckDb fun d => some (d.setFile path (some (.image (openedImage (d.file path)))))

/-! ## Recovery -/

/-- Which intent `recover_swap_intent` applied. -/
inductive RecoveredSwap
  | none
  | preSwap
  | phase1
  | phase2
  deriving DecidableEq, Repr

/-- Drop an incomplete `.compact` left by a crashed phase-1 copy. -/
def discardIncompleteCompactIfPhase1 (recovered : RecoveredSwap) : SwapM Unit := do
  let d ← Prog.get
  if recovered ≠ .preSwap ∧ recovered ≠ .phase1 then
    pure ()
  else if isMissingOrEmpty d.live then
    pure ()
  else if d.compact.isSome then
    removeDbFileBestEffort .compact
  else
    pure ()

/-- Remove the live file, where there is one. -/
def removeLive : SwapM Unit := do
  let d ← Prog.get
  if d.live.isSome then
    removeDbFile .live
  else
    pure ()

/-- The first statement of `recover_pre_swap_or_phase1` : put `.old` back where the live
path is missing or empty. -/
def restoreOld (phase : String) : SwapM Unit := do
  let d ← Prog.get
  if d.old.isSome ∧ isMissingOrEmpty d.live then
    removeLive
    renameDbWithWal .old .live
  else if ¬d.old.isSome ∧ isMissingOrEmpty d.live then
    Prog.throw
      (.other s!"{phase} crash recovery: live db and .old backup both missing")
  else
    pure ()

def recoverPreSwapOrPhase1 (phase : String) : SwapM Unit := do
  restoreOld phase
  Prog.attempt removeIntent

/-- The first statement of `recover_phase2` : finish the compact-to-live rename, or restore
`.old` if the compacted file is gone. -/
def finishPhase2 : SwapM Unit := do
  let d ← Prog.get
  if d.compact.isSome then
    removeLive
    renameDbWithWal .compact .live
  else if isMissingOrEmpty d.live then
    if d.old.isSome then
      removeLive
      renameDbWithWal .old .live
    else
      Prog.throw (.other "phase2 crash recovery: no compact, live db, or .old backup")
  else
    pure ()

/-- Drop the backup and the intent once the live path exists and `.compact` is gone. -/
def dropBackup : SwapM Unit := do
  let d ← Prog.get
  if ¬isMissingOrEmpty d.live ∧ ¬d.compact.isSome then
    removeDbFileBestEffort .old
    Prog.attempt removeIntent
  else
    pure ()

def recoverPhase2 : SwapM Unit := do
  finishPhase2
  dropBackup

/-- Recovery by the intent that is found. -/
def recoverSwapIntent : SwapM RecoveredSwap := do
  let d ← Prog.get
  if d.intent.isNone then
    return .none
  let intent ← Prog.query (.other "swap_intent present but unreadable") fun d : Disk => d.intent
  match intent with
  | .preSwap =>
    recoverPreSwapOrPhase1 "pre-swap"
    return .preSwap
  | .phase1 =>
    recoverPreSwapOrPhase1 "phase1"
    return .phase1
  | .phase2 =>
    recoverPhase2
    return .phase2
  | .other text => Prog.throw (.other s!"unrecognized swap_intent {text}")

/-! ## Compaction -/

/-- `ATTACH '{old}' AS src`, which creates a database where there is none. -/
def attachOld : SwapM Unit :=
  Prog.act .duckDb fun d => some { d with old := some (.image (openedImage d.old)) }

/-- A query on the attached database. -/
def querySrc {α : Type} (f : DbImage → Option α) : SwapM α :=
  Prog.query .duckDb fun d => match d.old with
    | some (.image src) => f src
    | _ => none

/-- `execute_batch` of one statement on the new database. -/
def executeBatch (stmt : Statement) : SwapM Unit :=
  Prog.act .duckDb fun d => match d.compact, d.old with
    | some (.image img), some (.image src) =>
      (stmt.apply src img).map fun img' => { d with compact := some (.image img') }
    | _, _ => none

/-- `SELECT COALESCE(MAX(id), 0) FROM src.name`. -/
def srcMaxId (name : TableName) : SwapM ℤ :=
  querySrc fun src => (src.tables name).map DbImage.maxId

/-- The column list of the copy of `files`. -/
def filesCol : List String := ["id", "path", "name", "extension", "size", "modified_time",
  "content_hash", "language", "skip_reason", "created_at", "updated_at"]

/-- The column list of the copy of `chunks`. -/
def chunksCol : List String := ["id", "file_id", "chunk_type", "symbol", "code", "start_line",
  "end_line", "start_byte", "end_byte", "language", "metadata", "created_at", "updated_at"]

/-- The column list of the copy of an embedding table. -/
def embCol : List String :=
  ["id", "chunk_id", "provider", "model", "embedding", "dims", "created_at"]

/-- Copy one embedding table. `other` stands for `ensure_embedding_table_dims`, which finds
the table and creates its indexes. -/
def copyEmbeddingTable (dims : ℕ) : SwapM Unit := do
  executeBatch (.createTable (.embeddings dims))
  executeBatch (.insertSelect (.embeddings dims) embCol)
  executeBatch .other

/-- The largest id of the embedding tables. -/
def maxEmbeddingId (embTables : List ℕ) : SwapM ℤ :=
  embTables.foldlM (fun m dims => do
    let tableMax ← srcMaxId (.embeddings dims)
    return max m tableMax) 0

/-- Phase 2 : build `.compact` from `.old`. The last two statements are `DETACH` and
`CHECKPOINT`. -/
def buildCompact : SwapM Unit := do
  openConnection .compact
  attachOld
  let maxFileId ← srcMaxId .files
  let maxChunkId ← srcMaxId .chunks
  let embTables ← querySrc fun src => some src.embeddingTables
  let maxEmbId ← maxEmbeddingId embTables
  executeBatch (.createSequence .filesIdSeq (maxFileId + 1))
  executeBatch (.createSequence .chunksIdSeq (maxChunkId + 1))
  executeBatch (.createSequence .embeddingsIdSeq (maxEmbId + 1))
  executeBatch (.createTable .files)
  executeBatch (.createTable .chunks)
  executeBatch (.createTable .schemaVersion)
  executeBatch (.insertSelectStar .schemaVersion)
  executeBatch (.insertSelect .files filesCol)
  executeBatch (.insertSelect .chunks chunksCol)
  embTables.forM copyEmbeddingTable
  executeBatch .other
  executeBatch .other

/-- Open the live database and run `setup_schema` on it. -/
def reopen : SwapM Unit := do
  openConnection .live
  Prog.act .duckDb fun d => match d.live with
    | some (.image img) => some { d with live := some (.image img.setupSchema) }
    | _ => none

/-- The `CHECKPOINT` before the connection is closed changes no row. -/
def checkpoint : SwapM Unit := Prog.act .duckDb some

/-- Drop what a crashed compaction left, when the live file is the good copy. -/
def removeLeftovers : SwapM Unit := do
  let d ← Prog.get
  if isMissingOrEmpty d.live then
    pure ()
  else
    removeDbFileBestEffort .old
    removeDbFileBestEffort .compact

/-- A compaction, each intent before its phase. -/
def runAttachCopyCompaction : SwapM Unit := do
  checkpoint
  removeLeftovers
  writeIntent .preSwap
  renameDbWithWal .live .old
  writeIntent .phase1
  buildCompact
  writeIntent .phase2
  renameDbWithWal .compact .live
  Prog.attempt removeIntent
  removeDbFileBestEffort .old
  reopen

/-- `open`, and `reopen_after_compaction_failure` once its export directory is gone. -/
def openDb : SwapM Unit := do
  let recovered ← recoverSwapIntent
  discardIncompleteCompactIfPhase1 recovered
  reopen

/-- The recovery `read_file_states` runs before it reads. -/
def readFileStatesRecovery : SwapM Unit := do
  let recovered ← recoverSwapIntent
  discardIncompleteCompactIfPhase1 recovered

end ChunkHound
