import ChunkHound.ChunkDiff
import ChunkHound.NativeStore
import Mathlib.Data.List.Sort

/-!
# Storing parsed results

`_store_parsed_results` of the indexing coordinator over the tables it reads and writes.
A result of a file that is in the index is diffed against the stored chunks of the file :
the chunks whose content is gone are deleted, those of new content inserted, and the rest
stay as they are. A result of any other file is inserted whole.

A row of `chunks` is the model `get_chunks_by_file_id` reads back from it. Its symbol column
is `""` for no symbol, which `__post_init__` turns back. Statements that fail roll the
transaction of their file back and are left out, and so are the progress counters.
-/

namespace ChunkHound

/-- A row of `files`. -/
structure FileEntry where
  id : ℕ
  path : String
  size : ℤ
  mtime : ℚ
  contentHash : Option String
  language : Option String
  skipReason : Option String
  deriving DecidableEq

/-- A row of `chunks`. -/
structure ChunkEntry where
  id : ℕ
  chunk : Chunk
  deriving DecidableEq

/-- A row of an embedding table. `source` is ghost : the chunk whose text the provider was
given for this vector. No function reads it. -/
structure EmbeddingEntry where
  chunkId : ℕ
  provider : String
  model : String
  dims : ℕ
  embedding : List F32
  source : Chunk
  deriving DecidableEq

/-- The tables and the id sequences. -/
structure IndexDb where
  files : List FileEntry
  chunks : List ChunkEntry
  embeddings : List EmbeddingEntry
  filesIdSeq : ℕ
  chunksIdSeq : ℕ
  deriving DecidableEq

inductive ParseStatus
  | success
  | error (message : String)
  | skipped (reason : String)
  deriving DecidableEq

/-- What parsing one file gave. `path` is the relative path with forward slashes. -/
structure ParsedFileResult where
  path : String
  chunks : List Chunk
  language : String
  fileSize : ℤ
  fileMtime : ℚ
  status : ParseStatus
  contentHash : Option String

structure StoreStats where
  totalFiles : ℕ
  totalChunks : ℕ
  errors : List (String × String)
  chunkIdsNeedingEmbeddings : List ℕ
  deriving DecidableEq

def StoreStats.empty : StoreStats := ⟨0, 0, [], []⟩

namespace IndexDb

def empty : IndexDb := ⟨[], [], [], 1, 1⟩

/-- `get_file_by_path`. -/
def getFileByPath (db : IndexDb) (path : String) : Option FileEntry :=
  db.files.find? (·.path = path)

/-- `update_file` : a missing hash leaves the column, and `skip_reason` is cleared. -/
def updateFile (db : IndexDb) (id : ℕ) (size : ℤ) (mtime : ℚ) (hash : Option String) : IndexDb :=
  { db with
    files := db.files.map fun f =>
      if f.id = id then
        { f with
          size := size
          mtime := mtime
          contentHash := hash <|> f.contentHash
          skipReason := none }
      else f }

def insertFile (db : IndexDb) (r : ParsedFileResult) : IndexDb :=
  { db with
    files := db.files ++ [⟨db.filesIdSeq, r.path, r.fileSize, r.fileMtime, r.contentHash,
      some r.language, none⟩]
    filesIdSeq := db.filesIdSeq + 1 }

/-- `record_skipped_file` : `INSERT … ON CONFLICT (path) DO UPDATE`. -/
def recordSkippedFile (db : IndexDb) (r : ParsedFileResult) (reason : String) : IndexDb :=
  if (db.getFileByPath r.path).isSome then
    { db with
      files := db.files.map fun f =>
        if f.path = r.path then
          { f with
            size := r.fileSize
            mtime := r.fileMtime
            contentHash := r.contentHash
            skipReason := some reason }
        else f }
  else
    { db with
      files := db.files ++ [⟨db.filesIdSeq, r.path, r.fileSize, r.fileMtime, r.contentHash,
        some r.language, some reason⟩]
      filesIdSeq := db.filesIdSeq + 1 }

/-- `ORDER BY start_line, start_byte`, a missing offset last. -/
def rowOrder (a b : ChunkEntry) : Bool :=
  a.chunk.startLine < b.chunk.startLine ||
    a.chunk.startLine = b.chunk.startLine &&
      match a.chunk.startByte, b.chunk.startByte with
      | some x, some y => x ≤ y
      | none, some _ => false
      | _, none => true

/-- `get_chunks_by_file_id`. -/
def getChunksByFileId (db : IndexDb) (fileId : ℕ) : List Chunk :=
  ((db.chunks.filter (·.chunk.fileId = fileId)).mergeSort rowOrder).map fun e =>
    { e.chunk with id := some e.id }

/-- `delete_chunks_batch`, with the embeddings of the chunks. -/
def deleteChunksBatch (db : IndexDb) (ids : List ℕ) : IndexDb :=
  { db with
    embeddings := db.embeddings.filter (·.chunkId ∉ ids)
    chunks := db.chunks.filter (·.id ∉ ids) }

/-- The rows of some chunks, with ids from the sequence. -/
def newEntries (start : ℕ) : List Chunk → List ChunkEntry
  | [] => []
  | c :: cs => ⟨start, c⟩ :: newEntries (start + 1) cs

/-- `insert_chunks_batch`, which returns the new ids in order. -/
def insertChunksBatch (db : IndexDb) (chunks : List Chunk) : IndexDb × List ℕ :=
  ({ db with
      chunks := db.chunks ++ newEntries db.chunksIdSeq chunks
      chunksIdSeq := db.chunksIdSeq + chunks.length },
    (newEntries db.chunksIdSeq chunks).map (·.id))

end IndexDb

/-- `_store_file_record` : the file's id, whether it existed, and the tables. -/
def storeFileRecord (db : IndexDb) (r : ParsedFileResult) : ℕ × Bool × IndexDb :=
  match db.getFileByPath r.path with
  | some f => (f.id, true, db.updateFile f.id r.fileSize r.fileMtime r.contentHash)
  | none => (db.filesIdSeq, false, db.insertFile r)

/-- `Chunk.from_dict({**chunk_data, "file_id": file_id})` of a chunk's dictionary. -/
def withFileId (fileId : ℕ) (chunk : Chunk) : Chunk := { chunk with fileId := fileId }

section Store

variable (splitter : Splitter) (order : IterationOrder)

/-- The transaction of one parsed file, with the ids of the chunks it inserted. -/
def storeFile (db : IndexDb) (r : ParsedFileResult) : IndexDb × List ℕ :=
  let (fileId, isExisting, db) := storeFileRecord db r
  let newChunkModels := r.chunks.map (withFileId fileId)
  let existingChunks := if isExisting then db.getChunksByFileId fileId else []
  if existingChunks ≠ [] then
    let chunkDiff := diffChunks order newChunkModels existingChunks
    let db := db.deleteChunksBatch ((chunkDiff.deleted ++ chunkDiff.modified).filterMap (·.id))
    db.insertChunksBatch (validateChunkSizes splitter (chunkDiff.added ++ chunkDiff.modified))
  else
    db.insertChunksBatch (validateChunkSizes splitter newChunkModels)

/-- One round of the loop. -/
def storeParsedResult (st : IndexDb × StoreStats) (r : ParsedFileResult) :
    IndexDb × StoreStats :=
  let (db, stats) := st
  match r.status with
  | .error message => (db, { stats with errors := stats.errors ++ [(r.path, message)] })
  | .skipped reason => (db.recordSkippedFile r reason, stats)
  | .success =>
    let (db, ids) := storeFile splitter order db r
    (db, { stats with
      totalFiles := stats.totalFiles + 1
      totalChunks := stats.totalChunks + ids.length
      chunkIdsNeedingEmbeddings := stats.chunkIdsNeedingEmbeddings ++ ids })

/-- `_store_parsed_results`. With the disk limit exceeded it reports the error and stores
nothing. -/
def storeParsedResults (diskLimitError : Option String) (db : IndexDb)
    (results : List ParsedFileResult) : IndexDb × StoreStats :=
  match diskLimitError with
  | some e => (db, { StoreStats.empty with errors := [("", e)] })
  | none => results.foldl (storeParsedResult splitter order) (db, .empty)

end Store

end ChunkHound
