import ChunkHound.CrashHoare
import ChunkHound.FileEmbeddings

/-!
# Embeddings in the LanceDB chunks table

`_executor_insert_embeddings_batch` of `lancedb_provider.py`. Vectors are a column of the
`chunks` table, of the dimension the table was created with. For vectors of another dimension
the table is dropped, created again and filled from what was read before (`recreateTable`).
Then the vectors are merged into their rows, batch by batch.

An operation of a table is one action of a `CrashHoare.Prog`. `Json` is the part of the `json`
module that the metadata column uses.
-/

namespace ChunkHound.Lance

open CrashHoare Slices

/-! ## The chunks table -/

/-- Dictionaries and their text. -/
structure Json (μ : Type) where
  empty : μ
  isEmpty : μ → Bool
  dumps : μ → String
  loads : String → Option μ
  isEmpty_empty : isEmpty empty = true
  loads_dumps : ∀ m, loads (dumps m) = some m

/-- `_serialize_metadata`. -/
def serializeMetadata {μ : Type} (json : Json μ) (metadata : μ) : Option String :=
  if json.isEmpty metadata then none else some (json.dumps metadata)

/-- `_deserialize_metadata`. None when `json.loads` raises. -/
def deserializeMetadata {μ : Type} (json : Json μ) : Option String → Option μ
  | none => some json.empty
  | some s => json.loads s

/-- The type of the `embedding` column. -/
inductive EmbeddingColumn
  | missing
  | variableSize
  | fixedSize (dims : ℕ)
  deriving DecidableEq, Repr

structure ChunkRow where
  id : ℤ
  fileId : ℤ
  content : String
  startLine : ℤ
  endLine : ℤ
  chunkType : String
  language : String
  name : Option String
  embedding : Option (List F32)
  provider : Option String
  model : Option String
  createdTime : ℚ
  metadata : Option String
  deriving DecidableEq

structure ChunksTable where
  column : EmbeddingColumn
  rows : List ChunkRow
  deriving DecidableEq

/-- The database, as far as chunks go. -/
structure LanceDb where
  chunks : Option ChunksTable
  deriving DecidableEq

/-- An entry of `embeddings_data`. -/
structure EmbeddingData where
  chunkId : ℤ
  embedding : List F32
  provider : String
  model : String
  deriving DecidableEq

inductive LanceError
  | lance
  | json
  | zeroStep
  deriving DecidableEq, Repr

abbrev LanceM := Prog LanceDb LanceError

/-! ## Table operations -/

/-- An operation that changes no row. -/
def execute : LanceM Unit := Prog.act .lance some

/-- `self._chunks_table.to_pandas()`. -/
def toPandas : LanceM (List ChunkRow) :=
  Prog.query .lance fun db => db.chunks.map (·.rows)

/-- `conn.drop_table("chunks")`. -/
def dropTable : LanceM Unit :=
  Prog.act .lance fun db => db.chunks.map fun _ => { chunks := none }

/-- `conn.create_table("chunks", schema=…)`, of a name that is free. -/
def createTable (dims : ℕ) : LanceM Unit :=
  Prog.act .lance fun db =>
    if db.chunks.isNone then some { chunks := some ⟨.fixedSize dims, []⟩ } else none

/-- `self._chunks_table.add(…, mode="append")`. -/
def appendRows (rows : List ChunkRow) : LanceM Unit :=
  Prog.act .lance fun db => db.chunks.map fun t =>
    { chunks := some { t with rows := t.rows ++ rows } }

/-- `self._chunks_table.add_columns`. -/
def addColumns (dims : ℕ) : LanceM Unit :=
  Prog.act .lance fun db => db.chunks.map fun t =>
    { chunks := some { t with column := .fixedSize dims } }

/-- `merge_insert("id").when_matched_update_all()`. -/
def mergeRows (source : List ChunkRow) : LanceM Unit :=
  Prog.act .lance fun db => db.chunks.map fun t =>
    { chunks := some
        { t with rows := t.rows.map fun r => (source.find? (fun x => x.id = r.id)).getD r } }

/-! ## Recreating the table -/

section Json

variable {μ : Type} (json : Json μ)

/-- `_serialize_metadata(_deserialize_metadata(…))`. -/
def reserialize (metadata : Option String) : Option (Option String) :=
  (deserializeMetadata json metadata).map (serializeMetadata json)

/-- A row to write back, without its vector. -/
def restoreRow (row : ChunkRow) : Option ChunkRow :=
  (reserialize json row.metadata).map fun metadata =>
    { row with
      embedding := none
      provider := some ""
      model := some ""
      metadata := metadata }

def restoreBatchSize : ℕ := 1000

/-- Build the Arrow table of a batch and append it. -/
def restoreBatch (batch : List ChunkRow) : LanceM Unit := do
  execute
  appendRows batch

/-- Drop the table, create it for `dims` and put the rows back. -/
def recreateTable (dims : ℕ) : LanceM Unit := do
  let existing ← toPandas
  dropTable
  createTable dims
  let restored ← Prog.query .json fun _ => existing.mapM (restoreRow json)
  (slices restoreBatchSize restored).forM restoreBatch

/-- The column has another type than vectors of `dims` need. -/
def needsRecreation (dims : ℕ) : EmbeddingColumn → Bool
  | .missing => false
  | .variableSize => true
  | .fixedSize n => n ≠ dims

/-! ## Merging the vectors -/

/-- The page size of the fallback. -/
def pageSize : ℕ := 10000

/-- The rows with one of the ids, page by page until there are enough. Where `to_pandas` takes no
offset, all rows are read at once. -/
def readPages (pagination : Bool) (ids : List ℤ) : ℕ → ℕ → List ChunkRow → LanceM (List ChunkRow)
  | 0, _, acc => pure acc
  | pages + 1, offset, acc => do
    let rows ← toPandas
    if pagination then
      let found := acc ++ ((rows.drop offset).take pageSize).filter (·.id ∈ ids)
      if ids.length ≤ found.length then pure found
      else readPages pagination ids pages (offset + pageSize) found
    else pure (acc ++ rows.filter (·.id ∈ ids))

/-- The rows of a batch of ids : a Lance filter, or the fallback when it raises. -/
def readExisting (pagination : Bool) (ids : List ℤ) : LanceM (List ChunkRow) :=
  Prog.tryCatch
    (do
      let rows ← toPandas
      pure (rows.filter (·.id ∈ ids)))
    fun _ => do
      let rows ← toPandas
      readPages pagination ids ((rows.length + pageSize - 1) / pageSize) 0 []

/-- `embedding_lookup[id]` : the last entry of the batch for a chunk. -/
def embeddingLookup (batch : List EmbeddingData) (id : ℤ) : Option EmbeddingData :=
  batch.reverse.find? (·.chunkId = id)

/-- The full row with its new vector. -/
def mergedRow (batch : List EmbeddingData) (row : ChunkRow) : Option (Option ChunkRow) :=
  match embeddingLookup batch row.id with
  | none => some none
  | some e => (reserialize json row.metadata).map fun metadata =>
      some
        { row with
          embedding := some e.embedding
          provider := some e.provider
          model := some e.model
          metadata := metadata }

/-- One batch of vectors. The number of rows merged. -/
def mergeBatch (pagination : Bool) (batch : List EmbeddingData) : LanceM ℕ := do
  let ids := (batch.map (·.chunkId)).dedup
  let existing ← readExisting pagination ids
  let merged ← Prog.query .json fun _ => existing.mapM (mergedRow json batch)
  let mergeData := merged.filterMap id
  if mergeData = [] then
    pure 0
  else do
    execute
    mergeRows mergeData
    pure mergeData.length

/-- Give the table a column for vectors of `dims`. -/
def prepareTable (dims : ℕ) (column : EmbeddingColumn) : LanceM Unit :=
  if needsRecreation dims column then recreateTable json dims
  else if column = .missing then addColumns dims
  else pure ()

/-- An index is built from 256 rows on. One that cannot be built is left out. -/
def createVectorIndex (rows : ℕ) : LanceM Unit :=
  if 256 ≤ rows then Prog.attempt execute else pure ()

/-- Merge all the vectors, and build the index. -/
def updateEmbeddings (pagination : Bool) (size : ℕ) (data : List EmbeddingData) : LanceM ℕ :=
  if size = 0 then Prog.throw .zeroStep
  else do
    let total ← (slices size data).foldlM (fun total batch => do
      let n ← mergeBatch json pagination batch
      pure (total + n)) 0
    let rows ← toPandas
    createVectorIndex rows.length
    pure total

/-- `_executor_insert_embeddings_batch`. -/
def insertEmbeddingsBatch (pagination : Bool) (batchSize : Option ℕ) (data : List EmbeddingData) :
    LanceM ℕ := do
  let db ← Prog.get
  match data, db.chunks with
  | e :: _, some table =>
    if e.embedding = [] then pure 0
    else do
      prepareTable json e.embedding.length table.column
      updateEmbeddings json pagination (batchSize.getD (min 10000 data.length)) data
  | _, _ => pure 0

end Json

end ChunkHound.Lance
