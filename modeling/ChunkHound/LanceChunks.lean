import ChunkHound.ChunkInsertion
import ChunkHound.EmbeddingText
import ChunkHound.LanceEmbeddings
import ChunkHound.Upserts

/-!
# Chunks in the LanceDB store

`insert_chunks_batch` and `get_chunks_by_file_id` of `lancedb_provider.py`, beside those of the
DuckDB provider. DuckDB draws a fresh id for each row. The id of a LanceDB row is a hash of the file
id, the normalized content and the chunk type (`chunk_hashing.py`), "enabling content-based
deduplication within files", and rows are merged into the table by id.

So chunks of a file that have the same normalized code and type share one row. The two stores hold
the same chunks exactly when the ids of the new chunks are distinct and not in the table yet
(`insertChunks_spec`).
-/

namespace ChunkHound.Lance

open Grouping Ranking Slices Upserts

/-! ## Ids -/

abbrev ChunkTable := Table ChunkRow.id

/-- What is outside of the provider : the hash function, `json.dumps`, the clock at each chunk, and
the row that a merge takes of several with one id. -/
structure Outside where
  xxh3 : String → UInt64
  dumps : Metadata → String
  time : ℕ → ℚ
  pick : Pick ChunkRow.id

/-- `generate_chunk_id`. The text is hashed in three parts. -/
def generateChunkId (xxh3 : String → UInt64) (fileId : ℕ) (content : String)
    (concept : Option String) : ℤ :=
  let unsignedHash := (xxh3 (toString fileId ++ normalizeContent content ++ concept.getD "")).toNat
  if 2 ^ 63 ≤ unsignedHash then (unsignedHash : ℤ) - 2 ^ 64 else unsignedHash

/-- `_generate_chunk_id_safe`. -/
def generateChunkIdSafe (xxh3 : String → UInt64) (chunk : Chunk) : ℤ :=
  match chunk.id with
  | some (n + 1) => n + 1
  | _ => generateChunkId xxh3 chunk.fileId chunk.code (some chunk.chunkType.value)

/-! ## Insertion -/

section Insertion

variable (o : Outside)

/-- The row of a chunk, and of its place among the chunks. -/
def insertedRow (chunk : Chunk × ℕ) : ChunkRow where
  id := generateChunkIdSafe o.xxh3 chunk.1
  fileId := chunk.1.fileId
  content := chunk.1.code
  startLine := chunk.1.startLine
  endLine := chunk.1.endLine
  chunkType := chunk.1.chunkType.value
  language := chunk.1.language
  name := some (chunk.1.symbol.getD "")
  embedding := none
  provider := some ""
  model := some ""
  createdTime := o.time chunk.2
  metadata := (chunk.1.metadata.filter (· ≠ ⟨[], none⟩)).map o.dumps

def insertBatchSize : ℕ := 1000

/-- The ids so far and the table, after one more batch. -/
def insertBatch (s : List ℤ × ChunkTable) (batch : List (Chunk × ℕ)) : List ℤ × ChunkTable :=
  let rows := batch.map (insertedRow o)
  (s.1 ++ rows.map ChunkRow.id, s.2.upsert o.pick rows)

/-- `_executor_insert_chunks_batch`. -/
def insertChunksBatch (chunks : List Chunk) (table : ChunkTable) : List ℤ × ChunkTable :=
  (slices insertBatchSize chunks.zipIdx).foldl (insertBatch o) ([], table)

end Insertion

/-- `_deduplicate_by_id`. -/
def deduplicateById (rows : List ChunkRow) : List ChunkRow :=
  keepFirst ChunkRow.id (fun _ => false) [] rows

/-- `_executor_get_chunks_by_file_id`. -/
def getChunksByFileId (table : ChunkTable) (fileId : ℤ) : List ChunkRow :=
  deduplicateById (table.rows.filter (·.fileId = fileId))

end ChunkHound.Lance

namespace ChunkHound.ChunkInsertion

/-- `ORDER BY start_line, start_byte`, where `NULL` comes last. -/
def orderedByStart (a b : ℕ × ChunkData) : Bool :=
  a.2.startLine < b.2.startLine || a.2.startLine = b.2.startLine &&
    match a.2.startByte, b.2.startByte with
    | some x, some y => x ≤ y
    | _, none => true
    | none, some _ => false

/-- `_executor_get_chunks_by_file_id`, of the DuckDB provider. -/
def State.getChunksByFileId (s : State) (fileId : ℤ) : List (ℕ × ChunkData) :=
  (s.rows.filter fun row => (row.2.fileId : ℤ) = fileId).mergeSort orderedByStart

end ChunkHound.ChunkInsertion

namespace ChunkHound.Lance

open ChunkInsertion (ChunkData Choice chunkData insertChunksBatch_of_ne_nil numberedRows
  numberedRows_perm)
open Grouping Ranking Slices Upserts

/-! ## What the stores hold -/

/-- What both stores tell of a chunk. -/
structure View where
  code : String
  startLine : ℤ
  endLine : ℤ
  symbol : Option String
  chunkType : String
  deriving DecidableEq

def ChunkRow.view (row : ChunkRow) : View :=
  ⟨row.content, row.startLine, row.endLine, row.name, row.chunkType⟩

def dataView (d : ChunkData) : View :=
  ⟨d.code, d.startLine, d.endLine, some d.symbol, d.chunkType.value⟩

def chunkView (c : Chunk) : View :=
  ⟨c.code, c.startLine, c.endLine, some (c.symbol.getD ""), c.chunkType.value⟩

/-- For every file the two stores have the same chunks, each as often. -/
def SameChunks (table : ChunkTable) (s : ChunkInsertion.State) : Prop :=
  ∀ fileId : ℤ, ((getChunksByFileId table fileId).map ChunkRow.view).Perm
    ((s.getChunksByFileId fileId).map fun row => dataView row.2)

def entries (rows : List ChunkRow) : List (ℤ × View) := rows.map fun row => (row.fileId, row.view)

def dataEntries (rows : List ChunkData) : List (ℤ × View) :=
  rows.map fun d => ((d.fileId : ℤ), dataView d)

def chunkEntry (c : Chunk) : ℤ × View := (c.fileId, chunkView c)

theorem getChunksByFileId_eq (table : ChunkTable) (fileId : ℤ) :
    getChunksByFileId table fileId = table.rows.filter (·.fileId = fileId) := by
  refine keepFirst_eq_self (table.nodup.sublist (List.filter_sublist.map _)) fun row _ => ?_
  exact ⟨rfl, List.not_mem_nil⟩

variable {s : ChunkInsertion.State}

/-- The stores hold the same chunks when their entries are the same up to order. -/
theorem sameChunks_iff {table : ChunkTable} :
    SameChunks table s ↔ (entries table.rows).Perm (dataEntries (s.rows.map Prod.snd)) := by
  rw [perm_iff_forall_key]
  refine forall_congr' fun fileId => ?_
  have hlance : (getChunksByFileId table fileId).map ChunkRow.view =
      ((entries table.rows).filter (·.1 = fileId)).map Prod.snd := by
    rw [getChunksByFileId_eq, entries, List.filter_map, List.map_map]
    rfl
  have hduck : ((s.getChunksByFileId fileId).map fun row => dataView row.2).Perm
      (((dataEntries (s.rows.map Prod.snd)).filter (·.1 = fileId)).map Prod.snd) := by
    rw [dataEntries, List.map_map, List.filter_map, List.map_map]
    exact (List.mergeSort_perm _ _).map _
  rw [hlance]
  exact ⟨fun h => h.trans hduck, fun h => h.trans hduck.symm⟩

/-! ## What an insertion does -/

section Insertion

variable (o : Outside) (chunks : List Chunk) (table : ChunkTable)

/-- The rows that are merged, batch by batch. -/
def insertedBatches : List (List ChunkRow) :=
  (slices insertBatchSize chunks.zipIdx).map (·.map (insertedRow o))

theorem foldl_insertBatch : ∀ (batches : List (List (Chunk × ℕ))) (ids : List ℤ)
    (table : ChunkTable),
    (batches.foldl (insertBatch o) (ids, table)).1 =
        ids ++ batches.flatten.map (fun c => generateChunkIdSafe o.xxh3 c.1) ∧
      (batches.foldl (insertBatch o) (ids, table)).2.rows =
        upsertAll o.pick (batches.map (·.map (insertedRow o))) table.rows
  | [], ids, table => by simp
  | batch :: batches, ids, table => by
    obtain ⟨hids, hrows⟩ := foldl_insertBatch batches
      (ids ++ (batch.map (insertedRow o)).map ChunkRow.id)
      (table.upsert o.pick (batch.map (insertedRow o)))
    refine ⟨?_, hrows⟩
    rw [List.foldl_cons, insertBatch, hids, List.map_map, List.flatten_cons, List.map_append,
      List.append_assoc]
    rfl

theorem flatten_insertedBatches :
    (insertedBatches o chunks).flatten = chunks.zipIdx.map (insertedRow o) := by
  rw [insertedBatches, ← List.map_flatten, flatten_slices (by decide)]

/-- What the rows say of the chunks alone. -/
theorem map_zipIdx_fst {β : Type} (f : Chunk → β) :
    chunks.zipIdx.map (fun c => f c.1) = chunks.map f := by
  calc chunks.zipIdx.map (fun c => f c.1)
      = (chunks.zipIdx.map Prod.fst).map f := by rw [List.map_map]; rfl
    _ = chunks.map f := by rw [List.zipIdx_map_fst]

theorem keys_insertedBatches : (insertedBatches o chunks).flatten.map ChunkRow.id =
    chunks.map (generateChunkIdSafe o.xxh3) := by
  rw [flatten_insertedBatches, List.map_map]
  exact map_zipIdx_fst chunks (generateChunkIdSafe o.xxh3)

theorem entries_insertedBatches :
    entries (insertedBatches o chunks).flatten = chunks.map chunkEntry := by
  rw [entries, flatten_insertedBatches, List.map_map]
  exact map_zipIdx_fst chunks chunkEntry

theorem ids_insertChunksBatch :
    (insertChunksBatch o chunks table).1 = chunks.map (generateChunkIdSafe o.xxh3) := by
  rw [insertChunksBatch, (foldl_insertBatch o _ [] table).1, List.nil_append,
    flatten_slices (by decide)]
  exact map_zipIdx_fst chunks (generateChunkIdSafe o.xxh3)

theorem rows_insertChunksBatch : (insertChunksBatch o chunks table).2.rows =
    upsertAll o.pick (insertedBatches o chunks) table.rows :=
  (foldl_insertBatch o _ [] table).2

/-- The id of a chunk has the row of a chunk with that id. -/
theorem exists_row {c : Chunk} (hc : c ∈ chunks) :
    ∃ row ∈ (insertChunksBatch o chunks table).2.rows,
      row.id = generateChunkIdSafe o.xxh3 c ∧
        ∃ c' ∈ chunks, generateChunkIdSafe o.xxh3 c' = row.id ∧
          (row.fileId, row.view) = chunkEntry c' := by
  have hkey : generateChunkIdSafe o.xxh3 c ∈
      (insertedBatches o chunks).flatten.map ChunkRow.id := by
    rw [keys_insertedBatches]
    exact List.mem_map_of_mem hc
  rw [rows_insertChunksBatch]
  obtain ⟨row, hrow, hid⟩ := List.mem_map.1
    ((mem_keys_upsertAll o.pick _ table.rows).2 (Or.inr hkey))
  refine ⟨row, hrow, hid, ?_⟩
  have hin := mem_flatten_of_key o.pick hrow (hid ▸ hkey)
  rw [flatten_insertedBatches] at hin
  obtain ⟨⟨c', i⟩, hc', rfl⟩ := List.mem_map.1 hin
  exact ⟨c', List.fst_mem_of_mem_zipIdx hc', rfl, rfl⟩

/-- Every row was there, or belongs to the file of a chunk. -/
theorem fileId_of_mem {row : ChunkRow}
    (h : row ∈ (insertChunksBatch o chunks table).2.rows) :
    row ∈ table.rows ∨ ∃ c ∈ chunks, row.fileId = c.fileId := by
  rw [rows_insertChunksBatch] at h
  refine (mem_of_mem_upsertAll o.pick h).imp_right fun hin => ?_
  rw [flatten_insertedBatches] at hin
  obtain ⟨⟨c, i⟩, hc, rfl⟩ := List.mem_map.1 hin
  exact ⟨c, List.fst_mem_of_mem_zipIdx hc, rfl⟩

theorem mem_rows_of_other {row : ChunkRow}
    (h : row.id ∉ chunks.map (generateChunkIdSafe o.xxh3)) :
    row ∈ (insertChunksBatch o chunks table).2.rows ↔ row ∈ table.rows := by
  rw [rows_insertChunksBatch]
  exact mem_upsertAll_of_ne o.pick (by rwa [keys_insertedBatches])

end Insertion

/-- DuckDB appends a row for each chunk. -/
theorem duck_rows_perm (s : ChunkInsertion.State) (choice : Choice) (chunks : List Chunk) :
    ((s.insertChunksBatch choice chunks).2.rows.map Prod.snd).Perm
      (s.rows.map Prod.snd ++ chunks.map chunkData) := by
  by_cases h : chunks = []
  · subst h
    simp [ChunkInsertion.State.insertChunksBatch]
  · rw [insertChunksBatch_of_ne_nil h, List.map_append, List.map_snd_zip]
    · exact (numberedRows_perm s choice chunks).append_left _
    · rw [(numberedRows_perm s choice chunks).length_eq, List.length_map, List.length_range']

theorem dataEntries_chunkData (chunks : List Chunk) :
    dataEntries (chunks.map chunkData) = chunks.map chunkEntry := by
  rw [dataEntries, List.map_map]
  rfl

/-- From the same chunks, both stores come to the same chunks again exactly when the ids of the new
ones are distinct and new. -/
theorem sameChunks_insert_iff (o : Outside) {table : ChunkTable}
    (choice : Choice) (chunks : List Chunk) (h : SameChunks table s) :
    SameChunks (insertChunksBatch o chunks table).2 (s.insertChunksBatch choice chunks).2 ↔
      (chunks.map (generateChunkIdSafe o.xxh3)).Nodup ∧
        ∀ id ∈ chunks.map (generateChunkIdSafe o.xxh3), id ∉ table.rows.map ChunkRow.id := by
  rw [sameChunks_iff] at h ⊢
  have hduck : (dataEntries ((s.insertChunksBatch choice chunks).2.rows.map Prod.snd)).Perm
      (entries table.rows ++ chunks.map chunkEntry) := by
    refine ((duck_rows_perm s choice chunks).map _).trans ?_
    rw [List.map_append]
    exact h.symm.append (.of_eq (dataEntries_chunkData chunks))
  rw [rows_insertChunksBatch, ← keys_insertedBatches]
  constructor
  · intro hsame
    have hlen := (hsame.trans hduck).length_eq
    rw [entries, entries, List.length_append, List.length_map, List.length_map, List.length_map]
      at hlen
    refine (length_upsertAll_iff o.pick _ table.rows).1 ?_
    have hkeys := congrArg List.length (keys_insertedBatches o chunks)
    rw [List.length_map, List.length_map] at hkeys
    rw [hlen, hkeys]
  · rintro ⟨hnodup, hnew⟩
    have hall := (upsertAll_perm o.pick _ table.rows hnodup hnew).map
      fun row : ChunkRow => (row.fileId, row.view)
    rw [List.map_append] at hall
    have hrows := entries_insertedBatches o chunks
    rw [entries] at hrows
    rw [hrows] at hall
    exact hall.trans hduck.symm

/-- Same file, same normalized code, same type. -/
def SameContent (c c' : Chunk) : Prop :=
  c.fileId = c'.fileId ∧ normalizeContent c.code = normalizeContent c'.code ∧
    c.chunkType = c'.chunkType

theorem SameContent.id_eq {c c' : Chunk} (h : SameContent c c') (hc : c.id = none)
    (hc' : c'.id = none) (xxh3 : String → UInt64) :
    generateChunkIdSafe xxh3 c = generateChunkIdSafe xxh3 c' := by
  obtain ⟨hfile, hcode, htype⟩ := h
  rw [generateChunkIdSafe, generateChunkIdSafe, hc, hc']
  simp only [generateChunkId, hfile, hcode, htype]

/-! ## Results -/

/-- Each chunk gets the id of its content, and the table a row of a chunk of that id. Rows of other
ids stay as they are, vectors included. -/
theorem insertChunks_spec (o : Outside) (table : ChunkTable) (s : ChunkInsertion.State)
    (choice : Choice) (chunks : List Chunk) (hwithout : ∀ c ∈ chunks, c.id = none) :
    (insertChunksBatch o chunks table).1 = chunks.map (generateChunkIdSafe o.xxh3) ∧
      (∀ c ∈ chunks, ∀ c' ∈ chunks, SameContent c c' →
        generateChunkIdSafe o.xxh3 c = generateChunkIdSafe o.xxh3 c') ∧
      (∀ c ∈ chunks, ∃ row ∈ (insertChunksBatch o chunks table).2.rows,
        row.id = generateChunkIdSafe o.xxh3 c ∧
          ∃ c' ∈ chunks, generateChunkIdSafe o.xxh3 c' = row.id ∧
            (row.fileId, row.view) = chunkEntry c') ∧
      (∀ row : ChunkRow, row.id ∉ (insertChunksBatch o chunks table).1 →
        (row ∈ (insertChunksBatch o chunks table).2.rows ↔ row ∈ table.rows)) ∧
      (SameChunks table s →
        (SameChunks (insertChunksBatch o chunks table).2 (s.insertChunksBatch choice chunks).2 ↔
          (insertChunksBatch o chunks table).1.Nodup ∧
            ∀ id ∈ (insertChunksBatch o chunks table).1, id ∉ table.rows.map ChunkRow.id)) := by
  rw [ids_insertChunksBatch]
  refine ⟨rfl, fun c hc c' hc' h => h.id_eq (hwithout c hc) (hwithout c' hc') o.xxh3,
    fun c hc => exists_row o chunks table hc, fun row h => mem_rows_of_other o chunks table h,
    sameChunks_insert_iff o choice chunks⟩

/-- A polynomial hash, and the first of the rows with one id. -/
def polynomialHash : Outside where
  xxh3 text := text.toList.foldl (fun hash c => 31 * hash + UInt64.ofNat c.toNat) 7
  dumps _ := "{}"
  time i := i
  pick := .first ChunkRow.id

open ChunkInsertion (start reversed chunkX chunkY oneLine)

theorem sameChunks_empty : SameChunks .empty start :=
  sameChunks_iff.2 (.refl _)

/-- Two chunks with different code are in both stores. -/
theorem sameChunks_twoChunks : SameChunks
    (insertChunksBatch polynomialHash [chunkX, chunkY] .empty).2
    (start.insertChunksBatch reversed [chunkX, chunkY]).2 :=
  ((insertChunks_spec polynomialHash .empty start reversed [chunkX, chunkY] (by decide)).2.2.2.2
    sameChunks_empty).2 (by decide +kernel)

def firstPass : Chunk := oneLine 1 "pass" (by decide)

def secondPass : Chunk :=
  { firstPass with startLine := 2, endLine := 2, lines_ok := by decide }

/-- The same line twice gets one id, and one of the two is not stored. -/
theorem repeated_line_merged :
    ¬(insertChunksBatch polynomialHash [firstPass, secondPass] .empty).1.Nodup ∧
      ¬SameChunks (insertChunksBatch polynomialHash [firstPass, secondPass] .empty).2
        (start.insertChunksBatch reversed [firstPass, secondPass]).2 := by
  have hids : ¬([firstPass, secondPass].map (generateChunkIdSafe polynomialHash.xxh3)).Nodup := by
    decide +kernel
  refine ⟨by rwa [ids_insertChunksBatch], fun h => hids ?_⟩
  exact ((sameChunks_insert_iff polynomialHash reversed _ sameChunks_empty).1 h).1

end ChunkHound.Lance
