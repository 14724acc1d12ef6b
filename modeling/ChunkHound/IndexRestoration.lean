import ChunkHound.CrashHoare
import ChunkHound.HnswCatalog

/-!
# The vector indexes of a directory run

`DirectoryIndexingService.process_directory` drops every HNSW index, lets the coordinator parse,
store, compact and embed, and has canonical indexes built as its last step. Nothing restores the
indexes on another way out : a run that raises or is cancelled before its last step leaves the
database as its phases left it, and the tables without an index get one when they are searched
(`rebuilt_at_the_end`).

The phases, and what they keep in memory, are parameters : they may do anything to the database.
The outcomes of a run say what becomes of each statement, and a run that is killed is one whose
task was cancelled. A statement already running then goes on, so the database is the one of a
later end. An embedding table is named by its dims.
-/

namespace ChunkHound.IndexRestoration

open CrashHoare HnswCatalog

/-- A table of embeddings, by its dims, and how many rows it has. -/
structure EmbeddingTable where
  dims : ℕ
  rows : ℕ
  deriving DecidableEq

/-- The embedding tables, and the indexes of the catalog. -/
structure Database where
  tables : List EmbeddingTable
  indexes : List (CatalogIndex ℕ)
  deriving DecidableEq

/-- The database, and all that the phases keep elsewhere. -/
structure World (ρ : Type) where
  db : Database
  rest : ρ

/-- What a run may end with. -/
inductive IndexError
  | sql
  | processingFailed
  | compactionFailed
  | phase
  deriving DecidableEq

/-- Programs on the database and what else there is. -/
abbrev IndexM (ρ : Type) := Prog (World ρ) IndexError

/-- The name of the index that `ensure_all_hnsw_indexes` creates. -/
def embeddingHnswIndexName (dims : ℕ) : String := s!"idx_hnsw_{dims}"

namespace Database

/-- Some index of the table counts as an HNSW index. -/
def hasHnsw (db : Database) (dims : ℕ) : Bool :=
  db.indexes.any fun i => i.dims == dims && isHnswIndex i

/-- `SELECT COUNT(*)`, where there is the table. -/
def rowCount (db : Database) (dims : ℕ) : Option ℕ :=
  (db.tables.find? (·.dims = dims)).map (·.rows)

/-- `DROP INDEX IF EXISTS`. -/
def dropIndex (db : Database) (indexName : String) : Database :=
  { db with indexes := db.indexes.filter (·.indexName ≠ indexName) }

/-- The index that `ensure_all_hnsw_indexes` creates. -/
def canonicalIndex (dims : ℕ) : CatalogIndex ℕ :=
  ⟨embeddingHnswIndexName dims, dims, some "cosine"⟩

/-- `CREATE INDEX idx_hnsw_{dims} … WITH (metric = 'cosine')`. It raises where the name is taken. -/
def createIndex (db : Database) (dims : ℕ) : Option Database :=
  if ∀ i ∈ db.indexes, i.indexName ≠ embeddingHnswIndexName dims then
    some { db with indexes := db.indexes ++ [canonicalIndex dims] }
  else
    none

end Database

variable {ρ : Type}

/-- A statement that changes no table and no index. -/
def statement : IndexM ρ Unit := Prog.act .sql some

/-! ## Dropping the indexes -/

/-- A catalog that cannot be read counts as one without HNSW indexes. -/
def getExistingVectorIndexes (metricReads : String → Bool) : IndexM ρ (List (VectorIndexInfo ℕ)) :=
  Prog.tryCatch (Prog.query .sql fun w => some (existingVectorIndexes metricReads w.db.indexes))
    fun _ => pure []

/-- `DROP INDEX` -/
def dropIndex (idx : VectorIndexInfo ℕ) : IndexM ρ PUnit :=
  Prog.act .sql fun w => some { w with db := w.db.dropIndex idx.indexName }

/-- `drop_all_hnsw_indexes` -/
def dropAllHnswIndexes (metricReads : String → Bool) : IndexM ρ Unit := do
  let indexes ← getExistingVectorIndexes metricReads
  indexes.forM dropIndex

/-! ## Building them again -/

/-- The table has an HNSW index. -/
def hnswIndexExists (dims : ℕ) : IndexM ρ Bool :=
  Prog.query .sql fun w => some (w.db.hasHnsw dims)

/-- `CREATE INDEX ... USING HNSW` -/
def createIndex (dims : ℕ) : IndexM ρ Unit :=
  Prog.act .sql fun w => (w.db.createIndex dims).map fun db => { w with db := db }

/-- The body of the loop of `ensure_all_hnsw_indexes` : whether an index was created. -/
def ensureTable (dims : ℕ) : IndexM ρ Bool := do
  let rowCount ← Prog.query .sql fun w => w.db.rowCount dims
  if rowCount = 0 then
    return false
  else
    let present ← hnswIndexExists dims
    if present then
      return false
    else
      createIndex dims
      return true

/-- The loop : whether any index was created. -/
def ensureTables : List ℕ → IndexM ρ Bool
  | [] => pure false
  | dims :: tables => do
    let created ← ensureTable dims
    let others ← ensureTables tables
    return created || others

/-- `ensure_all_hnsw_indexes` -/
def ensureAllHnswIndexes : IndexM ρ Unit := do
  let tables ← Prog.query .sql fun w => some (w.db.tables.map (·.dims))
  let created ← ensureTables tables
  if created then statement else pure ()

/-! ## The run -/

/-- What processing a directory returns. -/
structure ProcessResult where
  status : String
  pipeline : Option String
  filesProcessed : ℕ
  totalChunks : ℕ
  embeddingsGenerated : ℕ
  errors : ℕ

/-- The fields of `IndexingStats` that a run looks at. -/
structure IndexingStats where
  filesProcessed : ℕ
  chunksCreated : ℕ
  embeddingsGenerated : ℕ
  deriving DecidableEq

/-- What a run calls : the coordinator, over its database, and the callback. -/
structure Coordinator (ρ : Type) where
  metricReads : String → Bool
  resolveRustPipelineDecision : Bool
  processDirectory : IndexM ρ ProcessResult
  /-- It answers with a status. -/
  compactDatabaseWithMetrics : IndexM ρ String
  /-- It answers with the number of embeddings generated. -/
  generateMissingEmbeddings : IndexM ρ ℕ
  clearCompactionSkip : IndexM ρ Unit
  progressCallback : String → IndexM ρ Unit

variable (c : Coordinator ρ)

/-- The Rust pipeline drops its indexes itself. -/
def dropHnswIndexes : IndexM ρ Unit :=
  if c.resolveRustPipelineDecision then pure () else dropAllHnswIndexes c.metricReads

/-- The files are processed, or the run ends. -/
def processDirectoryFiles : IndexM ρ ProcessResult := do
  let result ← c.processDirectory
  if result.status ∈ ["complete", "success", "no_files"] then
    return result
  else
    Prog.throw .processingFailed

/-- The compaction after a batch. -/
def runBatchCompaction : IndexM ρ Unit := do
  let status ← c.compactDatabaseWithMetrics
  if status ∈ ["success", "skipped"] then pure () else Prog.throw .compactionFailed

/-- The embedding pass of a run that needs one : how many embeddings it generated. -/
def embeddingPass : IndexM ρ ℕ := do
  c.progressCallback "Checking for missing embeddings..."
  let generated ← c.generateMissingEmbeddings
  if 0 < generated then c.clearCompactionSkip else pure ()
  return generated

/-- `process_directory` up to its last step : the stats, and whether the Rust pipeline ran. -/
def bulkPhases (noEmbeddings : Bool) : IndexM ρ (IndexingStats × Bool) := do
  dropHnswIndexes c
  c.progressCallback "Discovering files..."
  let result ← processDirectoryFiles c
  let worked := 0 < result.filesProcessed ∨ 0 < result.totalChunks
  if worked then runBatchCompaction c else pure ()
  let usedRustPipeline := result.pipeline == some "rust"
  let rustHadErrors := usedRustPipeline && decide (0 < result.errors)
  let generated ←
    if !noEmbeddings && (!usedRustPipeline || rustHadErrors) then embeddingPass c else pure 0
  let stats : IndexingStats :=
    ⟨result.filesProcessed, result.totalChunks, result.embeddingsGenerated + generated⟩
  if worked ∨ 0 < stats.embeddingsGenerated then runBatchCompaction c else pure ()
  return (stats, usedRustPipeline)

/-- The Rust pipeline builds its indexes itself. -/
def ensureHnswIndexes (usedRustPipeline : Bool) : IndexM ρ Unit :=
  if usedRustPipeline then pure () else ensureAllHnswIndexes

/-- `process_directory` -/
def processDirectory (noEmbeddings : Bool) : IndexM ρ IndexingStats := do
  let phases ← bulkPhases c noEmbeddings
  ensureHnswIndexes phases.2
  return phases.1

/-! ## A search afterwards -/

/-- How a search for vectors ends. -/
inductive SearchAnswer
  | noTable
  | failed
  | rows
  deriving DecidableEq

/-- The lazy rebuild of an index that a failed run left out. -/
def lazyRebuild (queryDims : ℕ) : IndexM ρ Unit := do
  let present ← hnswIndexExists queryDims
  if present then pure () else createIndex queryDims

/-- `_executor_search_semantic` from its look for the table on. -/
def searchTable (queryDims : ℕ) : IndexM ρ SearchAnswer := do
  let known ← Prog.query .sql fun w => some (w.db.rowCount queryDims).isSome
  if known then
    lazyRebuild queryDims
    statement
    return .rows
  else
    return .noTable

/-- An error is logged and answered with no rows. -/
def searchSemantic (queryDims : ℕ) : IndexM ρ SearchAnswer :=
  Prog.tryCatch (searchTable queryDims) fun _ => pure .failed

/-! ## What the drop leaves -/

section Drop

variable {db : Database}

/-- Fewer indexes, on the same tables. -/
structure Dropped (db db' : Database) : Prop where
  tables : db'.tables = db.tables
  indexes : db'.indexes ⊆ db.indexes

theorem Dropped.refl (db : Database) : Dropped db db := ⟨rfl, fun _ hi => hi⟩

theorem Dropped.dropIndex {db' : Database} (h : Dropped db db') (indexName : String) :
    Dropped db (db'.dropIndex indexName) :=
  ⟨h.tables, fun _ hi => h.indexes (List.mem_of_mem_filter hi)⟩

theorem getExistingVectorIndexes_spec (metricReads : String → Bool) (db : Database) :
    Triple (fun w : World ρ => w.db = db) (getExistingVectorIndexes metricReads)
      (fun indexes w => w.db = db ∧
        (indexes = [] ∨ indexes = existingVectorIndexes metricReads db.indexes))
      (fun w => w.db = db) := by
  refine Triple.tryCatch ((Triple.query fun _ hw => hw).conseq (fun _ hw => hw) ?_) fun e => ?_
  · rintro indexes w ⟨rfl, hread⟩
    exact ⟨rfl, Or.inr (Option.some.inj hread).symm⟩
  · exact Triple.pure _ fun _ hw => ⟨hw, Or.inl rfl⟩

/-- After the loop no index has the name of one that was to be dropped. -/
theorem dropIndexes_spec (db : Database) (indexes : List (VectorIndexInfo ℕ)) :
    Triple (fun w : World ρ => w.db = db) (indexes.forM dropIndex)
      (fun _ w => Dropped db w.db ∧
        ∀ i ∈ w.db.indexes, ∀ idx ∈ indexes, i.indexName ≠ idx.indexName)
      (fun w => Dropped db w.db) := by
  let kept : List (VectorIndexInfo ℕ) → List (VectorIndexInfo ℕ) → World ρ → Prop :=
    fun dropped _ w =>
      Dropped db w.db ∧ ∀ i ∈ w.db.indexes, ∀ idx ∈ dropped, i.indexName ≠ idx.indexName
  have hstep : ∀ dropped idx rest, Triple (kept dropped (idx :: rest)) (dropIndex idx)
      (fun _ => kept (dropped ++ [idx]) rest) (fun w : World ρ => Dropped db w.db) := by
    intro dropped idx rest
    refine Triple.act (fun w hw => hw.1) ?_
    rintro w _ ⟨hdropped, hnames⟩ ⟨⟩
    have hfewer := hdropped.dropIndex idx.indexName
    refine ⟨⟨hfewer, fun i hi other hother => ?_⟩, hfewer⟩
    obtain ⟨hmem, hname⟩ := List.mem_filter.1 hi
    rcases List.mem_append.1 hother with hother | hother
    · exact hnames i hmem other hother
    · rw [List.mem_singleton.1 hother]
      simpa using hname
  refine (Triple.forM hstep indexes []).pre ?_
  rintro w rfl
  exact ⟨⟨rfl, fun _ hi => hi⟩, fun _ _ _ h => absurd h List.not_mem_nil⟩

/-- An HNSW index that is left would have one of the names that were dropped. -/
theorem hasHnsw_of_names {metricReads : String → Bool} {db db' : Database} (h : Dropped db db')
    (hnames : ∀ i ∈ db'.indexes, ∀ idx ∈ existingVectorIndexes metricReads db.indexes,
      i.indexName ≠ idx.indexName) (dims : ℕ) : db'.hasHnsw dims = false := by
  refine List.any_eq_false.2 fun i hi hhnsw => ?_
  have hmem : i ∈ db.indexes.filter isHnswIndex :=
    List.mem_filter.2 ⟨h.indexes hi, (Bool.and_eq_true_iff.1 hhnsw).2⟩
  exact hnames i hi _ (List.mem_map_of_mem hmem) rfl

/-- A drop that returns has left no HNSW index, unless the catalog could not be read. -/
theorem dropAllHnswIndexes_spec (metricReads : String → Bool) (db : Database) :
    Triple (fun w : World ρ => w.db = db) (dropAllHnswIndexes metricReads)
      (fun _ w => w.db = db ∨ ∀ dims, w.db.hasHnsw dims = false)
      (fun w => Dropped db w.db) := by
  have hsame : ∀ w : World ρ, w.db = db → Dropped db w.db := fun w hw => hw ▸ Dropped.refl w.db
  refine ((getExistingVectorIndexes_spec metricReads db).crash hsame).bind fun indexes => ?_
  refine Triple.pre (P := fun w : World ρ => w.db = db ∧ (indexes = [] ∨
    indexes = existingVectorIndexes metricReads db.indexes)) ?_ fun _ hw => hw
  refine Triple.and_pre fun hindexes => ?_
  rcases hindexes with rfl | rfl
  · exact Triple.pure _ fun _ hw => Or.inl hw
  · refine (dropIndexes_spec db _).conseq (fun _ hw => hw) ?_
    rintro _ w ⟨hdropped, hnames⟩
    exact Or.inr (hasHnsw_of_names hdropped hnames)

end Drop

/-! ## What building adds -/

/-- The same tables, and the same indexes with some canonical ones added, each on a table that has
rows and had no HNSW index. -/
structure Rebuilt (db db' : Database) : Prop where
  tables : db'.tables = db.tables
  kept : ∀ i ∈ db.indexes, i ∈ db'.indexes
  added : ∀ i ∈ db'.indexes, i ∉ db.indexes → i = Database.canonicalIndex i.dims ∧
    db.hasHnsw i.dims = false ∧ ∃ rows, db.rowCount i.dims = some rows ∧ 0 < rows

/-- The table has an HNSW index if it has rows. -/
def Covered (db : Database) (dims : ℕ) : Prop :=
  ∀ rows, db.rowCount dims = some rows → 0 < rows → db.hasHnsw dims = true

theorem hasHnsw_of_mem {db : Database} {i : CatalogIndex ℕ} (hi : i ∈ db.indexes)
    (hhnsw : isHnswIndex i = true) : db.hasHnsw i.dims = true :=
  List.any_eq_true.2 ⟨i, hi, by simp [hhnsw]⟩

theorem hasHnsw_mono {db db' : Database} (h : ∀ i ∈ db.indexes, i ∈ db'.indexes) {dims : ℕ}
    (hdims : db.hasHnsw dims = true) : db'.hasHnsw dims = true := by
  obtain ⟨i, hi, hhnsw⟩ := List.any_eq_true.1 hdims
  exact List.any_eq_true.2 ⟨i, h i hi, hhnsw⟩

theorem createIndex_eq {db db' : Database} {dims : ℕ} (h : db.createIndex dims = some db') :
    db' = { db with indexes := db.indexes ++ [Database.canonicalIndex dims] } := by
  rw [Database.createIndex] at h
  split at h
  · exact (Option.some.inj h).symm
  · exact absurd h nofun

theorem mem_dims_of_rowCount {db : Database} {dims rows : ℕ} (h : db.rowCount dims = some rows) :
    dims ∈ db.tables.map (·.dims) := by
  obtain ⟨table, htable, -⟩ := Option.map_eq_some_iff.1 h
  have hdims : table.dims = dims := by simpa using List.find?_some htable
  exact List.mem_map.2 ⟨table, List.mem_of_find?_eq_some htable, hdims⟩

theorem isHnswIndex_canonicalIndex (dims : ℕ) : isHnswIndex (Database.canonicalIndex dims) = true :=
  rfl

namespace Rebuilt

variable {db db' db'' : Database} {dims : ℕ}

theorem refl (db : Database) : Rebuilt db db :=
  ⟨rfl, fun _ hi => hi, fun _ hi hnot => absurd hi hnot⟩

theorem rowCount (h : Rebuilt db db') (dims : ℕ) : db'.rowCount dims = db.rowCount dims := by
  rw [Database.rowCount, Database.rowCount, h.tables]

theorem covered (h : Rebuilt db db') (hc : Covered db dims) : Covered db' dims :=
  fun rows hrows hpos => hasHnsw_mono h.kept (hc rows (h.rowCount dims ▸ hrows) hpos)

theorem trans (h : Rebuilt db db') (h' : Rebuilt db' db'') : Rebuilt db db'' := by
  refine ⟨h'.tables.trans h.tables, fun i hi => h'.kept i (h.kept i hi), fun i hi hnot => ?_⟩
  by_cases hmem : i ∈ db'.indexes
  · exact h.added i hmem hnot
  · obtain ⟨hcanonical, hnone, rows, hrows, hpos⟩ := h'.added i hi hmem
    refine ⟨hcanonical, ?_, rows, h.rowCount i.dims ▸ hrows, hpos⟩
    cases hhad : db.hasHnsw i.dims with
    | false => rfl
    | true => rw [hasHnsw_mono h.kept hhad] at hnone; exact absurd hnone (by simp)

/-- The one index `createIndex` adds, to a table it may be added to. -/
theorem createIndex {rows : ℕ} (hrows : db.rowCount dims = some rows) (hpos : 0 < rows)
    (hnone : db.hasHnsw dims = false) (hcreate : db.createIndex dims = some db') :
    Rebuilt db db' ∧ db'.hasHnsw dims = true := by
  obtain rfl := createIndex_eq hcreate
  refine ⟨⟨rfl, fun i hi => List.mem_append_left _ hi, fun i hi hnot => ?_⟩, ?_⟩
  · rcases List.mem_append.1 hi with hi | hi
    · exact absurd hi hnot
    · rw [List.mem_singleton.1 hi]
      exact ⟨rfl, hnone, rows, hrows, hpos⟩
  · exact hasHnsw_of_mem (List.mem_append_right _ (List.mem_singleton_self _))
      (isHnswIndex_canonicalIndex dims)

end Rebuilt

/-- One table : it has an index afterwards, if it has rows. -/
theorem ensureTable_spec (dims : ℕ) (db : Database) :
    Triple (fun w : World ρ => w.db = db) (ensureTable dims)
      (fun _ w => Rebuilt db w.db ∧ Covered w.db dims) (fun w => Rebuilt db w.db) := by
  have hkept : ∀ w : World ρ, w.db = db → Rebuilt db w.db := by
    rintro w rfl
    exact Rebuilt.refl w.db
  refine Triple.bind (Triple.query hkept) fun rows => ?_
  split
  · rename_i hzero
    refine Triple.pure _ ?_
    rintro w ⟨rfl, hrows⟩
    refine ⟨Rebuilt.refl w.db, fun rows' hrows' hpos => ?_⟩
    rw [hrows, hzero] at hrows'
    exact absurd hpos (by rw [← Option.some.inj hrows']; exact Nat.lt_irrefl 0)
  · rename_i hrows
    refine Triple.bind (Triple.query fun w hw => hkept w hw.1) fun present => ?_
    split
    · rename_i hpresent
      refine Triple.pure _ ?_
      rintro w ⟨⟨rfl, -⟩, hhas⟩
      refine ⟨Rebuilt.refl w.db, fun _ _ _ => ?_⟩
      rw [Option.some.inj hhas, hpresent]
    · rename_i hpresent
      refine Triple.bind (Q := fun _ w => Rebuilt db w.db ∧ Covered w.db dims) ?_
        fun _ => Triple.pure _ fun _ hw => hw
      refine Triple.act (fun w hw => hkept w hw.1.1) ?_
      rintro w w' ⟨⟨rfl, hcount⟩, hhas⟩ hcreate
      obtain ⟨db', hdb', rfl⟩ := Option.map_eq_some_iff.1 hcreate
      have hnone : w.db.hasHnsw dims = false := by
        rw [Option.some.inj hhas]
        exact Bool.eq_false_iff.2 hpresent
      obtain ⟨hrebuilt, hhnsw⟩ :=
        Rebuilt.createIndex hcount (Nat.pos_of_ne_zero hrows) hnone hdb'
      exact ⟨⟨hrebuilt, fun _ _ _ => hhnsw⟩, hrebuilt⟩

/-- The tables worked through stay covered while the rest is. -/
theorem ensureTables_spec : ∀ (tables : List ℕ) (db : Database),
    Triple (fun w : World ρ => w.db = db) (ensureTables tables)
      (fun _ w => Rebuilt db w.db ∧ ∀ dims ∈ tables, Covered w.db dims) (fun w => Rebuilt db w.db)
  | [], _ => by
    refine Triple.pure _ ?_
    rintro w rfl
    exact ⟨Rebuilt.refl w.db, fun _ h => absurd h List.not_mem_nil⟩
  | dims :: tables, db => by
    refine Triple.bind (ensureTable_spec dims db) fun created => ?_
    rintro w ⟨hrebuilt, hcovered⟩ os
    have hrest := (ensureTables_spec tables w.db).crash fun _ h => hrebuilt.trans h
    refine Prog.meets_bind (hrest w rfl os) fun others w' os' _ hw' => ?_
    refine ⟨hrebuilt.trans hw'.1, fun d hd => ?_⟩
    rcases List.mem_cons.1 hd with rfl | hd
    · exact hw'.1.covered hcovered
    · exact hw'.2 d hd

/-- The last step, however it ends, only adds canonical indexes. -/
theorem ensureAllHnswIndexes_spec (db : Database) :
    Triple (fun w : World ρ => w.db = db) ensureAllHnswIndexes
      (fun _ w => Rebuilt db w.db ∧ ∀ dims, Covered w.db dims) (fun w => Rebuilt db w.db) := by
  refine Triple.bind (Triple.query fun w hw => hw ▸ Rebuilt.refl w.db) fun tables => ?_
  rintro w ⟨rfl, hread⟩ os
  obtain rfl := Option.some.inj hread
  have hall : Triple (fun s : World ρ => s.db = w.db)
      (ensureTables (w.db.tables.map (·.dims)))
      (fun _ s => Rebuilt w.db s.db ∧ ∀ dims, Covered s.db dims) (fun s => Rebuilt w.db s.db) := by
    refine (ensureTables_spec _ w.db).conseq (fun _ hs => hs) ?_
    rintro _ s ⟨hrebuilt, hcovered⟩
    refine ⟨hrebuilt, fun dims rows hrows => hcovered dims ?_ rows hrows⟩
    exact hrebuilt.tables ▸ mem_dims_of_rowCount hrows
  refine Triple.bind hall (fun created => ?_) w rfl os
  split
  · refine Triple.act (fun s hs => hs.1) ?_
    rintro s _ hs ⟨⟩
    exact ⟨hs, hs.1⟩
  · exact Triple.pure _ fun _ hs => hs

/-! ## A search -/

/-- The database with an HNSW index on the table. -/
def searched (db : Database) (dims : ℕ) : Database :=
  if db.hasHnsw dims then db else
    { db with indexes := db.indexes ++ [Database.canonicalIndex dims] }

theorem hasHnsw_searched (db : Database) (dims : ℕ) : (searched db dims).hasHnsw dims = true := by
  rw [searched]
  split
  · assumption
  · exact hasHnsw_of_mem (List.mem_append_right _ (List.mem_singleton_self _))
      (isHnswIndex_canonicalIndex dims)

theorem lazyRebuild_spec (dims : ℕ) (db : Database) :
    Triple (fun w : World ρ => w.db = db) (lazyRebuild dims)
      (fun _ w => w.db = searched db dims) (fun w => w.db = db ∨ w.db = searched db dims) := by
  refine Triple.bind (Triple.query fun _ hw => Or.inl hw) fun present => ?_
  split
  · rename_i hpresent
    refine Triple.pure _ ?_
    rintro w ⟨rfl, hhas⟩
    rw [searched, Option.some.inj hhas, if_pos hpresent]
  · rename_i hpresent
    refine Triple.act (fun w hw => Or.inl hw.1) ?_
    rintro w w' ⟨rfl, hhas⟩ hcreate
    obtain ⟨db', hdb', rfl⟩ := Option.map_eq_some_iff.1 hcreate
    have heq : db' = searched w.db dims := by
      rw [createIndex_eq hdb', searched, Option.some.inj hhas, if_neg hpresent]
    exact ⟨heq, Or.inr heq⟩

/-- A search that is answered with rows has found or built an index, and any other has left the
indexes alone or built one. -/
theorem searchSemantic_spec (dims : ℕ) (db : Database) :
    Triple (fun w : World ρ => w.db = db) (searchSemantic dims)
      (fun answer w => (w.db = db ∨ w.db = searched db dims) ∧
        (answer = .rows → w.db = searched db dims))
      (fun w => w.db = db ∨ w.db = searched db dims) := by
  refine Triple.tryCatch (Triple.bind (Triple.query fun _ hw => Or.inl hw) fun known => ?_)
    fun e => Triple.pure _ fun _ hw => ⟨hw, nofun⟩
  split
  · refine Triple.seq ((lazyRebuild_spec dims db).pre fun _ hw => hw.1)
      (Triple.seq (M := fun w => w.db = searched db dims) ?_ ?_)
    · refine Triple.act (fun _ hw => Or.inr hw) ?_
      rintro w _ hw ⟨⟩
      exact ⟨hw, Or.inr hw⟩
    · exact Triple.pure _ fun _ hw => ⟨Or.inr hw, fun _ => hw⟩
  · exact Triple.pure _ fun _ hw => ⟨Or.inl hw.1, nofun⟩

/-! ## The ways out of a run -/

/-- The table has an HNSW index of this metric. -/
def HasIndex (db : Database) (dims : ℕ) (metric : String) : Prop :=
  ∃ i ∈ db.indexes, i.dims = dims ∧ i.hnsw = some metric

/-- Every table that had an HNSW index has one of the same metric. -/
def Restored (before after : Database) : Prop :=
  ∀ dims metric, HasIndex before dims metric → HasIndex after dims metric

/-- A run is its phases, and its last step from where they ended. -/
theorem processDirectory_state (noEmbeddings : Bool) (w : World ρ) (os : List Outcome) :
    ((bulkPhases c noEmbeddings w os).isDone = false ∧
      (processDirectory c noEmbeddings w os).isDone = false ∧
      (processDirectory c noEmbeddings w os).state = (bulkPhases c noEmbeddings w os).state) ∨
    ∃ stats used s os', bulkPhases c noEmbeddings w os = .done (stats, used) s os' ∧
      processDirectory c noEmbeddings w os =
        (ensureHnswIndexes used >>= fun _ => pure stats : IndexM ρ IndexingStats) s os' := by
  cases hphases : bulkPhases c noEmbeddings w os with
  | done phases s os' => exact Or.inr ⟨phases.1, phases.2, s, os', rfl, Prog.bind_done _ hphases⟩
  | error e s os' =>
    have hnot : (bulkPhases c noEmbeddings w os).isDone = false := by rw [hphases]; rfl
    refine Or.inl ⟨rfl, Prog.isDone_bind _ hnot, ?_⟩
    exact (Prog.state_bind _ hnot).trans (congrArg Result.state hphases)
  | killed s =>
    have hnot : (bulkPhases c noEmbeddings w os).isDone = false := by rw [hphases]; rfl
    refine Or.inl ⟨rfl, Prog.isDone_bind _ hnot, ?_⟩
    exact (Prog.state_bind _ hnot).trans (congrArg Result.state hphases)

theorem lastStep_spec (stats : IndexingStats) (used : Bool) (db : Database) :
    Triple (fun w : World ρ => w.db = db) (ensureHnswIndexes used >>= fun _ => pure stats)
      (fun _ w => Rebuilt db w.db ∧ (used = false → ∀ dims, Covered w.db dims))
      (fun w => Rebuilt db w.db) := by
  refine Triple.seq (M := fun w => Rebuilt db w.db ∧ (used = false → ∀ dims, Covered w.db dims)) ?_
    (Triple.pure _ fun _ hw => hw)
  rw [ensureHnswIndexes]
  split
  · rename_i hused
    refine Triple.pure _ ?_
    rintro w rfl
    exact ⟨Rebuilt.refl w.db, fun h => absurd h (by rw [hused]; exact nofun)⟩
  · exact (ensureAllHnswIndexes_spec db).conseq (fun _ hw => hw) fun _ _ hw => ⟨hw.1, fun _ => hw.2⟩

/-- The indexes are restored on the normal way out only, as canonical ones. A drop that returns
has left no HNSW index, unless the catalog could not be read. A run that raises or is cancelled
before its last step leaves the database as its phases left it. The last step, however it ends,
keeps every index and adds cosine ones, on tables with rows and without an HNSW index. Where it
returns, every table with rows has an HNSW index. After any end of the run, a semantic search that
is answered with rows leaves its table with an HNSW index : those the run left, or a new cosine
one. -/
theorem rebuilt_at_the_end (noEmbeddings : Bool) (w : World ρ) (os : List Outcome) :
    let phases := bulkPhases c noEmbeddings w os
    let run := processDirectory c noEmbeddings w os
    (∀ s rest, c.resolveRustPipelineDecision = false → dropHnswIndexes c w os = .done () s rest →
      s.db = w.db ∨ ∀ dims, s.db.hasHnsw dims = false) ∧
    (phases.isDone = false → run.isDone = false ∧ run.state = phases.state) ∧
    Rebuilt phases.state.db run.state.db ∧
    (∀ stats s os', phases = .done (stats, false) s os' → run.isDone = true →
      ∀ dims, Covered run.state.db dims) ∧
    ∀ dims osSearch after rest, searchSemantic dims run.state osSearch = .done .rows after rest →
      after.db = searched run.state.db dims ∧ after.db.hasHnsw dims = true := by
  intro phases run
  have hsearch : ∀ dims osSearch after rest,
      searchSemantic dims run.state osSearch = .done .rows after rest →
        after.db = searched run.state.db dims ∧ after.db.hasHnsw dims = true := by
    intro dims osSearch after rest hafter
    have hdb := ((searchSemantic_spec dims run.state.db).of_done rfl hafter).2 rfl
    exact ⟨hdb, hdb ▸ hasHnsw_searched run.state.db dims⟩
  refine ⟨fun s rest hrust hdrop => ?_, ?_⟩
  · rw [dropHnswIndexes, hrust, if_neg Bool.false_ne_true] at hdrop
    exact (dropAllHnswIndexes_spec c.metricReads w.db).of_done rfl hdrop
  · rcases processDirectory_state c noEmbeddings w os with
      ⟨hnot, hrun, hstate⟩ | ⟨stats, used, s, os', hphases, hrun⟩
    · refine ⟨fun _ => ⟨hrun, hstate⟩, ?_, fun stats s os' hdone => ?_, hsearch⟩
      · show Rebuilt phases.state.db run.state.db
        rw [show run.state = phases.state from hstate]
        exact Rebuilt.refl _
      · rw [show bulkPhases c noEmbeddings w os = .done (stats, false) s os' from hdone] at hnot
        exact absurd hnot (by simp [Result.isDone])
    · have hend : run.Meets (fun _ s' => Rebuilt s.db s'.db ∧
          (used = false → ∀ dims, Covered s'.db dims)) (fun s' => Rebuilt s.db s'.db) := by
        rw [show run = _ from hrun]
        exact lastStep_spec stats used s.db s rfl os'
      have hstate : phases.state = s := congrArg Result.state hphases
      refine ⟨fun hnot => ?_, ?_, fun stats' s' rest hdone hreturned => ?_, hsearch⟩
      · rw [show phases.isDone = true from congrArg Result.isDone hphases] at hnot
        exact absurd hnot (by simp)
      · rw [hstate]
        exact (hend.mono fun _ _ h => h.1).state
      · obtain ⟨hpair, -, -⟩ := Result.done.inj (hphases.symm.trans hdone)
        exact (hend.of_isDone hreturned).2 (Prod.mk.inj hpair).2

/-- One table with rows, and its index. -/
def oneTable (metric : String) : Database where
  tables := [⟨3, 2⟩]
  indexes := [⟨embeddingHnswIndexName 3, 3, some metric⟩]

/-- A coordinator that does not get through the discovery of the files. -/
def failing : Coordinator Unit where
  metricReads := fun _ => true
  resolveRustPipelineDecision := false
  processDirectory := Prog.throw .phase
  compactDatabaseWithMetrics := pure "skipped"
  generateMissingEmbeddings := pure 0
  clearCompactionSkip := pure ()
  progressCallback := fun _ => pure ()

/-- Discovery raises after the drop : the table is left without an index. -/
theorem failed_run_leaves_no_index :
    let run := processDirectory failing false ⟨oneTable "cosine", ()⟩ [.ok, .ok]
    run.isDone = false ∧ ¬Restored (oneTable "cosine") run.state.db := by
  have hstate : ∃ e, processDirectory failing false ⟨oneTable "cosine", ()⟩ [.ok, .ok] =
      .error e ⟨{ oneTable "cosine" with indexes := [] }, ()⟩ [] := ⟨_, rfl⟩
  obtain ⟨e, hrun⟩ := hstate
  intro run
  have heq : run = .error e ⟨{ oneTable "cosine" with indexes := [] }, ()⟩ [] := hrun
  rw [heq]
  refine ⟨rfl, fun hrestored => ?_⟩
  obtain ⟨i, hi, -⟩ := hrestored 3 "cosine" ⟨_, List.mem_singleton_self _, rfl, rfl⟩
  exact absurd hi List.not_mem_nil

end ChunkHound.IndexRestoration
