import ChunkHound.CompactionSwap
import ChunkHound.HnswCatalog

/-!
# The bulk-mode bracket around the HNSW indexes

A bulk run of the native backend drops every HNSW index, writes, and has the indexes built again
when it closes (`hnsw.rs`). The metrics of the dropped indexes are captured in memory, by the
table's dims. A process that dies in between leaves tables without an index, and the next
`open` builds those with the cosine metric, since no captured metric is left
(`bracket_restores`).

A table is named by its dims, which are a `u32`. Rows are no part of the state, and neither is the
swap recovery that `open` starts with.
-/

namespace ChunkHound.HnswBracket

open CrashHoare HnswCatalog

/-- The name under which `ensure_all_hnsw_indexes` creates the index of a table. -/
def hnswName (dims : UInt32) : String := s!"idx_hnsw_{dims}"

theorem hnswName_inj {dims dims' : UInt32} (h : hnswName dims = hnswName dims') :
    dims = dims' := by
  have hrepr : dims.toNat.repr = dims'.toNat.repr := by
    have hname : "idx_hnsw_" ++ dims.toNat.repr = "idx_hnsw_" ++ dims'.toNat.repr := h
    rwa [String.append_right_inj] at hname
  have hdigits : Nat.toDigits 10 dims.toNat = Nat.toDigits 10 dims'.toNat := by
    rw [← Nat.toList_repr, hrepr, Nat.toList_repr]
  have hnat : dims.toNat = dims'.toNat :=
    calc dims.toNat = Nat.ofDigitChars 10 (Nat.toDigits 10 dims.toNat) 0 :=
          Nat.ofDigitChars_ten_toDigits.symm
      _ = Nat.ofDigitChars 10 (Nat.toDigits 10 dims'.toNat) 0 := by rw [hdigits]
      _ = dims'.toNat := Nat.ofDigitChars_ten_toDigits
  exact UInt32.toNat_inj.1 hnat

/-- The embedding tables, in the order the catalog lists them, and their indexes. No two indexes
have one name, and the name `idx_hnsw_N` is used for the HNSW index of `embeddings_N` alone. -/
structure Database where
  tables : List UInt32
  indexes : List (CatalogIndex UInt32)
  unique : ∀ i ∈ indexes, ∀ j ∈ indexes, i.indexName = j.indexName → i = j
  canonical : ∀ i ∈ indexes, ∀ dims, i.indexName = hnswName dims →
    i.dims = dims ∧ i.hnsw.isSome = true

namespace Database

/-- `DROP INDEX IF EXISTS`. -/
def dropIndex (db : Database) (indexName : String) : Database where
  tables := db.tables
  indexes := db.indexes.filter (·.indexName ≠ indexName)
  unique := fun i hi j hj => db.unique i (List.mem_of_mem_filter hi) j (List.mem_of_mem_filter hj)
  canonical := fun i hi => db.canonical i (List.mem_of_mem_filter hi)

/-- `CREATE INDEX` of a name that no index has. -/
def addIndex (db : Database) (dims : UInt32) (metric : String)
    (h : ∀ i ∈ db.indexes, i.indexName ≠ hnswName dims) : Database where
  tables := db.tables
  indexes := db.indexes ++ [⟨hnswName dims, dims, some metric⟩]
  unique := by
    intro i hi j hj hij
    rw [List.mem_append, List.mem_singleton] at hi hj
    rcases hi with hi | rfl <;> rcases hj with hj | rfl
    · exact db.unique i hi j hj hij
    · exact absurd hij (h i hi)
    · exact absurd hij.symm (h j hj)
    · rfl
  canonical := by
    intro i hi dims' hname
    rw [List.mem_append, List.mem_singleton] at hi
    rcases hi with hi | rfl
    · exact db.canonical i hi dims' hname
    · exact ⟨hnswName_inj hname, rfl⟩

/-- `CREATE INDEX IF NOT EXISTS "idx_hnsw_{dims}" ON "embeddings_{dims}"`. -/
def createIndex (db : Database) (dims : UInt32) (metric : String) : Database :=
  if h : ∀ i ∈ db.indexes, i.indexName ≠ hnswName dims then db.addIndex dims metric h else db

/-- `CREATE TABLE IF NOT EXISTS "embeddings_{dims}"`. The plain indexes it comes with are not
listed. -/
def createTable (db : Database) (dims : UInt32) : Database :=
  { db with tables := if dims ∈ db.tables then db.tables else db.tables ++ [dims] }

end Database

/-- `DuckDbHnswBackend`, in memory. -/
structure Backend where
  connected : Bool
  hasVss : Bool
  hnswBulkMode : Bool
  /-- A later entry for the same dims is in front. -/
  savedHnswMetrics : List (UInt32 × String)

/-- `DuckDbHnswBackend::new`. -/
def Backend.new : Backend where
  connected := false
  hasVss := false
  hnswBulkMode := false
  savedHnswMetrics := []

/-- The database, and the backend of the process. -/
structure World where
  db : Database
  backend : Backend

/-- A program of the backend. -/
abbrev HnswM := Prog World SwapError

/-- A statement that changes no table and no index. -/
def statement : HnswM Unit := Prog.act .duckDb some

/-- `conn_or_err` -/
def connOrErr : HnswM Unit := do
  let w ← Prog.get
  if w.backend.connected then pure () else Prog.throw (.other "not open")

/-! ## Dropping the indexes -/

/-- `discover_hnsw_indexes` -/
def discoverHnswIndexes (metricReads : String → Bool) : HnswM (List (VectorIndexInfo UInt32)) :=
  Prog.query .duckDb fun w => some (existingVectorIndexes metricReads w.db.indexes)

/-- `collect` into the map of metrics by dims, where a later index overwrites an earlier one. -/
def collectMetrics (indexes : List (VectorIndexInfo UInt32)) : List (UInt32 × String) :=
  (indexes.map fun idx => (idx.dims, idx.metric)).reverse

/-- Bulk mode is entered before any DROP. -/
def enterBulkMode (indexes : List (VectorIndexInfo UInt32)) (w : World) : World :=
  { w with backend := { w.backend with
      savedHnswMetrics := collectMetrics indexes, hnswBulkMode := true } }

/-- `DROP INDEX` -/
def dropIndex (idx : VectorIndexInfo UInt32) : HnswM PUnit :=
  Prog.act .duckDb fun w => some { w with db := w.db.dropIndex idx.indexName }

/-- `drop_all_hnsw_indexes` -/
def dropAllHnswIndexes (metricReads : String → Bool) : HnswM Unit := do
  connOrErr
  let indexes ← discoverHnswIndexes metricReads
  Prog.modify (enterBulkMode indexes)
  connOrErr
  indexes.forM dropIndex

/-! ## Building them again -/

/-- `discover_embedding_tables` -/
def discoverEmbeddingTables : HnswM (List UInt32) :=
  Prog.query .duckDb fun w => some w.db.tables

/-- The captured metric, or cosine with a warning. -/
def Backend.metricOf (backend : Backend) (dims : UInt32) : String :=
  (backend.savedHnswMetrics.lookup dims).getD "cosine"

/-- `CREATE INDEX ... USING HNSW` -/
def createIndex (dims : UInt32) (metric : String) : HnswM PUnit :=
  Prog.act .duckDb fun w =>
    if dims ∈ w.db.tables then some { w with db := w.db.createIndex dims metric } else none

/-- The loop of `ensure_all_hnsw_indexes`, and its checkpoint. -/
def buildIndexes (dimsMetrics : List (UInt32 × String)) : HnswM Unit := do
  dimsMetrics.forM fun dm => createIndex dm.1 dm.2
  if dimsMetrics ≠ [] then statement else pure ()

/-- `ensure_all_hnsw_indexes` -/
def ensureAllHnswIndexes : HnswM Unit := do
  Prog.modify fun w => { w with backend := { w.backend with hnswBulkMode := false } }
  let w ← Prog.get
  if w.backend.hasVss then
    connOrErr
    let existing ← discoverEmbeddingTables
    connOrErr
    Prog.attempt statement
    Prog.tryCatch (buildIndexes (existing.map fun dims => (dims, w.backend.metricOf dims)))
      fun e => do
        Prog.attempt statement
        Prog.throw e
    Prog.attempt statement
  else
    pure ()

/-! ## Writes -/

/-- `INSTALL` may fail, `LOAD` and `SET` may not. -/
def tryLoadVss : HnswM Bool := do
  Prog.attempt statement
  let load : HnswM Bool := do
    statement
    statement
    return true
  Prog.tryCatch load fun _ => pure false

/-- The extension is there, or not. -/
def setVss (ok : Bool) : HnswM Unit :=
  Prog.modify fun w => { w with backend := { w.backend with hasVss := ok } }

/-- `ensure_vss` -/
def ensureVss : HnswM Unit := do
  let w ← Prog.get
  if w.backend.hasVss then
    pure ()
  else
    connOrErr
    let ok ← tryLoadVss
    setVss ok

/-- A table of these dimensions is there. -/
def ensureEmbeddingTableDims (dims : UInt32) : HnswM PUnit :=
  Prog.act .duckDb fun w => some { w with db := w.db.createTable dims }

/-- `prepare_write` and the transaction after it, of a batch whose embeddings have these dims. -/
def writeBatch (uniqueDims : List UInt32) : HnswM Unit := do
  connOrErr
  statement
  uniqueDims.forM ensureEmbeddingTableDims
  if uniqueDims ≠ [] then ensureVss else pure ()
  statement

/-! ## Opening and closing -/

/-- The end of `open`, once the swap recovery has returned. -/
def openDb : HnswM Unit := do
  let w ← Prog.get
  if w.backend.connected then
    pure ()
  else
    statement
    Prog.attempt statement
    let ok ← tryLoadVss
    setVss ok
    statement
    let _ ← discoverEmbeddingTables
    Prog.modify fun w => { w with backend := { w.backend with connected := true } }
    ensureAllHnswIndexes

/-- A step of `close`, and the first error met so far. -/
def collectError (result : Option SwapError) (p : HnswM Unit) : HnswM (Option SwapError) :=
  let run : HnswM (Option SwapError) := do
    p
    return result
  Prog.tryCatch run fun e => pure (result.or (some e))

/-- The indexes are built again at the end of a bulk load. -/
def finishBulkMode : HnswM (Option SwapError) := do
  let w ← Prog.get
  if w.backend.hnswBulkMode then collectError none ensureAllHnswIndexes else pure none

/-- The checkpoint of `close`. -/
def closeCheckpoint (result : Option SwapError) : HnswM (Option SwapError) := do
  let w ← Prog.get
  if w.backend.connected then collectError result statement else pure result

/-- `close` -/
def close : HnswM Unit := do
  let result ← finishBulkMode
  let result ← closeCheckpoint result
  Prog.modify fun w => { w with backend := { w.backend with connected := false } }
  match result with
  | some e => Prog.throw e
  | none => pure ()

/-! ## The bracket -/

/-- The indexes are dropped, or some of them, and then any writes follow, which fail or not. -/
def bracket (metricReads : String → Bool) (writes : List (List UInt32)) : HnswM Unit := do
  Prog.attempt (dropAllHnswIndexes metricReads)
  writes.forM fun uniqueDims => Prog.attempt (writeBatch uniqueDims)

/-- The bracket, closed. -/
def session (metricReads : String → Bool) (writes : List (List UInt32)) : HnswM Unit := do
  bracket metricReads writes
  close

/-- The process ends. -/
def crash (w : World) : World := { w with backend := Backend.new }

/-- Some processes open the database, and end. -/
def reopenings : World → List (List Outcome) → World
  | w, [] => w
  | w, os :: opens => reopenings (crash (openDb w os).state) opens

/-! ## The catalog -/

/-- The table has an HNSW index of this metric. -/
def HasIndex (db : Database) (dims : UInt32) (metric : String) : Prop :=
  ∃ i ∈ db.indexes, i.dims = dims ∧ i.hnsw = some metric

/-- Every HNSW index of the table is of this metric. -/
def OnlyMetric (db : Database) (dims : UInt32) (metric : String) : Prop :=
  ∀ i ∈ db.indexes, i.dims = dims → ∀ other, i.hnsw = some other → other = metric

/-- The table has its index under the name `ensure_all_hnsw_indexes` gives it. -/
def HasCanonical (db : Database) (dims : UInt32) : Prop :=
  ∃ i ∈ db.indexes, i.indexName = hnswName dims

/-- A table, and the metric of its HNSW indexes, which the pragma tells. -/
structure Original (metricReads : String → Bool) (db : Database) (dims : UInt32)
    (metric : String) : Prop where
  table : dims ∈ db.tables
  index : HasIndex db dims metric
  only : ∀ i ∈ db.indexes, i.dims = dims → isHnswIndex i = true →
    i.hnsw = some metric ∧ metricReads i.indexName = true

section Catalog

variable {metricReads : String → Bool} {db : Database} {dims : UInt32} {metric : String}

theorem HasCanonical.hasIndex (h : HasCanonical db dims) : ∃ metric, HasIndex db dims metric := by
  obtain ⟨i, hi, hname⟩ := h
  obtain ⟨hdims, hhnsw⟩ := db.canonical i hi dims hname
  obtain ⟨metric, hmetric⟩ := Option.isSome_iff_exists.1 hhnsw
  exact ⟨metric, i, hi, hdims, hmetric⟩

theorem Original.onlyMetric (h : Original metricReads db dims metric) :
    OnlyMetric db dims metric := by
  intro i hi hdims other hother
  have hhnsw : isHnswIndex i = true := by simp [isHnswIndex, hother]
  have hmetric := (h.only i hi hdims hhnsw).1
  rw [hother] at hmetric
  exact Option.some.inj hmetric

/-- The captured metric of a table is that of its indexes. -/
theorem Original.captured (h : Original metricReads db dims metric) :
    (collectMetrics (existingVectorIndexes metricReads db.indexes)).lookup dims = some metric := by
  have hmem : ∀ v, (dims, v) ∈ collectMetrics (existingVectorIndexes metricReads db.indexes) →
      v = metric := by
    intro v hv
    simp only [collectMetrics, existingVectorIndexes, List.mem_reverse, List.mem_map,
      List.mem_filter] at hv
    obtain ⟨_, ⟨i, ⟨hi, hhnsw⟩, rfl⟩, heq⟩ := hv
    obtain ⟨hdims, rfl⟩ := Prod.mk.inj heq
    obtain ⟨hmetric, hreads⟩ := h.only i hi hdims hhnsw
    exact extractHnswMetric_of_mem (fun j hj hname => db.unique j hj i hi hname) hi hreads hmetric
  obtain ⟨i, hi, hdims, hmetric⟩ := h.index
  have hkey : ∃ v, (dims, v) ∈ collectMetrics (existingVectorIndexes metricReads db.indexes) := by
    refine ⟨extractHnswMetric metricReads db.indexes i.indexName, ?_⟩
    simp only [collectMetrics, existingVectorIndexes, List.mem_reverse, List.mem_map,
      List.mem_filter]
    exact ⟨_, ⟨i, ⟨hi, by simp [isHnswIndex, hmetric]⟩, rfl⟩, by rw [hdims]⟩
  cases hl : (collectMetrics (existingVectorIndexes metricReads db.indexes)).lookup dims with
  | none =>
    obtain ⟨v, hv⟩ := hkey
    exact absurd (List.lookup_eq_none_iff.1 hl (dims, v) hv) (by simp)
  | some v =>
    obtain ⟨l₁, l₂, heq, -⟩ := List.lookup_eq_some_iff.1 hl
    rw [hmem v (by simp [heq])]

theorem OnlyMetric.dropIndex (h : OnlyMetric db dims metric) (indexName : String) :
    OnlyMetric (db.dropIndex indexName) dims metric :=
  fun i hi => h i (List.mem_of_mem_filter hi)

theorem mem_createTable {d : UInt32} (h : d ∈ db.tables) (dims : UInt32) :
    d ∈ (db.createTable dims).tables := by
  rw [Database.createTable]
  split
  · exact h
  · exact List.mem_append_left _ h

end Catalog

/-! ## What building adds -/

/-- The same tables, and the same indexes with some under canonical names added to them. -/
structure Extends (metricOf : UInt32 → String) (db db' : Database) : Prop where
  tables : db'.tables = db.tables
  kept : ∀ i ∈ db.indexes, i ∈ db'.indexes
  added : ∀ i ∈ db'.indexes, i ∈ db.indexes ∨ i.hnsw = some (metricOf i.dims)

namespace Extends

variable {metricOf : UInt32 → String} {db db' db'' : Database} {dims : UInt32} {metric : String}

theorem refl (metricOf : UInt32 → String) (db : Database) : Extends metricOf db db :=
  ⟨rfl, fun _ hi => hi, fun _ hi => Or.inl hi⟩

theorem trans (h : Extends metricOf db db') (h' : Extends metricOf db' db'') :
    Extends metricOf db db'' := by
  refine ⟨h'.tables.trans h.tables, fun i hi => h'.kept i (h.kept i hi), fun i hi => ?_⟩
  rcases h'.added i hi with hi | hi
  · exact h.added i hi
  · exact Or.inr hi

theorem createIndex (metricOf : UInt32 → String) (db : Database) (dims : UInt32) :
    Extends metricOf db (db.createIndex dims (metricOf dims)) := by
  rw [Database.createIndex]
  split
  · refine ⟨rfl, fun i hi => List.mem_append_left _ hi, fun i hi => ?_⟩
    rcases List.mem_append.1 hi with hi | hi
    · exact Or.inl hi
    · rw [List.mem_singleton.1 hi]
      exact Or.inr rfl
  · exact refl metricOf db

theorem hasIndex (h : Extends metricOf db db') (hi : HasIndex db dims metric) :
    HasIndex db' dims metric := by
  obtain ⟨i, hi, hmetric⟩ := hi
  exact ⟨i, h.kept i hi, hmetric⟩

theorem hasCanonical (h : Extends metricOf db db') (hi : HasCanonical db dims) :
    HasCanonical db' dims := by
  obtain ⟨i, hi, hname⟩ := hi
  exact ⟨i, h.kept i hi, hname⟩

theorem onlyMetric (h : Extends metricOf db db') (ho : OnlyMetric db dims metric)
    (hm : metricOf dims = metric) : OnlyMetric db' dims metric := by
  intro i hi hdims other hother
  rcases h.added i hi with hi | hi
  · exact ho i hi hdims other hother
  · rw [hi, hdims, hm] at hother
    exact (Option.some.inj hother).symm

end Extends

theorem hasCanonical_createIndex (db : Database) (dims : UInt32) (metric : String) :
    HasCanonical (db.createIndex dims metric) dims := by
  rw [Database.createIndex]
  split
  · exact ⟨_, List.mem_append_right _ (List.mem_singleton_self _), rfl⟩
  · rename_i h
    push Not at h
    exact h

/-! ## The programs -/

variable {P : World → Prop}

theorem statement_spec : Triple P statement (fun _ => P) P :=
  Triple.act (fun _ h => h) fun _ _ h hs => Option.some.inj hs ▸ ⟨h, h⟩

theorem attempt_statement : Triple P (Prog.attempt statement) (fun _ => P) P :=
  Triple.attempt statement_spec fun _ h => h

theorem connOrErr_spec : Triple P connOrErr (fun _ => P) P := by
  refine Triple.get_bind fun w hw => ?_
  split
  · exact Triple.pure _ fun _ hs => hs ▸ hw
  · exact Triple.throw _ fun _ hs => hs ▸ hw

theorem tryLoadVss_spec : Triple P tryLoadVss (fun _ => P) P := by
  refine Triple.seq attempt_statement (Triple.tryCatch ?_ fun _ => Triple.pure _ fun _ h => h)
  exact Triple.seq statement_spec (Triple.seq statement_spec (Triple.pure _ fun _ h => h))

/-- The loop gives every table of the list an index under its canonical name. -/
theorem buildIndexes_spec (db : Database) (b : Backend) (metricOf : UInt32 → String)
    (existing : List UInt32) :
    Triple (fun w => Extends metricOf db w.db ∧ w.backend = b)
      (buildIndexes (existing.map fun dims => (dims, metricOf dims)))
      (fun _ w => (Extends metricOf db w.db ∧ w.backend = b) ∧
        ∀ dims ∈ existing, HasCanonical w.db dims)
      (fun w => Extends metricOf db w.db ∧ w.backend = b) := by
  let built : List (UInt32 × String) → List (UInt32 × String) → World → Prop := fun done rest w =>
    (Extends metricOf db w.db ∧ w.backend = b) ∧ (∀ dm ∈ done, HasCanonical w.db dm.1) ∧
      ∀ dm ∈ rest, dm.2 = metricOf dm.1
  have hcreate : ∀ done dm rest, Triple (built done (dm :: rest)) (createIndex dm.1 dm.2)
      (fun _ => built (done ++ [dm]) rest) (fun w => Extends metricOf db w.db ∧ w.backend = b) := by
    intro done dm rest
    refine Triple.act (fun _ hw => hw.1) fun w w' ⟨⟨hext, hb⟩, hdone, hrest⟩ hw' => ?_
    split at hw'
    · obtain rfl := Option.some.inj hw'
      have hstep : Extends metricOf w.db (w.db.createIndex dm.1 dm.2) := by
        rw [hrest dm List.mem_cons_self]
        exact Extends.createIndex metricOf w.db dm.1
      refine ⟨⟨⟨hext.trans hstep, hb⟩, fun dm' hdm' => ?_, fun dm' hdm' =>
        hrest dm' (List.mem_cons_of_mem _ hdm')⟩, hext.trans hstep, hb⟩
      rcases List.mem_append.1 hdm' with hdm' | hdm'
      · exact hstep.hasCanonical (hdone dm' hdm')
      · rw [List.mem_singleton.1 hdm']
        exact hasCanonical_createIndex w.db dm.1 dm.2
    · cases hw'
  have hloop := Triple.forM hcreate (existing.map fun dims => (dims, metricOf dims)) []
  refine Triple.seq (hloop.pre fun w hw => ⟨hw, by simp, by simp⟩) ?_
  have hpost : ∀ w, built ([] ++ existing.map fun dims => (dims, metricOf dims)) [] w →
      (Extends metricOf db w.db ∧ w.backend = b) ∧ ∀ dims ∈ existing, HasCanonical w.db dims :=
    fun w hw => ⟨hw.1, fun dims hd => hw.2.1 (dims, metricOf dims) (by simpa using hd)⟩
  split
  · exact (statement_spec.crash fun _ hw => hw.1).conseq hpost fun _ _ hw => hw
  · exact Triple.pure _ hpost

/-- With VSS, a table that is there has an index when `ensure_all_hnsw_indexes` returns. -/
theorem ensureAllHnswIndexes_spec (db : Database) (b : Backend) :
    Triple (fun w => Extends b.metricOf db w.db ∧ w.backend = b) ensureAllHnswIndexes
      (fun _ w => (Extends b.metricOf db w.db ∧ w.backend = { b with hnswBulkMode := false }) ∧
        (b.hasVss = true → ∀ dims ∈ w.db.tables, HasCanonical w.db dims))
      (fun w => Extends b.metricOf db w.db) := by
  refine Triple.seq (M := fun w => Extends b.metricOf db w.db ∧
    w.backend = { b with hnswBulkMode := false }) (Triple.modify ?_) ?_
  · rintro w ⟨hext, rfl⟩
    exact ⟨hext, rfl⟩
  refine Triple.get_bind fun w hw => ?_
  split
  · let during : World → Prop := fun s =>
      Extends b.metricOf db s.db ∧ s.backend = { b with hnswBulkMode := false }
    refine Triple.crash (C := during) ?_ fun _ h => h.1
    refine Triple.pre (P := during) ?_ fun s hs => hs ▸ hw
    refine Triple.seq connOrErr_spec (Triple.bind (Triple.query fun _ h => h) fun existing => ?_)
    refine Triple.pre (P := fun s => during s ∧ db.tables = existing) ?_ fun s hs =>
      ⟨hs.1, hs.1.1.tables.symm.trans (Option.some.inj hs.2)⟩
    refine Triple.and_pre fun hex => ?_
    have hmetric : w.backend.metricOf = b.metricOf := by
      rw [hw.2]
      rfl
    rw [hmetric]
    have hbuild := buildIndexes_spec db { b with hnswBulkMode := false } b.metricOf existing
    refine Triple.seq connOrErr_spec (Triple.seq attempt_statement ?_)
    refine Triple.seq (Triple.tryCatch hbuild fun e =>
      Triple.seq attempt_statement (Triple.throw _ fun _ h => h)) ?_
    refine (attempt_statement.crash fun _ h => h.1).conseq (fun _ h => h) fun _ s hs => ?_
    refine ⟨hs.1, fun _ dims hd => hs.2 dims ?_⟩
    rwa [← hex, ← hs.1.1.tables]
  · rename_i hvss
    refine Triple.pure _ ?_
    rintro _ rfl
    refine ⟨hw, fun hb => absurd ?_ hvss⟩
    rw [hw.2]
    exact hb

/-- What a process that only opened the database has done to it. -/
theorem openDb_spec (db : Database) :
    Triple (fun w => Extends (fun _ => "cosine") db w.db ∧ w.backend = Backend.new) openDb
      (fun _ w => Extends (fun _ => "cosine") db w.db ∧
        (w.backend.hasVss = true → ∀ dims ∈ w.db.tables, HasCanonical w.db dims))
      (fun w => Extends (fun _ => "cosine") db w.db) := by
  refine Triple.get_bind fun w hw => ?_
  rw [if_neg (by simp [hw.2, Backend.new])]
  let opening : Backend → World → Prop := fun b s =>
    Extends (fun _ => "cosine") db s.db ∧ s.backend = b
  refine Triple.pre (P := opening Backend.new) ?_ fun s hs => hs ▸ hw
  have hcrash : ∀ {b : Backend} {s : World}, opening b s → Extends (fun _ => "cosine") db s.db :=
    fun h => h.1
  refine Triple.seq (statement_spec.crash fun _ => hcrash) ?_
  refine Triple.seq (attempt_statement.crash fun _ => hcrash) ?_
  refine Triple.bind (tryLoadVss_spec.crash fun _ => hcrash) fun ok => ?_
  let loaded : Backend := { Backend.new with hasVss := ok }
  let opened : Backend := { loaded with connected := true }
  refine Triple.seq (M := opening loaded) (Triple.modify fun s hs => ⟨hs.1, ?_⟩) ?_
  · show ({ s.backend with hasVss := ok } : Backend) = loaded
    rw [hs.2]
  refine Triple.seq (statement_spec.crash fun _ => hcrash) ?_
  refine Triple.bind (Q := fun _ => opening loaded) ?_ fun _ => ?_
  · exact (Triple.query fun _ => hcrash).conseq (fun _ h => h) fun _ _ h => h.1
  refine Triple.seq (M := opening opened) (Triple.modify fun s hs => ⟨hs.1, ?_⟩) ?_
  · show ({ s.backend with connected := true } : Backend) = opened
    rw [hs.2]
  refine (ensureAllHnswIndexes_spec db opened).conseq (fun _ h => h) fun _ s hs => ?_
  refine ⟨hs.1.1, fun hvss => hs.2 ?_⟩
  rwa [hs.1.2] at hvss

theorem reopenings_extends (db : Database) :
    ∀ (opens : List (List Outcome)) {w : World},
      Extends (fun _ => "cosine") db w.db ∧ w.backend = Backend.new →
        Extends (fun _ => "cosine") db (reopenings w opens).db ∧
          (reopenings w opens).backend = Backend.new
  | [], _, h => h
  | os :: opens, w, h => by
    have hopen : Triple (fun w => Extends (fun _ => "cosine") db w.db ∧ w.backend = Backend.new)
        openDb (fun _ w => Extends (fun _ => "cosine") db w.db)
        (fun w => Extends (fun _ => "cosine") db w.db) :=
      (openDb_spec db).conseq (fun _ h => h) fun _ _ h => h.1
    exact reopenings_extends db opens ⟨(hopen w h os).state, rfl⟩

section Bracket

variable {metricReads : String → Bool} {db : Database} {dims : UInt32} {metric : String}

/-- The table has its index, or its metric is captured in bulk mode. -/
def Ready (dims : UInt32) (metric : String) (w : World) : Prop :=
  dims ∈ w.db.tables ∧ (HasIndex w.db dims metric ∨
    OnlyMetric w.db dims metric ∧ w.backend.hnswBulkMode = true ∧
      w.backend.savedHnswMetrics.lookup dims = some metric)

/-- The table has its index, or has no index of another metric. -/
def Sound (dims : UInt32) (metric : String) (w : World) : Prop :=
  dims ∈ w.db.tables ∧ (HasIndex w.db dims metric ∨ OnlyMetric w.db dims metric)

theorem Ready.sound {w : World} (h : Ready dims metric w) : Sound dims metric w :=
  ⟨h.1, h.2.imp_right fun h => h.1⟩

theorem dropAllHnswIndexes_spec (h : Original metricReads db dims metric) :
    Triple (fun w => w.db = db) (dropAllHnswIndexes metricReads) (fun _ => Ready dims metric)
      (Ready dims metric) := by
  have hready : ∀ w : World, w.db = db → Ready dims metric w := by
    rintro w rfl
    exact ⟨h.table, Or.inl h.index⟩
  refine Triple.seq (connOrErr_spec.crash hready) (Triple.bind (Triple.query hready) fun idxs => ?_)
  let bulk : World → Prop := fun w => dims ∈ w.db.tables ∧ OnlyMetric w.db dims metric ∧
    w.backend.hnswBulkMode = true ∧ w.backend.savedHnswMetrics.lookup dims = some metric
  refine Triple.crash (C := bulk) ?_ fun _ hw => ⟨hw.1, Or.inr hw.2⟩
  refine Triple.conseq (P := fun w => w.db = db ∧
    some (existingVectorIndexes metricReads w.db.indexes) = some idxs) (Q := fun _ => bulk) ?_
      (fun _ hw => hw) fun _ _ hw => ⟨hw.1, Or.inr hw.2⟩
  refine Triple.seq (M := bulk) (Triple.modify ?_) (Triple.seq connOrErr_spec ?_)
  · rintro w ⟨rfl, hidxs⟩
    obtain rfl := Option.some.inj hidxs
    exact ⟨h.table, h.onlyMetric, rfl, h.captured⟩
  · have hdrop : ∀ idx, Triple bulk (dropIndex idx) (fun _ => bulk) bulk := by
      intro idx
      refine Triple.act (fun _ hw => hw) fun w w' hw hw' => ?_
      obtain rfl := Option.some.inj hw'
      have hbulk : bulk { w with db := w.db.dropIndex idx.indexName } :=
        ⟨hw.1, hw.2.1.dropIndex idx.indexName, hw.2.2⟩
      exact ⟨hbulk, hbulk⟩
    exact Triple.forM (I := fun _ _ => bulk) (fun _ idx _ => hdrop idx) idxs []

theorem ensureVss_ready :
    Triple (Ready dims metric) ensureVss (fun _ => Ready dims metric) (Ready dims metric) := by
  refine Triple.get_bind fun w hw => ?_
  refine Triple.pre (P := Ready dims metric) ?_ fun s hs => hs ▸ hw
  split
  · exact Triple.pure _ fun _ h => h
  · exact Triple.seq connOrErr_spec
      (Triple.bind tryLoadVss_spec fun _ => Triple.modify fun _ h => h)

theorem writeBatch_ready (uniqueDims : List UInt32) :
    Triple (Ready dims metric) (writeBatch uniqueDims) (fun _ => Ready dims metric)
      (Ready dims metric) := by
  have htable : ∀ d, Triple (Ready dims metric) (ensureEmbeddingTableDims d)
      (fun _ => Ready dims metric) (Ready dims metric) := by
    intro d
    refine Triple.act (fun _ hw => hw) fun w w' hw hw' => ?_
    obtain rfl := Option.some.inj hw'
    exact ⟨⟨mem_createTable hw.1 d, hw.2⟩, mem_createTable hw.1 d, hw.2⟩
  refine Triple.seq connOrErr_spec (Triple.seq statement_spec (Triple.seq
    (Triple.forM (I := fun _ _ => Ready dims metric) (fun _ d _ => htable d) uniqueDims []) ?_))
  split
  · exact Triple.seq ensureVss_ready statement_spec
  · exact statement_spec

theorem bracket_ready (h : Original metricReads db dims metric) (writes : List (List UInt32)) :
    Triple (fun w => w.db = db) (bracket metricReads writes) (fun _ => Ready dims metric)
      (Ready dims metric) :=
  Triple.seq (Triple.attempt (dropAllHnswIndexes_spec h) fun _ hw => hw)
    (Triple.forM (I := fun _ _ => Ready dims metric)
      (fun _ uniqueDims _ => Triple.attempt (writeBatch_ready uniqueDims) fun _ hw => hw) writes [])

theorem collectError_spec {P M C : World → Prop} {p : HnswM Unit} (result : Option SwapError)
    (h : Triple P p (fun _ => M) C) :
    Triple P (collectError result p) (fun r w => r = result ∧ M w ∨ r ≠ none ∧ C w) C := by
  refine Triple.tryCatch (Triple.seq h (Triple.pure _ fun _ hw => Or.inl ⟨rfl, hw⟩)) fun e => ?_
  refine Triple.pure _ fun _ hw => Or.inr ⟨?_, hw⟩
  cases result <;> exact nofun

/-- The end of bulk mode gives the table its index back, where nothing failed. -/
theorem finishBulkMode_spec (vss : Bool) :
    Triple (fun w => Ready dims metric w ∧ w.backend.hasVss = vss) finishBulkMode
      (fun r w => Sound dims metric w ∧ (r = none → vss = true → HasIndex w.db dims metric))
      (Sound dims metric) := by
  refine Triple.get_bind fun w hw => ?_
  have hstart : ∀ s : World, s = w → Extends w.backend.metricOf w.db s.db ∧ s.backend = w.backend :=
    by
      rintro _ rfl
      exact ⟨Extends.refl _ _, rfl⟩
  split
  · have hkept : ∀ s : World, Extends w.backend.metricOf w.db s.db → Sound dims metric s := by
      intro s hs
      refine ⟨hs.tables ▸ hw.1.1, ?_⟩
      rcases hw.1.2 with hi | ⟨ho, -, hm⟩
      · exact Or.inl (hs.hasIndex hi)
      · exact Or.inr (hs.onlyMetric ho (by rw [Backend.metricOf, hm, Option.getD_some]))
    have hensure := (ensureAllHnswIndexes_spec w.db w.backend).pre hstart
    refine Triple.crash ((collectError_spec none hensure).conseq (fun _ h => h) ?_) hkept
    rintro r s (⟨-, ⟨hext, -⟩, hbuilt⟩ | ⟨hr, hext⟩)
    · refine ⟨hkept s hext, fun _ hvss => ?_⟩
      have hsound := hkept s hext
      rcases hsound.2 with hi | ho
      · exact hi
      · obtain ⟨i, hi, hname⟩ := hbuilt (hw.2.trans hvss) dims hsound.1
        obtain ⟨hdims, hhnsw⟩ := s.db.canonical i hi dims hname
        obtain ⟨other, hother⟩ := Option.isSome_iff_exists.1 hhnsw
        obtain rfl := ho i hi hdims other hother
        exact ⟨i, hi, hdims, hother⟩
    · exact ⟨hkept s hext, fun hnone => absurd hnone hr⟩
  · rename_i hbulk
    refine Triple.pure _ ?_
    rintro _ rfl
    refine ⟨hw.1.sound, fun _ _ => ?_⟩
    rcases hw.1.2 with hi | ⟨-, hmode, -⟩
    · exact hi
    · exact absurd hmode hbulk

theorem closeCheckpoint_spec {P : World → Prop} (result : Option SwapError) :
    Triple P (closeCheckpoint result) (fun r w => P w ∧ (r = none → result = none)) P := by
  refine Triple.get_bind fun w hw => ?_
  refine Triple.pre (P := P) ?_ fun s hs => hs ▸ hw
  split
  · refine (collectError_spec result statement_spec).conseq (fun _ h => h) ?_
    rintro r s (⟨rfl, hs⟩ | ⟨hr, hs⟩)
    · exact ⟨hs, fun h => h⟩
    · exact ⟨hs, fun h => absurd h hr⟩
  · exact Triple.pure _ fun _ h => ⟨h, fun h => h⟩

/-- A `close` that returns has given the table its index back. -/
theorem close_spec (vss : Bool) :
    Triple (fun w => Ready dims metric w ∧ w.backend.hasVss = vss) close
      (fun _ w => Sound dims metric w ∧ (vss = true → HasIndex w.db dims metric))
      (Sound dims metric) := by
  refine Triple.bind (finishBulkMode_spec vss) fun result => ?_
  refine Triple.bind ((closeCheckpoint_spec result).crash fun _ h => h.1) fun result' => ?_
  let closed : World → Prop := fun w =>
    Sound dims metric w ∧ (result' = none → vss = true → HasIndex w.db dims metric)
  refine Triple.seq (M := closed) (Triple.modify fun w hw => ?_) ?_
  · exact ⟨hw.1.1, fun hr => hw.1.2 (hw.2 hr)⟩
  · cases result' with
    | none => exact Triple.pure _ fun _ hw => ⟨hw.1, hw.2 rfl⟩
    | some e => exact Triple.throw e fun _ hw => hw.1

theorem session_sound (h : Original metricReads db dims metric) (writes : List (List UInt32)) :
    Triple (fun w => w.db = db) (session metricReads writes) (fun _ => Sound dims metric)
      (Sound dims metric) := by
  have hclose : Triple (Ready dims metric) close (fun _ => Sound dims metric)
      (Sound dims metric) := by
    intro w hw os
    exact (close_spec w.backend.hasVss w ⟨hw, rfl⟩ os).mono fun _ _ hs => hs.1
  exact Triple.seq ((bracket_ready h writes).crash fun _ hw => hw.sound) hclose

/-- The indexes are dropped, or some of them, and any writes follow. A `close` that returns, with
VSS loaded, has given every table an index with its original metric. When the process ends at
any point instead, and later processes open the database, fail or are killed, then an `open` that
returns with VSS loaded leaves every table with an index. It has the original metric where an
index with it was there when the process ended, and cosine where it was dropped. -/
theorem bracket_restores (w : World) (h : Original metricReads w.db dims metric)
    (writes : List (List UInt32)) (os : List Outcome) :
    (∀ s os', bracket metricReads writes w os = .done () s os' → s.backend.hasVss = true →
      ∀ osClose w' rest, close s osClose = .done () w' rest → HasIndex w'.db dims metric) ∧
    (let ended := (session metricReads writes w os).state
      ∀ opens osLast w' rest, openDb (reopenings (crash ended) opens) osLast = .done () w' rest →
        w'.backend.hasVss = true →
          (∀ d ∈ w'.db.tables, ∃ metric', HasIndex w'.db d metric') ∧
          (HasIndex w'.db dims metric ↔
            HasIndex ended.db dims metric ∨ metric = "cosine") ∧
          (¬HasIndex ended.db dims metric → HasIndex w'.db dims "cosine")) := by
  constructor
  · intro s os' hrun hvss osClose w' rest hclose
    have hready := (bracket_ready h writes).of_done rfl hrun
    exact ((close_spec true).of_done ⟨hready, hvss⟩ hclose).2 rfl
  · intro ended opens osLast w' rest hopen hvss
    have hsound : Sound dims metric ended := (session_sound h writes w rfl os).state
    have hfresh := reopenings_extends ended.db opens
      (w := crash ended) ⟨Extends.refl _ ended.db, rfl⟩
    obtain ⟨hext, hbuilt⟩ := (openDb_spec ended.db).of_done hfresh hopen
    have htable : dims ∈ w'.db.tables := hext.tables ▸ hsound.1
    have hcosine : ¬HasIndex ended.db dims metric → HasIndex w'.db dims "cosine" := by
      intro hnot
      have honly := hsound.2.resolve_left hnot
      obtain ⟨i, hi, hname⟩ := hbuilt hvss dims htable
      obtain ⟨hdims, hhnsw⟩ := w'.db.canonical i hi dims hname
      obtain ⟨other, hother⟩ := Option.isSome_iff_exists.1 hhnsw
      rcases hext.added i hi with hold | hnew
      · obtain rfl := honly i hold hdims other hother
        exact absurd ⟨i, hold, hdims, hother⟩ hnot
      · exact ⟨i, hi, hdims, hnew⟩
    refine ⟨fun d hd => (hbuilt hvss d hd).hasIndex, ⟨?_, ?_⟩, hcosine⟩
    · rintro ⟨i, hi, hdims, hmetric⟩
      rcases hext.added i hi with hold | hnew
      · exact Or.inl ⟨i, hold, hdims, hmetric⟩
      · rw [hmetric] at hnew
        exact Or.inr (Option.some.inj hnew)
    · rintro (hi | rfl)
      · exact hext.hasIndex hi
      · by_cases hi : HasIndex ended.db dims "cosine"
        · exact hext.hasIndex hi
        · exact hcosine hi

end Bracket

/-- One table with its index, in an open database. -/
def oneTable (dims : UInt32) (metric : String) : World where
  db := { tables := [dims]
          indexes := [⟨hnswName dims, dims, some metric⟩]
          unique := by simp
          canonical := by
            intro i hi dims' hname
            rw [List.mem_singleton] at hi
            subst hi
            exact ⟨hnswName_inj hname, rfl⟩ }
  backend := { Backend.new with connected := true, hasVss := true }

theorem original_oneTable (dims : UInt32) (metric : String) :
    Original (fun _ => true) (oneTable dims metric).db dims metric where
  table := List.mem_singleton_self dims
  index := ⟨_, List.mem_singleton_self _, rfl, rfl⟩
  only := by
    intro i hi _ _
    obtain rfl := List.mem_singleton.1 hi
    exact ⟨rfl, rfl⟩

/-- The index is dropped, a table is added, and `close` builds both. -/
theorem bracket_restores_l2sq :
    ∃ s w', bracket (fun _ => true) [[8]] (oneTable 3 "l2sq") (List.replicate 5 .ok) =
        .done () s [] ∧
      close s (List.replicate 7 .ok) = .done () w' [] ∧ HasIndex w'.db 3 "l2sq" := by
  have hrun : ∃ s w', bracket (fun _ => true) [[8]] (oneTable 3 "l2sq") (List.replicate 5 .ok) =
      .done () s [] ∧ s.backend.hasVss = true ∧
        close s (List.replicate 7 .ok) = .done () w' [] := ⟨_, _, rfl, rfl, rfl⟩
  obtain ⟨s, w', hbracket, hvss, hclose⟩ := hrun
  have hrestores := bracket_restores (oneTable 3 "l2sq") (original_oneTable 3 "l2sq") [[8]]
    (List.replicate 5 .ok)
  exact ⟨s, w', hbracket, hclose, hrestores.1 s [] hbracket hvss _ w' [] hclose⟩

/-- Killed after the drop, and opened again : the index is back with another metric. -/
theorem crash_loses_metric :
    ∃ w', openDb (crash (session (fun _ => true) [] (oneTable 3 "l2sq") [.ok, .ok]).state)
        (List.replicate 12 .ok) = .done () w' [] ∧
      w'.backend.hasVss = true ∧ HasIndex (oneTable 3 "l2sq").db 3 "l2sq" ∧
        ¬HasIndex w'.db 3 "l2sq" := by
  have hrun : ∃ w', openDb
      (crash (session (fun _ => true) [] (oneTable 3 "l2sq") [.ok, .ok]).state)
        (List.replicate 12 .ok) = .done () w' [] ∧ w'.backend.hasVss = true ∧
          w'.db.indexes = [⟨hnswName 3, 3, some "cosine"⟩] := ⟨_, rfl, rfl, rfl⟩
  obtain ⟨w', hopen, hvss, hindexes⟩ := hrun
  refine ⟨w', hopen, hvss, (original_oneTable 3 "l2sq").index, ?_⟩
  rintro ⟨i, hi, -, hmetric⟩
  rw [hindexes, List.mem_singleton] at hi
  subst hi
  exact absurd (Option.some.inj hmetric) (by decide)

end ChunkHound.HnswBracket
