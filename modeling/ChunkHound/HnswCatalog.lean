import Mathlib

/-!
# The vector indexes in the catalog

Which rows of `duckdb_indexes()` count as HNSW indexes, and what is known of them before they are
dropped. Both the DuckDB provider and the native backend read the catalog this way. An embedding
table is named by its dims, a number in the one and a `u32` in the other.
-/

namespace ChunkHound.HnswCatalog

variable {δ : Type}

/-- A row of `duckdb_indexes()`, for an index on `embeddings_{dims}`. -/
structure CatalogIndex (δ : Type) where
  indexName : String
  dims : δ
  /-- The metric, of an index made with `USING HNSW`. -/
  hnsw : Option String
  deriving DecidableEq

/-- What a drop keeps of an index : `VectorIndexInfo`, and the backend's `HnswIndexInfo`. -/
structure VectorIndexInfo (δ : Type) where
  indexName : String
  dims : δ
  metric : String

/-- The index is one by its statement, or by its name. -/
def isHnswIndex (i : CatalogIndex δ) : Bool :=
  i.hnsw.isSome || i.indexName.startsWith "hnsw_" || i.indexName.startsWith "idx_hnsw_"

/-- `pragma_hnsw_index_info()` by name, for the names it can be read for. -/
def extractHnswMetric (metricReads : String → Bool) (indexes : List (CatalogIndex δ))
    (indexName : String) : String :=
  if metricReads indexName then
    ((indexes.find? (·.indexName = indexName)).bind (·.hnsw)).getD "cosine"
  else
    "cosine"

/-- The HNSW indexes of the catalog, with their metrics. -/
def existingVectorIndexes (metricReads : String → Bool) (indexes : List (CatalogIndex δ)) :
    List (VectorIndexInfo δ) :=
  (indexes.filter isHnswIndex).map fun i =>
    ⟨i.indexName, i.dims, extractHnswMetric metricReads indexes i.indexName⟩

/-- The metric that is read of an index is its own, where no other has its name. -/
theorem extractHnswMetric_of_mem {metricReads : String → Bool} {indexes : List (CatalogIndex δ)}
    {i : CatalogIndex δ} {metric : String}
    (hunique : ∀ j ∈ indexes, j.indexName = i.indexName → j = i) (hi : i ∈ indexes)
    (hreads : metricReads i.indexName = true) (hmetric : i.hnsw = some metric) :
    extractHnswMetric metricReads indexes i.indexName = metric := by
  have hfind : indexes.find? (·.indexName = i.indexName) = some i := by
    cases hfound : indexes.find? (·.indexName = i.indexName) with
    | none => exact absurd (List.find?_eq_none.1 hfound i hi) (by simp)
    | some j =>
      have hname := List.find?_some hfound
      rw [hunique j (List.mem_of_find?_eq_some hfound) (by simpa using hname)]
  rw [extractHnswMetric, if_pos hreads, hfind, Option.bind_some, hmetric, Option.getD_some]

end ChunkHound.HnswCatalog
