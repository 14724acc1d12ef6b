import ChunkHound.Paging
import ChunkHound.PathFilters
import Mathlib.Data.Char
import Mathlib.Data.List.Lex
import Mathlib.Data.Prod.Lex
import Mathlib.Order.WithBot

/-!
# Queries of a search

`_executor_search_regex` and `_executor_search_semantic` of the DuckDB provider. Both count the rows
that match, and select a page of them with `ORDER BY`, `LIMIT` and `OFFSET`. Every page is a query
of its own. Rows that have the same path and first line, or the same similarity, come in any order.

The pages of a search partition its rows, whatever the database chooses, exactly when no two rows of
the same key meet at the end of a page (`search_partitions_iff`).

What `regexp_matches` and `array_cosine_similarity` compute is a parameter. A path compares by its
characters. A missing line comes last.
-/

namespace ChunkHound.SearchQueries

open Paging PathFilters

/-! ## Tables -/

structure FileRow where
  id : ℕ
  path : List Char
  language : Option String
  deriving DecidableEq

structure ChunkRow where
  id : ℕ
  fileId : Option ℕ
  chunkType : String
  symbol : Option String
  code : String
  startLine : Option ℤ
  endLine : Option ℤ
  metadata : Option String
  deriving DecidableEq

structure EmbeddingRow (V : Type*) where
  chunkId : ℕ
  provider : String
  model : String
  embedding : V

/-- The tables, with their keys. `embeddings` has a table for each dimension that was used. -/
structure Database (V : Type*) where
  files : List FileRow
  chunks : List ChunkRow
  embeddings : ℕ → Option (List (EmbeddingRow V))
  chunkIds : (chunks.map (·.id)).Nodup
  embeddingKeys : ∀ dims rows, embeddings dims = some rows →
    (rows.map fun e => (e.chunkId, e.provider, e.model)).Nodup

/-- What DuckDB computes : the test of a regular expression, unless it is none, and the similarity
of two vectors. -/
structure Functions (V S : Type*) where
  regexpMatches : String → Option (String → Bool)
  dims : V → ℕ
  arrayCosineSimilarity : V → V → S

/-- A row of a result. A regex search gives it no similarity. -/
structure Row (S : Type*) where
  chunkId : ℕ
  symbol : Option String
  content : String
  chunkType : String
  startLine : Option ℤ
  endLine : Option ℤ
  filePath : List Char
  language : Option String
  similarity : S
  metadata : Option String
  deriving DecidableEq

variable {V S : Type*}

/-- `JOIN files f ON c.file_id = f.id`. The id is the primary key. -/
def Database.fileOf (d : Database V) (c : ChunkRow) : Option FileRow :=
  d.files.find? fun f => c.fileId = some f.id

def rowOf (c : ChunkRow) (f : FileRow) (similarity : S) : Row S where
  chunkId := c.id
  symbol := c.symbol
  content := c.code
  chunkType := c.chunkType
  startLine := c.startLine
  endLine := c.endLine
  filePath := f.path
  language := f.language
  similarity := similarity
  metadata := c.metadata

/-- `CONCAT('/', f.path) LIKE ? ESCAPE '\'`, if there is a filter. -/
def inPath (normalizedPath : Option (List Char)) (f : FileRow) : Bool :=
  normalizedPath.all fun n => likePath (buildPathLikePattern n) f.path

/-! ## Searches -/

/-- The answer when something fails. -/
def failed : Page (Row S) := ⟨[], false, none⟩

/-- The rows that a regex search counts. -/
def regexRows (d : Database V) (isMatch : String → Bool) (normalizedPath : Option (List Char)) :
    List (Row Unit) :=
  d.chunks.filterMap fun c => (d.fileOf c).bind fun f =>
    if isMatch c.code ∧ inPath normalizedPath f then some (rowOf c f ()) else none

/-- `ORDER BY f.path, c.start_line` -/
def regexKey (r : Row Unit) : List Char ×ₗ WithTop ℤ :=
  toLex (r.filePath, r.startLine.elim ⊤ fun n => (n : WithTop ℤ))

/-- `_executor_search_regex` -/
def searchRegex (d : Database V) (fns : Functions V S) (order : List (Row Unit) → List (Row Unit))
    (pattern : String) (pageSize offset : ℕ) (pathFilter : Option (List Char)) : Page (Row Unit) :=
  match validateAndNormalizePathFilter pathFilter with
  | .error _ => failed
  | .ok normalizedPath =>
    match fns.regexpMatches pattern with
    | none => failed
    | some isMatch =>
      let rows := regexRows d isMatch normalizedPath
      page (order rows) rows.length pageSize offset

/-- The rows that a semantic search counts. -/
def semanticRows [LE S] [DecidableLE S] (d : Database V) (fns : Functions V S)
    (table : List (EmbeddingRow V)) (query : V) (provider model : String) (threshold : Option S)
    (normalizedPath : Option (List Char)) : List (Row S) :=
  table.filterMap fun e => (d.chunks.find? fun c => c.id = e.chunkId).bind fun c =>
    (d.fileOf c).bind fun f =>
      let similarity := fns.arrayCosineSimilarity e.embedding query
      if e.provider = provider ∧ e.model = model ∧ (threshold.all fun t => t ≤ similarity) ∧
          inPath normalizedPath f then some (rowOf c f similarity) else none

/-- `ORDER BY similarity DESC` -/
def semanticKey (r : Row S) : Sᵒᵈ := OrderDual.toDual r.similarity

/-- `_executor_search_semantic`. A missing vector index is built first, which changes no row. -/
def searchSemantic [LE S] [DecidableLE S] (d : Database V) (fns : Functions V S)
    (order : List (Row S) → List (Row S)) (query : V) (provider model : String)
    (pageSize offset : ℕ) (threshold : Option S) (pathFilter : Option (List Char)) : Page (Row S) :=
  match validateAndNormalizePathFilter pathFilter with
  | .error _ => failed
  | .ok normalizedPath =>
    match d.embeddings (fns.dims query) with
    | none => failed
    | some table =>
      let rows := semanticRows d fns table query provider model threshold normalizedPath
      page (order rows) rows.length pageSize offset

/-! ## Matching rows -/

/-- The rows that match : none, if the search is refused. -/
def regexMatching (d : Database V) (fns : Functions V S) (pattern : String)
    (pathFilter : Option (List Char)) : List (Row Unit) :=
  match validateAndNormalizePathFilter pathFilter, fns.regexpMatches pattern with
  | .ok normalizedPath, some isMatch => regexRows d isMatch normalizedPath
  | _, _ => []

def semanticMatching [LE S] [DecidableLE S] (d : Database V) (fns : Functions V S) (query : V)
    (provider model : String) (threshold : Option S) (pathFilter : Option (List Char)) :
    List (Row S) :=
  match validateAndNormalizePathFilter pathFilter, d.embeddings (fns.dims query) with
  | .ok normalizedPath, some table =>
    semanticRows d fns table query provider model threshold normalizedPath
  | _, _ => []

/-- A search that fails answers like one that matches nothing. -/
theorem page_nil {order : List (Row S) → List (Row S)} (h : order [] = []) (size offset : ℕ) :
    page (order []) 0 size offset = failed := by
  simp [page, failed, slice, h]

theorem searchRegex_eq (d : Database V) (fns : Functions V S) (pattern : String) (size : ℕ)
    (pathFilter : Option (List Char)) {order : List (Row Unit) → List (Row Unit)}
    (h : order [] = []) (offset : ℕ) :
    searchRegex d fns order pattern size offset pathFilter =
      page (order (regexMatching d fns pattern pathFilter))
        (regexMatching d fns pattern pathFilter).length size offset := by
  unfold searchRegex regexMatching
  cases validateAndNormalizePathFilter pathFilter with
  | error bad => exact (page_nil h size offset).symm
  | ok normalizedPath =>
    cases fns.regexpMatches pattern with
    | none => exact (page_nil h size offset).symm
    | some isMatch => rfl

section Semantic

variable [LE S] [DecidableLE S]

theorem searchSemantic_eq (d : Database V) (fns : Functions V S) (query : V)
    (provider model : String) (size : ℕ) (threshold : Option S) (pathFilter : Option (List Char))
    {order : List (Row S) → List (Row S)} (h : order [] = []) (offset : ℕ) :
    searchSemantic d fns order query provider model size offset threshold pathFilter =
      page (order (semanticMatching d fns query provider model threshold pathFilter))
        (semanticMatching d fns query provider model threshold pathFilter).length size offset := by
  unfold searchSemantic semanticMatching
  cases validateAndNormalizePathFilter pathFilter with
  | error bad => exact (page_nil h size offset).symm
  | ok normalizedPath =>
    cases d.embeddings (fns.dims query) with
    | none => exact (page_nil h size offset).symm
    | some table => rfl

end Semantic

/-! ## No row twice -/

/-- What a `filterMap` keeps of a key is a sublist of the keys. -/
theorem map_filterMap_sublist {α β κ : Type*} {f : α → Option β} {g : β → κ} {h : α → κ}
    (hf : ∀ a b, f a = some b → g b = h a) : ∀ l : List α,
    ((l.filterMap f).map g).Sublist (l.map h)
  | [] => List.Sublist.refl _
  | a :: l => by
    have ih := map_filterMap_sublist hf l
    cases ha : f a with
    | none =>
      rw [List.filterMap_cons_none ha]
      exact ih.cons _
    | some b =>
      rw [List.filterMap_cons_some ha, List.map_cons, List.map_cons, hf a b ha]
      exact ih.cons_cons _

theorem regexMatching_nodup (d : Database V) (fns : Functions V S) (pattern : String)
    (pathFilter : Option (List Char)) :
    ((regexMatching d fns pattern pathFilter).map (·.chunkId)).Nodup := by
  unfold regexMatching
  split
  · refine d.chunkIds.sublist (map_filterMap_sublist (fun c r hr => ?_) _)
    obtain ⟨f, -, hr⟩ := Option.bind_eq_some_iff.1 hr
    obtain ⟨-, ⟨⟩⟩ := Option.ite_none_right_eq_some.1 hr
    rfl
  · exact List.nodup_nil

/-- A chunk has one embedding of a model. -/
theorem semanticMatching_nodup [LE S] [DecidableLE S] (d : Database V) (fns : Functions V S)
    (query : V) (provider model : String) (threshold : Option S)
    (pathFilter : Option (List Char)) :
    ((semanticMatching d fns query provider model threshold pathFilter).map
      (·.chunkId)).Nodup := by
  unfold semanticMatching
  split
  · rename_i table _ htable
    have hkey := map_filterMap_sublist (l := table)
      (f := fun e => (d.chunks.find? fun c => c.id = e.chunkId).bind fun c =>
        (d.fileOf c).bind fun f =>
          if e.provider = provider ∧ e.model = model ∧
            (threshold.all fun t => t ≤ fns.arrayCosineSimilarity e.embedding query) ∧
              inPath ‹_› f then some (rowOf c f (fns.arrayCosineSimilarity e.embedding query))
          else none)
      (g := fun r => (r.chunkId, provider, model)) (h := fun e => (e.chunkId, e.provider, e.model))
      fun e r hr => by
        obtain ⟨c, hc, hr⟩ := Option.bind_eq_some_iff.1 hr
        obtain ⟨f, -, hr⟩ := Option.bind_eq_some_iff.1 hr
        obtain ⟨⟨hprovider, hmodel, -⟩, ⟨⟩⟩ := Option.ite_none_right_eq_some.1 hr
        have hid : c.id = e.chunkId := by simpa using List.find?_some hc
        simp [rowOf, hid, hprovider, hmodel]
    have hnodup := (d.embeddingKeys _ _ htable).sublist hkey
    refine List.Nodup.of_map (fun id => (id, provider, model)) ?_
    rwa [List.map_map]
  · exact List.nodup_nil

/-! ## Results -/

variable [LinearOrder S]

/-- The pages of a search are a partition of its rows, whatever order the database chooses in each
query, exactly when no two rows of the same key meet at the end of a page. -/
theorem search_partitions_iff (d : Database V) (fns : Functions V S) (pattern : String) (query : V)
    (provider model : String) (threshold : Option S) (pathFilter : Option (List Char))
    (pageSize offset : ℕ) :
    ((∀ order : ℕ → List (Row Unit) → List (Row Unit), (∀ q, Orders regexKey (order q)) →
        Partitions (fun q o => searchRegex d fns (order q) pattern pageSize o pathFilter) offset
          ((order 0 (regexMatching d fns pattern pathFilter)).drop offset)) ↔
      Separated regexKey (regexMatching d fns pattern pathFilter) pageSize offset) ∧
    ((∀ order : ℕ → List (Row S) → List (Row S), (∀ q, Orders semanticKey (order q)) →
        Partitions (fun q o =>
          searchSemantic d fns (order q) query provider model pageSize o threshold pathFilter)
          offset ((order 0 (semanticMatching d fns query provider model threshold
            pathFilter)).drop offset)) ↔
      Separated semanticKey (semanticMatching d fns query provider model threshold pathFilter)
        pageSize offset) := by
  constructor
  · refine partitions_orders_iff
      (fun order o => searchRegex d fns order pattern pageSize o pathFilter)
      (fun order o hord => ?_) (regexMatching_nodup d fns pattern pathFilter).of_map offset
    exact searchRegex_eq d fns pattern pageSize pathFilter (hord []).1.eq_nil o
  · refine partitions_orders_iff
      (fun order o =>
        searchSemantic d fns order query provider model pageSize o threshold pathFilter)
      (fun order o hord => ?_)
      (semanticMatching_nodup d fns query provider model threshold pathFilter).of_map offset
    exact searchSemantic_eq d fns query provider model pageSize threshold pathFilter
      (hord []).1.eq_nil o

/-- A chunk on the first line. -/
def lineOne (id : ℕ) : ChunkRow where
  id := id
  fileId := some 1
  chunkType := "variable"
  symbol := none
  code := "x = 1"
  startLine := some 1
  endLine := some 1
  metadata := none

/-- Two chunks on one line of a file. -/
def sameLine : Database Unit where
  files := [⟨1, ['a'], none⟩]
  chunks := [lineOne 1, lineOne 2]
  embeddings := fun _ => none
  chunkIds := by decide
  embeddingKeys := nofun

/-- Everything matches. -/
def anyMatch : Functions Unit ℕ := ⟨fun _ => some fun _ => true, fun _ => 0, fun _ _ => 0⟩

/-- With pages of one result, the second page may show the first chunk again. -/
theorem sameLine_not_partitions :
    ¬ ∀ order : ℕ → List (Row Unit) → List (Row Unit), (∀ q, Orders regexKey (order q)) →
      Partitions (fun q o => searchRegex sameLine anyMatch (order q) "x" 1 o none) 0
        ((order 0 (regexMatching sameLine anyMatch "x" none)).drop 0) := by
  have hrows : regexMatching sameLine anyMatch "x" none =
      [] ++ rowOf (lineOne 1) ⟨1, ['a'], none⟩ () :: rowOf (lineOne 2) ⟨1, ['a'], none⟩ () :: [] :=
    rfl
  intro h
  have hsep := (partitions_orders_iff
    (fun order o => searchRegex sameLine anyMatch order "x" 1 o none)
    (fun order o hord => searchRegex_eq sameLine anyMatch "x" 1 none (hord []).1.eq_nil o)
    (regexMatching_nodup sameLine anyMatch "x" none).of_map 0).1 h
  have hordered : IsOrdered regexKey (regexMatching sameLine anyMatch "x" none)
      ([] ++ rowOf (lineOne 1) ⟨1, ['a'], none⟩ () ::
        rowOf (lineOne 2) ⟨1, ['a'], none⟩ () :: []) := by
    refine ⟨by rw [hrows], ?_⟩
    simp [regexKey, rowOf, lineOne]
  exact hordered.untied_iff.1 (hsep.2 1 Nat.one_pos (by rw [hrows]; decide)) rfl

end ChunkHound.SearchQueries
