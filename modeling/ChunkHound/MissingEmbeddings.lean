import ChunkHound.GitDiscovery
import ChunkHound.PathFilters

/-!
# Chunks without embeddings

`_get_chunk_ids_without_embeddings` of `embedding_service.py` leaves out the chunks of files that an
exclude pattern matches. With a database that answers SQL, a pattern without brackets becomes a
`LIKE` pattern. The other patterns, and every pattern of the fallback, go to `fnmatch`.

The `LIKE` pattern matches what the glob pattern matches (`like_fnmatchToSqlLike`). But `fnmatch`
hands both texts to `os.path.normcase` first, which folds case on Windows. So the two ways of
excluding agree exactly where that changes no match (`exclusion_iff`).

Texts are lists of characters. `os.path.normcase` is a parameter.
-/

namespace ChunkHound.MissingEmbeddings

open PathFilters

/-! ## Patterns -/

/-- What `_fnmatch_to_sql_like` makes of a character. -/
def likeChar (ch : Char) : List Char :=
  if ch = '*' then ['%']
  else if ch = '?' then ['_']
  else if ch = '%' ∨ ch = '_' ∨ ch = '\\' then ['\\', ch]
  else [ch]

/-- `_fnmatch_to_sql_like` -/
def fnmatchToSqlLike (pattern : List Char) : List Char := pattern.flatMap likeChar

/-- `path LIKE ? ESCAPE '\'`. It raises at an escape that escapes nothing. -/
def like (pattern path : List Char) : Option Bool := (parseLike pattern).map (matchesItems · path)

/-- `fnmatch.fnmatch`. What compares the texts is `fnmatchcase`. -/
def fnmatch (normcase : List Char → List Char) (name pattern : List Char) : Bool :=
  Discovery.fnmatch (normcase pattern) (normcase name)

/-! ## Tables -/

structure FileRow where
  id : ℕ
  path : List Char

structure ChunkRow where
  id : ℕ
  fileId : ℕ

structure EmbeddingRow where
  chunkId : ℕ
  provider : String
  model : String
  deriving DecidableEq

/-- The tables, with their constraints. `embeddings` has every `embeddings_{dims}` table. Ids come
from a sequence that starts with 1. -/
structure Tables where
  files : List FileRow
  chunks : List ChunkRow
  embeddings : List (List EmbeddingRow)
  fileIds : (files.map (·.id)).Nodup
  chunkIds : (chunks.map (·.id)).Nodup
  fileId : ∀ c ∈ chunks, ∃ f ∈ files, f.id = c.fileId
  positive : ∀ c ∈ chunks, 0 < c.id

namespace Tables

/-- `JOIN files f ON c.file_id = f.id` -/
def join (t : Tables) (c : ChunkRow) : List FileRow := t.files.filter (·.id = c.fileId)

/-- The `NOT EXISTS` clauses, one for each table. -/
def absent (t : Tables) (provider model : String) (c : ChunkRow) : Bool :=
  t.embeddings.all fun table => !table.any (· = ⟨c.id, provider, model⟩)

end Tables

/-! ## The SQL path -/

/-- A row of the query. It has a path when a pattern is left for Python. -/
structure MissingRow where
  id : ℕ
  filePath : Option (List Char)

/-- `_partition_exclude_patterns` -/
def partitionExcludePatterns (excludePatterns : Option (List (List Char))) :
    List (List Char) × List (List Char) :=
  (excludePatterns.getD []).partition fun pattern => !('[' ∈ pattern || ']' ∈ pattern)

/-- The query of `_build_missing_embedding_query`, executed. -/
def missingEmbeddingQuery (t : Tables) (provider model : String)
    (sqlPatterns pythonPatterns : List (List Char)) : Option (List MissingRow) := do
  let likes ← (sqlPatterns.map fnmatchToSqlLike).mapM parseLike
  let absent := t.chunks.filter (t.absent provider model)
  let rows :=
    if sqlPatterns = [] ∧ pythonPatterns = [] then absent.map fun c => ⟨c.id, none⟩
    else absent.flatMap fun c =>
      ((t.join c).filter fun f => !likes.any (matchesItems · f.path)).map fun f =>
        ⟨c.id, if pythonPatterns = [] then none else some f.path⟩
  some (rows.insertionSort fun a b => a.id ≤ b.id)

/-- `_filter_excluded_pattern_rows` -/
def filterExcludedPatternRows (normcase : List Char → List Char) (rows : List MissingRow)
    (pythonPatterns : List (List Char)) : List MissingRow :=
  if pythonPatterns = [] then rows
  else rows.filter fun row => !pythonPatterns.any (fnmatch normcase (row.filePath.getD []) ·)

/-- `_get_chunk_ids_without_embeddings_sql` -/
def chunkIdsSql (normcase : List Char → List Char) (t : Tables) (provider model : String)
    (excludePatterns : Option (List (List Char))) : Option (List ℕ) := do
  let (sqlPatterns, pythonPatterns) := partitionExcludePatterns excludePatterns
  let rows ← missingEmbeddingQuery t provider model sqlPatterns pythonPatterns
  some ((filterExcludedPatternRows normcase rows pythonPatterns).map (·.id))

/-! ## The fallback -/

/-- What the fallback reads of a chunk. DuckDB gives its id as `chunk_id`, LanceDB as `id`. -/
structure MetadataRow where
  chunkId : Option ℕ
  id : Option ℕ
  filePath : List Char

/-- `get_chunk_id`. No id is 0. -/
def getChunkId (chunk : MetadataRow) : Option ℕ :=
  if chunk.chunkId = some 0 then chunk.id else chunk.chunkId.or chunk.id

/-- An `ORDER BY`. Rows of the same key come in any order. -/
structure RowOrder where
  sort : List MetadataRow → List MetadataRow
  perm : ∀ rows, (sort rows).Perm rows

/-- `get_all_chunks_with_metadata` -/
def getAllChunksWithMetadata (t : Tables) (order : RowOrder) : List MetadataRow :=
  order.sort (t.chunks.flatMap fun c => (t.join c).map fun f => ⟨some c.id, none, f.path⟩)

/-- `get_existing_embeddings` -/
def getExistingEmbeddings (t : Tables) (chunkIds : List ℕ) (provider model : String) : List ℕ :=
  t.embeddings.flatMap fun table =>
    (table.filter fun e => e.chunkId ∈ chunkIds ∧ e.provider = provider ∧ e.model = model).map
      (·.chunkId)

/-- `_get_chunk_ids_without_embeddings_fallback` -/
def chunkIdsFallback (normcase : List Char → List Char) (t : Tables) (order : RowOrder)
    (provider model : String) (excludePatterns : Option (List (List Char))) : List ℕ :=
  let allChunks := getAllChunksWithMetadata t order
  let allChunks :=
    if excludePatterns.getD [] = [] then allChunks
    else allChunks.filter fun c => !(excludePatterns.getD []).any (fnmatch normcase c.filePath ·)
  let allChunkIds := allChunks.filterMap getChunkId
  if allChunkIds = [] then []
  else
    let existing := getExistingEmbeddings t allChunkIds provider model
    allChunkIds.filter (· ∉ existing)

/-! ## What the patterns match -/

/-- The item that a character of a glob pattern stands for. -/
def globItem (ch : Char) : Item :=
  if ch = '*' then .any else if ch = '?' then .one else .lit ch

theorem globItem_lit {ch : Char} (hstar : ch ≠ '*') (hone : ch ≠ '?') : globItem ch = .lit ch := by
  unfold globItem
  rw [if_neg hstar, if_neg hone]

/-- Each character becomes its item, whatever it is. -/
theorem parseLike_likeChar (ch : Char) (p : List Char) :
    parseLike (likeChar ch ++ p) = (parseLike p).map (globItem ch :: ·) := by
  unfold likeChar
  by_cases hstar : ch = '*'
  · subst hstar
    simp [parseLike, globItem]
  by_cases hone : ch = '?'
  · subst hone
    simp [parseLike, globItem]
  rw [if_neg hstar, if_neg hone, globItem_lit hstar hone]
  split
  · simp [parseLike]
  · rename_i hplain
    simp only [not_or] at hplain
    rw [List.singleton_append, parseLike.eq_def]
    split <;> simp_all

theorem parseLike_fnmatchToSqlLike : ∀ pattern : List Char,
    parseLike (fnmatchToSqlLike pattern) = some (pattern.map globItem)
  | [] => rfl
  | ch :: pattern => by
    have ih := parseLike_fnmatchToSqlLike pattern
    unfold fnmatchToSqlLike at ih ⊢
    rw [List.flatMap_cons, parseLike_likeChar, ih, Option.map_some, List.map_cons]

/-- A pattern that opens no set matches what its items match. -/
theorem matchPattern_eq : ∀ (n : ℕ) {pattern : List Char}, pattern.length < n → '[' ∉ pattern →
    ∀ path, Discovery.matchPattern n pattern path = matchesItems (pattern.map globItem) path
  | 0, _, hlen, _, _ => absurd hlen (Nat.not_lt_zero _)
  | n + 1, [], _, _, path => by simp [Discovery.matchPattern, matchesItems]
  | n + 1, ch :: pattern, hlen, hset, path => by
    rw [List.mem_cons, not_or] at hset
    have ih := matchPattern_eq n (Nat.lt_of_succ_lt_succ hlen) hset.2
    rw [List.map_cons]
    by_cases hstar : ch = '*'
    · subst hstar
      rw [Discovery.matchPattern_star]
      exact congrArg path.tails.any (funext ih)
    by_cases hone : ch = '?'
    · subst hone
      cases path <;> simp [Discovery.matchPattern, globItem, matchesItems, ih]
    · rw [globItem_lit hstar hone]
      cases path with
      | nil => simp [Discovery.matchPattern, matchesItems, hstar]
      | cons x path =>
        have hx : decide (ch = x) = (x == ch) := by
          rw [Bool.eq_iff_iff, decide_eq_true_iff, beq_iff_eq, eq_comm]
        simp [Discovery.matchPattern, matchesItems, hstar, hone, Ne.symm hset.1, ih, hx]

/-- The `LIKE` pattern matches what `fnmatchcase` matches. -/
theorem like_fnmatchToSqlLike {pattern : List Char} (hset : '[' ∉ pattern) (path : List Char) :
    like (fnmatchToSqlLike pattern) path = some (Discovery.fnmatch pattern path) := by
  unfold like Discovery.fnmatch
  rw [parseLike_fnmatchToSqlLike, Option.map_some, matchPattern_eq _ (Nat.lt_succ_self _) hset]

/-- Whether the pattern matches is the same before and after `os.path.normcase`. -/
def SameMatch (normcase : List Char → List Char) (pattern path : List Char) : Prop :=
  Discovery.fnmatch (normcase pattern) (normcase path) = Discovery.fnmatch pattern path

/-- What the SQL path compares : a pattern with a bracket like the fallback, another one as it
stands. -/
def matchesSql (normcase : List Char → List Char) (path pattern : List Char) : Bool :=
  if '[' ∈ pattern ∨ ']' ∈ pattern then fnmatch normcase path pattern
  else Discovery.fnmatch pattern path

/-! ## Which chunks are selected -/

section Selected

variable {normcase : List Char → List Char} {t : Tables} {provider model : String}

variable {c : ChunkRow}

/-- A chunk has a file, and no other. -/
theorem Tables.exists_join (hc : c ∈ t.chunks) : ∃ f, f ∈ t.join c := by
  obtain ⟨f, hmem, hid⟩ := t.fileId c hc
  exact ⟨f, List.mem_filter.2 ⟨hmem, decide_eq_true hid⟩⟩

theorem Tables.join_unique {f f' : FileRow} (hf : f ∈ t.join c) (hf' : f' ∈ t.join c) : f' = f := by
  obtain ⟨hmem, hid⟩ := List.mem_filter.1 hf
  obtain ⟨hmem', hid'⟩ := List.mem_filter.1 hf'
  exact List.inj_on_of_nodup_map t.fileIds hmem' hmem
    ((of_decide_eq_true hid').trans (of_decide_eq_true hid).symm)

theorem Tables.absent_iff : t.absent provider model c = true ↔
    ∀ table ∈ t.embeddings, (⟨c.id, provider, model⟩ : EmbeddingRow) ∉ table := by
  unfold absent
  simp only [List.all_eq_true, Bool.not_eq_true', List.any_eq_false, decide_eq_true_eq]
  refine forall₂_congr fun table _ => ?_
  constructor
  · exact fun h hmem => h _ hmem rfl
  · rintro h e he rfl
    exact h he

theorem mem_getExistingEmbeddings {ids : List ℕ} {id : ℕ} (hid : id ∈ ids) :
    id ∈ getExistingEmbeddings t ids provider model ↔
      ∃ table ∈ t.embeddings, (⟨id, provider, model⟩ : EmbeddingRow) ∈ table := by
  unfold getExistingEmbeddings
  simp only [List.mem_flatMap, List.mem_map, List.mem_filter, decide_eq_true_eq]
  refine exists_congr fun table => and_congr_right fun _ => ?_
  constructor
  · rintro ⟨⟨_, _, _⟩, ⟨he, -, rfl, rfl⟩, rfl⟩
    exact he
  · exact fun he => ⟨_, ⟨he, hid, rfl, rfl⟩, rfl⟩

/-- The ids that the fallback asks the embeddings of. -/
theorem mem_allChunkIds (order : RowOrder) (excluded : List Char → Bool) (id : ℕ) :
    id ∈ ((getAllChunksWithMetadata t order).filter fun c => !excluded c.filePath).filterMap
        getChunkId ↔
      ∃ c ∈ t.chunks, c.id = id ∧ ∃ f ∈ t.join c, excluded f.path = false := by
  unfold getAllChunksWithMetadata
  simp only [List.mem_filterMap, List.mem_filter, (order.perm _).mem_iff, List.mem_flatMap,
    List.mem_map, Bool.not_eq_true']
  constructor
  · rintro ⟨row, ⟨⟨c, hc, f, hf, rfl⟩, hex⟩, hid⟩
    have hpos := t.positive c hc
    rw [getChunkId, if_neg (by simp; omega)] at hid
    exact ⟨c, hc, Option.some.inj hid, f, hf, hex⟩
  · rintro ⟨c, hc, rfl, f, hf, hex⟩
    have hpos := t.positive c hc
    refine ⟨_, ⟨⟨c, hc, f, hf, rfl⟩, hex⟩, ?_⟩
    rw [getChunkId, if_neg (by simp; omega)]
    rfl

theorem mem_chunkIdsFallback (order : RowOrder) (excludePatterns : Option (List (List Char)))
    {id : ℕ} : id ∈ chunkIdsFallback normcase t order provider model excludePatterns ↔
      ∃ c ∈ t.chunks, c.id = id ∧ t.absent provider model c = true ∧ ∃ f ∈ t.join c,
        (excludePatterns.getD []).any (fnmatch normcase f.path ·) = false := by
  have hfilter : (if excludePatterns.getD [] = [] then getAllChunksWithMetadata t order
      else (getAllChunksWithMetadata t order).filter fun c =>
        !(excludePatterns.getD []).any (fnmatch normcase c.filePath ·)) =
      (getAllChunksWithMetadata t order).filter fun c =>
        !(excludePatterns.getD []).any (fnmatch normcase c.filePath ·) := by
    split
    · rename_i hnone
      simp [hnone]
    · rfl
  unfold chunkIdsFallback
  dsimp only
  rw [hfilter]
  have hids := mem_allChunkIds order (t := t) fun path =>
    (excludePatterns.getD []).any (fnmatch normcase path ·)
  split
  · rename_i hnil
    rw [hnil] at hids
    refine iff_of_false List.not_mem_nil ?_
    rintro ⟨c, hc, hid, -, hf⟩
    exact List.not_mem_nil ((hids id).2 ⟨c, hc, hid, hf⟩)
  · rw [List.mem_filter, decide_eq_true_eq]
    constructor
    · rintro ⟨hmem, hnot⟩
      obtain ⟨c, hc, rfl, hf⟩ := (hids id).1 hmem
      rw [mem_getExistingEmbeddings hmem] at hnot
      push Not at hnot
      exact ⟨c, hc, rfl, Tables.absent_iff.2 hnot, hf⟩
    · rintro ⟨c, hc, rfl, habsent, hf⟩
      have hmem := (hids c.id).2 ⟨c, hc, rfl, hf⟩
      refine ⟨hmem, fun hex => ?_⟩
      obtain ⟨table, htable, he⟩ := (mem_getExistingEmbeddings hmem).1 hex
      exact Tables.absent_iff.1 habsent table htable he

theorem mapM_parseLike : ∀ patterns : List (List Char),
    (patterns.map fnmatchToSqlLike).mapM parseLike = some (patterns.map (·.map globItem))
  | [] => rfl
  | pattern :: patterns => by
    rw [List.map_cons, List.mapM_cons, parseLike_fnmatchToSqlLike, mapM_parseLike patterns]
    rfl

theorem any_globItems {patterns : List (List Char)} (hset : ∀ p ∈ patterns, '[' ∉ p)
    (path : List Char) : (patterns.map (·.map globItem)).any (matchesItems · path) =
      patterns.any (Discovery.fnmatch · path) := by
  induction patterns with
  | nil => rfl
  | cons p patterns ih =>
    rw [List.map_cons, List.any_cons, List.any_cons, ih (List.forall_mem_cons.1 hset).2,
      Discovery.fnmatch, matchPattern_eq _ (Nat.lt_succ_self _) (List.forall_mem_cons.1 hset).1]

/-- The query does not raise, and has the chunks whose path no pattern matches. -/
theorem missingEmbeddingQuery_spec (t : Tables) (provider model : String)
    {sqlPatterns : List (List Char)} (hset : ∀ p ∈ sqlPatterns, '[' ∉ p)
    (pythonPatterns : List (List Char)) :
    ∃ rows, missingEmbeddingQuery t provider model sqlPatterns pythonPatterns = some rows ∧
      ∀ row, row ∈ rows ↔ ∃ c ∈ t.chunks, t.absent provider model c = true ∧ ∃ f ∈ t.join c,
        sqlPatterns.any (Discovery.fnmatch · f.path) = false ∧
          row = ⟨c.id, if pythonPatterns = [] then none else some f.path⟩ := by
  unfold missingEmbeddingQuery
  rw [mapM_parseLike]
  refine ⟨_, rfl, fun row => ?_⟩
  rw [List.mem_insertionSort]
  split
  · rename_i hnone
    obtain ⟨rfl, rfl⟩ := hnone
    simp only [List.mem_map, List.mem_filter, List.any_nil, if_true, true_and, and_assoc]
    refine exists_congr fun c => and_congr_right fun hc => and_congr_right fun _ => ?_
    obtain ⟨f, hf⟩ := Tables.exists_join hc
    exact ⟨fun h => ⟨f, hf, h.symm⟩, fun ⟨_, _, h⟩ => h.symm⟩
  · simp only [List.mem_flatMap, List.mem_map, List.mem_filter, any_globItems hset,
      Bool.not_eq_true', and_assoc]
    refine exists_congr fun c => and_congr_right fun _ => and_congr_right fun _ =>
      exists_congr fun f => and_congr_right fun _ => and_congr_right fun _ => eq_comm

/-- The two kinds of patterns. -/
theorem any_matchesSql (patterns : List (List Char)) (path : List Char) :
    patterns.any (matchesSql normcase path) = false ↔
      (patterns.filter fun p => !('[' ∈ p || ']' ∈ p)).any (Discovery.fnmatch · path) = false ∧
        (patterns.filter fun p => '[' ∈ p || ']' ∈ p).any (fnmatch normcase path ·) = false := by
  simp only [List.any_eq_false, List.mem_filter, Bool.not_eq_true', ← forall_and]
  refine forall_congr' fun p => ?_
  unfold matchesSql
  by_cases hopen : '[' ∈ p
  · simp [hopen]
  · by_cases hclose : ']' ∈ p
    · simp [hclose]
    · simp [hopen, hclose]

theorem chunkIdsSql_spec (normcase : List Char → List Char)
    (excludePatterns : Option (List (List Char))) :
    ∃ ids, chunkIdsSql normcase t provider model excludePatterns = some ids ∧
      ∀ id, id ∈ ids ↔ ∃ c ∈ t.chunks, c.id = id ∧ t.absent provider model c = true ∧
        ∃ f ∈ t.join c, (excludePatterns.getD []).any (matchesSql normcase f.path) = false := by
  have hset : ∀ p ∈ (excludePatterns.getD []).filter fun p => !('[' ∈ p || ']' ∈ p), '[' ∉ p := by
    intro p hp
    simp only [List.mem_filter, Bool.not_eq_true', Bool.or_eq_false_iff,
      decide_eq_false_iff_not] at hp
    exact hp.2.1
  have hpartition : partitionExcludePatterns excludePatterns =
      ((excludePatterns.getD []).filter fun p => !('[' ∈ p || ']' ∈ p),
        (excludePatterns.getD []).filter fun p => '[' ∈ p || ']' ∈ p) := by
    unfold partitionExcludePatterns
    rw [List.partition_eq_filter_filter]
    simp [Function.comp_def]
  unfold chunkIdsSql
  rw [hpartition]
  dsimp only
  simp only [any_matchesSql]
  generalize (excludePatterns.getD []).filter (fun p => !('[' ∈ p || ']' ∈ p)) = sqlPatterns at *
  generalize (excludePatterns.getD []).filter (fun p => '[' ∈ p || ']' ∈ p) = pythonPatterns
  obtain ⟨rows, hrows, hmem⟩ := missingEmbeddingQuery_spec t provider model hset pythonPatterns
  rw [hrows]
  refine ⟨_, rfl, fun id => ?_⟩
  unfold filterExcludedPatternRows
  split
  · rename_i hnone
    simp only [List.mem_map, hmem, hnone, List.any_nil, and_true]
    constructor
    · rintro ⟨row, ⟨c, hc, habsent, f, hf, hsql, rfl⟩, rfl⟩
      exact ⟨c, hc, rfl, habsent, f, hf, hsql⟩
    · rintro ⟨c, hc, rfl, habsent, f, hf, hsql⟩
      exact ⟨_, ⟨c, hc, habsent, f, hf, hsql, rfl⟩, rfl⟩
  · rename_i hsome
    simp only [List.mem_map, List.mem_filter, hmem, Bool.not_eq_true', hsome, if_false]
    constructor
    · rintro ⟨row, ⟨⟨c, hc, habsent, f, hf, hsql, rfl⟩, hpython⟩, rfl⟩
      exact ⟨c, hc, rfl, habsent, f, hf, hsql, hpython⟩
    · rintro ⟨c, hc, rfl, habsent, f, hf, hsql, hpython⟩
      exact ⟨_, ⟨⟨c, hc, habsent, f, hf, hsql, rfl⟩, hpython⟩, rfl⟩

/-- A chunk's id is selected when its file is not excluded. -/
theorem selected_iff {f : FileRow} (hc : c ∈ t.chunks)
    (habsent : t.absent provider model c = true) (hf : f ∈ t.join c)
    (excluded : List Char → Bool) :
    (∃ c' ∈ t.chunks, c'.id = c.id ∧ t.absent provider model c' = true ∧
      ∃ f' ∈ t.join c', excluded f'.path = false) ↔ excluded f.path = false := by
  constructor
  · rintro ⟨c', hc', hid, -, f', hf', hex⟩
    obtain rfl := List.inj_on_of_nodup_map t.chunkIds hc' hc hid
    rwa [← Tables.join_unique hf hf']
  · exact fun hex => ⟨c, hc, rfl, habsent, f, hf, hex⟩

/-- Some pattern excludes the path in both ways, or none does. -/
def SameExclusion (normcase : List Char → List Char) (patterns : List (List Char))
    (path : List Char) : Prop :=
  patterns.any (matchesSql normcase path) = patterns.any (fnmatch normcase path)

theorem like_iff {pattern : List Char} (hset : '[' ∉ pattern) (path : List Char) :
    like (fnmatchToSqlLike pattern) path = some (fnmatch normcase path pattern) ↔
      SameMatch normcase pattern path := by
  rw [like_fnmatchToSqlLike hset, Option.some_inj, eq_comm]
  rfl

/-- The same chunks are selected when the patterns exclude the same files with chunks that have no
embedding. -/
theorem chunkIds_iff (order : RowOrder) (excludePatterns : Option (List (List Char))) :
    (∃ ids, chunkIdsSql normcase t provider model excludePatterns = some ids ∧
      ∀ id, id ∈ ids ↔ id ∈ chunkIdsFallback normcase t order provider model excludePatterns) ↔
    ∀ c ∈ t.chunks, t.absent provider model c = true → ∀ f ∈ t.join c,
      SameExclusion normcase (excludePatterns.getD []) f.path := by
  obtain ⟨ids, hids, hmem⟩ := chunkIdsSql_spec normcase excludePatterns
  rw [hids]
  simp only [Option.some_inj, exists_eq_left', hmem, mem_chunkIdsFallback]
  constructor
  · intro h c hc habsent f hf
    have hid := h c.id
    rw [selected_iff hc habsent hf fun path =>
        (excludePatterns.getD []).any (matchesSql normcase path),
      selected_iff hc habsent hf fun path =>
        (excludePatterns.getD []).any (fnmatch normcase path)] at hid
    exact Bool.eq_iff_iff.2 (by simpa using not_congr hid)
  · intro h id
    refine exists_congr fun c => and_congr_right fun hc => and_congr_right fun _ =>
      and_congr_right fun habsent => exists_congr fun f => and_congr_right fun hf => ?_
    exact Eq.congr_left (h c hc habsent f hf)

/-- A pattern without brackets matches in SQL what it matches in Python, and both ways select the
same chunks, exactly where folding case changes no match. Where nothing is folded it changes none. -/
theorem exclusion_iff (normcase : List Char → List Char) (t : Tables) (order : RowOrder)
    (provider model : String) (excludePatterns : Option (List (List Char))) :
    (∀ pattern path, '[' ∉ pattern → ']' ∉ pattern →
      (like (fnmatchToSqlLike pattern) path = some (fnmatch normcase path pattern) ↔
        SameMatch normcase pattern path)) ∧
    ((∃ ids, chunkIdsSql normcase t provider model excludePatterns = some ids ∧
      ∀ id, id ∈ ids ↔ id ∈ chunkIdsFallback normcase t order provider model excludePatterns) ↔
    ∀ c ∈ t.chunks, t.absent provider model c = true → ∀ f ∈ t.join c,
      SameExclusion normcase (excludePatterns.getD []) f.path) ∧
    (normcase = id → (∀ pattern path, SameMatch normcase pattern path) ∧
      ∀ path, SameExclusion normcase (excludePatterns.getD []) path) := by
  refine ⟨fun _ path hset _ => like_iff hset path, chunkIds_iff order excludePatterns, ?_⟩
  rintro rfl
  refine ⟨fun _ _ => rfl, fun path => congrArg _ (funext fun pattern => ?_)⟩
  unfold matchesSql
  split <;> rfl

end Selected

/-! ## Windows -/

/-- `os.path.normcase` on Windows. -/
def normcaseWindows (s : List Char) : List Char :=
  s.map fun c => if c = '/' then '\\' else c.toLower

/-- One file, with a chunk. -/
def oneChunk : Tables where
  files := [⟨1, "src/a.py".toList⟩]
  chunks := [⟨1, 1⟩]
  embeddings := []
  fileIds := by decide
  chunkIds := by decide
  fileId := by simp
  positive := by simp

/-- A pattern in another case excludes the file in Python, and not in SQL. -/
theorem uppercase_pattern_kept :
    like (fnmatchToSqlLike "*.PY".toList) "src/a.py".toList = some false ∧
      fnmatch normcaseWindows "src/a.py".toList "*.PY".toList = true ∧
      chunkIdsSql normcaseWindows oneChunk "p" "m" (some ["*.PY".toList]) = some [1] ∧
      ∀ order, chunkIdsFallback normcaseWindows oneChunk order "p" "m"
        (some ["*.PY".toList]) = [] := by
  refine ⟨by decide, by decide +kernel, by decide +kernel, fun order => ?_⟩
  refine List.eq_nil_iff_forall_not_mem.2 fun id hid => ?_
  obtain ⟨c, hc, -, -, f, hf, hex⟩ := (mem_chunkIdsFallback order _).1 hid
  obtain rfl : f = ⟨1, "src/a.py".toList⟩ :=
    List.mem_singleton.1 (List.mem_filter.1 hf).1
  revert hex
  decide +kernel

end ChunkHound.MissingEmbeddings
