import ChunkHound.LanceFiles
import ChunkHound.Paging

/-!
# Semantic search in the LanceDB store

`_executor_search_semantic` of `lancedb_provider.py`. It looks at the first hundred rows for one
that has a vector of the provider and model, and gives up when there is none. Else it fetches as
many of the nearest rows as the page needs to its end, and cuts the page from these.

What the page should be is said by `wanted` : the rows of the provider and model, under the path
filter and similar enough, in the order of their distance. The fetch stops where the page ends, so
`has_more` is never set. The path filter is not read, and the threshold is compared with the
distance. `search_iff` says when the answer is right all the same : what the filters do with the
rows that come before the page and on it decides.

The search of LanceDB is a parameter, `VectorIndex`.
-/

namespace ChunkHound.Lance

open Paging Ranking Upserts

/-! ## Vectors -/

/-- `x != 0`, for the bits of a float. -/
def nonzero (x : F32) : Bool := x ≠ 0 && x ≠ 0x80000000

/-- `_has_valid_embedding`. -/
def hasValidEmbedding (embedding : Option (List F32)) : Bool :=
  embedding.any fun v => v.any nonzero

/-- `_distance` of a row, for the distance of vectors. -/
def distanceOf (distance : List F32 → List F32 → ℚ) (query : List F32) (row : ChunkRow) : ℚ :=
  (row.embedding.map (distance query)).getD 0

def embeddedWhere (provider model : String) : String :=
  "provider = '" ++ provider ++ "' AND model = '" ++ model ++ "' AND embedding IS NOT NULL"

/-- The vector search of LanceDB : the distance of two vectors, the fixed order of rows for a query,
and the rows that the texts of one or more `where` calls select, given their distance. The texts may
be refused, but not that of a provider and a model without quotes. `str` is how a number is
formatted. -/
structure VectorIndex where
  distance : List F32 → List F32 → ℚ
  nearest : List F32 → List ChunkRow → List ChunkRow
  selects : List String → Option (ℚ → ChunkRow → Bool)
  str : ℚ → String
  nearest_perm : ∀ query rows, (nearest query rows).Perm rows
  nearest_sorted : ∀ query rows, (nearest query rows).Pairwise fun a b =>
    distanceOf distance query a ≤ distanceOf distance query b
  selects_embedded : ∀ provider model, QuoteFree provider → QuoteFree model →
    selects [embeddedWhere provider model] = some fun _ row =>
      row.provider = some provider && row.model = some model && row.embedding.isSome

namespace VectorIndex

variable (index : VectorIndex)

/-- The rows that a search goes through. -/
def candidates (query : List F32) (table : ChunkTable) : List ChunkRow :=
  index.nearest query (table.rows.filter fun row => row.embedding.isSome)

end VectorIndex

/-! ## The search -/

/-- A result, but for its metadata, which is left as it is stored. -/
structure Found where
  chunkId : ℤ
  symbol : Option String
  content : String
  chunkType : String
  startLine : ℤ
  endLine : ℤ
  filePath : String
  language : String
  similarity : ℚ
  metadata : Option String
  deriving DecidableEq

structure Pagination where
  offset : ℕ
  pageSize : ℕ
  hasMore : Bool
  total : ℕ
  deriving DecidableEq

structure Query where
  embedding : List F32
  provider : String
  model : String
  pageSize : ℕ
  offset : ℕ
  threshold : Option ℚ
  pathFilter : Option String

/-- The path that `_fetch_file_paths_by_ids` has for a file. -/
def filePathOf (files : List FileRow) (fileId : ℤ) : String :=
  (((files.filter fun row => row.id = fileId && row.path ≠ "").getLast?).map FileRow.path).getD ""

section Search

variable (index : VectorIndex) (store : Store) (q : Query)

def Found.ofRow (row : ChunkRow) : Found where
  chunkId := row.id
  symbol := row.name
  content := row.content
  chunkType := row.chunkType
  startLine := row.startLine
  endLine := row.endLine
  filePath := filePathOf store.files row.fileId
  language := row.language
  similarity := 1 - distanceOf index.distance q.embedding row
  metadata := row.metadata

/-- The row is of the provider and the model. -/
def ofModel (row : ChunkRow) : Bool :=
  row.provider = some q.provider && row.model = some q.model

/-- `embeddings_exist`, of a sample. -/
def embeddingsExist : Bool :=
  (store.chunks.rows.take (min 100 store.chunks.rows.length)).any fun row =>
    hasValidEmbedding row.embedding && ofModel q row

/-- The filters of the query. A threshold of zero adds none. -/
def wheres : List String :=
  embeddedWhere q.provider q.model ::
    ((q.threshold.filter (· ≠ 0)).map fun t => "_distance <= " ++ index.str t).toList

/-- The rows that these filters select, nearest first. -/
def selected : Option (List ChunkRow) :=
  (index.selects (wheres index q)).map fun selects =>
    (index.candidates q.embedding store.chunks).filter fun row =>
      selects (distanceOf index.distance q.embedding row) row

/-- `_executor_search_semantic`. None when the search raises. -/
def searchSemantic : Option (List Found × Pagination) :=
  if store.chunks.rows = [] then some ([], ⟨q.offset, 0, false, 0⟩)
  else if !embeddingsExist store q then some ([], ⟨q.offset, 0, false, 0⟩)
  else
    (selected index store q).map fun rows =>
      let results := deduplicateById (rows.take (q.pageSize + q.offset))
      let paginatedResults := slice results q.pageSize q.offset
      (paginatedResults.map (Found.ofRow index store q),
        { offset := q.offset
          pageSize := paginatedResults.length
          hasMore := q.offset + q.pageSize < results.length
          total := results.length })

/-! ## What it should find -/

-- Which paths are under a path filter is left open, since the search does not read it.
variable (under : String → String → Bool)

/-- The row is of the provider and the model, similar enough and under the path filter. -/
def isWanted (row : ChunkRow) : Bool :=
  ofModel q row && q.threshold.all (· ≤ 1 - distanceOf index.distance q.embedding row) &&
    q.pathFilter.all fun filter => under filter (filePathOf store.files row.fileId)

def wanted : List ChunkRow :=
  (index.candidates q.embedding store.chunks).filter (isWanted index store q under)

/-- The page of the wanted rows, and whether any remain behind it. -/
def IsPage (answer : Option (List Found × Pagination)) : Prop :=
  ∃ results pagination, answer = some (results, pagination) ∧
    results = (slice (wanted index store q under) q.pageSize q.offset).map
      (Found.ofRow index store q) ∧
    (pagination.hasMore = true ↔ q.offset + q.pageSize < (wanted index store q under).length)

/-- The page of the rows that a filter selects is that of the wanted ones : neither has a row on it,
or as many come before it in both, and from its first row to its last just the wanted are
selected. -/
def Fits (selects : ChunkRow → Bool) : Prop :=
  let rows := index.candidates q.embedding store.chunks
  q.pageSize = 0 ∨
    (rows.countP selects ≤ q.offset ∧ rows.countP (isWanted index store q under) ≤ q.offset) ∨
      AgreeOnPage selects (isWanted index store q under) q.pageSize q.offset q.offset rows

/-- No wanted row is behind the page. If one is at the offset or behind, the sample has a row of the
provider and the model. When it has one, the filters are accepted and fit the page. -/
structure Suffices : Prop where
  ends : (wanted index store q under).length ≤ q.offset + q.pageSize
  sampled : q.offset < (wanted index store q under).length → embeddingsExist store q = true
  filters : embeddingsExist store q = true → ∃ selects, index.selects (wheres index q) =
    some selects ∧ Fits index store q under fun row =>
      selects (distanceOf index.distance q.embedding row) row

/-- The rows of the provider and the model, nearest first. -/
def modelRows : List ChunkRow :=
  (index.candidates q.embedding store.chunks).filter (ofModel q)

/-- The same without a threshold, or with one of zero : all rows of the provider and the model to
the end of the page are wanted, if any is on it. -/
structure SufficesPlainly : Prop where
  ends : (wanted index store q under).length ≤ q.offset + q.pageSize
  sampled : q.offset < (wanted index store q under).length → embeddingsExist store q = true
  rows : embeddingsExist store q = true → q.pageSize = 0 ∨
    (modelRows index store q).length ≤ q.offset ∨
      ∀ row ∈ (modelRows index store q).take (q.offset + q.pageSize),
        isWanted index store q under row = true

end Search

/-! ## The answer -/

section Answer

variable {index : VectorIndex} {store : Store} {q : Query} {under : String → String → Bool}

theorem candidates_subset (index : VectorIndex) (query : List F32) (table : ChunkTable) :
    index.candidates query table ⊆ table.rows := fun _ hrow =>
  List.mem_of_mem_filter ((index.nearest_perm query _).subset hrow)

theorem wanted_subset :
    wanted index store q under ⊆ store.chunks.rows := fun _ hrow =>
  candidates_subset index _ _ (List.mem_of_mem_filter hrow)

variable {rows : List ChunkRow}

/-- Selected rows are candidates, in their order. -/
theorem selected_sublist (h : selected index store q = some rows) :
    rows.Sublist (index.candidates q.embedding store.chunks) := by
  obtain ⟨selects, -, rfl⟩ := Option.map_eq_some_iff.1 h
  exact List.filter_sublist

theorem candidates_nodup (index : VectorIndex) (query : List F32) (table : ChunkTable) :
    ((index.candidates query table).map ChunkRow.id).Nodup :=
  ((index.nearest_perm query _).map _).nodup_iff.2 (table.nodup.sublist (List.filter_sublist.map _))

/-- Nothing is fetched twice. -/
theorem deduplicateById_take (h : selected index store q = some rows) (k : ℕ) :
    deduplicateById (rows.take k) = rows.take k := by
  have hsub := (List.take_sublist k rows).trans (selected_sublist h)
  exact keepFirst_eq_self ((candidates_nodup index _ _).sublist (hsub.map _))
    fun _ _ => ⟨rfl, List.not_mem_nil⟩

theorem searchSemantic_of_not_sampled (h : embeddingsExist store q = false) :
    searchSemantic index store q = some ([], ⟨q.offset, 0, false, 0⟩) := by
  unfold searchSemantic
  simp only [h, Bool.not_false, if_true, ite_self]

/-- The page is cut from the selected rows, and none is said to remain. -/
theorem searchSemantic_of_sampled (h : embeddingsExist store q = true) :
    searchSemantic index store q = (selected index store q).map fun rows =>
      let page := slice rows q.pageSize q.offset
      (page.map (Found.ofRow index store q),
        ⟨q.offset, page.length, false, (rows.take (q.offset + q.pageSize)).length⟩) := by
  have hne : store.chunks.rows ≠ [] := by
    intro hnil
    rw [embeddingsExist, hnil] at h
    cases h
  unfold searchSemantic
  rw [if_neg hne, if_neg (by simp [h])]
  cases hrows : selected index store q with
  | none => rfl
  | some rows =>
    have hmore : ¬q.offset + q.pageSize < (rows.take (q.offset + q.pageSize)).length := by
      rw [List.length_take]
      omega
    simp only [Option.map_some, deduplicateById_take hrows, Nat.add_comm q.pageSize,
      slice_take, decide_eq_false hmore]

/-- Results tell the rows that they are of. -/
theorem map_ofRow_inj {l l' : List ChunkRow} (hl : l ⊆ store.chunks.rows)
    (hl' : l' ⊆ store.chunks.rows) :
    l.map (Found.ofRow index store q) = l'.map (Found.ofRow index store q) ↔ l = l' := by
  refine ⟨fun h => store.chunks.eq_of_map_key hl hl' ?_, congrArg _⟩
  have hids := congrArg (List.map Found.chunkId) h
  rw [List.map_map, List.map_map] at hids
  exact hids

theorem nodup_candidates (index : VectorIndex) (query : List F32) (table : ChunkTable) :
    (index.candidates query table).Nodup := (candidates_nodup index query table).of_map _

/-- The page that is cut is the right one exactly when the filters are accepted and fit. -/
theorem fits_iff :
    (∃ rows, selected index store q = some rows ∧ slice rows q.pageSize q.offset =
        slice (wanted index store q under) q.pageSize q.offset) ↔
      ∃ selects, index.selects (wheres index q) = some selects ∧ Fits index store q under fun row =>
        selects (distanceOf index.distance q.embedding row) row := by
  have hpage : ∀ selects : ChunkRow → Bool, _ := fun selects =>
    slice_filter_eq_iff selects (isWanted index store q under) q.pageSize q.offset
      (nodup_candidates index q.embedding store.chunks)
  constructor
  · rintro ⟨rows, hrows, heq⟩
    obtain ⟨selects, hselects, rfl⟩ := Option.map_eq_some_iff.1 hrows
    exact ⟨selects, hselects, (hpage _).1 heq⟩
  · rintro ⟨selects, hselects, hfits⟩
    exact ⟨_, Option.map_eq_some_iff.2 ⟨selects, hselects, rfl⟩, (hpage _).2 hfits⟩

/-! ## Results -/

/-- The answer is the page exactly when no wanted row is behind it, the sample does not hide one
that is on it, and the right page is cut. -/
theorem isPage_iff (index : VectorIndex) (store : Store) (q : Query)
    (under : String → String → Bool) :
    IsPage index store q under (searchSemantic index store q) ↔
      (wanted index store q under).length ≤ q.offset + q.pageSize ∧
        (q.offset < (wanted index store q under).length → embeddingsExist store q = true) ∧
          (embeddingsExist store q = true → ∃ rows, selected index store q = some rows ∧
            slice rows q.pageSize q.offset =
              slice (wanted index store q under) q.pageSize q.offset) := by
  cases hsample : embeddingsExist store q with
  | false =>
    rw [searchSemantic_of_not_sampled hsample]
    have hslice : slice (wanted index store q under) q.pageSize q.offset = [] ∧
        (wanted index store q under).length ≤ q.offset + q.pageSize ↔
          (wanted index store q under).length ≤ q.offset := by
      rw [← List.length_eq_zero_iff, slice, List.length_take, List.length_drop]
      omega
    constructor
    · rintro ⟨results, pagination, heq, hpage, hmore⟩
      obtain ⟨rfl, rfl⟩ := Prod.mk.inj (Option.some.inj heq)
      have hends : (wanted index store q under).length ≤ q.offset + q.pageSize :=
        not_lt.1 fun hlt => absurd (hmore.2 hlt) Bool.false_ne_true
      have hle := hslice.1 ⟨List.map_eq_nil_iff.1 hpage.symm, hends⟩
      exact ⟨hends, fun hlt => absurd hlt (not_lt.2 hle), fun h => absurd h Bool.false_ne_true⟩
    · rintro ⟨hends, hsampled, -⟩
      have hle : (wanted index store q under).length ≤ q.offset :=
        not_lt.1 fun hlt => absurd (hsampled hlt) Bool.false_ne_true
      refine ⟨_, _, rfl, ?_, fun h => absurd h Bool.false_ne_true,
        fun hlt => absurd hlt (not_lt.2 hends)⟩
      rw [(hslice.2 hle).1]
      rfl
  | true =>
    rw [searchSemantic_of_sampled hsample]
    constructor
    · rintro ⟨results, pagination, heq, hpage, hmore⟩
      obtain ⟨rows, hrows, hanswer⟩ := Option.map_eq_some_iff.1 heq
      obtain ⟨rfl, rfl⟩ := Prod.mk.inj hanswer
      have hends : (wanted index store q under).length ≤ q.offset + q.pageSize :=
        not_lt.1 fun hlt => absurd (hmore.2 hlt) Bool.false_ne_true
      refine ⟨hends, fun _ => rfl, fun _ => ⟨rows, hrows, (map_ofRow_inj ?_ ?_).1 hpage⟩⟩
      · intro row hrow
        exact candidates_subset index _ _ ((selected_sublist hrows).subset
          (List.mem_of_mem_drop (List.mem_of_mem_take hrow)))
      · intro row hrow
        exact wanted_subset (List.mem_of_mem_drop (List.mem_of_mem_take hrow))
    · rintro ⟨hends, -, hsame⟩
      obtain ⟨rows, hrows, hpage⟩ := hsame rfl
      rw [hrows]
      refine ⟨_, _, rfl, ?_, fun h => absurd h Bool.false_ne_true,
        fun hlt => absurd hlt (not_lt.2 hends)⟩
      simp only [hpage]

/-- Without a threshold, or with one of zero, the rows of the provider and model are selected. -/
theorem selected_of_plain (hprovider : QuoteFree q.provider) (hmodel : QuoteFree q.model)
    (hthreshold : q.threshold.filter (· ≠ 0) = none) :
    selected index store q = some (modelRows index store q) := by
  rw [selected, wheres, hthreshold]
  simp only [Option.map_none, Option.toList_none, index.selects_embedded _ _ hprovider hmodel,
    Option.map_some, Option.some_inj]
  refine List.filter_congr fun row hrow => ?_
  have hvector : row.embedding.isSome = true :=
    (List.mem_filter.1 ((index.nearest_perm _ _).subset hrow)).2
  simp [ofModel, hvector]

/-- The wanted rows are some of the provider and the model. -/
theorem wanted_eq_filter : wanted index store q under =
    (modelRows index store q).filter (isWanted index store q under) := by
  rw [modelRows, List.filter_filter]
  refine List.filter_congr fun row _ => ?_
  cases hwanted : isWanted index store q under row with
  | false => rfl
  | true =>
    simp only [isWanted, Bool.and_eq_true] at hwanted
    rw [hwanted.1.1, Bool.and_true]

/-- The answer is the page of the wanted rows exactly when none of them is behind it, the sample
does not hide those on it, and the filters fit it. Without a threshold, or with one of zero, the
filters fit when all rows of the provider and the model to the end of the page are wanted. -/
theorem search_iff (index : VectorIndex) (store : Store) (q : Query)
    (under : String → String → Bool) :
    (IsPage index store q under (searchSemantic index store q) ↔
      Suffices index store q under) ∧
    (QuoteFree q.provider → QuoteFree q.model → q.threshold.filter (· ≠ 0) = none →
      (IsPage index store q under (searchSemantic index store q) ↔
        SufficesPlainly index store q under)) := by
  rw [isPage_iff]
  constructor
  · constructor
    · rintro ⟨hends, hsampled, hpage⟩
      exact ⟨hends, hsampled, fun hsample => fits_iff.1 (hpage hsample)⟩
    · rintro ⟨hends, hsampled, hfilters⟩
      exact ⟨hends, hsampled, fun hsample => fits_iff.2 (hfilters hsample)⟩
  · intro hprovider hmodel hthreshold
    have hrows : (∃ rows, selected index store q = some rows ∧ slice rows q.pageSize q.offset =
          slice (wanted index store q under) q.pageSize q.offset) ↔
        q.pageSize = 0 ∨ (modelRows index store q).length ≤ q.offset ∨
          ∀ row ∈ (modelRows index store q).take (q.offset + q.pageSize),
            isWanted index store q under row = true := by
      rw [selected_of_plain hprovider hmodel hthreshold, wanted_eq_filter]
      simp only [Option.some_inj, exists_eq_left']
      exact slice_eq_filter_iff ((nodup_candidates index _ _).filter _)
    rw [hrows]
    exact ⟨fun ⟨hends, hsampled, hfits⟩ => ⟨hends, hsampled, hfits⟩,
      fun ⟨hends, hsampled, hfits⟩ => ⟨hends, hsampled, hfits⟩⟩

end Answer

/-- The text of a provider and a model without quotes tells both. -/
theorem embeddedWhere_inj {provider model provider' model' : String}
    (hprovider : QuoteFree provider) (hmodel : QuoteFree model) (hprovider' : QuoteFree provider')
    (hmodel' : QuoteFree model') : embeddedWhere provider model = embeddedWhere provider' model' ↔
      provider = provider' ∧ model = model' := by
  have hsplit : ∀ {a a' b b' : List Char}, '\'' ∉ a → '\'' ∉ a' →
      a ++ '\'' :: b = a' ++ '\'' :: b' → a = a' ∧ b = b' := fun {a a' b b'} ha ha' h => by
    have hnot : ∀ {t : List Char}, '\'' ∉ t → ∀ c ∈ t, decide (c ≠ '\'') = true :=
      fun {t} ht c hc => decide_eq_true fun heq => ht (heq ▸ hc)
    have htake := congrArg (List.takeWhile (· ≠ '\'')) h
    rw [List.takeWhile_append_of_pos (hnot ha), List.takeWhile_append_of_pos (hnot ha')] at htake
    simp only [List.takeWhile_cons, ne_eq, not_true_eq_false, decide_false, Bool.false_eq_true,
      if_false, List.append_nil] at htake
    subst htake
    exact ⟨rfl, (List.cons.inj (List.append_cancel_left h)).2⟩
  constructor
  · intro h
    have hchars := congrArg String.toList h
    simp only [embeddedWhere, String.toList_append, List.append_assoc] at hchars
    obtain ⟨hp, hrest⟩ := hsplit hprovider hprovider' (List.append_cancel_left hchars)
    obtain ⟨hm, -⟩ := hsplit hmodel hmodel' (List.append_cancel_left hrest)
    exact ⟨String.toList_inj.1 hp, String.toList_inj.1 hm⟩
  · rintro ⟨rfl, rfl⟩
    rfl

/-- The filter that a text without quotes in the names stands for. -/
def readWhere (text : String) (row : ChunkRow) : Bool :=
  match row.provider, row.model with
  | some provider, some model =>
    QuoteFree provider && QuoteFree model && text = embeddedWhere provider model &&
      row.embedding.isSome
  | _, _ => false

theorem readWhere_embedded {provider model : String} (hprovider : QuoteFree provider)
    (hmodel : QuoteFree model) (row : ChunkRow) :
    readWhere (embeddedWhere provider model) row =
      (row.provider = some provider && row.model = some model && row.embedding.isSome) := by
  unfold readWhere
  split
  · rename_i p m hp hm
    rw [hp, hm, Bool.eq_iff_iff]
    simp only [Bool.and_eq_true, decide_eq_true_eq, Option.some_inj]
    constructor
    · rintro ⟨⟨⟨hpq, hmq⟩, htext⟩, hsome⟩
      obtain ⟨rfl, rfl⟩ := (embeddedWhere_inj hprovider hmodel hpq hmq).1 htext
      exact ⟨⟨rfl, rfl⟩, hsome⟩
    · rintro ⟨⟨rfl, rfl⟩, hsome⟩
      exact ⟨⟨⟨hprovider, hmodel⟩, rfl⟩, hsome⟩
  · rename_i hnone
    rw [eq_comm, Bool.eq_false_iff]
    simp only [ne_eq, Bool.and_eq_true, decide_eq_true_eq]
    rintro ⟨⟨hp, hm⟩, -⟩
    exact hnone _ _ hp hm

/-- Vectors that are the same have no distance, and others have one. Only a filter for a provider
and a model is read. -/
def exactIndex : VectorIndex where
  distance v w := if v = w then 0 else 1
  nearest query rows :=
    rank (fun row => -distanceOf (fun v w => if v = w then 0 else 1) query row) rows
  selects texts := match texts with
    | [text] => some fun _ => readWhere text
    | _ => none
  str t := toString t
  nearest_perm _ rows := rank_perm _ rows
  nearest_sorted _ rows := (rank_sorted _ rows).imp neg_le_neg_iff.1
  selects_embedded _ _ hprovider hmodel :=
    congrArg some (funext fun _ => funext fun row => readWhere_embedded hprovider hmodel row)

/-- The row of a chunk with the vector of `1.0`. -/
def embeddedRow (id : ℤ) : ChunkRow :=
  { insertedRow polynomialHash (ChunkInsertion.chunkX, 0) with
    id := id
    embedding := some [0x3f800000]
    provider := some "p"
    model := some "m" }

def twoEmbedded : Store where
  files := []
  chunks := ⟨[embeddedRow 1, embeddedRow 2], by decide⟩

def firstOfTwo : Query where
  embedding := [0x3f800000]
  provider := "p"
  model := "m"
  pageSize := 1
  offset := 0
  threshold := none
  pathFilter := none

/-- Of two rows the first page has one, and says that none remains. -/
theorem first_page_ends : ¬IsPage exactIndex twoEmbedded firstOfTwo (fun _ _ => true)
    (searchSemantic exactIndex twoEmbedded firstOfTwo) := by
  rintro ⟨results, pagination, heq, -, hmore⟩
  have hsample : embeddingsExist twoEmbedded firstOfTwo = true := by decide +kernel
  have htwo : (wanted exactIndex twoEmbedded firstOfTwo fun _ _ => true).length = 2 := by
    decide +kernel
  rw [searchSemantic_of_sampled hsample] at heq
  obtain ⟨rows, -, hanswer⟩ := Option.map_eq_some_iff.1 heq
  obtain ⟨-, rfl⟩ := Prod.mk.inj hanswer
  rw [htwo] at hmore
  exact nomatch hmore.2 (by decide)

end ChunkHound.Lance
