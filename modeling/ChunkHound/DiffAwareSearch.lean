import ChunkHound.Paging
import ChunkHound.PathFilters
import ChunkHound.Ranking
import Mathlib

/-!
# Search with a diff

`DiffAwareSearchService` of `diff_aware_search_service.py` searches the chunks of a diff in memory,
and in its mode `both` merges them into what the database found. The chunks of the diff are reduced
to the best for each id, and hide what the database has at their locations. Of the rest the best
for each location stays. The threshold comes last : a chunk of the diff below it hides a location
all the same (`hidden_by_low_diff`).

The merged list has what is to be kept, once, in order (`merged_spec`), and its pages are a
partition (`both_pages`).

Scores are of any linear order. `argsort` puts the indices of a list into an order by score, in
which it may place equal ones as it likes.
-/

set_option linter.unusedSectionVars false

namespace ChunkHound.DiffAwareSearch

open Paging PathFilters Ranking

variable {S : Type*}

/-! ## Records -/

structure DiffChunk where
  filePath : Option (List Char)
  startLine : ℤ
  endLine : ℤ
  symbol : String
  code : String
  language : String
  chunkType : String
  deriving DecidableEq

/-- A search result. An entry may be missing. -/
structure Result (S : Type*) where
  chunkId : Option String
  filePath : Option (List Char)
  content : Option String
  startLine : Option ℤ
  endLine : Option ℤ
  symbol : Option String
  language : Option String
  chunkType : Option String
  similarity : Option S
  score : Option S
  distance : Option S
  deriving DecidableEq

/-- `f"diff:{chunk.file_path}:{chunk.start_line}:{chunk.symbol}"` -/
def diffId (c : DiffChunk) : String :=
  "diff:" ++ c.filePath.elim "None" String.ofList ++ ":" ++ toString c.startLine ++ ":" ++ c.symbol

/-- `_chunk_to_dict` -/
def chunkToDict (c : DiffChunk) (score : S) : Result S where
  chunkId := some (diffId c)
  filePath := c.filePath
  content := some c.code
  startLine := some c.startLine
  endLine := some c.endLine
  symbol := some c.symbol
  language := some c.language
  chunkType := some c.chunkType
  similarity := some score
  score := some score
  distance := none

namespace Result

/-- `str(r.get("chunk_id", ""))` -/
def id (r : Result S) : String := r.chunkId.getD ""

/-- `float(r.get("score", 0.0))` -/
def scoreOf [Zero S] (r : Result S) : S := r.score.getD 0

/-- `(r.get("file_path"), r.get("start_line"))` -/
def location (r : Result S) : Option (List Char) × Option ℤ := (r.filePath, r.startLine)

/-- The score that a result of the database gets. `oneMinus` is `1.0 - d`. -/
def normalise (oneMinus : S → S) (r : Result S) : Result S :=
  match r.distance, r.similarity, r.score with
  | some d, none, _ => { r with similarity := some (oneMinus d), score := some (oneMinus d) }
  | _, some s, none => { r with score := some s }
  | _, _, _ => r

end Result

/-- The chunks of the diff with the similarities of their embeddings to a query. -/
structure Service (S : Type*) where
  diffChunks : List DiffChunk
  similarities : Option (List S)

/-- `__init__`, which clamps both lists to the shorter one. -/
def Service.init (diffChunks : List DiffChunk) (similarities : List S) : Service S :=
  if similarities = [] then ⟨diffChunks, none⟩
  else
    let m := min similarities.length diffChunks.length
    ⟨diffChunks.take m, some (similarities.take m)⟩

/-! ## Searches -/

section Search

variable [LE S] [DecidableLE S]

/-- The chunks in the order of `np.argsort(scores)[::-1]`, with their scores. -/
def ranked (argsort : List S → List ℕ) (chunks : List DiffChunk) (scores : List S) :
    List (DiffChunk × S) :=
  (argsort scores).reverse.filterMap fun i => (chunks.zip scores)[i]?

/-- `_search_diff`. The error is the forbidden pattern of the filter. -/
def searchDiff (argsort : List S → List ℕ) (service : Service S) (pageSize offset : ℕ)
    (threshold : Option S) (pathFilter : Option (List Char)) :
    Except (List Char) (Page (Result S)) :=
  match service.similarities with
  | none => .ok ⟨[], false, none⟩
  | some scores =>
    if service.diffChunks = [] then .ok ⟨[], false, none⟩
    else
      (diffPrefix pathFilter).map fun pf =>
        let found := (ranked argsort service.diffChunks scores).filter fun e =>
          (pf.all fun pf => e.1.filePath.any fun path => pf.isPrefixOf path) ∧
            threshold.all fun t => t ≤ e.2
        let results := found.map fun e => chunkToDict e.1 e.2
        page results results.length pageSize offset

end Search

variable [LinearOrder S] [Zero S]

/-- What the mode `both` makes of the results of the diff and those of the database. -/
def merge (oneMinus : S → S) (diffResults dbResults : List (Result S)) (threshold : Option S) :
    List (Result S) :=
  let kept := keepFirst Result.id (fun _ => false) [] (rank Result.scoreOf diffResults)
  let diffLocations := kept.map Result.location
  let keptDb := keepFirst Result.location (fun loc => diffLocations.contains loc) []
    (rank Result.scoreOf (dbResults.map (Result.normalise oneMinus)))
  let deduped := rank Result.scoreOf (kept ++ keptDb)
  deduped.filter fun r => threshold.all fun t => t ≤ r.scoreOf

/-- `search_semantic` in the mode `both`, given what the original service found, unpaged. -/
def searchBoth (argsort : List S → List ℕ) (oneMinus : S → S) (service : Service S)
    (dbResults : List (Result S)) (pageSize offset : ℕ) (threshold : Option S)
    (pathFilter : Option (List Char)) : Except (List Char) (Page (Result S)) :=
  let diffFetch := if service.diffChunks = [] then offset + pageSize
    else service.diffChunks.length
  (searchDiff argsort service diffFetch 0 none pathFilter).map fun diff =>
    let merged := merge oneMinus diff.items dbResults threshold
    page merged merged.length pageSize offset

/-! ## The merged list -/

/-- What the merged list has of the results of the diff and of the database. `kept` is the best of
the diff for each id. -/
structure Merged (threshold : Option S) (diff db kept merged : List (Result S)) : Prop where
  kept_sub : ∀ d ∈ kept, d ∈ diff
  kept_ids : (kept.map Result.id).Nodup
  kept_best : ∀ d ∈ diff, ∃ d' ∈ kept, d'.id = d.id ∧ d.scoreOf ≤ d'.scoreOf
  of_diff : ∀ d ∈ kept, (∀ t ∈ threshold, t ≤ d.scoreOf) → d ∈ merged
  of_db : ∀ b ∈ db, (∀ t ∈ threshold, t ≤ b.scoreOf) → (∀ d ∈ kept, d.location ≠ b.location) →
    ∃ b' ∈ merged, b' ∈ db ∧ b'.location = b.location ∧ b.scoreOf ≤ b'.scoreOf
  only : ∀ r ∈ merged, (∀ t ∈ threshold, t ≤ r.scoreOf) ∧
    (r ∈ kept ∨ r ∈ db ∧ ∀ d ∈ kept, d.location ≠ r.location)
  db_once : ∀ b ∈ merged, ∀ b' ∈ merged, b ∉ kept → b' ∉ kept → b.location = b'.location → b = b'
  nodup : merged.Nodup
  sorted : merged.Pairwise fun a b => b.scoreOf ≤ a.scoreOf

/-- The best of the diff for each id. -/
def keptOf (diff : List (Result S)) : List (Result S) :=
  keepFirst Result.id (fun _ => false) [] (rank Result.scoreOf diff)

theorem merged_spec (oneMinus : S → S) (diff dbResults : List (Result S)) (threshold : Option S) :
    Merged threshold diff (dbResults.map (Result.normalise oneMinus)) (keptOf diff)
      (merge oneMinus diff dbResults threshold) := by
  have hsorted := rank_sorted Result.scoreOf diff
  set db := dbResults.map (Result.normalise oneMinus)
  have hdbSorted := rank_sorted Result.scoreOf db
  set keptDb := keepFirst Result.location
    (fun loc => ((keptOf diff).map Result.location).contains loc) [] (rank Result.scoreOf db)
    with hkeptDb
  have hmem : ∀ r, r ∈ merge oneMinus diff dbResults threshold ↔
      (r ∈ keptOf diff ∨ r ∈ keptDb) ∧ ∀ t ∈ threshold, t ≤ r.scoreOf := by
    intro r
    simp only [merge, List.mem_filter, mem_rank, List.mem_append, Option.all_eq_true,
      decide_eq_true_eq]
    rfl
  have hdbOf : ∀ r ∈ keptDb, r ∈ db ∧ ∀ d ∈ keptOf diff, d.location ≠ r.location := by
    intro r hr
    refine ⟨mem_rank.1 ((keepFirst_sublist _ _).subset hr), fun d hd heq => ?_⟩
    have hskip := (key_of_mem_keepFirst hr).1
    simp only [List.contains_eq_mem, decide_eq_false_iff_not] at hskip
    exact hskip (heq ▸ List.mem_map_of_mem hd)
  have hfree : ∀ b : Result S, (∀ d ∈ keptOf diff, d.location ≠ b.location) →
      ((keptOf diff).map Result.location).contains b.location = false := by
    intro b hloc
    simpa using hloc
  have hlocs : (keptDb.map Result.location).Nodup := keepFirst_keys_nodup _ _
  have hids : ((keptOf diff).map Result.id).Nodup := keepFirst_keys_nodup _ _
  exact
    { kept_sub := fun d hd => mem_rank.1 ((keepFirst_sublist _ _).subset hd)
      kept_ids := hids
      kept_best := fun d hd =>
        exists_best hsorted (mem_rank.2 hd) rfl List.not_mem_nil
      of_diff := fun d hd ht => (hmem d).2 ⟨Or.inl hd, ht⟩
      of_db := fun b hb ht hloc => by
        obtain ⟨b', hb', hloc', hscore⟩ :=
          exists_best hdbSorted (mem_rank.2 hb) (hfree b hloc) List.not_mem_nil
        exact ⟨b', (hmem b').2 ⟨Or.inr hb', fun t hmt => (ht t hmt).trans hscore⟩,
          (hdbOf b' hb').1, hloc', hscore⟩
      only := fun r hr => by
        obtain ⟨hr, ht⟩ := (hmem r).1 hr
        exact ⟨ht, hr.imp_right (hdbOf r)⟩
      db_once := fun b hb b' hb' hnot hnot' heq => by
        have hin := ((hmem b).1 hb).1.resolve_left hnot
        have hin' := ((hmem b').1 hb').1.resolve_left hnot'
        exact List.inj_on_of_nodup_map hlocs hin hin' heq
      nodup := by
        refine List.Nodup.filter _ ((rank_perm _ _).nodup_iff.2 ?_)
        refine List.Nodup.append hids.of_map hlocs.of_map fun r hr hr' => ?_
        exact (hdbOf r hr').2 r hr rfl
      sorted := (rank_sorted _ _).filter _ }

/-! ## What the diff gives -/

/-- The chunk is below the prefix of the filter, if there is one. -/
def inPrefix (pf : Option (List Char)) (c : DiffChunk) : Bool :=
  pf.all fun pf => c.filePath.any fun path => pf.isPrefixOf path

/-- The results of all chunks of the diff below the prefix. -/
def diffFound (service : Service S) (pf : Option (List Char)) : List (Result S) :=
  match service.similarities with
  | none => []
  | some scores => ((service.diffChunks.zip scores).filter fun e => inPrefix pf e.1).map
      fun e => chunkToDict e.1 e.2

theorem filterMap_getElem?_range {α : Type*} (l : List α) :
    (List.range l.length).filterMap (fun i => l[i]?) = l := by
  induction l using List.reverseRecOn with
  | nil => rfl
  | append_singleton l a ih =>
    have hinit : (List.range l.length).filterMap (fun i => (l ++ [a])[i]?) = l := by
      conv_rhs => rw [← ih]
      refine List.filterMap_congr fun i hi => ?_
      exact List.getElem?_append_left (List.mem_range.1 hi)
    rw [List.length_append, List.length_singleton, List.range_succ, List.filterMap_append, hinit]
    simp

variable {argsort : List S → List ℕ}

/-- Every chunk has its place in the order. -/
theorem ranked_perm
    (hargsort : ∀ l, (argsort l).Perm (List.range l.length)) {chunks : List DiffChunk}
    {scores : List S} (hlen : scores.length = chunks.length) :
    (ranked argsort chunks scores).Perm (chunks.zip scores) := by
  have hzip : (chunks.zip scores).length = scores.length := by
    rw [List.length_zip]
    omega
  have hperm := ((argsort scores).reverse_perm.trans (hargsort scores)).filterMap
    fun i => (chunks.zip scores)[i]?
  rwa [← hzip, filterMap_getElem?_range] at hperm

theorem init_length (diffChunks : List DiffChunk) (similarities : List S) :
    ∀ scores ∈ (Service.init diffChunks similarities).similarities,
      scores.length = (Service.init diffChunks similarities).diffChunks.length := by
  unfold Service.init
  split
  · exact nofun
  · intro scores hscores
    obtain rfl := Option.some.inj hscores
    simp only [List.length_take]
    omega

variable {service : Service S}

/-- A diff without chunks is not asked. -/
theorem searchDiff_of_nil
    (h : service.diffChunks = []) (pageSize : ℕ) (pathFilter : Option (List Char)) :
    searchDiff argsort service pageSize 0 none pathFilter = .ok ⟨[], false, none⟩ := by
  unfold searchDiff
  split
  · rfl
  · rw [if_pos h]

/-- With a page that holds all of them, the search of the diff finds every chunk below the
prefix. -/
theorem searchDiff_all
    (hargsort : ∀ l, (argsort l).Perm (List.range l.length))
    (hlen : ∀ scores ∈ service.similarities, scores.length = service.diffChunks.length)
    {pageSize : ℕ} (hsize : service.diffChunks.length ≤ pageSize)
    {pathFilter pf : Option (List Char)} (hpf : diffPrefix pathFilter = .ok pf) :
    ∃ diff, searchDiff argsort service pageSize 0 none pathFilter = .ok diff ∧
      diff.items.Perm (diffFound service pf) := by
  unfold searchDiff diffFound
  cases hscores : service.similarities with
  | none => exact ⟨_, rfl, List.Perm.refl _⟩
  | some scores =>
    dsimp only
    split
    · rename_i hnil
      refine ⟨_, rfl, ?_⟩
      simp [hnil]
    · rw [hpf]
      refine ⟨_, rfl, ?_⟩
      have hperm := ((ranked_perm hargsort (hlen scores hscores)).filter
        fun e => inPrefix pf e.1).map fun e => chunkToDict e.1 e.2
      have hbound := hperm.length_eq
      rw [List.length_map, List.length_map] at hbound
      have hzip := List.length_filter_le (fun e => inPrefix pf e.1) (service.diffChunks.zip scores)
      rw [List.length_zip] at hzip
      simp only [page, slice, List.drop_zero, Option.all_none, and_true, Bool.decide_eq_true]
      rw [List.take_of_length_le]
      · exact hperm
      · rw [List.length_map]
        exact hbound.le.trans (by omega)

/-- The order in which the results of the diff come does not matter. -/
theorem Merged.of_perm {threshold : Option S} {diff diff' db kept merged : List (Result S)}
    (h : Merged threshold diff db kept merged) (hperm : diff.Perm diff') :
    Merged threshold diff' db kept merged :=
  { h with
    kept_sub := fun d hd => hperm.subset (h.kept_sub d hd)
    kept_best := fun d hd => h.kept_best d (hperm.symm.subset hd) }

/-! ## Results -/

/-- With a filter that is not refused, the mode `both` has one merged list, whatever the page, and
its pages are a partition of it. -/
theorem both_pages {argsort : List S → List ℕ}
    (hargsort : ∀ l, (argsort l).Perm (List.range l.length)) (oneMinus : S → S)
    (diffChunks : List DiffChunk) (similarities : List S) (dbResults : List (Result S))
    {pageSize : ℕ} (hsize : 0 < pageSize) (threshold : Option S)
    {pathFilter pf : Option (List Char)} (hpf : diffPrefix pathFilter = .ok pf) :
    ∃ kept merged,
      Merged threshold (diffFound (.init diffChunks similarities) pf)
        (dbResults.map (Result.normalise oneMinus)) kept merged ∧
      (∀ offset, searchBoth argsort oneMinus (.init diffChunks similarities) dbResults pageSize
        offset threshold pathFilter = .ok (page merged merged.length pageSize offset)) ∧
      ∀ offset, Partitions (fun _ o => page merged merged.length pageSize o) offset
        (merged.drop offset) := by
  have hlen := init_length diffChunks similarities
  generalize Service.init diffChunks similarities = service at hlen ⊢
  obtain ⟨diff, hdiff, hperm⟩ := searchDiff_all hargsort hlen (Nat.le_refl _) hpf
  have hspec := (merged_spec oneMinus diff.items dbResults threshold).of_perm hperm
  refine ⟨_, _, hspec, fun offset => ?_, fun offset => partitions_same hspec.nodup hsize offset⟩
  have hsame : searchDiff argsort service
      (if service.diffChunks = [] then offset + pageSize else service.diffChunks.length) 0 none
      pathFilter = .ok diff := by
    split
    · rename_i hnil
      rw [searchDiff_of_nil hnil] at hdiff ⊢
      exact hdiff
    · exact hdiff
  rw [searchBoth, hsame]
  rfl

/-- A chunk of the diff in a file. -/
def lowChunk : DiffChunk := ⟨some ['a'], 1, 1, "f", "x = 1", "python", "function"⟩

/-- What the database has at the same place. -/
def storedChunk : Result ℤ where
  chunkId := some "7"
  filePath := some ['a']
  content := some "x = 1"
  startLine := some 1
  endLine := some 1
  symbol := some "f"
  language := some "python"
  chunkType := some "function"
  similarity := some 9
  score := none
  distance := none

/-- The stored chunk is found with score 9, if the diff has nothing. -/
theorem both_pages_stored :
    (∀ l : List ℤ, (List.range l.length).Perm (List.range l.length)) ∧ 0 < 1 ∧
      diffPrefix none = .ok none ∧
      ∃ kept merged, Merged (some 5) (diffFound (.init [] []) none)
          ([storedChunk].map (Result.normalise fun d => 1 - d)) kept merged ∧
        (∀ offset, searchBoth (fun l => List.range l.length) (fun d => 1 - d) (.init [] [])
          [storedChunk] 1 offset (some 5) none = .ok (page merged merged.length 1 offset)) ∧
        ∀ offset, Partitions (fun _ o => page merged merged.length 1 o) offset
          (merged.drop offset) :=
  ⟨fun _ => .refl _, by decide, rfl,
    both_pages (fun _ => .refl _) (fun d => 1 - d) [] [] [storedChunk] (by decide) (some 5) rfl⟩

/-- A chunk of the diff with score 0 hides the stored one, and is itself below the threshold. -/
theorem hidden_by_low_diff :
    searchBoth (fun l => List.range l.length) (fun d => 1 - d) (.init [lowChunk] [0]) [storedChunk]
      10 0 (some 5) none = .ok ⟨[], false, none⟩ ∧
    (∀ t ∈ some (5 : ℤ), t ≤ (storedChunk.normalise fun d => 1 - d).scoreOf) := by
  decide

end ChunkHound.DiffAwareSearch
