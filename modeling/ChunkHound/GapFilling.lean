import ChunkHound.ChunkDedup
import ChunkHound.GapSelection
import ChunkHound.Grouping
import ChunkHound.Packing

/-!
# Filling gaps in the coverage

The chunks that cover a question are clustered and sharded by tokens, and each shard is shown to a
model that names gaps. Every gap that is selected is filled by a search, whose results are kept from
a threshold on, and merged with the coverage.

* `shards_spec` : each chunk is in one shard, a shard is within the budget or has one chunk, and no
  division of the clusters in their order has fewer shards.
* `fill_spec` : whatever the searches find, and also where some fail, no chunk of the coverage is
  lost or gets worse, and all that comes in has at least the score of the threshold. A gap whose
  best chunk has it is never left empty by the threshold of its own.

The labels of the clusters and the results of the searches are arbitrary.
-/

namespace ChunkHound.GapFilling

open ChunkDedup GapSelection Grouping Packing Ranking

/-! ## Shards -/

section Shards

variable {α : Type*} (tokens : α → ℕ)

/-- `GAP_CLUSTER_TOKEN_BUDGET`. -/
def clusterTokenBudget : ℕ := 50000

/-- `_cluster_chunks_kmeans`. The labels are those of as many clusters as it asks for, none where
there are no embeddings or the clustering fails. -/
def clusterChunksKmeans (labels : ℕ → Option (List ℕ)) (chunks : List α) : List (List α) :=
  if chunks.length < 2 then [chunks]
  else
    let totalTokens := (chunks.map tokens).sum
    if totalTokens ≤ clusterTokenBudget then [chunks]
    else
      let numClusters := min ((totalTokens + clusterTokenBudget - 1) / clusterTokenBudget)
        chunks.length
      match labels numClusters with
      | none => [chunks]
      | some found =>
        (groupBy Prod.snd (chunks.zip found)).map fun cluster => cluster.2.map Prod.fst

/-- The shards that are full, and the current one with its tokens. -/
structure Sharding (α : Type*) where
  shards : List (List α)
  currentShard : List α
  currentTokens : ℕ

/-- A chunk is put into the current shard, or into a new one. -/
def place (shardBudget : ℕ) (s : Sharding α) (chunk : α) : Sharding α :=
  if shardBudget < s.currentTokens + tokens chunk ∧ s.currentShard ≠ [] then
    ⟨s.shards ++ [s.currentShard], [chunk], tokens chunk⟩
  else ⟨s.shards, s.currentShard ++ [chunk], s.currentTokens + tokens chunk⟩

/-- `_shard_by_tokens`. -/
def shardByTokens (shardBudget : ℕ) (clusterGroups : List (List α)) : List (List α) :=
  let s := clusterGroups.foldl (fun s cluster => cluster.foldl (place tokens shardBudget) s)
    ⟨[], [], 0⟩
  if s.currentShard = [] then s.shards else s.shards ++ [s.currentShard]

variable {tokens}

/-- The shards in front stay, the current one is packed on. -/
theorem foldl_place (shardBudget : ℕ) : ∀ (chunks : List α) (s : Sharding α),
    (if (chunks.foldl (place tokens shardBudget) s).currentShard = [] then
        (chunks.foldl (place tokens shardBudget) s).shards
      else (chunks.foldl (place tokens shardBudget) s).shards ++
        [(chunks.foldl (place tokens shardBudget) s).currentShard]) =
      s.shards ++ packFrom tokens shardBudget s.currentShard s.currentTokens chunks
  | [], s => by
    rw [List.foldl_nil, packFrom]
    split <;> simp
  | chunk :: chunks, s => by
    rw [List.foldl_cons, foldl_place shardBudget chunks, packFrom]
    by_cases h : shardBudget < s.currentTokens + tokens chunk ∧ s.currentShard ≠ []
    · rw [if_pos h, place, if_pos h, List.append_assoc, List.singleton_append]
    · rw [if_neg h, place, if_neg h]

theorem shardByTokens_eq_pack (shardBudget : ℕ) (clusterGroups : List (List α)) :
    shardByTokens tokens shardBudget clusterGroups =
      pack tokens shardBudget clusterGroups.flatten := by
  unfold shardByTokens
  dsimp only
  rw [← List.foldl_flatten, foldl_place]
  rfl

/-- The clusters are the chunks in another order. -/
theorem clusterChunksKmeans_perm {labels : ℕ → Option (List ℕ)} {chunks : List α}
    (h : ∀ n found, labels n = some found → found.length = chunks.length) :
    (clusterChunksKmeans tokens labels chunks).flatten.Perm chunks := by
  have hself : [chunks].flatten.Perm chunks := by simp
  unfold clusterChunksKmeans
  split
  · exact hself
  · dsimp only
    split
    · exact hself
    · split
      · exact hself
      · rename_i found hfound
        have hperm := (flatMap_groupBy_perm Prod.snd (chunks.zip found)).map Prod.fst
        rw [List.map_fst_zip (h _ _ hfound).ge] at hperm
        rw [List.flatten_eq_flatMap, List.flatMap_map]
        rw [List.map_flatMap] at hperm
        exact hperm

/-- Every chunk is in one shard, the shards are within the budget, and they are as few as can be. -/
theorem shards_spec {labels : ℕ → Option (List ℕ)} {chunks : List α} (shardBudget : ℕ)
    (h : ∀ n found, labels n = some found → found.length = chunks.length) :
    let clusters := clusterChunksKmeans tokens labels chunks
    let shards := shardByTokens tokens shardBudget clusters
    shards.flatten.Perm chunks ∧
    (∀ shard ∈ shards, shard ≠ [] ∧ ((shard.map tokens).sum ≤ shardBudget ∨ ∃ c, shard = [c])) ∧
    ∀ others : List (List α), others.flatten = clusters.flatten →
      (∀ shard ∈ others, (shard.map tokens).sum ≤ shardBudget ∨ ∃ c, shard = [c]) →
        shards.length ≤ others.length := by
  intro clusters shards
  have hshards : shards = pack tokens shardBudget clusters.flatten :=
    shardByTokens_eq_pack shardBudget clusters
  refine ⟨?_, fun shard hshard => ?_, fun others hothers hfits => ?_⟩
  · rw [hshards, flatten_pack]
    exact clusterChunksKmeans_perm h
  · rw [hshards] at hshard
    exact fits_pack hshard
  · rw [hshards, ← hothers]
    exact length_pack_le hfits

theorem shards_spec_two :
    (shardByTokens id 40000 (clusterChunksKmeans id (fun _ => some [0, 1, 0])
      [30000, 30000, 10])).flatten.Perm [30000, 30000, 10] :=
  (shards_spec 40000 (fun _ found h => by cases h; rfl)).1

end Shards

/-! ## Filling -/

/-- A chunk dictionary, with the scores as rationals. -/
abbrev ScoredChunk := ChunkDedup.Chunk ℚ

/-- `rerank_score`, which is 0 where there is none. -/
def rerankScoring : Scoring ℚ := ⟨"rerank_score", 0, none⟩

def rerankScore (chunk : ScoredChunk) : ℚ := rerankScoring.getScore chunk

/-- `compute_elbow_threshold`. -/
def computeElbowThreshold (ops : FloatOps) (scores : List ℚ) : ℚ :=
  if scores = [] then 1 / 2
  else
    let sortedScores := rank id scores
    let median := sortedScores.getD (sortedScores.length / 2) 0
    match findElbowKneedle ops sortedScores with
    | some elbowIdx =>
      if elbowIdx < sortedScores.length then sortedScores.getD elbowIdx 0 else median
    | none => median

/-- `_fill_single_gap`, on what the search has found. -/
def fillSingleGap (ops : FloatOps) (phase1Threshold : ℚ) (chunks : List ScoredChunk) :
    List ScoredChunk :=
  let gapThreshold :=
    if chunks = [] then phase1Threshold else computeElbowThreshold ops (chunks.map rerankScore)
  chunks.filter fun c => decide (max phase1Threshold gapThreshold ≤ rerankScore c)

/-- `_fill_gaps_serial`. A search that fails finds nothing. -/
def fillGapsSerial {γ : Type*} (ops : FloatOps) (phase1Threshold : ℚ)
    (search : γ → Option (List ScoredChunk)) (selectedGaps : List γ) : List (List ScoredChunk) :=
  selectedGaps.map fun gap =>
    match search gap with
    | some chunks => fillSingleGap ops phase1Threshold chunks
    | none => []

/-- `_global_dedup`. -/
def globalDedup (gapResults : List (List ScoredChunk)) : List ScoredChunk :=
  deduplicateChunks rerankScoring gapResults

/-- `_merge_coverage`. -/
def mergeCoverage (coveredChunks gapChunks : List ScoredChunk) : List ScoredChunk :=
  mergeChunkLists rerankScoring coveredChunks gapChunks

/-- `detect_and_fill_gaps`, from the gaps that are selected. The chunks of imported files come in
last. -/
def fillGaps {γ : Type*} (ops : FloatOps) (phase1Threshold : ℚ)
    (search : γ → Option (List ScoredChunk)) (imports : List ScoredChunk → List ScoredChunk)
    (coveredChunks : List ScoredChunk) (selectedGaps : List γ) : List ScoredChunk :=
  if selectedGaps = [] then coveredChunks
  else
    let gapResults := fillGapsSerial ops phase1Threshold search selectedGaps
    let allChunks := mergeCoverage coveredChunks (globalDedup gapResults)
    if imports allChunks = [] then allChunks else mergeCoverage allChunks (imports allChunks)

theorem getD_mem {l : List ℚ} {i : ℕ} (h : i < l.length) : l.getD i 0 ∈ l := by
  rw [List.getD_eq_getElem l 0 h]
  exact List.getElem_mem h

/-- The threshold is one of the scores. -/
theorem computeElbowThreshold_mem (ops : FloatOps) {scores : List ℚ} (h : scores ≠ []) :
    computeElbowThreshold ops scores ∈ scores := by
  have hlength : (rank id scores).length = scores.length := (rank_perm id scores).length_eq
  have hpos : 0 < scores.length := List.length_pos_iff.2 h
  have hmedian : (rank id scores).getD ((rank id scores).length / 2) 0 ∈ rank id scores :=
    getD_mem (by omega)
  unfold computeElbowThreshold
  rw [if_neg h]
  dsimp only
  split
  · split
    · rename_i hlt
      exact mem_rank.1 (getD_mem hlt)
    · exact mem_rank.1 hmedian
  · exact mem_rank.1 hmedian

variable {c : ScoredChunk}

variable {chunks : List ScoredChunk} {phase1Threshold : ℚ}

/-- What is kept of a gap has at least the score of the threshold. -/
theorem mem_fillSingleGap {ops : FloatOps} (h : c ∈ fillSingleGap ops phase1Threshold chunks) :
    c ∈ chunks ∧ phase1Threshold ≤ rerankScore c := by
  obtain ⟨hmem, hscore⟩ := List.mem_filter.1 h
  exact ⟨hmem, (le_max_left _ _).trans (of_decide_eq_true hscore)⟩

/-- The best chunk is kept where it has the score of the threshold. -/
theorem best_mem_fillSingleGap (ops : FloatOps) {best : ScoredChunk} (hmem : best ∈ chunks)
    (hbest : ∀ c ∈ chunks, rerankScore c ≤ rerankScore best)
    (hscore : phase1Threshold ≤ rerankScore best) :
    best ∈ fillSingleGap ops phase1Threshold chunks := by
  refine List.mem_filter.2 ⟨hmem, decide_eq_true (max_le hscore ?_)⟩
  rw [if_neg (List.ne_nil_of_mem hmem)]
  obtain ⟨c, hc, heq⟩ := List.mem_map.1 (computeElbowThreshold_mem ops
    (List.ne_nil_of_mem (List.mem_map_of_mem (f := rerankScore) hmem)))
  rw [← heq]
  exact hbest c hc

/-! ## Merging -/

theorem nodup_keys_mergeMap (base new : List ScoredChunk) :
    (OrderedDict.keys (mergeMap rerankScoring base new)).Nodup := by
  rw [keys_mergeMap]
  exact nodup_keys_dedupMap rerankScoring [base, new]

variable {base new : List ScoredChunk}

variable {id : ChunkId}

theorem truthy_of_mem_mergeMap
    (h : id ∈ OrderedDict.keys (mergeMap rerankScoring base new)) : id.truthy = true := by
  rw [keys_mergeMap] at h
  exact truthy_of_mem_keys h

theorem mem_mergeCoverage :
    c ∈ mergeCoverage base new ↔ ∃ id : ChunkId, id.truthy = true ∧
      ((withId id base).getLast?.toList ++ withId id new).argmax rerankScore = some c := by
  unfold mergeCoverage mergeChunkLists
  rw [OrderedDict.mem_values_iff (nodup_keys_mergeMap base new)]
  refine exists_congr fun id => ⟨fun h => ?_, fun h => ?_⟩
  · have htruthy := truthy_of_mem_mergeMap (OrderedDict.mem_keys_iff.2 ⟨c, h⟩)
    rw [lookup_mergeMap rerankScoring htruthy] at h
    exact ⟨htruthy, h⟩
  · rw [lookup_mergeMap rerankScoring h.1]
    exact h.2

/-- The chunks that are known for an id have a best one, which is entered. -/
theorem exists_mem_mergeCoverage (htruthy : id.truthy = true)
    (hc : c ∈ (withId id base).getLast?.toList ++ withId id new) :
    ∃ c' ∈ mergeCoverage base new, getChunkId c' = some id ∧ rerankScore c ≤ rerankScore c' := by
  obtain ⟨c', hc'⟩ := exists_argmax rerankScore hc
  refine ⟨c', mem_mergeCoverage.2 ⟨id, htruthy, hc'⟩, ?_, List.le_of_mem_argmax hc hc'⟩
  rcases List.mem_append.1 (List.argmax_mem hc') with hmem | hmem
  · exact (mem_withId.1 (List.mem_of_getLast? (Option.mem_toList.1 hmem))).2
  · exact (mem_withId.1 hmem).2

/-- What is merged comes from one of the two. -/
theorem mem_or_mem_of_mem_mergeCoverage (h : c ∈ mergeCoverage base new) : c ∈ base ∨ c ∈ new := by
  obtain ⟨id, -, hargmax⟩ := mem_mergeCoverage.1 h
  rcases List.mem_append.1 (List.argmax_mem hargmax) with hmem | hmem
  · exact .inl (mem_withId.1 (List.mem_of_getLast? (Option.mem_toList.1 hmem))).1
  · exact .inr (mem_withId.1 hmem).1

theorem nodup_mergeCoverage (base new : List ScoredChunk) :
    ((mergeCoverage base new).map getChunkId).Nodup := by
  have hkeys := nodup_keys_mergeMap base new
  have hmap : (mergeCoverage base new).map getChunkId =
      (OrderedDict.keys (mergeMap rerankScoring base new)).map some := by
    unfold mergeCoverage mergeChunkLists OrderedDict.values OrderedDict.keys
    rw [List.map_map, List.map_map]
    refine List.map_congr_left fun e he => ?_
    have hlookup := (OrderedDict.lookup_eq_some_iff hkeys).2 he
    have htruthy := truthy_of_mem_mergeMap (OrderedDict.mem_keys_iff.2 ⟨e.2, hlookup⟩)
    rw [lookup_mergeMap rerankScoring htruthy] at hlookup
    rcases List.mem_append.1 (List.argmax_mem hlookup) with hmem | hmem
    · exact (mem_withId.1 (List.mem_of_getLast? (Option.mem_toList.1 hmem))).2
    · exact (mem_withId.1 hmem).2
  rw [hmap]
  exact hkeys.map (Option.some_injective _)

/-- What comes of filling the gaps. A chunk with a falsy id counts as one without an id. -/
structure Filled {γ : Type*} (phase1Threshold : ℚ) (search : γ → Option (List ScoredChunk))
    (imports coveredChunks : List ScoredChunk) (selectedGaps : List γ)
    (allChunks : List ScoredChunk) : Prop where
  nodup : (allChunks.map getChunkId).Nodup
  covered : ∀ id : ChunkId, id.truthy = true → ∀ c ∈ (withId id coveredChunks).getLast?,
    ∃ c' ∈ allChunks, getChunkId c' = some id ∧ rerankScore c ≤ rerankScore c'
  sound : ∀ c ∈ allChunks, c ∈ coveredChunks ∨ c ∈ imports ∨
    ∃ gap ∈ selectedGaps, ∃ found, search gap = some found ∧ c ∈ found ∧
      phase1Threshold ≤ rerankScore c
  filled : ∀ gap ∈ selectedGaps, ∀ found, search gap = some found → ∀ best ∈ found,
    (∀ c ∈ found, rerankScore c ≤ rerankScore best) → phase1Threshold ≤ rerankScore best →
      ∀ id : ChunkId, id.truthy = true → getChunkId best = some id →
        ∃ c' ∈ allChunks, getChunkId c' = some id ∧ rerankScore best ≤ rerankScore c'

/-- A chunk is the last of its id where no other has it. -/
theorem getLast?_withId (h : (chunks.map getChunkId).Nodup)
    (hc : c ∈ chunks) (hid : getChunkId c = some id) :
    (withId id chunks).getLast? = some c := by
  have hmem : c ∈ withId id chunks := mem_withId.2 ⟨hc, hid⟩
  obtain ⟨last, hlast⟩ := Option.ne_none_iff_exists'.1 fun hnone =>
    List.ne_nil_of_mem hmem (List.getLast?_eq_none_iff.1 hnone)
  obtain ⟨hmem', hid'⟩ := mem_withId.1 (List.mem_of_getLast? hlast)
  rw [hlast, List.inj_on_of_nodup_map h hmem' hc (hid'.trans hid.symm)]

/-- The chunks of the gaps, merged with the coverage. -/
theorem filled_mergeCoverage {γ : Type*} (ops : FloatOps) (phase1Threshold : ℚ)
    (search : γ → Option (List ScoredChunk)) (coveredChunks : List ScoredChunk)
    (selectedGaps : List γ) :
    Filled phase1Threshold search [] coveredChunks selectedGaps (mergeCoverage coveredChunks
      (globalDedup (fillGapsSerial ops phase1Threshold search selectedGaps))) where
  nodup := nodup_mergeCoverage _ _
  covered id htruthy c hc :=
    exists_mem_mergeCoverage htruthy (List.mem_append_left _ (Option.mem_toList.2 hc))
  sound c hc := by
    rcases mem_or_mem_of_mem_mergeCoverage hc with hcovered | hfilled
    · exact .inl hcovered
    · obtain ⟨id, -, hargmax⟩ := mem_deduplicateChunks.1 hfilled
      obtain ⟨result, hresult, hmem⟩ :=
        List.mem_flatten.1 (mem_withId.1 (List.argmax_mem hargmax)).1
      obtain ⟨gap, hgap, rfl⟩ := List.mem_map.1 hresult
      cases hsearch : search gap with
      | none =>
        rw [hsearch] at hmem
        cases hmem
      | some found =>
        rw [hsearch] at hmem
        obtain ⟨hfound, hscore⟩ := mem_fillSingleGap hmem
        exact .inr (.inr ⟨gap, hgap, found, hsearch, hfound, hscore⟩)
  filled gap hgap found hsearch best hbest hmax hscore id htruthy hid := by
    have hkept := best_mem_fillSingleGap ops hbest hmax hscore
    have hresult : best ∈ (fillGapsSerial ops phase1Threshold search selectedGaps).flatten := by
      refine List.mem_flatten.2 ⟨_, List.mem_map_of_mem hgap, ?_⟩
      rw [hsearch]
      exact hkept
    obtain ⟨first, hfirst⟩ := exists_argmax rerankScore (mem_withId.2 ⟨hresult, hid⟩)
    have hdedup : first ∈ globalDedup (fillGapsSerial ops phase1Threshold search selectedGaps) :=
      mem_deduplicateChunks.2 ⟨id, htruthy, hfirst⟩
    have hfirstId := (mem_withId.1 (List.argmax_mem hfirst)).2
    have hnew : first ∈ (withId id coveredChunks).getLast?.toList ++
        withId id (globalDedup (fillGapsSerial ops phase1Threshold search selectedGaps)) :=
      List.mem_append_right _ (mem_withId.2 ⟨hdedup, hfirstId⟩)
    obtain ⟨c', hc', hid', hle⟩ := exists_mem_mergeCoverage htruthy hnew
    exact ⟨c', hc', hid', (List.le_of_mem_argmax (mem_withId.2 ⟨hresult, hid⟩) hfirst).trans hle⟩

/-- Merging once more loses nothing. -/
theorem Filled.mergeCoverage {γ : Type*}
    {search : γ → Option (List ScoredChunk)} {coveredChunks allChunks : List ScoredChunk}
    {selectedGaps : List γ}
    (h : Filled phase1Threshold search [] coveredChunks selectedGaps allChunks)
    (imports : List ScoredChunk) :
    Filled phase1Threshold search imports coveredChunks selectedGaps
      (mergeCoverage allChunks imports) := by
  have hkeep : ∀ c ∈ allChunks, ∀ id : ChunkId, id.truthy = true → getChunkId c = some id →
      ∃ c' ∈ GapFilling.mergeCoverage allChunks imports,
        getChunkId c' = some id ∧ rerankScore c ≤ rerankScore c' := by
    intro c hc id htruthy hid
    refine exists_mem_mergeCoverage htruthy (List.mem_append_left _ (Option.mem_toList.2 ?_))
    exact getLast?_withId h.nodup hc hid
  refine ⟨nodup_mergeCoverage _ _, fun id htruthy c hc => ?_, fun c hc => ?_,
    fun gap hgap found hsearch best hbest hmax hscore id htruthy hid => ?_⟩
  · obtain ⟨c', hc', hid', hle⟩ := h.covered id htruthy c hc
    obtain ⟨c'', hc'', hid'', hle'⟩ := hkeep c' hc' id htruthy hid'
    exact ⟨c'', hc'', hid'', hle.trans hle'⟩
  · rcases mem_or_mem_of_mem_mergeCoverage hc with hall | himport
    · rcases h.sound c hall with hcovered | hnone | hfound
      · exact .inl hcovered
      · cases hnone
      · exact .inr (.inr hfound)
    · exact .inr (.inl himport)
  · obtain ⟨c', hc', hid', hle⟩ := h.filled gap hgap found hsearch best hbest hmax hscore id
      htruthy hid
    obtain ⟨c'', hc'', hid'', hle'⟩ := hkeep c' hc' id htruthy hid'
    exact ⟨c'', hc'', hid'', hle.trans hle'⟩

/-- Without gaps the coverage is as it was. With gaps no chunk of it is lost or gets worse, all that
comes in is imported or has the score of the threshold, and what a search finds best comes in. -/
theorem fill_spec {γ : Type*} (ops : FloatOps) (phase1Threshold : ℚ)
    (search : γ → Option (List ScoredChunk)) (imports : List ScoredChunk → List ScoredChunk)
    (coveredChunks : List ScoredChunk) (selectedGaps : List γ) :
    (selectedGaps = [] ∧ fillGaps ops phase1Threshold search imports coveredChunks selectedGaps =
      coveredChunks) ∨
    Filled phase1Threshold search (imports (mergeCoverage coveredChunks
        (globalDedup (fillGapsSerial ops phase1Threshold search selectedGaps))))
      coveredChunks selectedGaps
      (fillGaps ops phase1Threshold search imports coveredChunks selectedGaps) := by
  have hfilled := filled_mergeCoverage ops phase1Threshold search coveredChunks selectedGaps
  unfold fillGaps
  split
  · rename_i hnone
    exact .inl ⟨hnone, rfl⟩
  · dsimp only
    split
    · rename_i hempty
      rw [hempty]
      exact .inr hfilled
    · exact .inr (hfilled.mergeCoverage _)

end ChunkHound.GapFilling
