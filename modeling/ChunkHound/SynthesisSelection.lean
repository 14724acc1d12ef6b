import ChunkHound.GapSelection
import ChunkHound.Grouping

/-!
# Files for synthesis

`_filter_for_synthesis` keeps the chunks up to the elbow of their scores, reads the files they are
of, and asks the reranker for the priorities of the files, in batches.

The priorities come from the valid indices that the reranker returns, and from the scores of the
chunks when there is none. So a file that was read is selected unless the reranker leaves it out and
not all others, or the elbow chunks name it by `path` only (`selectsAll_iff`).
-/

namespace ChunkHound.SynthesisSelection

open Grouping OrderedDict Ranking GapSelection

/-! ## Chunks and their scores -/

/-- What is read of a chunk dictionary. -/
structure Chunk where
  filePath : Option String
  path : Option String
  startLine : Option ℤ
  endLine : Option ℤ
  content : Option String
  scores : List (String × ℚ)
  deriving DecidableEq

/-- `get_unified_score`, of the scores that a chunk carries. -/
def unifiedScore (scores : List (String × ℚ)) : ℚ :=
  match scores.lookup "rerank_score", scores.lookup "similarity", scores.lookup "score" with
  | some rerank, _, _ => rerank
  | none, some similarity, _ => similarity
  | none, none, some score => score
  | none, none, none => 0

def getUnifiedScore (chunk : Chunk) : ℚ := unifiedScore chunk.scores

/-- `chunk.get("file_path", "")`. -/
def Chunk.named (chunk : Chunk) : String := chunk.filePath.getD ""

/-- `chunk.get("file_path") or chunk.get("path", "")`. -/
def Chunk.file (chunk : Chunk) : String :=
  if chunk.named = "" then chunk.path.getD "" else chunk.named

/-! ## The elbow -/

/-- What the filter reports. -/
structure ElbowStats where
  method : String
  reason : String
  originalCount : ℕ
  filteredCount : ℕ
  cutoffScore : Option ℚ
  elbowIndex : Option ℕ

def passthrough (reason : String) (count : ℕ) : ElbowStats :=
  ⟨"passthrough", reason, count, count, none, none⟩

/-- The score that decides, of a field or unified. -/
def scoreOf (scoreKey : Option String) (chunk : Chunk) : ℚ :=
  match scoreKey with
  | none => getUnifiedScore chunk
  | some key => (chunk.scores.lookup key).getD 0

/-- Keeps the chunks up to the elbow. -/
def filterChunksByElbow (ops : FloatOps) (scoreKey : Option String) (chunks : List Chunk) :
    List Chunk × ElbowStats :=
  if chunks = [] then ([], passthrough "empty_input" 0)
  else if chunks.length < 3 then (chunks, passthrough "too_few_chunks" chunks.length)
  else
    let sortedChunks := rank (scoreOf scoreKey) chunks
    let scores := sortedChunks.map (scoreOf scoreKey)
    match findElbowKneedle ops scores with
    | none => (sortedChunks, passthrough "no_elbow_detected" chunks.length)
    | some elbowIdx =>
      let filteredChunks := sortedChunks.take (elbowIdx + 1)
      (filteredChunks, ⟨"elbow", "elbow_detected", chunks.length, filteredChunks.length,
        scores[elbowIdx]?, some elbowIdx⟩)

/-! ## Reading files -/

/-- The files as they can be read, and the tokens that a text is estimated to have. -/
structure Sources where
  read : String → Option String
  estimateTokens : String → ℕ

/-- The budget, if there is one, is used up. -/
def spent (maxTokens : Option ℕ) (totalTokens : ℕ) : Bool :=
  match maxTokens with
  | none => false
  | some limit => limit ≤ totalTokens

/-- The files of the groups, as long as the budget lasts. -/
def readWithin (sources : Sources) (maxTokens : Option ℕ) :
    ℕ → List (String × List Chunk) → List (String × String)
  | _, [] => []
  | totalTokens, (filePath, _) :: rest =>
    if spent maxTokens totalTokens then []
    else
      match sources.read filePath, maxTokens with
      | none, _ => readWithin sources maxTokens totalTokens rest
      | some content, none =>
        (filePath, content) ::
          readWithin sources maxTokens (totalTokens + sources.estimateTokens content) rest
      | some content, some limit =>
        if totalTokens + sources.estimateTokens content ≤ limit then
          (filePath, content) ::
            readWithin sources maxTokens (totalTokens + sources.estimateTokens content) rest
        else if 500 < limit - totalTokens then
          [(filePath, String.ofList (content.toList.take ((limit - totalTokens) * 4)))]
        else []

/-- `_read_files_with_budget`. -/
def readFilesWithBudget (sources : Sources) (maxTokens : Option ℕ) (chunks : List Chunk) :
    List (String × String) :=
  readWithin sources maxTokens 0 (groupBy Chunk.file (chunks.filter (·.file ≠ "")))

def readFilesForSynthesis (sources : Sources) (chunks : List Chunk) : List (String × String) :=
  readFilesWithBudget sources none chunks

/-! ## Reranking -/

/-- An answer of the reranker. -/
structure RerankResult where
  index : ℤ
  score : ℚ
  deriving DecidableEq

/-- The embedding provider : its batch limit, and its answer to each of the calls of a run. -/
structure Reranker (ε : Type) where
  maxBatch : ℤ
  rerank : ℕ → String → List String → Except ε (List RerankResult)

/-- What the selection raises. -/
inductive Raised (ε : Type)
  | rerank (e : ε)
  | zeroDivision

variable {ε : Type}

/-- The results with a valid index, by path. -/
def collect (filePaths : List String) (results : List RerankResult) : List (String × ℚ) :=
  results.filterMap fun r =>
    if r.index < 0 ∨ (filePaths.length : ℤ) ≤ r.index then none
    else filePaths[r.index.toNat]?.map (·, r.score)

/-- The batch of the given number. -/
def batch {α : Type} (maxBatch batchIdx : ℕ) (l : List α) : List α :=
  (l.drop (batchIdx * maxBatch)).take maxBatch

/-- What one of several batches adds. -/
def rerankBatch (provider : Reranker ε) (rootQuery : String)
    (filePaths fileDocuments : List String) (batchIdx : ℕ) : List (String × ℚ) :=
  match provider.rerank batchIdx rootQuery
      (batch provider.maxBatch.toNat batchIdx fileDocuments) with
  | .ok results => collect (batch provider.maxBatch.toNat batchIdx filePaths) results
  | .error _ => []

/-- `_rerank_files_in_batches`. No batch is asked for under a negative limit, for which the number
of batches is not positive. -/
def rerankFilesInBatches (provider : Option (Reranker ε)) (rootQuery : String)
    (filePaths fileDocuments : List String) : Except (Raised ε) (List (String × ℚ)) :=
  match provider with
  | none => .ok []
  | some provider =>
    if fileDocuments.length ≤ provider.maxBatch then
      match provider.rerank 0 rootQuery fileDocuments with
      | .ok results => .ok (collect filePaths results)
      | .error e => .error (.rerank e)
    else if provider.maxBatch = 0 then .error .zeroDivision
    else
      let numBatches :=
        if provider.maxBatch < 0 then 0
        else (fileDocuments.length + provider.maxBatch.toNat - 1) / provider.maxBatch.toNat
      .ok ((List.range numBatches).flatMap
        (rerankBatch provider rootQuery filePaths fileDocuments))

/-! ## The selection -/

def maxChunksPerFileRepr : ℕ := 5

def maxTokensPerFileRepr : ℕ := 2000

/-- A chunk as the reranker sees it. -/
def reprPart (chunk : Chunk) : String :=
  let startLine := chunk.startLine.getD 1
  let endLine := chunk.endLine.getD 1
  let content := chunk.content.getD ""
  s!"Lines {startLine}-{endLine}:\n{content}"

/-- The document that stands for a file. -/
def documentOf (sources : Sources) (filePath : String) (fileChunks : List Chunk) : String :=
  let topChunks := (rank getUnifiedScore fileChunks).take maxChunksPerFileRepr
  let document := filePath ++ "\n\n" ++ "\n\n".intercalate (topChunks.map reprPart)
  if maxTokensPerFileRepr < sources.estimateTokens document then
    String.ofList (document.toList.take (maxTokensPerFileRepr * 4))
  else document

/-- `file_to_chunks` : the chunks with the path of a file that was read. -/
def fileToChunks (files : List (String × String)) (sortedChunks : List Chunk) :
    List (String × List Chunk) :=
  groupBy Chunk.named (sortedChunks.filter fun c => c.named ≠ "" ∧ c.named ∈ keys files)

/-- The sum of the scores of some chunks, with the rounding of each addition. -/
def accumulated (ops : FloatOps) (chunks : List Chunk) : ℚ :=
  (chunks.map getUnifiedScore).foldl ops.add 0

/-- `file_priorities`. -/
def filePriorities (ops : FloatOps) (rerankResults : List (String × ℚ))
    (groups : List (String × List Chunk)) : List (String × ℚ) :=
  if rerankResults = [] then groups.map fun g => (g.1, accumulated ops g.2)
  else alterAll Prod.fst (fun result _ => result.2) [] rerankResults

structure FilterStats where
  filesSelected : ℕ
  totalTokens : ℕ
  elbowFilteredChunks : ℕ
  originalChunks : ℕ
  deriving DecidableEq

structure Filtered where
  chunks : List Chunk
  selectedFiles : List (String × String)
  stats : FilterStats
  deriving DecidableEq

/-- The chunks up to the elbow. -/
def elbowChunks (ops : FloatOps) (chunks : List Chunk) : List Chunk :=
  (filterChunksByElbow ops none chunks).1

/-- The files by priority, with their contents. -/
def selectFiles (files : List (String × String)) (priorities : List (String × ℚ)) :
    List (String × String) :=
  (rank Prod.snd priorities).filterMap fun p => (files.lookup p.1).map (p.1, ·)

/-- The result, of the answers of the reranker. -/
def filteredBy (ops : FloatOps) (sources : Sources) (chunks : List Chunk)
    (rerankResults : List (String × ℚ)) : Filtered :=
  let sortedChunks := elbowChunks ops chunks
  let files := readFilesForSynthesis sources sortedChunks
  let selectedFiles :=
    selectFiles files (filePriorities ops rerankResults (fileToChunks files sortedChunks))
  ⟨sortedChunks, selectedFiles, selectedFiles.length,
    (selectedFiles.map fun f => sources.estimateTokens f.2).sum, sortedChunks.length,
    chunks.length⟩

/-- The files that are reranked, with their chunks. -/
def candidates (ops : FloatOps) (sources : Sources) (chunks : List Chunk) :
    List (String × List Chunk) :=
  fileToChunks (readFilesForSynthesis sources (elbowChunks ops chunks)) (elbowChunks ops chunks)

def documents (ops : FloatOps) (sources : Sources) (chunks : List Chunk) : List String :=
  (candidates ops sources chunks).map fun g => documentOf sources g.1 g.2

/-- `_filter_for_synthesis`. -/
def filterForSynthesis (ops : FloatOps) (sources : Sources) (provider : Option (Reranker ε))
    (rootQuery : String) (chunks : List Chunk) : Except (Raised ε) Filtered := do
  let rerankResults ← rerankFilesInBatches provider rootQuery
    (keys (candidates ops sources chunks)) (documents ops sources chunks)
  return filteredBy ops sources chunks rerankResults

/-! ## Files that are read -/

/-- A file of some chunks, with its full content. -/
structure Readable (sources : Sources) (chunks : List Chunk) (path content : String) : Prop where
  named : path ≠ ""
  ofChunk : ∃ c ∈ chunks, c.file = path
  read : sources.read path = some content

section Read

variable {sources : Sources} {chunks : List Chunk} {path content : String}

/-- Without a budget every file of the groups that can be read is read in full. -/
theorem readWithin_none (totalTokens : ℕ) : ∀ groups : List (String × List Chunk),
    readWithin sources none totalTokens groups =
      groups.filterMap fun g => (sources.read g.1).map (g.1, ·)
  | [] => rfl
  | (filePath, _) :: rest => by
    unfold readWithin
    rw [List.filterMap_cons]
    cases hread : sources.read filePath with
    | none => simp [spent, readWithin_none totalTokens rest]
    | some content => simp [spent, readWithin_none _ rest]

theorem mem_readFilesForSynthesis :
    (path, content) ∈ readFilesForSynthesis sources chunks ↔
      Readable sources chunks path content := by
  unfold readFilesForSynthesis readFilesWithBudget
  rw [readWithin_none, List.mem_filterMap]
  constructor
  · rintro ⟨⟨filePath, fileChunks⟩, hgroup, hread⟩
    obtain ⟨content', hcontent, heq⟩ := Option.map_eq_some_iff.1 hread
    obtain ⟨rfl, rfl⟩ := Prod.mk.inj heq
    have hkey := (mem_keysOf_groupBy Chunk.file).1 (List.mem_map_of_mem hgroup)
    obtain ⟨c, hc, rfl⟩ := hkey
    obtain ⟨hc, hne⟩ := List.mem_filter.1 hc
    exact ⟨of_decide_eq_true hne, ⟨c, hc, rfl⟩, hcontent⟩
  · rintro ⟨hne, ⟨c, hc, rfl⟩, hread⟩
    have hmem : c ∈ chunks.filter (·.file ≠ "") := List.mem_filter.2 ⟨hc, decide_eq_true hne⟩
    obtain ⟨g, hg, hkey⟩ :=
      List.mem_map.1 ((mem_keysOf_groupBy Chunk.file).2 ⟨c, hmem, rfl⟩)
    exact ⟨g, hg, by rw [hkey, hread]; rfl⟩

theorem nodup_keys_readFiles : (keys (readFilesForSynthesis sources chunks)).Nodup := by
  unfold readFilesForSynthesis readFilesWithBudget keys
  rw [readWithin_none]
  refine (nodup_keysOf_groupBy Chunk.file _).sublist (map_filterMap_sublist ?_)
  intro g _ f hf
  obtain ⟨content, -, rfl⟩ := Option.map_eq_some_iff.1 hf
  rfl

theorem lookup_readFiles :
    (readFilesForSynthesis sources chunks).lookup path = some content ↔
      Readable sources chunks path content := by
  rw [lookup_eq_some_iff nodup_keys_readFiles, mem_readFilesForSynthesis]

end Read

/-! ## Files that are scored -/

section Scores

variable {provider : Option (Reranker ε)} {rootQuery : String} {filePaths fileDocuments : List String}
  {rerankResults : List (String × ℚ)} {path : String}

/-- The reranking does not raise : a single batch is answered, and the limit is not zero. -/
def Answers (provider : Option (Reranker ε)) (rootQuery : String) (fileDocuments : List String) :
    Prop :=
  match provider with
  | none => True
  | some provider =>
    if fileDocuments.length ≤ provider.maxBatch then
      ∃ results, provider.rerank 0 rootQuery fileDocuments = .ok results
    else provider.maxBatch ≠ 0

/-- The batch of the file is answered, and the answer has the index of the file in it. -/
def Scored (provider : Option (Reranker ε)) (rootQuery : String) (fileDocuments : List String)
    (i : ℕ) : Prop :=
  ∃ p, provider = some p ∧ 0 < p.maxBatch ∧
    ∃ results, p.rerank (i / p.maxBatch.toNat) rootQuery
        (batch p.maxBatch.toNat (i / p.maxBatch.toNat) fileDocuments) = .ok results ∧
      ∃ r ∈ results, r.index = (i % p.maxBatch.toNat : ℕ)

theorem answers_iff (filePaths : List String) :
    (∃ results, rerankFilesInBatches provider rootQuery filePaths fileDocuments = .ok results) ↔
      Answers provider rootQuery fileDocuments := by
  unfold rerankFilesInBatches Answers
  cases provider with
  | none => simp
  | some p =>
    dsimp only
    split
    · cases h : p.rerank 0 rootQuery fileDocuments with
      | ok results => simp
      | error e => simp
    · split
      · rename_i hzero
        simp [hzero]
      · rename_i hne
        simp [hne]

theorem mem_collect {results : List RerankResult} :
    path ∈ keys (collect filePaths results) ↔
      ∃ i : ℕ, filePaths[i]? = some path ∧ ∃ r ∈ results, r.index = i := by
  unfold keys collect
  rw [List.mem_map]
  constructor
  · rintro ⟨⟨_, score⟩, hmem, rfl⟩
    obtain ⟨r, hr, hsome⟩ := List.mem_filterMap.1 hmem
    split at hsome
    · cases hsome
    · rename_i hvalid
      obtain ⟨found, hfound, heq⟩ := Option.map_eq_some_iff.1 hsome
      obtain ⟨rfl, -⟩ := Prod.mk.inj heq
      exact ⟨r.index.toNat, hfound, r, hr, by omega⟩
  · rintro ⟨i, hi, r, hr, hindex⟩
    have hlt : i < filePaths.length := (List.getElem?_eq_some_iff.1 hi).1
    refine ⟨(path, r.score), List.mem_filterMap.2 ⟨r, hr, ?_⟩, rfl⟩
    rw [if_neg (by omega), hindex, Int.toNat_natCast, hi]
    rfl

/-- A place in a batch is a place in the whole list. -/
theorem getElem?_batch {α : Type} (l : List α) (m b j : ℕ) :
    (batch m b l)[j]? = if j < m then l[b * m + j]? else none := by
  unfold batch
  rw [List.getElem?_take]
  split
  · rw [List.getElem?_drop]
  · rfl

theorem batch_zero {α : Type} {m : ℕ} {l : List α} (h : l.length ≤ m) : batch m 0 l = l := by
  unfold batch
  rw [Nat.zero_mul, List.drop_zero, List.take_of_length_le h]

theorem mem_rerankBatch {p : Reranker ε} {b : ℕ} :
    path ∈ keys (rerankBatch p rootQuery filePaths fileDocuments b) ↔
      ∃ results, p.rerank b rootQuery (batch p.maxBatch.toNat b fileDocuments) = .ok results ∧
        ∃ j : ℕ, j < p.maxBatch.toNat ∧ filePaths[b * p.maxBatch.toNat + j]? = some path ∧
          ∃ r ∈ results, r.index = j := by
  unfold rerankBatch
  cases hreply : p.rerank b rootQuery (batch p.maxBatch.toNat b fileDocuments) with
  | error e => simp [keys]
  | ok results =>
    simp only [mem_collect, getElem?_batch, Except.ok.injEq, exists_eq_left']
    refine exists_congr fun j => ?_
    by_cases hj : j < p.maxBatch.toNat
    · rw [if_pos hj]
      exact ⟨fun h => ⟨hj, h⟩, fun h => h.2⟩
    · rw [if_neg hj]
      exact ⟨fun h => (by cases h.1), fun h => absurd h.1 hj⟩

theorem mem_rerankBatches {p : Reranker ε} (hlength : filePaths.length = fileDocuments.length)
    (hpos : 0 < p.maxBatch) :
    path ∈ keys ((List.range ((fileDocuments.length + p.maxBatch.toNat - 1) /
        p.maxBatch.toNat)).flatMap (rerankBatch p rootQuery filePaths fileDocuments)) ↔
      ∃ i : ℕ, filePaths[i]? = some path ∧ Scored (some p) rootQuery fileDocuments i := by
  have hm : 0 < p.maxBatch.toNat := by omega
  unfold keys
  rw [List.map_flatMap, List.mem_flatMap]
  constructor
  · rintro ⟨b, -, hmem⟩
    obtain ⟨results, hreply, j, hj, hplace, h⟩ := mem_rerankBatch.1 hmem
    have hdiv : (b * p.maxBatch.toNat + j) / p.maxBatch.toNat = b := by
      rw [Nat.mul_comm, Nat.mul_add_div hm, Nat.div_eq_of_lt hj, Nat.add_zero]
    have hmod : (b * p.maxBatch.toNat + j) % p.maxBatch.toNat = j := by
      rw [Nat.mul_comm, Nat.mul_add_mod, Nat.mod_eq_of_lt hj]
    exact ⟨_, hplace, p, rfl, hpos, results, by rw [hdiv, hreply], by rwa [hmod]⟩
  · rintro ⟨i, hi, _, hp, -, results, hreply, h⟩
    obtain rfl := Option.some.inj hp
    have hlt : i < fileDocuments.length := hlength ▸ (List.getElem?_eq_some_iff.1 hi).1
    have hplace : filePaths[i / p.maxBatch.toNat * p.maxBatch.toNat + i % p.maxBatch.toNat]? =
        some path := by rwa [Nat.div_add_mod']
    refine ⟨i / p.maxBatch.toNat, List.mem_range.2 ?_, mem_rerankBatch.2 ⟨results, hreply,
      i % p.maxBatch.toNat, Nat.mod_lt _ hm, hplace, h⟩⟩
    rw [Nat.lt_iff_add_one_le, Nat.le_div_iff_mul_le hm, Nat.add_mul]
    have hle := Nat.div_mul_le_self i p.maxBatch.toNat
    omega

/-- The files among the results are those that are scored. -/
theorem mem_rerankFilesInBatches (hlength : filePaths.length = fileDocuments.length)
    (hok : rerankFilesInBatches provider rootQuery filePaths fileDocuments = .ok rerankResults) :
    path ∈ keys rerankResults ↔
      ∃ i : ℕ, filePaths[i]? = some path ∧ Scored provider rootQuery fileDocuments i := by
  unfold rerankFilesInBatches at hok
  cases provider with
  | none =>
    obtain rfl := Except.ok.inj hok
    constructor
    · intro h
      cases h
    · rintro ⟨i, -, p, hp, -⟩
      cases hp
  | some p =>
    dsimp only at hok
    have hplaces : ∀ {i : ℕ}, filePaths[i]? = some path → i < fileDocuments.length := fun h =>
      hlength ▸ (List.getElem?_eq_some_iff.1 h).1
    split at hok
    · rename_i hsingle
      cases hreply : p.rerank 0 rootQuery fileDocuments with
      | error e =>
        rw [hreply] at hok
        cases hok
      | ok results =>
        rw [hreply] at hok
        obtain rfl := Except.ok.inj hok
        rw [mem_collect]
        refine exists_congr fun i => and_congr_right fun hi => ?_
        have hlt := hplaces hi
        have hdiv : i / p.maxBatch.toNat = 0 := Nat.div_eq_of_lt (by omega)
        have hmod : i % p.maxBatch.toNat = i := Nat.mod_eq_of_lt (by omega)
        have hwhole : batch p.maxBatch.toNat 0 fileDocuments = fileDocuments :=
          batch_zero (by omega)
        constructor
        · intro h
          exact ⟨p, rfl, by omega, results, by rw [hdiv, hwhole, hreply], by rwa [hmod]⟩
        · rintro ⟨_, hp, -, results', hreply', h⟩
          obtain rfl := Option.some.inj hp
          rw [hdiv, hwhole, hreply] at hreply'
          rw [hmod] at h
          exact (Except.ok.inj hreply') ▸ h
    · split at hok
      · cases hok
      · rename_i hne
        obtain rfl := Except.ok.inj hok
        split
        · rename_i hnegative
          refine ⟨fun h => (by cases h), ?_⟩
          rintro ⟨i, -, _, hp, hpos, -⟩
          obtain rfl := Option.some.inj hp
          omega
        · exact mem_rerankBatches hlength (by omega)

end Scores

/-! ## Priorities -/

section Priorities

variable {ops : FloatOps} {sources : Sources} {chunks : List Chunk}
  {files : List (String × String)} {rerankResults priorities : List (String × ℚ)}
  {path content : String}

/-- The last score returned for a file. -/
def lastScore (rerankResults : List (String × ℚ)) (path : String) : ℚ :=
  (((rerankResults.filter (·.1 = path)).getLast?).map Prod.snd).getD 0

/-- What the reranker says of a file last, or if it says nothing at all, what the scores of the
chunks of the file add up to. -/
def priority (ops : FloatOps) (chunks : List Chunk) (rerankResults : List (String × ℚ))
    (path : String) : ℚ :=
  if rerankResults = [] then accumulated ops (chunks.filter (·.named = path))
  else lastScore rerankResults path

theorem foldl_last (l : List (String × ℚ)) (v : Option ℚ) :
    l.foldl (fun _ result => some result.2) v = (l.getLast?.map Prod.snd).or v := by
  induction l using List.reverseRecOn with
  | nil => rfl
  | append_singleton l x _ =>
    rw [List.foldl_append, List.getLast?_append_of_ne_nil l (List.cons_ne_nil x [])]
    rfl

theorem mem_keys_fileToChunks : path ∈ keys (fileToChunks files chunks) ↔
    path ≠ "" ∧ path ∈ keys files ∧ ∃ c ∈ chunks, c.named = path := by
  unfold fileToChunks
  rw [show keys (groupBy Chunk.named _) = keysOf (groupBy Chunk.named _) from rfl,
    mem_keysOf_groupBy]
  constructor
  · rintro ⟨c, hc, rfl⟩
    obtain ⟨hc, hfile⟩ := List.mem_filter.1 hc
    obtain ⟨hne, hmem⟩ := of_decide_eq_true hfile
    exact ⟨hne, hmem, c, hc, rfl⟩
  · rintro ⟨hne, hmem, c, hc, rfl⟩
    exact ⟨c, List.mem_filter.2 ⟨hc, decide_eq_true ⟨hne, hmem⟩⟩, rfl⟩

theorem nodup_keys_filePriorities :
    (keys (filePriorities ops rerankResults (fileToChunks files chunks))).Nodup := by
  unfold filePriorities
  split
  · unfold keys
    rw [List.map_map]
    exact nodup_keysOf_groupBy Chunk.named _
  · exact nodup_keys_alterAll _ _ List.nodup_nil

theorem mem_keys_filePriorities :
    path ∈ keys (filePriorities ops rerankResults (fileToChunks files chunks)) ↔
      if rerankResults = [] then path ∈ keys (fileToChunks files chunks)
      else path ∈ keys rerankResults := by
  unfold filePriorities
  split
  · unfold keys
    rw [List.map_map]
    rfl
  · rw [mem_keys_alterAll, or_iff_right (fun h : path ∈ keys [] => List.not_mem_nil h)]
    unfold keys
    rw [List.mem_map]

theorem priority_of_mem {p : String × ℚ}
    (hp : p ∈ filePriorities ops rerankResults (fileToChunks files chunks)) :
    p.2 = priority ops chunks rerankResults p.1 := by
  unfold priority
  unfold filePriorities at hp
  split at hp
  · rename_i hnil
    obtain ⟨g, hg, rfl⟩ := List.mem_map.1 hp
    have hkey := mem_keys_fileToChunks.1 (List.mem_map_of_mem hg)
    have hgroup := eq_filter_of_mem_groupBy Chunk.named hg
    rw [if_pos hnil]
    dsimp only
    rw [hgroup, List.filter_filter]
    refine congrArg (accumulated ops) (List.filter_congr fun c _ => ?_)
    by_cases hc : c.named = g.1
    · simp [hc, hkey.1, hkey.2.1]
    · simp [hc]
  · rename_i hne
    have hnil : (keys ([] : List (String × ℚ))).Nodup := List.nodup_nil
    have hlookup := (lookup_eq_some_iff (nodup_keys_alterAll _ _ hnil)).2 hp
    rw [lookup_alterAll, foldl_last] at hlookup
    rw [if_neg hne, lastScore]
    rw [List.lookup_nil, Option.or_none] at hlookup
    rw [hlookup]
    rfl

theorem keys_selectFiles : keys (selectFiles files priorities) =
    (keys (rank Prod.snd priorities)).filter (· ∈ keys files) := by
  unfold selectFiles
  generalize rank Prod.snd priorities = sorted
  induction sorted with
  | nil => rfl
  | cons p rest ih =>
    have hcons : keys (p :: rest) = p.1 :: keys rest := rfl
    rw [List.filterMap_cons, hcons]
    cases hread : files.lookup p.1 with
    | none =>
      have hout : p.1 ∉ keys files := lookup_eq_none_iff.1 hread
      rw [List.filter_cons_of_neg (by simpa using hout)]
      exact ih
    | some content =>
      have hin : p.1 ∈ keys files := mem_keys_iff.2 ⟨content, hread⟩
      rw [List.filter_cons_of_pos (by simpa using hin), ← ih]
      rfl

theorem mem_selectFiles : (path, content) ∈ selectFiles files priorities ↔
    path ∈ keys priorities ∧ files.lookup path = some content := by
  unfold selectFiles keys
  rw [List.mem_filterMap, List.mem_map]
  constructor
  · rintro ⟨p, hp, hsome⟩
    obtain ⟨found, hfound, heq⟩ := Option.map_eq_some_iff.1 hsome
    obtain ⟨rfl, rfl⟩ := Prod.mk.inj heq
    exact ⟨⟨p, mem_rank.1 hp, rfl⟩, hfound⟩
  · rintro ⟨⟨p, hp, rfl⟩, hfound⟩
    exact ⟨p, mem_rank.2 hp, by rw [hfound]; rfl⟩

theorem nodup_keys_selectFiles (h : (keys priorities).Nodup) :
    (keys (selectFiles files priorities)).Nodup := by
  rw [keys_selectFiles]
  exact (((rank_perm Prod.snd priorities).map Prod.fst).nodup_iff.2 h).filter _

/-- The selected files come in descending order of their priorities. -/
theorem selectFiles_sorted {files' : List (String × String)} :
    (keys (selectFiles files (filePriorities ops rerankResults
      (fileToChunks files' chunks)))).Pairwise fun a b =>
        priority ops chunks rerankResults b ≤ priority ops chunks rerankResults a := by
  rw [keys_selectFiles]
  refine List.Pairwise.filter _ ?_
  unfold keys
  rw [List.pairwise_map]
  refine (rank_sorted Prod.snd _).imp_of_mem fun ha hb hle => ?_
  rw [← priority_of_mem (mem_rank.1 ha), ← priority_of_mem (mem_rank.1 hb)]
  exact hle

end Priorities

/-! ## Every file is selected -/

section Selection

variable {ops : FloatOps} {sources : Sources} {chunks : List Chunk}
  {provider : Option (Reranker ε)} {rootQuery : String}

/-- The selected files are the readable files of the elbow chunks, each once and with its full
content, in descending order of priority. -/
def SelectsAll (ops : FloatOps) (sources : Sources) (provider : Option (Reranker ε))
    (rootQuery : String) (chunks : List Chunk) : Prop :=
  ∃ filtered rerankResults,
    filterForSynthesis ops sources provider rootQuery chunks = .ok filtered ∧
    rerankFilesInBatches provider rootQuery (keys (candidates ops sources chunks))
      (documents ops sources chunks) = .ok rerankResults ∧
    (∀ path content, (path, content) ∈ filtered.selectedFiles ↔
      Readable sources (elbowChunks ops chunks) path content) ∧
    (keys filtered.selectedFiles).Nodup ∧
    (keys filtered.selectedFiles).Pairwise fun a b =>
      priority ops (elbowChunks ops chunks) rerankResults b ≤
        priority ops (elbowChunks ops chunks) rerankResults a

/-- The file of every readable chunk is named by `file_path`. -/
def NamedFiles (ops : FloatOps) (sources : Sources) (chunks : List Chunk) : Prop :=
  ∀ path content, Readable sources (elbowChunks ops chunks) path content →
    ∃ c ∈ elbowChunks ops chunks, c.filePath = some path

theorem length_documents : (keys (candidates ops sources chunks)).length =
    (documents ops sources chunks).length := by
  unfold keys documents
  rw [List.length_map, List.length_map]

theorem mem_keys_candidates {path content : String} :
    (path ∈ keys (candidates ops sources chunks) ∧
        (readFilesForSynthesis sources (elbowChunks ops chunks)).lookup path = some content) ↔
      Readable sources (elbowChunks ops chunks) path content ∧
        ∃ c ∈ elbowChunks ops chunks, c.filePath = some path := by
  unfold candidates
  rw [mem_keys_fileToChunks, lookup_readFiles]
  constructor
  · rintro ⟨⟨hne, -, c, hc, hnamed⟩, hread⟩
    refine ⟨hread, c, hc, ?_⟩
    unfold Chunk.named at hnamed
    cases hpath : c.filePath with
    | none =>
      rw [hpath] at hnamed
      exact absurd hnamed.symm hne
    | some path' =>
      rw [hpath] at hnamed
      exact congrArg some hnamed
  · rintro ⟨hread, c, hc, hpath⟩
    refine ⟨⟨hread.named, mem_keys_iff.2 ⟨content, lookup_readFiles.2 hread⟩, c, hc, ?_⟩, hread⟩
    rw [Chunk.named, hpath, Option.getD_some]

theorem nodup_keys_candidates : (keys (candidates ops sources chunks)).Nodup :=
  nodup_keysOf_groupBy Chunk.named _

theorem mem_selectedFiles {rerankResults : List (String × ℚ)} {path content : String}
    (hrerank : rerankFilesInBatches provider rootQuery (keys (candidates ops sources chunks))
      (documents ops sources chunks) = .ok rerankResults) :
    (path, content) ∈ (filteredBy ops sources chunks rerankResults).selectedFiles ↔
      (if rerankResults = [] then path ∈ keys (candidates ops sources chunks)
        else ∃ i : ℕ, (keys (candidates ops sources chunks))[i]? = some path ∧
          Scored provider rootQuery (documents ops sources chunks) i) ∧
        (readFilesForSynthesis sources (elbowChunks ops chunks)).lookup path = some content := by
  rw [← mem_rerankFilesInBatches length_documents hrerank]
  unfold filteredBy
  rw [mem_selectFiles, mem_keys_filePriorities]
  rfl

/-- If there are results some file is scored, and if there are none no file is. -/
theorem eq_nil_iff_not_scored {rerankResults : List (String × ℚ)}
    (hrerank : rerankFilesInBatches provider rootQuery (keys (candidates ops sources chunks))
      (documents ops sources chunks) = .ok rerankResults) :
    rerankResults = [] ↔ ∀ i < (documents ops sources chunks).length,
      ¬ Scored provider rootQuery (documents ops sources chunks) i := by
  have hmem : ∀ path, path ∈ keys rerankResults ↔ _ := fun _ =>
    mem_rerankFilesInBatches length_documents hrerank
  constructor
  · rintro rfl i hi hscored
    obtain ⟨path, hpath⟩ : ∃ path, (keys (candidates ops sources chunks))[i]? = some path :=
      ⟨_, List.getElem?_eq_getElem (length_documents.symm ▸ hi)⟩
    exact List.not_mem_nil ((hmem path).2 ⟨i, hpath, hscored⟩)
  · intro hnone
    refine List.eq_nil_iff_forall_not_mem.2 fun result hresult => ?_
    obtain ⟨i, hi, hscored⟩ := (hmem result.1).1 (List.mem_map_of_mem hresult)
    exact hnone i (length_documents ▸ (List.getElem?_eq_some_iff.1 hi).1) hscored

/-- Every readable file is selected exactly if the reranking does not raise, the chunks name their
files by `file_path`, and the reranker scores all files or none. -/
theorem selectsAll_iff (ops : FloatOps) (sources : Sources) (provider : Option (Reranker ε))
    (rootQuery : String) (chunks : List Chunk) :
    SelectsAll ops sources provider rootQuery chunks ↔
      Answers provider rootQuery (documents ops sources chunks) ∧
        NamedFiles ops sources chunks ∧
        ((∀ i < (documents ops sources chunks).length,
            Scored provider rootQuery (documents ops sources chunks) i) ∨
          ∀ i < (documents ops sources chunks).length,
            ¬ Scored provider rootQuery (documents ops sources chunks) i) := by
  rw [← answers_iff (keys (candidates ops sources chunks))]
  constructor
  · rintro ⟨filtered, rerankResults, hrun, hrerank, hmem, -, -⟩
    unfold filterForSynthesis at hrun
    rw [hrerank] at hrun
    obtain rfl := Except.ok.inj hrun
    refine ⟨⟨rerankResults, hrerank⟩, fun path content hread => ?_, ?_⟩
    · -- what is selected was a candidate, and candidates are named
      obtain ⟨hin, hlookup⟩ := (mem_selectedFiles hrerank).1 ((hmem path content).2 hread)
      refine (mem_keys_candidates.1 ⟨?_, hlookup⟩).2
      split at hin
      · exact hin
      · obtain ⟨i, hi, -⟩ := hin
        exact List.mem_of_getElem? hi
    · by_cases hnil : rerankResults = []
      · exact Or.inr ((eq_nil_iff_not_scored hrerank).1 hnil)
      · refine Or.inl fun i hi => ?_
        have hlt : i < (keys (candidates ops sources chunks)).length := length_documents.symm ▸ hi
        obtain ⟨-, hfile, -⟩ := mem_keys_fileToChunks.1 (List.getElem_mem hlt)
        obtain ⟨content, hcontent⟩ := mem_keys_iff.1 hfile
        obtain ⟨hin, -⟩ :=
          (mem_selectedFiles hrerank).1 ((hmem _ content).2 (lookup_readFiles.1 hcontent))
        rw [if_neg hnil] at hin
        obtain ⟨i', hi', hscored⟩ := hin
        obtain ⟨hlt', hpath⟩ := List.getElem?_eq_some_iff.1 hi'
        rwa [← (nodup_keys_candidates.getElem_inj_iff).1 hpath]
  · rintro ⟨⟨rerankResults, hrerank⟩, hnamed, hall⟩
    refine ⟨filteredBy ops sources chunks rerankResults, rerankResults, ?_, hrerank,
      fun path content => ?_, nodup_keys_selectFiles nodup_keys_filePriorities,
      selectFiles_sorted⟩
    · unfold filterForSynthesis
      rw [hrerank]
      rfl
    · rw [mem_selectedFiles hrerank]
      constructor
      · rintro ⟨-, hlookup⟩
        exact lookup_readFiles.1 hlookup
      · intro hread
        obtain ⟨hin, hlookup⟩ := mem_keys_candidates.2 ⟨hread, hnamed path content hread⟩
        refine ⟨?_, hlookup⟩
        split
        · exact hin
        · rename_i hne
          obtain ⟨i, hlt, hpath⟩ := List.mem_iff_getElem.1 hin
          have hscored := hall.resolve_right fun hnone =>
            hne ((eq_nil_iff_not_scored hrerank).2 hnone)
          exact ⟨i, List.getElem?_eq_some_iff.2 ⟨hlt, hpath⟩, hscored i (length_documents ▸ hlt)⟩

/-- Two files, each with a chunk. -/
def twoFiles : List Chunk :=
  [⟨some "a.py", none, some 1, some 2, some "x", [("score", 1)]⟩,
    ⟨some "b.py", none, some 1, some 2, some "y", [("score", 1 / 2)]⟩]

/-- The reranker answers for the first file only, so the second is left out. -/
theorem second_file_left_out : ¬ ∀ (ops : FloatOps) (sources : Sources)
    (provider : Option (Reranker Unit)) (rootQuery : String) (chunks : List Chunk),
      SelectsAll ops sources provider rootQuery chunks := by
  intro h
  obtain ⟨filtered, -, hrun, -, hmem, -⟩ := h
    ⟨(· + ·), (· - ·), (· * ·), (· / ·), id, fun _ i => i⟩ ⟨fun _ => some "text", String.length⟩
    (some ⟨10, fun _ _ _ => .ok [⟨0, 1⟩]⟩) "query" twoFiles
  have hselected : [("a.py", "text")] = filtered.selectedFiles :=
    congrArg Filtered.selectedFiles (Except.ok.inj hrun)
  have hread := (hmem "b.py" "text").2
    ⟨by decide, ⟨_, List.mem_cons_of_mem _ List.mem_cons_self, rfl⟩, rfl⟩
  rw [← hselected] at hread
  exact absurd hread (by decide)

end Selection

end ChunkHound.SynthesisSelection
