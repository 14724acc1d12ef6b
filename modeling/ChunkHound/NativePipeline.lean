import ChunkHound.Differ
import ChunkHound.CleanRows

/-!
# Runs of the native pipeline

`IndexingPipeline::run` of `src/pipeline/pipeline.rs` : diff the scanned files, parse the
ones to process in batches, embed, and hand each batch to the store thread, which commits
the orphan deletes first. A `Run` holds what the run is given and what it reads from outside
: the samples of each file, the vectors of the embed stage, the order of the set of removed
paths, and the commit it is cut at.

The parse, embed and store threads pass batches in order, so an error in one of them, the
disk-usage guard and a kill all leave a prefix of the commits.
-/

namespace ChunkHound

open StepSystem Slices

/-- A chunk from the parse callback. -/
structure NewChunk where
  chunkType : String
  symbol : Option String
  code : String
  startLine : Option ℤ
  endLine : Option ℤ
  startByte : Option ℤ
  endByte : Option ℤ
  language : Option String
  metadata : Option String
  deriving DecidableEq, Repr

/-- What the parse callback returned for one file. `chunks` is none when the entry is not a
list. -/
structure ParseItem where
  lang : String
  chunks : Option (List NewChunk)
  error : Option String
  callbackSkip : Option String
  deriving DecidableEq, Repr

/-- What a run reads of one file : the diff's sample, the stat the parse stage falls back
to, the bytes the parse callback reads, and what it returns. -/
structure FileSample extends DiffSample where
  restat : ℕ × ℚ
  parsedFrom : Option Bytes
  item : ParseItem
  deriving DecidableEq, Repr

structure ParsedFile where
  path : String
  relPath : String
  language : Option String
  fileSize : ℕ
  mtime : ℚ
  contentHash : String
  chunks : List NewChunk
  error : Option String
  skipReason : Option String
  parsedFrom : Option Bytes
  deriving DecidableEq, Repr

/-- `truncate_skip_reason`. -/
def truncateSkipReason (reason : String) : String :=
  if reason.utf8ByteSize ≤ 500 then reason else String.ofList (reason.toList.take 500) ++ "..."

/-- One iteration of `parse_one_batch`. -/
def parseFile (d : DiffResult) (relKeys : String → Option String) (path : String)
    (x : FileSample) : ParsedFile :=
  let (fileSize, mtime) := (d.diskStats path).getD x.restat
  let relPath := (relKeys path).getD ""
  let contentHash := (d.newHashes path).getD ""
  let failed (err : String) (reason : String) : ParsedFile :=
    ⟨path, relPath, none, fileSize, mtime, contentHash, [], some err, some reason, x.parsedFrom⟩
  match x.item.error, x.item.chunks with
  | some err, _ => failed err (truncateSkipReason ("parse_error: " ++ err))
  | none, none => failed "invalid chunk list" "parse_error: invalid chunk list"
  | none, some chunks =>
    let language := if x.item.lang = "" then none else some x.item.lang
    let skipReason :=
      match x.item.callbackSkip with
      | some reason => some (truncateSkipReason reason)
      | none => if chunks = [] ∧ language = none then some "unrecognized_or_empty" else none
    ⟨path, relPath, language, fileSize, mtime, contentHash, chunks, none, skipReason, x.parsedFrom⟩

/-- The chunks a file is stored with : none when the callback reported an error. -/
def ParseItem.chunkList (item : ParseItem) : List NewChunk :=
  match item.error with
  | some _ => []
  | none => item.chunks.getD []

theorem parseFile_fields (d : DiffResult) (relKeys : String → Option String) (path : String)
    (x : FileSample) :
    (parseFile d relKeys path x).relPath = (relKeys path).getD "" ∧
      (parseFile d relKeys path x).contentHash = (d.newHashes path).getD "" ∧
      (parseFile d relKeys path x).parsedFrom = x.parsedFrom ∧
      (parseFile d relKeys path x).chunks = x.item.chunkList := by
  unfold parseFile ParseItem.chunkList
  cases x.item.error <;> cases x.item.chunks <;> exact ⟨rfl, rfl, rfl, rfl⟩

/-- The columns of a chunk row that come from the parse. -/
def ChunkRow.content (c : ChunkRow) : NewChunk :=
  ⟨c.chunkType, c.symbol, c.code, c.startLine, c.endLine, c.startByte, c.endByte, c.language,
    c.metadata⟩

def ChunkRecord.content (c : ChunkRecord) : NewChunk :=
  ⟨c.chunkType, c.symbol, c.code, c.startLine, c.endLine, c.startByte, c.endByte, c.language,
    c.metadata⟩

theorem map_content_chunkRows (chunks : List ChunkRecord) (n fileId : ℕ) :
    (chunkRows chunks n fileId).map ChunkRow.content = chunks.map ChunkRecord.content := by
  rw [chunkRows, List.map_map]
  calc (chunks.zipIdx n).map (ChunkRow.content ∘ fun p => p.1.row p.2 fileId)
      = ((chunks.zipIdx n).map Prod.fst).map ChunkRecord.content := by
        rw [List.map_map]
        exact List.map_congr_left fun _ _ => rfl
    _ = chunks.map ChunkRecord.content := by rw [List.zipIdx_map_fst]

/-- The record of a chunk, with the vector the embed stage found for it, if any. -/
def NewChunk.record (provider model : String) (ch : NewChunk) (embedding : Option (List F32)) :
    ChunkRecord where
  chunkType := ch.chunkType
  symbol := ch.symbol
  code := ch.code
  startLine := ch.startLine
  endLine := ch.endLine
  startByte := ch.startByte
  endByte := ch.endByte
  language := ch.language
  metadata := ch.metadata
  embedding := embedding
  provider := embedding.map fun _ => provider
  model := embedding.map fun _ => model

theorem map_content_zipIdx (provider model : String) (vectors : ℕ → Option (List F32))
    (chunks : List NewChunk) :
    (chunks.zipIdx.map fun (ch, i) => ch.record provider model (vectors i)).map
      ChunkRecord.content = chunks := by
  rw [List.map_map]
  calc chunks.zipIdx.map (ChunkRecord.content ∘ fun p => p.1.record provider model (vectors p.2))
      = chunks.zipIdx.map Prod.fst := List.map_congr_left fun _ _ => rfl
    _ = chunks := List.zipIdx_map_fst ..

/-- One iteration of `build_db_batch`. `vectors` are the file's vectors by chunk. -/
def ParsedFile.record (provider model : String) (existingIds : String → Option ℕ)
    (vectors : ℕ → Option (List F32)) (pf : ParsedFile) : FileRecord where
  existingFileId := existingIds pf.path
  path := pf.relPath
  mtime := some pf.mtime
  sizeBytes := some pf.fileSize
  contentHash := if pf.contentHash = "" then none else some pf.contentHash
  language := pf.language
  skipReason := pf.skipReason
  chunks := pf.chunks.zipIdx.map fun (ch, i) => ch.record provider model (vectors i)
  parsedFrom := pf.parsedFrom

/-- The row has a `modified_time` : the diff may trust it without reading the file. -/
def FileRow.Dated (r : FileRow) : Prop :=
  r.modifiedTime ≠ none

theorem FileRow.not_dated_dirty (r : FileRow) : ¬r.dirty.Dated :=
  fun h => h rfl

/-- A run, with everything it reads from outside. `files` are the scanned paths with their
relative keys, `orphans` the set difference `removed` in the order it was iterated. -/
structure Run where
  files : List (String × String)
  incremental : Bool
  doCleanup : Bool
  mtimeEpsilon : ℚ
  parseBatchSize : ℕ
  provider : String
  model : String
  sample : String → FileSample
  vectors : String → ℕ → Option (List F32)
  orphans : List String
  cut : ℕ

namespace Run

/-- The map `rel_keys` built from the pairs. -/
def relKeys (run : Run) (path : String) : Option String :=
  (run.files.reverse.find? (·.1 = path)).map (·.2)

section

variable (xxh3_64 : Bytes → UInt64) (run : Run) (s : Store)

/-- The verdict of the diff on one path. -/
def verdict (path : String) : FileVerdict :=
  fileVerdict xxh3_64 run.mtimeEpsilon (readFileStates s.db) run.relKeys
    (fun p => (run.sample p).toDiffSample) path

/-- The diff of the run. -/
def diff : DiffResult :=
  computeDiff xxh3_64 run.mtimeEpsilon (readFileStates s.db) run.relKeys
    (fun p => (run.sample p).toDiffSample) (run.files.map (·.1))

/-- The files to process : those the diff found changed, or all of them on a forced run. -/
def batchPaths : List String :=
  if run.incremental then (run.diff xxh3_64 s).changed else run.files.map (·.1)

/-- The record of one processed file. -/
def fileRecord (path : String) : FileRecord :=
  (parseFile (run.diff xxh3_64 s) run.relKeys path (run.sample path)).record run.provider run.model
    (run.diff xxh3_64 s).existingIds (run.vectors path)

/-- What the store thread is to commit. None when `orphans` does not enumerate the removed
paths. -/
def session : Option Session :=
  if run.orphans.Perm (run.diff xxh3_64 s).removed then
    some {
      orphans := if run.doCleanup then run.orphans else []
      batches := slices (max run.parseBatchSize 1)
        ((run.batchPaths xxh3_64 s).map (run.fileRecord xxh3_64 s))
      cut := run.cut }
  else none

/-- The run as a step of the store. -/
def step (toTimestamp : ℚ → ℚ) (insertBatchSize : ℕ) : Option Store :=
  (run.session xxh3_64 s).map fun sess => sess.run toTimestamp insertBatchSize s

end

/-! ## What a run may rely on -/

/-- The scanned files have distinct paths and distinct relative keys. -/
def DistinctFiles (run : Run) : Prop :=
  (run.files.map (·.1)).Nodup ∧ (run.files.map (·.2)).Nodup

/-- No write lands between the diff's look at a file and the parse of it. -/
def Stable (run : Run) : Prop :=
  ∀ f ∈ run.files, (run.sample f.1).parsedFrom = (run.sample f.1).content

/-- A file whose mtime and size match its row still has the bytes its chunks were parsed
from : the trust of the diff's fast path. -/
def MetadataHonest (run : Run) (s : Store) : Prop :=
  ∀ f ∈ run.files, ∀ r ∈ s.db.files, r.path = f.2 →
    MetadataMatches run.mtimeEpsilon r.entry (run.sample f.1).toDiffSample →
    ∀ u ∈ s.lastUpsert r.id, (run.sample f.1).content = u.record.parsedFrom

/-- The run is not cut in the delete window of a row with a `modified_time` that owns
chunks. -/
def Unsevered (xxh3_64 : Bytes → UInt64) (run : Run) (s : Store) : Prop :=
  ∀ sess, run.session xxh3_64 s = some sess → ¬sess.Severs FileRow.Dated s

variable {xxh3_64 : Bytes → UInt64} {run : Run} {s : Store}

variable {f : String × String}

theorem relKeys_eq (h : run.DistinctFiles) (hf : f ∈ run.files) :
    run.relKeys f.1 = some f.2 := by
  have hnodup : (run.files.reverse.map (·.1)).Nodup := by
    rw [List.map_reverse]
    exact List.nodup_reverse.2 h.1
  rw [relKeys, find?_key hnodup (List.mem_reverse.2 hf)]
  rfl

theorem mem_relKeys (h : run.DistinctFiles) {k : String} :
    k ∈ (run.files.map (·.1)).filterMap run.relKeys ↔ ∃ f ∈ run.files, f.2 = k := by
  rw [List.mem_filterMap]
  constructor
  · rintro ⟨_, hp, hk⟩
    obtain ⟨f, hf, rfl⟩ := List.mem_map.1 hp
    rw [relKeys_eq h hf] at hk
    exact ⟨f, hf, Option.some.inj hk⟩
  · rintro ⟨f, hf, rfl⟩
    exact ⟨f.1, List.mem_map_of_mem hf, relKeys_eq h hf⟩

/-! ## The records of a run -/

theorem fileRecord_path (h : run.DistinctFiles) (hf : f ∈ run.files) :
    (run.fileRecord xxh3_64 s f.1).path = f.2 := by
  change (parseFile _ _ _ _).relPath = _
  rw [(parseFile_fields _ _ _ _).1, relKeys_eq h hf]
  rfl

theorem fileRecord_parsedFrom (path : String) :
    (run.fileRecord xxh3_64 s path).parsedFrom = (run.sample path).parsedFrom := by
  change (parseFile _ _ _ _).parsedFrom = _
  rw [(parseFile_fields _ _ _ _).2.2.1]

theorem fileRecord_content (path : String) :
    (run.fileRecord xxh3_64 s path).chunks.map ChunkRecord.content =
      (run.sample path).item.chunkList := by
  rw [← (parseFile_fields (run.diff xxh3_64 s) run.relKeys path (run.sample path)).2.2.2]
  exact map_content_zipIdx _ _ _ _

/-- A record carries the hash the diff handed over. -/
theorem fileRecord_contentHash (hf : f ∈ run.files) {hash : String}
    (h : (run.fileRecord xxh3_64 s f.1).contentHash = some hash) :
    (run.verdict xxh3_64 s f.1).newHash = some hash := by
  change (if (parseFile _ _ _ _).contentHash = "" then none
    else some (parseFile _ _ _ _).contentHash) = some hash at h
  rw [(parseFile_fields _ _ _ _).2.1] at h
  have hmem : f.1 ∈ run.files.map (·.1) := List.mem_map_of_mem hf
  have hdiff : (run.diff xxh3_64 s).newHashes f.1 = (run.verdict xxh3_64 s f.1).newHash :=
    computeDiff_newHashes hmem
  rw [hdiff] at h
  cases hv : (run.verdict xxh3_64 s f.1).newHash with
  | none => simp [hv] at h
  | some new =>
    by_cases hne : new = ""
    · simp [hv, hne] at h
    · simpa [hv, hne] using h

theorem mem_batchPaths {p : String} (hp : p ∈ run.batchPaths xxh3_64 s) :
    ∃ f ∈ run.files, f.1 = p := by
  unfold batchPaths at hp
  split at hp
  · rw [diff, computeDiff_changed] at hp
    exact List.mem_map.1 (List.mem_of_mem_filter hp)
  · exact List.mem_map.1 hp

variable {sess : Session}

/-- The records of the batches are those of the paths to process. -/
theorem flatten_batches (h : run.session xxh3_64 s = some sess) :
    sess.batches.flatten = (run.batchPaths xxh3_64 s).map (run.fileRecord xxh3_64 s) := by
  unfold session at h
  split at h
  · obtain rfl := Option.some.inj h
    exact flatten_slices (by omega) _
  · cases h

theorem mem_batches (h : run.session xxh3_64 s = some sess)
    {files : List FileRecord} (hfiles : files ∈ sess.batches) {g : FileRecord} (hg : g ∈ files) :
    ∃ f ∈ run.files, g = run.fileRecord xxh3_64 s f.1 := by
  have hflat : g ∈ sess.batches.flatten := List.mem_flatten.2 ⟨files, hfiles, hg⟩
  rw [flatten_batches h] at hflat
  obtain ⟨p, hp, rfl⟩ := List.mem_map.1 hflat
  obtain ⟨f, hf, rfl⟩ := mem_batchPaths hp
  exact ⟨f, hf, rfl⟩

/-- Distinct relative keys give the records of a run distinct paths. -/
theorem nodup_records (h : run.DistinctFiles) :
    (((run.batchPaths xxh3_64 s).map (run.fileRecord xxh3_64 s)).map (·.path)).Nodup := by
  have hpaths : ((run.batchPaths xxh3_64 s).map (run.fileRecord xxh3_64 s)).map (·.path) =
      (run.batchPaths xxh3_64 s).map fun p => (run.relKeys p).getD "" := by
    rw [List.map_map]
    refine List.map_congr_left fun p hp => ?_
    obtain ⟨f, hf, rfl⟩ := mem_batchPaths hp
    simp [fileRecord_path h hf, relKeys_eq h hf]
  have hsub : (run.batchPaths xxh3_64 s).Sublist (run.files.map (·.1)) := by
    unfold batchPaths
    split
    · rw [diff, computeDiff_changed]
      exact List.filter_sublist
    · exact List.Sublist.refl _
  have hkeys : (run.files.map (·.1)).map (fun p => (run.relKeys p).getD "") =
      run.files.map (·.2) := by
    rw [List.map_map]
    refine List.map_congr_left fun f hf => ?_
    simp [relKeys_eq h hf]
  rw [hpaths]
  exact (hkeys ▸ h.2).sublist (hsub.map _)

variable {toTimestamp : ℚ → ℚ}

theorem singleOwner {q : FileRow → Prop} (h : run.DistinctFiles)
    (hs : run.session xxh3_64 s = some sess) :
    sess.SingleOwner toTimestamp q := by
  refine singleOwner_of_batches fun files hfiles => singleOwner_of_nodup ?_
  have hflat : (((run.batchPaths xxh3_64 s).map (run.fileRecord xxh3_64 s)).map (·.path)).Nodup :=
    nodup_records h
  rw [← flatten_batches hs] at hflat
  exact hflat.sublist ((List.sublist_flatten_of_mem hfiles).map _)

/-- A run of distinct files keeps the store's invariant when it is not severed. -/
theorem inv_step {size : ℕ} {s' : Store}
    (hinv : s.Inv toTimestamp FileRow.Dated) (hd : run.DistinctFiles)
    (hu : run.Unsevered xxh3_64 s) (hs : run.step xxh3_64 s toTimestamp size = some s') :
    s'.Inv toTimestamp FileRow.Dated := by
  obtain ⟨sess, hsess, rfl⟩ := Option.map_eq_some_iff.1 hs
  exact (hinv.session (singleOwner hd hsess)).1 (hu sess hsess)

/-- The upserts a run adds are of its files. -/
theorem mem_upserts_step {size : ℕ} {s' : Store}
    (hs : run.step xxh3_64 s toTimestamp size = some s') {u : Upsert} (hu : u ∈ s'.upserts) :
    u ∈ s.upserts ∨ ∃ f ∈ run.files, u.record = run.fileRecord xxh3_64 s f.1 := by
  obtain ⟨sess, hsess, rfl⟩ := Option.map_eq_some_iff.1 hs
  rcases Session.mem_upserts_run hu with hu | ⟨files, hfiles, hu⟩
  · exact Or.inl hu
  · exact Or.inr (mem_batches hsess hfiles hu)

end Run

end ChunkHound
