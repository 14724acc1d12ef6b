import ChunkHound.HashedBytes
import ChunkHound.RelativePaths

/-!
# Orphan cleanup

An indexing run of a directory removes the rows of files that are gone.
`_cleanup_orphaned_files` of `services/indexing_coordinator.py` takes the rows in the directory
and asks the disk and the filter about each. The native pipeline is given the discovered files
with their keys, and removes every row that is none of them (`run_rust_pipeline` of
`pipeline_bridge.py`, `IndexingPipeline::run`). The coordinator keys files relative to its base
directory, `run_rust_pipeline` relative to the directory of the run.

An `IndexRun` is what either pipeline is given and reads from outside. The paths deleted are
those handed to `delete_files_batch`, and the `delete_paths` of the native run. A filter that
could not evaluate its rules is degraded from then on.
-/

namespace ChunkHound

open Slices

/-- What `should_index` says of a path. `broken` is a refusal that leaves the filter degraded. -/
inductive FilterVerdict
  | accepted
  | rejected
  | broken
  deriving DecidableEq, Repr

inductive CleanupReason
  | missingOnDisk
  | excludedByCurrentPolicy
  | degradedFilterSkipped
  deriving DecidableEq, Repr

def CleanupReason.text : CleanupReason → String
  | .missingOnDisk => "missing_on_disk"
  | .excludedByCurrentPolicy => "excluded_by_current_policy"
  | .degradedFilterSkipped => "degraded_filter_skipped"

/-- An indexing run of `directory`. `native` holds the settings and the samples of a native
run. -/
structure IndexRun where
  fs : FileSystem
  baseDirectory : PurePath
  directory : PurePath
  files : List PurePath
  verdict : PurePath → FilterVerdict
  doCleanup : Bool
  deleteFilesBatch : List String → Except String ℕ
  native : Run

def orphanCleanupBatchSize : ℕ := 128

/-- The `WHERE` of the query : the row is at or below the directory, `.` is the base. -/
def inScope (relativeDirectory : PurePath) (path : String) : Bool :=
  relativeDirectory.parts = [] ∨ path.toList = relativeDirectory.posix ∨
    relativeDirectory.posix ++ ['/'] <+: path.toList

/-- What answers the query. -/
inductive Backend
  | duckdb
  | lancedb
  deriving DecidableEq, Repr

/-- `execute_query` : LanceDB reads the columns of a query and no more. -/
def Backend.executeQuery (backend : Backend) (relativeDirectory : PurePath)
    (rows : List String) : List String :=
  match backend with
  | .duckdb => rows.filter (inScope relativeDirectory)
  | .lancedb => rows

/-- `_classify_cleanup_candidate`, of what `exists()` says and of a filter that may raise or
degrade itself when it is asked. -/
def classifyCandidate {σ : Type} (isDegraded : σ → Bool)
    (shouldIndex : σ → Except String Bool × σ) (currentFilePaths : List String) (path : String)
    (pathExists : Except String Bool) (s : σ) : Except String (Option CleanupReason) × σ :=
  if path ∈ currentFilePaths then (.ok none, s)
  else
    match pathExists with
    | .error e => (.error e, s)
    | .ok false => (.ok (some .missingOnDisk), s)
    | .ok true =>
      if isDegraded s then (.ok (some .degradedFilterSkipped), s)
      else
        match shouldIndex s with
        | (.error e, s) => (.error e, s)
        | (.ok true, s) => (.ok none, s)
        | (.ok false, s) =>
          -- The first call may have degraded the filter.
          if isDegraded s then (.ok (some .degradedFilterSkipped), s)
          else (.ok (some .excludedByCurrentPolicy), s)

/-- A row is put on the list, or counted as skipped. -/
def enqueue (path : String) (reason : Option CleanupReason)
    (rest : List (String × CleanupReason)) : List (String × CleanupReason) :=
  match reason with
  | none => rest
  | some .degradedFilterSkipped => rest
  | some reason => (path, reason) :: rest

theorem mem_enqueue {path : String} {reason : Option CleanupReason}
    {rest : List (String × CleanupReason)} {x : String × CleanupReason} :
    x ∈ enqueue path reason rest ↔
      x.1 = path ∧ x.2 ≠ .degradedFilterSkipped ∧ reason = some x.2 ∨ x ∈ rest := by
  unfold enqueue
  split
  · simp
  · constructor
    · exact Or.inr
    · rintro (⟨-, hne, heq⟩ | hx)
      · exact absurd (Option.some.inj heq).symm hne
      · exact hx
  · rename_i reason hne
    rw [List.mem_cons]
    constructor
    · rintro (rfl | hx)
      · exact Or.inl ⟨rfl, fun heq => hne heq, rfl⟩
      · exact Or.inr hx
    · rintro (⟨rfl, -, heq⟩ | hx)
      · exact Or.inl (Prod.ext rfl (Option.some.inj heq).symm)
      · exact Or.inr hx

/-- The loop over the rows of the query, from the one with this number on. -/
def orphanedFiles {σ : Type}
    (classify : ℕ → String → σ → Except String (Option CleanupReason) × σ) :
    ℕ → σ → List String → Except String (List (String × CleanupReason))
  | _, _, [] => .ok []
  | row, s, path :: paths =>
    match classify row path s with
    | (.error e, _) => .error e
    | (.ok reason, s) =>
      (orphanedFiles classify (row + 1) s paths).map (enqueue path reason)

/-- The paths to delete, by reason and in batches. -/
def cleanupBatches (orphanedFiles : List (String × CleanupReason)) :
    List (CleanupReason × List String) :=
  [CleanupReason.missingOnDisk, CleanupReason.excludedByCurrentPolicy].flatMap fun reason =>
    (slices orphanCleanupBatchSize
      ((orphanedFiles.filter (·.2 = reason)).map (·.1))).map (reason, ·)

def cleanupFailed (message : String) : String :=
  if message.startsWith "Storage reconciliation cleanup failed:" then message
  else "Storage reconciliation cleanup failed: " ++ message

namespace IndexRun

variable (run : IndexRun)

/-! ## The coordinator's cleanup -/

/-- `_get_relative_path`. -/
def getRelativePath (path : PurePath) : Except String PurePath :=
  run.fs.getRelativePathSafe path run.baseDirectory

/-- The key the coordinator gives a file. -/
def pythonKey (path : PurePath) : Option String :=
  (run.getRelativePath path).toOption.map PurePath.asPosix

/-- The file of a row. -/
def fullPath (path : String) : PurePath :=
  run.baseDirectory.join (PurePath.ofString path)

/-- `should_index`, with `is_degraded` before and after. -/
def shouldIndex (path : PurePath) (isDegraded : Bool) : Except String Bool × Bool :=
  match run.verdict path with
  | .accepted => (.ok true, isDegraded)
  | .rejected => (.ok false, isDegraded)
  | .broken => (.ok false, true)

/-- `_classify_cleanup_candidate`. -/
def classifyCleanupCandidate (currentFilePaths : List String) (path : String)
    (isDegraded : Bool) : Except String (Option CleanupReason) × Bool :=
  classifyCandidate id (run.shouldIndex (run.fullPath path)) currentFilePaths path
    (.ok (run.fs.onDisk (run.fullPath path))) isDegraded

/-- Delete batch after batch, up to one that fails : the paths handed over, and the count. -/
def deleteBatches : List (CleanupReason × List String) → List String × Except String ℕ
  | [] => ([], .ok 0)
  | (reason, batch) :: batches =>
    match run.deleteFilesBatch batch with
    | .error e =>
      (batch, .error ("orphan/excluded cleanup delete failed for " ++ batch.headD "" ++
        " (reason=" ++ reason.text ++ ", batch_count=" ++ toString batch.length ++ "): " ++ e))
    | .ok deletedCount =>
      if deletedCount ≠ batch.length then
        (batch, .error ("orphan/excluded cleanup delete returned false for " ++ batch.headD "" ++
          " (reason=" ++ reason.text ++ ", deleted_count=" ++ toString deletedCount ++
          ", batch_count=" ++ toString batch.length ++ ")"))
      else
        let (deleted, orphanedCount) := deleteBatches batches
        (batch ++ deleted, orphanedCount.map (batch.length + ·))

/-- `_cleanup_orphaned_files`, with its query and the loop over the rows : the paths handed over
for deletion, and the count. -/
def cleanupWith (query : PurePath → List String)
    (loop : List String → List String → Except String (List (String × CleanupReason))) :
    List String × Except String ℕ :=
  match run.files.mapM run.getRelativePath, run.getRelativePath run.directory with
  | .error e, _ => ([], .error (cleanupFailed e))
  | .ok _, .error e => ([], .error (cleanupFailed e))
  | .ok currentFiles, .ok relativeDirectory =>
    match loop (currentFiles.map PurePath.asPosix) (query relativeDirectory) with
    | .error e => ([], .error (cleanupFailed e))
    | .ok orphaned =>
      let (deleted, orphanedCount) := run.deleteBatches (cleanupBatches orphaned)
      (deleted, orphanedCount.mapError cleanupFailed)

/-- `_cleanup_orphaned_files` of a DuckDB store, which is the one both pipelines write. -/
def cleanupOrphanedFiles (rows : List String) : List String × Except String ℕ :=
  run.cleanupWith (fun relativeDirectory => Backend.duckdb.executeQuery relativeDirectory rows)
    fun currentFilePaths => orphanedFiles
      (fun _ => run.classifyCleanupCandidate currentFilePaths) 0 false

/-- What `process_directory` deletes on the Python pipeline : it returns before the cleanup
when no file was discovered. -/
def pythonDeleted (s : Store) : List String :=
  if run.files = [] ∨ run.doCleanup = false then []
  else (run.cleanupOrphanedFiles (s.db.files.map (·.path))).1

/-! ## The native cleanup -/

/-- The path a file is read through. -/
def ioPath (path : PurePath) : PurePath :=
  if run.fs.isSymlink path then path else run.fs.resolve path

/-- The key `run_rust_pipeline` gives a file : its `project_root` is the directory. -/
def nativeKey (path : PurePath) : Option String :=
  (run.fs.getRelativePathSafe path run.directory).toOption.map PurePath.asPosix

/-- `file_entries`. A file without a key is skipped. -/
def fileEntries : List (String × String) :=
  run.files.filterMap fun path => (run.nativeKey path).map ((run.ioPath path).str, ·)

/-- The run `IndexingPipeline::run` makes. -/
def nativeRun : Run :=
  { run.native with files := run.fileEntries, doCleanup := run.doCleanup }

/-- `delete_paths`. -/
def nativeDeleted (xxh3_64 : Bytes → UInt64) (s : Store) : List String :=
  if run.doCleanup then (run.nativeRun.diff xxh3_64 s).removed else []

/-! ## Staying in scope -/

/-- The row is in the directory, as the paths are spelled or as they resolve. -/
def LiesUnder (path : String) : Prop :=
  run.directory.parts <+: (run.fullPath path).parts ∨
    (run.fs.resolve run.directory).parts <+:
      ((run.fs.resolve run.baseDirectory).join (PurePath.ofString path)).parts

/-- The row is in the directory, and its file is absent from disk or excluded by the filter. -/
structure Orphan (path : String) : Prop where
  liesUnder : run.LiesUnder path
  absentOrExcluded : run.fs.onDisk (run.fullPath path) = false ∨
    run.verdict (run.fullPath path) = .rejected

/-- The rows are those of the discovered files under their keys : what a run with these keys
leaves of an unchanged tree. -/
structure IndexedBy (key : PurePath → Option String) (s : Store) : Prop where
  sound : ∀ row ∈ s.db.files, ∃ path ∈ run.files, key path = some row.path
  complete : ∀ path ∈ run.files, ∀ k, key path = some k → ∃ row ∈ s.db.files, row.path = k

/-- Both pipelines delete orphans only, give a file one key, and find nothing to delete or to
add in a tree the other one indexed. -/
structure Contained (xxh3_64 : Bytes → UInt64) (s : Store) : Prop where
  python : ∀ path ∈ run.pythonDeleted s, run.Orphan path
  native : ∀ path ∈ run.nativeDeleted xxh3_64 s, run.Orphan path
  sameKey : ∀ path ∈ run.files, run.pythonKey path = run.nativeKey path
  toNative : run.IndexedBy run.pythonKey s → run.nativeDeleted xxh3_64 s = [] ∧
    run.IndexedBy run.nativeKey s
  toPython : run.IndexedBy run.nativeKey s → run.pythonDeleted s = [] ∧
    run.IndexedBy run.pythonKey s

/-- The run is of the base directory itself, or found no file. A row whose file was not
discovered is an orphan, and files read through one path have one key. -/
structure WholeBase (s : Store) : Prop where
  sameRoot : run.files = [] ∨ run.directory = run.baseDirectory
  undiscovered : run.doCleanup = true → ∀ row ∈ s.db.files,
    (∀ path ∈ run.files, run.pythonKey path ≠ some row.path) → run.Orphan row.path
  sameFile : run.doCleanup = true → ∀ p ∈ run.files, ∀ q ∈ run.files,
    run.ioPath p = run.ioPath q → run.pythonKey p = run.pythonKey q

/-- No directory is reached through a link : the base and the directory are resolved, and a
discovered file is resolved or a link itself. Each is spelled below the one it was found from. -/
structure NoLinkedDirectory : Prop where
  base : run.fs.resolve run.baseDirectory = run.baseDirectory
  directory : run.fs.resolve run.directory = run.directory
  files : ∀ path ∈ run.files, run.fs.isSymlink path = true ∨ run.fs.resolve path = path
  noParent : ∀ path ∈ run.files, parentPart ∉ path.parts
  directory_below : run.baseDirectory.parts <+: run.directory.parts
  files_below : ∀ path ∈ run.files, run.directory.parts <+: path.parts

variable {run}

/-! ## What the coordinator deletes -/

variable {path : String}

/-- The rows of the query lie in the directory. -/
theorem liesUnder_of_inScope {relativeDirectory : PurePath}
    (hrel : run.getRelativePath run.directory = .ok relativeDirectory)
    (h : inScope relativeDirectory path = true) : run.LiesUnder path := by
  have hpre : relativeDirectory.parts <+: (PurePath.ofString path).parts := by
    rcases of_decide_eq_true h with h | h | ⟨rest, h⟩
    · rw [h]
      exact List.nil_prefix
    · change _ <+: PurePath.segments path.toList
      rw [h, PurePath.segments_posix]
    · change _ <+: PurePath.segments path.toList
      rw [← h, List.append_assoc, List.singleton_append, PurePath.segments_append,
        PurePath.segments_posix]
      exact List.prefix_append _ _
  rcases FileSystem.getRelativePathSafe_ok hrel with hparts | hparts
  · exact Or.inl (hparts ▸ (List.prefix_append_right_inj _).2 hpre)
  · exact Or.inr (hparts ▸ (List.prefix_append_right_inj _).2 hpre)

variable {current : List String}

/-- Why a row is an orphan : it is none of the current files, and its file is gone or excluded. -/
theorem classifyCleanupCandidate_some {d d' : Bool}
    {reason : CleanupReason} (hne : reason ≠ .degradedFilterSkipped)
    (h : run.classifyCleanupCandidate current path d = (.ok (some reason), d')) :
    path ∉ current ∧ (run.fs.onDisk (run.fullPath path) = false ∨
      run.verdict (run.fullPath path) = .rejected) := by
  unfold classifyCleanupCandidate classifyCandidate shouldIndex at h
  by_cases hcur : path ∈ current
  · simp [hcur] at h
  · refine ⟨hcur, ?_⟩
    cases hdisk : run.fs.onDisk (run.fullPath path) with
    | false => exact Or.inl rfl
    | true =>
      cases d with
      | true => simp [hcur, hdisk, hne.symm] at h
      | false =>
        cases hv : run.verdict (run.fullPath path) with
        | accepted => simp [hcur, hdisk, hv] at h
        | broken => simp [hcur, hdisk, hv, hne.symm] at h
        | rejected => exact Or.inr rfl

/-- An orphaned row is none of the current files, and its file is gone or excluded. -/
theorem mem_orphanedFiles : ∀ {rows : List String} {row : ℕ} {d : Bool}
    {orphaned : List (String × CleanupReason)} {x : String × CleanupReason},
    orphanedFiles (fun _ => run.classifyCleanupCandidate current) row d rows = .ok orphaned →
      x ∈ orphaned → x.1 ∈ rows ∧ x.1 ∉ current ∧ (run.fs.onDisk (run.fullPath x.1) = false ∨
        run.verdict (run.fullPath x.1) = .rejected)
  | [], _, _, orphaned, _, h, hx => by
    obtain rfl := Except.ok.inj h
    exact absurd hx List.not_mem_nil
  | path :: paths, row, d, orphaned, x, h, hx => by
    rw [orphanedFiles] at h
    cases hc : run.classifyCleanupCandidate current path d with
    | mk result d' =>
      rw [hc] at h
      cases result with
      | error e => cases h
      | ok reason =>
        cases hrest : orphanedFiles (fun _ => run.classifyCleanupCandidate current) (row + 1) d'
            paths with
        | error e => simp [hrest, Except.map] at h
        | ok rest =>
          obtain rfl : enqueue path reason rest = orphaned := by
            simpa [hrest, Except.map] using h
          rcases mem_enqueue.1 hx with ⟨hpath, hne, rfl⟩ | hx
          · rw [hpath]
            exact ⟨List.mem_cons_self, classifyCleanupCandidate_some hne hc⟩
          · obtain ⟨hmem, hx⟩ := mem_orphanedFiles hrest hx
            exact ⟨List.mem_cons_of_mem _ hmem, hx⟩

theorem mem_deleteBatches : ∀ {batches : List (CleanupReason × List String)} {path : String},
    path ∈ (run.deleteBatches batches).1 → ∃ b ∈ batches, path ∈ b.2
  | [], _, h => by simp [deleteBatches] at h
  | (reason, batch) :: batches, path, h => by
    have hfirst : path ∈ batch → ∃ b ∈ (reason, batch) :: batches, path ∈ b.2 := fun hp =>
      ⟨_, List.mem_cons_self, hp⟩
    rw [deleteBatches] at h
    cases hd : run.deleteFilesBatch batch with
    | error e => exact hfirst (by simpa [hd] using h)
    | ok deletedCount =>
      by_cases hlen : deletedCount ≠ batch.length
      · exact hfirst (by simpa [hd, hlen] using h)
      · rcases List.mem_append.1 (by simpa [hd, hlen] using h) with h | h
        · exact hfirst h
        · obtain ⟨b, hb, hp⟩ := mem_deleteBatches h
          exact ⟨b, List.mem_cons_of_mem _ hb, hp⟩

theorem mem_cleanupBatches {orphaned : List (String × CleanupReason)}
    {b : CleanupReason × List String} (hb : b ∈ cleanupBatches orphaned)
    (h : path ∈ b.2) : ∃ x ∈ orphaned, x.1 = path := by
  obtain ⟨reason, -, hb⟩ := List.mem_flatMap.1 hb
  obtain ⟨batch, hbatch, rfl⟩ := List.mem_map.1 hb
  have hflat : path ∈ (slices orphanCleanupBatchSize
      ((orphaned.filter (·.2 = reason)).map (·.1))).flatten :=
    List.mem_flatten.2 ⟨batch, hbatch, h⟩
  rw [flatten_slices (by decide)] at hflat
  obtain ⟨x, hx, rfl⟩ := List.mem_map.1 hflat
  exact ⟨x, List.mem_of_mem_filter hx, rfl⟩

/-- What a cleanup hands over is on its list. -/
theorem mem_cleanupWith {query : PurePath → List String}
    {loop : List String → List String → Except String (List (String × CleanupReason))}
    (h : path ∈ (run.cleanupWith query loop).1) :
    ∃ currentFiles relativeDirectory orphaned,
      run.files.mapM run.getRelativePath = .ok currentFiles ∧
      run.getRelativePath run.directory = .ok relativeDirectory ∧
      loop (currentFiles.map PurePath.asPosix) (query relativeDirectory) = .ok orphaned ∧
        ∃ x ∈ orphaned, x.1 = path := by
  unfold cleanupWith at h
  split at h
  · exact absurd h List.not_mem_nil
  · exact absurd h List.not_mem_nil
  · rename_i currentFiles relativeDirectory hcurrent hrel
    split at h
    · exact absurd h List.not_mem_nil
    · rename_i orphaned horphaned
      obtain ⟨b, hb, hp⟩ := mem_deleteBatches h
      exact ⟨currentFiles, relativeDirectory, orphaned, hcurrent, hrel, horphaned,
        mem_cleanupBatches hb hp⟩

variable {s : Store}

/-- What the Python pipeline deletes is an orphan, and none of the discovered files. -/
theorem mem_pythonDeleted (h : path ∈ run.pythonDeleted s) :
    run.Orphan path ∧ (∃ row ∈ s.db.files, row.path = path) ∧
      ∀ p ∈ run.files, run.pythonKey p ≠ some path := by
  unfold pythonDeleted at h
  split at h
  · simp at h
  · obtain ⟨current, relativeDirectory, orphaned, hcurrent, hrel, horphaned, x, hx, rfl⟩ :=
      mem_cleanupWith h
    obtain ⟨hrow, hcur, hgone⟩ := mem_orphanedFiles horphaned hx
    obtain ⟨hrow, hscope⟩ := List.mem_filter.1 hrow
    refine ⟨⟨liesUnder_of_inScope hrel hscope, hgone⟩, List.mem_map.1 hrow, fun p hp hkey => ?_⟩
    refine hcur (List.mem_map.2 ?_)
    cases hk : run.getRelativePath p with
    | error e => simp [pythonKey, hk, Except.toOption] at hkey
    | ok rel =>
      obtain ⟨rel', hmem, hrel'⟩ :=
        StepSystem.forall₂_mem_left (StepSystem.forall₂_of_mapM hcurrent) p hp
      obtain rfl : rel' = rel := Except.ok.inj (hrel'.symm.trans hk)
      exact ⟨rel', hmem, by
        simpa [pythonKey, hk, Except.toOption] using hkey⟩

/-! ## What the native pipeline deletes -/

/-- The keys the diff finds on disk. -/
def diskPaths (run : IndexRun) : List String :=
  (run.fileEntries.map (·.1)).filterMap run.nativeRun.relKeys

variable {xxh3_64 : Bytes → UInt64}

theorem mem_nativeDeleted :
    path ∈ run.nativeDeleted xxh3_64 s ↔ run.doCleanup = true ∧
      (∃ row ∈ s.db.files, row.path = path) ∧ path ∉ run.diskPaths := by
  have hrows : (readFileStates s.db).map (·.path) = s.db.files.map (·.path) := by
    rw [readFileStates, List.map_map]
    rfl
  unfold nativeDeleted
  split
  · rename_i hcl
    rw [Run.diff, mem_computeDiff_removed, hrows, List.mem_map]
    exact ⟨fun h => ⟨hcl, h⟩, fun h => h.2⟩
  · simp [*]

theorem mem_fileEntries {e : String × String} : e ∈ run.fileEntries ↔
    ∃ path ∈ run.files, e.1 = (run.ioPath path).str ∧ run.nativeKey path = some e.2 := by
  rw [fileEntries, List.mem_filterMap]
  constructor
  · rintro ⟨path, hp, he⟩
    obtain ⟨k, hk, rfl⟩ := Option.map_eq_some_iff.1 he
    exact ⟨path, hp, rfl, hk⟩
  · rintro ⟨path, hp, hio, hk⟩
    exact ⟨path, hp, by rw [hk, Option.map_some, ← hio]⟩

theorem nativeKey_of_relKeys {io k : String} (h : run.nativeRun.relKeys io = some k) :
    ∃ path ∈ run.files, io = (run.ioPath path).str ∧ run.nativeKey path = some k := by
  obtain ⟨e, he, rfl⟩ := Option.map_eq_some_iff.1 h
  have hmem : e ∈ run.fileEntries := List.mem_reverse.1 (List.mem_of_find?_eq_some he)
  obtain ⟨path, hp, hio, hk⟩ := mem_fileEntries.1 hmem
  have heq : e.1 = io := by simpa using List.find?_some he
  exact ⟨path, hp, heq.symm.trans hio, hk⟩

variable {k : String}

theorem nativeKey_of_mem_diskPaths (h : k ∈ run.diskPaths) :
    ∃ path ∈ run.files, run.nativeKey path = some k := by
  obtain ⟨io, -, hk⟩ := List.mem_filterMap.1 h
  obtain ⟨path, hp, -, hk⟩ := nativeKey_of_relKeys hk
  exact ⟨path, hp, hk⟩

variable {path : PurePath}

/-- The key of a discovered file is on disk, unless a file read through the same path has
another. -/
theorem mem_diskPaths (hp : path ∈ run.files) (hk : run.nativeKey path = some k)
    (hsame : ∀ q ∈ run.files, run.ioPath q = run.ioPath path → run.nativeKey q = some k) :
    k ∈ run.diskPaths := by
  have hentry : ((run.ioPath path).str, k) ∈ run.fileEntries :=
    mem_fileEntries.2 ⟨path, hp, rfl, hk⟩
  refine List.mem_filterMap.2 ⟨(run.ioPath path).str, List.mem_map.2 ⟨_, hentry, rfl⟩, ?_⟩
  cases hrel : run.nativeRun.relKeys (run.ioPath path).str with
  | none =>
    have hnone := List.find?_eq_none.1 (Option.map_eq_none_iff.1 hrel) _
      (List.mem_reverse.2 hentry)
    simp at hnone
  | some k' =>
    obtain ⟨q, hq, hio, hk'⟩ := nativeKey_of_relKeys hrel
    have hkey := hsame q hq (PurePath.str_injective hio.symm)
    rw [hk'] at hkey
    exact hkey

/-- A row the native pipeline deletes is that of no discovered file, when the files have one
key each. -/
theorem pythonKey_ne_of_mem_nativeDeleted
    (h : run.WholeBase s) (hkey : ∀ path ∈ run.files, run.pythonKey path = run.nativeKey path)
    (hk : k ∈ run.nativeDeleted xxh3_64 s) :
    ∀ path ∈ run.files, run.pythonKey path ≠ some k := by
  obtain ⟨hcl, -, hdisk⟩ := mem_nativeDeleted.1 hk
  intro path hp hpk
  refine hdisk (mem_diskPaths hp (by rw [← hkey path hp, hpk]) fun q hq hio => ?_)
  rw [← hkey q hq, h.sameFile hcl q hq path hp hio, hpk]

/-! ## When both stay in scope -/

theorem IndexedBy.congr {key key' : PurePath → Option String}
    (hkey : ∀ path ∈ run.files, key path = key' path) (h : run.IndexedBy key s) :
    run.IndexedBy key' s where
  sound row hrow := by
    obtain ⟨path, hp, hk⟩ := h.sound row hrow
    exact ⟨path, hp, by rw [← hkey path hp, hk]⟩
  complete path hp k hk := h.complete path hp k (by rw [hkey path hp, hk])

theorem contained_of_wholeBase (xxh3_64 : Bytes → UInt64) (h : run.WholeBase s) :
    run.Contained xxh3_64 s := by
  have hkey : ∀ path ∈ run.files, run.pythonKey path = run.nativeKey path := by
    intro path hp
    rcases h.sameRoot with hnil | hroot
    · simp [hnil] at hp
    · rw [nativeKey, hroot]
      rfl
  refine ⟨fun path hp => (mem_pythonDeleted hp).1, fun k hk => ?_, hkey, fun hi => ⟨?_, ?_⟩,
    fun hi => ⟨?_, ?_⟩⟩
  · obtain ⟨hcl, ⟨row, hrow, rfl⟩, -⟩ := mem_nativeDeleted.1 hk
    exact h.undiscovered hcl row hrow (pythonKey_ne_of_mem_nativeDeleted h hkey hk)
  · refine List.eq_nil_iff_forall_not_mem.2 fun k hk => ?_
    obtain ⟨-, ⟨row, hrow, rfl⟩, -⟩ := mem_nativeDeleted.1 hk
    obtain ⟨path, hp, hpk⟩ := hi.sound row hrow
    exact pythonKey_ne_of_mem_nativeDeleted h hkey hk path hp hpk
  · exact hi.congr hkey
  · refine List.eq_nil_iff_forall_not_mem.2 fun k hk => ?_
    obtain ⟨-, ⟨row, hrow, rfl⟩, hne⟩ := mem_pythonDeleted hk
    obtain ⟨path, hp, hpk⟩ := hi.sound row hrow
    exact hne path hp (by rw [hkey path hp, hpk])
  · exact hi.congr fun path hp => (hkey path hp).symm

theorem NoLinkedDirectory.pythonKey (h : run.NoLinkedDirectory)
    (hp : path ∈ run.files) : ∃ rel : PurePath, run.pythonKey path = some rel.asPosix ∧
      run.baseDirectory.parts ++ rel.parts = path.parts := by
  obtain ⟨rel, hrel, hparts⟩ := FileSystem.getRelativePathSafe_of_isPrefix
    (h.directory_below.trans (h.files_below path hp)) (h.noParent path hp) h.base (h.files path hp)
  exact ⟨rel, by rw [IndexRun.pythonKey, getRelativePath, hrel]; rfl, hparts⟩

theorem NoLinkedDirectory.nativeKey (h : run.NoLinkedDirectory)
    (hp : path ∈ run.files) : ∃ rel : PurePath, run.nativeKey path = some rel.asPosix ∧
      run.directory.parts ++ rel.parts = path.parts := by
  obtain ⟨rel, hrel, hparts⟩ := FileSystem.getRelativePathSafe_of_isPrefix
    (h.files_below path hp) (h.noParent path hp) h.directory (h.files path hp)
  exact ⟨rel, by rw [IndexRun.nativeKey, hrel]; rfl, hparts⟩

/-- A file is read through the path it was discovered under. -/
theorem NoLinkedDirectory.ioPath (h : run.NoLinkedDirectory)
    (hp : path ∈ run.files) : run.ioPath path = path := by
  unfold IndexRun.ioPath
  split
  · rfl
  · exact (h.files path hp).resolve_left ‹_›

theorem wholeBase_of_contained (hl : run.NoLinkedDirectory)
    (h : run.Contained xxh3_64 s) : run.WholeBase s where
  sameRoot := by
    rcases hfiles : run.files with _ | ⟨path, files⟩
    · exact Or.inl rfl
    · right
      have hp : path ∈ run.files := hfiles ▸ List.mem_cons_self
      obtain ⟨rel, hpy, hbase⟩ := hl.pythonKey hp
      obtain ⟨rel', hna, hdir⟩ := hl.nativeKey hp
      have hrel : rel = rel' := PurePath.asPosix_injective
        (Option.some.inj (hpy.symm.trans ((h.sameKey path hp).trans hna)))
      rw [← hrel, ← hbase] at hdir
      exact PurePath.ext (List.append_cancel_right hdir)
  undiscovered hcl row hrow hne := by
    refine h.native row.path (mem_nativeDeleted.2 ⟨hcl, ⟨row, hrow, rfl⟩, fun hdisk => ?_⟩)
    obtain ⟨path, hp, hk⟩ := nativeKey_of_mem_diskPaths hdisk
    exact hne path hp (by rw [h.sameKey path hp, hk])
  sameFile _ p hp q hq hio := by
    rw [hl.ioPath hp, hl.ioPath hq] at hio
    rw [hio]

end IndexRun

/-! ## Runs of a subdirectory, of nothing, and of the whole base -/

/-- A run of the directory `sub` of a base that holds two files, both indexed. -/
def subdirectoryRun : IndexRun where
  fs := .diskWith none [.ofString "b/sub/x.py", .ofString "b/other/y.py"]
  baseDirectory := .ofString "b"
  directory := .ofString "b/sub"
  files := [.ofString "b/sub/x.py"]
  verdict _ := .accepted
  doCleanup := true
  deleteFilesBatch batch := .ok batch.length
  native := oneFileRun 10 [97] [97]

def storeOf (paths : List String) : Store :=
  { Store.empty with
    db := { Db.empty with
      files := paths.zipIdx.map fun (path, i) => ⟨i, path, none, none, none, none, none⟩ } }

def failedDiscoveryRun : IndexRun :=
  { subdirectoryRun with directory := .ofString "b", files := [] }

/-- The base is indexed as a whole, and one file is gone. -/
def wholeBaseRun : IndexRun :=
  { subdirectoryRun with
    directory := .ofString "b"
    files := [.ofString "b/sub/x.py", .ofString "b/other/y.py"] }

end ChunkHound
