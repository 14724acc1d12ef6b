import ChunkHound.LanceChunks
import ChunkHound.RelativePaths

/-!
# File rows of the LanceDB store

`insert_file`, `record_skipped_file`, `update_file`, `delete_file_completely` and
`get_file_by_path` of `lancedb_provider.py`. A row is merged into the table by its path. The id of
a new row is a reading of the clock, and paths are put between quotes in the text of a query.

What a file should be known by is said with a map from paths to ids, which is kept beside the store
(`Traced`) : a path keeps its first id until it is deleted. `insert_file` gives a row that is there
a new id, while `record_skipped_file` preserves it "so chunks.file_id references are not orphaned".
The store agrees with the map in all runs in which `insert_file` is given the id that the path has,
a new id is not taken, and no path has a quote (`identity_kept`).
-/

namespace ChunkHound

/-- `normalize_path_for_lookup`. -/
def FileSystem.normalizePathForLookup (fs : FileSystem) (baseDir : Option PurePath)
    (inputPath : String) : Except String String :=
  let path := PurePath.ofString inputPath
  if inputPath.toList.head? ≠ some '/' then .ok path.asPosix
  else
    match baseDir with
    | none => .error ("Cannot normalize absolute path without base_dir: " ++ inputPath ++ ". " ++
        "This indicates a bug - base directory should always be available from config.")
    | some base =>
      match fs.getRelativePathSafe path base with
      | .ok rel => .ok rel.asPosix
      | .error _ => .error ("Path " ++ inputPath ++ " is not under base directory " ++ base.str ++
          ". This indicates a configuration or indexing issue.")

namespace Lance

open StepSystem Upserts

/-! ## Rows and queries -/

/-- A file model. The last three fields are what `__post_init__` establishes. -/
structure File where
  path : String
  mtime : ℚ
  language : String
  sizeBytes : ℤ
  id : Option ℤ
  contentHash : Option String
  path_ok : path ≠ ""
  size_ok : 0 ≤ sizeBytes
  mtime_ok : 0 ≤ mtime

structure FileRow where
  id : ℤ
  path : String
  size : ℤ
  modifiedTime : ℚ
  contentHash : String
  indexedTime : ℚ
  language : String
  encoding : String
  lineCount : ℤ
  skipReason : Option String
  deriving DecidableEq

/-- `path = '…'`, with the path as it is. -/
def pathQuery (path : String) : String := "path = '" ++ path ++ "'"

/-- The text between the quotes is the path, to the letter. -/
def QuoteFree (path : String) : Prop := '\'' ∉ path.toList

instance (path : String) : Decidable (QuoteFree path) :=
  inferInstanceAs (Decidable ('\'' ∉ path.toList))

/-- What is outside of the provider. `query` has the rows that a filter of SQL text selects, or none
when it raises. -/
structure Database where
  fs : FileSystem
  baseDirectory : Option PurePath
  query : String → Option (FileRow → Bool)
  query_path : ∀ path, QuoteFree path →
    query (pathQuery path) = some fun row => decide (row.path = path)

structure Store where
  files : List FileRow
  chunks : ChunkTable

/-- The two readings of `time.time()` : the first in microseconds. -/
structure Clock where
  id : ℤ
  indexed : ℚ

/-! ## The operations -/

/-- `merge_insert("path")` of one row. -/
def mergeByPath (row : FileRow) (files : List FileRow) : List FileRow :=
  upsert (.first FileRow.path) [row] files

namespace Store

variable (db : Database) (s : Store)

/-- `file.id or int(time.time() * 1000000)`. -/
def insertedId (file : File) (clock : Clock) : ℤ :=
  (file.id.filter (· ≠ 0)).getD clock.id

def insertedRow (file : File) (clock : Clock) : FileRow where
  id := insertedId file clock
  path := file.path
  size := file.sizeBytes
  modifiedTime := file.mtime
  contentHash := file.contentHash.getD ""
  indexedTime := clock.indexed
  language := file.language
  encoding := "utf-8"
  lineCount := 0
  skipReason := none

/-- `_executor_insert_file`. None for the id when the query for it raises. -/
def insertFile (file : File) (clock : Clock) : Option ℤ × Store :=
  let row := insertedRow file clock
  let files := mergeByPath row s.files
  ((db.query (pathQuery file.path)).map fun selects =>
      ((files.filter selects).head?.map FileRow.id).getD row.id,
    { s with files := files })

/-- `_executor_get_file_by_path`. -/
def getFileByPath (path : String) : Option FileRow :=
  match db.fs.normalizePathForLookup db.baseDirectory path with
  | .error _ => none
  | .ok normalizedPath =>
    match db.query (pathQuery normalizedPath) with
    | none => none
    | some selects => (s.files.filter selects).head?

/-- `_executor_get_file_by_id`. -/
def getFileById (fileId : ℤ) : Option FileRow :=
  (s.files.filter (·.id = fileId)).head?

/-- `_executor_update_file`, whose merge replaces the rows with the id and adds none. -/
def updateFile (fileId : ℤ) (sizeBytes : Option ℤ) (mtime : Option ℚ)
    (contentHash : Option String) (clock : Clock) : Store :=
  match s.getFileById fileId with
  | none => s
  | some existing =>
    let updated := { existing with
      size := sizeBytes.getD existing.size
      modifiedTime := mtime.getD existing.modifiedTime
      contentHash := contentHash.getD existing.contentHash
      indexedTime := clock.indexed
      skipReason := none }
    { s with files := s.files.map fun row => if row.id = updated.id then updated else row }

/-- The id of the path, or a new one. -/
def skippedId (path : String) (clock : Clock) : ℤ :=
  match db.query (pathQuery path) with
  | none => clock.id
  | some selects => ((s.files.filter selects).head?.map FileRow.id).getD clock.id

/-- `_executor_record_skipped_file`. -/
def recordSkippedFile (path : String) (size : ℤ) (mtime : ℚ) (language contentHash : Option String)
    (skipReason : String) (clock : Clock) : Store :=
  let row : FileRow :=
    { id := s.skippedId db path clock
      path := path
      size := size
      modifiedTime := mtime
      contentHash := contentHash.getD ""
      indexedTime := clock.indexed
      language := language.getD ""
      encoding := "utf-8"
      lineCount := 0
      skipReason := some skipReason }
  { s with files := mergeByPath row s.files }

/-- `_executor_delete_file_completely`. -/
def deleteFileCompletely (path : String) : Store :=
  match s.getFileByPath db path with
  | none => s
  | some record =>
    { files := s.files.filter (·.id ≠ record.id)
      chunks := s.chunks.filter (·.fileId ≠ record.id) }

end Store

/-! ## Runs -/

inductive Act
  | insertFile (file : File) (clock : Clock)
  | recordSkippedFile (path : String) (size : ℤ) (mtime : ℚ) (language contentHash : Option String)
      (skipReason : String) (clock : Clock)
  | updateFile (fileId : ℤ) (sizeBytes : Option ℤ) (mtime : Option ℚ)
      (contentHash : Option String) (clock : Clock)
  | deleteFileCompletely (path : String)
  | insertChunks (o : Outside) (chunks : List Chunk)

/-- The store, and the id that each path got first and should keep until it is deleted. -/
structure Traced where
  store : Store
  ids : String → Option ℤ

def start : Traced := ⟨⟨[], .empty⟩, fun _ => none⟩

namespace Traced

variable (db : Database) (t : Traced)

/-- The path keeps its id, or gets this one. -/
def assign (path : String) (id : ℤ) : String → Option ℤ :=
  Function.update t.ids path (some ((t.ids path).getD id))

/-- The path that the store looks for is forgotten. -/
def forget (path : String) : String → Option ℤ :=
  match db.fs.normalizePathForLookup db.baseDirectory path with
  | .ok normalizedPath => Function.update t.ids normalizedPath none
  | .error _ => t.ids

def step : Act → Option Traced
  | .insertFile file clock => some
    { store := (t.store.insertFile db file clock).2
      ids := t.assign file.path (Store.insertedId file clock) }
  | .recordSkippedFile path size mtime language contentHash skipReason clock => some
    { store := t.store.recordSkippedFile db path size mtime language contentHash skipReason clock
      ids := t.assign path clock.id }
  | .updateFile fileId sizeBytes mtime contentHash clock => some
    { t with store := t.store.updateFile fileId sizeBytes mtime contentHash clock }
  | .deleteFileCompletely path => some
    { store := t.store.deleteFileCompletely db path
      ids := t.forget db path }
  | .insertChunks o chunks => some
    { t with store := { t.store with chunks := (insertChunksBatch o chunks t.store.chunks).2 } }

/-- There is one row for a path, and other paths have other ids. A path is found exactly while it
has an id in the map, and with this id. The file of each chunk is there. -/
structure KeepsIdentity : Prop where
  one_row : (t.store.files.map FileRow.path).Nodup
  ids_differ : ∀ row ∈ t.store.files, ∀ row' ∈ t.store.files,
    row.path ≠ row'.path → row.id ≠ row'.id
  lookup : ∀ path normalizedPath,
    db.fs.normalizePathForLookup db.baseDirectory path = .ok normalizedPath →
      QuoteFree normalizedPath →
        (t.store.getFileByPath db path).map (fun row => (row.path, row.id)) =
          (t.ids normalizedPath).map fun id => (normalizedPath, id)
  attached : ∀ chunk ∈ t.store.chunks.rows, ∃ row ∈ t.store.files, row.id = chunk.fileId

/-- What a step must be given. No path has a quote. The id that is given for a path is the one that
it has, or no row has it. Chunks are inserted for files that are there. -/
def Meets : Act → Prop
  | .insertFile file clock => QuoteFree file.path ∧
    ∀ row ∈ t.store.files, row.path = file.path ↔ row.id = Store.insertedId file clock
  | .recordSkippedFile path _ _ _ _ _ clock => QuoteFree path ∧
    ((∃ row ∈ t.store.files, row.path = path) ∨ ∀ row ∈ t.store.files, row.id ≠ clock.id)
  | .updateFile .. => True
  | .deleteFileCompletely path => ∀ normalizedPath,
    db.fs.normalizePathForLookup db.baseDirectory path = .ok normalizedPath →
      QuoteFree normalizedPath
  | .insertChunks _ chunks =>
    ∀ c ∈ chunks, ∃ row ∈ t.store.files, row.id = (c.fileId : ℤ)

end Traced

/-! ## Lookups -/

section Lookups

variable {db : Database} {s : Store} {path normalizedPath : String}

theorem getFileByPath_eq
    (h : db.fs.normalizePathForLookup db.baseDirectory path = .ok normalizedPath)
    (hquote : QuoteFree normalizedPath) :
    s.getFileByPath db path = s.files.find? fun row => row.path = normalizedPath := by
  unfold Store.getFileByPath
  rw [h]
  simp only [db.query_path _ hquote, List.head?_filter]

theorem getFileByPath_error {e : String}
    (h : db.fs.normalizePathForLookup db.baseDirectory path = .error e) :
    s.getFileByPath db path = none := by
  unfold Store.getFileByPath
  rw [h]

theorem skippedId_eq (clock : Clock) (hquote : QuoteFree path) : s.skippedId db path clock =
    ((s.files.find? fun row => row.path = path).map FileRow.id).getD clock.id := by
  unfold Store.skippedId
  simp only [db.query_path _ hquote, List.head?_filter]

end Lookups

/-! ## The invariant -/

theorem mem_mergeByPath {row r : FileRow} {files : List FileRow} :
    r ∈ mergeByPath row files ↔ (r ∈ files ∧ r.path ≠ row.path) ∨ r = row := by
  rw [mergeByPath, upsert_singleton, List.mem_append, List.mem_filter, List.mem_singleton,
    decide_eq_true_iff]

namespace Traced

variable {db : Database} {t t' : Traced} {a : Act}

/-- Rows have distinct paths and distinct ids, and the map tells the id of each row. -/
structure Inv (t : Traced) : Prop where
  paths : (t.store.files.map FileRow.path).Nodup
  ids : (t.store.files.map FileRow.id).Nodup
  known : ∀ path id, t.ids path = some id ↔
    ∃ row ∈ t.store.files, row.path = path ∧ row.id = id
  attached : ∀ chunk ∈ t.store.chunks.rows, ∃ row ∈ t.store.files, row.id = chunk.fileId

theorem inv_start : start.Inv where
  paths := List.nodup_nil
  ids := List.nodup_nil
  known := by simp [start]
  attached _ h := absurd h List.not_mem_nil

namespace Inv

variable {row row' : FileRow}

/-- A row is told by its id. -/
theorem eq_of_id (h : t.Inv) (hrow : row ∈ t.store.files)
    (hrow' : row' ∈ t.store.files) (hid : row.id = row'.id) : row = row' :=
  List.inj_on_of_nodup_map h.ids hrow hrow' hid

theorem eq_of_path (h : t.Inv) (hrow : row ∈ t.store.files)
    (hrow' : row' ∈ t.store.files) (hpath : row.path = row'.path) : row = row' :=
  List.inj_on_of_nodup_map h.paths hrow hrow' hpath

/-- The row of a path is found, with the id in the map. -/
theorem find?_path (h : t.Inv) (path : String) :
    (t.store.files.find? fun row => row.path = path).map (fun row => (row.path, row.id)) =
      (t.ids path).map fun id => (path, id) := by
  cases hf : t.store.files.find? fun row => row.path = path with
  | none =>
    have hnone : t.ids path = none := by
      refine Option.eq_none_iff_forall_not_mem.2 fun id hid => ?_
      obtain ⟨row, hrow, hpath, -⟩ := (h.known path id).1 hid
      exact List.find?_eq_none.1 hf row hrow (decide_eq_true hpath)
    rw [hnone]
    rfl
  | some row =>
    have hpath : row.path = path := by simpa using List.find?_some hf
    have hid := (h.known path row.id).2 ⟨row, List.mem_of_find?_eq_some hf, hpath, rfl⟩
    rw [hid, Option.map_some, Option.map_some, hpath]

theorem map_id_find? (h : t.Inv) (path : String) :
    (t.store.files.find? fun row => row.path = path).map FileRow.id = t.ids path := by
  have heq := congrArg (Option.map Prod.snd) (h.find?_path path)
  rw [Option.map_map, Option.map_map] at heq
  simpa [Function.comp_def] using heq

/-- A row is merged that has the id of its path, or a path and an id that no row has. -/
theorem put (h : t.Inv) {row : FileRow} {id : ℤ}
    (hid : ∀ r ∈ t.store.files, r.path = row.path ↔ r.id = row.id)
    (hset : (t.ids row.path).getD id = row.id) :
    Inv ⟨{ t.store with files := mergeByPath row t.store.files }, t.assign row.path id⟩ := by
  constructor
  · exact nodup_upsert _ h.paths
  · change ((mergeByPath row t.store.files).map FileRow.id).Nodup
    rw [mergeByPath, upsert_singleton, List.map_append]
    refine (h.ids.sublist (List.filter_sublist.map _)).append (List.nodup_singleton _)
      fun i hold hnew => ?_
    obtain ⟨r, hr, rfl⟩ := List.mem_map.1 hold
    obtain ⟨hr, hne⟩ := List.mem_filter.1 hr
    exact of_decide_eq_true hne ((hid r hr).2 (List.mem_singleton.1 hnew))
  · intro path i
    simp only [assign, Function.update_apply, mem_mergeByPath, hset]
    by_cases hpath : path = row.path
    · rw [if_pos hpath, Option.some_inj]
      constructor
      · exact fun heq => ⟨row, Or.inr rfl, hpath.symm, heq⟩
      · rintro ⟨r, ⟨-, hne⟩ | rfl, hp, heq⟩
        · exact absurd (hp.trans hpath) hne
        · exact heq
    · rw [if_neg hpath, h.known]
      constructor
      · rintro ⟨r, hr, hp, heq⟩
        exact ⟨r, Or.inl ⟨hr, fun hrow => hpath (hp.symm.trans hrow)⟩, hp, heq⟩
      · rintro ⟨r, ⟨hr, -⟩ | rfl, hp, heq⟩
        · exact ⟨r, hr, hp, heq⟩
        · exact absurd hp.symm hpath
  · intro chunk hchunk
    obtain ⟨r, hr, heq⟩ := h.attached chunk hchunk
    by_cases hp : r.path = row.path
    · exact ⟨row, mem_mergeByPath.2 (Or.inr rfl), ((hid r hr).1 hp).symm.trans heq⟩
    · exact ⟨r, mem_mergeByPath.2 (Or.inl ⟨hr, hp⟩), heq⟩

theorem insertFile (h : t.Inv) {file : File} {clock : Clock}
    (hid : ∀ row ∈ t.store.files,
      row.path = file.path ↔ row.id = Store.insertedId file clock) :
    Inv ⟨(t.store.insertFile db file clock).2,
      t.assign file.path (Store.insertedId file clock)⟩ := by
  have hset : (t.ids file.path).getD (Store.insertedId file clock) =
      Store.insertedId file clock := by
    cases hk : t.ids file.path with
    | none => rfl
    | some id =>
      obtain ⟨row, hrow, hpath, rfl⟩ := (h.known _ _).1 hk
      exact (hid row hrow).1 hpath
  change Inv ⟨{ t.store with files := mergeByPath (Store.insertedRow file clock) t.store.files }, _⟩
  exact h.put hid hset

theorem recordSkippedFile (h : t.Inv) {path : String} {size : ℤ} {mtime : ℚ}
    {language contentHash : Option String} {skipReason : String} {clock : Clock}
    (hquote : QuoteFree path)
    (hnew : (∃ row ∈ t.store.files, row.path = path) ∨
      ∀ row ∈ t.store.files, row.id ≠ clock.id) :
    Inv ⟨t.store.recordSkippedFile db path size mtime language contentHash skipReason clock,
      t.assign path clock.id⟩ := by
  have hset : (t.ids path).getD clock.id = t.store.skippedId db path clock := by
    rw [skippedId_eq clock hquote, h.map_id_find?]
  refine h.put (fun r hr => ?_) hset
  rw [← hset]
  constructor
  · intro hp
    rw [(h.known path r.id).2 ⟨r, hr, hp, rfl⟩]
    rfl
  · intro heq
    cases hk : t.ids path with
    | some id =>
      obtain ⟨row, hrow, hpath, rfl⟩ := (h.known path id).1 hk
      rw [hk, Option.getD_some] at heq
      rw [h.eq_of_id hr hrow heq]
      exact hpath
    | none =>
      rw [hk, Option.getD_none] at heq
      rcases hnew with ⟨row, hrow, hpath⟩ | hnew
      · have hsome := (h.known path row.id).2 ⟨row, hrow, hpath, rfl⟩
        rw [hk] at hsome
        cases hsome
      · exact absurd heq (hnew r hr)

/-- Rows may change in all but path and id. -/
theorem map (h : t.Inv) {f : FileRow → FileRow}
    (hf : ∀ row ∈ t.store.files, (f row).path = row.path ∧ (f row).id = row.id) :
    Inv { t with store := { t.store with files := t.store.files.map f } } := by
  have hpaths : (t.store.files.map f).map FileRow.path = t.store.files.map FileRow.path := by
    rw [List.map_map]
    exact List.map_congr_left fun row hrow => (hf row hrow).1
  have hids : (t.store.files.map f).map FileRow.id = t.store.files.map FileRow.id := by
    rw [List.map_map]
    exact List.map_congr_left fun row hrow => (hf row hrow).2
  constructor
  · exact hpaths ▸ h.paths
  · exact hids ▸ h.ids
  · intro path id
    rw [h.known]
    constructor
    · rintro ⟨row, hrow, hpath, hid⟩
      exact ⟨f row, List.mem_map_of_mem hrow, (hf row hrow).1.trans hpath,
        (hf row hrow).2.trans hid⟩
    · rintro ⟨row', hrow', hpath, hid⟩
      obtain ⟨row, hrow, rfl⟩ := List.mem_map.1 hrow'
      exact ⟨row, hrow, (hf row hrow).1.symm.trans hpath, (hf row hrow).2.symm.trans hid⟩
  · intro chunk hchunk
    obtain ⟨row, hrow, hid⟩ := h.attached chunk hchunk
    exact ⟨f row, List.mem_map_of_mem hrow, (hf row hrow).2.trans hid⟩

theorem updateFile (h : t.Inv) (fileId : ℤ) (sizeBytes : Option ℤ) (mtime : Option ℚ)
    (contentHash : Option String) (clock : Clock) :
    Inv { t with store := t.store.updateFile fileId sizeBytes mtime contentHash clock } := by
  unfold Store.updateFile
  split
  · exact h
  · rename_i existing hfound
    rw [Store.getFileById, List.head?_filter] at hfound
    refine h.map fun row hrow => ?_
    split
    · rename_i hid
      rw [h.eq_of_id hrow (List.mem_of_find?_eq_some hfound) hid]
      exact ⟨rfl, rfl⟩
    · exact ⟨rfl, rfl⟩

theorem deleteFileCompletely (h : t.Inv) {path : String}
    (hmeets : t.Meets db (.deleteFileCompletely path)) :
    Inv ⟨t.store.deleteFileCompletely db path, t.forget db path⟩ := by
  unfold forget
  cases hnorm : db.fs.normalizePathForLookup db.baseDirectory path with
  | error e =>
    rw [Store.deleteFileCompletely, getFileByPath_error hnorm]
    exact h
  | ok p =>
    have hlookup : t.store.getFileByPath db path = _ := getFileByPath_eq hnorm (hmeets p hnorm)
    have hid := h.map_id_find? p
    rw [← hlookup] at hid
    unfold Store.deleteFileCompletely
    cases hget : t.store.getFileByPath db path with
    | none =>
      -- Nothing is there that could be forgotten.
      rw [hget] at hid
      have hsame : Function.update t.ids p none = t.ids :=
        Function.update_eq_self_iff.2 (by rw [← hid]; rfl)
      simp only [hsame]
      exact h
    | some record =>
      rw [hget] at hid
      obtain ⟨row, hrow, hpath, hrowid⟩ := (h.known p record.id).1 hid.symm
      have hmem : ∀ r, r ∈ t.store.files.filter (·.id ≠ record.id) ↔
          r ∈ t.store.files ∧ r.path ≠ p := fun r => by
        rw [List.mem_filter, decide_eq_true_iff]
        refine and_congr_right fun hr => not_congr ⟨fun heq => ?_, fun heq => ?_⟩
        · rw [h.eq_of_id hr hrow (heq.trans hrowid.symm), hpath]
        · rw [h.eq_of_path hr hrow (heq.trans hpath.symm), hrowid]
      constructor
      · exact h.paths.sublist (List.filter_sublist.map _)
      · exact h.ids.sublist (List.filter_sublist.map _)
      · intro q id
        simp only [Function.update_apply, hmem]
        by_cases hq : q = p
        · rw [if_pos hq]
          refine ⟨nofun, ?_⟩
          rintro ⟨r, ⟨-, hne⟩, hp, -⟩
          exact absurd (hp.trans hq) hne
        · rw [if_neg hq, h.known]
          constructor
          · rintro ⟨r, hr, hp, heq⟩
            exact ⟨r, ⟨hr, fun hrp => hq (hp.symm.trans hrp)⟩, hp, heq⟩
          · rintro ⟨r, ⟨hr, -⟩, hp, heq⟩
            exact ⟨r, hr, hp, heq⟩
      · intro chunk hchunk
        obtain ⟨hchunk, hne⟩ := List.mem_filter.1 hchunk
        obtain ⟨r, hr, heq⟩ := h.attached chunk hchunk
        refine ⟨r, List.mem_filter.2 ⟨hr, decide_eq_true ?_⟩, heq⟩
        exact heq ▸ of_decide_eq_true hne

theorem insertChunks (h : t.Inv) (o : Outside) {chunks : List Chunk}
    (hmeets : t.Meets db (.insertChunks o chunks)) :
    Inv { t with store :=
      { t.store with chunks := (insertChunksBatch o chunks t.store.chunks).2 } } where
  paths := h.paths
  ids := h.ids
  known := h.known
  attached row hrow := by
    rcases fileId_of_mem o chunks t.store.chunks hrow with hrow | ⟨c, hc, hfile⟩
    · exact h.attached row hrow
    · rw [hfile]
      exact hmeets c hc

theorem step (h : t.Inv) (hmeets : t.Meets db a) (hs : t.step db a = some t') : t'.Inv := by
  cases a with
  | insertFile file clock =>
    obtain rfl := Option.some.inj hs
    exact h.insertFile hmeets.2
  | recordSkippedFile path size mtime language contentHash skipReason clock =>
    obtain rfl := Option.some.inj hs
    exact h.recordSkippedFile hmeets.1 hmeets.2
  | updateFile fileId sizeBytes mtime contentHash clock =>
    obtain rfl := Option.some.inj hs
    exact h.updateFile fileId sizeBytes mtime contentHash clock
  | deleteFileCompletely path =>
    obtain rfl := Option.some.inj hs
    exact h.deleteFileCompletely hmeets
  | insertChunks o chunks =>
    obtain rfl := Option.some.inj hs
    exact h.insertChunks o hmeets

theorem keepsIdentity (h : t.Inv) : t.KeepsIdentity db where
  one_row := h.paths
  ids_differ row hrow row' hrow' hne hid := hne (congrArg _ (h.eq_of_id hrow hrow' hid))
  lookup path p hnorm hquote := by
    rw [getFileByPath_eq hnorm hquote]
    exact h.find?_path p
  attached := h.attached

end Inv

end Traced

/-! ## Results -/

/-- Files keep their identity in every run in which no path has a quote, `insert_file` is given the
id that its path has, and the id for a new path is not taken. -/
theorem identity_kept (db : Database) {t : Traced}
    (h : ReachWhen (Traced.step db) (Traced.Meets db) start t) : t.KeepsIdentity db :=
  (h.invariant Traced.inv_start fun _ _ _ hi hmeets hs => hi.step hmeets hs).keepsIdentity

/-- The text of a literal up to its last quote. Quotes within it are doubled. -/
def unquote : List Char → Option (List Char)
  | [] => none
  | c :: cs =>
    if c ≠ '\'' then (unquote cs).map (c :: ·)
    else
      match cs with
      | [] => some []
      | d :: cs => if d = '\'' then (unquote cs).map ('\'' :: ·) else none

theorem unquote_append : ∀ {cs : List Char}, '\'' ∉ cs → unquote (cs ++ ['\'']) = some cs
  | [], _ => rfl
  | c :: cs, h => by
    rw [List.mem_cons, not_or] at h
    rw [List.cons_append]
    unfold unquote
    rw [if_pos (Ne.symm h.1), unquote_append h.2]
    rfl

/-- No links, and queries that compare the path with one literal. -/
def plainDatabase : Database where
  fs := ⟨fun _ => false, id, fun _ => true⟩
  baseDirectory := some (.ofString "/repo")
  query text :=
    if text.toList.take 8 = "path = '".toList then
      (unquote (text.toList.drop 8)).map fun path row => row.path = String.ofList path
    else none
  query_path path h := by
    have htext : (pathQuery path).toList = "path = '".toList ++ (path.toList ++ ['\'']) := by
      simp [pathQuery]
    have htake : (pathQuery path).toList.take 8 = "path = '".toList := by
      rw [htext]
      exact List.take_left' rfl
    have hdrop : (pathQuery path).toList.drop 8 = path.toList ++ ['\''] := by
      rw [htext]
      exact List.drop_left' rfl
    rw [if_pos htake, hdrop, unquote_append h, Option.map_some, String.ofList_toList]

def fileA (id : Option ℤ) : File where
  path := "a.py"
  mtime := 0
  language := "python"
  sizeBytes := 5
  id := id
  contentHash := none
  path_ok := by decide
  size_ok := by decide
  mtime_ok := Rat.le_refl

open ChunkInsertion (chunkX)

theorem identity_kept_reinserted : ∃ t, StepSystem.execute (Traced.step plainDatabase) start
    [.insertFile (fileA none) ⟨1, 1⟩, .insertChunks polynomialHash [chunkX],
      .insertFile (fileA (some 1)) ⟨2, 2⟩] = some t ∧ t.KeepsIdentity plainDatabase := by
  refine ⟨_, rfl, identity_kept plainDatabase ?_⟩
  refine .step (a := .insertFile (fileA (some 1)) ⟨2, 2⟩)
    (.step (a := .insertChunks polynomialHash [chunkX])
      (.step (a := .insertFile (fileA none) ⟨1, 1⟩) .init ?_ rfl) ?_ rfl) ?_ rfl
  · exact ⟨by decide, fun _ h => absurd h List.not_mem_nil⟩
  · intro c hc
    rw [List.mem_singleton.1 hc]
    exact ⟨_, List.mem_singleton_self _, rfl⟩
  · refine ⟨by decide, fun row hrow => ?_⟩
    rw [(mem_mergeByPath.1 hrow).resolve_left fun h => absurd h.1 List.not_mem_nil]
    exact iff_of_true rfl rfl

/-- A file that is inserted again without an id gets a new one, and its chunk has no file. -/
theorem reinserted_orphans : ∃ t, Reach (Traced.step plainDatabase) start t ∧
    ¬t.KeepsIdentity plainDatabase := by
  refine ⟨_, .of_execute [.insertFile (fileA none) ⟨1, 1⟩, .insertChunks polynomialHash [chunkX],
    .insertFile (fileA none) ⟨2, 2⟩] rfl, fun h => ?_⟩
  obtain ⟨chunk, hchunk, -, c, hc, -, hentry⟩ :=
    exists_row polynomialHash [chunkX] .empty (List.mem_singleton_self chunkX)
  obtain ⟨row, hrow, hid⟩ := h.attached chunk hchunk
  rw [List.mem_singleton.1 hc] at hentry
  have hfile : chunk.fileId = 1 := congrArg Prod.fst hentry
  have hlast : row = Store.insertedRow (fileA none) ⟨2, 2⟩ := by
    refine (mem_mergeByPath.1 hrow).resolve_left fun h => h.2 ?_
    rw [(mem_mergeByPath.1 h.1).resolve_left fun h => absurd h.1 List.not_mem_nil]
    rfl
  rw [hlast, hfile] at hid
  exact absurd hid (by decide)

end Lance

end ChunkHound
