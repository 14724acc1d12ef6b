import ChunkHound.NativeStore
import Mathlib.Algebra.Order.Ring.Rat
import Mathlib.Algebra.Order.Group.Unbundled.Abs

/-!
# The diff phase

`src/pipeline/differ.rs` : `computeDiff` compares the scanned files with the rows of `files`
and says which files to process again, which rows to remove, and the hash, the row id and
the stat of each file for the write phase. `diffFile` is the decision for one file.

What the diff reads of a file is a `DiffSample` : it stats the file in a pass of its own and
reads the bytes later, so the two need not agree. `xxh3_64` is the digest of the `xxhash`
crate. The maps of `DiffResult` are functions. A path has one row in `files`, so the maps the
source builds from the rows are lookups here.
-/

namespace ChunkHound

/-- A row of `SELECT id, path, modified_time, size, content_hash FROM files`. -/
structure DbFileEntry where
  id : ℕ
  path : String
  mtime : Option ℚ
  sizeBytes : Option ℤ
  contentHash : Option String
  deriving DecidableEq, Repr

def FileRow.entry (r : FileRow) : DbFileEntry :=
  ⟨r.id, r.path, r.modifiedTime, r.size, r.contentHash⟩

/-- `read_file_states`. -/
def readFileStates (db : Db) : List DbFileEntry :=
  db.files.map FileRow.entry

/-- What the diff reads of one file : the stat pass before it, its own stat when that pass
has none, the stat that confirms a zero size and mtime, and the bytes it hashes. -/
structure DiffSample where
  precomputed : Option (ℕ × ℚ)
  metadata : Option (ℕ × ℚ)
  confirm : Option ℚ
  content : Option Bytes
  deriving DecidableEq, Repr

/-- `current_size` and `current_mtime_raw`. -/
def DiffSample.current (x : DiffSample) : ℕ × ℚ :=
  (x.precomputed.or x.metadata).getD (0, 0)

/-- `current_mtime` : none when the file cannot be read. -/
def DiffSample.currentMtime (x : DiffSample) : Option ℚ :=
  if 0 < x.current.2 ∨ 0 < x.current.1 then some x.current.2 else x.confirm

/-- `format!("{digest:016x}")`. -/
def hexDigest (digest : UInt64) : String :=
  String.ofList ((Nat.toDigits 16 digest.toNat).leftpad 16 '0')

/-- `hash_file_contents`. -/
def hashFileContents (xxh3_64 : Bytes → UInt64) (content : Option Bytes) : Option String :=
  content.map fun bytes => hexDigest (xxh3_64 bytes)

/-- `size as u64`. -/
def asU64 (size : ℤ) : ℕ :=
  (size % 2 ^ 64).toNat

/-- What the diff decides about one file. -/
structure FileVerdict where
  changed : Bool
  newHash : Option String
  existingId : Option ℕ
  diskStat : ℕ × ℚ
  skippedByHash : Bool
  deriving DecidableEq, Repr

/-- The loop body of `compute_diff`. `entry` is the row of the file's relative key. -/
def diffFile (xxh3_64 : Bytes → UInt64) (mtimeEpsilon : ℚ) (entry : Option DbFileEntry)
    (x : DiffSample) : FileVerdict :=
  let hash := hashFileContents xxh3_64 x.content
  match entry with
  | none => ⟨true, hash, none, x.current, false⟩
  | some e =>
    match e.mtime with
    | none => ⟨true, hash, some e.id, x.current, false⟩
    | some dbMtime =>
      match x.currentMtime with
      | none => ⟨true, none, some e.id, (0, 0), false⟩
      | some cur =>
        if mtimeEpsilon < |cur - dbMtime| then
          match e.contentHash with
          | some storedHash =>
            match hash with
            | some newHash =>
              ⟨newHash ≠ storedHash, some newHash, some e.id, x.current, newHash = storedHash⟩
            | none => ⟨true, none, some e.id, x.current, false⟩
          | none => ⟨true, hash, some e.id, x.current, false⟩
        else if (e.sizeBytes.map fun size => asU64 size != x.current.1).getD false then
          ⟨true, hash, some e.id, x.current, false⟩
        else ⟨false, e.contentHash, some e.id, x.current, false⟩

structure DiffResult where
  changed : List String
  removed : List String
  skippedByHash : ℕ
  newHashes : String → Option String
  existingIds : String → Option ℕ
  diskStats : String → Option (ℕ × ℚ)

/-- `DiffResult::default()`. -/
def DiffResult.empty : DiffResult where
  changed := []
  removed := []
  skippedByHash := 0
  newHashes _ := none
  existingIds _ := none
  diskStats _ := none

/-- Record one verdict. -/
def DiffResult.scan (d : DiffResult) (path : String) (v : FileVerdict) : DiffResult where
  changed := if v.changed then d.changed ++ [path] else d.changed
  removed := d.removed
  skippedByHash := if v.skippedByHash then d.skippedByHash + 1 else d.skippedByHash
  newHashes := if v.newHash.isSome then Function.update d.newHashes path v.newHash else d.newHashes
  existingIds :=
    if v.existingId.isSome then Function.update d.existingIds path v.existingId else d.existingIds
  diskStats := Function.update d.diskStats path (some v.diskStat)

section ComputeDiff

variable (xxh3_64 : Bytes → UInt64) (mtimeEpsilon : ℚ) (dbFileEntries : List DbFileEntry)
  (relKeys : String → Option String) (sample : String → DiffSample)

/-- The verdict on one scanned path. A path without a relative key is processed anyway. -/
def fileVerdict (path : String) : FileVerdict :=
  match relKeys path with
  | none => ⟨true, none, none, (sample path).current, false⟩
  | some rel =>
    diffFile xxh3_64 mtimeEpsilon (dbFileEntries.find? (·.path = rel)) (sample path)

/-- `compute_diff`. -/
def computeDiff (filesOnDisk : List String) : DiffResult :=
  let diskPaths := filesOnDisk.filterMap relKeys
  let scanned := filesOnDisk.foldl
    (fun d path => d.scan path (fileVerdict xxh3_64 mtimeEpsilon dbFileEntries relKeys sample path))
    DiffResult.empty
  { scanned with removed := (dbFileEntries.map (·.path)).filter (· ∉ diskPaths) }

end ComputeDiff

/-! ## What the diff says of one file -/

/-- The mtime is close to the stored one and the size is the stored one : the fast path
trusts the row. -/
def MetadataMatches (mtimeEpsilon : ℚ) (e : DbFileEntry) (x : DiffSample) : Prop :=
  ∃ m ∈ e.mtime, ∃ cur ∈ x.currentMtime, |cur - m| ≤ mtimeEpsilon ∧
    ∀ size ∈ e.sizeBytes, asU64 size = x.current.1

section Verdict

variable {xxh3_64 : Bytes → UInt64} {mtimeEpsilon : ℚ} {entry : Option DbFileEntry}
  {x : DiffSample}

/-- A file is unchanged only when its metadata matches its row, or when its bytes hash to
the stored hash, and it keeps the hash of its row. -/
theorem diffFile_unchanged
    (h : (diffFile xxh3_64 mtimeEpsilon entry x).changed = false) : ∃ e m, entry = some e ∧
      e.mtime = some m ∧ (diffFile xxh3_64 mtimeEpsilon entry x).newHash = e.contentHash ∧
        (MetadataMatches mtimeEpsilon e x ∨
          ∃ hash, e.contentHash = some hash ∧ hashFileContents xxh3_64 x.content = some hash) := by
  unfold diffFile at h ⊢
  cases entry with
  | none => simp at h
  | some e =>
    cases hm : e.mtime with
    | none => simp [hm] at h
    | some m =>
      refine ⟨e, m, rfl, hm, ?_⟩
      cases hc : x.currentMtime with
      | none => simp [hm, hc] at h
      | some cur =>
        by_cases heps : mtimeEpsilon < |cur - m|
        · cases hs : e.contentHash with
          | none => simp [hm, hc, hs, heps] at h
          | some stored =>
            cases hh : hashFileContents xxh3_64 x.content with
            | none => simp [hm, hc, hs, hh, heps] at h
            | some new =>
              have heq : new = stored := by simpa [hm, hc, hs, hh, heps] using h
              exact ⟨by simp [hm, hs, heps, heq], Or.inr ⟨stored, rfl, by rw [heq]⟩⟩
        · by_cases hsize :
            (e.sizeBytes.map fun size => asU64 size != x.current.1).getD false = true
          · simp [hm, hc, heps, hsize] at h
          · refine ⟨by simp [hm, heps, hsize], Or.inl ⟨m, hm, cur, hc, not_lt.1 heps, ?_⟩⟩
            intro size hmem
            simpa [Option.mem_def.1 hmem] using hsize

/-- The hash handed to the write phase is that of the bytes read, unless the metadata
matches : then it is the stored one. -/
theorem diffFile_newHash {hash : String}
    (h : (diffFile xxh3_64 mtimeEpsilon entry x).newHash = some hash) :
    hashFileContents xxh3_64 x.content = some hash ∨
      ∃ e, entry = some e ∧ MetadataMatches mtimeEpsilon e x ∧ e.contentHash = some hash := by
  unfold diffFile at h
  cases entry with
  | none => exact Or.inl h
  | some e =>
    cases hm : e.mtime with
    | none => exact Or.inl (by simpa [hm] using h)
    | some m =>
      cases hc : x.currentMtime with
      | none => simp [hm, hc] at h
      | some cur =>
        by_cases heps : mtimeEpsilon < |cur - m|
        · left
          cases hs : e.contentHash with
          | none => simpa [hm, hc, hs, heps] using h
          | some stored =>
            cases hh : hashFileContents xxh3_64 x.content with
            | none => simp [hm, hc, hs, hh, heps] at h
            | some new => simpa [hm, hc, hs, hh, heps] using h
        · by_cases hsize : (e.sizeBytes.map fun size => asU64 size != x.current.1).getD false = true
          · exact Or.inl (by simpa [hm, hc, heps, hsize] using h)
          · refine Or.inr ⟨e, rfl, ⟨m, hm, cur, hc, not_lt.1 heps, fun size hs => ?_⟩, ?_⟩
            · by_contra hne
              simp [Option.mem_def.1 hs, hne] at hsize
            · simpa [hm, hc, heps, hsize] using h

end Verdict

/-! ## What the diff says of the scan -/

theorem scan_newHashes (d : DiffResult) (path : String) (v : FileVerdict) (p : String) :
    (d.scan path v).newHashes p = if p = path then v.newHash.or (d.newHashes p)
      else d.newHashes p := by
  unfold DiffResult.scan
  cases hv : v.newHash with
  | none => simp
  | some h => simp [Function.update_apply]

theorem scan_existingIds (d : DiffResult) (path : String) (v : FileVerdict) (p : String) :
    (d.scan path v).existingIds p = if p = path then v.existingId.or (d.existingIds p)
      else d.existingIds p := by
  unfold DiffResult.scan
  cases hv : v.existingId with
  | none => simp
  | some id => simp [Function.update_apply]

theorem scan_diskStats (d : DiffResult) (path : String) (v : FileVerdict) (p : String) :
    (d.scan path v).diskStats p = if p = path then some v.diskStat else d.diskStats p := by
  simp [DiffResult.scan, Function.update_apply]

/-- A scan of files that each get one verdict collects the verdicts. -/
theorem foldl_scan (v : String → FileVerdict) : ∀ (files : List String) (d : DiffResult),
    let d' := files.foldl (fun d path => d.scan path (v path)) d
    d'.changed = d.changed ++ files.filter (fun p => (v p).changed) ∧
      (∀ p, d'.newHashes p =
        if p ∈ files then (v p).newHash.or (d.newHashes p) else d.newHashes p) ∧
      (∀ p, d'.existingIds p =
        if p ∈ files then (v p).existingId.or (d.existingIds p) else d.existingIds p) ∧
      ∀ p, d'.diskStats p = if p ∈ files then some (v p).diskStat else d.diskStats p
  | [], d => by simp
  | path :: files, d => by
    obtain ⟨hch, hnew, hids, hst⟩ := foldl_scan v files (d.scan path (v path))
    refine ⟨?_, fun p => ?_, fun p => ?_, fun p => ?_⟩
    · rw [List.foldl_cons, hch]
      by_cases hc : (v path).changed <;> simp [DiffResult.scan, hc]
    · rw [List.foldl_cons, hnew, scan_newHashes]
      by_cases hp : p = path
      · subst hp
        cases hv : (v p).newHash <;> simp
      · simp [hp]
    · rw [List.foldl_cons, hids, scan_existingIds]
      by_cases hp : p = path
      · subst hp
        cases hv : (v p).existingId <;> simp
      · simp [hp]
    · rw [List.foldl_cons, hst, scan_diskStats]
      by_cases hp : p = path
      · subst hp
        simp
      · simp [hp]

section ComputeDiff

variable {xxh3_64 : Bytes → UInt64} {mtimeEpsilon : ℚ} {entries : List DbFileEntry}
  {relKeys : String → Option String} {sample : String → DiffSample} {files : List String}

theorem computeDiff_changed :
    (computeDiff xxh3_64 mtimeEpsilon entries relKeys sample files).changed = files.filter fun p =>
      (fileVerdict xxh3_64 mtimeEpsilon entries relKeys sample p).changed := by
  have := (foldl_scan (fileVerdict xxh3_64 mtimeEpsilon entries relKeys sample) files
    DiffResult.empty).1
  simpa [computeDiff, DiffResult.empty] using this

theorem computeDiff_newHashes {p : String} (hp : p ∈ files) :
    (computeDiff xxh3_64 mtimeEpsilon entries relKeys sample files).newHashes p =
      (fileVerdict xxh3_64 mtimeEpsilon entries relKeys sample p).newHash := by
  have := (foldl_scan (fileVerdict xxh3_64 mtimeEpsilon entries relKeys sample) files
    DiffResult.empty).2.1 p
  simpa [computeDiff, DiffResult.empty, hp] using this

theorem computeDiff_diskStats {p : String} (hp : p ∈ files) :
    (computeDiff xxh3_64 mtimeEpsilon entries relKeys sample files).diskStats p =
      some (fileVerdict xxh3_64 mtimeEpsilon entries relKeys sample p).diskStat := by
  have := (foldl_scan (fileVerdict xxh3_64 mtimeEpsilon entries relKeys sample) files
    DiffResult.empty).2.2.2 p
  simpa [computeDiff, DiffResult.empty, hp] using this

theorem mem_computeDiff_removed {path : String} :
    path ∈ (computeDiff xxh3_64 mtimeEpsilon entries relKeys sample files).removed ↔
      path ∈ entries.map (·.path) ∧ path ∉ files.filterMap relKeys := by
  simp [computeDiff]

end ComputeDiff

end ChunkHound
