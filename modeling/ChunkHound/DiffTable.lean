import ChunkHound.Differ

/-!
# The decision table of the diff

One lemma for each map of `diffFile`, by the branches it goes through, and from them what
`compute_diff` decides on the whole scan (`computeDiff_decides`). The row of a file is the one
with its relative key, and sizes are compared as the source compares them, as `u64`.
-/

namespace ChunkHound

/-! ## The maps of one file -/

section Verdict

variable {xxh3_64 : Bytes → UInt64} {mtimeEpsilon : ℚ} {e : DbFileEntry} {x : DiffSample}

/-- Every branch of a known file stashes its row id. -/
theorem diffFile_existingId :
    (diffFile xxh3_64 mtimeEpsilon (some e) x).existingId = some e.id := by
  unfold diffFile
  dsimp only
  split
  · rfl
  · split
    · rfl
    · split
      · split
        · split <;> rfl
        · rfl
      · split <;> rfl

/-- The stat written for a readable file is the one the diff used. -/
theorem diffFile_diskStat {entry : Option DbFileEntry} (h : x.currentMtime.isSome = true) :
    (diffFile xxh3_64 mtimeEpsilon entry x).diskStat = x.current := by
  obtain ⟨cur, hcur⟩ := Option.isSome_iff_exists.1 h
  unfold diffFile
  cases entry with
  | none => rfl
  | some e =>
    dsimp only
    rw [hcur]
    dsimp only
    split
    · rfl
    · split
      · split
        · split <;> rfl
        · rfl
      · split <;> rfl

end Verdict

/-! ## The whole scan -/

section ComputeDiff

variable (xxh3_64 : Bytes → UInt64) (mtimeEpsilon : ℚ) (entries : List DbFileEntry)
  (relKeys : String → Option String) (sample : String → DiffSample) (files : List String)

/-- The row of a scanned path. -/
def rowOf (path : String) : Option DbFileEntry :=
  (relKeys path).bind fun rel => entries.find? (·.path = rel)

variable {xxh3_64 mtimeEpsilon entries relKeys sample files}

theorem fileVerdict_of_row {path : String} {e : DbFileEntry}
    (h : rowOf entries relKeys path = some e) :
    fileVerdict xxh3_64 mtimeEpsilon entries relKeys sample path =
      diffFile xxh3_64 mtimeEpsilon (some e) (sample path) := by
  obtain ⟨rel, hrel, hfind⟩ := Option.bind_eq_some_iff.1 h
  simp only [fileVerdict, hrel, hfind]

/-- A path left unchanged has a row. -/
theorem exists_rowOf_of_unchanged {path : String}
    (h : (fileVerdict xxh3_64 mtimeEpsilon entries relKeys sample path).changed = false) :
    ∃ e, rowOf entries relKeys path = some e := by
  unfold fileVerdict at h
  cases hrel : relKeys path with
  | none => simp [hrel] at h
  | some rel =>
    rw [hrel] at h
    obtain ⟨e, m, he, -⟩ := diffFile_unchanged h
    exact ⟨e, by rw [rowOf, hrel, Option.bind_some, he]⟩

variable {p : String}

theorem computeDiff_existingIds (hp : p ∈ files) :
    (computeDiff xxh3_64 mtimeEpsilon entries relKeys sample files).existingIds p =
      (fileVerdict xxh3_64 mtimeEpsilon entries relKeys sample p).existingId := by
  have := (foldl_scan (fileVerdict xxh3_64 mtimeEpsilon entries relKeys sample) files
    DiffResult.empty).2.2.1 p
  simpa [computeDiff, DiffResult.empty, hp] using this

theorem changed_eq_false_of_notMem (hp : p ∈ files)
    (h : p ∉ (computeDiff xxh3_64 mtimeEpsilon entries relKeys sample files).changed) :
    (fileVerdict xxh3_64 mtimeEpsilon entries relKeys sample p).changed = false := by
  rw [computeDiff_changed, List.mem_filter] at h
  exact Bool.eq_false_iff.2 fun hchanged => h ⟨hp, hchanged⟩

theorem fileVerdict_diskStat (h : (sample p).currentMtime.isSome = true) :
    (fileVerdict xxh3_64 mtimeEpsilon entries relKeys sample p).diskStat =
      (sample p).current := by
  unfold fileVerdict
  split
  · rfl
  · exact diffFile_diskStat h

variable (xxh3_64 mtimeEpsilon entries relKeys sample files)

/-- What the later stages rely on. -/
structure Decides (d : DiffResult) : Prop where
  unchanged : ∀ p ∈ files, p ∉ d.changed → ∃ e, rowOf entries relKeys p = some e ∧
    e.mtime ≠ none ∧ (MetadataMatches mtimeEpsilon e (sample p) ∨ ∃ hash,
      e.contentHash = some hash ∧ hashFileContents xxh3_64 (sample p).content = some hash)
  removed : ∀ path, path ∈ d.removed ↔
    (∃ e ∈ entries, e.path = path) ∧ ∀ p ∈ files, relKeys p ≠ some path
  diskStats : ∀ p ∈ files, (d.diskStats p).isSome = true
  readable : ∀ p ∈ files, (sample p).currentMtime.isSome = true →
    d.diskStats p = some (sample p).current
  existingIds : ∀ p ∈ files, ∀ e, rowOf entries relKeys p = some e →
    d.existingIds p = some e.id
  keepsHash : ∀ p ∈ files, p ∉ d.changed → ∀ e, rowOf entries relKeys p = some e →
    ∀ hash, e.contentHash = some hash → d.newHashes p = some hash

/-- A file is skipped only on the word of its row, and no map the later stages read misses a
file it should have. -/
theorem computeDiff_decides :
    Decides xxh3_64 mtimeEpsilon entries relKeys sample files
      (computeDiff xxh3_64 mtimeEpsilon entries relKeys sample files) := by
  constructor
  · intro p hp hchanged
    have hfalse := changed_eq_false_of_notMem hp hchanged
    obtain ⟨e, hrow⟩ := exists_rowOf_of_unchanged hfalse
    rw [fileVerdict_of_row hrow] at hfalse
    obtain ⟨e', m, he, hm, -, hmatch⟩ := diffFile_unchanged hfalse
    obtain rfl := Option.some.inj he
    exact ⟨e, hrow, by simp [hm], hmatch⟩
  · intro path
    rw [mem_computeDiff_removed, List.mem_map]
    refine and_congr_right fun _ => ?_
    simp [List.mem_filterMap]
  · intro p hp
    rw [computeDiff_diskStats hp]
    rfl
  · intro p hp hread
    rw [computeDiff_diskStats hp, fileVerdict_diskStat hread]
  · intro p hp e hrow
    rw [computeDiff_existingIds hp, fileVerdict_of_row hrow, diffFile_existingId]
  · intro p hp hchanged e hrow hash hhash
    have hfalse := changed_eq_false_of_notMem hp hchanged
    rw [fileVerdict_of_row hrow] at hfalse
    obtain ⟨e', m, he, -, hkeeps, -⟩ := diffFile_unchanged hfalse
    obtain rfl := Option.some.inj he
    rw [computeDiff_newHashes hp, fileVerdict_of_row hrow, hkeeps, hhash]

end ComputeDiff

end ChunkHound
