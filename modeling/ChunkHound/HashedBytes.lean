import ChunkHound.NativePipeline

/-!
# The stored hash and the parsed bytes

The diff hashes a file and the parse stage reads it later; the row gets the first hash with
the chunks of the second read. `UpsertsHashed` says that in each upsert the two reads agree.
It holds when no write lands between them in any run, and when a file whose metadata matches
its row has not changed, which the diff trusts : a forced run writes such a row's hash back
without reading the file.

Then a clean row's hash is that of the bytes its chunks were parsed from, and a file found
unchanged has those bytes, up to a collision of the digest (`hash_describes_bytes`). A file
that changes between the two reads and changes back, or that changes under the same mtime
and size, is found unchanged while its chunks are of other bytes.
-/

namespace ChunkHound

open StepSystem

/-- The record's hash, if it has one, is that of the bytes its chunks were parsed from. -/
def FileRecord.Hashed (xxh3_64 : Bytes → UInt64) (file : FileRecord) : Prop :=
  ∀ hash ∈ file.contentHash, hashFileContents xxh3_64 file.parsedFrom = some hash

/-- Every upsert of the history recorded the hash of the bytes it parsed. -/
def Store.UpsertsHashed (xxh3_64 : Bytes → UInt64) (s : Store) : Prop :=
  ∀ u ∈ s.upserts, u.record.Hashed xxh3_64

section

variable {xxh3_64 : Bytes → UInt64} {toTimestamp : ℚ → ℚ} {size : ℕ} {run : Run} {s s' : Store}

theorem Store.mem_upserts_of_lastUpsert {id : ℕ} {u : Upsert} (h : u ∈ s.lastUpsert id) :
    u ∈ s.upserts ∧ u.fileId = id :=
  ⟨List.mem_of_find?_eq_some h, by simpa using List.find?_some h⟩

/-- The row of a scanned file, from the entry its verdict was made with. -/
theorem Run.exists_row {k : String} {e : DbFileEntry}
    (h : (readFileStates s.db).find? (·.path = k) = some e) :
    ∃ r ∈ s.db.files, r.path = k ∧ r.entry = e := by
  obtain ⟨r, hr, he⟩ := List.mem_map.1 (List.mem_of_find?_eq_some h)
  have hk : e.path = k := by simpa using List.find?_some h
  exact ⟨r, hr, by rw [← hk, ← he]; rfl, he⟩

variable {f : String × String}

theorem Run.verdict_eq (hd : run.DistinctFiles) (hf : f ∈ run.files) :
    run.verdict xxh3_64 s f.1 = diffFile xxh3_64 run.mtimeEpsilon
      ((readFileStates s.db).find? (·.path = f.2)) (run.sample f.1).toDiffSample := by
  unfold Run.verdict fileVerdict
  rw [Run.relKeys_eq hd hf]

/-- A record of a run has the hash of the bytes it was parsed from. -/
theorem Run.hashed_fileRecord (hinv : s.Inv toTimestamp FileRow.Dated)
    (hh : s.UpsertsHashed xxh3_64) (hd : run.DistinctFiles) (hst : run.Stable)
    (hm : run.MetadataHonest s) (hf : f ∈ run.files) :
    (run.fileRecord xxh3_64 s f.1).Hashed xxh3_64 := by
  intro hash hhash
  have hnew := Run.fileRecord_contentHash hf hhash
  rw [Run.verdict_eq hd hf] at hnew
  rw [Run.fileRecord_parsedFrom, hst f hf]
  rcases diffFile_newHash hnew with hread | ⟨e, he, hmatch, hstored⟩
  · exact hread
  · obtain ⟨r, hr, hpath, rfl⟩ := Run.exists_row he
    have hdated : r.Dated := by
      obtain ⟨m, hm, -⟩ := hmatch
      exact Option.ne_none_iff_exists'.2 ⟨m, hm⟩
    obtain ⟨u, hu, hrow, -⟩ := hinv.sound r hr hdated
    rw [hm f hf r hr hpath hmatch u hu]
    refine hh u (Store.mem_upserts_of_lastUpsert hu).1 hash ?_
    have hcol : r.contentHash = u.record.contentHash := by rw [hrow]; rfl
    exact hcol.symm.trans hstored

theorem Run.upsertsHashed_step (hinv : s.Inv toTimestamp FileRow.Dated)
    (hh : s.UpsertsHashed xxh3_64) (hd : run.DistinctFiles) (hst : run.Stable)
    (hm : run.MetadataHonest s) (hs : run.step xxh3_64 s toTimestamp size = some s') :
    s'.UpsertsHashed xxh3_64 := by
  intro u hu
  rcases Run.mem_upserts_step hs hu with hu | ⟨f, hf, hrec⟩
  · exact hh u hu
  · rw [hrec]
    exact Run.hashed_fileRecord hinv hh hd hst hm hf

/-- A file the diff finds unchanged has a dated row, and its bytes have the digest of the
bytes the row's chunks were parsed from. -/
theorem Run.unchanged_sound (hinv : s.Inv toTimestamp FileRow.Dated)
    (hh : s.UpsertsHashed xxh3_64) (hd : run.DistinctFiles) (hm : run.MetadataHonest s)
    (hf : f ∈ run.files)
    (hun : (run.verdict xxh3_64 s f.1).changed = false) :
    ∃ r ∈ s.db.files, r.path = f.2 ∧ r.Dated ∧
      ∃ u ∈ s.lastUpsert r.id, s.db.ownedChunks r.id = u.inserted ∧
        hashFileContents xxh3_64 (run.sample f.1).content =
          hashFileContents xxh3_64 u.record.parsedFrom := by
  rw [Run.verdict_eq hd hf] at hun
  obtain ⟨e, m, he, hmtime, -, hcase⟩ := diffFile_unchanged hun
  obtain ⟨r, hr, hpath, rfl⟩ := Run.exists_row he
  have hdated : r.Dated := Option.ne_none_iff_exists'.2 ⟨m, hmtime⟩
  obtain ⟨u, hu, hrow, hown⟩ := hinv.sound r hr hdated
  refine ⟨r, hr, hpath, hdated, u, hu, hown, ?_⟩
  rcases hcase with hmatch | ⟨hash, hstored, hread⟩
  · rw [hm f hf r hr hpath hmatch u hu]
  · have hcol : u.record.contentHash = some hash := by
      rw [← hstored]
      change _ = r.contentHash
      rw [hrow]
      rfl
    rw [hread, hh u (Store.mem_upserts_of_lastUpsert hu).1 hash hcol]

end

/-- The store after runs of distinct files, stable, with honest metadata, and not severed. -/
theorem Run.hashed_of_reach {xxh3_64 : Bytes → UInt64} {toTimestamp : ℚ → ℚ} {size : ℕ}
    {s : Store} (h : ReachWhen (fun s (run : Run) => run.step xxh3_64 s toTimestamp size)
      (fun s run => run.DistinctFiles ∧ run.Stable ∧ run.MetadataHonest s ∧
        run.Unsevered xxh3_64 s) Store.empty s) :
    s.Inv toTimestamp FileRow.Dated ∧ s.UpsertsHashed xxh3_64 := by
  have h0 : Store.empty.Inv toTimestamp FileRow.Dated ∧ Store.empty.UpsertsHashed xxh3_64 :=
    ⟨Store.inv_empty FileRow.not_dated_dirty, by simp [Store.UpsertsHashed, Store.empty]⟩
  refine h.invariant (I := fun s => s.Inv toTimestamp FileRow.Dated ∧ s.UpsertsHashed xxh3_64) h0 ?_
  rintro t run t' ⟨hinv, hh⟩ ⟨hd, hst, hm, hu⟩ hs
  exact ⟨Run.inv_step hinv hd hu hs, Run.upsertsHashed_step hinv hh hd hst hm hs⟩

/-- In every state reached by such runs, a clean row has the hash of the bytes its chunks
were parsed from, and a later run that trusts the metadata no further finds a file unchanged
only when its bytes have that hash. -/
theorem hash_describes_bytes (xxh3_64 : Bytes → UInt64) (toTimestamp : ℚ → ℚ)
    (insertBatchSize : ℕ) {s : Store}
    (h : ReachWhen (fun s (run : Run) => run.step xxh3_64 s toTimestamp insertBatchSize)
      (fun s run => run.DistinctFiles ∧ run.Stable ∧ run.MetadataHonest s ∧
        run.Unsevered xxh3_64 s) Store.empty s) :
    (∀ r ∈ s.db.files, r.Clean → ∃ u ∈ s.lastUpsert r.id, s.db.ownedChunks r.id = u.inserted ∧
      u.Stored ∧ r.contentHash = hashFileContents xxh3_64 u.record.parsedFrom) ∧
    ∀ run : Run, run.DistinctFiles → run.MetadataHonest s → ∀ f ∈ run.files,
      (run.verdict xxh3_64 s f.1).changed = false →
      ∃ r ∈ s.db.files, r.path = f.2 ∧ ∃ u ∈ s.lastUpsert r.id,
        s.db.ownedChunks r.id = u.inserted ∧ u.Stored ∧
        hashFileContents xxh3_64 (run.sample f.1).content =
          hashFileContents xxh3_64 u.record.parsedFrom := by
  obtain ⟨hinv, hh⟩ := Run.hashed_of_reach h
  refine ⟨fun r hr hc => ?_, fun run hd hm f hf hun => ?_⟩
  · obtain ⟨u, hu, hrow, hown⟩ := hinv.sound r hr hc.1
    have hmem := (Store.mem_upserts_of_lastUpsert hu).1
    obtain ⟨hash, hhash⟩ := Option.ne_none_iff_exists'.1 hc.2
    have hcol : u.record.contentHash = some hash := by
      rw [← hhash, hrow]
      rfl
    exact ⟨u, hu, hown, hinv.stored u hmem, by rw [hhash, hh u hmem hash hcol]⟩
  · obtain ⟨r, hr, hpath, -, u, hu, hown, heq⟩ := Run.unchanged_sound hinv hh hd hm hf hun
    exact ⟨r, hr, hpath, u, hu, hown,
      hinv.stored u (Store.mem_upserts_of_lastUpsert hu).1, heq⟩

/-! ## Edits the diff does not see -/

/-- A digest for the examples. -/
def sampleDigest (bytes : Bytes) : UInt64 :=
  bytes.foldl (fun d b => 31 * d + b.toUInt64) 7

/-- A parser for the examples : one chunk with the file's text. -/
def sampleParser (_path : String) (bytes : Option Bytes) : ParseItem where
  lang := "python"
  chunks := bytes.map fun bytes => [{
    chunkType := "module"
    symbol := none
    code := String.ofList (bytes.map fun b => Char.ofNat b.toNat)
    startLine := some 1
    endLine := some 1
    startByte := none
    endByte := none
    language := some "python"
    metadata := none }]
  error := none
  callbackSkip := none

/-- A run over one file, whose bytes are `content` when the diff looks and `parsedFrom` when
the parse callback reads. -/
def oneFileRun (mtime : ℚ) (content parsedFrom : Bytes) : Run where
  files := [("/r/a.py", "a.py")]
  incremental := true
  doCleanup := true
  mtimeEpsilon := 1 / 100
  parseBatchSize := 8
  provider := "p"
  model := "m"
  sample _ := {
    precomputed := some (content.length, mtime)
    metadata := none
    confirm := none
    content := some content
    restat := (0, 0)
    parsedFrom := some parsedFrom
    item := sampleParser "a.py" (some parsedFrom) }
  vectors _ _ := none
  orphans := []
  cut := 9

/-- The file holds `a` when hashed and `b` when parsed, and `a` again before the next run,
which finds it unchanged by its hash. And : the file holds `a` in the first run and `b`,
under the same mtime and size, in the next, which finds it unchanged by its metadata. -/
theorem stale_chunks_look_unchanged :
    (∃ s, Reach (fun s (run : Run) => run.step sampleDigest s id 1000) Store.empty s ∧
      ((oneFileRun 20 [97] [97]).verdict sampleDigest s "/r/a.py").changed = false ∧
      ∃ r ∈ s.db.files, r.Clean ∧ ∃ u ∈ s.lastUpsert r.id, u.record.parsedFrom = some [98] ∧
        s.db.ownedChunks r.id = u.inserted ∧ u.inserted.map (·.code) = ["b"]) ∧
    ∃ s, Reach (fun s (run : Run) => run.step sampleDigest s id 1000) Store.empty s ∧
      ((oneFileRun 10 [98] [98]).verdict sampleDigest s "/r/a.py").changed = false ∧
      ∃ r ∈ s.db.files, r.Clean ∧ ∃ u ∈ s.lastUpsert r.id, u.record.parsedFrom = some [97] ∧
        s.db.ownedChunks r.id = u.inserted ∧ u.inserted.map (·.code) = ["a"] :=
  ⟨⟨_, Reach.of_execute [oneFileRun 10 [97] [98]] rfl, by decide +kernel, by decide +kernel⟩,
    ⟨_, Reach.of_execute [oneFileRun 10 [97] [97]] rfl, by decide +kernel, by decide +kernel⟩⟩

theorem hash_describes_bytes_oneFileRun :
    ∃ s, (oneFileRun 10 [97] [97]).step sampleDigest Store.empty id 1000 = some s ∧
      s.db.files ≠ [] ∧ ∀ r ∈ s.db.files, r.Clean → ∃ u ∈ s.lastUpsert r.id,
        s.db.ownedChunks r.id = u.inserted ∧ u.Stored ∧
        r.contentHash = hashFileContents sampleDigest u.record.parsedFrom := by
  refine ⟨_, rfl, by decide +kernel, ?_⟩
  refine (hash_describes_bytes sampleDigest id 1000 (.step (a := oneFileRun 10 [97] [97]) .init
    ⟨?_, ?_, ?_, ?_⟩ rfl)).1
  · exact ⟨by simp [oneFileRun], by simp [oneFileRun]⟩
  · intro f _
    rfl
  · intro f _ r hr
    simp [Store.empty, Db.empty] at hr
  · rintro sess _ ⟨-, r, hr, -⟩
    simp [Store.empty, Db.empty] at hr

end ChunkHound
