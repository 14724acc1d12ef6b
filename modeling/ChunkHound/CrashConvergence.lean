import ChunkHound.HashedBytes

/-!
# Convergence after a crash

A run may be killed between any two commits. The next complete incremental run is to leave
one row per scanned file, with the chunks of the file, and no other row : the diff selects
again every file whose row is dirty or missing, and trusts the rest.

The proof follows a row through the batches of the last run (`Rewrote`). A row written there
has the chunks of the record; a row left alone was found unchanged, and by
`Run.unchanged_sound` its chunks were parsed from the bytes the file has now. The one crash
that breaks this is in the delete window (`Run.Unsevered`) : the row it leaves is trusted,
and its chunks are gone.
-/

namespace ChunkHound

open StepSystem Slices

/-- The parse callback is a function of the file and its bytes. -/
def Run.ParsedBy (parser : String → Option Bytes → ParseItem) (run : Run) : Prop :=
  ∀ f ∈ run.files, (run.sample f.1).item = parser f.2 (run.sample f.1).parsedFrom

/-- No scanned file has other bytes than its row's chunks, under the same digest. -/
def Run.NoCollision (xxh3_64 : Bytes → UInt64) (run : Run) (s : Store) : Prop :=
  ∀ f ∈ run.files, ∀ r ∈ s.db.files, r.path = f.2 → r.Dated → ∀ u ∈ s.lastUpsert r.id,
    hashFileContents xxh3_64 (run.sample f.1).content =
      hashFileContents xxh3_64 u.record.parsedFrom →
    (run.sample f.1).content = u.record.parsedFrom

/-- The run commits everything : it is not killed and no write fails. -/
def Run.Completes (xxh3_64 : Bytes → UInt64) (toTimestamp : ℚ → ℚ) (insertBatchSize : ℕ)
    (run : Run) (s s' : Store) : Prop :=
  ∃ sess, run.session xxh3_64 s = some sess ∧
    (storeThread sess.orphans sess.batches).foldlM (Commit.run toTimestamp insertBatchSize) s =
      .ok s'

/-- To evaluate a complete run and check the state it leaves. -/
theorem Run.completes_of_check {xxh3_64 : Bytes → UInt64} {toTimestamp : ℚ → ℚ} {size : ℕ}
    {run : Run} {s : Store} {p : Store → Prop} [DecidablePred p]
    (h : ((run.session xxh3_64 s).any fun sess =>
      ((storeThread sess.orphans sess.batches).foldlM (Commit.run toTimestamp size)
        s).toOption.any fun s' => p s') = true) :
    ∃ s', run.Completes xxh3_64 toTimestamp size s s' ∧ p s' := by
  obtain ⟨sess, hsess, h⟩ := (Option.any_eq_true _ _).1 h
  obtain ⟨s', hs', h⟩ := (Option.any_eq_true _ _).1 h
  refine ⟨s', ⟨sess, hsess, ?_⟩, of_decide_eq_true h⟩
  cases hx : (storeThread sess.orphans sess.batches).foldlM (Commit.run toTimestamp size) s with
  | error e => simp [hx, Except.toOption] at hs'
  | ok t => simpa [hx, Except.toOption] using hs'

/-- The record's chunks are those of the bytes it was parsed from. -/
def FileRecord.ParsedBy (parser : String → Option Bytes → ParseItem) (file : FileRecord) : Prop :=
  file.chunks.map ChunkRecord.content = (parser file.path file.parsedFrom).chunkList

section

variable {xxh3_64 : Bytes → UInt64} {toTimestamp : ℚ → ℚ} {size : ℕ}
  {parser : String → Option Bytes → ParseItem} {run : Run} {s s' : Store}

variable {f : String × String}

theorem Run.parsedBy_fileRecord (hd : run.DistinctFiles) (hp : run.ParsedBy parser)
    (hf : f ∈ run.files) :
    (run.fileRecord xxh3_64 s f.1).ParsedBy parser := by
  rw [FileRecord.ParsedBy, Run.fileRecord_content, Run.fileRecord_path hd hf,
    Run.fileRecord_parsedFrom, hp f hf]

/-- Every upsert reached by deterministic runs stored the chunks of the bytes it parsed. -/
theorem Run.parsedBy_of_reach
    (h : ReachWhen (fun s (run : Run) => run.step xxh3_64 s toTimestamp size)
      (fun s run => run.DistinctFiles ∧ run.Stable ∧ run.MetadataHonest s ∧
        run.Unsevered xxh3_64 s ∧ run.ParsedBy parser) Store.empty s) :
    ∀ u ∈ s.upserts, u.record.ParsedBy parser := by
  refine h.invariant (I := fun s : Store => ∀ u ∈ s.upserts, u.record.ParsedBy parser)
    (by simp [Store.empty]) fun t run t' ih ⟨hd, _, _, _, hp⟩ hs u hu => ?_
  rcases Run.mem_upserts_step hs hu with hu | ⟨f, hf, hrec⟩
  · exact ih u hu
  · rw [hrec]
    exact Run.parsedBy_fileRecord hd hp hf

variable {sess : Session}

variable {r : FileRow}

theorem Run.mem_orphans (hd : run.DistinctFiles) (hcl : run.doCleanup = true)
    (hsess : run.session xxh3_64 s = some sess) (hr : r ∈ s.db.files) :
    r.path ∈ sess.orphans ↔ ∀ f ∈ run.files, f.2 ≠ r.path := by
  by_cases hperm : run.orphans.Perm (run.diff xxh3_64 s).removed
  · rw [Run.session, if_pos hperm] at hsess
    obtain rfl := Option.some.inj hsess
    have hpath : r.path ∈ (readFileStates s.db).map (·.path) :=
      List.mem_map.2 ⟨r.entry, List.mem_map_of_mem hr, rfl⟩
    change r.path ∈ (if run.doCleanup = true then run.orphans else []) ↔ _
    rw [if_pos hcl, hperm.mem_iff, Run.diff, mem_computeDiff_removed, Run.mem_relKeys hd]
    simp only [hpath, true_and, not_exists, not_and]
  · rw [Run.session, if_neg hperm] at hsess
    cases hsess

/-- The path of a file the diff found changed is in a batch. -/
theorem Run.mem_batches_of_changed (hinc : run.incremental = true)
    (hsess : run.session xxh3_64 s = some sess) (hf : f ∈ run.files)
    (hch : (run.verdict xxh3_64 s f.1).changed = true) :
    run.fileRecord xxh3_64 s f.1 ∈ sess.batches.flatten := by
  rw [Run.flatten_batches hsess]
  refine List.mem_map_of_mem ?_
  rw [Run.batchPaths, if_pos hinc, Run.diff, computeDiff_changed]
  exact List.mem_filter.2 ⟨List.mem_map_of_mem hf, hch⟩

/-- What a complete incremental run leaves, row by row. -/
theorem Run.completes_rows (hinv : s.Inv toTimestamp FileRow.Dated) (hd : run.DistinctFiles)
    (hsess : run.session xxh3_64 s = some sess)
    (hrun : (storeThread sess.orphans sess.batches).foldlM (Commit.run toTimestamp size) s =
      .ok s') :
    s'.Inv toTimestamp FileRow.Dated ∧
      (∀ r ∈ s'.db.files,
        (∃ u ∈ s'.lastUpsert r.id, u.record ∈ sess.batches.flatten ∧
          r = u.record.row toTimestamp r.id) ∨
          r ∈ s.db.files ∧ r.path ∉ sess.orphans ∧
            (∀ g ∈ sess.batches.flatten, g.path ≠ r.path) ∧
            s'.lastUpsert r.id = s.lastUpsert r.id) ∧
      (∀ r ∈ s.db.files, r.path ∉ sess.orphans → ∃ r' ∈ s'.db.files, r'.path = r.path) ∧
      ∀ g ∈ sess.batches.flatten, ∃ r ∈ s'.db.files, r.path = g.path := by
  rw [storeThread_eq, List.foldlM_append] at hrun
  obtain ⟨t, ht, hrun⟩ := bind_eq_ok.1 hrun
  obtain ⟨hinvt, hmem, hups⟩ := hinv.foldlM_deletePaths ht
  have hso : ∀ files ∈ sess.batches, SingleOwner toTimestamp FileRow.Dated files := by
    intro files hfiles
    refine singleOwner_of_nodup ?_
    have hflat : ((sess.batches.flatten).map (·.path)).Nodup := by
      rw [Run.flatten_batches hsess]
      exact Run.nodup_records hd
    exact hflat.sublist ((List.sublist_flatten_of_mem hfiles).map _)
  obtain ⟨hinv', hrew⟩ := hinvt.foldlM_batches hso hrun
  refine ⟨hinv', fun r hr => ?_, fun r hr ho => ?_, hrew.mem⟩
  · rcases hrew.rows r hr with h | ⟨hrt, hne, hlast⟩
    · exact Or.inl h
    · obtain ⟨hrs, ho⟩ := (hmem r).1 hrt
      refine Or.inr ⟨hrs, ho, hne, hlast.trans ?_⟩
      rw [Store.lastUpsert, hups]
      rfl
  · exact hrew.keep r ((hmem r).2 ⟨hr, ho⟩)

theorem Run.eq_of_path (hd : run.DistinctFiles) {f g : String × String} (hf : f ∈ run.files)
    (hg : g ∈ run.files) (he : f.2 = g.2) : f = g :=
  List.inj_on_of_nodup_map hd.2 hf hg he

/-- A row a complete run leaves for a scanned file was last parsed from the bytes the file
has. -/
theorem Run.completes_parsedFrom (hinv : s.Inv toTimestamp FileRow.Dated)
    (hh : s.UpsertsHashed xxh3_64) (hinc : run.incremental = true) (hd : run.DistinctFiles)
    (hst : run.Stable) (hm : run.MetadataHonest s) (hnc : run.NoCollision xxh3_64 s)
    (hsess : run.session xxh3_64 s = some sess)
    (hrun : (storeThread sess.orphans sess.batches).foldlM (Commit.run toTimestamp size) s =
      .ok s') (hf : f ∈ run.files) (hr : r ∈ s'.db.files)
    (hpath : r.path = f.2) : r.Dated ∧
      ∃ u ∈ s'.lastUpsert r.id, u.record.parsedFrom = (run.sample f.1).content := by
  obtain ⟨hinv', hrows, -, -⟩ := Run.completes_rows hinv hd hsess hrun
  rcases hrows r hr with ⟨u, hu, hmem, hrow⟩ | ⟨hrs, -, hne, hlast⟩
  · rw [Run.flatten_batches hsess] at hmem
    obtain ⟨p, hp, hrec⟩ := List.mem_map.1 hmem
    obtain ⟨g, hg, rfl⟩ := Run.mem_batchPaths hp
    have hkey : g.2 = f.2 := by
      rw [← Run.fileRecord_path hd hg, hrec, ← hpath, hrow]
      rfl
    obtain rfl := Run.eq_of_path hd hg hf hkey
    refine ⟨?_, u, hu, ?_⟩
    · rw [hrow, ← hrec]
      exact Option.some_ne_none _
    · rw [← hrec, Run.fileRecord_parsedFrom, hst g hg]
  · have hun : (run.verdict xxh3_64 s f.1).changed = false := by
      cases hc : (run.verdict xxh3_64 s f.1).changed with
      | false => rfl
      | true =>
        refine absurd ?_ (hne _ (Run.mem_batches_of_changed hinc hsess hf hc))
        rw [Run.fileRecord_path hd hf, hpath]
    obtain ⟨r', hr', hp', hdated, u, hu, -, heq⟩ := Run.unchanged_sound hinv hh hd hm hf hun
    obtain rfl := hinv.wf.eq_of_path hr' hrs (hp'.trans hpath.symm)
    exact ⟨hdated, u, hlast ▸ hu, (hnc f hf r' hr' hp' hdated u hu heq).symm⟩

/-- One row per scanned file, owning the chunks of the file's bytes, and no other row. -/
def Run.Converged (parser : String → Option Bytes → ParseItem) (run : Run) (s' : Store) : Prop :=
  (∀ f ∈ run.files, ∃ r ∈ s'.db.files, r.path = f.2 ∧
    (∀ r' ∈ s'.db.files, r'.path = f.2 → r' = r) ∧
    (s'.db.ownedChunks r.id).map ChunkRow.content =
      (parser f.2 (run.sample f.1).content).chunkList) ∧
  ∀ r ∈ s'.db.files, ∃ f ∈ run.files, r.path = f.2

theorem Run.converged (hinv : s.Inv toTimestamp FileRow.Dated) (hh : s.UpsertsHashed xxh3_64)
    (hups : ∀ u ∈ s.upserts, u.record.ParsedBy parser) (hinc : run.incremental = true)
    (hcl : run.doCleanup = true) (hd : run.DistinctFiles) (hst : run.Stable)
    (hm : run.MetadataHonest s) (hnc : run.NoCollision xxh3_64 s) (hp : run.ParsedBy parser)
    (hc : run.Completes xxh3_64 toTimestamp size s s') : run.Converged parser s' := by
  obtain ⟨sess, hsess, hrun⟩ := hc
  obtain ⟨hinv', hrows, hkeep, hmem⟩ := Run.completes_rows hinv hd hsess hrun
  have hups' : ∀ u ∈ s'.upserts, u.record.ParsedBy parser := by
    intro u hu
    have hcut : Session.run toTimestamp size s
        { sess with cut := (storeThread sess.orphans sess.batches).length } = s' :=
      cutRun_of_foldlM hrun le_rfl
    rw [← hcut] at hu
    rcases Session.mem_upserts_run hu with hu | ⟨files, hfiles, hu⟩
    · exact hups u hu
    · obtain ⟨f, hf, hrec⟩ := Run.mem_batches hsess hfiles hu
      rw [hrec]
      exact Run.parsedBy_fileRecord hd hp hf
  refine ⟨fun f hf => ?_, fun r hr => ?_⟩
  · -- a changed file is in a batch; an unchanged one has a row that is no orphan
    have hrow : ∃ r ∈ s'.db.files, r.path = f.2 := by
      cases hch : (run.verdict xxh3_64 s f.1).changed with
      | true =>
        obtain ⟨r, hr, hpath⟩ := hmem _ (Run.mem_batches_of_changed hinc hsess hf hch)
        exact ⟨r, hr, hpath.trans (Run.fileRecord_path hd hf)⟩
      | false =>
        obtain ⟨r, hr, hpath, -⟩ := Run.unchanged_sound hinv hh hd hm hf hch
        obtain ⟨r', hr', hpath'⟩ := hkeep r hr fun ho =>
          (Run.mem_orphans hd hcl hsess hr).1 ho f hf hpath.symm
        exact ⟨r', hr', hpath'.trans hpath⟩
    obtain ⟨r, hr, hpath⟩ := hrow
    refine ⟨r, hr, hpath, fun r' hr' hp' => hinv'.wf.eq_of_path hr' hr (hp'.trans hpath.symm), ?_⟩
    obtain ⟨hdated, u, hu, hfrom⟩ :=
      Run.completes_parsedFrom hinv hh hinc hd hst hm hnc hsess hrun hf hr hpath
    obtain ⟨v, hv, hrow, hown⟩ := hinv'.sound r hr hdated
    obtain rfl : u = v := Option.some.inj (hu.symm.trans hv)
    have hmemu := (Store.mem_upserts_of_lastUpsert hu).1
    obtain ⟨n, hn⟩ := hinv'.stored u hmemu
    have hkey : u.record.path = f.2 := by
      rw [← hpath, hrow]
      rfl
    rw [hown, hn, map_content_chunkRows, hups' u hmemu, hkey, hfrom]
  · rcases hrows r hr with ⟨u, -, hmemu, hrow⟩ | ⟨hrs, ho, -, -⟩
    · rw [Run.flatten_batches hsess] at hmemu
      obtain ⟨p, hpp, hrec⟩ := List.mem_map.1 hmemu
      obtain ⟨f, hf, rfl⟩ := Run.mem_batchPaths hpp
      refine ⟨f, hf, ?_⟩
      rw [← Run.fileRecord_path hd hf, hrec, hrow]
      rfl
    · by_contra hno
      refine ho ((Run.mem_orphans hd hcl hsess hrs).2 fun f hf he => hno ⟨f, hf, he.symm⟩)

/-- Every scanned file of the run holds the bytes `disk` has under its key. -/
def Run.Reads (disk : String → Bytes) (run : Run) : Prop :=
  ∀ f ∈ run.files, (run.sample f.1).content = some (disk f.2) ∧
    (run.sample f.1).parsedFrom = some (disk f.2)

variable {disk : String → Bytes}

theorem Run.content_of_reads (hinv : s.Inv toTimestamp FileRow.Dated)
    (hdisk : ∀ u ∈ s.upserts, u.record.parsedFrom = some (disk u.record.path))
    (hr : run.Reads disk) (hf : f ∈ run.files)
    (hrow : r ∈ s.db.files) (hpath : r.path = f.2) (hdated : r.Dated) {u : Upsert}
    (hu : u ∈ s.lastUpsert r.id) : (run.sample f.1).content = u.record.parsedFrom := by
  obtain ⟨v, hv, heq, -⟩ := hinv.sound r hrow hdated
  obtain rfl : u = v := Option.some.inj (hu.symm.trans hv)
  have hkey : u.record.path = f.2 := by
    rw [← hpath, heq]
    rfl
  rw [(hr f hf).1, hdisk u (Store.mem_upserts_of_lastUpsert hu).1, hkey]

/-- On a tree that never changes the trust in the metadata is justified. -/
theorem Run.metadataHonest_of_reads (hinv : s.Inv toTimestamp FileRow.Dated)
    (hdisk : ∀ u ∈ s.upserts, u.record.parsedFrom = some (disk u.record.path))
    (hr : run.Reads disk) : run.MetadataHonest s := by
  intro f hf r hrow hpath hmatch u hu
  obtain ⟨m, hm, -⟩ := hmatch
  exact Run.content_of_reads hinv hdisk hr hf hrow hpath (Option.ne_none_iff_exists'.2 ⟨m, hm⟩) hu

end

/-- From a state reached by runs that may be killed anywhere but in the delete window, a
complete incremental run leaves one row per scanned file, owning the chunks of the file's
bytes, and no other row. -/
theorem converges_of_reach (xxh3_64 : Bytes → UInt64) (toTimestamp : ℚ → ℚ)
    (insertBatchSize : ℕ) (parser : String → Option Bytes → ParseItem) {run : Run} {s s' : Store}
    (h : ReachWhen (fun s (run : Run) => run.step xxh3_64 s toTimestamp insertBatchSize)
      (fun s run => run.DistinctFiles ∧ run.Stable ∧ run.MetadataHonest s ∧
        run.Unsevered xxh3_64 s ∧ run.ParsedBy parser) Store.empty s)
    (hinc : run.incremental = true) (hcl : run.doCleanup = true) (hd : run.DistinctFiles)
    (hst : run.Stable) (hm : run.MetadataHonest s) (hnc : run.NoCollision xxh3_64 s)
    (hp : run.ParsedBy parser) (hc : run.Completes xxh3_64 toTimestamp insertBatchSize s s') :
    run.Converged parser s' := by
  obtain ⟨hinv, hh⟩ := Run.hashed_of_reach (h.mono fun _ _ ⟨h₁, h₂, h₃, h₄, _⟩ => ⟨h₁, h₂, h₃, h₄⟩)
  exact Run.converged hinv hh (Run.parsedBy_of_reach h) hinc hcl hd hst hm hnc hp hc

/-- A run that finds no file, killed after phase 1 of its orphan delete. -/
def severingRun : Run :=
  { oneFileRun 10 [] [] with files := [], orphans := ["a.py"], cut := 1 }

/-- The file is indexed, and a run with an empty file list is killed in its delete window.
The next complete run over the unchanged file leaves its row without chunks. -/
theorem severed_file_stays_empty : ∃ s,
    Reach (fun s (run : Run) => run.step sampleDigest s id 1000) Store.empty s ∧
      (sampleParser "a.py" (some [97])).chunkList ≠ [] ∧
      ∃ s', (oneFileRun 10 [97] [97]).Completes sampleDigest id 1000 s s' ∧
        ∃ r ∈ s'.db.files, r.path = "a.py" ∧ s'.db.ownedChunks r.id = [] :=
  ⟨_, Reach.of_execute [oneFileRun 10 [97] [97], severingRun] rfl, by decide,
    Run.completes_of_check (by decide +kernel)⟩

theorem converges_oneFileRun : ∃ s', (oneFileRun 10 [97] [97]).Completes sampleDigest id 1000
    Store.empty s' ∧ s'.db.files ≠ [] ∧ (oneFileRun 10 [97] [97]).Converged sampleParser s' := by
  obtain ⟨s', hs', hne⟩ : ∃ s', (oneFileRun 10 [97] [97]).Completes sampleDigest id 1000
      Store.empty s' ∧ s'.db.files ≠ [] := Run.completes_of_check (by decide +kernel)
  refine ⟨s', hs', hne, ?_⟩
  refine converges_of_reach sampleDigest id 1000 sampleParser .init rfl rfl ?_ ?_ ?_ ?_ ?_ hs'
  · exact ⟨by simp [oneFileRun], by simp [oneFileRun]⟩
  · intro f _
    rfl
  · intro f _ r hr
    simp [Store.empty, Db.empty] at hr
  · intro f _ r hr
    simp [Store.empty, Db.empty] at hr
  · intro f hf
    rw [List.mem_singleton.1 hf]
    rfl

/-- On a tree that never changes, the delete window alone stands in the way. -/
theorem converges_on_fixed_tree (xxh3_64 : Bytes → UInt64) (toTimestamp : ℚ → ℚ)
    (insertBatchSize : ℕ) (parser : String → Option Bytes → ParseItem) (disk : String → Bytes)
    {run : Run} {s s' : Store}
    (h : ReachWhen (fun s (run : Run) => run.step xxh3_64 s toTimestamp insertBatchSize)
      (fun s run => run.DistinctFiles ∧ run.Reads disk ∧ run.Unsevered xxh3_64 s ∧
        run.ParsedBy parser) Store.empty s)
    (hinc : run.incremental = true) (hcl : run.doCleanup = true) (hd : run.DistinctFiles)
    (hr : run.Reads disk) (hp : run.ParsedBy parser)
    (hc : run.Completes xxh3_64 toTimestamp insertBatchSize s s') : run.Converged parser s' := by
  have hstable : ∀ {run : Run}, run.Reads disk → run.Stable :=
    fun hr f hf => (hr f hf).2.trans (hr f hf).1.symm
  have hinv : s.Inv toTimestamp FileRow.Dated ∧ s.UpsertsHashed xxh3_64 ∧
      (∀ u ∈ s.upserts, u.record.parsedFrom = some (disk u.record.path)) ∧
      ∀ u ∈ s.upserts, u.record.ParsedBy parser := by
    refine h.invariant (I := fun s : Store => s.Inv toTimestamp FileRow.Dated ∧
      s.UpsertsHashed xxh3_64 ∧
      (∀ u ∈ s.upserts, u.record.parsedFrom = some (disk u.record.path)) ∧
      ∀ u ∈ s.upserts, u.record.ParsedBy parser)
      ⟨Store.inv_empty FileRow.not_dated_dirty, by simp [Store.UpsertsHashed, Store.empty],
        by simp [Store.empty], by simp [Store.empty]⟩ ?_
    rintro t run t' ⟨hinv, hh, hdisk, hups⟩ ⟨hd, hr, hu, hp⟩ hs
    have hm := Run.metadataHonest_of_reads hinv hdisk hr
    refine ⟨Run.inv_step hinv hd hu hs, Run.upsertsHashed_step hinv hh hd (hstable hr) hm hs,
      fun u hu => ?_, fun u hu => ?_⟩
    · rcases Run.mem_upserts_step hs hu with hu | ⟨f, hf, hrec⟩
      · exact hdisk u hu
      · rw [hrec, Run.fileRecord_parsedFrom, Run.fileRecord_path hd hf, (hr f hf).2]
    · rcases Run.mem_upserts_step hs hu with hu | ⟨f, hf, hrec⟩
      · exact hups u hu
      · rw [hrec]
        exact Run.parsedBy_fileRecord hd hp hf
  obtain ⟨hinv, hh, hdisk, hups⟩ := hinv
  refine Run.converged hinv hh hups hinc hcl hd (hstable hr)
    (Run.metadataHonest_of_reads hinv hdisk hr) ?_ hp hc
  intro f hf r hrow hpath hdated u hu _
  exact Run.content_of_reads hinv hdisk hr hf hrow hpath hdated hu

end ChunkHound
