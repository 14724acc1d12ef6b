import ChunkHound.OrphanCleanup
import ChunkHound.PathFilter

/-!
# Classifying orphans

`_classify_cleanup_candidate` asks the disk, and then a path filter of the cleanup's own, about the
file of each row. `Path.exists` may raise, which ends the cleanup, and the filter may be degraded by
any of the rows, after which no row of a file that exists is deleted.

A cleanup that returns has deleted the rows the query answered whose file was not discovered and is
either missing or refused by the policy while the filter was healthy. The query of a directory asks
for the rows in it. DuckDB answers these, and LanceDB all rows, so that a cleanup on LanceDB keeps
to its directory only where no row outside is such an orphan (`cleanupOrphanedFiles_exact_iff`).
-/

namespace ChunkHound

open Slices

/-- A cleanup : the run it belongs to, the store it asks, what its path filter is made with, and
what raises, `exists()` of a path and what the filter asks for at each row of the query. -/
structure Cleanup where
  run : IndexRun
  backend : Backend
  settings : FilterSettings
  engine : PurePath → Bool
  lower : List Char → List Char
  knownExtensions : List Ignore.Segment
  knownNames : List Ignore.Segment
  statRaises : PurePath → Option String
  filterRaises : ℕ → FilterStep → Option String

namespace Cleanup

variable (c : Cleanup)

/-- `_build_cleanup_path_filter`. -/
def pathFilter : PathFilter where
  settings := some c.settings
  root := c.run.directory
  fs := c.run.fs
  engine := c.engine
  lower := c.lower
  knownExtensions := c.knownExtensions
  knownNames := c.knownNames

/-- `full_path.exists()`. -/
def pathExists (path : PurePath) : Except String Bool :=
  match c.statRaises path with
  | some error => .error error
  | none => .ok (c.run.fs.onDisk path)

/-- `_classify_cleanup_candidate`, of the row with this number. -/
def classifyCleanupCandidate (currentFilePaths : List String) (row : ℕ) (path : String)
    (s : FilterState) : Except String (Option CleanupReason) × FilterState :=
  classifyCandidate FilterState.isDegraded
    (c.pathFilter.shouldIndex (c.filterRaises row) (c.run.fullPath path)) currentFilePaths path
    (c.pathExists (c.run.fullPath path)) s

/-- `_cleanup_orphaned_files` : the paths handed over for deletion, and the count. -/
def cleanupOrphanedFiles (rows : List String) : List String × Except String ℕ :=
  c.run.cleanupWith (fun relativeDirectory => c.backend.executeQuery relativeDirectory rows)
    fun currentFilePaths => orphanedFiles (c.classifyCleanupCandidate currentFilePaths) 0
      FilterState.new

/-! ## What is deleted -/

/-- The filter after the first rows, from the one with this number on. -/
def filterAfter (currentFilePaths : List String) : ℕ → FilterState → List String → FilterState
  | _, s, [] => s
  | row, s, path :: paths =>
    filterAfter currentFilePaths (row + 1)
      (c.classifyCleanupCandidate currentFilePaths row path s).2 paths

/-- The query answers the row, its file was not discovered, and it is missing, or refused by the
policy while the filter was healthy. -/
def Orphaned (rows : List String) (path : String) : Prop :=
  ∃ currentFiles relativeDirectory before after,
    c.run.files.mapM c.run.getRelativePath = .ok currentFiles ∧
    c.run.getRelativePath c.run.directory = .ok relativeDirectory ∧
    c.backend.executeQuery relativeDirectory rows = before ++ path :: after ∧
    path ∉ currentFiles.map PurePath.asPosix ∧
    c.statRaises (c.run.fullPath path) = none ∧
    (c.run.fs.onDisk (c.run.fullPath path) = false ∨
      c.pathFilter.accepts (c.run.fullPath path) = false ∧
        (c.filterAfter (currentFiles.map PurePath.asPosix) 0 FilterState.new
          (before ++ [path])).isDegraded = false)

/-- The row is in the directory. -/
def InDirectory (path : String) : Prop :=
  ∃ relativeDirectory, c.run.getRelativePath c.run.directory = .ok relativeDirectory ∧
    inScope relativeDirectory path = true

/-- What a cleanup may delete. -/
def Deletable (rows : List String) (path : String) : Prop :=
  c.InDirectory path ∧ c.Orphaned rows path

/-- On LanceDB, no row outside the directory is an orphan. -/
def NoOrphanOutside (rows : List String) : Prop :=
  c.backend = .lancedb → ∀ path, c.Orphaned rows path → c.InDirectory path

section Classification

variable {c} {current : List String} {row : ℕ} {s s' : FilterState} {path : String}

/-- The filter of a row is that of the row before, or has been asked. -/
theorem classifyCleanupCandidate_state (c : Cleanup) (current : List String) (row : ℕ)
    (path : String) (s : FilterState) :
    (c.classifyCleanupCandidate current row path s).2 = s ∨
      (c.classifyCleanupCandidate current row path s).2 =
        (c.pathFilter.shouldIndex (c.filterRaises row) (c.run.fullPath path) s).2 := by
  unfold classifyCleanupCandidate classifyCandidate
  split
  · exact Or.inl rfl
  · split
    · exact Or.inl rfl
    · exact Or.inl rfl
    · split
      · exact Or.inl rfl
      · right
        split
        · rename_i heq
          rw [heq]
        · rename_i heq
          rw [heq]
        · rename_i heq
          rw [heq]
          split
          · rfl
          · rfl

variable (current row path) in
theorem classifyCleanupCandidate_healthy_or_degraded
    (h : c.pathFilter.Healthy s ∨ s.isDegraded = true) :
    c.pathFilter.Healthy (c.classifyCleanupCandidate current row path s).2 ∨
      (c.classifyCleanupCandidate current row path s).2.isDegraded = true := by
  rcases classifyCleanupCandidate_state c current row path s with heq | heq
  · rw [heq]
    exact h
  · rw [heq]
    exact PathFilter.shouldIndex_healthy_or_degraded (c.filterRaises row) (c.run.fullPath path) h

/-- Why a row is put on the list. -/
def Listed (c : Cleanup) (current : List String) (path : String) (reason : CleanupReason)
    (s' : FilterState) : Prop :=
  path ∉ current ∧ c.statRaises (c.run.fullPath path) = none ∧
    (reason = .missingOnDisk ∧ c.run.fs.onDisk (c.run.fullPath path) = false ∨
      reason = .excludedByCurrentPolicy ∧ c.run.fs.onDisk (c.run.fullPath path) = true ∧
        c.pathFilter.accepts (c.run.fullPath path) = false ∧ s'.isDegraded = false)

variable {reason : Option CleanupReason}

/-- What a classification that does not raise has found. A filter that is still healthy then gave
the answer of its policy. -/
theorem classifyCleanupCandidate_cases (h : c.pathFilter.Healthy s ∨ s.isDegraded = true)
    (hr : c.classifyCleanupCandidate current row path s = (.ok reason, s')) :
    path ∈ current ∧ reason = none ∨
      path ∉ current ∧ c.statRaises (c.run.fullPath path) = none ∧
        (c.run.fs.onDisk (c.run.fullPath path) = false ∧ reason = some .missingOnDisk ∨
          c.run.fs.onDisk (c.run.fullPath path) = true ∧ s'.isDegraded = true ∧
            (reason = none ∨ reason = some .degradedFilterSkipped) ∨
          c.run.fs.onDisk (c.run.fullPath path) = true ∧ s'.isDegraded = false ∧
            reason = if c.pathFilter.accepts (c.run.fullPath path) then none
              else some .excludedByCurrentPolicy) := by
  unfold classifyCleanupCandidate classifyCandidate pathExists at hr
  by_cases hcur : path ∈ current
  · rw [if_pos hcur] at hr
    exact Or.inl ⟨hcur, (Except.ok.inj (Prod.mk.inj hr).1).symm⟩
  · rw [if_neg hcur] at hr
    cases hstat : c.statRaises (c.run.fullPath path) with
    | some e => simp [hstat] at hr
    | none =>
      refine Or.inr ⟨hcur, rfl, ?_⟩
      rw [hstat] at hr
      cases hdisk : c.run.fs.onDisk (c.run.fullPath path) with
      | false =>
        rw [hdisk] at hr
        exact Or.inl ⟨rfl, (Except.ok.inj (Prod.mk.inj hr).1).symm⟩
      | true =>
        rw [hdisk] at hr
        right
        cases hdeg : s.isDegraded with
        | true =>
          simp only [hdeg, if_true] at hr
          obtain ⟨hreason, rfl⟩ := Prod.mk.inj hr
          exact Or.inl ⟨rfl, hdeg, Or.inr (Except.ok.inj hreason).symm⟩
        | false =>
          simp only [hdeg, Bool.false_eq_true, if_false] at hr
          have hhealthy := h.resolve_right (by simp [hdeg])
          cases hask : c.pathFilter.shouldIndex (c.filterRaises row) (c.run.fullPath path) s with
          | mk result asked =>
            rw [hask] at hr
            have hpolicy : ∀ answer, result = .ok answer → asked.isDegraded = false →
                answer = c.pathFilter.accepts (c.run.fullPath path) := fun answer hres hd =>
              (PathFilter.shouldIndex_healthy hhealthy (hask.trans (by rw [hres])) hd).2.1
            match result with
            | .error e => cases (Prod.mk.inj hr).1
            | .ok true =>
              obtain ⟨hreason, rfl⟩ := Prod.mk.inj hr
              obtain rfl := Except.ok.inj hreason
              cases hasked : asked.isDegraded with
              | true => exact Or.inl ⟨rfl, rfl, Or.inl rfl⟩
              | false => exact Or.inr ⟨rfl, rfl, by rw [← hpolicy true rfl hasked]; rfl⟩
            | .ok false =>
              cases hasked : asked.isDegraded with
              | true =>
                simp only [hasked, if_true] at hr
                obtain ⟨hreason, rfl⟩ := Prod.mk.inj hr
                exact Or.inl ⟨rfl, hasked, Or.inr (Except.ok.inj hreason).symm⟩
              | false =>
                simp only [hasked, Bool.false_eq_true, if_false] at hr
                obtain ⟨hreason, rfl⟩ := Prod.mk.inj hr
                obtain rfl := Except.ok.inj hreason
                exact Or.inr ⟨rfl, hasked, by rw [← hpolicy false rfl hasked]; rfl⟩

/-- The filter that refuses a row it may be deleted for is healthy, and so is its answer. -/
theorem classifyCleanupCandidate_listed (h : c.pathFilter.Healthy s ∨ s.isDegraded = true)
    (hr : c.classifyCleanupCandidate current row path s = (.ok reason, s'))
    {r : CleanupReason} (hne : r ≠ .degradedFilterSkipped) :
    reason = some r ↔ c.Listed current path r s' := by
  unfold Listed
  rcases classifyCleanupCandidate_cases h hr with ⟨hcur, rfl⟩ | ⟨hcur, hstat, hfound⟩
  · exact ⟨nofun, fun hl => absurd hcur hl.1⟩
  · rcases hfound with ⟨hdisk, rfl⟩ | ⟨hdisk, hdeg, rfl | rfl⟩ | ⟨hdisk, hdeg, rfl⟩
    · constructor
      · intro heq
        exact ⟨hcur, hstat, Or.inl ⟨(Option.some.inj heq).symm, hdisk⟩⟩
      · rintro ⟨-, -, ⟨rfl, -⟩ | ⟨-, hno, -⟩⟩
        · rfl
        · cases hdisk.symm.trans hno
    · simp [hdisk, hdeg]
    · simp [hdisk, hdeg, hne.symm]
    · cases haccepts : c.pathFilter.accepts (c.run.fullPath path) with
      | true => simp [hdisk]
      | false =>
        constructor
        · intro heq
          exact ⟨hcur, hstat, Or.inr ⟨(Option.some.inj heq).symm, hdisk, rfl, hdeg⟩⟩
        · rintro ⟨-, -, ⟨-, hno⟩ | ⟨rfl, -⟩⟩
          · cases hdisk.symm.trans hno
          · rfl

/-- A row is put on the list at its place in the query, for what the disk and the filter say
there. -/
theorem mem_orphanedFiles_iff : ∀ (paths : List String) {row : ℕ} {s : FilterState}
    {orphaned : List (String × CleanupReason)}, c.pathFilter.Healthy s ∨ s.isDegraded = true →
      orphanedFiles (c.classifyCleanupCandidate current) row s paths = .ok orphaned →
        ∀ x : String × CleanupReason, x ∈ orphaned ↔
          x.2 ≠ .degradedFilterSkipped ∧ ∃ before after, paths = before ++ x.1 :: after ∧
            c.Listed current x.1 x.2 (c.filterAfter current row s (before ++ [x.1]))
  | [], _, _, orphaned, _, h, x => by
    obtain rfl := Except.ok.inj h
    simp
  | path :: paths, row, s, orphaned, hs, h, x => by
    rw [orphanedFiles] at h
    cases hc : c.classifyCleanupCandidate current row path s with
    | mk result s' =>
      rw [hc] at h
      cases result with
      | error e => cases h
      | ok reason =>
        cases hrest : orphanedFiles (c.classifyCleanupCandidate current) (row + 1) s' paths with
        | error e => simp [hrest, Except.map] at h
        | ok rest =>
          obtain rfl : enqueue path reason rest = orphaned := by
            simpa [hrest, Except.map] using h
          have hs' : c.pathFilter.Healthy s' ∨ s'.isDegraded = true := by
            have hnext := classifyCleanupCandidate_healthy_or_degraded current row path hs
            rwa [hc] at hnext
          have ih := mem_orphanedFiles_iff paths hs' hrest x
          have hhere : c.filterAfter current row s [path] = s' := by
            rw [filterAfter, hc]
            rfl
          have hlater : ∀ before : List String,
              c.filterAfter current row s (path :: before ++ [x.1]) =
                c.filterAfter current (row + 1) s' (before ++ [x.1]) := by
            intro before
            rw [List.cons_append, filterAfter, hc]
          rw [mem_enqueue, ih]
          constructor
          · rintro (⟨hpath, hne, hreason⟩ | ⟨hne, before, after, rfl, hlisted⟩)
            · refine ⟨hne, [], paths, by rw [hpath]; rfl, ?_⟩
              rw [List.nil_append, hpath, hhere]
              exact (classifyCleanupCandidate_listed hs hc hne).1 hreason
            · refine ⟨hne, path :: before, after, rfl, ?_⟩
              rw [hlater]
              exact hlisted
          · rintro ⟨hne, before, after, heq, hlisted⟩
            rcases List.cons_eq_append_iff.1 heq with ⟨rfl, hcons⟩ | ⟨before', rfl, rfl⟩
            · obtain ⟨hpath, -⟩ := List.cons.inj hcons
              rw [List.nil_append, hpath, hhere] at hlisted
              exact Or.inl ⟨hpath, hne, (classifyCleanupCandidate_listed hs hc hne).2 hlisted⟩
            · rw [hlater] at hlisted
              exact Or.inr ⟨hne, before', after, rfl, hlisted⟩

end Classification

/-! ## The batches -/

theorem mem_cleanupBatches_of_mem {orphaned : List (String × CleanupReason)}
    {x : String × CleanupReason} (hx : x ∈ orphaned) (hne : x.2 ≠ .degradedFilterSkipped) :
    ∃ b ∈ cleanupBatches orphaned, x.1 ∈ b.2 := by
  have hreason : x.2 ∈ [CleanupReason.missingOnDisk, CleanupReason.excludedByCurrentPolicy] := by
    cases hr : x.2 with
    | missingOnDisk => exact List.mem_cons_self
    | excludedByCurrentPolicy => exact List.mem_cons_of_mem _ List.mem_cons_self
    | degradedFilterSkipped => exact absurd hr hne
  have hpath : x.1 ∈ (slices orphanCleanupBatchSize
      ((orphaned.filter (·.2 = x.2)).map (·.1))).flatten := by
    rw [flatten_slices (by decide)]
    exact List.mem_map.2 ⟨x, List.mem_filter.2 ⟨hx, by simp⟩, rfl⟩
  obtain ⟨batch, hbatch, hmem⟩ := List.mem_flatten.1 hpath
  refine ⟨(x.2, batch), List.mem_flatMap.2 ⟨x.2, hreason, ?_⟩, hmem⟩
  exact List.mem_map.2 ⟨batch, hbatch, rfl⟩

/-- A cleanup whose deletes all returned their count has handed over every batch. -/
theorem deleteBatches_ok {run : IndexRun} : ∀ {batches : List (CleanupReason × List String)}
    {n : ℕ}, (run.deleteBatches batches).2 = .ok n →
      (run.deleteBatches batches).1 = batches.flatMap (·.2) ∧
        n = (batches.flatMap (·.2)).length
  | [], _, h => ⟨rfl, (Except.ok.inj h).symm⟩
  | (reason, batch) :: batches, n, h => by
    rw [IndexRun.deleteBatches] at h ⊢
    cases hd : run.deleteFilesBatch batch with
    | error e => simp [hd] at h
    | ok deletedCount =>
      by_cases hlen : deletedCount ≠ batch.length
      · simp [hd, hlen] at h
      · simp only [hd, hlen, if_false] at h ⊢
        cases hrest : (run.deleteBatches batches).2 with
        | error e => simp [hrest, Except.map] at h
        | ok m =>
          obtain ⟨hpaths, hcount⟩ := deleteBatches_ok hrest
          have hn : batch.length + m = n := by simpa [hrest, Except.map] using h
          rw [hpaths, List.flatMap_cons, List.length_append, ← hcount]
          exact ⟨rfl, hn.symm⟩

section Cleanup

variable {c : Cleanup}

variable {rows : List String} {path : String}

/-- What a cleanup hands over for deletion is orphaned, also where it then fails. -/
theorem orphaned_of_mem (h : path ∈ (c.cleanupOrphanedFiles rows).1) : c.Orphaned rows path := by
  obtain ⟨currentFiles, relativeDirectory, orphaned, hcurrent, hrel, horphaned, x, hx, rfl⟩ :=
    IndexRun.mem_cleanupWith h
  have hiff := mem_orphanedFiles_iff _ (Or.inl (PathFilter.healthy_new c.pathFilter)) horphaned x
  obtain ⟨-, before, after, hrows, hcur, hstat, hwhy⟩ := hiff.1 hx
  refine ⟨currentFiles, relativeDirectory, before, after, hcurrent, hrel, hrows, hcur, hstat, ?_⟩
  rcases hwhy with ⟨-, hdisk⟩ | ⟨-, -, hrefused, hhealthy⟩
  · exact Or.inl hdisk
  · exact Or.inr ⟨hrefused, hhealthy⟩

/-- A cleanup that returns has handed over all that is orphaned. -/
theorem mem_of_orphaned {n : ℕ}
    (hok : (c.cleanupOrphanedFiles rows).2 = .ok n) (h : c.Orphaned rows path) :
    path ∈ (c.cleanupOrphanedFiles rows).1 := by
  obtain ⟨currentFiles, relativeDirectory, before, after, hcurrent, hrel, hrows, hcur, hstat, hwhy⟩
    := h
  unfold cleanupOrphanedFiles IndexRun.cleanupWith at hok ⊢
  simp only [hcurrent, hrel] at hok ⊢
  cases horphaned : orphanedFiles (c.classifyCleanupCandidate (currentFiles.map PurePath.asPosix)) 0
      FilterState.new (c.backend.executeQuery relativeDirectory rows) with
  | error e => simp [horphaned] at hok
  | ok orphaned =>
    simp only [horphaned] at hok ⊢
    have hmem := mem_orphanedFiles_iff _ (Or.inl (PathFilter.healthy_new c.pathFilter)) horphaned
    have hlisted : ∃ x ∈ orphaned, x.1 = path ∧ x.2 ≠ .degradedFilterSkipped := by
      cases hdisk : c.run.fs.onDisk (c.run.fullPath path) with
      | false =>
        refine ⟨(path, .missingOnDisk), (hmem _).2 ⟨nofun, before, after, hrows, ?_⟩, rfl, nofun⟩
        exact ⟨hcur, hstat, Or.inl ⟨rfl, hdisk⟩⟩
      | true =>
        obtain ⟨hrefused, hhealthy⟩ := hwhy.resolve_left (by simp [hdisk])
        refine ⟨(path, .excludedByCurrentPolicy),
          (hmem _).2 ⟨nofun, before, after, hrows, ?_⟩, rfl, nofun⟩
        exact ⟨hcur, hstat, Or.inr ⟨rfl, hdisk, hrefused, hhealthy⟩⟩
    obtain ⟨x, hx, rfl, hne⟩ := hlisted
    obtain ⟨b, hb, hp⟩ := mem_cleanupBatches_of_mem hx hne
    cases hcount : (c.run.deleteBatches (cleanupBatches orphaned)).2 with
    | error e => simp [hcount, Except.mapError] at hok
    | ok m =>
      rw [(deleteBatches_ok hcount).1]
      exact List.mem_flatMap.2 ⟨b, hb, hp⟩

/-- DuckDB answers the rows in the directory only. -/
theorem inDirectory_of_orphaned (h : c.NoOrphanOutside rows)
    (hp : c.Orphaned rows path) : c.InDirectory path := by
  cases hbackend : c.backend with
  | lancedb => exact h hbackend path hp
  | duckdb =>
    obtain ⟨-, relativeDirectory, before, after, -, hrel, hrows, -⟩ := hp
    rw [hbackend] at hrows
    have hmem : path ∈ rows.filter (inScope relativeDirectory) := by
      show path ∈ Backend.duckdb.executeQuery relativeDirectory rows
      rw [hrows]
      exact List.mem_append_right _ List.mem_cons_self
    exact ⟨relativeDirectory, hrel, (List.mem_filter.1 hmem).2⟩

/-- A cleanup deletes exactly what it may where no row outside its directory is an orphan. -/
theorem deletable_iff {n : ℕ} (hok : (c.cleanupOrphanedFiles rows).2 = .ok n) :
    (∀ path, path ∈ (c.cleanupOrphanedFiles rows).1 ↔ c.Deletable rows path) ↔
      c.NoOrphanOutside rows := by
  constructor
  · intro h _ path hp
    exact ((h path).1 (mem_of_orphaned hok hp)).1
  · intro h path
    refine ⟨fun hp => ?_, fun hp => mem_of_orphaned hok hp.2⟩
    exact ⟨inDirectory_of_orphaned h (orphaned_of_mem hp), orphaned_of_mem hp⟩

end Cleanup

/-- A run of the directory `sub` on LanceDB, with a row of a file beside it that is gone. -/
def lanceCleanup : Cleanup where
  run := subdirectoryRun
  backend := .lancedb
  settings := ⟨none, false⟩
  engine _ := false
  lower := id
  knownExtensions := []
  knownNames := []
  statRaises _ := none
  filterRaises _ _ := none

end Cleanup

end ChunkHound
