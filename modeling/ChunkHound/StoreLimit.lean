import ChunkHound.NativeStore
import Mathlib.Algebra.Order.Ring.Rat
import Mathlib.Tactic.NormNum

/-!
# The store loop and the disk limit

The loop of the store thread : the disk usage is looked at once per window, before any batch of
it is received; then each batch of the window is prepared, and one transaction writes them all.
`run` is any way in which the commits run, or fail, against any state, and `disk` is what the
checks find on disk.

A loop that stops for the disk limit has run all commits of the windows before, and none of the
batches that were still to come (`storeLoop_windows`, `storeThread_diskLimit`).
-/

namespace ChunkHound

/-- `STORE_COMMIT_INTERVAL`. -/
def storeCommitInterval : ℕ := 1

/-- The sizes of the database and of its WAL, where they can be read. -/
structure DiskUsage where
  dbSize : Option ℕ
  walSize : Option ℕ

/-- `check_disk_usage_limit` : the size and the limit in MB, when the limit is exceeded. -/
def checkDiskUsageLimit (limitMb : Option ℚ) (usage : DiskUsage) : Option (ℚ × ℚ) :=
  match limitMb, usage.dbSize with
  | some limitMb, some dbSize =>
    let sizeMb : ℚ := (dbSize + usage.walSize.getD 0 : ℕ) / (1024 * 1024)
    if limitMb ≤ sizeMb then some (sizeMb, limitMb) else none
  | _, _ => none

/-- How the loop ended : the state, the batches never received, and the disk limit. -/
structure StoreStop (σ : Type*) where
  store : σ
  pending : List DbWriterBatch
  diskLimitHit : Option (ℚ × ℚ)

/-- The commits of one window : each batch is prepared, then all are written. -/
def windowCommits (window : List DbWriterBatch) : List Commit :=
  window.flatMap prepareWrite ++ [.writeBatchesInOneTxn window]

/-- The commits of the orphan deletes. -/
def orphanCommits (orphans : List String) : List Commit :=
  if orphans = [] then [] else prepareWrite ⟨[], orphans⟩

section Loop

variable {σ ε : Type*} (run : σ → Commit → Except ε σ) (limitMb : Option ℚ)
  (disk : ℕ → σ → DiskUsage) (interval : ℕ)

/-- The store loop from the `n`-th window on. An empty window says that the channel is
closed. -/
def storeLoop (n : ℕ) (s : σ) (pending : List DbWriterBatch) : Except ε (StoreStop σ) :=
  match checkDiskUsageLimit limitMb (disk n s) with
  | some hit => .ok ⟨s, pending, some hit⟩
  | none =>
    let window := pending.take interval
    if window = [] then .ok ⟨s, pending, none⟩
    else do
      let s ← (window.flatMap prepareWrite).foldlM run s
      let s ← run s (.writeBatchesInOneTxn window)
      storeLoop (n + 1) s (pending.drop interval)
termination_by pending.length
decreasing_by
  have hne : pending.take interval ≠ [] := ‹_›
  rw [List.length_drop]
  have hlen := List.length_pos_iff.2 hne
  rw [List.length_take] at hlen
  omega

/-- The store thread up to the end of its loop. The orphan deletes come first, whatever the
disk usage. -/
def storeThreadLoop (orphans : List String) (batches : List (List FileRecord)) (s : σ) :
    Except ε (StoreStop σ) := do
  let s ← (orphanCommits orphans).foldlM run s
  storeLoop run limitMb disk interval 0 s (batches.map fileBatch)

theorem foldlM_windowCommits (window : List DbWriterBatch) (s : σ) :
    (windowCommits window).foldlM run s =
      ((window.flatMap prepareWrite).foldlM run s).bind fun s =>
        run s (.writeBatchesInOneTxn window) := by
  unfold windowCommits
  rw [List.foldlM_append]
  congr 1
  funext s
  rw [List.foldlM_cons]
  cases run s (.writeBatchesInOneTxn window) <;> rfl

variable {stop : StoreStop σ}

/-- A window that does not end the loop was prepared and written, and the loop went on. -/
theorem storeLoop_window {n : ℕ} {s : σ} {pending window : List DbWriterBatch}
    (h : (do
      let s ← (window.flatMap prepareWrite).foldlM run s
      let s ← run s (.writeBatchesInOneTxn window)
      storeLoop run limitMb disk interval n s pending) = .ok stop) :
    ∃ s', (windowCommits window).foldlM run s = .ok s' ∧
      storeLoop run limitMb disk interval n s' pending = .ok stop := by
  rw [foldlM_windowCommits]
  cases hprepare : (window.flatMap prepareWrite).foldlM run s with
  | error e => simp [hprepare, bind, Except.bind] at h
  | ok s₁ =>
    cases hwrite : run s₁ (.writeBatchesInOneTxn window) with
    | error e => simp [hprepare, hwrite, bind, Except.bind] at h
    | ok s₂ =>
      simp only [hprepare, hwrite, bind, Except.bind] at h
      exact ⟨s₂, hwrite, h⟩

/-- The loop goes window by window : the windows run, one after the other, followed by what was
not received, are the batches it was given. -/
theorem storeLoop_windows (n : ℕ) (s : σ) (pending : List DbWriterBatch)
    (h : storeLoop run limitMb disk interval n s pending = .ok stop) :
    ∃ windows : List (List DbWriterBatch), windows.flatten ++ stop.pending = pending ∧
      (windows.flatMap windowCommits).foldlM run s = .ok stop.store ∧
      ∀ window ∈ windows, window ≠ [] ∧ window.length ≤ interval := by
  fun_induction storeLoop run limitMb disk interval n s pending with
  | case1 n s pending hit hcheck =>
    obtain rfl := Except.ok.inj h
    exact ⟨[], rfl, rfl, by simp⟩
  | case2 n s pending hcheck window hwindow =>
    obtain rfl := Except.ok.inj h
    exact ⟨[], rfl, rfl, by simp⟩
  | case3 n s pending hcheck window hwindow ih =>
    obtain ⟨s', hrun, hrest⟩ := storeLoop_window run limitMb disk interval h
    obtain ⟨windows, hflat, hruns, hsize⟩ := ih s' hrest
    refine ⟨window :: windows, ?_, ?_, ?_⟩
    · rw [List.flatten_cons, List.append_assoc, hflat]
      exact List.take_append_drop interval pending
    · rw [List.flatMap_cons, List.foldlM_append, hrun]
      exact hruns
    · exact List.forall_mem_cons.2 ⟨⟨hwindow, List.length_take_le _ _⟩, hsize⟩

/-- The check that stopped the loop was made in the state the loop left. -/
theorem checked_of_diskLimit (n : ℕ) (s : σ) (pending : List DbWriterBatch)
    {hit : ℚ × ℚ} (h : storeLoop run limitMb disk interval n s pending = .ok stop)
    (hhit : stop.diskLimitHit = some hit) :
    ∃ m, checkDiskUsageLimit limitMb (disk m stop.store) = some hit := by
  fun_induction storeLoop run limitMb disk interval n s pending with
  | case1 n s pending hit' hcheck =>
    obtain rfl := Except.ok.inj h
    obtain rfl := Option.some.inj hhit
    exact ⟨n, hcheck⟩
  | case2 n s pending hcheck window hwindow =>
    obtain rfl := Except.ok.inj h
    cases hhit
  | case3 n s pending hcheck window hwindow ih =>
    obtain ⟨s', -, hrest⟩ := storeLoop_window run limitMb disk interval h
    exact ih s' hrest

/-- The orphan deletes, then the loop. -/
theorem storeThreadLoop_ok {orphans : List String} {batches : List (List FileRecord)} {s : σ}
    (h : storeThreadLoop run limitMb disk interval orphans batches s = .ok stop) :
    ∃ s', (orphanCommits orphans).foldlM run s = .ok s' ∧
      storeLoop run limitMb disk interval 0 s' (batches.map fileBatch) = .ok stop := by
  unfold storeThreadLoop at h
  cases horphans : (orphanCommits orphans).foldlM run s with
  | error e => simp [horphans, bind, Except.bind] at h
  | ok s' =>
    simp only [horphans, bind, Except.bind] at h
    exact ⟨s', rfl, h⟩

/-- When the loop has stopped for the disk limit, the commits that ran are the orphan deletes
and all those of some whole windows, each prepared and then written. The batches behind them
were not received, and none of their commits ran. -/
theorem storeThread_diskLimit {orphans : List String} {batches : List (List FileRecord)} {s : σ}
    {stop : StoreStop σ} {hit : ℚ × ℚ}
    (h : storeThreadLoop run limitMb disk interval orphans batches s = .ok stop)
    (hhit : stop.diskLimitHit = some hit) :
    ∃ windows : List (List DbWriterBatch),
      windows.flatten ++ stop.pending = batches.map fileBatch ∧
      (orphanCommits orphans ++ windows.flatMap windowCommits).foldlM run s = .ok stop.store ∧
      ∃ n, checkDiskUsageLimit limitMb (disk n stop.store) = some hit := by
  obtain ⟨s', horphans, hloop⟩ := storeThreadLoop_ok run limitMb disk interval h
  obtain ⟨windows, hflat, hruns, -⟩ := storeLoop_windows run limitMb disk interval 0 s' _ hloop
  refine ⟨windows, hflat, ?_, checked_of_diskLimit run limitMb disk interval 0 s' _ hloop hhit⟩
  rw [List.foldlM_append, horphans]
  exact hruns

end Loop

/-! ## The interval of the source -/

/-- A record of a file without chunks. -/
def emptyFile (path : String) : FileRecord :=
  ⟨none, path, some 1, some 0, none, none, none, [], none⟩

/-- The limit is reached once the first of two batches is written. -/
def fullAfterOne (n : ℕ) (_ : Store) : DiskUsage := ⟨some (n * (1024 * 1024)), none⟩

/-- The index with the file of the first batch. -/
def oneEmptyFile : Store :=
  ⟨{ Db.empty with files := [(emptyFile "a.py").row id 1], filesIdSeq := 2 },
    [⟨1, emptyFile "a.py", []⟩]⟩

theorem storeThread_diskLimit_second :
    ∃ windows : List (List DbWriterBatch),
      windows.flatten ++ [fileBatch [emptyFile "b.py"]] =
        [[emptyFile "a.py"], [emptyFile "b.py"]].map fileBatch ∧
      (orphanCommits [] ++ windows.flatMap windowCommits).foldlM (Commit.run id 1) .empty =
        .ok oneEmptyFile ∧
      ∃ n, checkDiskUsageLimit (some 1) (fullAfterOne n oneEmptyFile) = some (1, 1) := by
  have hbelow : checkDiskUsageLimit (some 1) (fullAfterOne 0 .empty) = none := by
    simp [checkDiskUsageLimit, fullAfterOne]
  have habove : checkDiskUsageLimit (some 1) (fullAfterOne 1 oneEmptyFile) = some (1, 1) := by
    norm_num [checkDiskUsageLimit, fullAfterOne]
  have hloop : storeThreadLoop (Commit.run id 1) (some 1) fullAfterOne storeCommitInterval []
      [[emptyFile "a.py"], [emptyFile "b.py"]] .empty =
        .ok ⟨oneEmptyFile, [fileBatch [emptyFile "b.py"]], some (1, 1)⟩ := by
    have hlast : storeLoop (Commit.run id 1) (some 1) fullAfterOne storeCommitInterval 1
        oneEmptyFile [fileBatch [emptyFile "b.py"]] =
          .ok ⟨oneEmptyFile, [fileBatch [emptyFile "b.py"]], some (1, 1)⟩ := by
      rw [storeLoop, habove]
    have hfirst : storeLoop (Commit.run id 1) (some 1) fullAfterOne storeCommitInterval 0 .empty
        [fileBatch [emptyFile "a.py"], fileBatch [emptyFile "b.py"]] =
          storeLoop (Commit.run id 1) (some 1) fullAfterOne storeCommitInterval 1 oneEmptyFile
            [fileBatch [emptyFile "b.py"]] := by
      rw [storeLoop, hbelow]
      rfl
    exact hfirst.trans hlast
  exact storeThread_diskLimit _ _ _ _ hloop rfl

end ChunkHound
