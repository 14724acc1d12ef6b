import ChunkHound.ProviderSafety

/-!
# Recovery by the other implementation

The native backend and the Python provider compact the same database with files of their own,
and each recovers what it left itself. An open of the one after an interrupted compaction of the
other finds a live file, and then changes nothing (`openDb_keeps`, `connect_keeps`), or finds none
and creates an empty database : `recover_swap_intent` and `_recover_interrupted_compaction` then
take that one for the data (`empty_database_recovered`).

So the data survives any order of opens in which the other implementation opens only where the
live file is there (`recovered_of_fitting`).
-/

namespace ChunkHound.CrossRecovery

open CrashHoare StepSystem

/-! ## An open that has nothing to recover -/

/-- No file of the native backend. -/
def NoIntent (img : DbImage) (d : Disk) : Prop := d = ⟨some (.image img), none, none, none⟩

/-- Opening a database with nothing to recover changes nothing. -/
theorem openDb_keeps {img : DbImage} (h : img.WF) :
    Triple (NoIntent img) openDb (fun _ => NoIntent img) (NoIntent img) := by
  have hrecover : Triple (NoIntent img) recoverSwapIntent
      (fun recovered d => recovered = .none ∧ NoIntent img d) (NoIntent img) := by
    refine Triple.get_bind fun d hd => ?_
    rw [if_pos (by rw [hd]; rfl)]
    exact Triple.pure _ fun s hs => ⟨rfl, hs ▸ hd⟩
  refine hrecover.bind fun recovered => ?_
  refine Triple.seq (M := NoIntent img) ?_ ?_
  · refine Triple.get_bind fun d hd => ?_
    obtain ⟨rfl, hd⟩ := hd
    rw [if_pos (by decide)]
    exact Triple.pure _ fun s hs => hs ▸ hd
  · refine Triple.seq (M := NoIntent img) (Triple.seq (M := NoIntent img) ?_ ?_) ?_
    · refine Triple.act (fun _ h => h) fun d d' hd he => ?_
      obtain rfl := Option.some.inj he
      rw [hd]
      exact ⟨rfl, rfl⟩
    · refine Triple.act (fun _ h => h) fun d d' hd he => ?_
      obtain rfl := Option.some.inj he
      rw [hd]
      exact ⟨rfl, rfl⟩
    · refine Triple.act (fun _ h => h) fun d d' hd he => ?_
      rw [hd] at he
      obtain rfl := Option.some.inj he
      rw [DbImage.setupSchema_of_wf h]
      exact ⟨rfl, rfl⟩

/-- A live database, and no backup of the provider. -/
structure NoBackup (img : DbImage) (d : ProviderDisk) : Prop where
  live : d.live = some (.image img)
  backup : d.backup = none

section Connect

variable {img : DbImage}

theorem duckdbConnect_keeps :
    Triple (NoBackup img) (Provider.duckdbConnect .live) (fun _ => NoBackup img)
      (NoBackup img) := by
  refine Triple.seq (M := NoBackup img) (Triple.act (fun _ h => h) fun d d' h he => ?_)
    (Triple.act (fun _ h => h) fun d d' h he => ?_)
  · obtain rfl := Option.some.inj he
    have hnext : NoBackup img (d.setFile .live (some ((d.file .live).getD .zeroLength))) :=
      ⟨by simp [ProviderDisk.setFile, ProviderDisk.file, h.live], h.backup⟩
    exact ⟨hnext, hnext⟩
  · obtain rfl := Option.some.inj he
    have hnext : NoBackup img
        (d.setFile .live (some (.image (openedImage (d.file .live))))) :=
      ⟨by simp [ProviderDisk.setFile, ProviderDisk.file, h.live, openedImage], h.backup⟩
    exact ⟨hnext, hnext⟩

theorem createSchema_keeps (h : img.WF) :
    Triple (NoBackup img) Provider.createSchema (fun _ => NoBackup img) (NoBackup img) := by
  refine Triple.act (fun _ h => h) fun d d' hd he => ?_
  rw [hd.live] at he
  obtain rfl := Option.some.inj he
  rw [DbImage.setupSchema_of_wf h]
  exact ⟨⟨rfl, hd.backup⟩, ⟨rfl, hd.backup⟩⟩

theorem recoverInterruptedCompaction_keeps (isWindows : Bool) :
    Triple (NoBackup img) (Provider.recoverInterruptedCompaction isWindows)
      (fun _ => NoBackup img) (NoBackup img) := by
  have hunlink : ∀ path, path ≠ .live → Triple (NoBackup img) (Provider.unlink path)
      (fun _ => NoBackup img) (NoBackup img) := by
    intro path hpath
    refine Triple.act (fun _ h => h) fun d d' h he => ?_
    obtain rfl := Option.some.inj he
    cases path with
    | live => exact absurd rfl hpath
    | backup => exact ⟨⟨h.live, rfl⟩, ⟨h.live, rfl⟩⟩
    | compacted => exact ⟨⟨h.live, h.backup⟩, ⟨h.live, h.backup⟩⟩
  refine Triple.seq (M := NoBackup img) ?_ ?_
  · refine Triple.get_bind fun d hd => ?_
    have hmissing : isMissingOrEmpty d.live = false := by
      rw [hd.live]
      rfl
    rw [if_neg (by simp [hmissing]), if_pos (by simp [hmissing])]
    exact (hunlink .backup (by decide)).pre fun s hs => hs ▸ hd
  · cases isWindows with
    | true => exact Triple.attempt (hunlink .compacted (by decide)) fun _ h => h
    | false => exact hunlink .compacted (by decide)

/-- Connecting to a database with nothing to recover leaves it as it is. -/
theorem connect_keeps (h : img.WF) (isWindows readOnly : Bool) :
    Triple (NoBackup img) (Provider.connect isWindows readOnly) (fun _ => NoBackup img)
      (NoBackup img) := by
  have hexecute : Triple (NoBackup img) Provider.execute (fun _ => NoBackup img)
      (NoBackup img) := Provider.execute_keeps fun _ h => h
  have hread : Triple (NoBackup img) Provider.duckdbConnectReadOnly (fun _ => NoBackup img)
      (NoBackup img) := (Triple.query fun _ h => h).conseq (fun _ h => h) fun _ _ h => h.1
  refine Triple.seq hexecute ?_
  split
  · exact Triple.seq hread (Triple.seq hexecute hread)
  · refine Triple.seq (recoverInterruptedCompaction_keeps isWindows) ?_
    refine Triple.seq duckdbConnect_keeps (Triple.seq hexecute ?_)
    refine Triple.seq (Triple.seq duckdbConnect_keeps hexecute) ?_
    exact Triple.seq (createSchema_keeps h) hexecute

end Connect

/-! ## Opens after an interrupted compaction -/

/-- The files of both, and whether the last program returned. -/
structure CrossStore where
  rust : Disk
  backup : Option DbFile
  compacted : Option DbFile
  returned : Bool

/-- The compaction that may be killed, with what becomes of its actions. -/
inductive Compaction
  | rust (os : List Outcome)
  | python (isWindows hadHnsw transactionActive : Bool) (os : List Outcome)

/-- An open, with what becomes of its actions. -/
inductive Opening
  | rust (os : List Outcome)
  | python (isWindows readOnly : Bool) (os : List Outcome)

namespace CrossStore

/-- The files of the provider. -/
def python (s : CrossStore) : ProviderDisk := ⟨s.rust.live, s.backup, s.compacted⟩

def afterRust (s : CrossStore) (r : Result Disk SwapError Unit) : CrossStore :=
  { s with rust := r.state, returned := r.isDone }

def afterPython (s : CrossStore) (r : Result ProviderDisk SwapError Unit) : CrossStore where
  rust := { s.rust with live := r.state.live }
  backup := r.state.backup
  compacted := r.state.compacted
  returned := r.isDone

/-- A database without files of a compaction. -/
def whole (img : DbImage) : CrossStore where
  rust := ⟨some (.image img), none, none, none⟩
  backup := none
  compacted := none
  returned := true

/-- What a compaction leaves, killed or not. -/
def compact (s : CrossStore) : Compaction → CrossStore
  | .rust os => s.afterRust (runAttachCopyCompaction s.rust os)
  | .python isWindows hadHnsw transactionActive os =>
    s.afterPython
      (Provider.executorCompactDatabase isWindows hadHnsw transactionActive s.python os)

/-- The next open. -/
def step (s : CrossStore) : Opening → Option CrossStore
  | .rust os => some (s.afterRust (openDb s.rust os))
  | .python isWindows readOnly os =>
    some (s.afterPython (Provider.connect isWindows readOnly s.python os))

/-- An open that returned has the data at the live path, and there is a complete copy. -/
structure Recovered (data : Contents) (s : CrossStore) : Prop where
  live : s.returned = true → IsCopy data s.rust.live
  copy : IsCopy data s.rust.live ∨ IsCopy data s.rust.old ∨ IsCopy data s.rust.compact ∨
    IsCopy data s.backup ∨ IsCopy data s.compacted

/-- The implementation that did not run the compaction opens where there is a live file. -/
def Fitting (compaction : Compaction) (s : CrossStore) (a : Opening) : Prop :=
  match compaction, a with
  | .rust _, .python _ _ _ => isMissingOrEmpty s.rust.live = false
  | .python _ _ _ _, .rust _ => isMissingOrEmpty s.rust.live = false
  | _, _ => True

end CrossStore

open CrossStore

/-- After a compaction of the native backend. -/
structure RustInv (data : Contents) (s : CrossStore) : Prop where
  held : Held data s.rust
  settled : s.returned = true → IsCopy data s.rust.live
  backup : s.backup = none

/-- After a compaction of the provider. -/
structure PythonInv (data : Contents) (s : CrossStore) : Prop where
  safe : Provider.Safe data s.python
  settled : s.returned = true → IsCopy data s.rust.live
  old : s.rust.old = none
  compact : s.rust.compact = none
  intent : s.rust.intent = none

section Runs

variable {data : Contents} {s : CrossStore}

variable {img : DbImage}

theorem IsCopy.of_opened (h : img.WF) (hdata : img.tables = data) :
    IsCopy data (some (.image img)) := ⟨img, rfl, h, hdata⟩

theorem meets_isDone {σ ε α : Type} {Q C : σ → Prop} {r : Result σ ε α}
    (h : r.Meets (fun _ => Q) C) (hr : r.isDone = true) : Q r.state := by
  cases r with
  | done a s os => exact h
  | error e s os => cases hr
  | killed s => cases hr

/-- A program of the native backend that leaves the data live when it returns. -/
theorem RustInv.afterRust (h : RustInv data s) {p : SwapM Unit} {P : Disk → Prop}
    (hp : Triple P p (fun _ => Settled data) (Held data)) (hP : P s.rust) (os : List Outcome) :
    RustInv data (s.afterRust (p s.rust os)) where
  held := Result.Meets.state ((hp s.rust hP os).mono fun _ _ h => Or.inl h.safe)
  settled := fun hr => (meets_isDone (hp s.rust hP os) hr).live
  backup := h.backup

theorem PythonInv.afterPython (h : PythonInv data s) {p : ProviderM Unit}
    {P : ProviderDisk → Prop} (hp : Triple P p (fun _ => Provider.Live data) (Provider.Safe data))
    (hP : P s.python) (os : List Outcome) :
    PythonInv data (s.afterPython (p s.python os)) where
  safe := Result.Meets.state ((hp s.python hP os).mono fun _ _ h => h.safe)
  settled := fun hr => (meets_isDone (hp s.python hP os) hr).live
  old := h.old
  compact := h.compact
  intent := h.intent

/-- A connect of the provider with the data live. -/
theorem RustInv.connect (h : RustInv data s) (hlive : isMissingOrEmpty s.rust.live = false)
    (isWindows readOnly : Bool) (os : List Outcome) :
    RustInv data (s.afterPython (Provider.connect isWindows readOnly s.python os)) := by
  have hcopy : IsCopy data s.rust.live := h.held.live fun hnone => by
    rw [hnone] at hlive
    cases hlive
  obtain ⟨img, himg, hwf, hdata⟩ := hcopy
  have hkept : NoBackup img (Provider.connect isWindows readOnly s.python os).state :=
    Result.Meets.state (connect_keeps hwf isWindows readOnly s.python ⟨himg, h.backup⟩ os)
  have hrust : { s.rust with
      live := (Provider.connect isWindows readOnly s.python os).state.live } = s.rust := by
    rw [hkept.live, ← himg]
  refine ⟨?_, fun _ => ?_, hkept.backup⟩
  · show Held data { s.rust with live := _ }
    rw [hrust]
    exact h.held
  · show IsCopy data (Provider.connect isWindows readOnly s.python os).state.live
    rw [hkept.live]
    exact IsCopy.of_opened hwf hdata

/-- An open of the native backend with the data live. -/
theorem PythonInv.openDb (h : PythonInv data s) (hlive : isMissingOrEmpty s.rust.live = false)
    (os : List Outcome) : PythonInv data (s.afterRust (openDb s.rust os)) := by
  have hset : Provider.Live data s.python := h.safe.live_of_exists fun hnone => by
    rw [show s.rust.live = none from hnone] at hlive
    cases hlive
  obtain ⟨img, himg, hwf, hdata⟩ := hset.live
  have hdisk : NoIntent img s.rust := by
    obtain ⟨⟨live, old, compact, intent⟩, backup, compacted, returned⟩ := s
    obtain ⟨-, -, rfl, rfl, rfl⟩ := h
    rw [NoIntent, show live = some (.image img) from himg]
  have hkept : NoIntent img (ChunkHound.openDb s.rust os).state :=
    Result.Meets.state (openDb_keeps hwf s.rust hdisk os)
  have hsame : (ChunkHound.openDb s.rust os).state = s.rust := hkept.trans hdisk.symm
  have hstate : s.afterRust (ChunkHound.openDb s.rust os) =
      { s with returned := (ChunkHound.openDb s.rust os).isDone } := by
    rw [CrossStore.afterRust, hsame]
  rw [hstate]
  exact ⟨h.safe, fun _ => hset.live, h.old, h.compact, h.intent⟩

variable {os : List Outcome}

theorem RustInv.step (h : RustInv data s) {a : Opening} {s' : CrossStore}
    (hok : Fitting (.rust os) s a) (hs : s.step a = some s') : RustInv data s' := by
  cases a with
  | rust os' =>
    obtain rfl := Option.some.inj hs
    exact h.afterRust openDb_held h.held os'
  | python isWindows readOnly os' =>
    obtain rfl := Option.some.inj hs
    exact h.connect hok isWindows readOnly os'

theorem PythonInv.step (h : PythonInv data s) {w n t : Bool} {a : Opening}
    {s' : CrossStore} (hok : Fitting (.python w n t os) s a) (hs : s.step a = some s') :
    PythonInv data s' := by
  cases a with
  | rust os' =>
    obtain rfl := Option.some.inj hs
    exact h.openDb hok os'
  | python isWindows readOnly os' =>
    obtain rfl := Option.some.inj hs
    exact h.afterPython (Provider.connect_safe isWindows readOnly) h.safe os'

theorem RustInv.recovered (h : RustInv data s) : Recovered data s where
  live := h.settled
  copy := by
    rcases h.held.hasCopy with hc | hc | hc
    · exact Or.inl hc
    · exact Or.inr (Or.inl hc)
    · exact Or.inr (Or.inr (Or.inl hc))

theorem PythonInv.recovered (h : PythonInv data s) : Recovered data s where
  live := h.settled
  copy := by
    rcases h.safe.hasCopy with hc | hc | hc
    · exact Or.inl hc
    · exact Or.inr (Or.inr (Or.inr (Or.inl hc)))
    · exact Or.inr (Or.inr (Or.inr (Or.inr hc)))

theorem rustInv_compact (h : img.WF) (os : List Outcome) :
    RustInv img.tables ((whole img).compact (.rust os)) := by
  have hset : Settled img.tables (whole img).rust :=
    ⟨⟨img, rfl, h, rfl⟩, startable_none, by simp [whole], by simp [whole]⟩
  have hinv : RustInv img.tables (whole img) := ⟨Or.inl hset.safe, fun _ => hset.live, rfl⟩
  exact hinv.afterRust runAttachCopyCompaction_held hset os

theorem pythonInv_compact (h : img.WF) (w n t : Bool) (os : List Outcome) :
    PythonInv img.tables ((whole img).compact (.python w n t os)) := by
  have hlive : Provider.Live img.tables (whole img).python :=
    ⟨⟨img, rfl, h, rfl⟩, Or.inl rfl, startable_none⟩
  have hinv : PythonInv img.tables (whole img) :=
    ⟨hlive.safe, fun _ => hlive.live, rfl, rfl, rfl⟩
  exact hinv.afterPython (Provider.executorCompactDatabase_safe w n t) hlive os

/-- Opens of both after a compaction of either, in any order that fits. -/
theorem recovered_of_fitting {img : DbImage} (himg : img.WF) (compaction : Compaction)
    {s : CrossStore}
    (h : ReachWhen CrossStore.step (Fitting compaction) ((whole img).compact compaction) s) :
    Recovered img.tables s := by
  cases compaction with
  | rust os =>
    have hinv : RustInv img.tables s := h.invariant (rustInv_compact himg os)
      fun _ _ _ hi hok hs => hi.step hok hs
    exact hinv.recovered
  | python w n t os =>
    have hinv : PythonInv img.tables s := h.invariant (pythonInv_compact himg w n t os)
      fun _ _ _ hi hok hs => hi.step hok hs
    exact hinv.recovered

end Runs

/-! ## A database that the other implementation creates -/

/-- A compaction of the native backend killed once the live file is moved aside. -/
def killedRust : Compaction := .rust (List.replicate 14 .ok)

/-- A compaction of the provider killed there. -/
def killedPython : Compaction := .python false false false (List.replicate 7 .ok)

def opens : Opening := .rust (List.replicate 20 .ok)

def connects : Opening := .python false false (List.replicate 20 .ok)

/-- The native backend opens first. -/
theorem recovered_in_turn : ∃ s, ((whole Provider.oneFile).compact killedRust).rust.live = none ∧
    execute CrossStore.step ((whole Provider.oneFile).compact killedRust) [opens, connects] =
      some s ∧ s.returned = true ∧ Recovered Provider.oneFile.tables s := by
  have hkilled : (whole Provider.oneFile).compact killedRust =
      ⟨⟨none, some (.image Provider.oneFile), none, some .preSwap⟩, none, none, false⟩ := by
    cbv
  rw [hkilled]
  refine ⟨_, rfl, rfl, rfl, recovered_of_fitting Provider.oneFile_wf killedRust ?_⟩
  rw [hkilled]
  refine .step (a := connects) (.step (a := opens) .init trivial rfl) ?_ rfl
  rfl

/-- The native backend opens where only the backup is, and the provider then drops that. -/
theorem empty_database_recovered : Provider.oneFile.WF ∧ ∃ s,
    Reach CrossStore.step ((whole Provider.oneFile).compact killedPython) s ∧
      s.returned = true ∧ ¬Recovered Provider.oneFile.tables s := by
  refine ⟨Provider.oneFile_wf, _, Reach.of_execute [opens, connects] rfl, rfl, fun h => ?_⟩
  obtain ⟨img, himg, -, hdata⟩ := h.live rfl
  obtain rfl : DbImage.empty.setupSchema = img := by
    have hlive : some (DbFile.image DbImage.empty.setupSchema) = some (.image img) := himg
    simpa using hlive
  have hfiles := congrFun hdata .files
  simp [Provider.oneFile, DbImage.setupSchema, DbImage.empty] at hfiles

end ChunkHound.CrossRecovery
