import ChunkHound.Raising
import Mathlib

/-!
# WAL cleanup on connect

Connecting to a database file may remove its WAL. The connection manager hands a WAL whose file is
older than a day, one that a trial `ATTACH` does not accept, and one on which `duckdb.connect` fails
with a message about the WAL, to `handleWalCorruption` : a recovery that integrates it, or else a
copy to `.wal.corrupt` and its removal. The executor removes what is then left when it is older than
a day, or when a query fails.

The outcome of each statement and of each file operation is given (`Env`). Before all that, an
interrupted compaction is recovered, which puts the WAL of the backup in the place of the WAL.

`connect_lossless_iff` : exactly when a connect removes no WAL that has committed transactions which
can be replayed, or that another process is using.
-/

namespace ChunkHound.WalCleanup

open Raising

/-! ## The database and its WAL -/

/-- A WAL file : the committed transactions in it, and whether they can be replayed. -/
structure Wal where
  transactions : List ℕ
  replayable : Bool
  deriving DecidableEq

/-- The files of a database. `inUse` : another process has the database open. `removed` are the WALs
that were deleted or moved aside. -/
structure Disk where
  liveMissingOrEmpty : Bool
  database : List ℕ
  wal : Option Wal
  corrupt : Option Wal
  backup : Bool
  backupWal : Option Wal
  inUse : Bool
  removed : List Wal
  deriving DecidableEq

/-- The WAL is integrated into the database. -/
def Disk.checkpoint (d : Disk) : Disk :=
  { d with database := d.database ++ (d.wal.elim [] Wal.transactions), wal := none }

/-- The log is lost, and remembered as such. -/
def Disk.removeWal (d : Disk) : Disk :=
  { d with wal := none, removed := d.wal.toList ++ d.removed }

inductive Err
  | osError
  | duckDb
  | runtimeError
  deriving DecidableEq

abbrev WalM := EStateM Err Disk

/-! ## Messages -/

/-- `indicator in message`. -/
def occursIn (indicator message : String) : Bool := decide (indicator.toList <:+: message.toList)

/-- The texts that are taken for corruption. -/
def isWalCorruptionError (message : String) : Bool :=
  ["Failure while replaying WAL file", "Catalog \"chunkhound\" does not exist", "BinderException",
    "Binder Error", "Cannot bind index", "unknown index type", "HNSW",
    "You need to load the extension"].any (occursIn · message)

/-- The message says that another connection has the database open. -/
def databaseOpen (message : String) : Bool :=
  ["already attached", "Unique file handle conflict", "Conflicting lock is held"].any
    (occursIn · message)

/-! ## The connection manager -/

/-- How the steps of a recovery end. `attaches` is the statements up to the count of the files. -/
structure Recovery where
  stats : Bool
  attaches : Bool
  checkpoints : Bool
  detaches : Bool
  copies : Bool
  removes : Bool

/-- What a connect meets. A message is that of the exception a statement raises. -/
structure Env where
  readOnly : Bool
  /-- recovery of an interrupted compaction -/
  restores : Bool
  unlinksWal : Bool
  replacesWal : Bool
  dropsStaged : Bool
  /-- age of the WAL file in seconds, when it can be read -/
  walAge : Option ℕ
  stale : Recovery
  validation : Option String
  invalid : Recovery
  opens : Option String
  corrupt : Recovery
  reopens : Bool
  loads : Bool
  /-- the executor -/
  creates : Bool
  walCleanupDone : Bool
  executorWalAge : Option ℕ
  unlinksStale : Bool
  selects : Bool
  unlinksInvalid : Bool
  recreates : Bool

/-- Put the backup of a compaction back. -/
def recoverInterruptedCompaction (e : Env) : WalM Unit := do
  let d ← get
  if d.backup && d.liveMissingOrEmpty then
    if !e.restores then throw .runtimeError
    modify fun d => { d with backup := false, liveMissingOrEmpty := false }
    if d.backupWal.isSome then
      if !e.unlinksWal then throw .runtimeError
      modify Disk.removeWal
      if !e.replacesWal then throw .runtimeError
      modify fun d => { d with wal := d.backupWal, backupWal := none }
  if !d.liveMissingOrEmpty then
    modify fun d => { d with backup := false, backupWal := none }
  if !e.dropsStaged then throw .osError

/-- Checkpoint a staged copy, or drop the log. -/
def handleWalCorruption (r : Recovery) : WalM Unit := do
  if (← get).wal.isSome then
    if !r.stats then throw .osError
    try
      if !(r.attaches && r.checkpoints) then throw .duckDb
      modify Disk.checkpoint
      if !r.detaches then throw .duckDb
    catch _ =>
      -- a WAL that is gone is not copied
      if (← get).wal.isNone || !r.copies then throw .osError
      modify fun d => { d with corrupt := d.wal }
      if !r.removes then throw .osError
      modify Disk.removeWal

/-- A WAL older than a day is handled, and errors of the file system are passed over. -/
def handleStaleWal (e : Env) : WalM Bool :=
  tryCatch (do
    match e.walAge with
    | none => throw .osError
    | some age =>
      if age > 86400 then
        handleWalCorruption e.stale
        return true
      else return false)
    fun err => if err = .osError then pure false else throw err

def validateWal (e : Env) : WalM Unit :=
  match e.validation with
  | none => pure ()
  | some message => if databaseOpen message then pure () else handleWalCorruption e.invalid

/-- Look at the log before the database is opened. -/
def preemptiveWalCleanup (e : Env) : WalM Unit := do
  if (← get).wal.isSome then
    if !(← handleStaleWal e) then validateWal e

/-- Open, and handle a corrupt log. -/
def connectWithWalValidation (e : Env) : WalM Unit :=
  match e.opens with
  | none => pure ()
  | some message => do
    if e.readOnly then throw .runtimeError
    if isWalCorruptionError message then
      handleWalCorruption e.corrupt
      if !e.reopens then throw .duckDb
    else throw .duckDb

/-! ## The executor -/

/-- A log older than a day is unlinked. -/
def unlinkStaleWal (e : Env) : WalM Bool :=
  tryCatch (do
    match e.executorWalAge with
    | none => throw .osError
    | some age =>
      if age > 86400 then
        if !e.unlinksStale then throw .osError
        modify Disk.removeWal
        return true
      else return false)
    fun err => if err = .osError then pure false else throw err

/-- The executor looks at the log once more. -/
def performWalCleanupInExecutor (e : Env) : WalM Unit := do
  if (← get).wal.isSome then
    if !(← unlinkStaleWal e) then
      if !e.selects then
        if !e.unlinksInvalid then throw .osError
        modify Disk.removeWal
        if !e.recreates then throw .duckDb

/-- What the executor does once the connection manager is connected. -/
def executorConnect (e : Env) : WalM Unit := do
  if !(e.loads && e.creates) then throw .duckDb
  if !e.readOnly && !e.walCleanupDone then performWalCleanupInExecutor e

/-- `duckdb.connect` and the executor after it. -/
def openAndRun (e : Env) : WalM Unit := do
  connectWithWalValidation e
  executorConnect e

def connect (e : Env) : WalM Unit := do
  if !e.readOnly then
    recoverInterruptedCompaction e
    preemptiveWalCleanup e
  openAndRun e

/-! ## When nothing is lost -/

/-- The WAL has committed transactions that can be replayed, or another process is using it. -/
def Precious (inUse : Bool) (w : Wal) : Prop :=
  (w.replayable = true ∧ w.transactions ≠ []) ∨ inUse = true

/-- No WAL that was deleted or moved aside was one to keep. -/
def Lossless (d : Disk) : Prop := ∀ w ∈ d.removed, ¬Precious d.inUse w

/-- The database has a WAL that is one to keep. -/
def HasPrecious (d : Disk) : Prop := ∃ w, d.wal = some w ∧ Precious d.inUse w

/-- The recovery replays the WAL and checkpoints. -/
def Recovery.Integrates (r : Recovery) : Prop :=
  r.stats = true ∧ r.attaches = true ∧ r.checkpoints = true

/-- The recovery fails, and the WAL is copied and removed. -/
def Recovery.Removes (r : Recovery) : Prop :=
  r.stats = true ∧ ¬(r.attaches = true ∧ r.checkpoints = true) ∧ r.copies = true ∧
    r.removes = true

/-- The file is known to be older than a day. -/
def Stale (age : Option ℕ) : Prop := ∃ a, age = some a ∧ a > 86400

/-- The executor leaves a WAL alone : it does not get to the cleanup, or the WAL is not older than a
day and a query runs, or the WAL cannot be removed. -/
def Env.ExecutorKeeps (e : Env) : Prop :=
  e.loads = true → e.creates = true → e.walCleanupDone = false →
    (Stale e.executorWalAge → e.unlinksStale = false) ∧
      (e.selects = true ∨ e.unlinksInvalid = false)

/-- `duckdb.connect` returns, or fails with a message that is not about the WAL, or the recovery
does not remove it. -/
def Env.OpenKeeps (e : Env) : Prop :=
  match e.opens with
  | none => e.ExecutorKeeps
  | some message => isWalCorruptionError message = true → ¬e.corrupt.Removes

/-- The trial `ATTACH` accepts the WAL or finds the database open, or the recovery does not remove
it. -/
def Env.ValidationKeeps (e : Env) : Prop :=
  match e.validation with
  | none => e.OpenKeeps
  | some message => if databaseOpen message then e.OpenKeeps else ¬e.invalid.Removes

/-- A WAL older than a day is integrated, or at least not removed. -/
def Env.CleanupKeeps (e : Env) : Prop :=
  (Stale e.walAge → ¬e.stale.Removes) ∧
    (¬(Stale e.walAge ∧ e.stale.Integrates) → e.ValidationKeeps)

/-- When a connect keeps what is to keep. After an interrupted compaction the WAL of the backup, if
there is one, is the one that the cleanup meets. -/
def Keeps (d : Disk) (e : Env) : Prop :=
  e.readOnly = false →
    if d.backup = true ∧ d.liveMissingOrEmpty = true then
      e.restores = true →
        match d.backupWal with
        | none => e.dropsStaged = true → HasPrecious d → e.CleanupKeeps
        | some w => e.unlinksWal = true → ¬HasPrecious d ∧
          (e.replacesWal = true → e.dropsStaged = true → Precious d.inUse w → e.CleanupKeeps)
    else e.dropsStaged = true → HasPrecious d → e.CleanupKeeps

instance (inUse : Bool) (w : Wal) : Decidable (Precious inUse w) :=
  inferInstanceAs (Decidable ((_ ∧ _) ∨ _))

instance : DecidablePred Lossless := fun d => inferInstanceAs (Decidable (∀ _ ∈ d.removed, _))

/-! ## What is left of a WAL -/

/-- A run loses nothing. -/
def Ok {α : Type} (p : WalM α) (d : Disk) : Prop := Lossless (state (p d))

variable {d : Disk} {α : Type}

theorem ok_congr {p q : WalM α} (h : p d = q d) : Ok p d ↔ Ok q d := by
  unfold Ok
  rw [h]

/-- A program that reads the disk goes on with what it read. -/
theorem get_run (f : Disk → WalM α) (d : Disk) : (get >>= f) d = f d d := rfl

variable {d t : Disk}

theorem ok_bind_ok {α β : Type} {p : WalM α} {f : α → WalM β} {a : α}
    (h : p d = .ok a t) : Ok (p >>= f) d ↔ Ok (f a) t := by
  unfold Ok
  rw [show (p >>= f) d = f a t by simp only [bind, EStateM.bind, h]]

theorem ok_bind_error {α β : Type} {p : WalM α} {f : α → WalM β} {err : Err}
    (h : p d = .error err t) : Ok (p >>= f) d ↔ Lossless t := by
  unfold Ok
  rw [show (p >>= f) d = .error err t by simp only [bind, EStateM.bind, h]]
  rfl

theorem not_hasPrecious (h : d.wal = none) : ¬HasPrecious d := by
  rintro ⟨w, hw, -⟩
  rw [h] at hw
  exact nomatch hw

variable {w : Wal}

theorem hasPrecious_iff (h : d.wal = some w) :
    HasPrecious d ↔ Precious d.inUse w := by
  simp [HasPrecious, h]

/-- Removing a WAL is lossless when it is not one to keep. -/
theorem lossless_removeWal (hd : Lossless d) :
    Lossless d.removeWal ↔ ¬HasPrecious d := by
  unfold Lossless Disk.removeWal HasPrecious
  constructor
  · rintro h ⟨w, hw, hp⟩
    exact h w (by simp [hw]) hp
  · intro h w hw
    rcases List.mem_append.1 hw with hw | hw
    · exact fun hp => h ⟨w, Option.mem_toList.1 hw, hp⟩
    · exact hd w hw

/-- A WAL that is copied before it is removed. -/
theorem lossless_copied (hd : Lossless d) (corrupt : Option Wal) :
    Lossless { d with corrupt }.removeWal ↔ ¬HasPrecious d :=
  lossless_removeWal (d := { d with corrupt }) hd

theorem handleWalCorruption_none (h : d.wal = none) (r : Recovery) :
    handleWalCorruption r d = .ok () d := by
  obtain ⟨live, database, wal, corrupt, backup, backupWal, inUse, removed⟩ := d
  obtain rfl : wal = none := h
  rfl

variable {r : Recovery}

/-- The three ends of a recovery : the WAL is integrated, or it is removed, or an error is raised
and the WAL stays. -/
theorem handleWalCorruption_integrates (h : d.wal = some w)
    (hr : r.Integrates) : handleWalCorruption r d = .ok () d.checkpoint ∨
      handleWalCorruption r d = .error .osError d.checkpoint := by
  obtain ⟨live, database, wal, corrupt, backup, backupWal, inUse, removed⟩ := d
  obtain ⟨stats, attaches, checkpoints, detaches, copies, removes⟩ := r
  obtain rfl : wal = some w := h
  obtain ⟨rfl, rfl, rfl⟩ : stats = true ∧ attaches = true ∧ checkpoints = true := hr
  cases detaches
  · exact Or.inr rfl
  · exact Or.inl rfl

theorem handleWalCorruption_removes (h : d.wal = some w) (hr : r.Removes) :
    handleWalCorruption r d = .ok () { d with corrupt := d.wal }.removeWal := by
  obtain ⟨live, database, wal, corrupt, backup, backupWal, inUse, removed⟩ := d
  obtain ⟨stats, attaches, checkpoints, detaches, copies, removes⟩ := r
  obtain rfl : wal = some w := h
  obtain ⟨hstats, hfails, hcopies, hremoves⟩ := hr
  obtain rfl : stats = true := hstats
  obtain rfl : copies = true := hcopies
  obtain rfl : removes = true := hremoves
  cases attaches
  · rfl
  · cases checkpoints
    · rfl
    · exact absurd ⟨rfl, rfl⟩ hfails

theorem handleWalCorruption_keeps (h : d.wal = some w) (hi : ¬r.Integrates) (hr : ¬r.Removes) :
    ∃ c, handleWalCorruption r d = .error .osError { d with corrupt := c } := by
  obtain ⟨live, database, wal, corrupt, backup, backupWal, inUse, removed⟩ := d
  obtain ⟨stats, attaches, checkpoints, detaches, copies, removes⟩ := r
  obtain rfl : wal = some w := h
  cases stats
  · exact ⟨corrupt, rfl⟩
  · have hfails : ¬(attaches = true ∧ checkpoints = true) := fun h => hi ⟨rfl, h⟩
    cases copies
    · cases attaches
      · exact ⟨corrupt, rfl⟩
      · cases checkpoints
        · exact ⟨corrupt, rfl⟩
        · exact absurd ⟨rfl, rfl⟩ hfails
    · cases removes
      · cases attaches
        · exact ⟨some w, rfl⟩
        · cases checkpoints
          · exact ⟨some w, rfl⟩
          · exact absurd ⟨rfl, rfl⟩ hfails
      · exact absurd ⟨rfl, hfails, rfl, rfl⟩ hr

/-- A recovery and what follows when it returns, where that leaves a disk without a WAL alone. -/
theorem ok_handleWalCorruption (hd : Lossless d) (r : Recovery)
    {f : Unit → WalM α} (hf : ∀ t : Disk, t.wal = none → (Ok (f ()) t ↔ Lossless t)) :
    Ok (handleWalCorruption r >>= f) d ↔ (HasPrecious d → ¬r.Removes) := by
  cases hw : d.wal with
  | none =>
    rw [ok_bind_ok (handleWalCorruption_none hw r), hf d hw]
    exact iff_of_true hd fun h => absurd h (not_hasPrecious hw)
  | some w =>
    by_cases hr : r.Removes
    · rw [ok_bind_ok (handleWalCorruption_removes hw hr), hf _ rfl, lossless_copied hd]
      exact ⟨fun h hp => absurd hp h, fun h hp => h hp hr⟩
    · refine iff_of_true ?_ fun _ => hr
      by_cases hi : r.Integrates
      · rcases handleWalCorruption_integrates hw hi with h | h
        · rw [ok_bind_ok h, hf _ rfl]
          exact hd
        · rw [ok_bind_error h]
          exact hd
      · obtain ⟨c, h⟩ := handleWalCorruption_keeps hw hi hr
        rw [ok_bind_error h]
        exact hd

/-! ## The stages -/

theorem performWalCleanupInExecutor_none (e : Env) (h : d.wal = none) :
    performWalCleanupInExecutor e d = .ok () d := by
  unfold performWalCleanupInExecutor
  rw [get_run, h]
  rfl

theorem executorConnect_none (e : Env) (h : d.wal = none) :
    Ok (executorConnect e) d ↔ Lossless d := by
  have hrun := performWalCleanupInExecutor_none e h
  unfold executorConnect Ok
  cases e.loads <;> cases e.creates <;> cases e.readOnly <;> cases e.walCleanupDone <;>
    simp [bind, EStateM.bind, hrun, pure, EStateM.pure, throw, throwThe, MonadExceptOf.throw,
      EStateM.throw, state]

variable {e : Env}

theorem unlinkStaleWal_stale (hs : Stale e.executorWalAge) (hu : e.unlinksStale = true)
    (d : Disk) : unlinkStaleWal e d = .ok true d.removeWal := by
  obtain ⟨age, hage, hold⟩ := hs
  simp only [unlinkStaleWal, hage, if_pos hold, hu]
  rfl

theorem unlinkStaleWal_keeps (h : Stale e.executorWalAge → e.unlinksStale = false)
    (d : Disk) : unlinkStaleWal e d = .ok false d := by
  unfold unlinkStaleWal
  cases hage : e.executorWalAge with
  | none => rfl
  | some age =>
    by_cases hold : age > 86400
    · have hu := h ⟨age, hage, hold⟩
      simp only [if_pos hold, hu]
      rfl
    · simp only [if_neg hold]
      rfl

/-- The executor cleans up a WAL that is still there. -/
theorem performWalCleanupInExecutor_some (e : Env) (hd : Lossless d) (hw : d.wal = some w) :
    Ok (performWalCleanupInExecutor e) d ↔ (HasPrecious d →
      (Stale e.executorWalAge → e.unlinksStale = false) ∧
        (e.selects = true ∨ e.unlinksInvalid = false)) := by
  have hrun : performWalCleanupInExecutor e d = (do
      if !(← unlinkStaleWal e) then
        if !e.selects then
          if !e.unlinksInvalid then throw .osError
          modify Disk.removeWal
          if !e.recreates then throw .duckDb : WalM Unit) d := by
    unfold performWalCleanupInExecutor
    rw [get_run, hw]
    rfl
  rw [ok_congr hrun]
  unfold Ok
  by_cases hs : Stale e.executorWalAge → e.unlinksStale = false
  · simp only [bind, EStateM.bind, unlinkStaleWal_keeps hs d]
    cases hselects : e.selects with
    | true => exact iff_of_true hd fun _ => ⟨hs, Or.inl rfl⟩
    | false =>
      cases hunlinks : e.unlinksInvalid with
      | false => exact iff_of_true hd fun _ => ⟨hs, Or.inr rfl⟩
      | true =>
        have hstate : Lossless d.removeWal ↔ (HasPrecious d → (Stale e.executorWalAge →
            e.unlinksStale = false) ∧ (false = true ∨ true = false)) := by
          rw [lossless_removeWal hd]
          simp
        cases e.recreates
        · exact hstate
        · exact hstate
  · obtain ⟨hstale, hunlinks⟩ := Classical.not_imp.1 hs
    simp only [bind, EStateM.bind, unlinkStaleWal_stale hstale (by simpa using hunlinks) d]
    have hstate : Lossless d.removeWal ↔ (HasPrecious d → (Stale e.executorWalAge →
        e.unlinksStale = false) ∧ (e.selects = true ∨ e.unlinksInvalid = false)) := by
      rw [lossless_removeWal hd]
      exact ⟨fun h hp => absurd hp h, fun h hp => hs (h hp).1⟩
    exact hstate

theorem executorConnect_ok (he : e.readOnly = false) (hd : Lossless d) :
    Ok (executorConnect e) d ↔ (HasPrecious d → e.ExecutorKeeps) := by
  cases hw : d.wal with
  | none =>
    rw [executorConnect_none e hw]
    exact iff_of_true hd fun h => absurd h (not_hasPrecious hw)
  | some w =>
    have hrun := performWalCleanupInExecutor_some e hd hw
    unfold Env.ExecutorKeeps
    cases hl : e.loads with
    | false =>
      refine iff_of_true ?_ fun _ h => nomatch h
      simp only [Ok, executorConnect, hl]
      exact hd
    | true =>
      cases hc : e.creates with
      | false =>
        refine iff_of_true ?_ fun _ _ h => nomatch h
        simp only [Ok, executorConnect, hl, hc]
        exact hd
      | true =>
        cases hdone : e.walCleanupDone with
        | true =>
          refine iff_of_true ?_ fun _ _ _ h => nomatch h
          simp only [Ok, executorConnect, hl, hc, hdone, he]
          exact hd
        | false =>
          have hconnect : executorConnect e d = performWalCleanupInExecutor e d := by
            simp only [executorConnect, hl, hc, hdone, he]
            rfl
          rw [ok_congr hconnect, hrun]
          exact ⟨fun h hp _ _ _ => h hp, fun h hp => h hp rfl rfl rfl⟩

theorem connectWithWalValidation_opens (h : e.opens = none) :
    connectWithWalValidation e = pure () := by
  simp only [connectWithWalValidation, h]

variable {message : String}

theorem connectWithWalValidation_corrupt (h : e.opens = some message)
    (he : e.readOnly = false) (hm : isWalCorruptionError message = true) :
    connectWithWalValidation e = (handleWalCorruption e.corrupt >>= fun _ =>
      if !e.reopens then throw .duckDb else pure ()) := by
  simp only [connectWithWalValidation, h, he, hm]
  rfl

theorem connectWithWalValidation_throws (h : e.opens = some message)
    (hm : e.readOnly = false → isWalCorruptionError message = false) (d : Disk) :
    ∃ err, connectWithWalValidation e d = .error err d := by
  cases he : e.readOnly with
  | true =>
    simp only [connectWithWalValidation, h, he]
    exact ⟨_, rfl⟩
  | false =>
    simp only [connectWithWalValidation, h, he, hm he]
    exact ⟨_, rfl⟩

/-- A second attempt to connect, and the executor after it. -/
theorem reopen_none (e : Env) (h : d.wal = none) :
    Ok ((if !e.reopens then throw .duckDb else pure () : WalM Unit) >>= fun _ =>
      executorConnect e) d ↔ Lossless d := by
  cases e.reopens with
  | true => exact executorConnect_none e h
  | false => exact Iff.rfl

theorem openAndRun_corrupt (h : e.opens = some message)
    (he : e.readOnly = false) (hm : isWalCorruptionError message = true)
    (hd : Lossless d) : Ok (openAndRun e) d ↔ (HasPrecious d → ¬e.corrupt.Removes) := by
  have hrun : openAndRun e = (handleWalCorruption e.corrupt >>= fun _ =>
      (if !e.reopens then throw .duckDb else pure () : WalM Unit) >>= fun _ =>
        executorConnect e) := by
    unfold openAndRun
    rw [connectWithWalValidation_corrupt h he hm, bind_assoc]
  rw [hrun]
  exact ok_handleWalCorruption hd e.corrupt fun t ht => reopen_none e ht

theorem openAndRun_none (e : Env) (h : d.wal = none) :
    Ok (openAndRun e) d ↔ Lossless d := by
  unfold openAndRun
  cases ho : e.opens with
  | none =>
    rw [connectWithWalValidation_opens ho]
    exact executorConnect_none e h
  | some message =>
    by_cases hm : e.readOnly = false ∧ isWalCorruptionError message = true
    · rw [connectWithWalValidation_corrupt ho hm.1 hm.2, bind_assoc,
        ok_bind_ok (handleWalCorruption_none h e.corrupt)]
      exact reopen_none e h
    · obtain ⟨err, hrun⟩ := connectWithWalValidation_throws ho
        (fun he => by simpa [he] using hm) d
      exact ok_bind_error hrun

theorem openAndRun_ok (he : e.readOnly = false) (hd : Lossless d) :
    Ok (openAndRun e) d ↔ (HasPrecious d → e.OpenKeeps) := by
  unfold Env.OpenKeeps
  cases ho : e.opens with
  | none =>
    unfold openAndRun
    rw [connectWithWalValidation_opens ho]
    exact executorConnect_ok he hd
  | some message =>
    cases hm : isWalCorruptionError message with
    | true =>
      rw [openAndRun_corrupt ho he hm hd]
      exact ⟨fun h hp _ => h hp, fun h hp => h hp hm⟩
    | false =>
      obtain ⟨err, hrun⟩ := connectWithWalValidation_throws ho (fun _ => hm) d
      refine iff_of_true ((ok_bind_error hrun).2 hd) fun _ h => ?_
      simp [hm] at h

/-- The trial `ATTACH`, and what follows. -/
theorem validateWal_none (e : Env) (h : d.wal = none) :
    Ok (validateWal e >>= fun _ => openAndRun e) d ↔ Lossless d := by
  unfold validateWal
  cases e.validation with
  | none => exact openAndRun_none e h
  | some message =>
    cases hm : databaseOpen message with
    | true =>
      simp only [hm, if_true]
      exact openAndRun_none e h
    | false =>
      simp only [hm]
      rw [if_neg (by decide), ok_bind_ok (handleWalCorruption_none h e.invalid)]
      exact openAndRun_none e h

theorem validateWal_ok (he : e.readOnly = false) (hd : Lossless d) :
    Ok (validateWal e >>= fun _ => openAndRun e) d ↔ (HasPrecious d → e.ValidationKeeps) := by
  unfold validateWal Env.ValidationKeeps
  cases e.validation with
  | none => exact openAndRun_ok he hd
  | some message =>
    cases hm : databaseOpen message with
    | true =>
      simp only [hm, if_true]
      exact openAndRun_ok he hd
    | false =>
      simp only [hm]
      rw [if_neg (by decide), if_neg (by decide)]
      exact ok_handleWalCorruption hd e.invalid fun t ht => openAndRun_none e ht

theorem handleStaleWal_fresh (h : ¬Stale e.walAge) (d : Disk) :
    handleStaleWal e d = .ok false d := by
  unfold handleStaleWal
  cases hage : e.walAge with
  | none => rfl
  | some age =>
    simp only [if_neg fun hold => h ⟨age, hage, hold⟩]
    rfl

/-- What the recovery of a stale WAL returns or raises is whether the cleanup is done. -/
theorem handleStaleWal_stale (h : Stale e.walAge) :
    (handleWalCorruption e.stale d = .ok () t → handleStaleWal e d = .ok true t) ∧
      (handleWalCorruption e.stale d = .error .osError t → handleStaleWal e d = .ok false t) := by
  obtain ⟨age, hage, hold⟩ := h
  constructor
  · intro hrun
    simp only [handleStaleWal, hage, if_pos hold, tryCatch, tryCatchThe, MonadExceptOf.tryCatch,
      EStateM.tryCatch, bind, EStateM.bind, hrun]
    rfl
  · intro hrun
    simp only [handleStaleWal, hage, if_pos hold, tryCatch, tryCatchThe, MonadExceptOf.tryCatch,
      EStateM.tryCatch, bind, EStateM.bind, hrun]
    rfl

/-- What follows the cleanup of a WAL that was there. -/
def afterStale (e : Env) : WalM Unit := do
  if !(← handleStaleWal e) then validateWal e
  openAndRun e

theorem afterStale_true (h : handleStaleWal e d = .ok true t) :
    Ok (afterStale e) d ↔ Ok (openAndRun e) t :=
  ok_bind_ok h

theorem afterStale_false (h : handleStaleWal e d = .ok false t) :
    Ok (afterStale e) d ↔ Ok (validateWal e >>= fun _ => openAndRun e) t :=
  ok_bind_ok h

theorem afterStale_ok (he : e.readOnly = false) (hd : Lossless d)
    (hw : d.wal = some w) : Ok (afterStale e) d ↔ (HasPrecious d → e.CleanupKeeps) := by
  unfold Env.CleanupKeeps
  by_cases hs : Stale e.walAge
  · have hstale := fun t => handleStaleWal_stale hs (d := d) (t := t)
    by_cases hr : e.stale.Removes
    · rw [afterStale_true ((hstale _).1 (handleWalCorruption_removes hw hr)),
        openAndRun_none e rfl, lossless_copied hd]
      exact ⟨fun h hp => absurd hp h, fun h hp => (h hp).1 hs hr⟩
    · by_cases hi : e.stale.Integrates
      · refine iff_of_true ?_ fun _ => ⟨fun _ => hr, fun h => absurd ⟨hs, hi⟩ h⟩
        rcases handleWalCorruption_integrates hw hi with h | h
        · exact (afterStale_true ((hstale _).1 h)).2 ((openAndRun_none e rfl).2 hd)
        · exact (afterStale_false ((hstale _).2 h)).2 ((validateWal_none e rfl).2 hd)
      · obtain ⟨c, h⟩ := handleWalCorruption_keeps hw hi hr
        have hrest : Ok (validateWal e >>= fun _ => openAndRun e) { d with corrupt := c } ↔
            (HasPrecious d → e.ValidationKeeps) :=
          validateWal_ok (d := { d with corrupt := c }) he hd
        rw [afterStale_false ((hstale _).2 h), hrest]
        exact ⟨fun h hp => ⟨fun _ => hr, fun _ => h hp⟩,
          fun h hp => (h hp).2 fun hsi => hi hsi.2⟩
  · rw [afterStale_false (handleStaleWal_fresh hs d), validateWal_ok he hd]
    exact ⟨fun h hp => ⟨fun h => absurd h hs, fun _ => h hp⟩,
      fun h hp => (h hp).2 fun hsi => hs hsi.1⟩

/-- The cleanup of the connection manager, and what follows. -/
def cleanAndOpen (e : Env) : WalM Unit := do
  preemptiveWalCleanup e
  openAndRun e

theorem cleanAndOpen_ok (he : e.readOnly = false) (hd : Lossless d) :
    Ok (cleanAndOpen e) d ↔ (HasPrecious d → e.CleanupKeeps) := by
  cases hw : d.wal with
  | none =>
    have hrun : preemptiveWalCleanup e d = .ok () d := by
      unfold preemptiveWalCleanup
      rw [get_run, hw]
      rfl
    unfold cleanAndOpen
    rw [ok_bind_ok hrun, openAndRun_none e hw]
    exact iff_of_true hd fun h => absurd h (not_hasPrecious hw)
  | some w =>
    have hrun : cleanAndOpen e d = afterStale e d := by
      simp only [cleanAndOpen, preemptiveWalCleanup, afterStale, bind, EStateM.bind, get, getThe,
        MonadStateOf.get, EStateM.get, hw, Option.isSome_some, if_true]
      cases handleStaleWal e d with
      | ok handled t => cases handled <;> rfl
      | error err t => rfl
    rw [ok_congr hrun]
    exact afterStale_ok he hd hw

theorem openAndRun_readOnly (he : e.readOnly = true) (hd : Lossless d) :
    Ok (openAndRun e) d := by
  unfold openAndRun
  cases ho : e.opens with
  | none =>
    rw [connectWithWalValidation_opens ho]
    unfold executorConnect
    cases e.loads <;> cases e.creates <;> simp only [he] <;> exact hd
  | some message =>
    obtain ⟨err, hrun⟩ := connectWithWalValidation_throws ho (fun h => by simp [he] at h) d
    exact (ok_bind_error hrun).2 hd

/-- The end of the recovery of a compaction, which drops its staged files, and what follows. -/
def dropStagedAndOpen (e : Env) : WalM Unit :=
  (if !e.dropsStaged then throw .osError else pure ()) >>= fun _ => cleanAndOpen e

theorem dropStagedAndOpen_ok (he : e.readOnly = false) (hd : Lossless d) :
    Ok (dropStagedAndOpen e) d ↔ (e.dropsStaged = true → HasPrecious d → e.CleanupKeeps) := by
  unfold dropStagedAndOpen
  cases hs : e.dropsStaged with
  | false => exact iff_of_true hd nofun
  | true =>
    exact (cleanAndOpen_ok he hd).trans ⟨fun h _ => h, fun h => h rfl⟩

/-! ## Losses are not undone -/

theorem not_lossless_removeWal (h : ¬Lossless d) : ¬Lossless d.removeWal :=
  fun hl => h fun w hw => hl w (List.mem_append.2 (Or.inr hw))

/-- A program after which what was lost stays lost. -/
abbrev Grows {α : Type} (p : WalM α) : Prop :=
  Triple (fun d => ¬Lossless d) p (fun _ d => ¬Lossless d) fun _ d => ¬Lossless d

theorem grows_throw (err : Err) : Grows (throw err : WalM α) := .throw fun _ h => h

theorem grows_pure (a : α) : Grows (pure a : WalM α) := .pure a fun _ h => h

theorem grows_removeWal : Grows (modify Disk.removeWal : WalM Unit) :=
  .modify fun _ h => not_lossless_removeWal h

theorem grows_throwUnless (done : Bool) (err : Err) :
    Grows (if (!done) = true then throw err else pure () : WalM Unit) :=
  .ite (fun _ => grows_throw err) fun _ => grows_pure ()

theorem grows_get {f : Disk → WalM α} (h : ∀ d, Grows (f d)) : Grows (get >>= f) :=
  fun d hd => h d d hd

/-- A check in the middle of a program. -/
theorem grows_guard {c : Prop} [Decidable c] {err : Err} {f : PUnit → WalM α}
    (h : Grows (f ())) : Grows (if c then (throw err >>= fun r => f r) else f ()) :=
  .ite (fun _ => .bind (Q := fun _ _ => False) (.throw fun _ h => h) fun _ _ h => h.elim) fun _ => h

theorem handleWalCorruption_grows (r : Recovery) : Grows (handleWalCorruption r) :=
  grows_get fun _ => .ite (fun _ => grows_guard (.tryCatch
    (grows_guard (.seq (.modify fun _ h => h) (grows_throwUnless r.detaches .duckDb)))
    fun _ => grows_get fun _ => grows_guard (.seq (.modify fun _ h => h)
      (grows_guard grows_removeWal)))) fun _ => grows_pure ()

theorem handleStaleWal_grows (e : Env) : Grows (handleStaleWal e) := by
  refine .tryCatch ?_ fun err => .ite (fun _ => grows_pure false) fun _ => grows_throw err
  cases e.walAge with
  | none => exact grows_throw _
  | some age =>
    exact .ite (fun _ => .seq (handleWalCorruption_grows e.stale) (grows_pure true))
      fun _ => grows_pure false

theorem validateWal_grows (e : Env) : Grows (validateWal e) := by
  unfold validateWal
  cases e.validation with
  | none => exact grows_pure ()
  | some message =>
    exact .ite (fun _ => grows_pure ()) fun _ => handleWalCorruption_grows e.invalid

theorem preemptiveWalCleanup_grows (e : Env) : Grows (preemptiveWalCleanup e) :=
  grows_get fun _ => .ite (fun _ => .bind (handleStaleWal_grows e) fun _ =>
    .ite (fun _ => validateWal_grows e) fun _ => grows_pure ()) fun _ => grows_pure ()

theorem connectWithWalValidation_grows (e : Env) : Grows (connectWithWalValidation e) := by
  unfold connectWithWalValidation
  cases e.opens with
  | none => exact grows_pure ()
  | some message =>
    exact grows_guard (.ite (fun _ => .seq (handleWalCorruption_grows e.corrupt)
      (grows_throwUnless e.reopens .duckDb)) fun _ => grows_throw _)

theorem unlinkStaleWal_grows (e : Env) : Grows (unlinkStaleWal e) := by
  refine .tryCatch ?_ fun err => .ite (fun _ => grows_pure false) fun _ => grows_throw err
  cases e.executorWalAge with
  | none => exact grows_throw _
  | some age =>
    exact .ite (fun _ => grows_guard (.seq grows_removeWal (grows_pure true)))
      fun _ => grows_pure false

theorem performWalCleanupInExecutor_grows (e : Env) : Grows (performWalCleanupInExecutor e) :=
  grows_get fun _ => .ite (fun _ => .bind (unlinkStaleWal_grows e) fun _ => .ite (fun _ =>
    .ite (fun _ => grows_guard (.seq grows_removeWal (grows_throwUnless e.recreates .duckDb)))
      fun _ => grows_pure ()) fun _ => grows_pure ()) fun _ => grows_pure ()

theorem executorConnect_grows (e : Env) : Grows (executorConnect e) := by
  unfold executorConnect
  exact grows_guard (.ite (fun _ => performWalCleanupInExecutor_grows e) fun _ => grows_pure ())

theorem cleanAndOpen_grows (e : Env) : Grows (cleanAndOpen e) :=
  .seq (preemptiveWalCleanup_grows e) <| .seq (connectWithWalValidation_grows e)
    (executorConnect_grows e)

theorem dropStagedAndOpen_grows (e : Env) : Grows (dropStagedAndOpen e) :=
  .seq (grows_throwUnless e.dropsStaged .osError) (cleanAndOpen_grows e)

/-! ## The theorem -/

/-- A database file and its WAL. -/
structure Files where
  liveMissingOrEmpty : Bool
  database : List ℕ
  wal : Option Wal
  backup : Bool
  backupWal : Option Wal
  inUse : Bool

/-- The disk before a connect. -/
def Files.disk (f : Files) : Disk where
  liveMissingOrEmpty := f.liveMissingOrEmpty
  database := f.database
  wal := f.wal
  corrupt := none
  backup := f.backup
  backupWal := f.backupWal
  inUse := f.inUse
  removed := []

theorem Files.lossless (f : Files) : Lossless f.disk := fun _ h => nomatch h

theorem connect_eq (he : e.readOnly = false) :
    connect e = (recoverInterruptedCompaction e >>= fun _ => cleanAndOpen e) := by
  unfold connect cleanAndOpen
  rw [he]
  show (_ >>= fun _ => _ >>= fun _ => _) = _
  rfl

/-- Without an interrupted compaction the cleanup meets the WAL of the database. -/
theorem connect_uninterrupted (he : e.readOnly = false) (hd : Lossless d)
    (hb : ¬(d.backup = true ∧ d.liveMissingOrEmpty = true)) :
    Ok (connect e) d ↔ (e.dropsStaged = true → HasPrecious d → e.CleanupKeeps) := by
  rw [connect_eq he]
  obtain ⟨live, database, wal, corrupt, backup, backupWal, inUse, removed⟩ := d
  have hrun : ∃ t : Disk, (recoverInterruptedCompaction e >>= fun _ => cleanAndOpen e)
      ⟨live, database, wal, corrupt, backup, backupWal, inUse, removed⟩ = dropStagedAndOpen e t ∧
        t.wal = wal ∧ t.inUse = inUse ∧ t.removed = removed := by
    cases live with
    | true =>
      obtain rfl : backup = false := by simpa using hb
      exact ⟨_, rfl, rfl, rfl, rfl⟩
    | false =>
      refine ⟨⟨false, database, wal, corrupt, false, none, inUse, removed⟩, ?_, rfl, rfl, rfl⟩
      cases backup <;> rfl
  obtain ⟨t, hrun, rfl, rfl, rfl⟩ := hrun
  unfold Ok
  rw [hrun]
  exact dropStagedAndOpen_ok he (d := t) hd

/-- A backup without a WAL leaves the WAL of the database in its place. -/
theorem connect_restores (he : e.readOnly = false) (hr : e.restores = true)
    (hd : Lossless d) (hb : d.backup = true) (hl : d.liveMissingOrEmpty = true)
    (hw : d.backupWal = none) :
    Ok (connect e) d ↔ (e.dropsStaged = true → HasPrecious d → e.CleanupKeeps) := by
  rw [connect_eq he]
  obtain ⟨live, database, wal, corrupt, backup, backupWal, inUse, removed⟩ := d
  obtain rfl : backup = true := hb
  obtain rfl : live = true := hl
  obtain rfl : backupWal = none := hw
  have hrun : (recoverInterruptedCompaction e >>= fun _ => cleanAndOpen e)
      ⟨true, database, wal, corrupt, true, none, inUse, removed⟩ =
      dropStagedAndOpen e ⟨false, database, wal, corrupt, false, none, inUse, removed⟩ := by
    simp only [recoverInterruptedCompaction, hr]
    rfl
  unfold Ok
  rw [hrun]
  exact dropStagedAndOpen_ok (d := ⟨false, database, wal, corrupt, false, none, inUse, removed⟩)
    he hd

/-- The WAL of a backup replaces the WAL of the database, which is removed. -/
theorem connect_replaces (he : e.readOnly = false) (hr : e.restores = true)
    (hu : e.unlinksWal = true) (hd : Lossless d) (hb : d.backup = true)
    (hl : d.liveMissingOrEmpty = true) (hw : d.backupWal = some w) :
    Ok (connect e) d ↔ ¬HasPrecious d ∧
      (e.replacesWal = true → e.dropsStaged = true → Precious d.inUse w → e.CleanupKeeps) := by
  have hremove := lossless_removeWal hd
  rw [connect_eq he]
  obtain ⟨live, database, wal, corrupt, backup, backupWal, inUse, removed⟩ := d
  obtain rfl : backup = true := hb
  obtain rfl : live = true := hl
  obtain rfl : backupWal = some w := hw
  cases hrep : e.replacesWal with
  | false =>
    have hrun : Ok (recoverInterruptedCompaction e >>= fun _ => cleanAndOpen e)
        ⟨true, database, wal, corrupt, true, some w, inUse, removed⟩ ↔
        Lossless (Disk.removeWal ⟨true, database, wal, corrupt, true, some w, inUse, removed⟩) := by
      simp only [Ok, recoverInterruptedCompaction, hr, hu, hrep]
      rfl
    rw [hrun, hremove]
    exact ⟨fun h => ⟨h, nofun⟩, fun h => h.1⟩
  | true =>
    have hrun : Ok (recoverInterruptedCompaction e >>= fun _ => cleanAndOpen e)
        ⟨true, database, wal, corrupt, true, some w, inUse, removed⟩ ↔
        Ok (dropStagedAndOpen e) ⟨false, database, some w, corrupt, false, none, inUse,
          wal.toList ++ removed⟩ := by
      simp only [Ok, recoverInterruptedCompaction, hr, hu, hrep]
      rfl
    have hlossless : Lossless ⟨false, database, some w, corrupt, false, none, inUse,
        wal.toList ++ removed⟩ ↔ _ := hremove
    rw [hrun]
    by_cases hp : HasPrecious ⟨true, database, wal, corrupt, true, some w, inUse, removed⟩
    · have hlost := dropStagedAndOpen_grows e _ fun h => hlossless.1 h hp
      exact iff_of_false hlost.state fun h => h.1 hp
    · have hmet : HasPrecious ⟨false, database, some w, corrupt, false, none, inUse,
          wal.toList ++ removed⟩ ↔ Precious inUse w := hasPrecious_iff rfl
      rw [dropStagedAndOpen_ok he (hlossless.2 hp), hmet]
      exact ⟨fun h => ⟨hp, fun _ => h⟩, fun h => h.2 rfl⟩

/-- A recovery that stops before it touches a WAL. -/
theorem connect_stops (he : e.readOnly = false) (hd : Lossless d)
    (hb : d.backup = true) (hl : d.liveMissingOrEmpty = true)
    (hstop : e.restores = true → (∃ w, d.backupWal = some w) ∧ e.unlinksWal = false) :
    Ok (connect e) d := by
  rw [connect_eq he]
  obtain ⟨live, database, wal, corrupt, backup, backupWal, inUse, removed⟩ := d
  obtain rfl : backup = true := hb
  obtain rfl : live = true := hl
  cases hr : e.restores with
  | false =>
    simp only [Ok, recoverInterruptedCompaction, hr]
    exact hd
  | true =>
    obtain ⟨⟨w, hw⟩, hu⟩ := hstop hr
    obtain rfl : backupWal = some w := hw
    simp only [Ok, recoverInterruptedCompaction, hr, hu]
    exact hd

/-- A connect removes no WAL that is one to keep exactly when `Keeps`. -/
theorem connect_lossless_iff (f : Files) (e : Env) : Ok (connect e) f.disk ↔ Keeps f.disk e := by
  have hd := f.lossless
  generalize f.disk = d at hd
  unfold Keeps
  cases he : e.readOnly with
  | true =>
    refine iff_of_true ?_ nofun
    unfold connect
    rw [he]
    exact openAndRun_readOnly he hd
  | false =>
    refine Iff.trans ?_ ⟨fun h _ => h, fun h => h rfl⟩
    by_cases hb : d.backup = true ∧ d.liveMissingOrEmpty = true
    · rw [if_pos hb]
      cases hr : e.restores with
      | false => exact iff_of_true (connect_stops he hd hb.1 hb.2 (by simp [hr])) nofun
      | true =>
        refine Iff.trans ?_ ⟨fun h _ => h, fun h => h rfl⟩
        cases hw : d.backupWal with
        | none => exact connect_restores he hr hd hb.1 hb.2 hw
        | some w =>
          cases hu : e.unlinksWal with
          | false =>
            exact iff_of_true (connect_stops he hd hb.1 hb.2 fun _ => ⟨⟨w, hw⟩, hu⟩)
              nofun
          | true =>
            exact (connect_replaces he hr hu hd hb.1 hb.2 hw).trans
              ⟨fun h _ => h, fun h => h rfl⟩
    · rw [if_neg hb]
      exact connect_uninterrupted he hd hb

/-- Another process holds the database open and has not written to it for a day. -/
def idleWriter : Files := ⟨false, [], some ⟨[1], true⟩, false, none, true⟩

/-- The recovery cannot attach a database that is locked. -/
def locked : Recovery := ⟨true, false, false, false, true, true⟩

def afterADay : Env where
  readOnly := false
  restores := true
  unlinksWal := true
  replacesWal := true
  dropsStaged := true
  walAge := some 90000
  stale := locked
  validation := some "Conflicting lock is held"
  invalid := locked
  opens := some "Conflicting lock is held"
  corrupt := locked
  reopens := false
  loads := true
  creates := true
  walCleanupDone := false
  executorWalAge := none
  unlinksStale := true
  selects := true
  unlinksInvalid := true
  recreates := true

/-- The WAL of the other process is moved aside. -/
theorem idleWriter_loses : ¬Ok (connect afterADay) idleWriter.disk := by
  unfold Ok
  decide

end ChunkHound.WalCleanup
