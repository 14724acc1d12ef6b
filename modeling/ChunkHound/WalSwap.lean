import ChunkHound.CompactionSafety

/-!
# The WAL beside a database file

A database is a main file and, next to it, a `.wal`. `rename_db_with_wal` moves the two in
separate steps, after it removed the WAL at the destination. `WalDisk` is the disk of
`CompactionSwap` with the WALs, and the functions of `recovery.rs` are programs over it, step by
step. `α` names databases : a main file is the file of one, and a WAL belongs to one.

A compaction whose first rename is cut between the two steps leaves the WAL at the live path,
where the recovery removes it before it moves the main file back; a recovery that is cut
there leaves the WAL at `.old`. Cut anywhere else, any number of times, the database comes
back with its WAL (`live_with_wal_iff`).
-/

namespace ChunkHound.WalSwap

open CrashHoare

/-- A main file. Zero length is how it is first created. -/
inductive MainFile (α : Type)
  | zeroLength
  | image (db : α)

/-- What is at one path, and at its `.wal`. -/
structure DbFiles (α : Type) where
  main : Option (MainFile α)
  wal : Option α

/-- The three databases and the intent. -/
structure WalDisk (α : Type) where
  live : DbFiles α
  old : DbFiles α
  compact : DbFiles α
  intent : Option SwapIntent

variable {α : Type}

namespace WalDisk

def files (d : WalDisk α) : DbPath → DbFiles α
  | .live => d.live
  | .old => d.old
  | .compact => d.compact

def setFiles (d : WalDisk α) (path : DbPath) (f : DbFiles α) : WalDisk α :=
  match path with
  | .live => { d with live := f }
  | .old => { d with old := f }
  | .compact => { d with compact := f }

def setMain (d : WalDisk α) (path : DbPath) (main : Option (MainFile α)) : WalDisk α :=
  d.setFiles path { d.files path with main := main }

def setWal (d : WalDisk α) (path : DbPath) (wal : Option α) : WalDisk α :=
  d.setFiles path { d.files path with wal := wal }

end WalDisk

/-- A program on the files of one database. -/
abbrev WalM (α : Type) := Prog (WalDisk α) SwapError

/-- Absent, or a zero-length file. -/
def isMissingOrEmpty : Option (MainFile α) → Bool
  | none => true
  | some .zeroLength => true
  | some (.image _) => false

/-! ## File operations -/

/-- `remove_file` of a main file. -/
def removeMain (path : DbPath) : WalM α Unit :=
  Prog.act .io fun d => (d.files path).main.map fun _ => d.setMain path none

/-- `remove_file` of a WAL. -/
def removeWal (path : DbPath) : WalM α Unit :=
  Prog.act .io fun d => (d.files path).wal.map fun _ => d.setWal path none

/-- `rename` of a main file, over whatever is at `dst`. -/
def renameMain (src dst : DbPath) : WalM α Unit :=
  Prog.act .io fun d => (d.files src).main.map fun f => (d.setMain dst (some f)).setMain src none

/-- `rename` of a WAL. -/
def renameWal (src dst : DbPath) : WalM α Unit :=
  Prog.act .io fun d => (d.files src).wal.map fun w => (d.setWal dst (some w)).setWal src none

/-- Remove the WAL at a path, where there is one. -/
def clearWal (path : DbPath) : WalM α Unit := do
  let d ← Prog.get
  if (d.files path).wal.isSome then
    removeWal path
  else
    pure ()

/-- Move the WAL of the source after its main file, where there is one. -/
def moveWal (src dst : DbPath) : WalM α Unit := do
  let d ← Prog.get
  if (d.files src).wal.isSome then
    renameWal src dst
  else
    pure ()

/-- A stale log of the target goes first. -/
def renameDbWithWal (src dst : DbPath) : WalM α Unit := do
  clearWal dst
  renameMain src dst
  moveWal src dst

/-- The log is removed if it can be. -/
def removeDbFile (path : DbPath) : WalM α Unit := do
  removeMain path
  Prog.attempt (removeWal path)

/-- Both are removed if they can be. -/
def removeDbFileBestEffort (path : DbPath) : WalM α Unit := do
  Prog.attempt (removeMain path)
  Prog.attempt (removeWal path)

def removeIntent : WalM α Unit :=
  Prog.act .io fun d => d.intent.map fun _ => { d with intent := none }

/-! ## Recovery -/

/-- Remove the live file, where there is one. -/
def removeLive : WalM α Unit := do
  let d ← Prog.get
  if d.live.main.isSome then
    removeDbFile .live
  else
    pure ()

/-- Put `.old` back where the live database is gone. -/
def restoreOld (phase : String) : WalM α Unit := do
  let d ← Prog.get
  if d.old.main.isSome ∧ isMissingOrEmpty d.live.main then
    removeLive
    renameDbWithWal .old .live
  else if ¬d.old.main.isSome ∧ isMissingOrEmpty d.live.main then
    Prog.throw
      (.other s!"{phase} crash recovery: live db and .old backup both missing")
  else
    pure ()

/-- Put `.old` back and drop the intent. -/
def recoverPreSwapOrPhase1 (phase : String) : WalM α Unit := do
  restoreOld phase
  Prog.attempt removeIntent

/-- Put `.compact` in place, or `.old` where there is none. -/
def finishPhase2 : WalM α Unit := do
  let d ← Prog.get
  if d.compact.main.isSome then
    removeLive
    renameDbWithWal .compact .live
  else if isMissingOrEmpty d.live.main then
    if d.old.main.isSome then
      removeLive
      renameDbWithWal .old .live
    else
      Prog.throw (.other "phase2 crash recovery: no compact, live db, or .old backup")
  else
    pure ()

/-- Drop `.old` once the live database stands. -/
def dropBackup : WalM α Unit := do
  let d ← Prog.get
  if ¬isMissingOrEmpty d.live.main ∧ ¬d.compact.main.isSome then
    removeDbFileBestEffort .old
    Prog.attempt removeIntent
  else
    pure ()

/-- Finish the swap and drop the backup. -/
def recoverPhase2 : WalM α Unit := do
  finishPhase2
  dropBackup

/-- Recovery by the intent that is found. -/
def recoverSwapIntent : WalM α RecoveredSwap := do
  let d ← Prog.get
  if d.intent.isNone then
    return .none
  let intent ← Prog.query (.other "swap_intent present but unreadable")
    fun d : WalDisk α => d.intent
  match intent with
  | .preSwap =>
    recoverPreSwapOrPhase1 "pre-swap"
    return .preSwap
  | .phase1 =>
    recoverPreSwapOrPhase1 "phase1"
    return .phase1
  | .phase2 =>
    recoverPhase2
    return .phase2
  | .other text => Prog.throw (.other s!"unrecognized swap_intent {text}")

/-! ## Where a rename is cut -/

/-- The main file has moved, and its WAL has not. One action comes first where there is a WAL
to remove at the destination. -/
def SplitsRename (src dst : DbPath) (d : WalDisk α) (os : List Outcome) : Prop :=
  (d.files src).wal.isSome = true ∧
    effects os = if (d.files dst).wal.isSome then 2 else 1

/-- The recovery moves `.old` back, and is cut there. -/
def SplitsRecovery (d : WalDisk α) (os : List Outcome) : Prop :=
  d.intent = some .preSwap ∧ d.live.main = none ∧ d.old.main.isSome = true ∧
    ∃ os', os = .ok :: os' ∧ SplitsRename .old .live d os'

/-- The disk after some recoveries, killed or not. -/
def afterRecoveries : WalDisk α → List (List Outcome) → WalDisk α
  | d, [] => d
  | d, os :: recs => afterRecoveries (recoverSwapIntent d os).state recs

/-- No recovery separates a main file from its WAL. -/
def NoneSplits : WalDisk α → List (List Outcome) → Prop
  | _, [] => True
  | d, os :: recs => ¬SplitsRecovery d os ∧ NoneSplits (recoverSwapIntent d os).state recs

section Swap

variable {db : α}

/-- The main file is live, with this WAL beside it. -/
structure Landed (db : α) (wal : Option α) (d : WalDisk α) : Prop where
  live : d.live = ⟨some (.image db), wal⟩
  intent : d.intent = some .preSwap ∨ d.intent = none

/-- The database is at `.old`, with its WAL. -/
structure Aside (db : α) (d : WalDisk α) : Prop where
  live : d.live = ⟨none, none⟩
  old : d.old = ⟨some (.image db), some db⟩
  intent : d.intent = some .preSwap

/-- The main file is at `.old`, and its WAL is not. -/
structure Parted (db : α) (d : WalDisk α) : Prop where
  live : d.live.main = none
  old : d.old = ⟨some (.image db), none⟩
  intent : d.intent = some .preSwap

/-- The rename of a compaction, cut anywhere. -/
theorem renameLiveOld_run (db : α) (old compact : DbFiles α) (os : List Outcome) :
    let d : WalDisk α := ⟨⟨some (.image db), some db⟩, old, compact, some .preSwap⟩
    (SplitsRename .live .old d os → Parted db (renameDbWithWal .live .old d os).state) ∧
      (¬SplitsRename .live .old d os →
        Aside db (renameDbWithWal .live .old d os).state ∨
          Landed db (some db) (renameDbWithWal .live .old d os).state) := by
  obtain ⟨main, wal⟩ := old
  intro d
  cases wal with
  | none =>
    have hsplits : SplitsRename .live .old d os ↔ effects os = 1 :=
      ⟨fun h => h.2, fun h => ⟨rfl, h⟩⟩
    rw [hsplits]
    match os with
    | [] => exact ⟨nofun, fun _ => Or.inr ⟨rfl, Or.inl rfl⟩⟩
    | .failed :: _ => exact ⟨nofun, fun _ => Or.inr ⟨rfl, Or.inl rfl⟩⟩
    | .failedAfter :: _ => exact ⟨fun _ => ⟨rfl, rfl, rfl⟩, fun h => absurd rfl h⟩
    | [.ok] => exact ⟨fun _ => ⟨rfl, rfl, rfl⟩, fun h => absurd rfl h⟩
    | .ok :: .failed :: _ => exact ⟨fun _ => ⟨rfl, rfl, rfl⟩, fun h => absurd rfl h⟩
    | .ok :: .failedAfter :: _ => exact ⟨nofun, fun _ => Or.inl ⟨rfl, rfl, rfl⟩⟩
    | .ok :: .ok :: _ =>
      exact ⟨fun h => absurd h (by simp [effects]), fun _ => Or.inl ⟨rfl, rfl, rfl⟩⟩
  | some w =>
    -- The WAL at the destination is removed first.
    have hsplits : SplitsRename .live .old d os ↔ effects os = 2 :=
      ⟨fun h => h.2, fun h => ⟨rfl, h⟩⟩
    rw [hsplits]
    match os with
    | [] => exact ⟨nofun, fun _ => Or.inr ⟨rfl, Or.inl rfl⟩⟩
    | .failed :: _ => exact ⟨nofun, fun _ => Or.inr ⟨rfl, Or.inl rfl⟩⟩
    | .failedAfter :: _ => exact ⟨nofun, fun _ => Or.inr ⟨rfl, Or.inl rfl⟩⟩
    | [.ok] => exact ⟨nofun, fun _ => Or.inr ⟨rfl, Or.inl rfl⟩⟩
    | .ok :: .failed :: _ => exact ⟨nofun, fun _ => Or.inr ⟨rfl, Or.inl rfl⟩⟩
    | .ok :: .failedAfter :: _ => exact ⟨fun _ => ⟨rfl, rfl, rfl⟩, fun h => absurd rfl h⟩
    | [.ok, .ok] => exact ⟨fun _ => ⟨rfl, rfl, rfl⟩, fun h => absurd rfl h⟩
    | .ok :: .ok :: .failed :: _ => exact ⟨fun _ => ⟨rfl, rfl, rfl⟩, fun h => absurd rfl h⟩
    | .ok :: .ok :: .failedAfter :: _ => exact ⟨nofun, fun _ => Or.inl ⟨rfl, rfl, rfl⟩⟩
    | .ok :: .ok :: .ok :: _ =>
      exact ⟨fun h => absurd h (by simp [effects]), fun _ => Or.inl ⟨rfl, rfl, rfl⟩⟩

/-! ## One recovery -/

/-- A recovery that only finds a pre-swap intent, or none. -/
theorem recoverSwapIntent_of_preSwap {P Q C : WalDisk α → Prop}
    (hi : ∀ d, P d → d.intent = some .preSwap ∨ d.intent = none) (hPC : ∀ d, P d → C d)
    (hnone : ∀ d, P d → d.intent = none → Q d)
    (hpre : Triple (fun d => P d ∧ d.intent = some .preSwap) (recoverPreSwapOrPhase1 "pre-swap")
      (fun _ => Q) C) :
    Triple P recoverSwapIntent (fun _ => Q) C := by
  refine Triple.get_bind fun d hd => ?_
  rcases hi d hd with hd' | hd'
  · rw [if_neg (by simp [hd'])]
    refine Triple.bind (Triple.query fun s hs => hs ▸ hPC d hd) fun intent => ?_
    have hintent : ∀ s : WalDisk α, s = d ∧ s.intent = some intent → intent = .preSwap := by
      rintro _ ⟨rfl, hs⟩
      exact Option.some.inj (hs.symm.trans hd')
    cases intent with
    | preSwap =>
      refine Triple.seq (M := Q) ?_ (Triple.pure _ fun _ h => h)
      refine hpre.pre ?_
      rintro _ ⟨rfl, -⟩
      exact ⟨hd, hd'⟩
    | phase1 => exact Triple.vacuous fun s hs => nomatch hintent s hs
    | phase2 => exact Triple.vacuous fun s hs => nomatch hintent s hs
    | other text => exact Triple.vacuous fun s hs => nomatch hintent s hs
  · rw [if_pos (by simp [hd'])]
    refine Triple.pure _ ?_
    rintro _ rfl
    exact hnone _ hd hd'

variable {wal : Option α}

theorem removeIntent_landed :
    Triple (Landed db wal) (Prog.attempt removeIntent) (fun _ => Landed db wal)
      (Landed db wal) := by
  refine Triple.attempt (Triple.act (fun _ h => h) fun d d' h hd => ?_) fun _ h => h
  obtain ⟨_, -, rfl⟩ := Option.map_eq_some_iff.1 hd
  exact ⟨⟨h.live, Or.inr rfl⟩, ⟨h.live, Or.inr rfl⟩⟩

/-- Recovery leaves a live database alone. -/
theorem recoverSwapIntent_landed :
    Triple (Landed db wal) recoverSwapIntent (fun _ => Landed db wal) (Landed db wal) := by
  refine recoverSwapIntent_of_preSwap (fun _ h => h.intent) (fun _ h => h) (fun _ h _ => h) ?_
  refine Triple.seq (M := Landed db wal) ?_ removeIntent_landed
  refine Triple.get_bind fun d hd => ?_
  have hlive : isMissingOrEmpty d.live.main = false := by
    rw [hd.1.live]
    rfl
  rw [if_neg (by simp [hlive]), if_neg (by simp [hlive])]
  refine Triple.pure _ ?_
  rintro _ rfl
  exact hd.1

/-- From `.old` alone the main file comes back alone. -/
theorem renameOldLive_parted :
    Triple (Parted db) (renameDbWithWal .old .live) (fun _ => Landed db none)
      (fun d => Parted db d ∨ Landed db none d) := by
  refine Triple.seq (M := fun d => Parted db d ∧ d.live.wal = none) ?_
    (Triple.seq (M := fun d => Landed db none d ∧ d.old.wal = none) ?_ ?_)
  · refine Triple.get_bind fun d hd => ?_
    split
    · refine Triple.act (by rintro _ rfl; exact Or.inl hd) ?_
      rintro _ d' rfl h
      obtain ⟨_, -, rfl⟩ := Option.map_eq_some_iff.1 h
      exact ⟨⟨⟨hd.live, hd.old, hd.intent⟩, rfl⟩, Or.inl ⟨hd.live, hd.old, hd.intent⟩⟩
    · rename_i hwal
      refine Triple.pure _ ?_
      rintro _ rfl
      exact ⟨hd, by simpa [WalDisk.files] using hwal⟩
  · refine Triple.act (fun d hd => Or.inl hd.1) fun d d' hd h => ?_
    obtain ⟨f, hf, rfl⟩ := Option.map_eq_some_iff.1 h
    have hold : d.old = ⟨some (.image db), none⟩ := hd.1.old
    have hfile : f = .image db := by
      rw [WalDisk.files, hold] at hf
      exact (Option.some.inj hf).symm
    subst hfile
    have hlive : Landed db none ((d.setMain .live (some (.image db))).setMain .old none) :=
      ⟨by show (⟨some (.image db), d.live.wal⟩ : DbFiles α) = _; rw [hd.2], Or.inl hd.1.intent⟩
    exact ⟨⟨hlive, by show d.old.wal = none; rw [hold]⟩, Or.inr hlive⟩
  · refine Triple.get_bind fun d hd => ?_
    rw [if_neg (by simp [WalDisk.files, hd.2])]
    refine Triple.pure _ ?_
    rintro _ rfl
    exact hd.1

/-- A WAL left behind at the live path is gone when the main file is back. -/
theorem recoverSwapIntent_parted :
    Triple (Parted db) recoverSwapIntent (fun _ => Landed db none)
      (fun d => Parted db d ∨ Landed db none d) := by
  refine recoverSwapIntent_of_preSwap (fun _ h => Or.inl h.intent) (fun _ h => Or.inl h)
    (fun _ h hi => by rw [h.intent] at hi; cases hi) ?_
  refine Triple.seq (M := Landed db none) ?_
    (removeIntent_landed.crash fun _ h => Or.inr h)
  refine Triple.get_bind fun d hd => ?_
  rw [if_pos ⟨by rw [hd.1.old]; rfl, by rw [hd.1.live]; rfl⟩]
  refine Triple.pre (P := Parted db) (Triple.seq (M := Parted db) ?_ renameOldLive_parted)
    fun s hs => hs ▸ hd.1
  refine Triple.get_bind fun d hd => ?_
  rw [if_neg (by simp [hd.live])]
  refine Triple.pure _ ?_
  rintro _ rfl
  exact hd

variable {d : WalDisk α}

theorem splitsRecovery_aside (h : Aside db d) {os : List Outcome} :
    SplitsRecovery d os ↔ ∃ os', os = .ok :: os' ∧ effects os' = 1 := by
  have hlive : (d.files .live).wal = none := by rw [WalDisk.files, h.live]
  have hold : (d.files .old).wal = some db := by rw [WalDisk.files, h.old]
  simp [SplitsRecovery, SplitsRename, hlive, hold, h.intent, h.live, h.old]

/-- The recovery that moves the database back, cut anywhere. -/
theorem recoverSwapIntent_aside (h : Aside db d) (os : List Outcome) :
    (SplitsRecovery d os → (recoverSwapIntent d os).Meets (fun _ _ => False) (Landed db none)) ∧
      (¬SplitsRecovery d os → (recoverSwapIntent d os).Meets (fun _ => Landed db (some db))
        fun d => Aside db d ∨ Landed db (some db) d) := by
  rw [splitsRecovery_aside h]
  obtain ⟨live, old, compact, intent⟩ := d
  obtain ⟨rfl, rfl, rfl⟩ := h
  match os with
  | [] => exact ⟨nofun, fun _ => Or.inl ⟨rfl, rfl, rfl⟩⟩
  | .failed :: _ => exact ⟨nofun, fun _ => Or.inl ⟨rfl, rfl, rfl⟩⟩
  | .failedAfter :: _ => exact ⟨nofun, fun _ => Or.inl ⟨rfl, rfl, rfl⟩⟩
  | .ok :: os =>
    have hsplits : (∃ os', .ok :: os = .ok :: os' ∧ effects os' = 1) ↔ effects os = 1 := by simp
    rw [hsplits]
    match os with
    | [] => exact ⟨nofun, fun _ => Or.inl ⟨rfl, rfl, rfl⟩⟩
    | .failed :: _ => exact ⟨nofun, fun _ => Or.inl ⟨rfl, rfl, rfl⟩⟩
    | .failedAfter :: _ => exact ⟨fun _ => ⟨rfl, Or.inl rfl⟩, fun h => absurd rfl h⟩
    | [.ok] => exact ⟨fun _ => ⟨rfl, Or.inl rfl⟩, fun h => absurd rfl h⟩
    | .ok :: .failed :: _ => exact ⟨fun _ => ⟨rfl, Or.inl rfl⟩, fun h => absurd rfl h⟩
    | .ok :: .failedAfter :: _ => exact ⟨nofun, fun _ => Or.inr ⟨rfl, Or.inl rfl⟩⟩
    | .ok :: .ok :: os =>
      -- Only the intent is left to remove.
      refine ⟨fun h => absurd h (by simp [effects]), fun _ => ?_⟩
      match os with
      | [] => exact Or.inr ⟨rfl, Or.inl rfl⟩
      | .failed :: _ => exact ⟨rfl, Or.inl rfl⟩
      | .failedAfter :: _ => exact ⟨rfl, Or.inr rfl⟩
      | .ok :: _ => exact ⟨rfl, Or.inr rfl⟩

/-! ## Any number of recoveries -/

/-- The database has its WAL with it, wherever it is. -/
def Kept (db : α) (d : WalDisk α) : Prop := Aside db d ∨ Landed db (some db) d

/-- The WAL is not with its database. -/
def Lost (db : α) (d : WalDisk α) : Prop := Parted db d ∨ Landed db none d

theorem recoverSwapIntent_lost :
    Triple (Lost db) recoverSwapIntent (fun _ => Landed db none) (Lost db) :=
  Triple.or_pre recoverSwapIntent_parted (recoverSwapIntent_landed.crash fun _ h => Or.inr h)

theorem afterRecoveries_lost {d : WalDisk α} (h : Lost db d) :
    ∀ recs : List (List Outcome), Lost db (afterRecoveries d recs)
  | [] => h
  | os :: recs => by
    have hm : (recoverSwapIntent d os).Meets (fun _ => Lost db) (Lost db) :=
      (recoverSwapIntent_lost d h os).mono fun _ _ hl => Or.inr hl
    exact afterRecoveries_lost hm.state recs

/-- A live database is not renamed. -/
theorem Landed.not_splits (h : Landed db wal d) (os : List Outcome) : ¬SplitsRecovery d os := by
  rintro ⟨-, hlive, -⟩
  rw [h.live] at hlive
  cases hlive

theorem recoverSwapIntent_kept (h : Kept db d) (os : List Outcome) :
    (SplitsRecovery d os → (recoverSwapIntent d os).Meets (fun _ _ => False) (Lost db)) ∧
      (¬SplitsRecovery d os →
        (recoverSwapIntent d os).Meets (fun _ => Landed db (some db)) (Kept db)) := by
  rcases h with h | h
  · have hrun := recoverSwapIntent_aside h os
    refine ⟨fun hs => ?_, hrun.2⟩
    exact (hrun.1 hs).crash fun _ hl => Or.inr hl
  · refine ⟨fun hs => absurd hs (h.not_splits os), fun _ => ?_⟩
    exact (recoverSwapIntent_landed.crash fun _ hl => Or.inr hl) d h os

/-- The recoveries keep the WAL with its database unless one of them is cut between the two
renames. -/
theorem afterRecoveries_kept :
    ∀ (recs : List (List Outcome)) {d : WalDisk α}, Kept db d →
      (NoneSplits d recs → Kept db (afterRecoveries d recs)) ∧
        (¬NoneSplits d recs → Lost db (afterRecoveries d recs))
  | [], _, h => ⟨fun _ => h, fun hs => absurd trivial hs⟩
  | os :: recs, d, h => by
    have hrun := recoverSwapIntent_kept h os
    by_cases hs : SplitsRecovery d os
    · have hlost : Lost db (recoverSwapIntent d os).state :=
        ((hrun.1 hs).mono fun _ _ hf => hf.elim).state
      exact ⟨fun hn => absurd hs hn.1, fun _ => afterRecoveries_lost hlost recs⟩
    · have hkept : Kept db (recoverSwapIntent d os).state :=
        ((hrun.2 hs).mono fun _ _ hl => Or.inr hl).state
      have ih := afterRecoveries_kept recs hkept
      refine ⟨fun hn => ih.1 hn.2, fun hn => ih.2 fun hrecs => hn ⟨hs, hrecs⟩⟩

/-- The rename of a compaction is cut anywhere, and recovered any number of times. Whenever a
recovery returns, the database is live. It has its WAL beside it, and no other, exactly when
neither the rename nor a recovery was cut between the main file and the WAL. -/
theorem live_with_wal_iff (db : α) (old compact : DbFiles α) (os : List Outcome)
    (recs : List (List Outcome)) (osLast rest : List Outcome) (recovered : RecoveredSwap)
    (d' : WalDisk α) :
    let start : WalDisk α := ⟨⟨some (.image db), some db⟩, old, compact, some .preSwap⟩
    let cut := (renameDbWithWal .live .old start os).state
    recoverSwapIntent (afterRecoveries cut recs) osLast = .done recovered d' rest →
      d'.live.main = some (.image db) ∧
        (d'.live = ⟨some (.image db), some db⟩ ↔
          ¬SplitsRename .live .old start os ∧ NoneSplits cut recs) := by
  intro start cut hr
  have hlost : Lost db (afterRecoveries cut recs) → d'.live = ⟨some (.image db), none⟩ :=
    fun h => (recoverSwapIntent_lost.of_done h hr).live
  have hkept : Kept db (afterRecoveries cut recs) →
      d'.live = ⟨some (.image db), some db⟩ := by
    intro h
    have hrun := recoverSwapIntent_kept h osLast
    by_cases hs : SplitsRecovery (afterRecoveries cut recs) osLast
    · have hm := hrun.1 hs
      rw [hr] at hm
      exact hm.elim
    · have hm := hrun.2 hs
      rw [hr] at hm
      exact hm.live
  have hrename := renameLiveOld_run db old compact os
  by_cases hs : SplitsRename .live .old start os
  · have hd' := hlost (afterRecoveries_lost (Or.inl (hrename.1 hs)) recs)
    rw [hd']
    exact ⟨rfl, nofun, fun h => absurd hs h.1⟩
  · have hrecs := afterRecoveries_kept recs (hrename.2 hs)
    by_cases hn : NoneSplits cut recs
    · have hd' := hkept (hrecs.1 hn)
      rw [hd']
      exact ⟨rfl, fun _ => ⟨hs, hn⟩, fun _ => rfl⟩
    · have hd' := hlost (hrecs.2 hn)
      rw [hd']
      exact ⟨rfl, nofun, fun h => absurd h.2 hn⟩

end Swap

/-- A compaction and two recoveries : the first one is killed before it moves anything. -/
theorem live_with_wal_iff_two :
    let start : WalDisk ℕ :=
      ⟨⟨some (.image 7), some 7⟩, ⟨none, some 3⟩, ⟨none, none⟩, some .preSwap⟩
    let cut := (renameDbWithWal .live .old start [.ok, .ok, .ok]).state
    ∃ d', recoverSwapIntent (afterRecoveries cut [[.ok]]) (List.replicate 4 .ok) =
        .done .preSwap d' [] ∧
      d'.live.main = some (.image 7) ∧
        (d'.live = ⟨some (.image 7), some 7⟩ ↔
          ¬SplitsRename .live .old start [.ok, .ok, .ok] ∧ NoneSplits cut [[.ok]]) :=
  ⟨_, rfl, live_with_wal_iff 7 ⟨none, some 3⟩ ⟨none, none⟩ [.ok, .ok, .ok] [[.ok]]
    (List.replicate 4 .ok) [] .preSwap _ rfl⟩

/-- Killed between the two renames : the recovery deletes the WAL that stayed behind, and
returns with the main file alone. -/
theorem live_without_wal :
    let start : WalDisk ℕ :=
      ⟨⟨some (.image 7), some 7⟩, ⟨none, none⟩, ⟨none, none⟩, some .preSwap⟩
    ∃ d', recoverSwapIntent (renameDbWithWal .live .old start [.ok]).state
        (List.replicate 4 .ok) = .done .preSwap d' [] ∧
      d'.live = ⟨some (.image 7), none⟩ ∧ d'.old.wal = none ∧
      d'.live ≠ ⟨some (.image 7), some 7⟩ :=
  ⟨_, rfl, rfl, rfl, nofun⟩

end ChunkHound.WalSwap
