import ChunkHound.StepSystem

/-!
# A compaction and a second process

Two processes over one database path, `.compact_backup` and `.compact_new`, one step at a time.
A file is an inode : renames move it, and DuckDB locks the one a process has open. While a
compaction swaps the files it has none open at the live path, and its flag is one of its own
process : a second process that connects then recovers the backup of a compaction that is
running (`recovered_midway`).

A transaction is a number, and an inode without tables has no list of them. Where no connect of
one process overlaps a compaction of the other, every committed transaction is in the live file,
or in the backup that will be moved back (`kept_of_apart`). What a compaction copies is the subject
of `ProviderSafety`. A step of a compaction may raise at any time, one of `connect` or of the
restore where the files make it. There is no WAL once a connection is closed, and a file that
DuckDB creates is never seen with size zero.
-/

namespace ChunkHound.TwoProcesses

open StepSystem

/-- Where a process is. In `connect` : before the test, before each step of
`_recover_interrupted_compaction`, before `duckdb.connect`. In a compaction : after the close,
and after each later step of `_compact_prepare`, `_compact_copy_data` and `_compact_finalize`,
with the inodes of its backup and its new file. In `_compact_restore` : before each step. -/
inductive Phase
  | disconnected
  | movingLive
  | movingBackup
  | dropping
  | unlinking
  | opening
  | connected (i : ℕ)
  | closed
  | dropped
  | cleared
  | aside (i : ℕ)
  | created (i j : ℕ)
  | attached (i j : ℕ)
  | copied (i j : ℕ)
  | swapped (i : ℕ)
  | reopened (i j : ℕ)
  | restoring
  | restored
  | restoredAlone
  deriving DecidableEq

namespace Phase

/-- The inodes a process has open. -/
def openFiles : Phase → List ℕ
  | .connected i => [i]
  | .created _ j => [j]
  | .attached i j => [i, j]
  | .reopened _ j => [j]
  | _ => []

/-- In `connect`. -/
def connecting : Phase → Bool
  | .movingLive => true
  | .movingBackup => true
  | .dropping => true
  | .unlinking => true
  | .opening => true
  | _ => false

/-- In a compaction that may raise. -/
def compacting : Phase → Bool
  | .closed => true
  | .dropped => true
  | .cleared => true
  | .aside _ => true
  | .created _ _ => true
  | .attached _ _ => true
  | .copied _ _ => true
  | .swapped _ => true
  | .reopened _ _ => true
  | _ => false

/-- From the close to the end of a compaction. -/
def swapping : Phase → Bool
  | .restoring => true
  | .restored => true
  | .restoredAlone => true
  | phase => phase.compacting

/-- The backup of a compaction. -/
def backup : Phase → Option ℕ
  | .aside i => some i
  | .created i _ => some i
  | .attached i _ => some i
  | .copied i _ => some i
  | .swapped i => some i
  | .reopened i _ => some i
  | _ => none

/-- Its new file, until it is moved to the live path. -/
def compacted : Phase → Option ℕ
  | .created _ j => some j
  | .attached _ j => some j
  | .copied _ j => some j
  | _ => none

end Phase

/-- `content` is what is committed in an inode, and `next` an inode never used. `committed` are the
transactions whose commit returned, in either process. -/
structure Shared where
  content : ℕ → Option (List ℕ)
  next : ℕ
  live : Option ℕ
  backup : Option ℕ
  compacted : Option ℕ
  committed : List ℕ
  phases : Bool → Phase

inductive Act
  | next
  | write (t : ℕ)
  | compact
  | raise
  deriving DecidableEq

namespace Shared

def goto (s : Shared) (who : Bool) (phase : Phase) : Shared :=
  { s with phases := Function.update s.phases who phase }

/-- An inode for a new file. -/
def create (s : Shared) : Shared × ℕ :=
  ({ s with content := Function.update s.content s.next none, next := s.next + 1 }, s.next)

/-- `duckdb.connect` of the file at a path : none when the other process has it open, and a new
one where there is none. -/
def duckdbConnect (s : Shared) (who : Bool) (file : Option ℕ) : Option (Shared × ℕ) :=
  match file with
  | some i => if i ∈ (s.phases !who).openFiles then none else some (s, i)
  | none => some s.create

/-- `_executor_create_schema`. -/
def createSchema (s : Shared) (i : ℕ) : Shared :=
  { s with content := Function.update s.content i (some ((s.content i).getD [])) }

/-- `connect`, and the end of `_compact_restore` : a connection to the live path, with the
schema. -/
def connectLive (s : Shared) (who : Bool) : Shared :=
  match s.duckdbConnect who s.live with
  | none => s.goto who .disconnected
  | some (s, i) => ({ s with live := some i }.createSchema i).goto who (.connected i)

/-- The next step of a process that does nothing but go on. -/
def advance (s : Shared) (who : Bool) : Shared :=
  match s.phases who with
  | .disconnected => s.goto who
      (if s.live.isSome then .dropping else if s.backup.isSome then .movingLive else .unlinking)
  | .movingLive => { s with live := none }.goto who .movingBackup
  | .movingBackup =>
    match s.backup with
    | some i => { s with live := some i, backup := none }.goto who .unlinking
    | none => s.goto who .disconnected
  | .dropping => { s with backup := none }.goto who .unlinking
  | .unlinking => { s with compacted := none }.goto who .opening
  | .opening => s.connectLive who
  | .connected _ => s.goto who .disconnected
  | .closed => { s with backup := none }.goto who .dropped
  | .dropped => { s with compacted := none }.goto who .cleared
  | .cleared =>
    match s.live with
    | some i => { s with live := none, backup := some i }.goto who (.aside i)
    | none => s.goto who .restoring
  | .aside i =>
    match s.duckdbConnect who s.compacted with
    | some (s, j) => { s with compacted := some j }.goto who (.created i j)
    | none => s.goto who .restoring
  | .created _ j =>
    match s.duckdbConnect who s.backup with
    | some (s, i) => { s with backup := some i }.goto who (.attached i j)
    | none => s.goto who .restoring
  | .attached i j =>
    match s.content i with
    | some ts => { s with content := Function.update s.content j (some ts) }.goto who (.copied i j)
    | none => s.goto who .restoring
  | .copied i _ =>
    match s.compacted with
    | some j => { s with live := some j, compacted := none }.goto who (.swapped i)
    | none => s.goto who .restoring
  | .swapped i =>
    match s.duckdbConnect who s.live with
    | none => s.goto who .restoring
    | some (s, j) =>
      { s with live := some j }.goto who
        (if (s.content j).isSome then .reopened i j else .restoring)
  | .reopened _ j => { s with backup := none }.goto who (.connected j)
  | .restoring =>
    match s.backup with
    | some i => { s with live := some i, backup := none }.goto who .restored
    | none => s.goto who .restored
  | .restored => { s with compacted := none }.goto who .restoredAlone
  | .restoredAlone => s.connectLive who

/-- One step of a process. A compaction goes on by itself, and may raise at any step. -/
def step (s : Shared) (a : Bool × Act) : Option Shared :=
  match a.2, s.phases a.1 with
  | .next, _ => some (s.advance a.1)
  | .write t, .connected i =>
    (s.content i).map fun ts =>
      { s with
        content := Function.update s.content i (some (ts ++ [t]))
        committed := s.committed ++ [t] }
  | .compact, .connected _ => some (s.goto a.1 .closed)
  | .raise, phase => if phase.compacting then some (s.goto a.1 .restoring) else none
  | _, _ => none

/-- Two processes that are not connected, and a database without files of a compaction. -/
def start (ts : List ℕ) : Shared where
  content := fun i => if i = 0 then some ts else none
  next := 1
  live := some 0
  backup := none
  compacted := none
  committed := ts
  phases := fun _ => .disconnected

/-- Everything that was committed is in the file at a path. -/
def HasData (s : Shared) (file : Option ℕ) : Prop :=
  ∃ i ts, file = some i ∧ s.content i = some ts ∧ s.committed ⊆ ts

/-- Nothing is lost, and the files of a running compaction are where it put them. -/
structure Kept (s : Shared) : Prop where
  data : s.HasData s.live ∨
    ∃ who, (s.phases who).swapping = true ∧ s.live = none ∧ s.HasData s.backup
  backup : ∀ who i, (s.phases who).backup = some i → s.backup = some i
  compacted : ∀ who j, (s.phases who).compacted = some j → s.compacted = some j

/-- No connect of a process overlaps a compaction of the other. -/
def Apart (s : Shared) (a : Bool × Act) : Prop :=
  (a.2 = .next → (s.phases a.1 = .disconnected ∨ (s.phases a.1).connecting = true) →
    (s.phases !a.1).swapping = false) ∧
  (a.2 = .compact → (s.phases !a.1).connecting = false)

instance (s : Shared) (a : Bool × Act) : Decidable (Apart s a) :=
  inferInstanceAs (Decidable (_ ∧ _))

/-! ## Calm and swapping -/

/-- Outside a compaction. -/
def Quiet (s : Shared) : Phase → Prop
  | .disconnected => True
  | .dropping => True
  | .unlinking => True
  | .opening => True
  | .connected i => s.live = some i
  | _ => False

/-- No compaction runs. -/
structure Calm (s : Shared) : Prop where
  data : s.HasData s.live
  backup : s.backup = none
  quiet : ∀ who, s.Quiet (s.phases who)
  alone : ∀ who i j, s.phases who = .connected i → s.phases (!who) ≠ .connected j

/-- What a compaction has done so far. -/
def Swapping (s : Shared) : Phase → Prop
  | .closed => s.HasData s.live ∧ s.backup = none
  | .dropped => s.HasData s.live ∧ s.backup = none
  | .cleared => s.HasData s.live ∧ s.backup = none ∧ s.compacted = none
  | .aside i => s.live = none ∧ s.backup = some i ∧ s.HasData (some i) ∧ s.compacted = none
  | .created i j => s.live = none ∧ s.backup = some i ∧ s.HasData (some i) ∧
      s.compacted = some j ∧ i ≠ j
  | .attached i j => s.live = none ∧ s.backup = some i ∧ s.HasData (some i) ∧
      s.compacted = some j ∧ i ≠ j
  | .copied i j => s.live = none ∧ s.backup = some i ∧ s.HasData (some i) ∧
      s.compacted = some j ∧ s.HasData (some j)
  | .swapped i => s.HasData s.live ∧ s.backup = some i ∧ s.HasData (some i)
  | .reopened i j => s.live = some j ∧ s.HasData (some j) ∧ s.backup = some i ∧
      s.HasData (some i)
  | .restoring => (s.HasData s.live ∧ s.backup = none) ∨
      ((s.HasData s.live ∨ s.live = none) ∧ s.HasData s.backup)
  | .restored => s.HasData s.live ∧ s.backup = none
  | .restoredAlone => s.HasData s.live ∧ s.backup = none
  | _ => False

/-- No inode at a path is one that a new file may get. -/
def Fresh (s : Shared) : Prop :=
  ∀ i, s.live = some i ∨ s.backup = some i ∨ s.compacted = some i → i < s.next

/-- What holds while no connect of a process overlaps a compaction of the other. -/
structure Inv (s : Shared) : Prop where
  fresh : s.Fresh
  state : s.Calm ∨ ∃ who, s.phases (!who) = .disconnected ∧ s.Swapping (s.phases who)

section Lemmas

variable {s : Shared} {who : Bool} {file : Option ℕ} {phase : Phase} {i : ℕ}

@[simp] theorem goto_self : (s.goto who phase).phases who = phase := Function.update_self ..

@[simp] theorem goto_other : (s.goto who phase).phases (!who) = s.phases (!who) :=
  Function.update_of_ne (by cases who <;> decide) ..

theorem swapping_goto {p : Phase} : (s.goto who phase).Swapping p ↔ s.Swapping p := by
  cases p <;> rfl

theorem quiet_congr {s' : Shared} (h : s'.live = s.live) {p : Phase} :
    s'.Quiet p ↔ s.Quiet p := by
  cases p with
  | connected i =>
    show s'.live = some i ↔ s.live = some i
    rw [h]
  | _ => exact Iff.rfl

theorem HasData.exists_eq (h : s.HasData file) : ∃ i, file = some i := by
  obtain ⟨i, -, hi, -⟩ := h
  exact ⟨i, hi⟩

/-- A new file changes nothing of the others. -/
theorem HasData.create (h : s.HasData file) (hfresh : ∀ i, file = some i → i < s.next) :
    s.create.1.HasData file := by
  obtain ⟨i, ts, hi, hc, hsub⟩ := h
  refine ⟨i, ts, hi, ?_, hsub⟩
  have hne : i ≠ s.next := Nat.ne_of_lt (hfresh i hi)
  exact (Function.update_of_ne hne ..).trans hc

theorem HasData.createSchema (h : s.HasData file) (i : ℕ) : (s.createSchema i).HasData file := by
  obtain ⟨k, ts, hk, hc, hsub⟩ := h
  by_cases hki : k = i
  · subst hki
    refine ⟨k, ts, hk, ?_, hsub⟩
    show Function.update s.content k _ k = _
    rw [Function.update_self, hc]
    rfl
  · refine ⟨k, ts, hk, ?_, hsub⟩
    show Function.update s.content i _ k = _
    rw [Function.update_of_ne hki, hc]

theorem Inv.ofSwapping (hfresh : s.Fresh) (hother : s.phases (!who) = .disconnected)
    (h : s.Swapping phase) : (s.goto who phase).Inv where
  fresh := hfresh
  state := by
    refine Or.inr ⟨who, goto_other.trans hother, ?_⟩
    rw [goto_self, swapping_goto]
    exact h

theorem Inv.ofCalm (hfresh : s.Fresh) (hdata : s.HasData s.live) (hbackup : s.backup = none)
    (hquiet : s.Quiet phase) (hother : s.Quiet (s.phases !who))
    (halone : ∀ i j, phase = .connected i → s.phases (!who) ≠ .connected j) :
    (s.goto who phase).Inv where
  fresh := hfresh
  state := by
    refine Or.inl ⟨hdata, hbackup, fun w => ?_, fun w i j hi => ?_⟩
    · by_cases hw : w = who
      · subst hw
        rw [goto_self]
        exact (quiet_congr (s := s) rfl).2 hquiet
      · obtain rfl := Bool.eq_not.2 hw
        rw [goto_other]
        exact (quiet_congr (s := s) rfl).2 hother
    · by_cases hw : w = who
      · subst hw
        rw [goto_self] at hi
        rw [goto_other]
        exact halone i j hi
      · obtain rfl := Bool.eq_not.2 hw
        rw [goto_other] at hi
        rw [Bool.not_not, goto_self]
        exact fun hj => halone j i hj hi

/-- Connecting to the live file, where nothing else has it open. -/
theorem Inv.ofConnect (hfresh : s.Fresh) (hdata : s.HasData s.live) (hbackup : s.backup = none)
    (hother : s.Quiet (s.phases !who)) : (s.connectLive who).Inv := by
  obtain ⟨i, hlive⟩ := hdata.exists_eq
  unfold connectLive duckdbConnect
  rw [hlive]
  by_cases hopen : i ∈ (s.phases !who).openFiles
  · simp only [if_pos hopen]
    exact Inv.ofCalm hfresh hdata hbackup trivial hother fun _ _ h => nomatch h
  · simp only [if_neg hopen]
    have hsame : ({ s with live := some i } : Shared) = s := by
      rw [← hlive]
    rw [hsame]
    refine Inv.ofCalm hfresh (hdata.createSchema i) hbackup hlive
      ((quiet_congr (s := s) rfl).2 hother) fun _ j _ hj => ?_
    · rw [show (s.createSchema i).phases = s.phases from rfl] at hj
      rw [hj] at hother hopen
      obtain rfl : i = j := Option.some.inj (hlive.symm.trans hother)
      exact hopen List.mem_cons_self

/-- What every phase of a compaction leaves when it raises. -/
theorem Swapping.restoring (h : s.Swapping phase) (hphase : phase.compacting = true) :
    s.Swapping .restoring := by
  cases phase with
  | closed => exact Or.inl h
  | dropped => exact Or.inl h
  | cleared => exact Or.inl ⟨h.1, h.2.1⟩
  | aside i =>
    obtain ⟨hlive, hbackup, hdata, -⟩ := h
    exact Or.inr ⟨Or.inr hlive, hbackup ▸ hdata⟩
  | created i j =>
    obtain ⟨hlive, hbackup, hdata, -⟩ := h
    exact Or.inr ⟨Or.inr hlive, hbackup ▸ hdata⟩
  | attached i j =>
    obtain ⟨hlive, hbackup, hdata, -⟩ := h
    exact Or.inr ⟨Or.inr hlive, hbackup ▸ hdata⟩
  | copied i j =>
    obtain ⟨hlive, hbackup, hdata, -⟩ := h
    exact Or.inr ⟨Or.inr hlive, hbackup ▸ hdata⟩
  | swapped i =>
    obtain ⟨hlive, hbackup, hdata⟩ := h
    exact Or.inr ⟨Or.inl hlive, hbackup ▸ hdata⟩
  | reopened i j =>
    obtain ⟨hlive, hnew, hbackup, hdata⟩ := h
    exact Or.inr ⟨Or.inl (hlive ▸ hnew), hbackup ▸ hdata⟩
  | disconnected => cases hphase
  | movingLive => cases hphase
  | movingBackup => cases hphase
  | dropping => cases hphase
  | unlinking => cases hphase
  | opening => cases hphase
  | connected i => cases hphase
  | restoring => cases hphase
  | restored => cases hphase
  | restoredAlone => cases hphase

/-- A compaction moves the live database away. -/
theorem Swapping.advance_cleared (hfresh : s.Fresh)
    (hother : s.phases (!who) = .disconnected) (hp : s.phases who = .cleared)
    (h : s.Swapping (s.phases who)) : (s.advance who).Inv := by
  rw [hp] at h
  simp only [Shared.advance, hp]
  obtain ⟨hdata, hbackup, hcompacted⟩ := h
  obtain ⟨i, hlive⟩ := hdata.exists_eq
  simp only [hlive]
  refine Inv.ofSwapping (fun k hk => hfresh k ?_) hother ⟨rfl, rfl, hlive ▸ hdata, hcompacted⟩
  rcases hk with hk | hk | hk
  · cases hk
  · exact Or.inl (hlive.trans hk)
  · exact Or.inr (Or.inr hk)

/-- It creates the new file. -/
theorem Swapping.advance_aside (hfresh : s.Fresh)
    (hother : s.phases (!who) = .disconnected) {i : ℕ} (hp : s.phases who = .aside i)
    (h : s.Swapping (s.phases who)) : (s.advance who).Inv := by
  rw [hp] at h
  simp only [Shared.advance, hp]
  obtain ⟨hlive, hbackup, hdata, hcompacted⟩ := h
  have hi : i < s.next := hfresh i (Or.inr (Or.inl hbackup))
  simp only [hcompacted, duckdbConnect, Shared.create]
  refine Inv.ofSwapping (fun k hk => ?_) hother ⟨hlive, hbackup, ?_, rfl, Nat.ne_of_lt hi⟩
  · rcases hk with hk | hk | hk
    · exact Nat.lt_succ_of_lt (hfresh k (Or.inl hk))
    · exact Nat.lt_succ_of_lt (hfresh k (Or.inr (Or.inl hk)))
    · obtain rfl := Option.some.inj hk
      exact Nat.lt_succ_self _
  · exact hdata.create fun k hk => Option.some.inj hk ▸ hi

variable {i j : ℕ}

/-- It opens the old one. -/
theorem Swapping.advance_created (hfresh : s.Fresh)
    (hother : s.phases (!who) = .disconnected) (hp : s.phases who = .created i j)
    (h : s.Swapping (s.phases who)) : (s.advance who).Inv := by
  rw [hp] at h
  simp only [Shared.advance, hp]
  obtain ⟨hlive, hbackup, hdata, hcompacted, hne⟩ := h
  have hclosed : (s.phases !who).openFiles = [] := by
    rw [hother]
    rfl
  have hnot : i ∉ (s.phases !who).openFiles := by simp [hclosed]
  simp only [hbackup, duckdbConnect, if_neg hnot]
  refine Inv.ofSwapping (fun k hk => hfresh k ?_) hother ⟨hlive, rfl, hdata, hcompacted, hne⟩
  rcases hk with hk | hk | hk
  · exact Or.inl hk
  · exact Or.inr (Or.inl (hbackup.trans hk))
  · exact Or.inr (Or.inr hk)

/-- It copies the rows. -/
theorem Swapping.advance_attached (hfresh : s.Fresh)
    (hother : s.phases (!who) = .disconnected) (hp : s.phases who = .attached i j)
    (h : s.Swapping (s.phases who)) : (s.advance who).Inv := by
  rw [hp] at h
  simp only [Shared.advance, hp]
  obtain ⟨hlive, hbackup, ⟨k, ts, hk, hc, hsub⟩, hcompacted, hne⟩ := h
  obtain rfl := Option.some.inj hk
  simp only [hc]
  refine Inv.ofSwapping hfresh hother ⟨hlive, hbackup, ⟨i, ts, rfl, ?_, hsub⟩, hcompacted,
    ⟨j, ts, rfl, ?_, hsub⟩⟩
  · exact (Function.update_of_ne hne ..).trans hc
  · exact Function.update_self ..

/-- It moves the new file to the live path. -/
theorem Swapping.advance_copied (hfresh : s.Fresh)
    (hother : s.phases (!who) = .disconnected) (hp : s.phases who = .copied i j)
    (h : s.Swapping (s.phases who)) : (s.advance who).Inv := by
  rw [hp] at h
  simp only [Shared.advance, hp]
  obtain ⟨hlive, hbackup, hdata, hcompacted, hnew⟩ := h
  simp only [hcompacted]
  refine Inv.ofSwapping (fun k hk => hfresh k ?_) hother ⟨hnew, hbackup, hdata⟩
  rcases hk with hk | hk | hk
  · exact Or.inr (Or.inr (hcompacted.trans hk))
  · exact Or.inr (Or.inl hk)
  · cases hk

/-- It opens what it moved. -/
theorem Swapping.advance_swapped (hfresh : s.Fresh)
    (hother : s.phases (!who) = .disconnected) {i : ℕ} (hp : s.phases who = .swapped i)
    (h : s.Swapping (s.phases who)) : (s.advance who).Inv := by
  rw [hp] at h
  simp only [Shared.advance, hp]
  obtain ⟨⟨j, ts, hlive, hc, hsub⟩, hbackup, hdata⟩ := h
  have hclosed : (s.phases !who).openFiles = [] := by
    rw [hother]
    rfl
  have hnot : j ∉ (s.phases !who).openFiles := by simp [hclosed]
  simp only [hlive, duckdbConnect, if_neg hnot, hc, Option.isSome_some, if_true]
  refine Inv.ofSwapping (fun k hk => hfresh k ?_) hother
    ⟨rfl, ⟨j, ts, rfl, hc, hsub⟩, hbackup, hdata⟩
  rcases hk with hk | hk | hk
  · exact Or.inl (hlive.trans hk)
  · exact Or.inr (Or.inl hk)
  · exact Or.inr (Or.inr hk)

/-- It ends, and the backup goes. -/
theorem Swapping.advance_reopened (hfresh : s.Fresh)
    (hother : s.phases (!who) = .disconnected) (hp : s.phases who = .reopened i j)
    (h : s.Swapping (s.phases who)) : (s.advance who).Inv := by
  have hquiet : s.Quiet (s.phases !who) := by
    rw [hother]
    trivial
  rw [hp] at h
  simp only [Shared.advance, hp]
  obtain ⟨hlive, hnew, hbackup, hdata⟩ := h
  refine Inv.ofCalm (fun k hk => hfresh k ?_) (hlive ▸ hnew) rfl hlive
    ((quiet_congr (s := s) rfl).2 hquiet) fun _ k _ hk => ?_
  · rcases hk with hk | hk | hk
    · exact Or.inl hk
    · cases hk
    · exact Or.inr (Or.inr hk)
  · exact absurd (hother.symm.trans hk) (by simp)

/-- It moves the backup back. -/
theorem Swapping.advance_restoring (hfresh : s.Fresh)
    (hother : s.phases (!who) = .disconnected) (hp : s.phases who = .restoring)
    (h : s.Swapping (s.phases who)) : (s.advance who).Inv := by
  rw [hp] at h
  simp only [Shared.advance, hp]
  cases hbackup : s.backup with
  | none =>
    simp only
    rcases h with h | ⟨-, hdata⟩
    · exact Inv.ofSwapping hfresh hother h
    · obtain ⟨i, hi⟩ := hdata.exists_eq
      rw [hbackup] at hi
      cases hi
  | some i =>
    simp only
    have hdata : s.HasData (some i) := by
      rcases h with ⟨-, hnone⟩ | ⟨-, hdata⟩
      · rw [hbackup] at hnone
        cases hnone
      · rwa [hbackup] at hdata
    refine Inv.ofSwapping (fun k hk => hfresh k ?_) hother ⟨hdata, rfl⟩
    rcases hk with hk | hk | hk
    · exact Or.inr (Or.inl (hbackup.trans hk))
    · cases hk
    · exact Or.inr (Or.inr hk)

/-- A compaction goes on. -/
theorem Swapping.advance (hfresh : s.Fresh) (hother : s.phases (!who) = .disconnected)
    (h : s.Swapping (s.phases who)) : (s.advance who).Inv := by
  have hquiet : s.Quiet (s.phases !who) := by
    rw [hother]
    trivial
  cases hp : s.phases who with
  | closed =>
    rw [hp] at h
    simp only [Shared.advance, hp]
    refine Inv.ofSwapping (fun i hi => hfresh i ?_) hother ⟨h.1, rfl⟩
    simpa [h.2] using hi
  | dropped =>
    rw [hp] at h
    simp only [Shared.advance, hp]
    refine Inv.ofSwapping (fun i hi => hfresh i ?_) hother ⟨h.1, h.2, rfl⟩
    rcases hi with hi | hi | hi
    · exact Or.inl hi
    · exact Or.inr (Or.inl hi)
    · cases hi
  | cleared => exact h.advance_cleared hfresh hother hp
  | aside i => exact h.advance_aside hfresh hother hp
  | created i j => exact h.advance_created hfresh hother hp
  | attached i j => exact h.advance_attached hfresh hother hp
  | copied i j => exact h.advance_copied hfresh hother hp
  | swapped i => exact h.advance_swapped hfresh hother hp
  | reopened i j => exact h.advance_reopened hfresh hother hp
  | restoring => exact h.advance_restoring hfresh hother hp
  | restored =>
    rw [hp] at h
    simp only [Shared.advance, hp]
    refine Inv.ofSwapping (fun k hk => hfresh k ?_) hother ⟨h.1, h.2⟩
    rcases hk with hk | hk | hk
    · exact Or.inl hk
    · exact Or.inr (Or.inl hk)
    · cases hk
  | restoredAlone =>
    rw [hp] at h
    simp only [Shared.advance, hp]
    exact Inv.ofConnect hfresh h.1 h.2 hquiet
  | disconnected => exact absurd h (by simp [hp, Swapping])
  | movingLive => exact absurd h (by simp [hp, Swapping])
  | movingBackup => exact absurd h (by simp [hp, Swapping])
  | dropping => exact absurd h (by simp [hp, Swapping])
  | unlinking => exact absurd h (by simp [hp, Swapping])
  | opening => exact absurd h (by simp [hp, Swapping])
  | connected i => exact absurd h (by simp [hp, Swapping])

/-- A process goes on where no compaction runs. -/
theorem Calm.advance (hfresh : s.Fresh) (h : s.Calm) : (s.advance who).Inv := by
  have hquiet := h.quiet who
  have hother := h.quiet !who
  obtain ⟨i, hlive⟩ := h.data.exists_eq
  unfold Shared.advance
  cases hp : s.phases who with
  | disconnected =>
    simp only [hlive, Option.isSome_some, if_true]
    exact Inv.ofCalm hfresh h.data h.backup trivial hother fun _ _ hj => nomatch hj
  | dropping =>
    refine Inv.ofCalm (fun k hk => hfresh k ?_) h.data rfl trivial
      ((quiet_congr (s := s) rfl).2 hother) fun _ _ hj => nomatch hj
    simpa [h.backup] using hk
  | unlinking =>
    refine Inv.ofCalm (fun k hk => hfresh k ?_) h.data h.backup trivial
      ((quiet_congr (s := s) rfl).2 hother) fun _ _ hj => nomatch hj
    rcases hk with hk | hk | hk
    · exact Or.inl hk
    · exact Or.inr (Or.inl hk)
    · cases hk
  | opening => exact Inv.ofConnect hfresh h.data h.backup hother
  | connected j =>
    exact Inv.ofCalm hfresh h.data h.backup trivial hother fun _ _ hj => nomatch hj
  | _ => simp [hp, Quiet] at hquiet

/-- A commit in the live file. -/
theorem Calm.write (hfresh : s.Fresh) (h : s.Calm) {t : ℕ} {ts : List ℕ}
    (hp : s.phases who = .connected i) (hc : s.content i = some ts) :
    Inv { s with
      content := Function.update s.content i (some (ts ++ [t]))
      committed := s.committed ++ [t] } := by
  have hlive : s.live = some i := by
    have hquiet := h.quiet who
    rwa [hp] at hquiet
  obtain ⟨k, ts', hk, hc', hsub⟩ := h.data
  obtain rfl := Option.some.inj (hlive.symm.trans hk)
  obtain rfl := Option.some.inj (hc.symm.trans hc')
  refine ⟨hfresh, Or.inl ⟨⟨i, ts ++ [t], hlive, Function.update_self .., ?_⟩, h.backup,
    fun w => (quiet_congr (s := s) rfl).2 (h.quiet w), h.alone⟩⟩
  exact List.append_subset.2 ⟨fun x hx => List.mem_append_left _ (hsub hx),
    fun x hx => List.mem_append_right _ hx⟩

/-- What one step keeps. -/
theorem Inv.step {s s' : Shared} {a : Bool × Act} (h : s.Inv) (hok : Apart s a)
    (hs : s.step a = some s') : s'.Inv := by
  obtain ⟨hfresh, hcalm | ⟨w, hother, hswap⟩⟩ := h
  · -- no compaction runs, but one may begin
    obtain ⟨who, act⟩ := a
    cases act with
    | next =>
      obtain rfl := Option.some.inj hs
      exact hcalm.advance hfresh
    | write t =>
      cases hp : s.phases who with
      | connected i =>
        simp only [Shared.step, hp] at hs
        obtain ⟨ts, hc, rfl⟩ := Option.map_eq_some_iff.1 hs
        exact hcalm.write hfresh hp hc
      | _ => simp [Shared.step, hp] at hs
    | compact =>
      cases hp : s.phases who with
      | connected i =>
        simp only [Shared.step, hp] at hs
        obtain rfl := Option.some.inj hs
        refine Inv.ofSwapping hfresh ?_ ⟨hcalm.data, hcalm.backup⟩
        have hconnecting := hok.2 rfl
        have hquiet := hcalm.quiet !who
        cases hq : s.phases !who with
        | disconnected => rfl
        | connected j => exact absurd hq (hcalm.alone who i j hp)
        | _ => simp [hq, Phase.connecting, Quiet] at hconnecting hquiet
      | _ => simp [Shared.step, hp] at hs
    | raise =>
      have hquiet := hcalm.quiet who
      have hcompacting : (s.phases who).compacting = false := by
        cases hp : s.phases who <;> first | rfl | simp [hp, Quiet] at hquiet
      simp [Shared.step, hcompacting] at hs
  · obtain ⟨who, act⟩ := a
    have hswapping : (s.phases w).swapping = true := by
      cases hp : s.phases w <;> first | rfl | simp [hp, Swapping] at hswap
    by_cases hw : who = w
    · subst hw
      cases act with
      | next =>
        obtain rfl := Option.some.inj hs
        exact hswap.advance hfresh hother
      | write t =>
        cases hp : s.phases who <;> simp [Shared.step, hp] at hs
        simp [hp, Swapping] at hswap
      | compact =>
        cases hp : s.phases who <;> simp [Shared.step, hp] at hs
        simp [hp, Swapping] at hswap
      | raise =>
        obtain ⟨hcompacting, he⟩ := Option.ite_none_right_eq_some.1 hs
        obtain rfl := Option.some.inj he
        exact Inv.ofSwapping hfresh hother (hswap.restoring hcompacting)
    · -- the other process is not connected, and does not connect
      obtain rfl := Bool.eq_not.2 hw
      cases act with
      | next =>
        have hapart := hok.1 rfl (Or.inl hother)
        rw [Bool.not_not, hswapping] at hapart
        cases hapart
      | write t => simp [Shared.step, hother] at hs
      | compact => simp [Shared.step, hother] at hs
      | raise => simp [Shared.step, hother, Phase.compacting] at hs

theorem Swapping.hasData (h : s.Swapping phase) :
    s.HasData s.live ∨ s.live = none ∧ s.HasData s.backup := by
  cases phase with
  | closed => exact Or.inl h.1
  | dropped => exact Or.inl h.1
  | cleared => exact Or.inl h.1
  | aside i => exact Or.inr ⟨h.1, h.2.1 ▸ h.2.2.1⟩
  | created i j => exact Or.inr ⟨h.1, h.2.1 ▸ h.2.2.1⟩
  | attached i j => exact Or.inr ⟨h.1, h.2.1 ▸ h.2.2.1⟩
  | copied i j => exact Or.inr ⟨h.1, h.2.1 ▸ h.2.2.1⟩
  | swapped i => exact Or.inl h.1
  | reopened i j => exact Or.inl (h.1 ▸ h.2.1)
  | restoring =>
    rcases h with ⟨hdata, -⟩ | ⟨hdata | hnone, hbackup⟩
    · exact Or.inl hdata
    · exact Or.inl hdata
    · exact Or.inr ⟨hnone, hbackup⟩
  | restored => exact Or.inl h.1
  | restoredAlone => exact Or.inl h.1
  | _ => cases h

theorem Swapping.swapping (h : s.Swapping phase) : phase.swapping = true := by
  cases phase <;> first | rfl | cases h

theorem Swapping.inPlace (h : s.Swapping phase) :
    (∀ i, phase.backup = some i → s.backup = some i) ∧
      ∀ j, phase.compacted = some j → s.compacted = some j := by
  cases phase with
  | aside i => exact ⟨fun k hk => h.2.1.trans hk, fun _ hk => nomatch hk⟩
  | created i j => exact ⟨fun k hk => h.2.1.trans hk, fun k hk => h.2.2.2.1.trans hk⟩
  | attached i j => exact ⟨fun k hk => h.2.1.trans hk, fun k hk => h.2.2.2.1.trans hk⟩
  | copied i j => exact ⟨fun k hk => h.2.1.trans hk, fun k hk => h.2.2.2.1.trans hk⟩
  | swapped i => exact ⟨fun k hk => h.2.1.trans hk, fun _ hk => nomatch hk⟩
  | reopened i j => exact ⟨fun k hk => h.2.2.1.trans hk, fun _ hk => nomatch hk⟩
  | _ => exact ⟨fun _ hk => (nomatch hk), fun _ hk => nomatch hk⟩

theorem Quiet.noFiles (h : s.Quiet phase) : phase.backup = none ∧ phase.compacted = none := by
  cases phase <;> first | exact ⟨rfl, rfl⟩ | cases h

theorem Inv.kept (h : s.Inv) : s.Kept := by
  obtain ⟨-, hcalm | ⟨w, hother, hswap⟩⟩ := h
  · refine ⟨Or.inl hcalm.data, fun who i hi => ?_, fun who j hj => ?_⟩
    · rw [(hcalm.quiet who).noFiles.1] at hi
      cases hi
    · rw [(hcalm.quiet who).noFiles.2] at hj
      cases hj
  · refine ⟨?_, fun who i hi => ?_, fun who j hj => ?_⟩
    · rcases hswap.hasData with hdata | hdata
      · exact Or.inl hdata
      · exact Or.inr ⟨w, hswap.swapping, hdata⟩
    · by_cases hw : who = w
      · subst hw
        exact hswap.inPlace.1 i hi
      · obtain rfl := Bool.eq_not.2 hw
        rw [hother] at hi
        cases hi
    · by_cases hw : who = w
      · subst hw
        exact hswap.inPlace.2 j hj
      · obtain rfl := Bool.eq_not.2 hw
        rw [hother] at hj
        cases hj

theorem inv_start (ts : List ℕ) : (start ts).Inv where
  fresh := fun i hi => by
    rcases hi with hi | hi | hi
    · obtain rfl := Option.some.inj hi
      exact Nat.one_pos
    · cases hi
    · cases hi
  state := Or.inl ⟨⟨0, ts, rfl, rfl, List.Subset.refl ts⟩, rfl, fun _ => trivial,
    fun _ _ _ hi => nomatch hi⟩

end Lemmas

/-- Every run in which no connect of a process overlaps a compaction of the other. -/
theorem kept_of_apart {ts : List ℕ} {s : Shared} (h : ReachWhen step Apart (start ts) s) :
    s.Kept := by
  have hinv : s.Inv := h.invariant (inv_start ts) fun _ _ _ hi hok hs => hi.step hok hs
  exact hinv.kept

/-! ## A recovery during a compaction -/

/-- A process goes on, `n` times. -/
def goesOn (who : Bool) (n : ℕ) : List (Bool × Act) := List.replicate n (who, .next)

/-- Connect and commit. -/
def connects (who : Bool) (n t : ℕ) : List (Bool × Act) := goesOn who n ++ [(who, .write t)]

/-- A compaction, and then the other process. -/
theorem kept_in_turn : ∃ s, execute (guarded step Apart) (start [])
      (connects true 4 1 ++ [(true, .compact)] ++ goesOn true 10 ++ connects false 4 2) = some s ∧
    s.committed = [1, 2] ∧ s.Kept := by
  have hsome : ((execute (guarded step Apart) (start []) (connects true 4 1 ++ [(true, .compact)] ++
      goesOn true 10 ++ connects false 4 2)).any fun s => s.committed = [1, 2]) = true := by
    decide
  obtain ⟨s, hs, hcommitted⟩ := (Option.any_eq_true _ _).1 hsome
  exact ⟨s, hs, of_decide_eq_true hcommitted, kept_of_apart (.of_guarded (.of_execute _ hs))⟩

/-- The second process recovers the backup of the running compaction and commits. The compaction
then creates an empty database where its backup was, fails and moves that to the live path. -/
theorem recovered_midway : ∃ s, Reach step (start []) s ∧ s.committed = [1, 2] ∧
    s.live.map s.content = some (some []) ∧ s.backup = none ∧ ¬s.Kept := by
  have hsome : ((execute step (start []) (connects true 4 1 ++ [(true, .compact)] ++
      goesOn true 4 ++ connects false 5 2 ++ goesOn true 6)).any fun s => s.committed = [1, 2] ∧
        s.live.map s.content = some (some []) ∧ s.backup = none) = true := by
    decide
  obtain ⟨s, hs, hall⟩ := (Option.any_eq_true _ _).1 hsome
  obtain ⟨hcommitted, hlive, hbackup⟩ := of_decide_eq_true hall
  refine ⟨s, .of_execute _ hs, hcommitted, hlive, hbackup, fun hkept => ?_⟩
  rcases hkept.data with ⟨i, ts, hi, hc, hsub⟩ | ⟨-, -, -, i, -, hi, -⟩
  · rw [hi, Option.map_some, hc] at hlive
    obtain rfl := Option.some.inj (Option.some.inj hlive)
    rw [hcommitted] at hsub
    cases hsub List.mem_cons_self
  · rw [hbackup] at hi
    cases hi

end Shared

end ChunkHound.TwoProcesses
