import ChunkHound.OrderedDict
import ChunkHound.Slices
import Mathlib.Data.Int.Notation

/-!
# Polling snapshots

Where no watcher works, `_polling_monitor` takes a snapshot of the tree again and again. What is new
or differs is added, and what the last snapshot had and this one has not is deleted.

A snapshot leaves out more than what is gone : files behind the one where the cap stops the loop,
and files for which a call raised `OSError`. The deletes of two snapshots in turn are all of missing
files exactly when every file of the first that still exists is reached, read and indexed again in
the second (`deletes_gone_iff`), and so for whole runs of the monitor, in which a poll that raises
leaves the last snapshot as it was.
-/

namespace ChunkHound.Polling

open OrderedDict

/-! ## Snapshots -/

/-- What a call raises : an `OSError`, or something else. -/
inductive Fault
  | osError
  | other
  deriving DecidableEq

/-- `st_mtime_ns` and `st_size`. -/
abbrev Fingerprint := ℤ × ℕ

/-- A path that `rglob` yields, and what the calls on it give. -/
structure Entry where
  path : String
  isFile : Except Fault Bool
  shouldIndex : Except Fault Bool
  stat : Except Fault Fingerprint

/-- What `rglob` yields, what it raises after that, and what its `close` raises. -/
structure Walk where
  entries : List Entry
  fault : Option Fault
  closeFault : Option Fault

structure Snapshot where
  currentFiles : List (String × Fingerprint)
  filesChecked : ℕ
  truncated : Bool

/-- The files after which a snapshot stops. -/
def snapshotCap : ℕ := 5000

/-- The test behind a file. -/
def Snapshot.capped (snap : Snapshot) : Snapshot :=
  { snap with truncated := snapshotCap ≤ snap.filesChecked }

/-- The body of the loop. An `OSError` goes on with the next file, past the test of the cap. -/
def Snapshot.visit (snap : Snapshot) (e : Entry) : Except Fault Snapshot :=
  match e.isFile with
  | .error .osError | .ok false => .ok snap
  | .error .other => .error .other
  | .ok true =>
    let snap := { snap with filesChecked := snap.filesChecked + 1 }
    match e.shouldIndex with
    | .error .osError => .ok snap
    | .error .other => .error .other
    | .ok false => .ok snap.capped
    | .ok true =>
      match e.stat with
      | .error .osError => .ok snap
      | .error .other => .error .other
      | .ok fingerprint =>
        .ok { snap with currentFiles := insert e.path fingerprint snap.currentFiles }.capped

def Snapshot.visitAll : List Entry → Snapshot → Except Fault Snapshot
  | [], snap => .ok snap
  | e :: entries, snap =>
    match snap.visit e with
    | .error fault => .error fault
    | .ok snap => if snap.truncated then .ok snap else visitAll entries snap

/-- `_polling_snapshot`. -/
def pollingSnapshot (walk : Walk) : Except Fault Snapshot :=
  match Snapshot.visitAll walk.entries ⟨[], 0, false⟩ with
  | .error fault => .error (walk.closeFault.getD fault)
  | .ok snap =>
    match (if snap.truncated then none else walk.fault), walk.closeFault with
    | none, none => .ok snap
    | some fault, none | _, some fault => .error fault

/-! ## The monitor -/

/-- What a poll makes of a path. -/
inductive Action
  | created (path : String)
  | modified (path : String)
  | deleted (path : String)
  deriving DecidableEq

/-- A file of the snapshot that is new, or differs. -/
def change (knownFiles : List (String × Fingerprint)) (file : String × Fingerprint) :
    Option Action :=
  match knownFiles.lookup file.1 with
  | none => some (.created file.1)
  | some fingerprint => if fingerprint ≠ file.2 then some (.modified file.1) else none

/-- The order of `deleted`, a set, is left open by the source. -/
def actions (knownFiles currentFiles : List (String × Fingerprint)) : List Action :=
  currentFiles.filterMap (change knownFiles) ++
    ((keys knownFiles).filter (· ∉ keys currentFiles)).map .deleted

/-- A turn of the monitor : the walk, the disk at that time, and, where handling an action raises,
the number of those handled before. -/
structure Poll where
  walk : Walk
  onDisk : String → Bool
  raises : Option ℕ

/-- A turn of `_polling_monitor` : `known_files` after it, and what was queued. -/
def Poll.run (poll : Poll) (knownFiles : List (String × Fingerprint)) :
    List (String × Fingerprint) × List Action :=
  match pollingSnapshot poll.walk with
  | .error _ => (knownFiles, [])
  | .ok snap =>
    match poll.raises with
    | none => (snap.currentFiles, actions knownFiles snap.currentFiles)
    | some handled => (knownFiles, (actions knownFiles snap.currentFiles).take handled)

/-- `_polling_monitor` : what each poll queues. -/
def monitor (knownFiles : List (String × Fingerprint)) : List Poll → List (Poll × List Action)
  | [] => []
  | poll :: polls =>
    let (knownFiles, queued) := poll.run knownFiles
    (poll, queued) :: monitor knownFiles polls

/-! ## What a snapshot holds -/

/-- The entry is counted. -/
def Entry.counted (e : Entry) : Bool :=
  match e.isFile with
  | .ok isFile => isFile
  | .error _ => false

/-- The entry goes into the snapshot. -/
def Entry.recorded (e : Entry) : Bool :=
  e.counted && match e.shouldIndex with
    | .ok true => e.stat.isOk
    | _ => false

/-- The entry is counted, and the test of the cap follows. -/
def Entry.tested (e : Entry) : Bool :=
  e.counted && match e.shouldIndex with
    | .ok true => e.stat.isOk
    | .ok false => true
    | .error _ => false

/-- The cap stops the loop at one of the entries, where some files were counted before. -/
def Stops (filesChecked : ℕ) (entries : List Entry) : Prop :=
  ∃ before e after, entries = before ++ e :: after ∧ e.tested = true ∧
    snapshotCap ≤ filesChecked + (before ++ [e]).countP (·.counted)

/-- The path is reached before the cap stops the loop, and read and indexed. -/
def Seen (walk : Walk) (path : String) : Prop :=
  ∃ before e after, walk.entries = before ++ e :: after ∧ e.path = path ∧ e.recorded = true ∧
    ¬ Stops 0 before

theorem mem_keys_insert {path path' : String} {fingerprint : Fingerprint}
    {files : List (String × Fingerprint)} :
    path ∈ keys (OrderedDict.insert path' fingerprint files) ↔ path ∈ keys files ∨ path = path' :=
  mem_keys_alter

/-- What a turn of the loop does. -/
theorem visit_cases {snap snap' : Snapshot} {e : Entry} (h : snap.visit e = .ok snap')
    (htruncated : snap.truncated = false) :
    snap'.filesChecked = snap.filesChecked + [e].countP (·.counted) ∧
      (snap'.truncated = true ↔ e.tested = true ∧ snapshotCap ≤ snap'.filesChecked) ∧
      ∀ path, path ∈ keys snap'.currentFiles ↔
        path ∈ keys snap.currentFiles ∨ (e.recorded = true ∧ path = e.path) := by
  rcases e with ⟨path, (_ | _) | (_ | _), shouldIndex, stat⟩
  · obtain rfl : snap = snap' := Except.ok.inj h
    simp [Entry.counted, Entry.tested, Entry.recorded, htruncated]
  · cases h
  · obtain rfl : snap = snap' := Except.ok.inj h
    simp [Entry.counted, Entry.tested, Entry.recorded, htruncated]
  · rcases shouldIndex with (_ | _) | (_ | _)
    · obtain rfl := Except.ok.inj h
      simp [Entry.counted, Entry.tested, Entry.recorded, htruncated]
    · cases h
    · obtain rfl := Except.ok.inj h
      simp [Entry.counted, Entry.tested, Entry.recorded, Snapshot.capped]
    · rcases stat with (_ | _) | fingerprint
      · obtain rfl := Except.ok.inj h
        simp [Entry.counted, Entry.tested, Entry.recorded, Except.isOk, Except.toBool, htruncated]
      · cases h
      · obtain rfl := Except.ok.inj h
        simp [Entry.counted, Entry.tested, Entry.recorded, Except.isOk, Except.toBool,
          Snapshot.capped, mem_keys_insert]

theorem not_stops_nil {n : ℕ} : ¬ Stops n [] := by
  rintro ⟨before, e, after, heq, -⟩
  cases before <;> cases heq

theorem stops_cons {n : ℕ} {e : Entry} {entries : List Entry} : Stops n (e :: entries) ↔
    (e.tested = true ∧ snapshotCap ≤ n + [e].countP (·.counted)) ∨
      Stops (n + [e].countP (·.counted)) entries := by
  have hcount : ∀ (before : List Entry) (x : Entry), n + (e :: (before ++ [x])).countP (·.counted) =
      n + [e].countP (·.counted) + (before ++ [x]).countP (·.counted) := fun before x => by
    rw [← List.singleton_append, List.countP_append, Nat.add_assoc]
  unfold Stops
  rw [Slices.exists_split_cons, List.nil_append]
  simp only [List.cons_append, hcount]

variable {path : String}

/-- A snapshot that returns holds the entries that are reached, read and indexed. -/
theorem mem_visitAll {snap' : Snapshot} :
    ∀ {entries : List Entry} {snap : Snapshot}, Snapshot.visitAll entries snap = .ok snap' →
      snap.truncated = false → (path ∈ keys snap'.currentFiles ↔
        path ∈ keys snap.currentFiles ∨ ∃ before e after, entries = before ++ e :: after ∧
          (e.path = path ∧ e.recorded = true ∧ ¬ Stops snap.filesChecked before))
  | [], snap, h, _ => by
    obtain rfl : snap = snap' := Except.ok.inj h
    simp
  | e :: entries, snap, h, htruncated => by
    rw [Snapshot.visitAll] at h
    cases hvisit : snap.visit e with
    | error fault =>
      rw [hvisit] at h
      cases h
    | ok snap₁ =>
      rw [hvisit] at h
      obtain ⟨hchecked, hcap, hkeys⟩ := visit_cases hvisit htruncated
      rw [Slices.exists_split_cons]
      cases hstop : snap₁.truncated with
      | true =>
        -- behind the entry at which the loop stops nothing is reached
        obtain rfl : snap₁ = snap' := by simpa [hstop] using h
        have hstops : ∀ before, Stops snap.filesChecked (e :: before) := fun before =>
          stops_cons.2 (Or.inl (hchecked ▸ hcap.1 hstop))
        rw [hkeys]
        simp only [hstops, not_stops_nil, not_true, not_false_eq_true, and_false, and_true,
          exists_false, or_false]
        rw [and_comm, eq_comm]
      | false =>
        have hrest : Snapshot.visitAll entries snap₁ = .ok snap' := by simpa [hstop] using h
        have hnot : ¬ (e.tested = true ∧
            snapshotCap ≤ snap.filesChecked + [e].countP (·.counted)) := fun hc => by
          rw [← hchecked] at hc
          exact Bool.false_ne_true (hstop.symm.trans (hcap.2 hc))
        have hstops : ∀ before, Stops snap.filesChecked (e :: before) ↔
            Stops snap₁.filesChecked before := fun before => by
          rw [stops_cons, or_iff_right hnot, hchecked]
        rw [mem_visitAll hrest hstop, hkeys]
        simp only [hstops, not_stops_nil, not_false_eq_true, and_true, or_assoc]
        rw [and_comm, eq_comm]

theorem mem_pollingSnapshot {walk : Walk} {snap : Snapshot}
    (h : pollingSnapshot walk = .ok snap) : path ∈ keys snap.currentFiles ↔ Seen walk path := by
  unfold pollingSnapshot at h
  cases hall : Snapshot.visitAll walk.entries ⟨[], 0, false⟩ with
  | error fault =>
    rw [hall] at h
    cases h
  | ok snap₁ =>
    rw [hall] at h
    obtain rfl : snap₁ = snap := by
      dsimp only at h
      split at h
      · exact Except.ok.inj h
      · cases h
      · cases h
    rw [mem_visitAll hall rfl]
    simp [Seen, keys]

/-! ## What polls delete -/

theorem mem_deleted_iff {knownFiles currentFiles : List (String × Fingerprint)} :
    .deleted path ∈ actions knownFiles currentFiles ↔
      path ∈ keys knownFiles ∧ path ∉ keys currentFiles := by
  have hchange : .deleted path ∉ currentFiles.filterMap (change knownFiles) := by
    rw [List.mem_filterMap]
    rintro ⟨file, -, hfile⟩
    unfold change at hfile
    split at hfile
    · cases hfile
    · split at hfile <;> cases hfile
  unfold actions
  rw [List.mem_append, or_iff_right hchange]
  simp

/-- The deletes of two snapshots in turn. -/
theorem deleted_iff {first second : Walk} {known current : Snapshot}
    (hfirst : pollingSnapshot first = .ok known) (hsecond : pollingSnapshot second = .ok current) :
    .deleted path ∈ actions known.currentFiles current.currentFiles ↔
      Seen first path ∧ ¬ Seen second path := by
  rw [mem_deleted_iff, mem_pollingSnapshot hfirst, mem_pollingSnapshot hsecond]

/-- What a poll sees of the files of the snapshot before. -/
def Poll.Keeps (poll : Poll) (last : Option Walk) : Prop :=
  ∀ walk ∈ last, ∀ path, Seen walk path → poll.onDisk path = true → Seen poll.walk path

/-- The walk of the last poll that went through. -/
def Poll.after (poll : Poll) (last : Option Walk) : Option Walk :=
  match pollingSnapshot poll.walk, poll.raises with
  | .ok _, none => some poll.walk
  | _, _ => last

/-- Every poll sees the files of the snapshot before that still exist. -/
def KeepsAll : Option Walk → List Poll → Prop
  | _, [] => True
  | last, poll :: polls => poll.Keeps last ∧ KeepsAll (poll.after last) polls

/-- The known files are those of the last snapshot. -/
def KnownFrom (last : Option Walk) (knownFiles : List (String × Fingerprint)) : Prop :=
  ∀ path ∈ keys knownFiles, ∃ walk ∈ last, Seen walk path

variable {knownFiles : List (String × Fingerprint)} {last : Option Walk}

theorem Poll.knownFrom_run {poll : Poll} (h : KnownFrom last knownFiles) :
    KnownFrom (poll.after last) (poll.run knownFiles).1 := by
  unfold Poll.run Poll.after
  cases hsnap : pollingSnapshot poll.walk with
  | error fault => exact h
  | ok snap =>
    cases poll.raises with
    | none => exact fun path hpath => ⟨poll.walk, rfl, (mem_pollingSnapshot hsnap).1 hpath⟩
    | some handled => exact h

/-- A poll that sees the files of the snapshot before that still exist deletes none that exists. -/
theorem Poll.deletes_gone {poll : Poll} (hknown : KnownFrom last knownFiles)
    (hkeeps : poll.Keeps last) (h : .deleted path ∈ (poll.run knownFiles).2) :
    poll.onDisk path = false := by
  unfold Poll.run at h
  cases hsnap : pollingSnapshot poll.walk with
  | error fault =>
    rw [hsnap] at h
    cases h
  | ok snap =>
    rw [hsnap] at h
    have hmem : .deleted path ∈ actions knownFiles snap.currentFiles := by
      cases hraises : poll.raises with
      | none => simpa [hraises] using h
      | some handled =>
        rw [hraises] at h
        exact List.mem_of_mem_take h
    obtain ⟨hold, hnew⟩ := mem_deleted_iff.1 hmem
    rw [mem_pollingSnapshot hsnap] at hnew
    obtain ⟨walk, hlast, hseen⟩ := hknown path hold
    rw [Bool.eq_false_iff]
    exact fun hdisk => hnew (hkeeps walk hlast path hseen hdisk)

theorem monitor_deletes_gone : ∀ {polls : List Poll} {last : Option Walk}
    {knownFiles : List (String × Fingerprint)}, KnownFrom last knownFiles → KeepsAll last polls →
    ∀ turn ∈ monitor knownFiles polls, .deleted path ∈ turn.2 → turn.1.onDisk path = false
  | [], _, _, _, _, turn, hturn, _ => nomatch hturn
  | poll :: polls, last, knownFiles, hknown, hkeeps, turn, hturn, hmem => by
    rcases List.mem_cons.1 hturn with rfl | hturn
    · exact poll.deletes_gone hknown hkeeps.1 hmem
    · exact monitor_deletes_gone (poll.knownFrom_run hknown) hkeeps.2 turn hturn hmem

/-- The deletes of two snapshots in turn are all of missing files exactly when the second sees every
file of the first that exists; and no poll of a run deletes a file that exists, where every poll
sees the files of the snapshot before that do. -/
theorem deletes_gone_iff {first second : Walk} {known current : Snapshot} (onDisk : String → Bool)
    (hfirst : pollingSnapshot first = .ok known) (hsecond : pollingSnapshot second = .ok current)
    (polls : List Poll) :
    ((∀ path, .deleted path ∈ actions known.currentFiles current.currentFiles →
        onDisk path = false) ↔
      ∀ path, Seen first path → onDisk path = true → Seen second path) ∧
    (KeepsAll none polls → ∀ turn ∈ monitor [] polls, ∀ path, .deleted path ∈ turn.2 →
      turn.1.onDisk path = false) := by
  constructor
  · refine forall_congr' fun path => ?_
    rw [deleted_iff hfirst hsecond, and_imp]
    refine imp_congr_right fun _ => ?_
    cases onDisk path with
    | false => simp
    | true => simp
  · intro hkeeps turn hturn path hmem
    refine monitor_deletes_gone ?_ hkeeps turn hturn hmem
    exact fun path hpath => nomatch hpath

/-- A tree with one source file. -/
def oneFile (stat : Except Fault Fingerprint) : Walk :=
  ⟨[⟨"a.py", .ok true, .ok true, stat⟩], none, none⟩

def onePoll (stat : Except Fault Fingerprint) : Poll :=
  ⟨oneFile stat, fun path => path = "a.py", none⟩

theorem deletes_gone_oneFile :
    ((∀ path, .deleted path ∈ actions [("a.py", (1, 1))] [("a.py", (2, 1))] →
        decide (path = "a.py") = false) ↔
      ∀ path, Seen (oneFile (.ok (1, 1))) path → decide (path = "a.py") = true →
        Seen (oneFile (.ok (2, 1))) path) ∧
    ∀ turn ∈ monitor [] [onePoll (.ok (1, 1)), onePoll (.ok (1, 1))], ∀ path,
      .deleted path ∈ turn.2 → turn.1.onDisk path = false := by
  have hspec := @deletes_gone_iff (oneFile (.ok (1, 1))) (oneFile (.ok (2, 1)))
    ⟨[("a.py", (1, 1))], 1, false⟩ ⟨[("a.py", (2, 1))], 1, false⟩ (fun path => path = "a.py")
    rfl rfl [onePoll (.ok (1, 1)), onePoll (.ok (1, 1))]
  refine ⟨hspec.1, hspec.2 ⟨(fun walk hwalk => nomatch hwalk), ?_, trivial⟩⟩
  rintro walk hwalk path hseen -
  obtain rfl : oneFile (.ok (1, 1)) = walk := Option.some.inj hwalk
  exact hseen

/-- A file whose `stat` fails once is deleted, though it exists. -/
theorem transient_error_deletes :
    (monitor [] [onePoll (.ok (1, 1)), onePoll (.error .osError)]).map Prod.snd =
        [[.created "a.py"], [.deleted "a.py"]] ∧
      (onePoll (.error .osError)).onDisk "a.py" = true := by
  decide

end ChunkHound.Polling
