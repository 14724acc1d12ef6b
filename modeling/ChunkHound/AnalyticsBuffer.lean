import ChunkHound.StepSystem

/-!
# The analytics buffer

Recorder processes share a directory of buffer files. `record_event` opens the active file of its
process and appends a line, `flush_active` gives the process a new active file and renames the old
one, and `sweep_orphans` renames files of any process that have been idle for two flush intervals,
the one it took for its own active file apart. A renamed file is read, uploaded, and removed. The
number of the next attempt stands in the name of a file whose upload failed, and the file is dropped
when it reaches `max_upload_retries`.

Each operation on a file is a step, so that the steps of any number of processes and threads
interleave. Only the lock of a process keeps a flush out of `record_event`, and the sweep of another
process is not kept out : it may read and remove the file that `record_event` has open.

`kept_of_keeps` : in runs in which a write lands in a file that is in the directory, and a file is
removed after an upload only when it has nothing that was not uploaded, no event is lost.
-/

namespace ChunkHound.AnalyticsBuffer

open StepSystem

/-! ## Files -/

/-- The name of a buffer file, `buffer-{pid}-{startTs}.jsonl`, and of a file that is to be uploaded,
with `.pending-attempt{attempt}-{suffix}` behind it. -/
inductive BufferName
  | active (pid startTs : ℕ)
  | pending (pid startTs attempt suffix : ℕ)
  deriving DecidableEq

namespace BufferName

def isPending : BufferName → Bool
  | .active _ _ => false
  | .pending _ _ _ _ => true

/-- A file without an attempt in its name is at its first. -/
def pendingAttempt : BufferName → ℕ
  | .active _ _ => 1
  | .pending _ _ attempt _ => attempt

/-- The name without its suffix gets a new one. -/
def rotatedPathFor (attempt suffix : ℕ) : BufferName → BufferName
  | .active pid startTs => .pending pid startTs attempt suffix
  | .pending pid startTs _ _ => .pending pid startTs attempt suffix

theorem isPending_rotatedPathFor (attempt suffix : ℕ) (path : BufferName) :
    (path.rotatedPathFor attempt suffix).isPending = true := by
  cases path <;> rfl

theorem pendingAttempt_rotatedPathFor (attempt suffix : ℕ) (path : BufferName) :
    (path.rotatedPathFor attempt suffix).pendingAttempt = attempt := by
  cases path <;> rfl

end BufferName

/-- The configuration of a process. `hasTarget` : there is a place to upload to. -/
structure Config where
  flushInterval : ℕ
  maxUploadRetries : ℕ
  hasTarget : Bool

/-- How far a thread is with a file : it is to be renamed, to be read, has been read, has been
uploaded, or its upload has failed. -/
inductive Stage
  | rotating
  | toRead
  | read (inode : ℕ) (data : List ℕ)
  | uploaded (data : List ℕ)
  | failed (inode : ℕ)
  deriving DecidableEq

structure Job where
  process : ℕ
  path : BufferName
  stage : Stage
  deriving DecidableEq

/-- A file that was dropped : its events, the uploads of it that had failed, and the limit. -/
structure Dropped where
  events : List ℕ
  failedUploads : ℕ
  maxUploadRetries : ℕ

/-- The directory, the content of each file, and what the processes are doing. Events are numbers.
`writer` is the file and the event of a `record_event` that holds the lock of its process. `used`
are the names of files to upload, so far. -/
structure State where
  now : ℕ
  files : BufferName → Option ℕ
  content : ℕ → List ℕ
  modified : ℕ → ℕ
  failedUploads : ℕ → ℕ
  nextInode : ℕ
  active : ℕ → Option BufferName
  writer : ℕ → Option (ℕ × ℕ)
  sweeps : List (ℕ × BufferName)
  jobs : List Job
  used : List BufferName
  counted : List ℕ
  uploaded : List ℕ
  dropped : List Dropped

/-- No process and an empty directory. -/
def start : State where
  now := 0
  files := fun _ => none
  content := fun _ => []
  modified := fun _ => 0
  failedUploads := fun _ => 0
  nextInode := 0
  active := fun _ => none
  writer := fun _ => none
  sweeps := []
  jobs := []
  used := []
  counted := []
  uploaded := []
  dropped := []

namespace State

def setFile (s : State) (path : BufferName) (file : Option ℕ) : State :=
  { s with files := fun p => if p = path then file else s.files p }

/-- `fs::rename`, which replaces a file of that name. -/
def rename (s : State) (path target : BufferName) : State :=
  { (s.setFile path none).setFile target (s.files path) with used := target :: s.used }

def setWriter (s : State) (process : ℕ) (w : Option (ℕ × ℕ)) : State :=
  { s with writer := fun p => if p = process then w else s.writer p }

def setActive (s : State) (process : ℕ) (path : Option BufferName) : State :=
  { s with active := fun p => if p = process then path else s.active p }

/-- The job ends. -/
def done (s : State) (job : Job) : State := { s with jobs := s.jobs.erase job }

/-- The job goes on as another. -/
def next (s : State) (job job' : Job) : State := { s with jobs := job' :: s.jobs.erase job }

end State

/-! ## Steps -/

/-- One step. `ok` : the operation on the file, or the upload, succeeds. -/
inductive Act
  | tick (seconds : ℕ)
  | new (process pid startTs : ℕ)
  | openActive (process event : ℕ)
  | write (process : ℕ) (ok : Bool)
  | flush (process pid startTs : ℕ)
  | sweep (process : ℕ)
  | inspect (process : ℕ) (own path : BufferName)
  | rename (job : Job) (suffix : ℕ) (ok : Bool)
  | read (job : Job) (ok : Bool)
  | putObject (job : Job) (ok : Bool)
  | remove (job : Job) (ok : Bool)
  | retry (job : Job) (suffix : ℕ) (ok : Bool)
  | kill (process : ℕ)

variable (config : ℕ → Config)

/-- `record_event` opens the active file, or creates it. -/
def openActive (s : State) (process event : ℕ) : Option State := do
  let path ← s.active process
  if s.writer process ≠ none then none
  else
    match s.files path with
    | some inode => some (s.setWriter process (some (inode, event)))
    | none =>
      some ({ s.setFile path (some s.nextInode) with
        content := fun i => if i = s.nextInode then [] else s.content i
        modified := fun i => if i = s.nextInode then s.now else s.modified i
        nextInode := s.nextInode + 1 }.setWriter process (some (s.nextInode, event)))

/-- It appends its line to the file it has open. -/
def write (s : State) (process : ℕ) (ok : Bool) : Option State := do
  let (inode, event) ← s.writer process
  if ok then
    some ({ s with
      content := fun i => if i = inode then s.content i ++ [event] else s.content i
      modified := fun i => if i = inode then s.now else s.modified i
      counted := event :: s.counted }.setWriter process none)
  else some (s.setWriter process none)

/-- A flush waits for the lock of its process. -/
def flushActive (s : State) (process pid startTs : ℕ) : Option State := do
  let path ← s.active process
  if s.writer process ≠ none then none
  else if (config process).hasTarget then
    some { s.setActive process (some (.active pid startTs)) with
      jobs := ⟨process, path, .rotating⟩ :: s.jobs }
  else some s

/-- A sweep finds a file that is not the one it takes for its own, and is idle. -/
def inspect (s : State) (process : ℕ) (own path : BufferName) : Option State := do
  let inode ← s.files path
  if (process, own) ∈ s.sweeps ∧ path ≠ own ∧
      s.modified inode + 2 * (config process).flushInterval ≤ s.now then
    some { s with jobs := ⟨process, path, if path.isPending then .toRead else .rotating⟩ :: s.jobs }
  else none

/-- A file is renamed to be uploaded. When it is gone, or on an error, that is all. -/
def rename (s : State) (job : Job) (suffix : ℕ) (ok : Bool) : Option State :=
  if job ∈ s.jobs ∧ job.stage = .rotating then
    if (s.files job.path).isSome && ok then
      let target := job.path.rotatedPathFor 1 suffix
      some ((s.rename job.path target).next job ⟨job.process, target, .toRead⟩)
    else some (s.done job)
  else none

/-- A file without events is removed without an upload. -/
def read (s : State) (job : Job) (ok : Bool) : Option State :=
  if job ∈ s.jobs ∧ job.stage = .toRead then
    match s.files job.path with
    | some inode =>
      if ok && (config job.process).hasTarget then
        some (s.next job { job with
          stage := if s.content inode = [] then .uploaded [] else .read inode (s.content inode) })
      else some (s.done job)
    | none => some (s.done job)
  else none

def putObject (s : State) (job : Job) (ok : Bool) : Option State :=
  match job.stage with
  | .read inode data =>
    if job ∈ s.jobs then
      if ok then
        some ({ s with uploaded := data ++ s.uploaded }.next job
          { job with stage := .uploaded data })
      else
        some ({ s with failedUploads := fun i =>
          if i = inode then s.failedUploads i + 1 else s.failedUploads i }.next job
            { job with stage := .failed inode })
    else none
  | _ => none

/-- The file is removed after its upload, or after its last attempt. -/
def remove (s : State) (job : Job) (ok : Bool) : Option State :=
  if job ∈ s.jobs then
    match job.stage, s.files job.path with
    | .uploaded _, _ =>
      some (if ok then (s.setFile job.path none).done job else s.done job)
    | .failed _, file =>
      if job.path.pendingAttempt ≥ max 1 (config job.process).maxUploadRetries then
        match ok, file with
        | true, some inode =>
          some { (s.setFile job.path none).done job with
            dropped := ⟨s.content inode, s.failedUploads inode,
              max 1 (config job.process).maxUploadRetries⟩ :: s.dropped }
        | _, _ => some (s.done job)
      else none
    | _, _ => none
  else none

/-- The number of the next attempt is put into the name. -/
def retry (s : State) (job : Job) (suffix : ℕ) (ok : Bool) : Option State :=
  match job.stage with
  | .failed _ =>
    if job ∈ s.jobs ∧
        job.path.pendingAttempt < max 1 (config job.process).maxUploadRetries then
      if (s.files job.path).isSome && ok then
        some ((s.rename job.path
          (job.path.rotatedPathFor (job.path.pendingAttempt + 1) suffix)).done job)
      else some (s.done job)
    else none
  | _ => none

def step (s : State) : Act → Option State
  | .tick seconds => some { s with now := s.now + seconds }
  | .new process pid startTs =>
    if s.active process = none then some (s.setActive process (some (.active pid startTs)))
    else none
  | .openActive process event => AnalyticsBuffer.openActive s process event
  | .write process ok => AnalyticsBuffer.write s process ok
  | .flush process pid startTs => flushActive config s process pid startTs
  | .sweep process =>
    (s.active process).map fun own => { s with sweeps := (process, own) :: s.sweeps }
  | .inspect process own path => AnalyticsBuffer.inspect config s process own path
  | .rename job suffix ok => AnalyticsBuffer.rename s job suffix ok
  | .read job ok => AnalyticsBuffer.read config s job ok
  | .putObject job ok => AnalyticsBuffer.putObject s job ok
  | .remove job ok => AnalyticsBuffer.remove config s job ok
  | .retry job suffix ok => AnalyticsBuffer.retry config s job suffix ok
  | .kill process =>
    some { (s.setWriter process none).setActive process none with
      jobs := s.jobs.filter fun job => job.process ≠ process
      sweeps := s.sweeps.filter fun sweep => sweep.1 ≠ process }

/-! ## What is to hold -/

/-- The event is in a file of the directory. -/
def InDirectory (s : State) (event : ℕ) : Prop :=
  ∃ path inode, s.files path = some inode ∧ event ∈ s.content inode

/-- The event was in a file that was dropped after enough failed uploads. -/
def WasDropped (s : State) (event : ℕ) : Prop :=
  ∃ d ∈ s.dropped, event ∈ d.events ∧ d.maxUploadRetries ≤ d.failedUploads

/-- Every event that counts as written is in the directory, or uploaded, or was dropped. -/
def Kept (s : State) : Prop :=
  ∀ event ∈ s.counted, InDirectory s event ∨ event ∈ s.uploaded ∨ WasDropped s event

/-- A write lands in a file of the directory, a file is removed after its upload when it has no
event that was not uploaded, and no new name has been in use. -/
def Keeps (s : State) : Act → Prop
  | .write process true => ∀ w, s.writer process = some w → ∃ path, s.files path = some w.1
  | .remove job true => ∀ data inode, job.stage = .uploaded data → s.files job.path = some inode →
      ∀ event ∈ s.content inode, event ∈ data
  | .rename job suffix true => job.path.rotatedPathFor 1 suffix ∉ s.used
  | .retry job suffix true =>
    job.path.rotatedPathFor (job.path.pendingAttempt + 1) suffix ∉ s.used
  | _ => True

/-! ## The invariant -/

/-- What is known of a job : a file to upload has a name in use, data that was uploaded counts as
uploaded, and a failed upload has been counted for the file of that name. -/
def JobOk (s : State) (job : Job) : Prop :=
  match job.stage with
  | .rotating => True
  | .toRead => job.path ∈ s.used ∧ job.path.isPending = true
  | .read inode _ => job.path ∈ s.used ∧ job.path.isPending = true ∧
      job.path.pendingAttempt ≤ s.failedUploads inode + 1 ∧
      ∀ i, s.files job.path = some i → i = inode
  | .uploaded data => ∀ event ∈ data, event ∈ s.uploaded
  | .failed inode => job.path ∈ s.used ∧ job.path.isPending = true ∧
      job.path.pendingAttempt ≤ s.failedUploads inode ∧
      ∀ i, s.files job.path = some i → i = inode

structure Inv (s : State) : Prop where
  kept : Kept s
  active : ∀ process path, s.active process = some path → path.isPending = false
  inodes : ∀ path inode, s.files path = some inode → inode < s.nextInode
  pending : ∀ path inode, s.files path = some inode → path.isPending = true → path ∈ s.used
  attempts : ∀ path inode, s.files path = some inode →
    path.pendingAttempt ≤ s.failedUploads inode + 1
  jobs : ∀ job ∈ s.jobs, JobOk s job

theorem inv_start : Inv start where
  kept _ h := absurd h List.not_mem_nil
  active _ _ h := nomatch h
  inodes _ _ h := nomatch h
  pending _ _ h := nomatch h
  attempts _ _ h := nomatch h
  jobs _ h := absurd h List.not_mem_nil

variable {s s' : State} {job : Job}

/-- What is known of a job stays known while names in use are not given to other files. -/
theorem JobOk.mono (h : JobOk s job)
    (hused : ∀ path ∈ s.used, path ∈ s'.used) (huploaded : ∀ e ∈ s.uploaded, e ∈ s'.uploaded)
    (hfailed : ∀ i, s.failedUploads i ≤ s'.failedUploads i)
    (hfiles : ∀ path ∈ s.used, path.isPending = true → ∀ i, s'.files path = some i →
      s.files path = some i) : JobOk s' job := by
  unfold JobOk at h ⊢
  split
  · trivial
  · next hstage =>
    simp only [hstage] at h
    exact ⟨hused _ h.1, h.2⟩
  · next inode data hstage =>
    simp only [hstage] at h
    obtain ⟨hu, hp, ha, hi⟩ := h
    exact ⟨hused _ hu, hp, Nat.le_trans ha (Nat.add_le_add_right (hfailed inode) 1),
      fun i hf => hi i (hfiles _ hu hp i hf)⟩
  · next data hstage =>
    simp only [hstage] at h
    exact fun e he => huploaded e (h e he)
  · next inode hstage =>
    simp only [hstage] at h
    obtain ⟨hu, hp, ha, hi⟩ := h
    exact ⟨hused _ hu, hp, Nat.le_trans ha (hfailed inode), fun i hf => hi i (hfiles _ hu hp i hf)⟩

variable {s : State}

/-- Jobs that end or go on do not change what is known of the others. -/
theorem JobOk.of_erase (h : ∀ j ∈ s.jobs, JobOk s j) :
    ∀ j ∈ s.jobs.erase job, JobOk s j :=
  fun j hj => h j (List.mem_of_mem_erase hj)

theorem Inv.done (h : Inv s) (job : Job) : Inv (s.done job) :=
  { h with jobs := JobOk.of_erase h.jobs }

theorem Inv.next (h : Inv s) (job : Job) {job' : Job} (hjob : JobOk s job') :
    Inv (s.next job job') := by
  refine { h with jobs := fun j hj => ?_ }
  rcases List.mem_cons.1 hj with rfl | hj
  · exact hjob
  · exact JobOk.of_erase h.jobs j hj

/-- A new name for a file, which had not been in use. -/
theorem Inv.rename (h : Inv s) {path target : BufferName} {inode : ℕ}
    (hpath : s.files path = some inode) (hpending : target.isPending = true)
    (hattempt : target.pendingAttempt ≤ s.failedUploads inode + 1) (hnew : target ∉ s.used) :
    Inv (s.rename path target) := by
  have hfree : s.files target = none := by
    cases hf : s.files target with
    | none => rfl
    | some i => exact absurd (h.pending target i hf hpending) hnew
  -- a file that is found afterwards was there, under the old name or its own
  have hback : ∀ p i, (s.rename path target).files p = some i →
      (p = target ∧ i = inode) ∨ (p ≠ target ∧ s.files p = some i) := by
    intro p i hf
    simp only [State.rename, State.setFile] at hf
    split at hf
    · next heq =>
      rw [hpath] at hf
      exact Or.inl ⟨heq, (Option.some.inj hf).symm⟩
    · next hne =>
      split at hf
      · exact nomatch hf
      · exact Or.inr ⟨hne, hf⟩
  refine ⟨fun e he => ?_, h.active, fun p i hf => ?_, fun p i hf hp => ?_, fun p i hf => ?_,
    fun job hjob => ?_⟩
  · refine (h.kept e he).imp_left fun ⟨p, i, hf, hmem⟩ => ?_
    by_cases hp : p = path
    · refine ⟨target, i, ?_, hmem⟩
      rw [hp] at hf
      simp [State.rename, hf, State.setFile]
    · refine ⟨p, i, ?_, hmem⟩
      have hne : p ≠ target := fun heq => by
        rw [heq, hfree] at hf
        exact nomatch hf
      simp [State.rename, State.setFile, hp, hne, hf]
  · rcases hback p i hf with ⟨-, rfl⟩ | ⟨-, hold⟩
    · exact h.inodes path i hpath
    · exact h.inodes p i hold
  · rcases hback p i hf with ⟨rfl, -⟩ | ⟨-, hold⟩
    · exact List.mem_cons_self
    · exact List.mem_cons_of_mem _ (h.pending p i hold hp)
  · rcases hback p i hf with ⟨rfl, rfl⟩ | ⟨-, hold⟩
    · exact hattempt
    · exact h.attempts p i hold
  · refine (h.jobs job hjob).mono (fun p hp => List.mem_cons_of_mem _ hp) (fun _ he => he)
      (fun _ => Nat.le_refl _) fun p hp _ i hf => ?_
    rcases hback p i hf with ⟨rfl, -⟩ | ⟨-, hold⟩
    · exact absurd hp hnew
    · exact hold

/-- A file is removed when each of its events is uploaded, or is recorded as dropped. -/
theorem Inv.removeFile (h : Inv s) (path : BufferName) (dropped : List Dropped)
    (hsub : ∀ d ∈ s.dropped, d ∈ dropped)
    (hgone : ∀ inode, s.files path = some inode → ∀ e ∈ s.content inode,
      e ∈ s.uploaded ∨ ∃ d ∈ dropped, e ∈ d.events ∧ d.maxUploadRetries ≤ d.failedUploads) :
    Inv { s.setFile path none with dropped } := by
  have hback : ∀ p i, (s.setFile path none).files p = some i → s.files p = some i := by
    intro p i hf
    simp only [State.setFile] at hf
    split at hf
    · exact nomatch hf
    · exact hf
  refine ⟨fun e he => ?_, h.active, fun p i hf => h.inodes p i (hback p i hf),
    fun p i hf => h.pending p i (hback p i hf), fun p i hf => h.attempts p i (hback p i hf),
    fun job hjob => (h.jobs job hjob).mono (fun _ hp => hp) (fun _ he => he)
      (fun _ => Nat.le_refl _) fun p _ _ i hf => hback p i hf⟩
  rcases h.kept e he with ⟨p, i, hf, hmem⟩ | hup | ⟨d, hd, hdrop⟩
  · by_cases hp : p = path
    · exact (hgone i (hp ▸ hf) e hmem).elim (fun hu => Or.inr (Or.inl hu))
        fun hd => Or.inr (Or.inr hd)
    · exact Or.inl ⟨p, i, by simp [State.setFile, hp, hf], hmem⟩
  · exact Or.inr (Or.inl hup)
  · exact Or.inr (Or.inr ⟨d, hsub d hd, hdrop⟩)

theorem Inv.setActive (h : Inv s) (process : ℕ) (path : Option BufferName)
    (hpath : ∀ p, path = some p → p.isPending = false) : Inv (s.setActive process path) := by
  refine { h with active := fun q p hq => ?_ }
  simp only [State.setActive] at hq
  split at hq
  · exact hpath p hq
  · exact h.active q p hq

/-- A new file has a name that is not one of a file to upload, and is empty. -/
theorem Inv.openActive (h : Inv s) {process event : ℕ}
    (hs : openActive s process event = some s') : Inv s' := by
  obtain ⟨path, hactive, hs⟩ := Option.bind_eq_some_iff.1 hs
  obtain ⟨-, hs⟩ := Option.ite_none_left_eq_some.1 hs
  have hpath := h.active process path hactive
  split at hs
  · obtain rfl := Option.some.inj hs
    exact { h with }
  · next hnone =>
    obtain rfl := Option.some.inj hs
    have hback : ∀ p i, (if p = path then some s.nextInode else s.files p) = some i →
        (p = path ∧ i = s.nextInode) ∨ (p ≠ path ∧ s.files p = some i) := by
      intro p i hf
      split at hf
      · next heq => exact Or.inl ⟨heq, (Option.some.inj hf).symm⟩
      · next hne => exact Or.inr ⟨hne, hf⟩
    refine ⟨fun e he => ?_, h.active, fun p i hf => ?_, fun p i hf hp => ?_, fun p i hf => ?_,
      fun job hjob => ?_⟩
    · refine (h.kept e he).imp_left fun ⟨p, i, hf, hmem⟩ => ⟨p, i, ?_, ?_⟩
      · have hne : p ≠ path := fun heq => by
          rw [heq, hnone] at hf
          exact nomatch hf
        simpa [State.setWriter, State.setFile, hne] using hf
      · have hlt : i ≠ s.nextInode := Nat.ne_of_lt (h.inodes p i hf)
        simpa [State.setWriter, hlt] using hmem
    · rcases hback p i hf with ⟨-, rfl⟩ | ⟨-, hold⟩
      · exact Nat.lt_succ_self _
      · exact Nat.lt_succ_of_lt (h.inodes p i hold)
    · rcases hback p i hf with ⟨rfl, -⟩ | ⟨-, hold⟩
      · rw [hpath] at hp
        exact nomatch hp
      · exact h.pending p i hold hp
    · rcases hback p i hf with ⟨rfl, -⟩ | ⟨-, hold⟩
      · cases p with
        | active pid startTs => exact Nat.le_add_left 1 _
        | pending pid startTs attempt suffix => exact nomatch hpath
      · exact h.attempts p i hold
    · refine (h.jobs job hjob).mono (fun _ hp => hp) (fun _ he => he) (fun _ => Nat.le_refl _)
        fun p _ hp i hf => ?_
      rcases hback p i hf with ⟨rfl, -⟩ | ⟨-, hold⟩
      · rw [hpath] at hp
        exact nomatch hp
      · exact hold

variable {ok : Bool}

/-- A write lands in a file of the directory, and takes nothing from it. -/
theorem Inv.write (h : Inv s) {process : ℕ}
    (hk : Keeps s (.write process ok)) (hs : write s process ok = some s') : Inv s' := by
  obtain ⟨⟨inode, event⟩, hwriter, hs⟩ := Option.bind_eq_some_iff.1 hs
  cases ok with
  | false =>
    obtain rfl := Option.some.inj hs
    exact { h with }
  | true =>
    obtain rfl := Option.some.inj hs
    obtain ⟨path, hpath⟩ := hk (inode, event) hwriter
    have hgrows : ∀ i e, e ∈ s.content i →
        e ∈ (if i = inode then s.content i ++ [event] else s.content i) := by
      intro i e he
      split
      · exact List.mem_append_left _ he
      · exact he
    refine { h with kept := fun e he => ?_ }
    rcases List.mem_cons.1 he with rfl | he
    · exact Or.inl ⟨path, inode, hpath, by simp [State.setWriter]⟩
    · exact (h.kept e he).imp_left fun ⟨p, i, hf, hmem⟩ => ⟨p, i, hf, hgrows i e hmem⟩

variable {config : ℕ → Config}

theorem Inv.flushActive (h : Inv s)
    {process pid startTs : ℕ} (hs : flushActive config s process pid startTs = some s') :
    Inv s' := by
  obtain ⟨path, -, hs⟩ := Option.bind_eq_some_iff.1 hs
  obtain ⟨-, hs⟩ := Option.ite_none_left_eq_some.1 hs
  split at hs
  · obtain rfl := Option.some.inj hs
    have hactive := h.setActive process (some (.active pid startTs)) fun p hp =>
      Option.some.inj hp ▸ rfl
    refine { hactive with jobs := fun job hjob => ?_ }
    rcases List.mem_cons.1 hjob with rfl | hjob
    · trivial
    · exact hactive.jobs job hjob
  · obtain rfl := Option.some.inj hs
    exact h

theorem Inv.inspect (h : Inv s) {process : ℕ}
    {own path : BufferName} (hs : inspect config s process own path = some s') : Inv s' := by
  obtain ⟨inode, hfile, hs⟩ := Option.bind_eq_some_iff.1 hs
  obtain ⟨-, hs⟩ := Option.ite_none_right_eq_some.1 hs
  obtain rfl := Option.some.inj hs
  refine { h with jobs := fun job hjob => ?_ }
  rcases List.mem_cons.1 hjob with rfl | hjob
  · unfold JobOk
    by_cases hp : path.isPending = true
    · simp only [hp, if_true]
      exact ⟨h.pending path inode hfile hp, trivial⟩
    · simp [hp]
  · exact h.jobs job hjob

theorem Inv.renameStep (h : Inv s) {suffix : ℕ}
    (hk : Keeps s (.rename job suffix ok)) (hs : AnalyticsBuffer.rename s job suffix ok = some s') :
    Inv s' := by
  obtain ⟨-, hs⟩ := Option.ite_none_right_eq_some.1 hs
  split at hs
  · next hif =>
    obtain rfl := Option.some.inj hs
    obtain ⟨hsome, rfl⟩ : (s.files job.path).isSome = true ∧ ok = true := by simpa using hif
    obtain ⟨inode, hfile⟩ := Option.isSome_iff_exists.1 hsome
    have hpending := BufferName.isPending_rotatedPathFor 1 suffix job.path
    refine (h.rename hfile hpending ?_ hk).next job ⟨List.mem_cons_self, hpending⟩
    rw [BufferName.pendingAttempt_rotatedPathFor]
    exact Nat.le_add_left 1 _
  · obtain rfl := Option.some.inj hs
    exact h.done job

theorem Inv.read (h : Inv s) (hs : AnalyticsBuffer.read config s job ok = some s') : Inv s' := by
  obtain ⟨⟨hjob, hstage⟩, hs⟩ := Option.ite_none_right_eq_some.1 hs
  have hok := h.jobs job hjob
  simp only [JobOk, hstage] at hok
  split at hs
  · next inode hfile =>
    split at hs
    · obtain rfl := Option.some.inj hs
      refine h.next job ?_
      by_cases hempty : s.content inode = []
      · simp only [JobOk, hempty, if_true]
        exact fun e he => absurd he List.not_mem_nil
      · simp only [JobOk, hempty, if_false]
        exact ⟨hok.1, hok.2, h.attempts _ _ hfile, fun i hi =>
          Option.some.inj (hi.symm.trans hfile)⟩
    · obtain rfl := Option.some.inj hs
      exact h.done job
  · obtain rfl := Option.some.inj hs
    exact h.done job

theorem Inv.putObject (h : Inv s) (hs : AnalyticsBuffer.putObject s job ok = some s') : Inv s' := by
  unfold AnalyticsBuffer.putObject at hs
  split at hs
  · next inode data hstage =>
    obtain ⟨hjob, hs⟩ := Option.ite_none_right_eq_some.1 hs
    have hok := h.jobs job hjob
    simp only [JobOk, hstage] at hok
    split at hs
    · obtain rfl := Option.some.inj hs
      have hup : Inv { s with uploaded := data ++ s.uploaded } :=
        { h with
          kept := fun e he => (h.kept e he).imp_right fun h =>
            h.imp_left fun hu => List.mem_append_right _ hu
          jobs := fun j hj => (h.jobs j hj).mono (fun _ hp => hp)
            (fun _ he => List.mem_append_right _ he) (fun _ => Nat.le_refl _) fun _ _ _ _ hf => hf }
      exact hup.next job fun e he => List.mem_append_left _ he
    · obtain rfl := Option.some.inj hs
      have hle : ∀ i, s.failedUploads i ≤
          (if i = inode then s.failedUploads i + 1 else s.failedUploads i) := by
        intro i
        split <;> omega
      have hfailed : Inv { s with failedUploads := fun i =>
          if i = inode then s.failedUploads i + 1 else s.failedUploads i } :=
        { h with
          attempts := fun p i hf =>
            Nat.le_trans (h.attempts p i hf) (Nat.add_le_add_right (hle i) 1)
          jobs := fun j hj => (h.jobs j hj).mono (fun _ hp => hp) (fun _ he => he) hle
            fun _ _ _ _ hf => hf }
      refine hfailed.next job ⟨hok.1, hok.2.1, ?_, hok.2.2.2⟩
      simpa using hok.2.2.1
  · exact nomatch hs

theorem Inv.remove (h : Inv s)
    (hk : Keeps s (.remove job ok)) (hs : AnalyticsBuffer.remove config s job ok = some s') :
    Inv s' := by
  obtain ⟨hjob, hs⟩ := Option.ite_none_right_eq_some.1 hs
  have hok := h.jobs job hjob
  split at hs
  · next data hstage =>
    simp only [JobOk, hstage] at hok
    obtain rfl := Option.some.inj hs
    cases ok with
    | false => exact h.done job
    | true =>
      refine Inv.done (s := s.setFile job.path none) ?_ job
      exact h.removeFile job.path s.dropped (fun _ hd => hd) fun inode hf e he =>
        Or.inl (hok e (hk data inode hstage hf e he))
  · next inode hstage =>
    simp only [JobOk, hstage] at hok
    obtain ⟨hlast, hs⟩ := Option.ite_none_right_eq_some.1 hs
    cases ok with
    | false =>
      obtain rfl := Option.some.inj hs
      exact h.done job
    | true =>
      cases hfile : s.files job.path with
      | none =>
        rw [hfile] at hs
        obtain rfl := Option.some.inj hs
        exact h.done job
      | some i =>
        rw [hfile] at hs
        obtain rfl := Option.some.inj hs
        -- the file of that name is the one whose upload failed
        obtain rfl : i = inode := hok.2.2.2 i hfile
        have hremoved := h.removeFile job.path (⟨s.content i, s.failedUploads i,
          max 1 (config job.process).maxUploadRetries⟩ :: s.dropped)
          (fun _ hd => List.mem_cons_of_mem _ hd) fun j hf e he => by
            obtain rfl := Option.some.inj (hf.symm.trans hfile)
            exact Or.inr ⟨_, List.mem_cons_self, he, Nat.le_trans hlast hok.2.2.1⟩
        exact hremoved.done job
  · exact nomatch hs

theorem Inv.retry (h : Inv s) {suffix : ℕ} (hk : Keeps s (.retry job suffix ok))
    (hs : AnalyticsBuffer.retry config s job suffix ok = some s') : Inv s' := by
  unfold AnalyticsBuffer.retry at hs
  split at hs
  · next inode hstage =>
    obtain ⟨⟨hjob, -⟩, hs⟩ := Option.ite_none_right_eq_some.1 hs
    have hok := h.jobs job hjob
    simp only [JobOk, hstage] at hok
    split at hs
    · next hif =>
      obtain rfl := Option.some.inj hs
      obtain ⟨hsome, rfl⟩ : (s.files job.path).isSome = true ∧ ok = true := by simpa using hif
      obtain ⟨i, hfile⟩ := Option.isSome_iff_exists.1 hsome
      obtain rfl : i = inode := hok.2.2.2 i hfile
      refine (h.rename hfile (BufferName.isPending_rotatedPathFor _ _ _) ?_ hk).done job
      rw [BufferName.pendingAttempt_rotatedPathFor]
      exact Nat.add_le_add_right hok.2.2.1 1
    · obtain rfl := Option.some.inj hs
      exact h.done job
  · exact nomatch hs

/-- Every step keeps the invariant. -/
theorem Inv.step (h : Inv s) {a : Act} (hk : Keeps s a)
    (hs : step config s a = some s') : Inv s' := by
  cases a with
  | tick seconds =>
    obtain rfl := Option.some.inj hs
    exact { h with }
  | new process pid startTs =>
    obtain ⟨-, hs⟩ := Option.ite_none_right_eq_some.1 hs
    obtain rfl := Option.some.inj hs
    exact h.setActive process _ fun p hp => Option.some.inj hp ▸ rfl
  | openActive process event => exact h.openActive hs
  | write process ok => exact h.write hk hs
  | flush process pid startTs => exact h.flushActive hs
  | sweep process =>
    obtain ⟨own, -, rfl⟩ := Option.map_eq_some_iff.1 hs
    exact { h with }
  | inspect process own path => exact h.inspect hs
  | rename job suffix ok => exact h.renameStep hk hs
  | read job ok => exact h.read hs
  | putObject job ok => exact h.putObject hs
  | remove job ok => exact h.remove hk hs
  | retry job suffix ok => exact h.retry hk hs
  | kill process =>
    obtain rfl := Option.some.inj hs
    have hactive := h.setActive process none fun p hp => nomatch hp
    exact { hactive with jobs := fun job hjob => h.jobs job (List.mem_filter.1 hjob).1 }

/-- In such runs no event that counts as written is lost. -/
theorem kept_of_keeps (config : ℕ → Config) {s : State}
    (h : ReachWhen (step config) Keeps start s) : Kept s :=
  (h.invariant inv_start fun _ _ _ hi hk hs => hi.step hk hs).kept

/-- A flush interval of ten seconds, and two attempts. -/
def tenSeconds : ℕ → Config := fun _ => ⟨10, 2, true⟩

/-- A file whose first upload fails. -/
def failedUpload : List Act :=
  [.new 1 100 0, .openActive 1 7, .write 1 true, .flush 1 100 1,
    .rename ⟨1, .active 100 0, .rotating⟩ 5 true, .read ⟨1, .pending 100 0 1 5, .toRead⟩ true,
    .putObject ⟨1, .pending 100 0 1 5, .read 0 [7]⟩ false,
    .retry ⟨1, .pending 100 0 1 5, .failed 0⟩ 6 true]

theorem kept_failedUpload :
    ∃ s, execute (step tenSeconds) start failedUpload = some s ∧ Kept s := by
  refine ⟨_, rfl, kept_of_keeps tenSeconds ?_⟩
  have h₀ : ReachWhen (step tenSeconds) Keeps start start := .init
  have h₁ := h₀.step (a := Act.new 1 100 0) trivial rfl
  have h₂ := h₁.step (a := Act.openActive 1 7) trivial rfl
  have h₃ := h₂.step (a := Act.write 1 true)
    (fun w hw => ⟨.active 100 0, Option.some.inj hw ▸ rfl⟩) rfl
  have h₄ := h₃.step (a := Act.flush 1 100 1) trivial rfl
  have h₅ := h₄.step (a := Act.rename ⟨1, .active 100 0, .rotating⟩ 5 true) List.not_mem_nil rfl
  have h₆ := h₅.step (a := Act.read ⟨1, .pending 100 0 1 5, .toRead⟩ true) trivial rfl
  have h₇ := h₆.step (a := Act.putObject ⟨1, .pending 100 0 1 5, .read 0 [7]⟩ false) trivial rfl
  exact h₇.step (a := Act.retry ⟨1, .pending 100 0 1 5, .failed 0⟩ 6 true)
    (show _ ∉ [_] by decide) rfl

/-- Process 1 has no place to upload to, so that it keeps its file. -/
def oneTarget : ℕ → Config := fun process => ⟨10, 2, process == 2⟩

/-- Process 1 was idle, and has its file open when process 2 sweeps it. -/
def sweptWhileOpen : List Act :=
  [.new 1 100 0, .openActive 1 7, .write 1 true, .tick 20, .new 2 200 0, .sweep 2,
    .inspect 2 (.active 200 0) (.active 100 0), .openActive 1 8,
    .rename ⟨2, .active 100 0, .rotating⟩ 5 true, .read ⟨2, .pending 100 0 1 5, .toRead⟩ true,
    .putObject ⟨2, .pending 100 0 1 5, .read 0 [7]⟩ true, .write 1 true,
    .remove ⟨2, .pending 100 0 1 5, .uploaded [7]⟩ true]

/-- The second event is written after the file was read, and goes with it. -/
theorem not_kept_sweptWhileOpen : ∃ s, Reach (step oneTarget) start s ∧ ¬Kept s := by
  refine ⟨_, .of_execute sweptWhileOpen rfl, fun h => ?_⟩
  rcases h 8 List.mem_cons_self with ⟨path, inode, hf, -⟩ | hu | ⟨d, hd, -⟩
  · change (if path = .pending 100 0 1 5 then none else
      if path = .pending 100 0 1 5 then some 0 else
      if path = .active 100 0 then none else
      if path = .active 100 0 then some 0 else none) = some inode at hf
    by_cases hp : path = .pending 100 0 1 5
    · simp [hp] at hf
    · by_cases ha : path = .active 100 0
      · simp [ha] at hf
      · simp [hp, ha] at hf
  · exact absurd hu (by decide)
  · exact absurd hd List.not_mem_nil

end ChunkHound.AnalyticsBuffer
