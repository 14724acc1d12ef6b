import ChunkHound.StepSystem

/-!
# One owner of the database file

The executor's queue, the connections of Python's side and the runner that hands the file to the
Rust pipeline. A caller tests the two flags, and submits its operation later : the executor
opens a connection for it if there is none.

The runner publishes its flag before the release, so nothing that tests it later is submitted.
What tested it earlier may be : behind the disconnect, it opens the file again while the pipeline
owns it (`late_submission_opens`). Where no such submission comes, the queue is drained by the
disconnect (`Draining`), and the pipeline is alone on the file (`singleOwner_of_undisturbed`).

Left out are `disconnect` and `shutdown` of the provider, after which nothing is submitted.
-/

namespace ChunkHound.Ownership

open StepSystem

/-- What callers submit. `execute` is any operation of its own name. -/
inductive Operation
  | execute
  | connect
  | compact
  deriving DecidableEq

/-- `disconnect` is the one of the runner's release, by number. -/
inductive Job
  | operation (op : Operation)
  | disconnect (run : ℕ)
  deriving DecidableEq

/-- Where the runner is : before it publishes the flag, before the release tests for a compaction,
before it submits, waiting for the disconnect, before it closes the connection manager's
connection, while the pipeline runs, before the flag is cleared and before it reconnects. -/
inductive Runner
  | idle
  | flagged
  | submitting
  | waiting
  | releasing (isReleased : Bool)
  | owning
  | ended
  | cleared
  deriving DecidableEq

namespace Runner

/-- From `set_rust_pipeline_in_progress(True)` to `set_rust_pipeline_in_progress(False)`. -/
def marked : Runner → Bool
  | .idle => false
  | .cleared => false
  | _ => true

/-- From the submitted disconnect to the end of the pipeline. -/
def draining : Runner → Bool
  | .waiting => true
  | .releasing isReleased => isReleased
  | .owning => true
  | _ => false

end Runner

/-- `passed` are the operations of callers past the test, `connecting` the callers of `connect`
past theirs. `future` is that of the last disconnect. -/
structure Owners where
  rustInProgress : Bool
  compactionInProgress : Bool
  passed : List Operation
  connecting : ℕ
  queue : List Job
  running : Option Job
  executorConn : Bool
  managerConn : Bool
  runner : Runner
  run : ℕ
  future : Option Bool
  deriving DecidableEq

/-- Booleans say whether the call returns, and for `finish` which connections a compaction has
opened again. -/
inductive Step
  | check (op : Operation)
  | submit (op : Operation)
  | checkConnect
  | openManager (opens : Bool)
  | take (opens : Bool)
  | compact
  | finish (returned executorConn managerConn : Bool)
  | publish
  | checkRelease
  | submitRelease
  | timeout
  | result
  | closeManager (closes : Bool)
  | stop
  | clear
  | reconnect
  deriving DecidableEq

namespace Owners

/-- `_raise_if_db_unavailable_before_submit`. -/
def unavailable (s : Owners) : Bool := s.compactionInProgress || s.rustInProgress

/-- The future once a job has ended. -/
def settle (s : Owners) (job : Job) (returned : Bool) : Option Bool :=
  match job with
  | .disconnect run => if run = s.run then some returned else s.future
  | .operation _ => s.future

/-- `get_thread_local_connection` for the next job. Without a connection the job raises. -/
def take (s : Owners) (opens : Bool) : Option Owners :=
  match s.running, s.queue with
  | none, job :: rest =>
    if s.executorConn || opens then
      some { s with running := some job, queue := rest, executorConn := true }
    else some { s with queue := rest, future := s.settle job false }
  | _, _ => none

/-- The end of a job. A compaction may have raised before it closed anything. -/
def finish (s : Owners) (returned executorConn managerConn : Bool) : Option Owners :=
  match s.running with
  | none => none
  | some (.disconnect run) =>
    some { s with
      running := none
      executorConn := false
      future := s.settle (.disconnect run) returned }
  | some (.operation .compact) =>
    if s.compactionInProgress then
      some { s with
        running := none
        compactionInProgress := false
        executorConn := executorConn
        managerConn := s.managerConn || managerConn }
    else some { s with running := none }
  | some (.operation _) => some { s with running := none }

/-- `_connection_manager.disconnect(skip_checkpoint=True)`, and the handover. -/
def closeManager (s : Owners) (isReleased closes : Bool) : Owners :=
  let failed := s.managerConn && !closes
  if isReleased && !failed then { s with managerConn := false, runner := .owning }
  else { s with managerConn := failed, rustInProgress := false, runner := .cleared }

/-- What the runner does next. -/
def runnerStep (s : Owners) : Step → Option Owners
  | .publish =>
    if s.runner = .idle then some { s with rustInProgress := true, runner := .flagged } else none
  | .checkRelease =>
    if s.runner = .flagged then
      some { s with
        runner := if s.compactionInProgress then .releasing false else .submitting }
    else none
  | .submitRelease =>
    if s.runner = .submitting then
      some { s with
        queue := s.queue ++ [.disconnect (s.run + 1)]
        runner := .waiting
        run := s.run + 1
        future := none }
    else none
  | .timeout => if s.runner = .waiting then some { s with runner := .releasing false } else none
  | .result =>
    if s.runner = .waiting then s.future.map fun ok => { s with runner := .releasing ok }
    else none
  | .closeManager closes =>
    match s.runner with
    | .releasing isReleased => some (s.closeManager isReleased closes)
    | _ => none
  | .stop => if s.runner = .owning then some { s with runner := .ended } else none
  | .clear =>
    if s.runner = .ended then some { s with rustInProgress := false, runner := .cleared }
    else none
  | .reconnect =>
    if s.runner = .cleared then
      some { s with
        connecting := if s.unavailable then s.connecting else s.connecting + 1
        runner := .idle }
    else none
  | _ => none

/-- One step of a caller, of the executor or of the runner. -/
def step (s : Owners) : Step → Option Owners
  | .check op => if s.unavailable then none else some { s with passed := op :: s.passed }
  | .submit op =>
    if op ∈ s.passed then
      some { s with passed := s.passed.erase op, queue := s.queue ++ [.operation op] }
    else none
  | .checkConnect =>
    if s.unavailable then none else some { s with connecting := s.connecting + 1 }
  | .openManager opens =>
    if s.connecting = 0 then none
    else some { s with
      connecting := s.connecting - 1
      managerConn := s.managerConn || opens }
  | .take opens => s.take opens
  | .compact =>
    if s.running = some (.operation .compact) then
      some { s with compactionInProgress := true, executorConn := false, managerConn := false }
    else none
  | .finish returned executorConn managerConn => s.finish returned executorConn managerConn
  | a => s.runnerStep a

/-- A provider that is connected, or not, and idle. -/
def start (executorConn managerConn : Bool) : Owners where
  rustInProgress := false
  compactionInProgress := false
  passed := []
  connecting := 0
  queue := []
  running := none
  executorConn := executorConn
  managerConn := managerConn
  runner := .idle
  run := 0
  future := none

/-- While the pipeline runs nothing of Python's runs or holds a connection, and before and after
it every operation is accepted, a compaction apart. -/
structure SingleOwner (s : Owners) : Prop where
  owning : s.runner = .owning →
    s.running = none ∧ s.executorConn = false ∧ s.managerConn = false
  accepted : s.runner.marked = false → s.compactionInProgress = false →
    ∀ op, (s.step (.check op)).isSome = true

/-- No caller that passed the test goes on after the disconnect was submitted : it does not submit
until the pipeline has ended, nor open the manager's connection while it runs. -/
def Undisturbed (s : Owners) : Step → Prop
  | .submit _ => s.runner.draining = false
  | .openManager _ => s.runner ≠ .owning
  | _ => True

instance (s : Owners) (a : Step) : Decidable (Undisturbed s a) := by
  unfold Undisturbed
  split <;> infer_instance

/-! ## The queue drains -/

/-- What the executor still has to do, in order. -/
def jobs (s : Owners) : List Job := s.running.toList ++ s.queue

/-- The executor has nothing to do and no connection. -/
structure Quiet (s : Owners) : Prop where
  running : s.running = none
  queue : s.queue = []
  executorConn : s.executorConn = false

theorem Quiet.jobs {s : Owners} (h : s.Quiet) : s.jobs = [] := by
  rw [Owners.jobs, h.running, h.queue]
  rfl

/-- The disconnect is the last job, or has left nothing. -/
def Draining (s : Owners) : Prop :=
  (s.future = none ∧ ∃ before, s.jobs = before ++ [.disconnect s.run] ∧
      ∀ run, .disconnect run ∈ before → run < s.run) ∨
    (s.future.isSome = true ∧ s.Quiet)

/-- The executor is done with a job. -/
theorem Draining.pop {s s' : Owners} (h : s.Draining) {job : Job} {returned : Bool}
    (hjobs : s.jobs = job :: s'.jobs) (hrun : s'.run = s.run)
    (hfuture : s'.future = s.settle job returned)
    (hquiet : s'.jobs = [] → job = .disconnect s.run → s'.Quiet) : s'.Draining := by
  rcases h with ⟨hnone, before, hbefore, hlt⟩ | ⟨-, hq⟩
  · rw [hjobs] at hbefore
    cases before with
    | nil =>
      obtain ⟨rfl, hnil⟩ := List.cons.inj hbefore
      refine Or.inr ⟨?_, hquiet hnil rfl⟩
      rw [hfuture]
      simp [settle]
    | cons j before =>
      obtain ⟨rfl, htail⟩ := List.cons.inj hbefore
      refine Or.inl ⟨?_, before, hrun ▸ htail,
        fun run hmem => hrun ▸ hlt run (List.mem_cons_of_mem _ hmem)⟩
      rw [hfuture]
      cases job with
      | operation op => exact hnone
      | disconnect run =>
        have hne : run ≠ s.run := Nat.ne_of_lt (hlt run List.mem_cons_self)
        rw [settle, if_neg hne]
        exact hnone
  · rw [hq.jobs] at hjobs
    cases hjobs

/-- What holds while no caller disturbs a release. -/
structure Inv (s : Owners) : Prop where
  runs : ∀ run, .disconnect run ∈ s.jobs → run ≤ s.run
  flag : s.rustInProgress = s.runner.marked
  waiting : s.runner = .waiting → s.Draining
  released : s.runner = .releasing true → s.Quiet
  owning : s.runner = .owning → s.Quiet ∧ s.managerConn = false

theorem inv_start (executorConn managerConn : Bool) : (start executorConn managerConn).Inv where
  runs := by simp [start, jobs]
  flag := rfl
  waiting := nofun
  released := nofun
  owning := nofun

section Steps

variable {s s' : Owners}

/-- The executor is done with a job, whatever the runner does. -/
theorem Inv.pop (h : s.Inv) (job : Job) (returned : Bool) (hjobs : s.jobs = job :: s'.jobs)
    (hrun : s'.run = s.run) (hrunner : s'.runner = s.runner)
    (hrust : s'.rustInProgress = s.rustInProgress)
    (hfuture : s'.future = s.settle job returned)
    (hquiet : s'.jobs = [] → job = .disconnect s.run → s'.Quiet) : s'.Inv := by
  have hbusy : ¬s.Quiet := by
    intro hq
    rw [hq.jobs] at hjobs
    cases hjobs
  refine ⟨fun run hmem => ?_, ?_, fun hw => ?_, fun hr => ?_, fun ho => ?_⟩
  · rw [hrun]
    refine h.runs run ?_
    rw [hjobs]
    exact List.mem_cons_of_mem job hmem
  · rw [hrust, hrunner]
    exact h.flag
  · exact (h.waiting (hrunner ▸ hw)).pop hjobs hrun hfuture hquiet
  · exact absurd (h.released (hrunner ▸ hr)) hbusy
  · exact absurd (h.owning (hrunner ▸ ho)).1 hbusy

/-- A step after which the jobs and the runner are the same. -/
theorem Inv.frame (h : s.Inv) (hjobs : s'.jobs = s.jobs) (hrun : s'.run = s.run)
    (hrunner : s'.runner = s.runner) (hrust : s'.rustInProgress = s.rustInProgress)
    (hfuture : s'.future = s.future) (hquiet : s.Quiet → s'.Quiet)
    (hmanager : s.runner = .owning → s.Quiet → s.managerConn = false → s'.managerConn = false) :
    s'.Inv := by
  refine ⟨fun run hmem => ?_, ?_, fun hw => ?_, fun hr => ?_, fun ho => ?_⟩
  · rw [hrun]
    exact h.runs run (hjobs ▸ hmem)
  · rw [hrust, hrunner]
    exact h.flag
  · rcases h.waiting (hrunner ▸ hw) with ⟨hnone, before, hbefore, hlt⟩ | ⟨hsome, hq⟩
    · exact Or.inl ⟨hfuture.trans hnone, before, by rw [hjobs, hrun, hbefore], hrun ▸ hlt⟩
    · exact Or.inr ⟨hfuture ▸ hsome, hquiet hq⟩
  · exact hquiet (h.released (hrunner ▸ hr))
  · obtain ⟨hq, hm⟩ := h.owning (hrunner ▸ ho)
    exact ⟨hquiet hq, hmanager (hrunner ▸ ho) hq hm⟩

theorem quiet_of_jobs (h : s.jobs = []) (hconn : s.executorConn = false) : s.Quiet := by
  rw [jobs, List.append_eq_nil_iff] at h
  obtain ⟨hrunning, hqueue⟩ := h
  refine ⟨?_, hqueue, hconn⟩
  cases hs : s.running with
  | none => rfl
  | some job => simp [hs] at hrunning

theorem Inv.take (h : s.Inv) {opens : Bool} (hs : s.take opens = some s') : s'.Inv := by
  unfold Owners.take at hs
  split at hs
  · rename_i job rest hrunning hqueue
    have hbusy : ¬s.Quiet := by
      intro hq
      rw [hq.queue] at hqueue
      cases hqueue
    split at hs
    · obtain rfl := Option.some.inj hs
      refine h.frame ?_ rfl rfl rfl rfl (fun hq => absurd hq hbusy) fun _ hq => absurd hq hbusy
      simp [jobs, hrunning, hqueue]
    · rename_i hconn
      obtain rfl := Option.some.inj hs
      simp only [Bool.or_eq_true, not_or, Bool.not_eq_true] at hconn
      refine h.pop job false ?_ rfl rfl rfl rfl fun hnil _ => quiet_of_jobs hnil hconn.1
      simp [jobs, hrunning, hqueue]
  · cases hs

theorem Inv.finish (h : s.Inv) {returned executorConn managerConn : Bool}
    (hs : s.finish returned executorConn managerConn = some s') : s'.Inv := by
  unfold Owners.finish at hs
  split at hs
  · cases hs
  · rename_i run hrunning
    obtain rfl := Option.some.inj hs
    refine h.pop (.disconnect run) returned ?_ rfl rfl rfl rfl fun hnil _ => quiet_of_jobs hnil rfl
    simp [jobs, hrunning]
  · rename_i hrunning
    split at hs
    · obtain rfl := Option.some.inj hs
      refine h.pop (.operation .compact) returned ?_ rfl rfl rfl rfl fun _ hne => nomatch hne
      simp [jobs, hrunning]
    · obtain rfl := Option.some.inj hs
      refine h.pop (.operation .compact) returned ?_ rfl rfl rfl rfl fun _ hne => nomatch hne
      simp [jobs, hrunning]
  · rename_i op _ hrunning
    obtain rfl := Option.some.inj hs
    refine h.pop (.operation op) returned ?_ rfl rfl rfl rfl fun _ hne => nomatch hne
    simp [jobs, hrunning]

/-- A step of the runner that leaves the queue alone. -/
theorem Inv.advance (h : s.Inv) (hjobs : s'.jobs = s.jobs) (hrun : s'.run = s.run)
    (hflag : s'.rustInProgress = s'.runner.marked) (hwaiting : s'.runner ≠ .waiting)
    (hreleased : s'.runner = .releasing true → s'.Quiet)
    (howning : s'.runner = .owning → s'.Quiet ∧ s'.managerConn = false) : s'.Inv where
  runs := by
    rw [hjobs, hrun]
    exact h.runs
  flag := hflag
  waiting := fun hw => absurd hw hwaiting
  released := hreleased
  owning := howning

/-- The disconnect is the last job. -/
theorem Inv.submitRelease (h : s.Inv) (hjobs : s'.jobs = s.jobs ++ [.disconnect (s.run + 1)])
    (hrun : s'.run = s.run + 1) (hrunner : s'.runner = .waiting)
    (hrust : s'.rustInProgress = true) (hfuture : s'.future = none) : s'.Inv := by
  have hne : ∀ r, r ≠ .waiting → s'.runner ≠ r := fun r hr he => hr (he.symm.trans hrunner)
  refine ⟨fun run hmem => ?_, by rw [hrust, hrunner]; rfl, fun _ => ?_,
    fun hr => absurd hr (hne _ (by simp)), fun ho => absurd ho (hne _ (by simp))⟩
  · rw [hrun]
    rw [hjobs] at hmem
    rcases List.mem_append.1 hmem with hmem | hmem
    · exact Nat.le_succ_of_le (h.runs run hmem)
    · exact Nat.le_of_eq (Job.disconnect.inj (List.mem_singleton.1 hmem))
  · refine Or.inl ⟨hfuture, s.jobs, hrun ▸ hjobs, fun run hmem => ?_⟩
    rw [hrun]
    exact Nat.lt_succ_of_le (h.runs run hmem)

theorem Inv.closeManager (h : s.Inv) {isReleased closes : Bool}
    (hrunner : s.runner = .releasing isReleased) : (s.closeManager isReleased closes).Inv := by
  unfold Owners.closeManager
  dsimp only
  split
  · rename_i hboth
    rw [Bool.and_eq_true] at hboth
    obtain ⟨rfl, -⟩ := hboth
    obtain ⟨hrunning, hqueue, hconn⟩ := h.released hrunner
    refine h.advance rfl rfl ?_ nofun nofun
      fun _ => ⟨⟨hrunning, hqueue, hconn⟩, rfl⟩
    exact h.flag.trans (hrunner ▸ rfl)
  · exact h.advance rfl rfl rfl nofun nofun
      nofun

/-- What a step of the runner keeps. -/
theorem Inv.runnerStep (h : s.Inv) {a : Step} (hs : s.runnerStep a = some s') : s'.Inv := by
  cases a with
  | publish =>
    obtain ⟨hr, he⟩ := Option.ite_none_right_eq_some.1 hs
    obtain rfl := Option.some.inj he
    exact h.advance rfl rfl rfl nofun nofun nofun
  | checkRelease =>
    obtain ⟨hr, he⟩ := Option.ite_none_right_eq_some.1 hs
    obtain rfl := Option.some.inj he
    have hflag : s.rustInProgress = true := h.flag.trans (hr ▸ rfl)
    cases hc : s.compactionInProgress with
    | true =>
      exact h.advance rfl rfl hflag nofun nofun
        nofun
    | false =>
      exact h.advance rfl rfl hflag nofun nofun
        nofun
  | submitRelease =>
    obtain ⟨hr, he⟩ := Option.ite_none_right_eq_some.1 hs
    obtain rfl := Option.some.inj he
    refine h.submitRelease ?_ rfl rfl (h.flag.trans (hr ▸ rfl)) rfl
    simp [jobs]
  | timeout =>
    obtain ⟨hr, he⟩ := Option.ite_none_right_eq_some.1 hs
    obtain rfl := Option.some.inj he
    exact h.advance rfl rfl (h.flag.trans (hr ▸ rfl)) nofun
      nofun nofun
  | result =>
    obtain ⟨hr, he⟩ := Option.ite_none_right_eq_some.1 hs
    obtain ⟨ok, hok, rfl⟩ := Option.map_eq_some_iff.1 he
    refine h.advance rfl rfl (h.flag.trans (hr ▸ rfl)) nofun (fun _ => ?_)
      nofun
    rcases h.waiting hr with ⟨hnone, -⟩ | ⟨-, hrunning, hqueue, hconn⟩
    · rw [hok] at hnone
      cases hnone
    · exact ⟨hrunning, hqueue, hconn⟩
  | closeManager closes =>
    simp only [Owners.runnerStep] at hs
    split at hs
    · rename_i isReleased hr
      obtain rfl := Option.some.inj hs
      exact h.closeManager hr
    · cases hs
  | stop =>
    obtain ⟨hr, he⟩ := Option.ite_none_right_eq_some.1 hs
    obtain rfl := Option.some.inj he
    exact h.advance rfl rfl (h.flag.trans (hr ▸ rfl)) nofun
      nofun nofun
  | clear =>
    obtain ⟨hr, he⟩ := Option.ite_none_right_eq_some.1 hs
    obtain rfl := Option.some.inj he
    exact h.advance rfl rfl rfl nofun nofun nofun
  | reconnect =>
    obtain ⟨hr, he⟩ := Option.ite_none_right_eq_some.1 hs
    obtain rfl := Option.some.inj he
    exact h.advance rfl rfl (h.flag.trans (hr ▸ rfl)) nofun
      nofun nofun
  | check op => cases hs
  | submit op => cases hs
  | checkConnect => cases hs
  | openManager opens => cases hs
  | take opens => cases hs
  | compact => cases hs
  | finish returned executorConn managerConn => cases hs

/-- A caller submits when no release is draining the queue. -/
theorem Inv.submit (h : s.Inv) {op : Operation} (hok : s.runner.draining = false)
    (hjobs : s'.jobs = s.jobs ++ [.operation op]) (hrun : s'.run = s.run)
    (hrunner : s'.runner = s.runner) (hrust : s'.rustInProgress = s.rustInProgress) : s'.Inv := by
  have hne : ∀ r : Runner, r.draining = true → s'.runner ≠ r := by
    rintro r hr rfl
    rw [hrunner, hok] at hr
    cases hr
  refine ⟨fun run hmem => ?_, ?_, fun hw => absurd hw (hne _ rfl),
    fun hr => absurd hr (hne _ rfl), fun ho => absurd ho (hne _ rfl)⟩
  · rw [hjobs] at hmem
    rw [hrun]
    rcases List.mem_append.1 hmem with hmem | hmem
    · exact h.runs run hmem
    · cases List.mem_singleton.1 hmem
  · rw [hrust, hrunner]
    exact h.flag

/-- What one step keeps. -/
theorem Inv.step (h : s.Inv) {a : Step} (hok : Undisturbed s a) (hs : s.step a = some s') :
    s'.Inv := by
  cases a with
  | check op =>
    simp only [Owners.step] at hs
    split at hs
    · cases hs
    · obtain rfl := Option.some.inj hs
      exact h.frame rfl rfl rfl rfl rfl (fun hq => ⟨hq.running, hq.queue, hq.executorConn⟩)
        fun _ _ hm => hm
  | submit op =>
    obtain ⟨-, he⟩ := Option.ite_none_right_eq_some.1 hs
    obtain rfl := Option.some.inj he
    exact h.submit hok (List.append_assoc _ _ _).symm rfl rfl rfl
  | checkConnect =>
    simp only [Owners.step] at hs
    split at hs
    · cases hs
    · obtain rfl := Option.some.inj hs
      exact h.frame rfl rfl rfl rfl rfl (fun hq => ⟨hq.running, hq.queue, hq.executorConn⟩)
        fun _ _ hm => hm
  | openManager opens =>
    simp only [Owners.step] at hs
    split at hs
    · cases hs
    · obtain rfl := Option.some.inj hs
      exact h.frame rfl rfl rfl rfl rfl (fun hq => ⟨hq.running, hq.queue, hq.executorConn⟩)
        fun ho => absurd ho hok
  | take opens => exact h.take hs
  | compact =>
    obtain ⟨hrunning, he⟩ := Option.ite_none_right_eq_some.1 hs
    obtain rfl := Option.some.inj he
    exact h.frame rfl rfl rfl rfl rfl (fun hq => ⟨hq.running, hq.queue, rfl⟩) fun _ _ _ => rfl
  | finish returned executorConn managerConn => exact h.finish hs
  | publish => exact h.runnerStep (a := .publish) hs
  | checkRelease => exact h.runnerStep (a := .checkRelease) hs
  | submitRelease => exact h.runnerStep (a := .submitRelease) hs
  | timeout => exact h.runnerStep (a := .timeout) hs
  | result => exact h.runnerStep (a := .result) hs
  | closeManager closes => exact h.runnerStep (a := .closeManager closes) hs
  | stop => exact h.runnerStep (a := .stop) hs
  | clear => exact h.runnerStep (a := .clear) hs
  | reconnect => exact h.runnerStep (a := .reconnect) hs

theorem Inv.singleOwner (h : s.Inv) : SingleOwner s where
  owning := fun ho => by
    obtain ⟨hq, hm⟩ := h.owning ho
    exact ⟨hq.running, hq.executorConn, hm⟩
  accepted := fun hmarked hcompaction op => by
    have hflag : s.rustInProgress = false := h.flag.trans hmarked
    simp [Owners.step, unavailable, hflag, hcompaction]

end Steps

/-- Every run in which no caller past the test disturbs a release. -/
theorem singleOwner_of_undisturbed {executorConn managerConn : Bool} {s : Owners}
    (h : ReachWhen step Undisturbed (start executorConn managerConn) s) : SingleOwner s := by
  have hinv : s.Inv := h.invariant (inv_start executorConn managerConn)
    fun _ _ _ hi hok hs => hi.step hok hs
  exact hinv.singleOwner

/-! ## A late submission -/

/-- The executor runs a job. -/
def runs : List Step := [.take true, .finish true true true]

/-- Submitted before the release, run before its disconnect. -/
theorem singleOwner_in_order : ∃ s, execute (guarded step Undisturbed) (start true true)
      ([.check .execute, .publish, .submit .execute, .checkRelease, .submitRelease] ++ runs ++
        runs ++ [.result, .closeManager true]) = some s ∧
    s.runner = .owning ∧ SingleOwner s := by
  have hsome : ((execute (guarded step Undisturbed) (start true true)
      (([.check .execute, .publish, .submit .execute, .checkRelease, .submitRelease] :
        List Step) ++ runs ++ runs ++ ([.result, .closeManager true] : List Step))).any fun s =>
          s.runner = .owning) = true := by
    decide
  obtain ⟨s, hs, howning⟩ := (Option.any_eq_true _ _).1 hsome
  exact ⟨s, hs, of_decide_eq_true howning,
    singleOwner_of_undisturbed (.of_guarded (.of_execute _ hs))⟩

/-- An operation tested before the flag was published and submitted behind the disconnect opens a
connection while the pipeline runs. -/
theorem late_submission_opens : ∃ s, Reach step (start true true) s ∧ s.runner = .owning ∧
    s.running = some (.operation .execute) ∧ s.executorConn = true ∧ ¬SingleOwner s := by
  have hsome : ((execute step (start true true) (([.check .execute, .publish, .checkRelease,
      .submitRelease, .submit .execute] : List Step) ++ runs ++
        ([.result, .closeManager true, .take true] : List Step))).any fun s =>
          s.runner = .owning ∧ s.running = some (.operation .execute) ∧ s.executorConn = true) =
            true := by
    decide
  obtain ⟨s, hs, hall⟩ := (Option.any_eq_true _ _).1 hsome
  obtain ⟨howning, hrunning, hconn⟩ := of_decide_eq_true hall
  refine ⟨s, .of_execute _ hs, howning, hrunning, hconn, fun hsingle => ?_⟩
  have hclosed := (hsingle.owning howning).2.1
  rw [hconn] at hclosed
  cases hclosed

end Owners

end ChunkHound.Ownership
