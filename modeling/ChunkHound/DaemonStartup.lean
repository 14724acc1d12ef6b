import ChunkHound.PidLock

/-!
# Starting a daemon

Any number of proxies look for the daemon of their runtime directory and root, and start one if
there is none. A proxy takes three locks, one in the other : that of the user, that of the runtime
directory, and that of the root. It then looks for daemons of overlapping roots in the locks of its
runtime directory and in the registry, starts a daemon, waits for its lock, and enters it in the
registry. Only then it releases the locks. Any process may be killed between any two operations.

A proxy that is killed after it started a daemon leaves locks that the next proxy takes over, before
the daemon can be seen. `Careful` runs are those where this does not happen, the first lock is taken
over in order, and no file is unlinked that has come to be that of another daemon.

A root is the list of the parts of its canonical path. Each process has its runtime directory and
root, and a PID is not used again.
-/

namespace ChunkHound.DaemonStartup

open StepSystem

variable {ρ : Type*}

abbrev Root := List String

/-- `_roots_overlap`. -/
def rootsOverlap (a b : Root) : Bool := a.isPrefixOf b || b.isPrefixOf a

/-! ## Processes -/

/-- The startup locks. -/
inductive Name
  | cross
  | global
  | starter
  deriving DecidableEq

/-- Where in `find_or_start_daemon` a proxy looks for daemons : before the loop, without the first
lock, with the first but not the second, or with both. -/
inductive Context
  | first
  | crossBusy
  | globalBusy
  | holding
  deriving DecidableEq

/-- Where a process is. `todo` are the files that a pass has still to read. -/
inductive Stage (ρ : Type*)
  | unborn
  | dead
  -- `ChunkHoundDaemon.run` and `_graceful_shutdown`
  | writing
  | checking
  | registering
  | serving
  | removingLock
  | removingEntry
  -- a proxy between its calls
  | idle
  -- `_acquire_pid_lock` and `_release_pid_lock`
  | requesting (name : Name)
  | acquiring (name : Name)
  | releasing (name : Name) (again : Bool)
  | freeing (name : Name) (again : Bool)
  -- `_reuse_live_daemon`
  | reading (context : Context)
  | judging (context : Context) (pid : ℕ)
  | unlinking (context : Context)
  -- `find_conflicting_daemon`
  | listing (context : Context)
  | lockPass (context : Context) (todo : List Root)
  | lockJudging (context : Context) (todo : List Root) (root : Root) (pid : ℕ)
  | lockUnlinking (context : Context) (todo : List Root) (root : Root)
  | entryPass (context : Context) (todo : List Root)
  | entryJudging (context : Context) (todo : List Root) (root : Root) (pid : ℕ) (key : ρ × Root)
  | entryComparing (context : Context) (todo : List Root) (root : Root) (pid : ℕ) (key : ρ × Root)
  | entryUnlinking (context : Context) (todo : List Root) (root : Root)
  -- with all locks
  | ready
  | spawning
  | polling (child : ℕ)
  | connecting (child pid : ℕ)
  | enlisting (child pid : ℕ)
  | terminating (child : ℕ)
  deriving DecidableEq

namespace Stage

/-- The daemon has started and has not yet removed its lock. -/
def up : Stage ρ → Bool
  | .writing | .checking | .registering | .serving | .removingLock => true
  | _ => false

/-- The daemon has written its lock and has not yet removed it. -/
def locked : Stage ρ → Bool
  | .checking | .registering | .serving | .removingLock => true
  | _ => false

/-- The daemon has found its own PID in the lock that it wrote, and has not yet removed it. -/
def published : Stage ρ → Bool
  | .registering | .serving | .removingLock => true
  | _ => false

/-- The daemon that the proxy has started and not yet entered in the registry. -/
def child : Stage ρ → Option ℕ
  | .polling child | .connecting child _ | .enlisting child _ | .terminating child => some child
  | _ => none

end Stage

/-- The files are the locks of the daemons and the entries of the registry. `roots` are those for
which a file has been written. -/
structure State (ρ : Type*) where
  lock : ρ × Root → Option ℕ
  registry : Root → Option (ℕ × (ρ × Root))
  roots : List Root
  cross : PidLock.State
  global : ρ → PidLock.State
  starter : ρ × Root → PidLock.State
  stages : ℕ → Stage ρ

inductive Act
  | startProxy
  | call
  | run
  | spawn (child : ℕ)
  | giveUp
  | shutdown
  | kill
  deriving DecidableEq

def start : State ρ :=
  ⟨fun _ => none, fun _ => none, [], PidLock.start, fun _ => PidLock.start, fun _ => PidLock.start,
    fun _ => .unborn⟩

/-- What a proxy does after `_acquire_pid_lock` returned `True`. -/
def acquired : Name → Stage ρ
  | .cross => .requesting .global
  | .global => .reading .holding
  | .starter => .spawning

/-- What a proxy does after `_acquire_pid_lock` returned `False`. -/
def refused : Name → Stage ρ
  | .cross => .listing .crossBusy
  | .global => .listing .globalBusy
  | .starter => .releasing .global false

/-- What a proxy does after `_release_pid_lock`. -/
def released (again : Bool) : Name → Stage ρ
  | .starter => .releasing .global false
  | .global => .releasing .cross false
  | .cross => if again then .requesting .cross else .idle

/-- A call ends, with a daemon or an error. -/
def leave : Context → Stage ρ
  | .first => .idle
  | .crossBusy => .idle
  | .globalBusy => .releasing .cross false
  | .holding => .releasing .global false

/-- `_reuse_live_daemon` returned `None`. -/
def notReused : Context → Stage ρ
  | .first => .requesting .cross
  | .crossBusy => .requesting .cross
  | .globalBusy => .releasing .cross true
  | .holding => .listing .holding

/-- `find_conflicting_daemon` returned `None`. -/
def noConflict : Context → Stage ρ
  | .holding => .ready
  | context => .reading context

namespace State

variable [DecidableEq ρ]

def goto (s : State ρ) (p : ℕ) (stage : Stage ρ) : State ρ :=
  { s with stages := Function.update s.stages p stage }

def setLock (s : State ρ) (key : ρ × Root) (pid : Option ℕ) : State ρ :=
  { s with lock := Function.update s.lock key pid, roots := key.2 :: s.roots }

def setEntry (s : State ρ) (root : Root) (entry : Option (ℕ × (ρ × Root))) : State ρ :=
  { s with registry := Function.update s.registry root entry, roots := root :: s.roots }

/-- The startup lock of this name for a process of this runtime directory and root. -/
def pidLock (s : State ρ) (key : ρ × Root) : Name → PidLock.State
  | .cross => s.cross
  | .global => s.global key.1
  | .starter => s.starter key

def setPidLock (s : State ρ) (key : ρ × Root) (l : PidLock.State) : Name → State ρ
  | .cross => { s with cross := l }
  | .global => { s with global := Function.update s.global key.1 l }
  | .starter => { s with starter := Function.update s.starter key l }

/-- An operation on a startup lock. -/
def onLock (s : State ρ) (key : ρ × Root) (name : Name) (a : ℕ × PidLock.Act) :
    Option (State ρ) :=
  (PidLock.step (s.pidLock key name) a).map fun l => s.setPidLock key l name

/-- One operation of a process. -/
def advance (home : ℕ → ρ × Root) (s : State ρ) (p : ℕ) : Option (State ρ) :=
  match s.stages p with
  | .unborn | .dead | .serving | .idle | .spawning => none
  | .writing => some ((s.setLock (home p) (some p)).goto p .checking)
  | .checking =>
    if s.lock (home p) = some p then some (s.goto p .registering) else some (s.goto p .dead)
  | .registering => some ((s.setEntry (home p).2 (some (p, home p))).goto p .serving)
  | .removingLock => some ((s.setLock (home p) none).goto p .removingEntry)
  | .removingEntry => some ((s.setEntry (home p).2 none).goto p .dead)
  | .requesting name =>
    (s.onLock (home p) name (p, .acquire)).map fun s => s.goto p (.acquiring name)
  | .acquiring name =>
    match (s.pidLock (home p) name).phases p with
    | .holding => some (s.goto p (acquired name))
    | .idle => some (s.goto p (refused name))
    | _ => s.onLock (home p) name (p, .run)
  | .releasing name again =>
    (s.onLock (home p) name (p, .release)).map fun s => s.goto p (.freeing name again)
  | .freeing name again =>
    match (s.pidLock (home p) name).phases p with
    | .idle => some (s.goto p (released again name))
    | _ => s.onLock (home p) name (p, .run)
  | .reading context =>
    match s.lock (home p) with
    | none => some (s.goto p (notReused context))
    | some pid => some (s.goto p (.judging context pid))
  | .judging context pid =>
    if s.stages pid = .dead then some (s.goto p (.unlinking context))
    else some (s.goto p (leave context))
  | .unlinking context => some ((s.setLock (home p) none).goto p (notReused context))
  | .listing context =>
    some (s.goto p (.lockPass context
      (s.roots.filter fun root => (s.lock ((home p).1, root)).isSome)))
  | .lockPass context [] =>
    some (s.goto p (.entryPass context (s.roots.filter fun root => (s.registry root).isSome)))
  | .lockPass context (root :: todo) =>
    match s.lock ((home p).1, root) with
    | none => some (s.goto p (.lockPass context todo))
    | some pid => some (s.goto p (.lockJudging context todo root pid))
  | .lockJudging context todo root pid =>
    if s.stages pid = .dead then some (s.goto p (.lockUnlinking context todo root))
    else if root ≠ (home p).2 ∧ rootsOverlap (home p).2 root then some (s.goto p (leave context))
    else some (s.goto p (.lockPass context todo))
  | .lockUnlinking context todo root =>
    some ((s.setLock ((home p).1, root) none).goto p (.lockPass context todo))
  | .entryPass context [] => some (s.goto p (noConflict context))
  | .entryPass context (root :: todo) =>
    match s.registry root with
    | none => some (s.goto p (.entryUnlinking context todo root))
    | some (pid, key) => some (s.goto p (.entryJudging context todo root pid key))
  | .entryJudging context todo root pid key =>
    if s.stages pid = .dead then some (s.goto p (.entryUnlinking context todo root))
    else some (s.goto p (.entryComparing context todo root pid key))
  | .entryComparing context todo root pid key =>
    if s.lock key ≠ some pid then some (s.goto p (.entryUnlinking context todo root))
    else if key ≠ home p ∧ rootsOverlap (home p).2 key.2 then some (s.goto p (leave context))
    else some (s.goto p (.entryPass context todo))
  | .entryUnlinking context todo root =>
    some ((s.setEntry root none).goto p (.entryPass context todo))
  | .ready => some (s.goto p (.requesting .starter))
  | .polling child =>
    if s.stages child = .dead then some (s.goto p (.releasing .starter false))
    else
      match s.lock (home p) with
      | none => some s
      | some pid => some (s.goto p (.connecting child pid))
  | .connecting child pid =>
    if (s.stages pid).up then
      if s.stages child = .dead then some (s.goto p (.releasing .starter false))
      else some (s.goto p (.enlisting child pid))
    else some (s.goto p (.polling child))
  | .enlisting _ pid =>
    some ((s.setEntry (home p).2 (some (pid, home p))).goto p (.releasing .starter false))
  | .terminating child =>
    if s.stages child = .dead then some (s.goto p (.releasing .starter false)) else none

/-- The time is over. A daemon that was started is terminated. -/
def giveUp (s : State ρ) (p : ℕ) : Option (State ρ) :=
  match s.stages p with
  | .reading context => some (s.goto p (leave context))
  | .ready => some (s.goto p (leave .holding))
  | .polling child => some (s.goto p (.terminating child))
  | .connecting child _ => some (s.goto p (.terminating child))
  | _ => none

/-- A process is dead in all locks. -/
def killed (s : State ρ) (p : ℕ) : State ρ :=
  { s with
    cross := s.cross.goto p .dead
    global := fun r => (s.global r).goto p .dead
    starter := fun key => (s.starter key).goto p .dead }.goto p .dead

end State

def step [DecidableEq ρ] (home : ℕ → ρ × Root) (s : State ρ) (a : ℕ × Act) : Option (State ρ) :=
  match a.2 with
  | .startProxy => if s.stages a.1 = .unborn then some (s.goto a.1 .idle) else none
  | .call => if s.stages a.1 = .idle then some (s.goto a.1 (.reading .first)) else none
  | .run => s.advance home a.1
  | .spawn child =>
    if s.stages a.1 = .spawning ∧ s.stages child = .unborn ∧ home child = home a.1 then
      some ((s.goto child .writing).goto a.1 (.polling child))
    else none
  | .giveUp => s.giveUp a.1
  | .shutdown => if s.stages a.1 = .serving then some (s.goto a.1 .removingLock) else none
  | .kill =>
    if s.stages a.1 = .unborn ∨ s.stages a.1 = .dead then none else some (s.killed a.1)

/-- No two daemons of overlapping roots are live and published. -/
def OneDaemon (home : ℕ → ρ × Root) (s : State ρ) : Prop :=
  ∀ d e, (s.stages d).published = true → (s.stages e).published = true →
    rootsOverlap (home d).2 (home e).2 = true → d = e

/-! ## Care -/

namespace State

/-- The lock and the entry of the daemon are there. -/
def Enlisted (home : ℕ → ρ × Root) (s : State ρ) (d : ℕ) : Prop :=
  s.lock (home d) = some d ∧ s.registry (home d).2 = some (d, home d)

/-- The lock is not that of a daemon at work. -/
def lockStale (s : State ρ) (key : ρ × Root) : Bool := (s.lock key).all fun d => !(s.stages d).up

/-- The entry is not that of a daemon at work. -/
def entryStale (s : State ρ) (root : Root) : Bool :=
  (s.registry root).all fun entry => !(s.stages entry.1).up

end State

/-- The first startup lock is taken over in order. No proxy is killed after it started a daemon,
unless the daemon is gone or its lock and entry are there. What is unlinked is still stale. -/
def Careful (home : ℕ → ρ × Root) (s : State ρ) (a : ℕ × Act) : Prop :=
  match a.2, s.stages a.1 with
  | .kill, stage =>
    PidLock.Orderly s.cross (a.1, .kill) ∧
      ∀ d ∈ stage.child, (s.stages d).up = true → s.Enlisted home d
  | .run, .acquiring .cross => PidLock.Orderly s.cross (a.1, .run)
  | .run, .freeing .cross _ => PidLock.Orderly s.cross (a.1, .run)
  | .run, .unlinking _ => s.lockStale (home a.1) = true
  | .run, .lockUnlinking _ _ root => s.lockStale ((home a.1).1, root) = true
  | .run, .entryUnlinking _ _ root => s.entryStale root = true
  | .run, .removingEntry => s.entryStale (home a.1).2 = true
  | _, _ => True

instance [DecidableEq ρ] (home : ℕ → ρ × Root) (s : State ρ) (d : ℕ) :
    Decidable (s.Enlisted home d) := by
  unfold State.Enlisted
  infer_instance

instance [DecidableEq ρ] (home : ℕ → ρ × Root) :
    ∀ (s : State ρ) (a : ℕ × Act), Decidable (Careful home s a) := fun s a => by
  unfold Careful
  split <;> infer_instance

end ChunkHound.DaemonStartup
