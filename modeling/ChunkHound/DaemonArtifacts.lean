import ChunkHound.StepSystem
import Mathlib.Logic.Function.Basic

/-!
# The artifacts of a daemon

A daemon publishes a lock file and a socket for its runtime directory and root, and an entry of the
registry for its root. Proxies and `stop_daemon` read these files, judge them stale, and unlink them
by their path. Between any two operations on a file other processes run, and any may be killed.

What is unlinked may have been published after it was read (`cleaner_unlinks_new_lock`), and the
registry has one entry for a root, while its daemons may have several runtime directories. In runs where daemons of a root come one after another, and
publish only when nobody is about to unlink what was there before, each daemon keeps what is its own
(`keeps_of_careful`).

A process is its PID, which is not used again. The runtime directory and the root of a daemon are
those that it was started with.
-/

namespace ChunkHound.DaemonArtifacts

open StepSystem

variable {ρ ι : Type*}

/-! ## Processes -/

/-- What judges a lock : `_reuse_live_daemon`, `_validated_lock_entry`, or `stop_daemon`. -/
inductive Caller
  | reuse
  | validate
  | stop
  deriving DecidableEq

/-- Where a process is. A client is `free` between its calls. The key of a lock is a runtime
directory and a root. -/
inductive Phase (ρ ι : Type*)
  | unborn
  | dead
  -- `ChunkHoundDaemon.run`
  | binding
  | writing
  | checking
  | registering
  | serving
  -- `_graceful_shutdown`
  | removingLock
  | removingSocket
  | removingEntry
  -- clients
  | free
  | judging (caller : Caller) (key : ρ × ι) (pid : ℕ)
  | unlinkingLock (caller : Caller) (key : ρ × ι)
  | unlinkingSocket (key : ρ × ι)
  | unlinkingEntry (root : ι)
  | judgingEntry (root : ι) (pid : ℕ) (key : ρ × ι)
  | comparing (root : ι) (pid : ℕ) (key : ρ × ι)
  | polled (key : ρ × ι) (pid : ℕ)
  | enlisting (key : ρ × ι) (pid : ℕ)
  deriving DecidableEq

namespace Phase

/-- The daemon has its socket, and has not yet shut down. -/
def owns : Phase ρ ι → Bool
  | .writing | .checking | .registering | .serving => true
  | .removingLock | .removingSocket | .removingEntry => true
  | _ => false

/-- The daemon has written its lock, and has not yet removed it. -/
def locked : Phase ρ ι → Bool
  | .checking | .registering | .serving | .removingLock => true
  | _ => false

/-- The same, with `_lock_written`. -/
def published : Phase ρ ι → Bool
  | .registering | .serving | .removingLock => true
  | _ => false

/-- The process may have written a lock. -/
def wrote : Phase ρ ι → Bool
  | .dead | .removingSocket | .removingEntry => true
  | phase => phase.locked

end Phase

/-- `next` is the PID of the next process. -/
structure State (ρ ι : Type*) where
  lock : ρ × ι → Option ℕ
  socket : ρ × ι → Option ℕ
  registry : ι → Option (ℕ × (ρ × ι))
  phases : ℕ → Phase ρ ι
  next : ℕ

inductive Act (ρ ι : Type*)
  | startDaemon
  | startClient
  | read (caller : Caller) (key : ρ × ι)
  | readEntry (root : ι)
  | poll (key : ρ × ι)
  | run
  | shutdown
  | kill
  deriving DecidableEq

def start : State ρ ι := ⟨fun _ => none, fun _ => none, fun _ => none, fun _ => .unborn, 0⟩

namespace State

variable [DecidableEq ρ] [DecidableEq ι]

def goto (s : State ρ ι) (p : ℕ) (phase : Phase ρ ι) : State ρ ι :=
  { s with phases := Function.update s.phases p phase }

def setLock (s : State ρ ι) (key : ρ × ι) (pid : Option ℕ) : State ρ ι :=
  { s with lock := Function.update s.lock key pid }

def setSocket (s : State ρ ι) (key : ρ × ι) (pid : Option ℕ) : State ρ ι :=
  { s with socket := Function.update s.socket key pid }

def setEntry (s : State ρ ι) (root : ι) (entry : Option (ℕ × (ρ × ι))) : State ρ ι :=
  { s with registry := Function.update s.registry root entry }

/-- `_socket_connectable` : the daemon that made the socket is there. -/
def connectable (s : State ρ ι) (key : ρ × ι) : Bool :=
  (s.socket key).any fun p => (s.phases p).owns

/-- What follows `remove_lock`. -/
def afterLock (caller : Caller) (key : ρ × ι) : Phase ρ ι :=
  match caller with
  | .reuse => .unlinkingSocket key
  | .validate => .free
  | .stop => .unlinkingEntry key.2

/-- One operation of a process. -/
def advance (home : ℕ → ρ × ι) (s : State ρ ι) (p : ℕ) : Option (State ρ ι) :=
  match s.phases p with
  | .unborn | .dead | .serving | .free => none
  | .binding => some ((s.setSocket (home p) (some p)).goto p .writing)
  | .writing => some ((s.setLock (home p) (some p)).goto p .checking)
  | .checking =>
    if s.lock (home p) = some p then some (s.goto p .registering) else some (s.goto p .dead)
  | .registering => some ((s.setEntry (home p).2 (some (p, home p))).goto p .serving)
  | .removingLock => some ((s.setLock (home p) none).goto p .removingSocket)
  | .removingSocket => some ((s.setSocket (home p) none).goto p .removingEntry)
  | .removingEntry => some ((s.setEntry (home p).2 none).goto p .dead)
  | .judging caller key pid =>
    if s.phases pid = .dead then some (s.goto p (.unlinkingLock caller key))
    else some (s.goto p .free)
  | .unlinkingLock caller key => some ((s.setLock key none).goto p (afterLock caller key))
  | .unlinkingSocket key => some ((s.setSocket key none).goto p .free)
  | .unlinkingEntry root => some ((s.setEntry root none).goto p .free)
  | .judgingEntry root pid key =>
    if s.phases pid = .dead then some (s.goto p (.unlinkingEntry root))
    else some (s.goto p (.comparing root pid key))
  | .comparing root pid key =>
    if s.lock key = some pid then some (s.goto p .free)
    else some (s.goto p (.unlinkingEntry root))
  | .polled key pid =>
    if s.connectable key then some (s.goto p (.enlisting key pid)) else some (s.goto p .free)
  | .enlisting key pid => some ((s.setEntry key.2 (some (pid, key))).goto p .free)

/-- A client reads a lock. -/
def readLock (s : State ρ ι) (p : ℕ) (key : ρ × ι) (next : ℕ → Phase ρ ι) : Option (State ρ ι) :=
  if s.phases p = .free then
    match s.lock key with
    | none => some s
    | some pid => some (s.goto p (next pid))
  else none

/-- `_read_registry_entry`, which unlinks what it cannot read. -/
def readEntry (s : State ρ ι) (p : ℕ) (root : ι) : Option (State ρ ι) :=
  if s.phases p = .free then
    match s.registry root with
    | none => some (s.goto p (.unlinkingEntry root))
    | some (pid, key) => some (s.goto p (.judgingEntry root pid key))
  else none

def spawn (s : State ρ ι) (p : ℕ) (phase : Phase ρ ι) : Option (State ρ ι) :=
  if p = s.next then some { s.goto p phase with next := s.next + 1 } else none

end State

section Step

variable [DecidableEq ρ] [DecidableEq ι]

def step (home : ℕ → ρ × ι) (s : State ρ ι) (a : ℕ × Act ρ ι) : Option (State ρ ι) :=
  match a.2 with
  | .startDaemon => s.spawn a.1 .binding
  | .startClient => s.spawn a.1 .free
  | .read caller key => s.readLock a.1 key (.judging caller key)
  | .readEntry root => s.readEntry a.1 root
  | .poll key => s.readLock a.1 key (.polled key)
  | .run => s.advance home a.1
  | .shutdown => if s.phases a.1 = .serving then some (s.goto a.1 .removingLock) else none
  | .kill =>
    if s.phases a.1 = .unborn ∨ s.phases a.1 = .dead then none else some (s.goto a.1 .dead)

end Step

/-- The artifacts of every daemon that is published stay its own when another process takes a
step. -/
def Keeps (home : ℕ → ρ × ι) (s : State ρ ι) (p : ℕ) (s' : State ρ ι) : Prop :=
  ∀ d, d ≠ p → (s.phases d).published = true →
    (s.lock (home d) = some d → s'.lock (home d) = some d) ∧
    (s.socket (home d) = some d → s'.socket (home d) = some d) ∧
    ((s.registry (home d).2).map Prod.fst = some d →
      (s'.registry (home d).2).map Prod.fst = some d)

/-! ## Care -/

namespace Phase

/-- The process will not remove a lock or a socket at the key, having read the lock before `d` wrote
it. -/
def sparesLock (key : ρ × ι) (d : ℕ) : Phase ρ ι → Prop
  | .judging _ key' pid => key' = key → pid = d
  | .unlinkingLock _ key' => key' ≠ key
  | .unlinkingSocket key' => key' ≠ key
  | _ => True

/-- The process will not replace an entry for the root, having read an entry or a lock before `d`
wrote it. -/
def sparesEntry (key : ρ × ι) (d : ℕ) : Phase ρ ι → Prop
  | .judging .stop key' pid => key'.2 = key.2 → pid = d
  | .unlinkingLock .stop key' => key'.2 ≠ key.2
  | .unlinkingEntry root => root ≠ key.2
  | .judgingEntry root pid _ => root = key.2 → pid = d
  | .comparing root pid _ => root = key.2 → pid = d
  | .polled key' pid => key' = key → pid = d
  | .enlisting key' pid => key'.2 = key.2 → pid = d
  | _ => True

variable [DecidableEq ρ] [DecidableEq ι]

instance (key : ρ × ι) (d : ℕ) (phase : Phase ρ ι) : Decidable (phase.sparesLock key d) := by
  unfold sparesLock
  split <;> infer_instance

instance (key : ρ × ι) (d : ℕ) (phase : Phase ρ ι) : Decidable (phase.sparesEntry key d) := by
  unfold sparesEntry
  split <;> infer_instance

end Phase

/-- Daemons of a root come one after another. A daemon writes its lock, and its entry is written,
only when nobody is about to remove what was there before. `stop_daemon` reads the lock of the
daemon of the root, if there is one. -/
def Careful (home : ℕ → ρ × ι) (s : State ρ ι) (a : ℕ × Act ρ ι) : Prop :=
  match a.2, s.phases a.1 with
  | .run, .binding =>
    ∀ d < s.next, (s.phases d).owns = true → (home d).2 ≠ (home a.1).2
  | .run, .writing => ∀ q < s.next, (s.phases q).sparesLock (home a.1) a.1
  | .run, .registering => ∀ q < s.next, (s.phases q).sparesEntry (home a.1) a.1
  | .run, .enlisting key pid =>
    ∀ q < s.next, q ≠ a.1 → (s.phases q).sparesEntry key pid
  | .read .stop key, _ =>
    ∀ d < s.next, (s.phases d).owns = true → (home d).2 = key.2 → home d = key
  | _, _ => True

instance [DecidableEq ρ] [DecidableEq ι] (home : ℕ → ρ × ι) :
    ∀ (s : State ρ ι) (a : ℕ × Act ρ ι), Decidable (Careful home s a) := fun s a => by
  unfold Careful
  split <;> infer_instance

/-! ## Invariant -/

section Phase

variable {phase : Phase ρ ι}

theorem Phase.locked_of_published (h : phase.published = true) : phase.locked = true := by
  cases phase <;> first | rfl | cases h

theorem Phase.owns_of_locked (h : phase.locked = true) : phase.owns = true := by
  cases phase <;> first | rfl | cases h

end Phase

namespace State

variable {home : ℕ → ρ × ι} {s : State ρ ι} {p d q pid : ℕ} {key : ρ × ι} {root : ι}
  {phase : Phase ρ ι}

/-- The entry of the root is that of the daemon. -/
def Listed (home : ℕ → ρ × ι) (s : State ρ ι) (d : ℕ) : Prop :=
  (s.phases d).locked = true ∧ (s.registry (home d).2).map Prod.fst = some d

/-- The process has been at that key, and may have written its lock there. -/
def Was (home : ℕ → ρ × ι) (s : State ρ ι) (key : ρ × ι) (pid : ℕ) : Prop :=
  home pid = key ∧ (s.phases pid).wrote = true

/-- What a client has read is true of a process. -/
def Knows (home : ℕ → ρ × ι) (s : State ρ ι) : Phase ρ ι → Prop
  | .judgingEntry _ pid key => s.Was home key pid
  | .comparing _ pid key => s.Was home key pid
  | .polled key pid => s.Was home key pid
  | .enlisting key pid => s.Was home key pid
  | _ => True

structure Inv (home : ℕ → ρ × ι) (s : State ρ ι) : Prop where
  unborn : ∀ q, s.next ≤ q → s.phases q = .unborn
  alone : ∀ d e, (s.phases d).owns = true → (s.phases e).owns = true →
    (home d).2 = (home e).2 → d = e
  locked : ∀ d, (s.phases d).locked = true → s.lock (home d) = some d
  lock_was : ∀ key pid, s.lock key = some pid → s.Was home key pid
  socket_home : ∀ key pid, s.socket key = some pid → home pid = key
  entry_was : ∀ root pid key, s.registry root = some (pid, key) → s.Was home key pid
  knows : ∀ q, s.Knows home (s.phases q)
  sparesLock : ∀ q d, (s.phases d).locked = true → (s.phases q).sparesLock (home d) d
  sparesEntry : ∀ q d, s.Listed home d → (s.phases q).sparesEntry (home d) d

theorem inv_start : Inv home start where
  unborn _ _ := rfl
  alone d e h := by cases h
  locked d h := by cases h
  lock_was _ _ h := by cases h
  socket_home _ _ h := by cases h
  entry_was _ _ _ h := by cases h
  knows _ := trivial
  sparesLock _ _ h := by cases h
  sparesEntry _ _ h := by cases h.1

/-- Of two daemons of a root, one has no lock. -/
theorem Inv.eq_of_root (h : s.Inv home) {d e : ℕ} (hd : (s.phases d).locked = true)
    (he : (s.phases e).owns = true) (hroot : (home d).2 = (home e).2) : d = e :=
  h.alone d e (Phase.owns_of_locked hd) he hroot

@[simp] theorem goto_self : (s.goto p phase).phases p = phase := Function.update_self ..

theorem goto_other (h : q ≠ p) : (s.goto p phase).phases q = s.phases q :=
  Function.update_of_ne h ..

theorem Was.goto (h : s.Was home key pid)
    (hwrote : (s.phases p).wrote = true → phase.wrote = true) :
    (s.goto p phase).Was home key pid := by
  refine ⟨h.1, ?_⟩
  by_cases hpid : pid = p
  · subst hpid
    rw [goto_self]
    exact hwrote h.2
  · rw [goto_other hpid]
    exact h.2

theorem Knows.goto {phase' : Phase ρ ι} (h : s.Knows home phase')
    (hwrote : (s.phases p).wrote = true → phase.wrote = true) :
    (s.goto p phase).Knows home phase' := by
  cases phase' with
  | judgingEntry root pid key => exact Was.goto h hwrote
  | comparing root pid key => exact Was.goto h hwrote
  | polled key pid => exact Was.goto h hwrote
  | enlisting key pid => exact Was.goto h hwrote
  | _ => trivial

/-- A process goes to another phase, and no file changes. -/
theorem Inv.goto (h : s.Inv home) (hp : p < s.next)
    (hwrote : (s.phases p).wrote = true → phase.wrote = true)
    (hlocked : phase.locked = true → (s.phases p).locked = true)
    (howns : phase.owns = true → (s.phases p).owns = true ∨
      ∀ d, (s.phases d).owns = true → (home d).2 ≠ (home p).2)
    (hknows : s.Knows home phase)
    (hlock : ∀ d, (s.phases d).locked = true → phase.sparesLock (home d) d)
    (hentry : ∀ d, s.Listed home d → phase.sparesEntry (home d) d) :
    (s.goto p phase).Inv home := by
  have hback : ∀ {d}, ((s.goto p phase).phases d).locked = true →
      (s.phases d).locked = true := by
    intro d hd
    by_cases hdp : d = p
    · subst hdp
      rw [goto_self] at hd
      exact hlocked hd
    · rwa [goto_other hdp] at hd
  have hnew : ∀ {e}, phase.owns = true → (s.phases e).owns = true → e ≠ p →
      (home e).2 ≠ (home p).2 := by
    intro e hphase he hep hroot
    rcases howns hphase with hown | hnone
    · exact hep (h.alone e p he hown hroot)
    · exact hnone e he hroot
  refine
    { unborn := fun q hq => ?_
      alone := fun d e hd he hroot => ?_
      locked := fun d hd => h.locked d (hback hd)
      lock_was := fun key pid hl => (h.lock_was key pid hl).goto hwrote
      socket_home := h.socket_home
      entry_was := fun root pid key hr => (h.entry_was root pid key hr).goto hwrote
      knows := fun q => ?_
      sparesLock := fun q d hd => ?_
      sparesEntry := fun q d hd => ?_ }
  · rw [goto_other (Nat.ne_of_gt (Nat.lt_of_lt_of_le hp hq))]
    exact h.unborn q hq
  · by_cases hdp : d = p <;> by_cases hep : e = p
    · exact hdp.trans hep.symm
    · subst hdp
      rw [goto_self] at hd
      rw [goto_other hep] at he
      exact absurd hroot.symm (hnew hd he hep)
    · subst hep
      rw [goto_self] at he
      rw [goto_other hdp] at hd
      exact absurd hroot (hnew he hd hdp)
    · rw [goto_other hdp] at hd
      rw [goto_other hep] at he
      exact h.alone d e hd he hroot
  · by_cases hq : q = p
    · subst hq
      rw [goto_self]
      exact hknows.goto hwrote
    · rw [goto_other hq]
      exact (h.knows q).goto hwrote
  · by_cases hq : q = p
    · subst hq
      rw [goto_self]
      exact hlock d (hback hd)
    · rw [goto_other hq]
      exact h.sparesLock q d (hback hd)
  · have hd' : s.Listed home d := ⟨hback hd.1, hd.2⟩
    by_cases hq : q = p
    · subst hq
      rw [goto_self]
      exact hentry d hd'
    · rw [goto_other hq]
      exact h.sparesEntry q d hd'

/-- What holds of a process that is not yet there holds of all, if it holds of the others. -/
theorem Inv.of_lt (h : s.Inv home) {P : Phase ρ ι → Prop} (hunborn : P .unborn)
    (hlt : ∀ q < s.next, P (s.phases q)) (q : ℕ) : P (s.phases q) := by
  by_cases hq : q < s.next
  · exact hlt q hq
  · rw [h.unborn q (Nat.le_of_not_lt hq)]
    exact hunborn

theorem Inv.lt_next (h : s.Inv home) (hp : s.phases p ≠ .unborn) : p < s.next := by
  by_contra hge
  exact hp (h.unborn p (Nat.le_of_not_lt hge))

theorem Inv.lt_of_owns (h : s.Inv home) (hp : (s.phases p).owns = true) : p < s.next := by
  refine h.lt_next fun hunborn => ?_
  rw [hunborn] at hp
  cases hp

/-- A daemon that is locked has not died. -/
theorem not_dead_of_locked (h : (s.phases d).locked = true) : s.phases d ≠ .dead := by
  intro hdead
  rw [hdead] at h
  cases h

/-- A client goes to a phase in which it has no daemon's artifacts. -/
theorem Inv.gotoClient (h : s.Inv home) (hp : p < s.next)
    (hwrote : (s.phases p).wrote = true → phase.wrote = true) (howns : phase.owns = false)
    (hknows : s.Knows home phase)
    (hlock : ∀ d, (s.phases d).locked = true → phase.sparesLock (home d) d)
    (hentry : ∀ d, s.Listed home d → phase.sparesEntry (home d) d) :
    (s.goto p phase).Inv home := by
  refine h.goto hp hwrote (fun hl => ?_) (fun ho => ?_) hknows hlock hentry
  · rw [Phase.owns_of_locked hl] at howns
    cases howns
  · rw [ho] at howns
    cases howns

/-- A daemon that has its socket goes on. -/
theorem Inv.gotoDaemon (h : s.Inv home) (hp : (s.phases p).owns = true)
    (hwrote : (s.phases p).wrote = true → phase.wrote = true)
    (hlocked : phase.locked = true → (s.phases p).locked = true)
    (hphase : phase.owns = true) : (s.goto p phase).Inv home := by
  refine h.goto (h.lt_of_owns hp) hwrote hlocked (fun _ => Or.inl hp) ?_ (fun _ _ => ?_)
    fun _ _ => ?_ <;> cases phase <;> trivial

theorem Inv.goto_dead (h : s.Inv home) (hp : s.phases p ≠ .unborn) :
    (s.goto p .dead).Inv home :=
  h.gotoClient (h.lt_next hp) (fun _ => rfl) rfl trivial (fun _ _ => trivial) fun _ _ => trivial

/-- A client is done. -/
theorem Inv.goto_free (h : s.Inv home) (hp : s.phases p ≠ .unborn)
    (hwrote : (s.phases p).wrote = false) : (s.goto p .free).Inv home := by
  refine h.gotoClient (h.lt_next hp) (fun hw => ?_) rfl trivial (fun _ _ => trivial)
    fun _ _ => trivial
  rw [hwrote] at hw
  cases hw

/-- The lock that is read at the key of a locked daemon is its own. -/
theorem Inv.eq_of_lock (h : s.Inv home) (hl : s.lock key = some pid)
    (hd : (s.phases d).locked = true) (hkey : key = home d) : pid = d :=
  Option.some.inj (hl.symm.trans (hkey ▸ h.locked d hd))

variable {s' : State ρ ι}

theorem Inv.spawn (h : s.Inv home) (hphase : phase = .binding ∨ phase = .free)
    (hs : s.spawn p phase = some s') : s'.Inv home := by
  obtain ⟨rfl, ⟨⟩⟩ := Option.ite_none_right_eq_some.1 hs
  have hunborn : s.phases s.next = .unborn := h.unborn s.next (Nat.le_refl _)
  have hlarger : Inv home { s with next := s.next + 1 } :=
    { h with unborn := fun q hq => h.unborn q (Nat.le_of_succ_le hq) }
  have hwrote : (s.phases s.next).wrote = true → phase.wrote = true := by
    rw [hunborn]
    nofun
  rcases hphase with rfl | rfl
  · exact hlarger.gotoClient (Nat.lt_succ_self _) hwrote rfl trivial (fun _ _ => trivial)
      fun _ _ => trivial
  · exact hlarger.gotoClient (Nat.lt_succ_self _) hwrote rfl trivial (fun _ _ => trivial)
      fun _ _ => trivial

/-- A daemon at work is at another root than any other that is locked. -/
theorem Inv.root_ne (h : s.Inv home) (hp : (s.phases p).owns = true) (hdp : d ≠ p)
    (hd : (s.phases d).locked = true) : (home d).2 ≠ (home p).2 :=
  fun hroot => hdp (h.eq_of_root hd hp hroot)

theorem keeps_of_files (hlock : s'.lock = s.lock) (hsocket : s'.socket = s.socket)
    (hentry : s'.registry = s.registry) : Keeps home s p s' := by
  intro d _ _
  rw [hlock, hsocket, hentry]
  exact ⟨id, id, id⟩

variable [DecidableEq ι]

variable {entry : Option (ℕ × (ρ × ι))}

theorem setEntry_self :
    (s.setEntry root entry).registry root = entry := Function.update_self ..

theorem setEntry_other {root' : ι} (h : root' ≠ root) :
    (s.setEntry root entry).registry root' = s.registry root' := Function.update_of_ne h ..

theorem keeps_setEntry
    (hroot : ∀ d, d ≠ p → s.Listed home d → (home d).2 = root → entry.map Prod.fst = some d) :
    Keeps home s p ((s.setEntry root entry).goto p phase) := by
  refine fun d hdp hd => ⟨id, id, fun hr => ?_⟩
  show ((s.setEntry root entry).registry (home d).2).map Prod.fst = some d
  by_cases hrd : (home d).2 = root
  · rw [hrd, setEntry_self]
    exact hroot d hdp ⟨Phase.locked_of_published hd, hr⟩ hrd
  · rwa [setEntry_other hrd]

theorem Inv.unlinkEntry (h : s.Inv home) : (s.setEntry root none).Inv home := by
  have hold : ∀ {root' entry}, (s.setEntry root none).registry root' = some entry →
      s.registry root' = some entry := by
    intro root' entry hr
    by_cases hroot : root' = root
    · rw [hroot, setEntry_self] at hr
      cases hr
    · rwa [setEntry_other hroot] at hr
  exact { h with
    entry_was := fun root' pid key hr => h.entry_was root' pid key (hold hr)
    sparesEntry := fun q d hd => by
      obtain ⟨entry, hentry, hfst⟩ := Option.map_eq_some_iff.1 hd.2
      refine h.sparesEntry q d ⟨hd.1, ?_⟩
      rw [hold hentry, Option.map_some, hfst] }

/-- The entry of a daemon is written, and nobody is about to remove it. -/
theorem Inv.setEntry (h : s.Inv home) (hwas : s.Was home key pid)
    (hspares : ∀ q, (s.phases q).sparesEntry key pid) :
    (s.setEntry key.2 (some (pid, key))).Inv home :=
  { h with
    entry_was := fun root' pid' key' hr => by
      by_cases hroot : root' = key.2
      · rw [hroot, setEntry_self] at hr
        obtain ⟨⟩ := hr
        exact hwas
      · rw [setEntry_other hroot] at hr
        exact h.entry_was root' pid' key' hr
    sparesEntry := fun q d hd => by
      by_cases hroot : (home d).2 = key.2
      · have hfst := hd.2
        rw [hroot, setEntry_self] at hfst
        obtain rfl : pid = d := Option.some.inj hfst
        rw [hwas.1]
        exact hspares q
      · have hfst := hd.2
        rw [setEntry_other hroot] at hfst
        exact h.sparesEntry q d ⟨hd.1, hfst⟩ }

variable [DecidableEq ρ]

variable {owner : Option ℕ}

theorem setLock_self : (s.setLock key owner).lock key = owner :=
  Function.update_self ..

theorem setLock_other {key' : ρ × ι} (h : key' ≠ key) :
    (s.setLock key owner).lock key' = s.lock key' := Function.update_of_ne h ..

theorem setSocket_self : (s.setSocket key owner).socket key = owner :=
  Function.update_self ..

theorem setSocket_other {key' : ρ × ι} (h : key' ≠ key) :
    (s.setSocket key owner).socket key' = s.socket key' := Function.update_of_ne h ..

/-- A lock is unlinked that is not a daemon's. -/
theorem Inv.unlinkLock (h : s.Inv home)
    (hkey : ∀ d, (s.phases d).locked = true → home d ≠ key) :
    (s.setLock key none).Inv home :=
  { h with
    locked := fun d hd => (setLock_other (hkey d hd)).trans (h.locked d hd)
    lock_was := fun key' pid hl => by
      by_cases hkey' : key' = key
      · rw [hkey', setLock_self] at hl
        cases hl
      · rw [setLock_other hkey'] at hl
        exact h.lock_was key' pid hl }

theorem Inv.setSocket (h : s.Inv home)
    (howner : ∀ pid, owner = some pid → home pid = key) : (s.setSocket key owner).Inv home :=
  { h with
    socket_home := fun key' pid hs => by
      by_cases hkey' : key' = key
      · rw [hkey', setSocket_self] at hs
        exact hkey' ▸ howner pid hs
      · rw [setSocket_other hkey'] at hs
        exact h.socket_home key' pid hs }

/-- A daemon writes its lock, and nobody is about to remove it. -/
theorem Inv.writeLock (h : s.Inv home) (hp : s.phases p = .writing) (hnext : p < s.next)
    (hspares : ∀ q, (s.phases q).sparesLock (home p) p) :
    ((s.setLock (home p) (some p)).goto p .checking).Inv home := by
  have howns : (s.phases p).owns = true := by rw [hp]; rfl
  have hwrote : (s.phases p).wrote = true → (Phase.checking : Phase ρ ι).wrote = true :=
    fun _ => rfl
  have hunnamed : ∀ {key}, ¬ s.Was home key p := by
    rintro key ⟨-, hw⟩
    rw [hp] at hw
    cases hw
  have hown : ∀ {d}, ((s.goto p .checking).phases d).owns = true → (s.phases d).owns = true := by
    intro d hd
    by_cases hdp : d = p
    · exact hdp ▸ howns
    · rwa [goto_other hdp] at hd
  have hother : ∀ {d}, d ≠ p → ((s.goto p .checking).phases d).locked = true →
      (s.phases d).locked = true := by
    intro d hdp hd
    rwa [goto_other hdp] at hd
  refine
    { unborn := fun q hq => ?_
      alone := fun d e hd he => h.alone d e (hown hd) (hown he)
      locked := fun d hd => ?_
      lock_was := fun key pid hl => ?_
      socket_home := h.socket_home
      entry_was := fun root pid key hr => (h.entry_was root pid key hr).goto hwrote
      knows := fun q => ?_
      sparesLock := fun q d hd => ?_
      sparesEntry := fun q d hd => ?_ }
  · exact (goto_other (Nat.ne_of_gt (Nat.lt_of_lt_of_le hnext hq))).trans (h.unborn q hq)
  · by_cases hdp : d = p
    · subst hdp
      exact setLock_self
    · have hroot : home d ≠ home p := fun hroot =>
        hdp (h.eq_of_root (hother hdp hd) howns (congrArg Prod.snd hroot))
      exact (setLock_other hroot).trans (h.locked d (hother hdp hd))
  · by_cases hkey : key = home p
    · have hl' : (s.setLock (home p) (some p)).lock key = some pid := hl
      rw [hkey, setLock_self] at hl'
      obtain ⟨⟩ := hl'
      exact ⟨hkey.symm, congrArg Phase.wrote goto_self⟩
    · exact (h.lock_was key pid ((setLock_other hkey).symm.trans hl)).goto hwrote
  · by_cases hq : q = p
    · subst hq
      exact (congrArg _ goto_self).mpr trivial
    · have hknows := (h.knows q).goto hwrote
      rw [← goto_other hq] at hknows
      exact hknows
  · show ((s.goto p .checking).phases q).sparesLock (home d) d
    by_cases hq : q = p
    · subst hq
      rw [goto_self]
      trivial
    · rw [goto_other hq]
      by_cases hdp : d = p
      · exact hdp ▸ hspares q
      · exact h.sparesLock q d (hother hdp hd)
  · show ((s.goto p .checking).phases q).sparesEntry (home d) d
    obtain ⟨⟨pid, key⟩, hentry, rfl⟩ := Option.map_eq_some_iff.1 hd.2
    by_cases hdp : pid = p
    · exact absurd (hdp ▸ h.entry_was _ _ _ hentry) hunnamed
    · by_cases hq : q = p
      · subst hq
        rw [goto_self]
        trivial
      · rw [goto_other hq]
        exact h.sparesEntry q pid ⟨hother hdp hd.1, hd.2⟩

variable {caller : Caller}

theorem Inv.read (h : s.Inv home)
    (hstop : caller = .stop → ∀ d < s.next, (s.phases d).owns = true → (home d).2 = key.2 →
      home d = key)
    (hs : s.readLock p key (.judging caller key) = some s') : s'.Inv home := by
  obtain ⟨hfree, hs⟩ := Option.ite_none_right_eq_some.1 hs
  cases hl : s.lock key with
  | none =>
    simp only [hl, Option.some.injEq] at hs
    exact hs ▸ h
  | some pid =>
    simp only [hl, Option.some.injEq] at hs
    subst hs
    have hp : s.phases p ≠ .unborn := by
      rw [hfree]
      nofun
    refine h.gotoClient (h.lt_next hp) (by rw [hfree]; nofun) rfl trivial
      (fun d hd hkey => h.eq_of_lock hl hd hkey) fun d hd => ?_
    cases caller with
    | reuse => trivial
    | validate => trivial
    | stop =>
      intro hroot
      have hlt : d < s.next := h.lt_of_owns (Phase.owns_of_locked hd.1)
      have hkey := hstop rfl d hlt (Phase.owns_of_locked hd.1) hroot.symm
      exact h.eq_of_lock hl hd.1 hkey.symm

theorem Inv.readEntry (h : s.Inv home) (hs : s.readEntry p root = some s') :
    s'.Inv home := by
  obtain ⟨hfree, hs⟩ := Option.ite_none_right_eq_some.1 hs
  have hp : s.phases p ≠ .unborn := by
    rw [hfree]
    nofun
  have hwrote : ∀ {phase : Phase ρ ι}, (s.phases p).wrote = true → phase.wrote = true := by
    rw [hfree]
    nofun
  cases hr : s.registry root with
  | none =>
    simp only [hr, Option.some.injEq] at hs
    subst hs
    refine h.gotoClient (h.lt_next hp) hwrote rfl trivial (fun _ _ => trivial) fun d hd hroot => ?_
    have hlisted := hd.2
    rw [← hroot, hr] at hlisted
    cases hlisted
  | some entry =>
    obtain ⟨pid, key⟩ := entry
    simp only [hr, Option.some.injEq] at hs
    subst hs
    refine h.gotoClient (h.lt_next hp) hwrote rfl (h.entry_was root pid key hr) (fun _ _ => trivial)
      fun d hd hroot => ?_
    have hlisted := hd.2
    rw [← hroot, hr] at hlisted
    exact Option.some.inj hlisted

theorem Inv.poll (h : s.Inv home)
    (hs : s.readLock p key (.polled key) = some s') : s'.Inv home := by
  obtain ⟨hfree, hs⟩ := Option.ite_none_right_eq_some.1 hs
  cases hl : s.lock key with
  | none =>
    simp only [hl, Option.some.injEq] at hs
    exact hs ▸ h
  | some pid =>
    simp only [hl, Option.some.injEq] at hs
    subst hs
    refine h.gotoClient (h.lt_next (by rw [hfree]; nofun)) (by rw [hfree]; nofun) rfl
      (h.lock_was key pid hl) (fun _ _ => trivial) fun d hd hkey => h.eq_of_lock hl hd.1 hkey

/-- A daemon makes its socket where no other of its root is at work. -/
theorem Inv.binding (h : s.Inv home) (hphase : s.phases p = .binding)
    (hok : Careful home s (p, .run))
    (hs : s.advance home p = some s') : s'.Inv home := by
  unfold Careful at hok
  unfold State.advance at hs
  simp only [hphase, Option.some.injEq] at hs hok
  subst hs
  have hsocket : (s.setSocket (home p) (some p)).Inv home :=
    h.setSocket fun pid hpid => congrArg home (Option.some.inj hpid).symm
  refine hsocket.goto (h.lt_next (by simp [hphase])) (fun hw => ?_) nofun
    (fun _ => Or.inr fun d hd => hok d (h.lt_of_owns hd) hd) trivial (fun _ _ => trivial)
    fun _ _ => trivial
  rw [show (s.setSocket (home p) (some p)).phases p = .binding from hphase] at hw
  cases hw

/-- A daemon that shuts down is the only one of its root. -/
theorem Inv.removingLock (h : s.Inv home) (hphase : s.phases p = .removingLock)
    (hs : s.advance home p = some s') : s'.Inv home := by
  unfold State.advance at hs
  have howns : (s.phases p).owns = true := by rw [hphase]; rfl
  simp only [hphase, Option.some.injEq] at hs
  subst hs
  have hgoto : (s.goto p .removingSocket).Inv home :=
    h.gotoDaemon howns (fun _ => rfl) nofun rfl
  refine hgoto.unlinkLock fun d hd hkey => ?_
  by_cases hdp : d = p
  · rw [hdp, goto_self] at hd
    cases hd
  · rw [goto_other hdp] at hd
    exact hdp (h.eq_of_root hd howns (congrArg Prod.snd hkey))

variable {key : ρ × ι}

variable {pid : ℕ}

theorem Inv.judging (h : s.Inv home) (hphase : s.phases p = .judging caller key pid)
    (hs : s.advance home p = some s') : s'.Inv home := by
  have hlock := h.sparesLock p
  have hentry := h.sparesEntry p
  unfold State.advance at hs
  have hlt : p < s.next := h.lt_next (by simp [hphase])
  rw [hphase] at hlock hentry
  simp only [hphase] at hs
  split at hs <;> obtain ⟨⟩ := hs
  · rename_i hdead
    refine h.gotoClient hlt (by rw [hphase]; nofun) rfl trivial (fun d hd hkey => ?_)
      fun d hd => ?_
    · exact not_dead_of_locked hd (hlock d hd hkey ▸ hdead)
    · cases caller with
      | reuse => trivial
      | validate => trivial
      | stop => exact fun hroot => not_dead_of_locked hd.1 (hentry d hd hroot ▸ hdead)
  · exact h.goto_free (by simp [hphase]) (by rw [hphase]; rfl)

/-- The lock that a client unlinks is not that of a daemon. -/
theorem Inv.unlinkingLock (h : s.Inv home) (hphase : s.phases p = .unlinkingLock caller key)
    (hs : s.advance home p = some s') : s'.Inv home := by
  have hlock := h.sparesLock p
  have hentry := h.sparesEntry p
  unfold State.advance at hs
  have hlt : p < s.next := h.lt_next (by simp [hphase])
  rw [hphase] at hlock hentry
  simp only [hphase, Option.some.injEq] at hs
  subst hs
  have hunlink : (s.setLock key none).Inv home :=
    h.unlinkLock fun d hd hkey => hlock d hd hkey.symm
  have hwrote : ∀ {phase : Phase ρ ι}, ((s.setLock key none).phases p).wrote = true →
      phase.wrote = true := by
    rw [show (s.setLock key none).phases p = .unlinkingLock caller key from hphase]
    nofun
  cases caller with
  | reuse =>
    exact hunlink.gotoClient hlt hwrote rfl trivial (fun d hd => hlock d hd) fun _ _ => trivial
  | validate =>
    exact hunlink.gotoClient hlt hwrote rfl trivial (fun _ _ => trivial) fun _ _ => trivial
  | stop =>
    exact hunlink.gotoClient hlt hwrote rfl trivial (fun _ _ => trivial) fun d hd => hentry d hd

theorem Inv.judgingEntry (h : s.Inv home) {root : ι}
    (hphase : s.phases p = .judgingEntry root pid key)
    (hs : s.advance home p = some s') : s'.Inv home := by
  have hentry := h.sparesEntry p
  have hknows := h.knows p
  unfold State.advance at hs
  have hlt : p < s.next := h.lt_next (by simp [hphase])
  rw [hphase] at hentry hknows
  simp only [hphase] at hs
  split at hs <;> obtain ⟨⟩ := hs
  · rename_i hdead
    refine h.gotoClient hlt (by rw [hphase]; nofun) rfl trivial (fun _ _ => trivial)
      fun d hd hroot => ?_
    exact not_dead_of_locked hd.1 (hentry d hd hroot ▸ hdead)
  · exact h.gotoClient hlt (by rw [hphase]; nofun) rfl hknows (fun _ _ => trivial)
      fun d hd => hentry d hd

/-- The entry of a daemon names the lock that it has. -/
theorem Inv.comparing (h : s.Inv home) {root : ι} (hphase : s.phases p = .comparing root pid key)
    (hs : s.advance home p = some s') : s'.Inv home := by
  have hentry := h.sparesEntry p
  have hknows := h.knows p
  unfold State.advance at hs
  have hlt : p < s.next := h.lt_next (by simp [hphase])
  rw [hphase] at hentry hknows
  simp only [hphase] at hs
  split at hs <;> obtain ⟨⟩ := hs
  · exact h.goto_free (by simp [hphase]) (by rw [hphase]; rfl)
  · rename_i hne
    refine h.gotoClient hlt (by rw [hphase]; nofun) rfl trivial (fun _ _ => trivial)
      fun d hd hroot => ?_
    obtain rfl := hentry d hd hroot
    exact hne (hknows.1 ▸ h.locked pid hd.1)

/-- A daemon that is found at work is the one that the lock named. -/
theorem Inv.polled (h : s.Inv home) (hphase : s.phases p = .polled key pid)
    (hs : s.advance home p = some s') : s'.Inv home := by
  have hentry := h.sparesEntry p
  have hknows := h.knows p
  unfold State.advance at hs
  have hlt : p < s.next := h.lt_next (by simp [hphase])
  rw [hphase] at hentry hknows
  simp only [hphase] at hs
  split at hs <;> obtain ⟨⟩ := hs
  · rename_i hconnect
    refine h.gotoClient hlt (by rw [hphase]; nofun) rfl hknows (fun _ _ => trivial)
      fun d hd hroot => ?_
    obtain ⟨e, he, howns⟩ := (Option.any_eq_true _ _).1 hconnect
    have hkey : home e = key := h.socket_home key e he
    obtain rfl := h.eq_of_root hd.1 howns (hroot.symm.trans (congrArg Prod.snd hkey.symm))
    exact hentry d hd hkey.symm
  · exact h.goto_free (by simp [hphase]) (by rw [hphase]; rfl)

theorem Inv.enlisting (h : s.Inv home) (hphase : s.phases p = .enlisting key pid)
    (hok : Careful home s (p, .run))
    (hs : s.advance home p = some s') : s'.Inv home := by
  have hknows := h.knows p
  unfold Careful at hok
  unfold State.advance at hs
  rw [hphase] at hknows
  simp only [hphase, Option.some.injEq] at hs hok
  subst hs
  have hwrote : (s.phases p).wrote = false := by rw [hphase]; rfl
  have hfree : (s.goto p .free).Inv home := h.goto_free (by simp [hphase]) hwrote
  have hwas : (s.goto p .free).Was home key pid := Was.goto hknows fun hw => by
    rw [hwrote] at hw
    cases hw
  refine hfree.setEntry hwas fun q => ?_
  by_cases hq : q = p
  · subst hq
    rw [goto_self]
    trivial
  · rw [goto_other hq]
    by_cases hlt : q < s.next
    · exact hok q hlt hq
    · rw [h.unborn q (Nat.le_of_not_lt hlt)]
      trivial

theorem Inv.advance (h : s.Inv home) (hok : Careful home s (p, .run))
    (hs : s.advance home p = some s') : s'.Inv home := by
  cases hphase : s.phases p with
  | unborn => simp [State.advance, hphase] at hs
  | dead => simp [State.advance, hphase] at hs
  | serving => simp [State.advance, hphase] at hs
  | free => simp [State.advance, hphase] at hs
  | binding => exact h.binding hphase hok hs
  | writing =>
    unfold Careful at hok
    unfold State.advance at hs
    simp only [hphase, Option.some.injEq] at hs hok
    subst hs
    exact h.writeLock hphase (h.lt_next (by simp [hphase]))
      (h.of_lt (P := fun phase => phase.sparesLock (home p) p) trivial hok)
  | checking =>
    unfold State.advance at hs
    have howns : (s.phases p).owns = true := by rw [hphase]; rfl
    simp only [hphase, if_pos (h.locked p (by rw [hphase]; rfl)), Option.some.injEq] at hs
    subst hs
    exact h.gotoDaemon howns (fun _ => rfl) (fun _ => by rw [hphase]; rfl) rfl
  | registering =>
    unfold Careful at hok
    unfold State.advance at hs
    have howns : (s.phases p).owns = true := by rw [hphase]; rfl
    simp only [hphase, Option.some.injEq] at hs hok
    subst hs
    have hset : (s.setEntry (home p).2 (some (p, home p))).Inv home :=
      h.setEntry ⟨rfl, by rw [hphase]; rfl⟩
        (h.of_lt (P := fun phase => phase.sparesEntry (home p) p) trivial hok)
    exact hset.gotoDaemon howns (fun _ => rfl) (fun _ => congrArg Phase.locked hphase) rfl
  | removingLock => exact h.removingLock hphase hs
  | removingSocket =>
    unfold State.advance at hs
    have howns : (s.phases p).owns = true := by rw [hphase]; rfl
    simp only [hphase, Option.some.injEq] at hs
    subst hs
    have hsocket : (s.setSocket (home p) none).Inv home := h.setSocket nofun
    exact hsocket.gotoDaemon howns (fun _ => rfl) nofun rfl
  | removingEntry =>
    unfold State.advance at hs
    have halive : s.phases p ≠ .unborn := by simp [hphase]
    simp only [hphase, Option.some.injEq] at hs
    subst hs
    have hentry : (s.setEntry (home p).2 none).Inv home := h.unlinkEntry
    exact hentry.goto_dead halive
  | judging caller key pid => exact h.judging hphase hs
  | unlinkingLock caller key => exact h.unlinkingLock hphase hs
  | unlinkingSocket key =>
    unfold State.advance at hs
    have halive : s.phases p ≠ .unborn := by simp [hphase]
    simp only [hphase, Option.some.injEq] at hs
    subst hs
    have hsocket : (s.setSocket key none).Inv home := h.setSocket nofun
    exact hsocket.goto_free halive (congrArg Phase.wrote hphase)
  | unlinkingEntry root =>
    unfold State.advance at hs
    have halive : s.phases p ≠ .unborn := by simp [hphase]
    simp only [hphase, Option.some.injEq] at hs
    subst hs
    have hunlink : (s.setEntry root none).Inv home := h.unlinkEntry
    exact hunlink.goto_free halive (congrArg Phase.wrote hphase)
  | judgingEntry root pid key => exact h.judgingEntry hphase hs
  | comparing root pid key => exact h.comparing hphase hs
  | polled key pid => exact h.polled hphase hs
  | enlisting key pid => exact h.enlisting hphase hok hs

variable {a : ℕ × Act ρ ι}

theorem Inv.step (h : s.Inv home) (hok : Careful home s a)
    (hs : DaemonArtifacts.step home s a = some s') : s'.Inv home := by
  obtain ⟨p, act⟩ := a
  cases act with
  | startDaemon => exact h.spawn (Or.inl rfl) hs
  | startClient => exact h.spawn (Or.inr rfl) hs
  | read caller key =>
    refine h.read (fun hstop => ?_) hs
    subst hstop
    exact hok
  | readEntry root => exact h.readEntry hs
  | poll key => exact h.poll hs
  | run => exact h.advance hok hs
  | shutdown =>
    obtain ⟨hserving, ⟨⟩⟩ := Option.ite_none_right_eq_some.1 hs
    have hserving : s.phases p = .serving := hserving
    exact h.gotoDaemon (by rw [hserving]; rfl) (fun _ => rfl) (fun _ => by rw [hserving]; rfl) rfl
  | kill =>
    obtain ⟨halive, ⟨⟩⟩ := Option.ite_none_left_eq_some.1 hs
    exact h.goto_dead fun hunborn => halive (Or.inl hunborn)

/-! ## Keeping -/

theorem keeps_setLock (hkey : ∀ d, d ≠ p → (s.phases d).published = true → home d ≠ key) :
    Keeps home s p ((s.setLock key owner).goto p phase) :=
  fun d hdp hd => ⟨fun hl => (setLock_other (hkey d hdp hd)).trans hl, id, id⟩

theorem keeps_setSocket (hkey : ∀ d, d ≠ p → (s.phases d).published = true → home d ≠ key) :
    Keeps home s p ((s.setSocket key owner).goto p phase) :=
  fun d hdp hd => ⟨id, fun hs => (setSocket_other (hkey d hdp hd)).trans hs, id⟩

theorem Inv.keeps_advance (h : s.Inv home) (hok : Careful home s (p, .run))
    (hs : s.advance home p = some s') : Keeps home s p s' := by
  have hlock := h.sparesLock p
  have hentry := h.sparesEntry p
  have hkey : (s.phases p).owns = true → ∀ d, d ≠ p → (s.phases d).published = true →
      home d ≠ home p := fun hp d hdp hd hkey =>
    h.root_ne hp hdp (Phase.locked_of_published hd) (congrArg Prod.snd hkey)
  unfold Careful at hok
  unfold State.advance at hs
  cases hphase : s.phases p with
  | unborn => simp [hphase] at hs
  | dead => simp [hphase] at hs
  | serving => simp [hphase] at hs
  | free => simp [hphase] at hs
  | binding =>
    simp only [hphase, Option.some.injEq] at hs hok
    subst hs
    refine keeps_setSocket fun d hdp hd hkey => ?_
    have howns := Phase.owns_of_locked (Phase.locked_of_published hd)
    exact hok d (h.lt_of_owns howns) howns (congrArg Prod.snd hkey)
  | writing =>
    simp only [hphase, Option.some.injEq] at hs
    subst hs
    exact keeps_setLock (hkey (by rw [hphase]; rfl))
  | checking =>
    simp only [hphase] at hs
    split at hs <;> obtain ⟨⟩ := hs <;> exact keeps_of_files rfl rfl rfl
  | registering =>
    simp only [hphase, Option.some.injEq] at hs
    subst hs
    exact keeps_setEntry fun d hdp hd hroot =>
      absurd hroot (h.root_ne (by rw [hphase]; rfl) hdp hd.1)
  | removingLock =>
    simp only [hphase, Option.some.injEq] at hs
    subst hs
    exact keeps_setLock (hkey (by rw [hphase]; rfl))
  | removingSocket =>
    simp only [hphase, Option.some.injEq] at hs
    subst hs
    exact keeps_setSocket (hkey (by rw [hphase]; rfl))
  | removingEntry =>
    simp only [hphase, Option.some.injEq] at hs
    subst hs
    exact keeps_setEntry fun d hdp hd hroot =>
      absurd hroot (h.root_ne (by rw [hphase]; rfl) hdp hd.1)
  | judging caller key pid =>
    simp only [hphase] at hs
    split at hs <;> obtain ⟨⟩ := hs <;> exact keeps_of_files rfl rfl rfl
  | unlinkingLock caller key =>
    rw [hphase] at hlock
    simp only [hphase, Option.some.injEq] at hs
    subst hs
    exact keeps_setLock fun d _ hd hkey => hlock d (Phase.locked_of_published hd) hkey.symm
  | unlinkingSocket key =>
    rw [hphase] at hlock
    simp only [hphase, Option.some.injEq] at hs
    subst hs
    exact keeps_setSocket fun d _ hd hkey => hlock d (Phase.locked_of_published hd) hkey.symm
  | unlinkingEntry root =>
    rw [hphase] at hentry
    simp only [hphase, Option.some.injEq] at hs
    subst hs
    exact keeps_setEntry fun d _ hd hroot => absurd hroot.symm (hentry d hd)
  | judgingEntry root pid key =>
    simp only [hphase] at hs
    split at hs <;> obtain ⟨⟩ := hs <;> exact keeps_of_files rfl rfl rfl
  | comparing root pid key =>
    simp only [hphase] at hs
    split at hs <;> obtain ⟨⟩ := hs <;> exact keeps_of_files rfl rfl rfl
  | polled key pid =>
    simp only [hphase] at hs
    split at hs <;> obtain ⟨⟩ := hs <;> exact keeps_of_files rfl rfl rfl
  | enlisting key pid =>
    rw [hphase] at hentry
    simp only [hphase, Option.some.injEq] at hs
    subst hs
    exact keeps_setEntry fun d _ hd hroot => congrArg some (hentry d hd hroot.symm)

theorem keeps_readLock {next : ℕ → Phase ρ ι}
    (hs : s.readLock p key next = some s') : Keeps home s p s' := by
  obtain ⟨-, hs⟩ := Option.ite_none_right_eq_some.1 hs
  split at hs <;> obtain ⟨⟩ := hs <;> exact keeps_of_files rfl rfl rfl

theorem Inv.keeps (h : s.Inv home) (hok : Careful home s a)
    (hs : DaemonArtifacts.step home s a = some s') : Keeps home s a.1 s' := by
  obtain ⟨p, act⟩ := a
  cases act with
  | startDaemon =>
    obtain ⟨-, ⟨⟩⟩ := Option.ite_none_right_eq_some.1 hs
    exact keeps_of_files rfl rfl rfl
  | startClient =>
    obtain ⟨-, ⟨⟩⟩ := Option.ite_none_right_eq_some.1 hs
    exact keeps_of_files rfl rfl rfl
  | read caller key => exact keeps_readLock hs
  | readEntry root =>
    obtain ⟨-, hs⟩ := Option.ite_none_right_eq_some.1 hs
    split at hs <;> obtain ⟨⟩ := hs <;> exact keeps_of_files rfl rfl rfl
  | poll key => exact keeps_readLock hs
  | run => exact h.keeps_advance hok hs
  | shutdown =>
    obtain ⟨-, ⟨⟩⟩ := Option.ite_none_right_eq_some.1 hs
    exact keeps_of_files rfl rfl rfl
  | kill =>
    obtain ⟨-, ⟨⟩⟩ := Option.ite_none_left_eq_some.1 hs
    exact keeps_of_files rfl rfl rfl

end State

/-! ## Results -/

/-- In runs with care, no step takes an artifact from a daemon that is published. -/
theorem keeps_of_careful [DecidableEq ρ] [DecidableEq ι] {home : ℕ → ρ × ι} {s s' : State ρ ι}
    {a : ℕ × Act ρ ι} (h : ReachWhen (step home) (Careful home) start s) (hok : Careful home s a)
    (hs : step home s a = some s') : Keeps home s a.1 s' :=
  (h.invariant State.inv_start fun _ _ _ hi hok hs => hi.step hok hs).keeps hok hs

/-- A daemon is killed after it published. -/
def killed : List (ℕ × Act ℕ ℕ) :=
  [(0, .startDaemon), (0, .run), (0, .run), (0, .run), (0, .kill)]

/-- A client unlinks the lock of the daemon that was killed, and only then the next one writes its
own. -/
def takenOver : List (ℕ × Act ℕ ℕ) :=
  killed ++ [(1, .startClient), (1, .read .reuse (0, 0)), (1, .run), (1, .run), (1, .run),
    (2, .startDaemon), (2, .run), (2, .run), (2, .run), (2, .run), (1, .readEntry 0), (1, .run)]

theorem keeps_taken_over : ∃ s s',
    execute (guarded (step fun _ => (0, 0)) (Careful fun _ => (0, 0))) start takenOver = some s ∧
    s.phases 2 = .serving ∧ step (fun _ => (0, 0)) s (1, .run) = some s' ∧
    Keeps (fun _ => (0, 0)) s 1 s' := by
  have hsome : ((execute (guarded (step fun _ => (0, 0)) (Careful fun _ => (0, 0))) start
      takenOver).any fun s => s.phases 2 = .serving ∧ s.phases 1 = .comparing 0 2 (0, 0)) =
      true := by
    decide
  obtain ⟨s, hs, hall⟩ := (Option.any_eq_true _ _).1 hsome
  obtain ⟨hserving, hcomparing⟩ := of_decide_eq_true hall
  have hreach : ReachWhen (step fun _ => (0, 0)) (Careful fun _ => (0, 0)) start s :=
    .of_guarded (.of_execute _ hs)
  have hok : Careful (fun _ => ((0, 0) : ℕ × ℕ)) s (1, .run) := by
    simp [Careful, hcomparing]
  obtain ⟨s', hs'⟩ : ∃ s', step (fun _ => (0, 0)) s (1, .run) = some s' := by
    simp only [step, State.advance, hcomparing]
    split <;> exact ⟨_, rfl⟩
  exact ⟨s, s', hs, hserving, hs', keeps_of_careful hreach hok hs'⟩

/-- A client that has judged a lock stale unlinks that of the next daemon. -/
theorem cleaner_unlinks_new_lock : ∃ s s', Reach (step fun _ => (0, 0)) start s ∧
    step (fun _ => (0, 0)) s (1, .run) = some s' ∧ ¬ Keeps (fun _ => ((0, 0) : ℕ × ℕ)) s 1 s' := by
  have hsome : ((execute (step fun _ => (0, 0)) start
      (killed ++ ([(1, .startClient), (1, .read .reuse (0, 0)), (1, .run), (2, .startDaemon),
        (2, .run), (2, .run), (2, .run)] : List (ℕ × Act ℕ ℕ)))).any fun s =>
          s.phases 2 = .registering ∧ s.lock (0, 0) = some 2 ∧
            s.phases 1 = .unlinkingLock .reuse (0, 0)) = true := by
    decide
  obtain ⟨s, hs, hall⟩ := (Option.any_eq_true _ _).1 hsome
  obtain ⟨hregistering, hlock, hunlinking⟩ := of_decide_eq_true hall
  refine ⟨s, (s.setLock (0, 0) none).goto 1 (.unlinkingSocket (0, 0)), .of_execute _ hs, ?_,
    fun h => ?_⟩
  · simp [step, State.advance, hunlinking, State.afterLock]
  · have hgone := (h 2 (by decide) (by rw [hregistering]; rfl)).1 hlock
    simp [State.goto, State.setLock] at hgone

end ChunkHound.DaemonArtifacts
