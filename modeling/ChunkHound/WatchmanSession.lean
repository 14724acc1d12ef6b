import ChunkHound.StepSystem
import Mathlib.Logic.Function.Basic

/-!
# The Watchman session

One reader takes the lines that Watchman sends and gives each to the queue of subscriptions, to the
warnings or to the one command that waits. Commands take turns : a command keeps the lock from its
write until it leaves. There is no id that ties a reply to its command.

What a line decodes to is any function of its bytes. A reply has the command it answers as a ghost,
and so has what a command returned.
-/

namespace ChunkHound.Watchman

/-! ## Lines -/

/-- An object that Watchman sends. `log` holds the text under the key `log`, and the warning and the
error are those that are non-empty strings. -/
structure Payload where
  subscription : Bool
  log : Option (Option String)
  warning : Option String
  error : Option String
  body : String
  deriving DecidableEq

/-- What comes of decoding, stripping and loading a line. -/
inductive Loaded
  | blank
  | invalid (error : String)
  | raises (error : String)
  | nonObject
  | object (payload : Payload)
  deriving DecidableEq

/-- A line, and the command that it answers. A line without an end is read like the others when the
stream ends, and when it is over the limit. -/
structure Line where
  content : List UInt8
  answers : Option ℕ
  deriving DecidableEq

/-- The default limit of `StreamReader.readline`. -/
def lineLimit : ℕ := 65536

/-- The object goes to the command that waits. -/
def Loaded.isReply : Loaded → Bool
  | .object p => !p.subscription && p.log.isNone
  | _ => false

/-! ## The session -/

/-- What is set on the future of a command. -/
inductive Outcome
  | reply (payload : Payload) (answers : Option ℕ)
  | failed (error : String)
  deriving DecidableEq

def Outcome.isFailed : Outcome → Bool
  | .reply _ _ => false
  | .failed _ => true

/-- What a command returned, with the command that the reply was for. -/
structure Returned where
  command : ℕ
  payload : Payload
  answers : Option ℕ
  deriving DecidableEq

/-- `socket` is whether there is a stream writer. The lock is that of the commands, `requests` are
the commands that Watchman has not answered, and `received` are the subscriptions that were read. -/
structure Session where
  socket : Bool
  stdout : List Line
  streamError : Option String
  streamClosed : Bool
  readerRunning : Bool
  waitRunning : Bool
  stderrRunning : Bool
  returncode : Option Int
  stopRequested : Bool
  unexpectedExit : Option (Option String)
  lastWarning : Option String
  lastError : Option String
  calls : ℕ
  waiting : List ℕ
  lockHolder : Option ℕ
  pendingReply : Option ℕ
  futures : ℕ → Option Outcome
  requests : List ℕ
  returned : List Returned
  queue : List Payload
  taken : List Payload
  dropped : List Payload
  received : List Payload

namespace Session

/-- A session that was just prepared. -/
def prepared (socket : Bool) : Session where
  socket := socket
  stdout := []
  streamError := none
  streamClosed := false
  readerRunning := true
  waitRunning := !socket
  stderrRunning := !socket
  returncode := none
  stopRequested := false
  unexpectedExit := none
  lastWarning := none
  lastError := none
  calls := 0
  waiting := []
  lockHolder := none
  pendingReply := none
  futures := fun _ => none
  requests := []
  returned := []
  queue := []
  taken := []
  dropped := []
  received := []

def recordWarning (s : Session) (message : String) : Session :=
  { s with lastWarning := some message }

def recordWarning? (s : Session) (message : Option String) : Session :=
  { s with lastWarning := message <|> s.lastWarning }

def recordError (s : Session) (message : String) : Session := { s with lastError := some message }

def recordError? (s : Session) (message : Option String) : Session :=
  { s with lastError := message <|> s.lastError }

/-- `_resolve_unexpected_exit`. -/
def resolveUnexpectedExit (s : Session) (message : Option String) : Session :=
  { s with unexpectedExit := s.unexpectedExit <|> some message }

/-- Set the result of a future that is not done. -/
def setFuture (s : Session) (c : ℕ) (outcome : Outcome) : Session :=
  { s with futures := Function.update s.futures c (s.futures c <|> some outcome) }

/-- `_fail_pending_reply`. -/
def failPendingReply (s : Session) (error : String) : Session :=
  match s.pendingReply with
  | some c => { s.setFuture c (.failed error) with pendingReply := none }
  | none => s

/-- `_queue_subscription_pdu`. A handler is told of what is dropped. -/
def queueSubscriptionPdu (maxsize : ℕ) (s : Session) (p : Payload) : Session :=
  let s := { s with received := s.received ++ [p] }
  let s := (s.recordWarning? p.warning).recordError? p.error
  if maxsize ≤ s.queue.length then
    { s with dropped := s.dropped ++ [p] }.recordWarning
      "Watchman subscription queue full; dropped a raw subscription PDU"
  else { s with queue := s.queue ++ [p] }

/-! ## The reader -/

/-- An object goes to the first that takes it. -/
def dispatch (maxsize : ℕ) (s : Session) (p : Payload) (answers : Option ℕ) : Session :=
  if p.subscription then s.queueSubscriptionPdu maxsize p
  else
    match p.log with
    | some log => s.recordWarning? (log.map ("watchman log: " ++ ·))
    | none =>
      match s.pendingReply.filter fun c => (s.futures c).isNone with
      | some c => s.setFuture c (.reply p answers)
      | none => s.recordWarning
          "Received unexpected Watchman response without a pending command"

/-- The branch of the reader for an exception. -/
def readerFails (s : Session) (error : String) : Session :=
  { (s.recordError ("Watchman stdout reader failed: " ++ error)).failPendingReply error with
    readerRunning := false }

/-- The branch of the reader for the end of the stream. -/
def readerEnds (s : Session) : Session :=
  let s := { s with readerRunning := false }
  if s.socket && !s.stopRequested then
    let message := "Watchman session connection closed unexpectedly"
    ((s.recordError message).failPendingReply message).resolveUnexpectedExit (some message)
  else s

/-- The line that is read, whose bytes are too many or are decoded. -/
def readLine (loads : List UInt8 → Loaded) (maxsize : ℕ) (s : Session) (line : Line) : Session :=
  if lineLimit < line.content.length then
    s.readerFails "Separator is not found, and chunk exceed the limit"
  else
    match loads line.content with
    | .blank => s
    | .invalid error => s.recordError ("Invalid Watchman JSON output: " ++ error)
    | .raises error => s.readerFails error
    | .nonObject => s.recordWarning "Ignoring unexpected non-object Watchman payload"
    | .object p => s.dispatch maxsize p line.answers

/-! ## Steps -/

inductive Act
  | call
  | send (c : ℕ)
  | giveUp (c : ℕ)
  | resume
  | abandon
  | emit (line : Line)
  | close
  | lose (error : String)
  | exit (rc : Int)
  | read
  | noticeExit
  | stderrFails (error : String)
  | stderrEnds
  | take
  | stop
  | cancelReader
  deriving DecidableEq

/-- A command leaves the lock. -/
def leave (s : Session) (c : ℕ) : Session :=
  { s with
    lockHolder := none
    pendingReply := s.pendingReply.filter (· ≠ c) }

/-- What `_send_command` does with the outcome of its future. -/
def finish (s : Session) (c : ℕ) (outcome : Outcome) : Session :=
  match outcome with
  | .failed _ => s.leave c
  | .reply p answers =>
    let s := (s.leave c).recordWarning? p.warning
    match p.error with
    | some error => s.recordError error
    | none => { s with returned := s.returned ++ [⟨c, p, answers⟩] }

/-- One step of a command (`call` to `abandon`), of Watchman (`emit` to `exit`), of a task of the
session or of its owner. Watchman answers the commands in order and sends nothing else that could
be a reply. -/
def step (loads : List UInt8 → Loaded) (maxsize : ℕ) (s : Session) : Act → Option Session
  | .call =>
    if (if s.socket then s.stopRequested else s.returncode.isSome) then none
    else some { s with calls := s.calls + 1, waiting := s.waiting ++ [s.calls] }
  | .send c =>
    if c ∈ s.waiting ∧ s.lockHolder = none then
      some { s with
        waiting := s.waiting.erase c
        lockHolder := some c
        pendingReply := some c
        futures := Function.update s.futures c none
        requests := s.requests ++ [c] }
    else none
  | .giveUp c => if c ∈ s.waiting then some { s with waiting := s.waiting.erase c } else none
  | .resume =>
    match s.lockHolder with
    | none => none
    | some c => (s.futures c).map (s.finish c)
  | .abandon => s.lockHolder.map s.leave
  | .emit line =>
    if s.streamClosed then none
    else
      match line.answers, s.requests with
      | none, _ =>
        if (loads line.content).isReply then none else some { s with stdout := s.stdout ++ [line] }
      | some c, r :: requests =>
        if c = r then some { s with stdout := s.stdout ++ [line], requests := requests } else none
      | some _, [] => none
  | .close => some { s with streamClosed := true }
  | .lose error => some { s with streamError := some error, streamClosed := true }
  | .exit rc => if s.socket then none else some { s with returncode := some rc }
  | .read =>
    if s.readerRunning then
      match s.streamError, s.stdout with
      | some error, _ => some (s.readerFails error)
      | none, line :: rest => some ({ s with stdout := rest }.readLine loads maxsize line)
      | none, [] => if s.streamClosed then some s.readerEnds else none
    else none
  | .noticeExit =>
    if s.waitRunning then
      s.returncode.map fun rc =>
        let s := { s with waitRunning := false }
        if s.stopRequested then s
        else
          let message := "Watchman session exited unexpectedly (rc=" ++ toString rc ++ ")"
          ((s.recordError message).failPendingReply message).resolveUnexpectedExit (some message)
    else none
  | .stderrFails error =>
    if s.stderrRunning then
      let s := { s with stderrRunning := false }
      some ((s.recordError ("Watchman stderr reader failed: " ++ error)).failPendingReply error)
    else none
  | .stderrEnds =>
    if s.stderrRunning then
      let s := { s with stderrRunning := false }
      if s.returncode.isNone && !s.stopRequested then
        let message := "Watchman session stderr closed unexpectedly"
        some ((s.recordError message).failPendingReply message)
      else some s
    else none
  | .take =>
    match s.queue with
    | [] => none
    | p :: queue => some { s with queue := queue, taken := s.taken ++ [p] }
  | .stop =>
    some (({ s with stopRequested := true, queue := [] }.failPendingReply
      "Watchman session stopped").resolveUnexpectedExit none)
  | .cancelReader => if s.stopRequested then some { s with readerRunning := false } else none

section Cases

variable {loads : List UInt8 → Loaded} {maxsize : ℕ} {s s' : Session}

theorem resume_cases (h : s.step loads maxsize .resume = some s') :
    ∃ c outcome, s.lockHolder = some c ∧ s.futures c = some outcome ∧ s' = s.finish c outcome := by
  unfold step at h
  cases hc : s.lockHolder with
  | none => simp [hc] at h
  | some c =>
    simp only [hc] at h
    obtain ⟨outcome, hf, rfl⟩ := Option.map_eq_some_iff.1 h
    exact ⟨c, outcome, rfl, hf, rfl⟩

/-- Watchman sends what answers no command, or the answer to the first that waits for one. -/
theorem emit_cases {line : Line} (h : s.step loads maxsize (.emit line) = some s') :
    (line.answers = none ∧ (loads line.content).isReply = false ∧
        s' = { s with stdout := s.stdout ++ [line] }) ∨
      ∃ c requests, line.answers = some c ∧ s.requests = c :: requests ∧
        s' = { s with stdout := s.stdout ++ [line], requests := requests } := by
  unfold step at h
  obtain ⟨-, h⟩ := Option.ite_none_left_eq_some.1 h
  split at h
  · rename_i hanswers
    obtain ⟨hno, ⟨⟩⟩ := Option.ite_none_left_eq_some.1 h
    exact Or.inl ⟨hanswers, Bool.not_eq_true _ ▸ hno, rfl⟩
  · rename_i c r requests hanswers hrequests
    obtain ⟨rfl, ⟨⟩⟩ := Option.ite_none_right_eq_some.1 h
    exact Or.inr ⟨c, requests, hanswers, hrequests, rfl⟩
  · cases h

theorem take_cases (h : s.step loads maxsize .take = some s') :
    ∃ p queue, s.queue = p :: queue ∧
      s' = { s with queue := queue, taken := s.taken ++ [p] } := by
  cases hq : s.queue with
  | nil => simp [step, hq] at h
  | cons p queue =>
    simp only [step, hq, Option.some.injEq] at h
    exact ⟨p, queue, rfl, h.symm⟩

end Cases

end Session

end ChunkHound.Watchman
