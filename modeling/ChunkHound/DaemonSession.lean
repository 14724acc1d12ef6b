import ChunkHound.EmbeddingDrift
import ChunkHound.Interleaving
import ChunkHound.OrderedDict

/-!
# Sessions of the daemon

The daemon serves any number of proxies at once. A connection begins with a frame that registers,
after which every frame is a JSON-RPC message, handled one after another.

* `answers_in_order` : whatever the connections send and wherever they end, a connection that has
  not registered with the token of the daemon is sent nothing, and one that has is sent its id and
  then one answer for each message it has sent that asks for one, in their order and with their ids.
  Nothing it is sent belongs to another connection.

A message without an id whose method is no text ends its connection : the prefix of a notification
is looked for before anything is caught. What `int` makes of a PID is any function, and what the
tools return or raise is any outcome.
-/

namespace ChunkHound.DaemonSession

open ProxyBridge (Json)
open EmbeddingDrift (key)
open Interleaving StepSystem

/-! ## Messages -/

/-- A text by its code points, as in a JSON value. -/
abbrev Text := List ℕ

/-- The daemon, as a connection sees it. -/
structure Daemon where
  authToken : Option Text
  version : Text
  toInt : Json → Option ℤ

/-- What a tool returns, or the text of what it raises. -/
inductive Outcome
  | returns (result : Json)
  | raises (text : Text)

def isText (s : String) : Json → Bool
  | .str text => decide (text = key s)
  | _ => false

def isNull : Json → Bool
  | .null => true
  | _ => false

/-- `type(value).__name__`. -/
def typeName : Json → String
  | .null => "NoneType"
  | .bool _ => "bool"
  | .int _ => "int"
  | .float _ => "float"
  | .str _ => "str"
  | .arr _ => "list"
  | .obj _ => "dict"

/-- The text of an `AttributeError`. -/
def noAttribute (v : Json) (name : String) : Text :=
  key ("'" ++ typeName v ++ "' object has no attribute '" ++ name ++ "'")

/-- `msg.get("id")`. -/
def reqId (msg : List (Text × Json)) : Json := (msg.lookup (key "id")).getD .null

/-- `msg.get("method", "")`. -/
def method (msg : List (Text × Json)) : Json := (msg.lookup (key "method")).getD (.str [])

/-- `method.startswith("notifications/")`, none where there is no such attribute. -/
def startsNotification : Json → Option Bool
  | .str text => some ((key "notifications/").isPrefixOf text)
  | _ => none

def rpcResult (id result : Json) : Json :=
  .obj [(key "jsonrpc", .str (key "2.0")), (key "id", id), (key "result", result)]

def rpcError (id : Json) (code : ℤ) (message : Text) : Json :=
  .obj [(key "jsonrpc", .str (key "2.0")), (key "id", id),
    (key "error", .obj [(key "code", .int code), (key "message", .str message)])]

/-- `_handle_initialize`. -/
def handleInitialize (d : Daemon) (msg : List (Text × Json)) : Json :=
  rpcResult (reqId msg) (.obj [(key "protocolVersion", .str (key "2024-11-05")),
    (key "serverInfo", .obj [(key "name", .str (key "ChunkHound Code Search")),
      (key "version", .str d.version)]),
    (key "capabilities", .obj [(key "tools", .obj [])])])

/-- What is raised in a handler is answered with its text. -/
def answerOutcome (msg : List (Text × Json)) : Outcome → Json
  | .returns result => rpcResult (reqId msg) result
  | .raises text => rpcError (reqId msg) (-32603) text

/-- `_handle_tools_call`. The tool is called where the parameters are a dictionary. -/
def handleToolsCall (msg : List (Text × Json)) (outcome : Outcome) : Json :=
  match (msg.lookup (key "params")).getD (.obj []) with
  | .obj _ => answerOutcome msg outcome
  | other => rpcError (reqId msg) (-32603) (noAttribute other "get")

inductive Dispatch
  | answer (response : Json)
  | silent
  | raises

/-- The `try` of `_dispatch_mcp`. -/
def route (d : Daemon) (outcome : Outcome) (msg : List (Text × Json)) : Dispatch :=
  if isText "initialize" (method msg) then .answer (handleInitialize d msg)
  else if isText "tools/list" (method msg) then .answer (answerOutcome msg outcome)
  else if isText "tools/call" (method msg) then .answer (handleToolsCall msg outcome)
  else if isText "ping" (method msg) then .answer (rpcResult (reqId msg) (.obj []))
  else
    match method msg with
    | .str text =>
      if (key "notifications/").isPrefixOf text then .silent
      else .answer (rpcError (reqId msg) (-32601) (key "Method not found: " ++ text))
    | other => .answer (rpcError (reqId msg) (-32603) (noAttribute other "startswith"))

/-- `_dispatch_mcp`. -/
def dispatchMcp (d : Daemon) (outcome : Outcome) (msg : List (Text × Json)) : Dispatch :=
  match isNull (reqId msg), startsNotification (method msg) with
  | true, none => .raises
  | true, some true => .silent
  | _, _ => route d outcome msg

/-! ## A connection -/

/-- Where `_handle_client` is. -/
inductive Phase
  | handshake
  | serving (clientId : Text)
  | dispatching (clientId : Text) (msg : List (Text × Json))
  | closed

/-- The client id of a connection that is open. -/
def Phase.client : Phase → Option Text
  | .serving clientId | .dispatching clientId _ => some clientId
  | _ => none

/-- The frames that have arrived, those that were read, and those that were written. -/
structure Connection where
  phase : Phase
  inbox : List Json
  read : List Json
  sent : List Json

/-- What happens on a connection. `ends` is everything that ends it : the end of the stream, a frame
that cannot be read, a timeout, a write that fails or a cancellation. -/
inductive Event
  | arrive (frame : Json)
  | handshake (clientId : Text)
  | read
  | finish (outcome : Outcome) (writes : Bool)
  | evict (clientId : Text)
  | ends

/-- The registered clients with their PIDs. -/
abbrev Sessions := List (Text × ℤ)

/-- The frame registers, with the token. -/
def greets (d : Daemon) : Json → Bool
  | .obj reg => ((reg.lookup (key "type")).map (isText "register")).getD false &&
    match d.authToken with
    | none => true
    | some token =>
      match reg.lookup (key "auth_token") with
      | some (.str text) => decide (text = token)
      | _ => false
  | _ => false

/-- `int(reg.get("pid", 0))`. -/
def pidOf (d : Daemon) : Json → Option ℤ
  | .obj reg => d.toInt ((reg.lookup (key "pid")).getD (.int 0))
  | _ => none

def registered (clientId : Text) : Json :=
  .obj [(key "type", .str (key "registered")), (key "client_id", .str clientId)]

/-- The end of `_handle_client`. -/
def close (sessions : Sessions) (c : Connection) : Sessions × Connection :=
  (match c.phase.client with
    | some clientId => OrderedDict.erase clientId sessions
    | none => sessions, { c with phase := .closed })

/-- The registration. -/
def shake (d : Daemon) (clientId : Text) (frame : Json) (sessions : Sessions) (c : Connection) :
    Sessions × Connection :=
  match greets d frame, pidOf d frame with
  | true, some pid => (OrderedDict.insert clientId pid sessions,
    { c with phase := .serving clientId, sent := [registered clientId] })
  | _, _ => close sessions c

/-- After `_dispatch_mcp`. -/
def afterDispatch (clientId : Text) (writes : Bool) (sessions : Sessions) (c : Connection) :
    Dispatch → Sessions × Connection
  | .answer response =>
    if writes then (sessions, { c with phase := .serving clientId, sent := c.sent ++ [response] })
    else close sessions c
  | .silent => (sessions, { c with phase := .serving clientId })
  | .raises => close sessions c

/-- What an event does to a connection. -/
def step (d : Daemon) (sessions : Sessions) (c : Connection) :
    Event → Option (Sessions × Connection)
  | .arrive frame => some (sessions, { c with inbox := c.inbox ++ [frame] })
  | .handshake clientId =>
    match c.phase, c.inbox with
    | .handshake, frame :: inbox =>
      some (shake d clientId frame sessions { c with inbox := inbox, read := c.read ++ [frame] })
    | _, _ => none
  | .read =>
    match c.phase, c.inbox with
    | .serving clientId, .obj msg :: inbox => some (sessions,
      { c with phase := .dispatching clientId msg, inbox := inbox, read := c.read ++ [.obj msg] })
    | .serving _, frame :: inbox =>
      some (sessions, { c with inbox := inbox, read := c.read ++ [frame] })
    | _, _ => none
  | .finish outcome writes =>
    match c.phase with
    | .dispatching clientId msg =>
      some (afterDispatch clientId writes sessions c (dispatchMcp d outcome msg))
    | _ => none
  | .evict clientId => some (OrderedDict.erase clientId sessions, c)
  | .ends =>
    match c.phase with
    | .closed => none
    | _ => some (close sessions c)

/-! ## What is answered -/

/-- The frame asks for an answer : it is a message, and no notification. -/
def asks : Json → Bool
  | .obj msg => startsNotification (method msg) != some true
  | _ => false

/-- A response to the frame, with its id. -/
def Answers (frame response : Json) : Prop :=
  ∃ msg body, frame = .obj msg ∧ response = .obj ((key "jsonrpc", .str (key "2.0")) ::
    (key "id", reqId msg) :: body) ∧ (body.map Prod.fst = [key "result"] ∨
      body.map Prod.fst = [key "error"])

theorem answers_rpcResult (msg : List (Text × Json)) (result : Json) :
    Answers (.obj msg) (rpcResult (reqId msg) result) :=
  ⟨msg, [(key "result", result)], rfl, rfl, .inl rfl⟩

theorem answers_rpcError (msg : List (Text × Json)) (code : ℤ) (message : Text) :
    Answers (.obj msg) (rpcError (reqId msg) code message) :=
  ⟨msg, [(key "error", .obj [(key "code", .int code), (key "message", .str message)])], rfl, rfl,
    .inr rfl⟩

theorem answers_answerOutcome (msg : List (Text × Json)) (outcome : Outcome) :
    Answers (.obj msg) (answerOutcome msg outcome) := by
  cases outcome with
  | returns result => exact answers_rpcResult msg result
  | raises text => exact answers_rpcError msg _ text

theorem answers_handleToolsCall (msg : List (Text × Json)) (outcome : Outcome) :
    Answers (.obj msg) (handleToolsCall msg outcome) := by
  unfold handleToolsCall
  split
  · exact answers_answerOutcome msg outcome
  · exact answers_rpcError msg _ _

/-- What is done with a message : it is answered where it asks for an answer, and only there, unless
it ends the connection. -/
def Treated (msg : List (Text × Json)) : Dispatch → Prop
  | .answer response => asks (.obj msg) = true ∧ Answers (.obj msg) response
  | .silent => asks (.obj msg) = false
  | .raises => True

/-- A text that is one of the methods is no notification. -/
theorem asks_of_isText {msg : List (Text × Json)} {s : String} (h : isText s (method msg) = true)
    (hs : (key "notifications/").isPrefixOf (key s) = false) : asks (.obj msg) = true := by
  unfold asks
  cases hmethod : method msg with
  | str text =>
    rw [hmethod] at h
    obtain rfl : text = key s := of_decide_eq_true h
    have hstarts : startsNotification (.str (key s)) = some false := congrArg some hs
    have hasks : (startsNotification (method msg) != some true) = true := by
      rw [hmethod, hstarts]
      rfl
    exact hasks
  | _ =>
    rw [hmethod] at h
    cases h

theorem treated_route (d : Daemon) (outcome : Outcome) (msg : List (Text × Json)) :
    Treated msg (route d outcome msg) := by
  unfold route
  split_ifs with hinit hlist hcall hping
  · exact ⟨asks_of_isText hinit (by decide), answers_rpcResult msg _⟩
  · exact ⟨asks_of_isText hlist (by decide), answers_answerOutcome msg outcome⟩
  · exact ⟨asks_of_isText hcall (by decide), answers_handleToolsCall msg outcome⟩
  · exact ⟨asks_of_isText hping (by decide), answers_rpcResult msg _⟩
  · split
    · rename_i text hmethod
      split
      · rename_i hprefix
        rw [Treated, asks, hmethod, startsNotification, hprefix]
        rfl
      · rename_i hprefix
        refine ⟨?_, answers_rpcError msg _ _⟩
        rw [asks, hmethod, startsNotification, Bool.eq_false_of_not_eq_true hprefix]
        rfl
    · rename_i hmethod
      refine ⟨?_, answers_rpcError msg _ _⟩
      have hnone : startsNotification (method msg) = none := by
        unfold startsNotification
        split
        · rename_i text heq
          exact (hmethod text heq).elim
        · rfl
      rw [asks, hnone]
      rfl

theorem treated_dispatchMcp (d : Daemon) (outcome : Outcome) (msg : List (Text × Json)) :
    Treated msg (dispatchMcp d outcome msg) := by
  unfold dispatchMcp
  split
  · trivial
  · rename_i h
    rw [Treated, asks, h]
    rfl
  · exact treated_route d outcome msg

/-! ## What a connection is sent -/

/-- The connection has registered. It was sent its id, and an answer for each frame after the
registration that asks for one, but for those that are pending. -/
def Served (d : Daemon) (clientId : Text) (pending : List Json) (c : Connection) : Prop :=
  ∃ hello handled answers, c.read = hello :: (handled ++ pending) ∧ greets d hello = true ∧
    c.sent = registered clientId :: answers ∧ List.Forall₂ Answers (handled.filter asks) answers

/-- What a connection was sent, by where it is. -/
def Transcript (d : Daemon) (c : Connection) : Prop :=
  match c.phase with
  | .handshake => c.read = [] ∧ c.sent = []
  | .serving clientId => Served d clientId [] c
  | .dispatching clientId msg => Served d clientId [.obj msg] c
  | .closed => c.sent = [] ∨ ∃ clientId pending, pending.length ≤ 1 ∧ Served d clientId pending c

section Transcript

variable {d : Daemon} {clientId : Text} {c : Connection}

variable {frame : Json}

/-- A frame that asks for nothing is dealt with. -/
theorem Served.skip (h : Served d clientId [frame] c) (hasks : asks frame = false) :
    Served d clientId [] c := by
  obtain ⟨hello, handled, answers, hread, hgreets, hsent, hanswers⟩ := h
  refine ⟨hello, handled ++ [frame], answers, ?_, hgreets, hsent, ?_⟩
  · rw [List.append_nil]
    exact hread
  · rw [List.filter_append, List.filter_singleton, hasks]
    simpa using hanswers

theorem Served.answer {frame response : Json} {phase : Phase} (h : Served d clientId [frame] c)
    (hasks : asks frame = true) (hanswer : Answers frame response) :
    Served d clientId [] { c with phase := phase, sent := c.sent ++ [response] } := by
  obtain ⟨hello, handled, answers, hread, hgreets, hsent, hanswers⟩ := h
  refine ⟨hello, handled ++ [frame], answers ++ [response], ?_, hgreets, ?_, ?_⟩
  · rw [List.append_nil]
    exact hread
  · rw [hsent]
    rfl
  · rw [List.filter_append, List.filter_singleton, hasks]
    exact List.rel_append hanswers (.cons hanswer .nil)

variable {inbox : List Json}

theorem Served.take {phase : Phase} (h : Served d clientId [] c) : Served d clientId [frame]
      { c with phase := phase, inbox := inbox, read := c.read ++ [frame] } := by
  obtain ⟨hello, handled, answers, hread, hgreets, hsent, hanswers⟩ := h
  refine ⟨hello, handled, answers, ?_, hgreets, hsent, hanswers⟩
  rw [hread, List.append_nil]
  rfl

theorem transcript_close (sessions : Sessions) (h : Transcript d c) :
    Transcript d (close sessions c).2 := by
  unfold Transcript at h
  split at h
  · exact .inl h.2
  · rename_i id _
    exact .inr ⟨id, [], Nat.zero_le 1, h⟩
  · rename_i id msg _
    exact .inr ⟨id, [.obj msg], le_rfl, h⟩
  · exact h

variable {sessions : Sessions}

theorem transcript_shake (hphase : c.phase = .handshake) (h : Transcript d c) :
    Transcript d (shake d clientId frame sessions
      { c with inbox := inbox, read := c.read ++ [frame] }).2 := by
  rw [Transcript, hphase] at h
  obtain ⟨hread, hsent⟩ := h
  unfold shake
  split
  · rename_i hgreets _
    refine ⟨frame, [], [], ?_, hgreets, rfl, .nil⟩
    rw [hread]
    rfl
  · exact .inl hsent

theorem transcript_afterDispatch {msg : List (Text × Json)} {writes : Bool}
    {r : Dispatch} (hphase : c.phase = .dispatching clientId msg) (h : Transcript d c)
    (hr : Treated msg r) : Transcript d (afterDispatch clientId writes sessions c r).2 := by
  have hserved : Served d clientId [.obj msg] c := by
    rw [Transcript, hphase] at h
    exact h
  cases r with
  | answer response =>
    cases writes with
    | true => exact hserved.answer hr.1 hr.2
    | false => exact transcript_close _ h
  | silent => exact hserved.skip hr
  | raises => exact transcript_close _ h

/-- A frame that is no message asks for nothing. -/
theorem Served.takeOther (hasks : asks frame = false) (h : Served d clientId [] c) :
    Served d clientId [] { c with inbox := inbox, read := c.read ++ [frame] } :=
  have htake : Served d clientId [frame]
      { c with phase := c.phase, inbox := inbox, read := c.read ++ [frame] } := h.take
  htake.skip hasks

theorem Transcript.step {sessions sessions' : Sessions} {c' : Connection} {e : Event}
    (h : Transcript d c) (hs : step d sessions c e = some (sessions', c')) : Transcript d c' := by
  obtain ⟨phase, inbox, read, sent⟩ := c
  cases e with
  | arrive frame =>
    cases hs
    exact h
  | handshake id =>
    cases phase with
    | handshake =>
      cases inbox with
      | nil => cases hs
      | cons frame inbox =>
        obtain rfl := congrArg Prod.snd (Option.some.inj hs)
        exact transcript_shake rfl h
    | _ => cases hs
  | read =>
    cases phase with
    | serving id =>
      cases inbox with
      | nil => cases hs
      | cons frame inbox =>
        cases frame with
        | obj msg =>
          cases hs
          exact Served.take h
        | _ =>
          cases hs
          exact Served.takeOther rfl h
    | _ => cases hs
  | finish outcome writes =>
    cases phase with
    | dispatching id msg =>
      obtain rfl := congrArg Prod.snd (Option.some.inj hs)
      exact transcript_afterDispatch rfl h (treated_dispatchMcp d outcome msg)
    | _ => cases hs
  | evict id =>
    cases hs
    exact h
  | ends =>
    cases phase with
    | closed => cases hs
    | _ =>
      cases hs
      exact transcript_close sessions h

end Transcript

/-! ## Any number of connections -/

section Connections

variable {ι : Type*} {d : Daemon}

abbrev Connections (ι : Type*) := World ι Sessions Connection

abbrev serve [DecidableEq ι] (d : Daemon) : Connections ι → ι × Event → Option (Connections ι) :=
  act fun _ => step d

/-- Before anyone has connected. -/
def start : Connections ι := ⟨[], fun _ => ⟨.handshake, [], [], []⟩⟩

theorem transcript_guaranteed : Guaranteed (fun _ : ι => step d) (fun _ _ _ => True)
    (fun _ _ c => Transcript d c) where
  keeps := fun h hs => ⟨h.step hs, trivial⟩
  stable := fun _ h _ => h

/-- Whatever happens on the connections, each is sent nothing, or its id after the registration and
one answer for each frame that asks for one, in their order. -/
theorem answers_in_order [DecidableEq ι] {w : Connections ι} (h : Reach (serve d) start w) (i : ι) :
    Transcript d (w.locals i) := by
  have hstart : ∀ j : ι, Transcript d ((start : Connections ι).locals j) := fun _ => ⟨rfl, rfl⟩
  exact (transcript_guaranteed.invariant hstart h).1 i

/-- A daemon whose token is `t`. -/
def withToken : Daemon := ⟨some (key "t"), key "1", fun _ => some 0⟩

def hello (token : String) : Json :=
  .obj [(key "type", .str (key "register")), (key "auth_token", .str (key token))]

/-- One connection registers and asks twice, a notification in between, and the other one does not
have the token. -/
def twoConnect : List (Bool × Event) :=
  [(true, .arrive (hello "t")), (false, .arrive (hello "u")), (true, .handshake (key "a")),
    (true, .arrive (.obj [(key "method", .str (key "ping")), (key "id", .int 1)])), (true, .read),
    (false, .handshake (key "b")), (true, .finish (.returns .null) true),
    (true, .arrive (.obj [(key "method", .str (key "notifications/initialized"))])), (true, .read),
    (true, .finish (.returns .null) true),
    (true, .arrive (.obj [(key "method", .int 7), (key "id", .int 2)])), (true, .read),
    (true, .finish (.returns .null) true)]

theorem answers_in_order_twoConnect : ∃ w, execute (serve withToken) start twoConnect = some w ∧
    (w.locals true).sent.length = 3 ∧ (w.locals false).sent = [] ∧
      ∀ i, Transcript withToken (w.locals i) :=
  ⟨_, rfl, rfl, rfl, answers_in_order (d := withToken) (Reach.of_execute twoConnect rfl)⟩

end Connections

end ChunkHound.DaemonSession
