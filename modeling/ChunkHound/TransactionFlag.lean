import ChunkHound.Raising
import ChunkHound.StepSystem
import ChunkHound.Transactions

/-!
# The transaction flag

The DuckDB provider runs on one executor thread. The thread-local state of that thread has its
connection, and the flag `transaction_active`, set and cleared by hand around `BEGIN`, `COMMIT` and
`ROLLBACK`. Operations that open their own transaction ask the flag first.

Each operation takes, for each statement it runs, how the statement ends. `COMMIT` and `ROLLBACK`
may raise and leave the transaction open, or raise when it is over (`Reply.ended`).

The flag tells the truth (`Truthful`) in runs in which no step ends a transaction behind its back
(`truthful_of_keeps`). A `COMMIT` that fails and has rolled back leaves it set, and so does a
disconnect with a transaction open : `clear_thread_local` runs on the thread of the caller.
-/

namespace ChunkHound.TransactionFlag

open Raising StepSystem
open Transactions (Reply)

/-! ## The state of a thread -/

/-- The exceptions that are told apart. -/
inductive Err
  | transactionException
  | other
  deriving DecidableEq

/-- A connection : there is none, it is closed, or it is live, inside a transaction or not. -/
inductive Conn
  | absent
  | closed
  | live (inTransaction : Bool)
  deriving DecidableEq

/-- The attributes of `_executor_local` on one thread. -/
structure Locals where
  connection : Conn
  transactionActive : Bool
  deriving DecidableEq

/-- `target` is the connection to the file that compaction builds. -/
structure State where
  executor : Locals
  caller : Locals
  target : Conn
  walCleanupDone : Bool
  deriving DecidableEq

/-- Nothing is open. -/
def start : State := ⟨⟨.absent, false⟩, ⟨.absent, false⟩, .absent, false⟩

/-- Which connection a statement runs on. -/
inductive Handle
  | own
  | target

namespace State

/-- The connection of a handle. -/
def conn (s : State) : Handle → Conn
  | .own => s.executor.connection
  | .target => s.target

/-- A handle gets another connection. -/
def setConn (s : State) (handle : Handle) (c : Conn) : State :=
  match handle with
  | .own => { s with executor := { s.executor with connection := c } }
  | .target => { s with target := c }

/-- The flag of the executor is set. -/
def setTransactionActive (s : State) (active : Bool) : State :=
  { s with executor := { s.executor with transactionActive := active } }

end State

/-- Programs of the executor thread. -/
abbrev ExecM := EStateM Err State

/-! ## Statements -/

/-- A statement that is not about transactions. A failed one leaves the transaction open. -/
def execute (handle : Handle) (runs : Bool) : ExecM Unit := do
  match (← get).conn handle with
  | .live _ => if runs then pure () else throw .other
  | _ => throw .other

/-- `BEGIN TRANSACTION` -/
def executeBegin (handle : Handle) (runs : Bool) : ExecM Unit := do
  match (← get).conn handle with
  | .live false => if runs then modify (·.setConn handle (.live true)) else throw .other
  | .live true => throw .transactionException
  | _ => throw .other

/-- `COMMIT` -/
def executeCommit (handle : Handle) (reply : Reply) : ExecM Unit := do
  match (← get).conn handle with
  | .live true =>
    match reply with
    | .ok => modify (·.setConn handle (.live false))
    | .raised => throw .other
    | .ended =>
      modify (·.setConn handle (.live false))
      throw .transactionException
  | .live false => throw .transactionException
  | _ => throw .other

/-- `ROLLBACK` -/
def executeRollback (handle : Handle) (reply : Reply) : ExecM Unit := do
  match (← get).conn handle with
  | .live true =>
    match reply with
    | .ok => modify (·.setConn handle (.live false))
    | .raised => throw .other
    | .ended =>
      modify (·.setConn handle (.live false))
      throw .other
  | .live false => throw .transactionException
  | _ => throw .other

/-- `duckdb.connect` and the statements after it. -/
def createConnection (handle : Handle) (created : Bool) : ExecM Unit :=
  if created then modify (·.setConn handle (.live false)) else throw .other

/-- `executor_state["transaction_active"]` -/
def transactionActive : ExecM Bool := return (← get).executor.transactionActive

/-- The flag is written. -/
def setTransactionActive (active : Bool) : ExecM Unit := modify (·.setTransactionActive active)

/-! ## Transactions -/

/-- `_executor_begin_transaction` -/
def beginTransaction (handle : Handle) (begins : Bool) : ExecM Unit :=
  Transactions.beginTransaction (executeBegin handle begins) setTransactionActive

/-- `_executor_commit_transaction` -/
def commitTransaction (handle : Handle) (commit : Reply) (forceCheckpoint checkpoint : Bool) :
    ExecM Unit :=
  Transactions.commitTransaction (executeCommit handle commit) setTransactionActive forceCheckpoint
    (execute handle checkpoint)

/-- `_executor_rollback_transaction` -/
def rollbackTransaction (handle : Handle) (rollback : Reply) : ExecM Unit :=
  Transactions.rollbackTransaction (· = Err.transactionException) (executeRollback handle rollback)
    setTransactionActive

/-- The statements of an operation with its own transaction. -/
structure OwnTransaction where
  begins : Bool
  body : Bool
  commit : Reply
  checkpoint : Bool
  rollback : Reply
  deriving DecidableEq

/-- A repair step of the upsert contract. `COMMIT` stands outside the `try`. -/
def runUpsertContractStep (handle : Handle) (r : OwnTransaction) : ExecM Unit := do
  let transactional := !(← transactionActive)
  if transactional then beginTransaction handle r.begins
  try
    execute handle r.body
  catch e =>
    if transactional then rollbackTransaction handle r.rollback
    throw e
  if transactional then commitTransaction handle r.commit false true

/-- `_executor_insert_embeddings_batch`, with the transaction it may open. -/
def insertEmbeddingsBatch (r : OwnTransaction) : ExecM Unit := do
  let transactionStarted := !(← transactionActive)
  if transactionStarted then beginTransaction .own r.begins
  try
    execute .own r.body
    if transactionStarted then commitTransaction .own r.commit true r.checkpoint
  catch e =>
    if transactionStarted && (← transactionActive) then rollbackTransaction .own r.rollback
    throw e

/-- Part of an operation : a statement or another call, or a repair step. -/
inductive Part
  | statement (runs : Bool)
  | contractStep (r : OwnTransaction)

/-- A part is run on a connection. -/
def Part.run (handle : Handle) : Part → ExecM PUnit
  | .statement runs => execute handle runs
  | .contractStep r => runUpsertContractStep handle r

/-- Parts are run one after the other. -/
def runParts (handle : Handle) (parts : List Part) : ExecM PUnit := parts.forM (Part.run handle)

/-- How the parts of a guarded mutation end. `recreate` is what follows the mutation, and `restore`
what a failed one runs when it has no transaction to roll back. -/
structure GuardedMutation where
  transactional : Bool
  begins : Bool
  mutation : List Part
  commit : Reply
  recreate : List Part
  checkpoint : Bool
  rollback : Reply
  restore : List Part

/-- The mutation, committed before the indexes are created again. -/
def GuardedMutation.run (g : GuardedMutation) : ExecM Unit := do
  if g.transactional then beginTransaction .own g.begins
  runParts .own g.mutation
  if g.transactional then commitTransaction .own g.commit false true
  runParts .own g.recreate
  if !(← transactionActive) then execute .own g.checkpoint

/-- Each index is created again on its own, and failures are logged. -/
def bestEffort (parts : List Part) : ExecM PUnit :=
  parts.forM fun part => tryCatch (part.run .own) fun _ => pure ()

/-- What follows a failure, before it is raised again. -/
def GuardedMutation.recover (g : GuardedMutation) : ExecM Unit := do
  if g.transactional && (← transactionActive) then rollbackTransaction .own g.rollback
  else if g.transactional then bestEffort g.restore
  else runParts .own g.restore

/-- A mutation between dropping and recreating indexes. -/
def runHnswGuardedMutation (g : GuardedMutation) : ExecM Unit := do
  if (← transactionActive) && g.transactional then throw .other
  try
    g.run
  catch e =>
    g.recover
    throw e

/-! ## Connections -/

/-- How a disconnect ends. `checkpointed` : no checkpoint is due. -/
structure Disconnect where
  checkpointed : Bool
  checkpoint : Bool
  closes : Bool

/-- The connection is closed also when the checkpoint fails. -/
def disconnect (r : Disconnect) : ExecM Unit := do
  try
    if !r.checkpointed then execute .own r.checkpoint
  finally
    if r.closes then modify (·.setConn .own .absent) else throw .other

/-- `clear_thread_local` on the thread that calls it. -/
def clearThreadLocal : ExecM Unit := modify fun s => { s with caller := ⟨.absent, false⟩ }

/-- A failed disconnect is reported after the rest. -/
def releaseForRustPipeline (r : Disconnect) (managerCloses : Bool) : ExecM Unit := do
  let failed ← try
      disconnect r
      pure false
    catch _ => pure true
  clearThreadLocal
  if failed || !managerCloses then throw .other

/-- How the statements of the schema end. `columnsInfo` : the chunks table is one to rebuild. -/
structure Schema where
  materialize : List Part
  columnsInfo : Bool
  migration : OwnTransaction
  rest : List Part

/-- What a connect meets, and how its statements end. -/
structure Connect where
  readOnly : Bool
  looksUp : Bool
  walExists : Bool
  walStale : Bool
  selects : Bool
  recreates : Bool
  schema : Schema

/-- A WAL that cannot be replayed is left for a new connection. -/
def performWalCleanup (r : Connect) : ExecM Unit := do
  if r.walExists && !r.walStale then
    try
      execute .own r.selects
    catch _ =>
      modify (·.setConn .own .closed)
      createConnection .own r.recreates

/-- The rebuild of the chunks table, which sets the flag by hand. -/
def rebuildChunks (r : OwnTransaction) : ExecM Unit := do
  try
    executeBegin .own r.begins
    setTransactionActive true
    execute .own r.body
    executeCommit .own r.commit
    setTransactionActive false
  catch e =>
    try
      executeRollback .own r.rollback
    catch _ => pure ()
    setTransactionActive false
    throw e

/-- `create_schema`, with the migration of old chunks. -/
def createSchema (r : Schema) : ExecM Unit := do
  runParts .own r.materialize
  if r.columnsInfo then rebuildChunks r.migration
  runParts .own r.rest

/-- `_executor_connect` -/
def connect (r : Connect) : ExecM Unit := do
  if r.readOnly then execute .own r.looksUp
  else
    if !(← get).walCleanupDone then
      performWalCleanup r
      modify fun s => { s with walCleanupDone := true }
    createSchema r.schema

/-! ## Compaction -/

/-- How the parts of a compaction end. -/
structure Compaction where
  memory : Bool
  checkpoint : Bool
  closes : Bool
  renames : Bool
  opens : Bool
  copy : List Part
  swaps : Bool
  reconnects : Bool
  finalize : List Part
  restoreCloses : Bool
  restores : Bool
  reopens : Bool
  schema : Schema

/-- A step on files, which may raise. -/
def fileSystem (done : Bool) : ExecM Unit := if done then pure () else throw .other

/-- The attribute is deleted also when the connection does not close. -/
def closeLiveCompactionConnections (closes : Bool) : ExecM Unit := do
  modify (·.setConn .own .absent)
  if !closes then throw .other

/-- The copy into the compacted file. -/
def compactCopyData (r : Compaction) : ExecM Unit := do
  createConnection .target r.opens
  try
    runParts .target r.copy
  finally
    modify (·.setConn .target .closed)

/-- The way back where the swap fails. -/
def compactRestore (r : Compaction) : ExecM Unit := do
  closeLiveCompactionConnections r.restoreCloses
  fileSystem r.restores
  createConnection .own r.reopens
  createSchema r.schema

/-- `_executor_compact_database` -/
def compactDatabase (r : Compaction) : ExecM Unit := do
  if !r.memory then
    if ← transactionActive then throw .other
    try
      execute .own r.checkpoint
      closeLiveCompactionConnections r.closes
      fileSystem r.renames
      compactCopyData r
      fileSystem r.swaps
      createConnection .own r.reconnects
      runParts .own r.finalize
    catch e =>
      try
        compactRestore r
      catch _ => pure ()
      throw e

/-- Nothing happens inside a transaction. -/
def compactIfNeeded (measures exceeds : Bool) (r : Compaction) : ExecM Unit := do
  if !(← transactionActive) && !r.memory then
    execute .own measures
    if exceeds then compactDatabase r

/-! ## Runs -/

/-- An operation of the executor. `created` : a connection can be created when there is none. -/
inductive Act
  | begin (created begins : Bool)
  | commit (created : Bool) (reply : Reply) (forceCheckpoint checkpoint : Bool)
  | rollback (created : Bool) (reply : Reply)
  | upsertStep (created : Bool) (r : OwnTransaction)
  | insertEmbeddings (created : Bool) (r : OwnTransaction)
  | guardedMutation (created : Bool) (g : GuardedMutation)
  | statements (created : Bool) (parts : List Part)
  | disconnect (created : Bool) (r : Disconnect)
  | release (created : Bool) (r : Disconnect) (managerCloses : Bool)
  | connect (created : Bool) (r : Connect)
  | compact (created : Bool) (r : Compaction)
  | compactIfNeeded (created measures exceeds : Bool) (r : Compaction)

/-- The executor gets the connection of its thread, or creates one, before it runs an operation. -/
def operation (created : Bool) (op : ExecM Unit) : ExecM Unit := do
  if (← get).executor.connection = .absent then createConnection .own created
  op

/-- What an operation of the provider runs. -/
def Act.run : Act → ExecM Unit
  | .begin created begins => operation created (beginTransaction .own begins)
  | .commit created reply forceCheckpoint checkpoint =>
    operation created (commitTransaction .own reply forceCheckpoint checkpoint)
  | .rollback created reply => operation created (rollbackTransaction .own reply)
  | .upsertStep created r => operation created (runUpsertContractStep .own r)
  | .insertEmbeddings created r => operation created (insertEmbeddingsBatch r)
  | .guardedMutation created g => operation created (runHnswGuardedMutation g)
  | .statements created parts => operation created (runParts .own parts)
  | .disconnect created r => operation created (TransactionFlag.disconnect r)
  | .release created r managerCloses =>
    -- the release itself runs on the thread of the caller
    operation created (releaseForRustPipeline r managerCloses)
  | .connect created r => operation created (TransactionFlag.connect r)
  | .compact created r => operation created (compactDatabase r)
  | .compactIfNeeded created measures exceeds r =>
    operation created (TransactionFlag.compactIfNeeded measures exceeds r)

/-- Every operation leaves a state, also one that raises. -/
def step (s : State) (a : Act) : Option State := some (Raising.state (a.run s))

/-- The flag is set exactly when the connection of the executor thread has an open transaction. -/
def Truthful (s : State) : Prop :=
  s.executor.transactionActive = true ↔ s.executor.connection = .live true

instance : DecidablePred Truthful := fun _ => inferInstanceAs (Decidable (_ ↔ _))

/-! ## Steps that keep the flag true

The reply of a statement that is not run is `ok`. -/

/-- No `COMMIT` or `ROLLBACK` of the step raises when the transaction is over. -/
def OwnTransaction.Settles (r : OwnTransaction) : Prop := r.commit ≠ .ended ∧ r.rollback ≠ .ended

/-- No `COMMIT` or `ROLLBACK` of the step raises. -/
def OwnTransaction.Clean (r : OwnTransaction) : Prop := r.commit = .ok ∧ r.rollback = .ok

/-- A part leaves no transaction behind. -/
def Part.Settles : Part → Prop
  | .statement _ => True
  | .contractStep r => r.Settles

/-- On the file that compaction builds, and on a connection that a failed compaction closes. -/
def Part.Clean : Part → Prop
  | .statement _ => True
  | .contractStep r => r.Clean

/-- Nor does a guarded mutation, recovered or not. -/
def GuardedMutation.Settles (g : GuardedMutation) : Prop :=
  (g.transactional = true → g.rollback ≠ .ended) ∧
    (g.transactional = false → ∀ part ∈ g.mutation, part.Settles) ∧
    (∀ part ∈ g.recreate, part.Settles) ∧ ∀ part ∈ g.restore, part.Settles

/-- The rebuild clears the flag whether its rollback ends the transaction or not. -/
def Schema.Settles (r : Schema) : Prop :=
  (∀ part ∈ r.materialize, part.Settles) ∧ r.migration.rollback ≠ .raised ∧
    ∀ part ∈ r.rest, part.Settles

/-- The connect replaces the connection, which fails on a query, by a new one. -/
def Connect.Replaces (r : Connect) (s : State) : Prop :=
  r.readOnly = false ∧ s.walCleanupDone = false ∧ r.walExists = true ∧ r.walStale = false ∧
    r.selects = false

/-- Nor does a compaction. -/
def Compaction.Settles (r : Compaction) : Prop :=
  (∀ part ∈ r.copy, part.Clean) ∧ (∀ part ∈ r.finalize, part.Clean) ∧ r.schema.Settles

/-- A step that ends no transaction without clearing the flag. -/
def Keeps (s : State) : Act → Prop
  | .begin _ _ => True
  | .commit _ reply _ _ => reply ≠ .ended
  | .rollback _ reply => reply ≠ .ended
  | .upsertStep _ r => r.Settles
  | .insertEmbeddings _ r => r.rollback ≠ .ended
  | .guardedMutation _ g => g.Settles
  | .statements _ parts => ∀ part ∈ parts, part.Settles
  | .disconnect _ r => s.executor.connection = .live true → r.closes = false
  | .release _ r _ => s.executor.connection = .live true → r.closes = false
  | .connect _ r => r.schema.Settles ∧ (s.executor.connection = .live true → ¬r.Replaces s)
  | .compact _ r => r.Settles
  | .compactIfNeeded _ _ _ r => r.Settles

/-! ## Statements keep the flag true -/

/-- A transaction is open and the flag is set. -/
def Open (s : State) : Prop :=
  s.executor.transactionActive = true ∧ s.executor.connection = .live true

/-- No transaction is open and the flag is clear. -/
def Shut (s : State) : Prop :=
  s.executor.transactionActive = false ∧ s.executor.connection ≠ .live true

/-- The transaction is over and the flag is still set. -/
def Stale (s : State) : Prop :=
  s.executor.transactionActive = true ∧ s.executor.connection = .live false

variable {s : State}

theorem truthful_iff : Truthful s ↔ Open s ∨ Shut s := by
  unfold Truthful Open Shut
  cases s.executor.transactionActive
  · simp
  · simp

theorem Open.truthful (h : Open s) : Truthful s := truthful_iff.2 (Or.inl h)

theorem Shut.truthful (h : Shut s) : Truthful s := truthful_iff.2 (Or.inr h)

variable {P : State → Prop}

theorem execute_keeps (handle : Handle) (runs : Bool) :
    Triple P (execute handle runs) (fun _ => P) fun _ => P := by
  refine Triple.get_bind fun t ht => ?_
  split
  · exact .ite (fun _ => .pure _ fun s hs => hs ▸ ht) fun _ => .throw fun s hs => hs ▸ ht
  · exact .throw fun s hs => hs ▸ ht

theorem beginTransaction_shut (begins : Bool) :
    Triple Shut (beginTransaction .own begins) (fun _ => Open) fun _ => Shut := by
  rintro ⟨⟨c, flag⟩, caller, target, done⟩ ⟨hf, hc⟩
  obtain rfl : flag = false := hf
  cases c with
  | absent => exact ⟨rfl, hc⟩
  | closed => exact ⟨rfl, hc⟩
  | live t =>
    cases t with
    | true => exact absurd rfl hc
    | false =>
      cases begins with
      | true => exact ⟨rfl, rfl⟩
      | false => exact ⟨rfl, hc⟩

theorem beginTransaction_open (begins : Bool) :
    Triple Open (beginTransaction .own begins) (fun _ => Open) fun _ => Open := by
  rintro ⟨⟨c, flag⟩, caller, target, done⟩ ⟨hf, hc⟩
  obtain rfl : flag = true := hf
  obtain rfl : c = .live true := hc
  exact ⟨rfl, rfl⟩

/-- A `COMMIT` that raises may leave the flag set for a transaction that is over. -/
theorem executeCommit_open (reply : Reply) :
    Triple Open (executeCommit .own reply)
      (fun _ s => s.executor.connection = .live false)
      fun _ s => Open s ∨ (reply = .ended ∧ Stale s) := by
  rintro ⟨⟨c, flag⟩, caller, target, done⟩ ⟨hf, hc⟩
  obtain rfl : flag = true := hf
  obtain rfl : c = .live true := hc
  cases reply with
  | ok => rfl
  | raised => exact Or.inl ⟨rfl, rfl⟩
  | ended => exact Or.inr ⟨rfl, rfl, rfl⟩

variable {E : Err → State → Prop}

theorem setTransactionActive_shut (hP : ∀ s, P s → s.executor.connection ≠ .live true) :
    Triple P (setTransactionActive false) (fun _ => Shut) E :=
  .modify fun s hs => ⟨rfl, hP s hs⟩

theorem commitTransaction_open (reply : Reply) (forceCheckpoint checkpoint : Bool) :
    Triple Open (commitTransaction .own reply forceCheckpoint checkpoint) (fun _ => Shut)
      fun _ s => Truthful s ∨ (reply = .ended ∧ Stale s) := by
  refine Triple.bind ((executeCommit_open reply).conseq (fun _ h => h) (fun _ _ h => h)
    fun _ s => Or.imp_left Open.truthful) fun _ => Triple.seq
    (setTransactionActive_shut fun s hs => by simp [hs])
    (.ite (fun _ => ?_) fun _ => .pure _ fun _ h => h)
  exact (execute_keeps .own checkpoint).conseq (fun _ h => h) (fun _ _ h => h)
    fun _ _ h => Or.inl h.truthful

theorem commitTransaction_shut (reply : Reply) (forceCheckpoint checkpoint : Bool) :
    Triple Shut (commitTransaction .own reply forceCheckpoint checkpoint) (fun _ => Shut)
      fun _ => Shut := by
  rintro ⟨⟨c, flag⟩, caller, target, done⟩ ⟨hf, hc⟩
  cases c with
  | absent => exact ⟨hf, hc⟩
  | closed => exact ⟨hf, hc⟩
  | live t =>
    cases t with
    | true => exact absurd rfl hc
    | false => exact ⟨hf, hc⟩

variable {reply : Reply}

/-- Whatever the flag was, a rollback that ends the transaction clears it. -/
theorem rollbackTransaction_open (hr : reply ≠ .ended) :
    Triple (fun s => Open s ∨ Stale s) (rollbackTransaction .own reply) (fun _ => Shut)
      fun _ => Open := by
  rintro ⟨⟨c, flag⟩, caller, target, done⟩ h
  rcases h with ⟨hf, hc⟩ | ⟨hf, hc⟩
  · obtain rfl : flag = true := hf
    obtain rfl : c = .live true := hc
    cases reply with
    | ok => exact ⟨rfl, nofun⟩
    | raised => exact ⟨rfl, rfl⟩
    | ended => exact absurd rfl hr
  · obtain rfl : c = .live false := hc
    exact ⟨rfl, nofun⟩

theorem rollbackTransaction_shut (reply : Reply) :
    Triple Shut (rollbackTransaction .own reply) (fun _ => Shut) fun _ => Shut := by
  rintro ⟨⟨c, flag⟩, caller, target, done⟩ ⟨hf, hc⟩
  cases c with
  | absent => exact ⟨hf, hc⟩
  | closed => exact ⟨hf, hc⟩
  | live t =>
    cases t with
    | true => exact absurd rfl hc
    | false => exact ⟨rfl, hc⟩

variable {α : Type}

variable {Q : α → State → Prop} {f : Bool → ExecM α}

/-- The flag an operation reads decides which of its branches runs. -/
theorem transactionActive_bind {active : Bool}
    (hP : ∀ s, P s → s.executor.transactionActive = active) (h : Triple P (f active) Q E) :
    Triple P (transactionActive >>= f) Q E := by
  intro s hs
  have := h s hs
  rw [← hP s hs] at this
  exact this

theorem rethrow (e : Err) :
    Triple P (throw e : ExecM α) Q fun _ => P :=
  .throw fun _ hs => hs

/-- Inside a transaction a repair step is its statement. -/
theorem runUpsertContractStep_open (r : OwnTransaction) :
    Triple Open (runUpsertContractStep .own r) (fun _ => Open) fun _ => Open :=
  transactionActive_bind (fun _ h => h.1) <|
    .seq (.tryCatch (execute_keeps .own r.body) fun e => rethrow e) (.pure _ fun _ h => h)

variable {r : OwnTransaction}

theorem runUpsertContractStep_shut (hr : r.Settles) :
    Triple Shut (runUpsertContractStep .own r) (fun _ => Shut) fun _ => Truthful := by
  refine transactionActive_bind (fun _ h => h.1) <| Triple.seq
    ((beginTransaction_shut r.begins).conseq (fun _ h => h) (fun _ _ h => h)
      fun _ _ h => h.truthful) <| Triple.seq (.tryCatch (execute_keeps .own r.body) fun e => ?_) ?_
  · refine Triple.seq (M := Shut) ?_ ((rethrow e).conseq (fun _ h => h) (fun _ _ h => h)
      fun _ _ h => h.truthful)
    exact (rollbackTransaction_open hr.2).conseq (fun _ h => Or.inl h) (fun _ _ h => h)
      fun _ _ h => h.truthful
  · exact (commitTransaction_open r.commit false true).conseq (fun _ h => h) (fun _ _ h => h)
      fun _ _ h => h.resolve_right fun he => hr.1 he.1

theorem runUpsertContractStep_keeps (hr : r.Settles) :
    Triple Truthful (runUpsertContractStep .own r) (fun _ => Truthful) fun _ => Truthful := by
  intro s hs
  rcases truthful_iff.1 hs with ho | hc
  · exact (runUpsertContractStep_open r).conseq (fun _ h => h) (fun _ _ h => h.truthful)
      (fun _ _ h => h.truthful) s ho
  · exact (runUpsertContractStep_shut hr).conseq (fun _ h => h) (fun _ _ h => h.truthful)
      (fun _ _ h => h) s hc

/-- A step whose `COMMIT` and `ROLLBACK` do not raise leaves no transaction on either connection. -/
theorem runUpsertContractStep_clean (hr : r.Clean) (handle : Handle) :
    Triple Shut (runUpsertContractStep handle r) (fun _ => Shut) fun _ => Shut := by
  rintro ⟨⟨c, flag⟩, caller, target, done⟩ ⟨hf, hc⟩
  obtain ⟨begins, body, commit, checkpoint, rollback⟩ := r
  obtain ⟨rfl, rfl⟩ : commit = .ok ∧ rollback = .ok := hr
  obtain rfl : flag = false := hf
  cases handle with
  | own =>
    rcases c with _ | _ | t
    · exact ⟨rfl, hc⟩
    · exact ⟨rfl, hc⟩
    · cases t with
      | true => exact absurd rfl hc
      | false => cases begins <;> cases body <;> exact ⟨rfl, nofun⟩
  | target =>
    rcases target with _ | _ | t
    · exact ⟨rfl, hc⟩
    · exact ⟨rfl, hc⟩
    · cases t <;> cases begins <;> cases body <;> exact ⟨rfl, hc⟩

theorem runParts_open (parts : List Part) :
    Triple Open (runParts .own parts) (fun _ => Open) fun _ => Open :=
  .forM fun part _ => by
    cases part with
    | statement runs => exact execute_keeps .own runs
    | contractStep r => exact runUpsertContractStep_open r

theorem Part.run_keeps {part : Part} (hp : part.Settles) :
    Triple Truthful (part.run .own) (fun _ => Truthful) fun _ => Truthful := by
  cases part with
  | statement runs => exact execute_keeps .own runs
  | contractStep r => exact runUpsertContractStep_keeps hp

variable {parts : List Part}

theorem runParts_keeps (hp : ∀ part ∈ parts, part.Settles) :
    Triple Truthful (runParts .own parts) (fun _ => Truthful) fun _ => Truthful :=
  .forM fun part hpart => Part.run_keeps (hp part hpart)

theorem runParts_clean (handle : Handle) (hp : ∀ part ∈ parts, part.Clean) :
    Triple Shut (runParts handle parts) (fun _ => Shut) fun _ => Shut :=
  .forM fun part hpart => by
    cases part with
    | statement runs => exact execute_keeps handle runs
    | contractStep r => exact runUpsertContractStep_clean (hp _ hpart) handle

/-! ## Operations keep the flag true -/

theorem insertEmbeddingsBatch_keeps (hr : r.rollback ≠ .ended) :
    Triple Truthful (insertEmbeddingsBatch r) (fun _ => Truthful) fun _ => Truthful := by
  intro s hs
  rcases truthful_iff.1 hs with ho | hc
  · -- the batch runs inside the open transaction
    refine Triple.conseq (P := Open) ?_ (fun _ h => h) (fun _ _ h => Open.truthful h)
      (fun _ _ h => Open.truthful h) s ho
    exact transactionActive_bind (fun _ h => h.1) <|
      .tryCatch (.seq (execute_keeps .own r.body) (.pure _ fun _ h => h)) fun e => rethrow e
  · refine Triple.conseq (P := Shut) ?_ (fun _ h => h) (fun _ _ h => Shut.truthful h)
      (fun _ _ h => h) s hc
    refine transactionActive_bind (fun _ h => h.1) <| Triple.seq
      ((beginTransaction_shut r.begins).conseq (fun _ h => h) (fun _ _ h => h)
        fun _ _ h => h.truthful) <|
      Triple.tryCatch (E := fun _ s => Shut s ∨ Open s ∨ Stale s) (.seq
        ((execute_keeps .own r.body).conseq (fun _ h => h) (fun _ _ h => h)
          fun _ _ h => Or.inr (Or.inl h))
        ((commitTransaction_open r.commit true r.checkpoint).conseq (fun _ h => h)
          (fun _ _ h => h) fun _ s h => ?_)) fun e => ?_
    · rcases h with h | h
      · exact (truthful_iff.1 h).elim (fun h => Or.inr (Or.inl h)) Or.inl
      · exact Or.inr (Or.inr h.2)
    · rintro t (ht | ht)
      · refine transactionActive_bind (P := Shut) (fun _ h => h.1)
          (show Triple Shut (throw e : ExecM Unit) _ _ from ?_) t ht
        exact (rethrow e).conseq (fun _ h => h) (fun _ _ h => h) fun _ _ h => Shut.truthful h
      · refine transactionActive_bind (P := fun s => Open s ∨ Stale s)
          (fun _ h => h.elim And.left And.left)
          (show Triple _ (rollbackTransaction .own r.rollback >>= fun _ => throw e) _ _ from ?_)
          t ht
        exact .seq
          ((rollbackTransaction_open hr).conseq (fun _ h => h) (fun _ _ h => h)
            fun _ _ h => h.truthful)
          ((rethrow e).conseq (fun _ h => h) (fun _ _ h => h) fun _ _ h => h.truthful)

/-- What holds for each value the flag may have. -/
theorem transactionActive_cases (h : ∀ active, Triple P (f active) Q E) :
    Triple P (transactionActive >>= f) Q E :=
  fun s hs => h s.executor.transactionActive s hs

variable {g : GuardedMutation}

/-- A transaction that is over with the flag still set is left by `COMMIT` only. -/
theorem GuardedMutation.run_keeps (hg : g.Settles)
    (hP : ∀ s, P s → if g.transactional then Shut s else Truthful s) :
    Triple P g.run (fun _ => Truthful)
      fun _ s => Truthful s ∨ (g.transactional = true ∧ Stale s) := by
  obtain ⟨-, hmutation, hrecreate, -⟩ := hg
  have hrest : Triple Truthful
      (runParts .own g.recreate >>= fun _ => transactionActive >>= fun active =>
        if (!active) = true then execute .own g.checkpoint else Pure.pure ())
      (fun _ => Truthful) fun _ s => Truthful s ∨ (g.transactional = true ∧ Stale s) :=
    Triple.conseq (.seq (runParts_keeps hrecreate) (transactionActive_cases fun active =>
      .ite (fun _ => execute_keeps .own g.checkpoint) fun _ => .pure _ fun _ h => h))
      (fun _ h => h) (fun _ _ h => h) fun _ _ h => Or.inl h
  unfold GuardedMutation.run
  cases ht : g.transactional with
  | true =>
    rw [ht] at hP hrest
    refine Triple.seq (M := Open) ((beginTransaction_shut g.begins).conseq hP (fun _ _ h => h)
      fun _ _ h => Or.inl h.truthful) <| Triple.seq (M := Open) ((runParts_open g.mutation).conseq
      (fun _ h => h) (fun _ _ h => h) fun _ _ h => Or.inl h.truthful) <|
      Triple.seq (M := Truthful) ?_ hrest
    exact (commitTransaction_open g.commit false true).conseq (fun _ h => h)
      (fun _ _ h => h.truthful) fun _ _ h => h.imp_right fun h => ⟨rfl, h.2⟩
  | false =>
    rw [ht] at hP hrest
    exact .seq ((runParts_keeps (hmutation ht)).conseq hP (fun _ _ h => h) fun _ _ h => Or.inl h)
      hrest

theorem bestEffort_keeps (hp : ∀ part ∈ parts, part.Settles) :
    Triple Truthful (bestEffort parts) (fun _ => Truthful) fun _ => Truthful :=
  .forM fun part hpart => .tryCatch (Part.run_keeps (hp part hpart)) fun _ => .pure _ fun _ h => h

theorem GuardedMutation.recover_keeps (hg : g.Settles) :
    Triple (fun s => Truthful s ∨ (g.transactional = true ∧ Stale s)) g.recover
      (fun _ => Truthful) fun _ => Truthful := by
  obtain ⟨hrollback, -, -, hrestore⟩ := hg
  unfold GuardedMutation.recover
  cases ht : g.transactional with
  | false =>
    refine Triple.pre (P := Truthful) ?_ fun _ h => h.resolve_right fun h => nomatch h.1
    exact transactionActive_cases fun active => by
      simpa using runParts_keeps hrestore
  | true =>
    intro s hs
    by_cases hc : Shut s
    · refine transactionActive_bind (P := Shut) (fun _ h => h.1)
        (show Triple Shut (bestEffort g.restore) _ _ from ?_) s hc
      exact (bestEffort_keeps hrestore).pre fun _ h => h.truthful
    · have ho : Open s ∨ Stale s :=
        hs.imp (fun h => (truthful_iff.1 h).resolve_right hc) And.right
      refine transactionActive_bind (P := fun s => Open s ∨ Stale s)
        (fun _ h => h.elim And.left And.left)
        (show Triple _ (rollbackTransaction .own g.rollback) _ _ from ?_) s ho
      exact (rollbackTransaction_open (hrollback ht)).conseq (fun _ h => h)
        (fun _ _ h => h.truthful) fun _ _ h => h.truthful

theorem runHnswGuardedMutation_keeps (hg : g.Settles) :
    Triple Truthful (runHnswGuardedMutation g) (fun _ => Truthful) fun _ => Truthful := by
  have htry : ∀ {P : State → Prop},
      (∀ s, P s → if g.transactional then Shut s else Truthful s) →
      Triple P (tryCatch g.run fun e => g.recover >>= fun _ => throw e) (fun _ => Truthful)
        fun _ => Truthful := fun hP =>
    .tryCatch (GuardedMutation.run_keeps hg hP) fun e =>
      .seq (GuardedMutation.recover_keeps hg) (rethrow e)
  intro s hs
  by_cases hrefused : s.executor.transactionActive = true ∧ g.transactional = true
  · have ho : Open s := ⟨hrefused.1, hs.1 hrefused.1⟩
    refine transactionActive_bind (P := Open) (fun _ h => h.1) ?_ s ho
    rw [hrefused.2]
    exact (rethrow .other).conseq (fun _ h => h) (fun _ _ h => h) fun _ _ h => Open.truthful h
  · have hactive : ∀ t, t = s → t.executor.transactionActive = s.executor.transactionActive :=
      fun t h => h ▸ rfl
    refine transactionActive_bind hactive ?_ s rfl
    have hfalse : (s.executor.transactionActive && g.transactional) = false := by
      simpa using hrefused
    rw [hfalse]
    refine htry fun t ht => ?_
    subst ht
    split
    · next ht => exact (truthful_iff.1 hs).resolve_left fun ho => hrefused ⟨ho.1, ht⟩
    · exact hs

/-- A triple from each of the two ways the flag tells the truth. -/
theorem of_open_of_shut {p : ExecM α}
    (ho : Triple Open p Q E) (hc : Triple Shut p Q E) : Triple Truthful p Q E :=
  fun s hs => (truthful_iff.1 hs).elim (ho s) (hc s)

theorem beginTransaction_keeps (begins : Bool) :
    Triple Truthful (beginTransaction .own begins) (fun _ => Truthful) fun _ => Truthful :=
  of_open_of_shut
    ((beginTransaction_open begins).conseq (fun _ h => h) (fun _ _ h => h.truthful)
      fun _ _ h => h.truthful)
    ((beginTransaction_shut begins).conseq (fun _ h => h) (fun _ _ h => h.truthful)
      fun _ _ h => h.truthful)

theorem commitTransaction_keeps (hr : reply ≠ .ended) (forceCheckpoint checkpoint : Bool) :
    Triple Truthful (commitTransaction .own reply forceCheckpoint checkpoint)
      (fun _ => Truthful) fun _ => Truthful :=
  of_open_of_shut
    ((commitTransaction_open reply forceCheckpoint checkpoint).conseq (fun _ h => h)
      (fun _ _ h => h.truthful) fun _ _ h => h.resolve_right fun he => hr he.1)
    ((commitTransaction_shut reply forceCheckpoint checkpoint).conseq (fun _ h => h)
      (fun _ _ h => h.truthful) fun _ _ h => h.truthful)

theorem rollbackTransaction_keeps (hr : reply ≠ .ended) :
    Triple Truthful (rollbackTransaction .own reply) (fun _ => Truthful) fun _ => Truthful :=
  of_open_of_shut
    ((rollbackTransaction_open hr).conseq (fun _ h => Or.inl h) (fun _ _ h => h.truthful)
      fun _ _ h => h.truthful)
    ((rollbackTransaction_shut reply).conseq (fun _ h => h) (fun _ _ h => h.truthful)
      fun _ _ h => h.truthful)

/-- A `ROLLBACK` that does not leave the transaction open leaves none. -/
theorem executeRollback_ends (hr : reply ≠ .raised) :
    Triple (fun _ => True) (executeRollback .own reply)
      (fun _ s => s.executor.connection ≠ .live true)
      fun _ s => s.executor.connection ≠ .live true := by
  rintro ⟨⟨c, flag⟩, caller, target, done⟩ -
  rcases c with _ | _ | t
  · exact nofun
  · exact nofun
  · cases t with
    | false => exact nofun
    | true =>
      cases reply with
      | ok => exact nofun
      | raised => exact absurd rfl hr
      | ended => exact nofun

theorem rebuildChunks_keeps (hr : r.rollback ≠ .raised) :
    Triple Truthful (rebuildChunks r) (fun _ => Truthful) fun _ => Truthful := by
  have hbegin : Triple Truthful (beginTransaction .own r.begins) (fun _ => Open) fun _ _ => True :=
    of_open_of_shut
      ((beginTransaction_open r.begins).conseq (fun _ h => h) (fun _ _ h => h) fun _ _ _ => trivial)
      ((beginTransaction_shut r.begins).conseq (fun _ h => h) (fun _ _ h => h) fun _ _ _ => trivial)
  have hbody : Triple Open (execute .own r.body >>= fun _ =>
      commitTransaction .own r.commit false true) (fun _ => Truthful) fun _ _ => True :=
    .seq ((execute_keeps .own r.body).conseq (fun _ h => h) (fun _ _ h => h) fun _ _ _ => trivial)
      ((commitTransaction_open r.commit false true).conseq (fun _ h => h) (fun _ _ h => h.truthful)
        fun _ _ _ => trivial)
  refine Triple.tryCatch (E := fun _ _ => True) (fun s hs => ?_) fun e => ?_
  · -- `BEGIN` and the flag after it, and `COMMIT` and the flag after it, are the two operations
    have := hbegin.seq hbody s hs
    simpa [beginTransaction, commitTransaction, Transactions.beginTransaction,
      Transactions.commitTransaction] using this
  · refine Triple.seq (M := fun s => s.executor.connection ≠ .live true) (.tryCatch
      (executeRollback_ends hr) fun _ => .pure _ fun _ h => h) <|
      Triple.seq (setTransactionActive_shut fun _ h => h) ?_
    exact (rethrow e).conseq (fun _ h => h) (fun _ _ h => h) fun _ _ h => h.truthful

theorem createSchema_keeps {r : Schema} (hr : r.Settles) :
    Triple Truthful (createSchema r) (fun _ => Truthful) fun _ => Truthful := by
  obtain ⟨hmaterialize, hmigration, hrest⟩ := hr
  refine Triple.seq (runParts_keeps hmaterialize) ?_
  show Triple Truthful (if r.columnsInfo = true then
    (rebuildChunks r.migration >>= fun _ => runParts .own r.rest) else runParts .own r.rest) _ _
  exact .ite (fun _ => .seq (rebuildChunks_keeps hmigration) (runParts_keeps hrest))
    fun _ => runParts_keeps hrest

theorem createConnection_shut (created : Bool) (hP : ∀ s, P s → Shut s) :
    Triple P (createConnection .own created) (fun _ => Shut) fun _ => Shut :=
  .ite (fun _ => .modify fun s hs => ⟨(hP s hs).1, nofun⟩) fun _ => .throw hP

/-- A connection that is closed and replaced was not inside a transaction. -/
theorem performWalCleanup_shut (r : Connect) :
    Triple Shut (performWalCleanup r) (fun _ => Shut) fun _ => Shut :=
  .ite (fun _ => .tryCatch (execute_keeps .own r.selects) fun _ =>
    .seq (.modify fun _ h => ⟨h.1, nofun⟩) (createConnection_shut r.recreates fun _ h => h))
    fun _ => .pure _ fun _ h => h

/-- On a live connection the query fails only as the outcome says. -/
theorem execute_live (handle : Handle) {runs : Bool} (hruns : runs = true)
    (hP : ∀ s, P s → ∃ t, s.conn handle = .live t) :
    Triple P (execute handle runs) (fun _ => P) E := by
  intro s hs
  obtain ⟨t, ht⟩ := hP s hs
  have hrun : execute handle runs s = .ok () s := by
    simp only [execute, bind, EStateM.bind, get, getThe, MonadStateOf.get, EStateM.get, ht, hruns]
    rfl
  rw [hrun]
  exact hs

theorem performWalCleanup_open {r : Connect}
    (hr : r.walExists = true → r.walStale = false → r.selects = true) :
    Triple Open (performWalCleanup r) (fun _ => Open) fun _ => Open :=
  .ite (fun h => .tryCatch (E := fun _ _ => False)
    (execute_live .own (hr (by simp_all) (by simp_all)) fun _ h => ⟨true, h.2⟩)
    fun _ => fun _ h => h.elim) fun _ => .pure _ fun _ h => h

/-- A connect in a state in which it replaces no connection with an open transaction. -/
theorem connect_keeps {r : Connect} (hr : r.schema.Settles) (hs : Truthful s)
    (hreplaces : s.executor.connection = .live true → ¬r.Replaces s) :
    Meets (fun _ => Truthful) (fun _ => Truthful) (connect r s) := by
  unfold connect
  cases hread : r.readOnly with
  | true => exact execute_keeps .own r.looksUp s hs
  | false =>
    refine Triple.get_bind (P := fun t => t = s) (fun t ht => ?_) s rfl
    obtain rfl : t = s := ht
    cases hdone : t.walCleanupDone with
    | true => exact (createSchema_keeps hr).pre fun u hu => hu ▸ hs
    | false =>
      show Triple _ (performWalCleanup r >>= fun _ =>
        modify (fun u => { u with walCleanupDone := true }) >>= fun _ => createSchema r.schema) _ _
      refine Triple.seq (M := Truthful) ?_ <|
        Triple.seq (M := Truthful) (.modify fun _ h => h) (createSchema_keeps hr)
      rcases truthful_iff.1 hs with ho | hc
      · refine (performWalCleanup_open fun hexists hstale => ?_).conseq (fun u hu => hu ▸ ho)
          (fun _ _ h => h.truthful) fun _ _ h => h.truthful
        have := hreplaces ho.2
        simp only [Connect.Replaces, hread, hdone, hexists, hstale, true_and] at this
        simpa using this
      · exact (performWalCleanup_shut r).conseq (fun u hu => hu ▸ hc) (fun _ _ h => h.truthful)
          fun _ _ h => h.truthful

theorem disconnect_shut (r : Disconnect) :
    Triple Shut (disconnect r) (fun _ => Shut) fun _ => Shut :=
  .cleanup (.ite (fun _ => execute_keeps .own r.checkpoint) fun _ => .pure _ fun _ h => h)
    (.ite (fun _ => .modify fun _ h => ⟨h.1, nofun⟩) fun _ => .throw fun _ h => h)

/-- With a transaction open the connection is not to close. -/
theorem disconnect_open {r : Disconnect} (hr : r.closes = false) :
    Triple Open (disconnect r) (fun _ => Open) fun _ => Open :=
  .cleanup (.ite (fun _ => execute_keeps .own r.checkpoint) fun _ => .pure _ fun _ h => h)
    (.ite (fun h => absurd h (by simp [hr])) fun _ => .throw fun _ h => h)

/-- The thread-local state that a release clears is not the executor's. -/
theorem releaseForRustPipeline_keeps {r : Disconnect}
    (hd : Triple P (disconnect r) (fun _ => P) fun _ => P)
    (hP : ∀ s caller, P s → P { s with caller }) (managerCloses : Bool) :
    Triple P (releaseForRustPipeline r managerCloses) (fun _ => P) fun _ => P := by
  refine Triple.bind (Q := fun _ => P) (.tryCatch (.seq hd (.pure _ fun _ h => h)) fun _ =>
    .pure _ fun _ h => h) fun failed => Triple.seq (M := P) (.modify fun s hs => hP s _ hs) ?_
  exact .ite (fun _ => .throw fun _ h => h) fun _ => .pure _ fun _ h => h

variable {r : Compaction}

theorem compactCopyData_shut (hr : ∀ part ∈ r.copy, part.Clean) :
    Triple Shut (compactCopyData r) (fun _ => Shut) fun _ => Shut :=
  .seq (M := Shut) (.ite (fun _ => .modify fun _ h => h) fun _ => .throw fun _ h => h) <|
    .cleanup (runParts_clean .target hr) (.modify fun _ h => h)

theorem fileSystem_keeps (done : Bool) :
    Triple P (fileSystem done) (fun _ => P) fun _ => P :=
  .ite (fun _ => .pure _ fun _ h => h) fun _ => .throw fun _ h => h

theorem closeLiveCompactionConnections_shut (closes : Bool) :
    Triple Shut (closeLiveCompactionConnections closes) (fun _ => Shut) fun _ => Shut :=
  .seq (M := Shut) (.modify fun _ h => ⟨h.1, nofun⟩) <|
    .ite (fun _ => .throw fun _ h => h) fun _ => .pure _ fun _ h => h

theorem compactRestore_shut (hr : r.schema.Settles) :
    Triple Shut (compactRestore r) (fun _ => Truthful) fun _ => Truthful := by
  have hclose : Triple Shut (closeLiveCompactionConnections r.restoreCloses >>= fun _ =>
      fileSystem r.restores >>= fun _ => createConnection .own r.reopens)
      (fun _ => Shut) fun _ => Shut :=
    .seq (closeLiveCompactionConnections_shut _) <| .seq (fileSystem_keeps _)
      (createConnection_shut _ fun _ h => h)
  have hall := (hclose.conseq (fun _ h => h) (fun _ _ h => h.truthful)
    fun _ _ h => h.truthful).seq (createSchema_keeps hr)
  simpa [compactRestore] using hall

theorem compactDatabase_keeps (hr : r.Settles) :
    Triple Truthful (compactDatabase r) (fun _ => Truthful) fun _ => Truthful := by
  obtain ⟨hcopy, hfinalize, hschema⟩ := hr
  have hbuild : Triple Shut (execute .own r.checkpoint >>= fun _ =>
      closeLiveCompactionConnections r.closes >>= fun _ => fileSystem r.renames >>= fun _ =>
      compactCopyData r >>= fun _ => fileSystem r.swaps >>= fun _ =>
      createConnection .own r.reconnects >>= fun _ => runParts .own r.finalize)
      (fun _ => Truthful) fun _ => Shut := by
    refine Triple.conseq (Q := fun _ => Shut) ?_ (fun _ h => h) (fun _ _ h => h.truthful)
      fun _ _ h => h
    exact .seq (execute_keeps .own _) <| .seq (closeLiveCompactionConnections_shut _) <|
      .seq (fileSystem_keeps _) <| .seq (compactCopyData_shut hcopy) <| .seq (fileSystem_keeps _) <|
      .seq (createConnection_shut _ fun _ h => h) <| runParts_clean .own hfinalize
  refine Triple.ite (fun _ => of_open_of_shut ?_ ?_) fun _ => .pure _ fun _ h => h
  · exact transactionActive_bind (fun _ h => h.1) <|
      (rethrow .other).conseq (fun _ h => h) (fun _ _ h => h) fun _ _ h => Open.truthful h
  · refine transactionActive_bind (fun _ h => h.1) <| Triple.tryCatch hbuild fun e => ?_
    refine Triple.seq (M := Truthful) ?_ (rethrow e)
    exact .tryCatch (compactRestore_shut hschema) fun _ => .pure _ fun _ h => h

theorem compactIfNeeded_keeps (hr : r.Settles) (measures exceeds : Bool) :
    Triple Truthful (compactIfNeeded measures exceeds r) (fun _ => Truthful)
      fun _ => Truthful :=
  transactionActive_cases fun _ => .ite (fun _ => .seq (execute_keeps .own measures) <|
    .ite (fun _ => compactDatabase_keeps hr) fun _ => .pure _ fun _ h => h)
    fun _ => .pure _ fun _ h => h

/-! ## Every run -/

/-- The operation starts in the state it was called in, or on a new connection. -/
theorem operation_keeps (created : Bool) {op : ExecM Unit} (hs : Truthful s)
    (h : ∀ t, Truthful t → t = s ∨ t.executor.connection = .live false →
      Meets (fun _ => Truthful) (fun _ => Truthful) (op t)) :
    Meets (fun _ => Truthful) (fun _ => Truthful) (operation created op s) := by
  refine Triple.get_bind (P := fun t => t = s) (fun t ht => ?_) s rfl
  obtain rfl : t = s := ht
  by_cases habsent : t.executor.connection = .absent
  · have hc : Shut t := (truthful_iff.1 hs).resolve_left fun ho => by
      rw [ho.2] at habsent
      exact nomatch habsent
    simp only [habsent, if_true]
    refine Triple.seq (M := fun u => Shut u ∧ u.executor.connection = .live false)
      (.ite (fun _ => .modify fun u hu => ⟨⟨?_, nofun⟩, rfl⟩)
        fun _ => .throw fun u hu => hu ▸ hs) fun u hu => h u hu.1.truthful (Or.inr hu.2)
    rw [hu]
    exact hc.1
  · simp only [habsent, if_false]
    exact fun u hu => h u (hu ▸ hs) (Or.inl hu)

/-- A step that ends no transaction behind the flag keeps it true. -/
theorem Act.run_keeps {a : Act} (hs : Truthful s) (ha : Keeps s a) :
    Meets (fun _ => Truthful) (fun _ => Truthful) (a.run s) := by
  cases a with
  | begin created begins =>
    exact operation_keeps created hs fun t ht _ => beginTransaction_keeps begins t ht
  | commit created reply forceCheckpoint checkpoint =>
    exact operation_keeps created hs fun t ht _ =>
      commitTransaction_keeps ha forceCheckpoint checkpoint t ht
  | rollback created reply =>
    exact operation_keeps created hs fun t ht _ => rollbackTransaction_keeps ha t ht
  | upsertStep created r =>
    exact operation_keeps created hs fun t ht _ => runUpsertContractStep_keeps ha t ht
  | insertEmbeddings created r =>
    exact operation_keeps created hs fun t ht _ => insertEmbeddingsBatch_keeps ha t ht
  | guardedMutation created g =>
    exact operation_keeps created hs fun t ht _ => runHnswGuardedMutation_keeps ha t ht
  | statements created parts =>
    exact operation_keeps created hs fun t ht _ => runParts_keeps ha t ht
  | disconnect created r =>
    refine operation_keeps created hs fun t ht hst => ?_
    rcases truthful_iff.1 ht with ho | hc
    · obtain rfl := hst.resolve_right (by simp [ho.2])
      exact (disconnect_open (ha ho.2)).conseq (fun _ h => h) (fun _ _ h => h.truthful)
        (fun _ _ h => h.truthful) t ho
    · exact (disconnect_shut r).conseq (fun _ h => h) (fun _ _ h => h.truthful)
        (fun _ _ h => h.truthful) t hc
  | release created r managerCloses =>
    refine operation_keeps created hs fun t ht hst => ?_
    rcases truthful_iff.1 ht with ho | hc
    · obtain rfl := hst.resolve_right (by simp [ho.2])
      exact (releaseForRustPipeline_keeps (disconnect_open (ha ho.2)) (fun _ _ h => h)
        managerCloses).conseq (fun _ h => h) (fun _ _ h => h.truthful)
        (fun _ _ h => h.truthful) t ho
    · exact (releaseForRustPipeline_keeps (disconnect_shut r) (fun _ _ h => h)
        managerCloses).conseq (fun _ h => h) (fun _ _ h => h.truthful)
        (fun _ _ h => h.truthful) t hc
  | connect created r =>
    refine operation_keeps created hs fun t ht hst => connect_keeps ha.1 ht fun hlive => ?_
    obtain rfl := hst.resolve_right (by simp [hlive])
    exact ha.2 hlive
  | compact created r =>
    exact operation_keeps created hs fun t ht _ => compactDatabase_keeps ha t ht
  | compactIfNeeded created measures exceeds r =>
    exact operation_keeps created hs fun t ht _ => compactIfNeeded_keeps ha measures exceeds t ht

/-- In runs in which no step ends a transaction behind the flag, it tells the truth. -/
theorem truthful_of_keeps {s : State} (h : ReachWhen step Keeps start s) : Truthful s := by
  refine h.invariant (by decide) fun t a t' ht ha hs => ?_
  obtain rfl := Option.some.inj hs
  exact (Act.run_keeps ht ha).state

/-- A batch inside a transaction, and one whose `COMMIT` raises when the transaction is over, which
its rollback clears. -/
def batches : List Act :=
  [.begin true true, .insertEmbeddings true ⟨true, true, .ok, true, .ok⟩,
    .commit true .ok true true, .insertEmbeddings true ⟨true, true, .ended, true, .ok⟩]

theorem truthful_batches : ∃ s, StepSystem.execute step start batches = some s ∧ Truthful s := by
  refine ⟨_, rfl, truthful_of_keeps (.execute batches (fun a ha s => ?_) .init rfl)⟩
  simp only [batches, List.mem_cons, List.not_mem_nil, or_false] at ha
  rcases ha with rfl | rfl | rfl | rfl <;> simp [Keeps]

/-- The connection is released inside a transaction, and the next query opens a new one. -/
theorem not_truthful_release : ∃ s, Reach step start s ∧ ¬Truthful s :=
  ⟨_, .of_execute [.begin true true, .release true ⟨false, true, true⟩ true,
    .statements true [.statement true]] rfl, by decide⟩

/-- A `COMMIT` raises when the transaction is over. -/
example : ∃ s, Reach step start s ∧ ¬Truthful s :=
  ⟨_, .of_execute [.begin true true, .commit true .ended false true] rfl, by decide⟩

end ChunkHound.TransactionFlag
