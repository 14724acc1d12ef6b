import Mathlib

/-!
# The transaction calls of the DuckDB provider

`BEGIN`, `COMMIT` and `ROLLBACK`, each with the flag `transaction_active` that is set by hand after
it. The statements and the flag are those of the connection that a program runs on, so they are
parameters, and so is the monad of the program.
-/

namespace ChunkHound.Transactions

/-- How `COMMIT` or `ROLLBACK` ends : it is done, or raises with the transaction still open, or
raises and the transaction is over. -/
inductive Reply
  | ok
  | raised
  | ended
  deriving DecidableEq

variable {m : Type → Type} [Monad m]

/-- `_executor_begin_transaction`. -/
def beginTransaction (executeBegin : m Unit) (setActive : Bool → m Unit) : m Unit := do
  executeBegin
  setActive true

/-- `_executor_commit_transaction`. -/
def commitTransaction (executeCommit : m Unit) (setActive : Bool → m Unit) (forceCheckpoint : Bool)
    (checkpoint : m Unit) : m Unit := do
  executeCommit
  setActive false
  if forceCheckpoint then checkpoint

/-- `_executor_rollback_transaction`. `skips` are the errors of a connection without a
transaction. -/
def rollbackTransaction {ε : Type} [MonadExceptOf ε m] (skips : ε → Bool) (executeRollback : m Unit)
    (setActive : Bool → m Unit) : m Unit := do
  tryCatch executeRollback fun e => if skips e then pure () else throw e
  setActive false

end ChunkHound.Transactions
