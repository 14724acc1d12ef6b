import ChunkHound.StepSystem
import Mathlib.Algebra.BigOperators.Group.List.Basic

/-!
# The three threads of a native run

`pipeline_parse_embed_store` of `pipeline.rs` : a parse, an embed and a store thread, with a
bounded channel between each two, and what the caller makes of them once all have ended.

A channel takes a message while there is room, and refuses it when its receiver is gone. It
yields its messages in order, and then an error when its sender is gone. A thread that ends
drops its ends of the channels. What the parser, the provider and the backend return is in the
labels, and so is a panic. The progress callbacks, the errors of single files and the disk
limit are left out : no limit is set.

`parsed`, `written` and `failed` are what the properties speak of : the batches parsed so far,
the batches written with what the backend counted for each, and that some stage has failed.
-/

namespace ChunkHound.Stages

/-- A batch on its way to the store : what was parsed, the rows made of it, and how many chunks
were embedded. -/
structure DbBatch (π δ : Type*) where
  parsed : π
  rows : δ
  embedded : ℕ

/-- A batch the store has written, with the counts of its result. -/
structure Written (π δ : Type*) where
  batch : DbBatch π δ
  chunks : ℕ
  embeddings : ℕ

inductive ParseThread (φ π : Type*)
  | head
  | parsing (batch : List φ)
  | sending (parsed : π)
  | ended
  | panicked

inductive EmbedThread (π δ : Type*)
  | building
  | receiving
  | received (parsed : π)
  | embedding (parsed : π)
  | sending (batch : DbBatch π δ)
  | ended
  | failed (message : String)
  | panicked

inductive StoreThread (π δ : Type*)
  | opening
  | receiving
  | writing (batch : DbBatch π δ)
  | finishing
  | ended
  | failed (message : String)
  | panicked

structure State (φ π δ : Type*) where
  batches : List (List φ)
  parseThread : ParseThread φ π
  embedThread : EmbedThread π δ
  storeThread : StoreThread π δ
  parseQueue : List π
  storeQueue : List (DbBatch π δ)
  error : Option String
  parsedFilesCount : ℕ
  embeddedChunks : ℕ
  chunksWritten : ℕ
  embeddingsWritten : ℕ
  parsed : List (List φ × π)
  written : List (Written π δ)
  failed : Bool

/-- What a run reports. -/
structure StoreOutcome where
  parsedFiles : ℕ
  embeddedChunks : ℕ
  chunksWritten : ℕ
  embeddingsWritten : ℕ

inductive Action (π δ : Type*)
  | parseNext
  | parseReturns (result : Except String π)
  | parseSend
  | parsePanics
  | buildPool (result : Except String Unit)
  | embedReceive
  | embedCheck
  | embedReturns (result : Except String (δ × ℕ))
  | embedSend
  | embedPanics
  | openStore (result : Except String Unit)
  | storeReceive
  | writeReturns (result : Except String (ℕ × ℕ))
  | storeFinishes (result : Except String Unit)
  | storePanics

/-- The capacities of the channels. -/
def parseCapacity : ℕ := 2

def storeCapacity : ℕ := 8

section Threads

variable {φ π δ : Type*}

def ParseThread.done : ParseThread φ π → Bool
  | .ended | .panicked => true
  | _ => false

def EmbedThread.done : EmbedThread π δ → Bool
  | .ended | .failed _ | .panicked => true
  | _ => false

def StoreThread.done : StoreThread π δ → Bool
  | .ended | .failed _ | .panicked => true
  | _ => false

def init (batches : List (List φ)) : State φ π δ where
  batches := batches
  parseThread := .head
  embedThread := .building
  storeThread := .opening
  parseQueue := []
  storeQueue := []
  error := none
  parsedFilesCount := 0
  embeddedChunks := 0
  chunksWritten := 0
  embeddingsWritten := 0
  parsed := []
  written := []
  failed := false

namespace State

/-- The first error is kept. -/
def setError (s : State φ π δ) (message : String) : State φ π δ :=
  { s with error := s.error.or (some message), failed := true }

/-- The head of the parse loop. -/
def parseNext (s : State φ π δ) : State φ π δ :=
  match s.batches with
  | [] => { s with parseThread := .ended }
  | batch :: batches =>
    if s.error.isSome then { s with batches := batches, parseThread := .ended }
    else { s with batches := batches, parseThread := .parsing batch }

/-- `parse_one_batch` returns. -/
def parseReturns (s : State φ π δ) (batch : List φ) : Except String π → State φ π δ
  | .ok parsed =>
    { s with
      parseThread := .sending parsed
      parsedFilesCount := s.parsedFilesCount + batch.length
      parsed := s.parsed ++ [(batch, parsed)] }
  | .error e => { s.setError e with parseThread := .ended }

/-- `parse_tx.send`, `none` while the channel is full. -/
def parseSend (s : State φ π δ) (parsed : π) : Option (State φ π δ) :=
  if s.embedThread.done then some { s with parseThread := .ended }
  else if s.parseQueue.length < parseCapacity then
    some { s with parseThread := .head, parseQueue := s.parseQueue ++ [parsed] }
  else none

/-- `parse_rx.recv`, `none` while the channel is empty. -/
def embedReceive (s : State φ π δ) : Option (State φ π δ) :=
  match s.parseQueue with
  | parsed :: rest => some { s with embedThread := .received parsed, parseQueue := rest }
  | [] => if s.parseThread.done then some { s with embedThread := .ended } else none

/-- The embed thread stops when there is an error. -/
def embedCheck (s : State φ π δ) (parsed : π) : State φ π δ :=
  if s.error.isSome then { s with embedThread := .ended }
  else { s with embedThread := .embedding parsed }

/-- `embed_batch_parallel` and `build_db_batch` return. -/
def embedReturns (s : State φ π δ) (parsed : π) : Except String (δ × ℕ) → State φ π δ
  | .ok (rows, embedded) =>
    { s with
      embedThread := .sending ⟨parsed, rows, embedded⟩
      embeddedChunks := s.embeddedChunks + embedded }
  | .error e => { s.setError e with embedThread := .ended }

/-- `store_tx.send`, `none` while the channel is full. -/
def embedSend (s : State φ π δ) (batch : DbBatch π δ) : Option (State φ π δ) :=
  if s.storeThread.done then some { s with embedThread := .ended }
  else if s.storeQueue.length < storeCapacity then
    some { s with embedThread := .receiving, storeQueue := s.storeQueue ++ [batch] }
  else none

/-- `store_rx.recv`, `none` while the channel is empty. -/
def storeReceive (s : State φ π δ) : Option (State φ π δ) :=
  match s.storeQueue with
  | batch :: rest => some { s with storeThread := .writing batch, storeQueue := rest }
  | [] => if s.embedThread.done then some { s with storeThread := .finishing } else none

/-- `prepare_write` and `write_batches_in_one_txn` return. -/
def writeReturns (s : State φ π δ) (batch : DbBatch π δ) : Except String (ℕ × ℕ) → State φ π δ
  | .ok (chunks, embeddings) =>
    { s with
      storeThread := .receiving
      chunksWritten := s.chunksWritten + chunks
      embeddingsWritten := s.embeddingsWritten + embeddings
      written := s.written ++ [⟨batch, chunks, embeddings⟩] }
  | .error e => { s with storeThread := .failed e, failed := true }

/-- All three threads have been joined. -/
def finished (s : State φ π δ) : Bool :=
  s.parseThread.done && s.embedThread.done && s.storeThread.done

/-- What the caller returns after the joins. -/
def result (s : State φ π δ) : Option (Except String StoreOutcome) :=
  if s.finished then
    some <| match s.parseThread, s.error, s.embedThread, s.storeThread with
      | .panicked, _, _, _ => .error "pipeline parse thread panicked"
      | _, some e, _, _ => .error e
      | _, _, .failed e, _ => .error e
      | _, _, .panicked, _ => .error "pipeline embed thread panicked"
      | _, _, _, .failed e => .error e
      | _, _, _, .panicked => .error "pipeline store thread panicked"
      | _, _, _, _ =>
        .ok ⟨s.parsedFilesCount, s.embeddedChunks, s.chunksWritten, s.embeddingsWritten⟩
  else none

end State

def step (s : State φ π δ) : Action π δ → Option (State φ π δ)
  | .parseNext =>
    match s.parseThread with
    | .head => some s.parseNext
    | _ => none
  | .parseReturns result =>
    match s.parseThread with
    | .parsing batch => some (s.parseReturns batch result)
    | _ => none
  | .parseSend =>
    match s.parseThread with
    | .sending parsed => s.parseSend parsed
    | _ => none
  | .parsePanics =>
    if s.parseThread.done then none else some { s with parseThread := .panicked, failed := true }
  | .buildPool result =>
    match s.embedThread, result with
    | .building, .ok _ => some { s with embedThread := .receiving }
    | .building, .error e => some { s with embedThread := .failed e, failed := true }
    | _, _ => none
  | .embedReceive =>
    match s.embedThread with
    | .receiving => s.embedReceive
    | _ => none
  | .embedCheck =>
    match s.embedThread with
    | .received parsed => some (s.embedCheck parsed)
    | _ => none
  | .embedReturns result =>
    match s.embedThread with
    | .embedding parsed => some (s.embedReturns parsed result)
    | _ => none
  | .embedSend =>
    match s.embedThread with
    | .sending batch => s.embedSend batch
    | _ => none
  | .embedPanics =>
    if s.embedThread.done then none else some { s with embedThread := .panicked, failed := true }
  | .openStore result =>
    match s.storeThread, result with
    | .opening, .ok _ => some { s with storeThread := .receiving }
    | .opening, .error e => some { s with storeThread := .failed e, failed := true }
    | _, _ => none
  | .storeReceive =>
    match s.storeThread with
    | .receiving => s.storeReceive
    | _ => none
  | .writeReturns result =>
    match s.storeThread with
    | .writing batch => some (s.writeReturns batch result)
    | _ => none
  | .storeFinishes result =>
    match s.storeThread, result with
    | .finishing, .ok _ => some { s with storeThread := .ended }
    | .finishing, .error e => some { s with storeThread := .failed e, failed := true }
    | _, _ => none
  | .storePanics =>
    if s.storeThread.done then none else some { s with storeThread := .panicked, failed := true }

end Threads

end ChunkHound.Stages
