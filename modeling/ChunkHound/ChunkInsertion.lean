import ChunkHound.ChunkDiff
import ChunkHound.StepSystem

/-!
# Ids of inserted chunks

`insert_chunks_batch` of the DuckDB provider stages its chunks in `temp_chunks`, and copies them by
one `INSERT ... SELECT ... RETURNING id`. The rows get their ids from a sequence. While
`preserve_insertion_order` is set, rows are numbered and returned in the order in which they were
staged. Else DuckDB may number them in one order, and return them in another (`Choice`).

A guarded mutation of more than one row, a bulk operation, and a bulk upsert of the embedding
repository turn the setting off and leave it so until the database is opened again. From then on
the ids that `insert_chunks_batch` returns may belong to other chunks, unless all chunks are alike
(`ids_aligned_iff`).
-/

namespace ChunkHound.ChunkInsertion

open StepSystem

/-! ## Rows -/

/-- A row of `temp_chunks`. -/
structure ChunkData where
  fileId : ℕ
  chunkType : ChunkType
  symbol : String
  code : String
  startLine : ℤ
  endLine : ℤ
  startByte : Option ℤ
  endByte : Option ℤ
  language : String
  metadata : Option Metadata
  deriving DecidableEq

/-- The row that is staged for a chunk. Metadata that is empty is not stored. -/
def chunkData (chunk : Chunk) : ChunkData where
  fileId := chunk.fileId
  chunkType := chunk.chunkType
  symbol := chunk.symbol.getD ""
  code := chunk.code
  startLine := chunk.startLine
  endLine := chunk.endLine
  startByte := chunk.startByte
  endByte := chunk.endByte
  language := chunk.language
  metadata := chunk.metadata.filter (· ≠ ⟨[], none⟩)

/-- The orders in which DuckDB numbers and returns rows that it need not keep in order. -/
structure Choice where
  numbering : List ChunkData → List ChunkData
  numbering_perm : ∀ l, (numbering l).Perm l
  returning : List ℕ → List ℕ
  returning_perm : ∀ l, (returning l).Perm l

/-! ## The provider -/

/-- `preserve` is the setting `preserve_insertion_order`, `next` the next value of the sequence of
ids. An open transaction has the rows from before it. -/
structure State where
  rows : List (ℕ × ChunkData)
  next : ℕ
  preserve : Bool
  transaction : Option (List (ℕ × ChunkData))

def start : State := ⟨[], 1, true, none⟩

/-- How a mutation ends : it is refused or fails before it changes the setting, it fails after that,
with some rows lost, or it is done. -/
inductive Outcome
  | refused
  | failed (lost : List ℕ)
  | done
  deriving DecidableEq

namespace State

def delete (s : State) (ids : List ℕ) : State :=
  { s with rows := s.rows.filter fun row => row.1 ∉ ids }

/-- `_executor_insert_chunks_batch`. -/
def insertChunksBatch (s : State) (choice : Choice) (chunks : List Chunk) : List ℕ × State :=
  if chunks = [] then ([], s)
  else
    let tempChunks := chunks.map chunkData
    let ids := List.range' s.next tempChunks.length
    let numbered := if s.preserve then tempChunks else choice.numbering tempChunks
    (if s.preserve then ids else choice.returning ids,
      { s with rows := s.rows ++ ids.zip numbered, next := s.next + tempChunks.length })

/-- `_executor_run_hnsw_guarded_mutation` around the deletion of chunk rows. -/
def runHnswGuardedMutation (s : State) (ids : List ℕ) (optimizeForBulk : Bool)
    (outcome : Outcome) : State :=
  let set := if optimizeForBulk then { s with preserve := false } else s
  match outcome with
  | .refused => s
  | .failed lost => set.delete lost
  | .done => set.delete ids

/-- `_executor_delete_chunk_ids_with_hnsw_safety`. In an open transaction it deletes the rows
without the guard. -/
def deleteChunkIds (s : State) (ids : List ℕ) (outcome : Outcome) : State :=
  if ids.dedup = [] then s
  else
    match s.transaction with
    | some _ => if outcome = .done then s.delete ids else s
    | none => s.runHnswGuardedMutation ids (1 < ids.dedup.length) outcome

/-- The ids of the chunks of some files. -/
def chunkIdsOf (s : State) (fileIds : List ℕ) : List ℕ :=
  (s.rows.filter fun row => row.2.fileId ∈ fileIds).map Prod.fst

/-- `_executor_delete_files_batch`, for the ids of the files that are there. It raises in an open
transaction. -/
def deleteFilesBatch (s : State) (fileIds : List ℕ) (outcome : Outcome) : State :=
  if s.transaction.isSome ∨ fileIds = [] then s
  else s.runHnswGuardedMutation (s.chunkIdsOf fileIds) (1 < fileIds.length) outcome

/-- `bulk_operation_with_index_management`, for an operation that deletes some chunk rows. -/
def bulkOperation (s : State) (ids : List ℕ) (outcome : Outcome) : State :=
  if s.transaction.isSome then s else s.runHnswGuardedMutation ids true outcome

/-- `insert_embeddings_batch` of the embedding repository, where it drops indexes or not. -/
def repositoryUpsert (s : State) (droppedIndexes : Bool) : State :=
  if droppedIndexes then { s with preserve := false } else s

def begin (s : State) : State :=
  match s.transaction with
  | some _ => s
  | none => { s with transaction := some s.rows }

def commit (s : State) : State := { s with transaction := none }

/-- The rows come back, the sequence and the setting do not. -/
def rollback (s : State) : State :=
  match s.transaction with
  | some rows => { s with rows := rows, transaction := none }
  | none => s

/-- All connections are closed, and the database is opened again. -/
def reopen (s : State) : State := { s.rollback with preserve := true }

end State

inductive Act
  | insertChunks (choice : Choice) (chunks : List Chunk)
  | deleteChunkIds (ids : List ℕ) (outcome : Outcome)
  | deleteFiles (fileIds : List ℕ) (outcome : Outcome)
  | bulkOperation (ids : List ℕ) (outcome : Outcome)
  | repositoryUpsert (droppedIndexes : Bool)
  | begin
  | commit
  | rollback
  | reopen

def step (s : State) : Act → Option State
  | .insertChunks choice chunks => some (s.insertChunksBatch choice chunks).2
  | .deleteChunkIds ids outcome => some (s.deleteChunkIds ids outcome)
  | .deleteFiles fileIds outcome => some (s.deleteFilesBatch fileIds outcome)
  | .bulkOperation ids outcome => some (s.bulkOperation ids outcome)
  | .repositoryUpsert dropped => some (s.repositoryUpsert dropped)
  | .begin => some s.begin
  | .commit => some s.commit
  | .rollback => some s.rollback
  | .reopen => some s.reopen

/-- The `i`-th id that is returned is the id of the one row that holds the `i`-th chunk. -/
def Aligned (s : State) (choice : Choice) (chunks : List Chunk) : Prop :=
  ∀ (i : ℕ) (c : Chunk), chunks[i]? = some c →
    ∃ id, (s.insertChunksBatch choice chunks).1[i]? = some id ∧
      ∀ d, (id, d) ∈ (s.insertChunksBatch choice chunks).2.rows ↔ d = chunkData c

/-! ## Ids are fresh -/

namespace State

/-- Every id has been drawn from the sequence. -/
structure Inv (s : State) : Prop where
  rows : ∀ row ∈ s.rows, row.1 < s.next
  saved : ∀ rows ∈ s.transaction, ∀ row ∈ rows, row.1 < s.next

variable {s s' : State}

theorem inv_start : start.Inv :=
  ⟨fun _ h => absurd h List.not_mem_nil, fun _ h => absurd h (Option.not_mem_none _)⟩

theorem Inv.delete (h : s.Inv) (ids : List ℕ) : (s.delete ids).Inv :=
  ⟨fun row hrow => h.rows row (List.mem_of_mem_filter hrow), h.saved⟩

theorem Inv.runHnswGuardedMutation (h : s.Inv) (ids : List ℕ) (bulk : Bool) (outcome : Outcome) :
    (s.runHnswGuardedMutation ids bulk outcome).Inv := by
  have hset : (if bulk then { s with preserve := false } else s).Inv := by
    split
    · exact { h with }
    · exact h
  unfold State.runHnswGuardedMutation
  cases outcome with
  | refused => exact h
  | failed lost => exact hset.delete lost
  | done => exact hset.delete ids

theorem Inv.rollback (h : s.Inv) : s.rollback.Inv := by
  unfold State.rollback
  split
  · rename_i rows hrows
    exact ⟨h.saved rows hrows, nofun⟩
  · exact h

theorem Inv.insertChunksBatch (h : s.Inv) (choice : Choice) (chunks : List Chunk) :
    (s.insertChunksBatch choice chunks).2.Inv := by
  unfold State.insertChunksBatch
  split
  · exact h
  · refine ⟨fun row hrow => ?_, fun rows hrows row hrow => ?_⟩
    · rcases List.mem_append.1 hrow with hrow | hrow
      · exact Nat.lt_add_right _ (h.rows row hrow)
      · exact (List.mem_range'_1.1 (List.of_mem_zip hrow).1).2
    · exact Nat.lt_add_right _ (h.saved rows hrows row hrow)

theorem Inv.step {a : Act} (h : s.Inv) (hs : step s a = some s') : s'.Inv := by
  cases a with
  | insertChunks choice chunks =>
    obtain rfl := Option.some.inj hs
    exact h.insertChunksBatch choice chunks
  | deleteChunkIds ids outcome =>
    obtain rfl := Option.some.inj hs
    unfold State.deleteChunkIds
    split
    · exact h
    split
    · split
      · exact h.delete ids
      · exact h
    · exact h.runHnswGuardedMutation ids _ outcome
  | deleteFiles fileIds outcome =>
    obtain rfl := Option.some.inj hs
    unfold State.deleteFilesBatch
    split
    · exact h
    · exact h.runHnswGuardedMutation _ _ outcome
  | bulkOperation ids outcome =>
    obtain rfl := Option.some.inj hs
    unfold State.bulkOperation
    split
    · exact h
    · exact h.runHnswGuardedMutation ids true outcome
  | repositoryUpsert dropped =>
    obtain rfl := Option.some.inj hs
    unfold State.repositoryUpsert
    split
    · exact { h with }
    · exact h
  | begin =>
    obtain rfl := Option.some.inj hs
    unfold State.begin
    split
    · exact h
    · exact ⟨h.rows, fun rows hrows => Option.some.inj hrows ▸ h.rows⟩
  | commit =>
    obtain rfl := Option.some.inj hs
    exact ⟨h.rows, nofun⟩
  | rollback =>
    obtain rfl := Option.some.inj hs
    exact h.rollback
  | reopen =>
    obtain rfl := Option.some.inj hs
    exact { h.rollback with }

theorem inv_of_reach (h : Reach ChunkInsertion.step start s) : s.Inv :=
  h.invariant inv_start fun _ _ _ hi _ hs => hi.step hs

end State

/-! ## Alignment -/

section Alignment

variable {s : State} {choice : Choice} {chunks : List Chunk}

/-- The rows of the chunks in the order in which they are numbered. -/
def numberedRows (s : State) (choice : Choice) (chunks : List Chunk) : List ChunkData :=
  if s.preserve then chunks.map chunkData else choice.numbering (chunks.map chunkData)

/-- The ids in the order in which they are returned. -/
def returnedIds (s : State) (choice : Choice) (chunks : List Chunk) : List ℕ :=
  if s.preserve then List.range' s.next chunks.length
  else choice.returning (List.range' s.next chunks.length)

theorem insertChunksBatch_of_ne_nil (h : chunks ≠ []) :
    s.insertChunksBatch choice chunks = (returnedIds s choice chunks,
      { s with
        rows := s.rows ++ (List.range' s.next chunks.length).zip (numberedRows s choice chunks)
        next := s.next + chunks.length }) := by
  simp [State.insertChunksBatch, h, returnedIds, numberedRows]

theorem numberedRows_perm (s : State) (choice : Choice) (chunks : List Chunk) :
    (numberedRows s choice chunks).Perm (chunks.map chunkData) := by
  unfold numberedRows
  split
  · exact .refl _
  · exact choice.numbering_perm _

theorem returnedIds_perm (s : State) (choice : Choice) (chunks : List Chunk) :
    (returnedIds s choice chunks).Perm (List.range' s.next chunks.length) := by
  unfold returnedIds
  split
  · exact .refl _
  · exact choice.returning_perm _

/-- A new id has the row that was numbered with it, and no older row. -/
theorem mem_rows_iff (hinv : s.Inv) (h : chunks ≠ []) {j : ℕ} (hj : j < chunks.length)
    (d : ChunkData) : (s.next + j, d) ∈ (s.insertChunksBatch choice chunks).2.rows ↔
      (numberedRows s choice chunks)[j]? = some d := by
  rw [insertChunksBatch_of_ne_nil h, List.mem_append]
  have hold : (s.next + j, d) ∉ s.rows := fun hin => absurd (hinv.rows _ hin) (by simp)
  simp only [hold, false_or]
  constructor
  · intro hin
    obtain ⟨i, hi, heq⟩ := List.mem_iff_getElem.1 hin
    rw [List.getElem_zip, List.getElem_range', Prod.mk.injEq] at heq
    rw [List.length_zip, List.length_range'] at hi
    obtain rfl : i = j := by omega
    rw [List.getElem?_eq_getElem (by omega), heq.2]
  · intro hget
    obtain ⟨hlen, rfl⟩ := List.getElem?_eq_some_iff.1 hget
    have hzip : j < ((List.range' s.next chunks.length).zip
        (numberedRows s choice chunks)).length := by
      rw [List.length_zip, List.length_range']
      omega
    refine List.mem_iff_getElem.2 ⟨j, hzip, ?_⟩
    rw [List.getElem_zip, List.getElem_range', Nat.one_mul]

/-- While the setting is on, the ids come in the order of the chunks. -/
theorem aligned_of_preserve (hinv : s.Inv) (hp : s.preserve = true) (choice : Choice)
    (chunks : List Chunk) : Aligned s choice chunks := by
  intro i c hc
  obtain ⟨hi, rfl⟩ := List.getElem?_eq_some_iff.1 hc
  have hne : chunks ≠ [] := List.ne_nil_of_length_pos (by omega)
  refine ⟨s.next + i, ?_, fun d => ?_⟩
  · rw [insertChunksBatch_of_ne_nil hne, returnedIds, if_pos hp]
    simp [hi]
  · rw [mem_rows_iff hinv hne hi, numberedRows, if_pos hp, List.getElem?_map,
      List.getElem?_eq_getElem hi, Option.map_some, Option.some_inj]
    exact eq_comm

/-- Of chunks that are all alike, any id will do. -/
theorem aligned_of_alike (hinv : s.Inv) (choice : Choice)
    (h : ∀ c ∈ chunks, ∀ c' ∈ chunks, chunkData c = chunkData c') : Aligned s choice chunks := by
  intro i c hc
  obtain ⟨hi, rfl⟩ := List.getElem?_eq_some_iff.1 hc
  have hne : chunks ≠ [] := List.ne_nil_of_length_pos (by omega)
  have hlen := (returnedIds_perm s choice chunks).length_eq
  rw [List.length_range'] at hlen
  have hget : (returnedIds s choice chunks)[i]? = some (returnedIds s choice chunks)[i] :=
    List.getElem?_eq_getElem _
  obtain ⟨j, hj, hid⟩ := List.mem_range'.1
    ((returnedIds_perm s choice chunks).subset (List.mem_of_getElem? hget))
  rw [Nat.one_mul] at hid
  refine ⟨_, by rw [insertChunksBatch_of_ne_nil hne]; exact hget, fun d => ?_⟩
  rw [hid, mem_rows_iff hinv hne hj]
  have hrows := (numberedRows_perm s choice chunks).length_eq
  rw [List.length_map] at hrows
  have hrow : (numberedRows s choice chunks)[j]? = some (numberedRows s choice chunks)[j] :=
    List.getElem?_eq_getElem _
  obtain ⟨c', hc', heq⟩ := List.mem_map.1
    ((numberedRows_perm s choice chunks).subset (List.mem_of_getElem? hrow))
  rw [hrow, ← heq, h c' hc' _ (List.getElem_mem hi), Option.some_inj]
  exact eq_comm

/-- DuckDB may number a later chunk first. -/
theorem exists_not_aligned (hinv : s.Inv) (hp : s.preserve = false) {c c' : Chunk}
    (hhead : chunks[0]? = some c) (hc' : c' ∈ chunks) (hne : chunkData c' ≠ chunkData c) :
    ∃ choice, ¬ Aligned s choice chunks := by
  have hnil : chunks ≠ [] := List.ne_nil_of_mem hc'
  have hmem : chunkData c' ∈ chunks.map chunkData := List.mem_map_of_mem hc'
  let choice : Choice :=
    { numbering := fun l => if chunkData c' ∈ l then chunkData c' :: l.erase (chunkData c') else l
      numbering_perm := fun l => by
        split
        · rename_i hin
          exact (List.perm_cons_erase hin).symm
        · exact .refl _
      returning := fun ids => ids
      returning_perm := fun ids => .refl _ }
  have hpos : 0 < chunks.length := List.length_pos_of_mem hc'
  refine ⟨choice, fun h => ?_⟩
  obtain ⟨id, hid, hrow⟩ := h 0 c hhead
  have hzero : (returnedIds s choice chunks)[0]? = some (s.next + 0) := by
    rw [returnedIds, if_neg (by simp [hp])]
    simp [choice, hpos]
  rw [insertChunksBatch_of_ne_nil hnil, hzero] at hid
  obtain rfl := Option.some.inj hid
  refine hne ((hrow _).1 ((mem_rows_iff hinv hnil hpos _).2 ?_))
  rw [numberedRows, if_neg (by simp [hp])]
  simp only [choice, if_pos hmem]
  rfl

end Alignment

/-! ## Results -/

/-- The ids are aligned, whatever DuckDB chooses, exactly while the setting is on or when the chunks
are all alike. -/
theorem ids_aligned_iff {s : State} (h : Reach step start s) (chunks : List Chunk) :
    (∀ choice, Aligned s choice chunks) ↔
      s.preserve = true ∨ ∀ c ∈ chunks, ∀ c' ∈ chunks, chunkData c = chunkData c' := by
  have hinv := State.inv_of_reach h
  constructor
  · intro hall
    by_contra hcond
    rw [not_or, Bool.not_eq_true] at hcond
    obtain ⟨hp, hdiffer⟩ := hcond
    refine hdiffer fun a ha b hb => ?_
    cases hchunks : chunks with
    | nil =>
      rw [hchunks] at ha
      cases ha
    | cons c rest =>
      have hhead : chunks[0]? = some c := by rw [hchunks]; rfl
      have heq : ∀ x ∈ chunks, chunkData x = chunkData c := by
        intro x hx
        by_contra hne
        obtain ⟨choice, hnot⟩ := exists_not_aligned hinv hp hhead hx hne
        exact hnot (hall choice)
      exact (heq a ha).trans (heq b hb).symm
  · rintro (hp | halike) choice
    · exact aligned_of_preserve hinv hp choice chunks
    · exact aligned_of_alike hinv choice halike

/-- A chunk of a file. -/
def oneLine (fileId : ℕ) (code : String) (hcode : code ≠ "") : Chunk where
  id := none
  fileId := fileId
  filePath := none
  symbol := none
  startLine := 1
  endLine := 1
  code := code
  chunkType := .unknown
  language := "python"
  startByte := none
  endByte := none
  metadata := none
  symbol_ok := rfl
  lines_ok := by decide
  code_ok := hcode

def chunkX : Chunk := oneLine 1 "x = 1" (by decide)

def chunkY : Chunk := oneLine 1 "y = 1" (by decide)

/-- Rows are numbered in the opposite order. -/
def reversed : Choice where
  numbering := List.reverse
  numbering_perm := List.reverse_perm
  returning := fun ids => ids
  returning_perm := .refl

/-- Two chunks are inserted and deleted, which turns the setting off. -/
def afterDelete : List Act :=
  [.insertChunks reversed [chunkX, chunkY], .deleteChunkIds [1, 2] .done]

theorem ids_aligned_iff_afterDelete : ∃ s, execute step start afterDelete = some s ∧
    ((∀ choice, Aligned s choice [chunkX, chunkX]) ↔ s.preserve = true ∨
      ∀ c ∈ [chunkX, chunkX], ∀ c' ∈ [chunkX, chunkX], chunkData c = chunkData c') :=
  ⟨_, rfl, ids_aligned_iff (.of_execute afterDelete rfl) [chunkX, chunkX]⟩

/-- After that, the same two chunks get each the id of the other. -/
theorem not_aligned_afterDelete : ∃ s, Reach step start s ∧
    ¬ Aligned s reversed [chunkX, chunkY] := by
  refine ⟨_, .of_execute afterDelete rfl, fun h => ?_⟩
  obtain ⟨id, hid, hrow⟩ := h 0 chunkX rfl
  obtain rfl := Option.some.inj (show some 3 = some id from hid)
  exact absurd ((hrow (chunkData chunkY)).1 (by decide)) (by decide)

end ChunkHound.ChunkInsertion
