import ChunkHound.Raising
import ChunkHound.Transactions

/-!
# The HNSW guard

`_executor_run_hnsw_guarded_mutation` drops the HNSW indexes it discovers, runs a mutation, and
creates the indexes again. With a transaction the drop and the mutation are inside it, and the
creation comes after `COMMIT`. `delete_files_batch` has no transaction, and undoes a failure from a
snapshot of the rows.

The outcome of each statement is given (`Call`). A call is `Atomic` when it leaves the rows as they
were if it raises, and the HNSW indexes in any case. `atomic_of_sound` : it is when nothing raises
after `COMMIT`, when the undoing of a failure does not fail, and when each index that is discovered
is one that can be created again.
-/

namespace ChunkHound.GuardAtomicity

open Raising
open Transactions (Reply)

/-! ## Rows and indexes -/

/-- A row of `chunks` or of an embedding table : the row it refers to, and its other columns. -/
structure Row where
  parent : ℕ
  data : String
  deriving DecidableEq

/-- The tables by row id, the embedding tables by their dimension. -/
structure Tables where
  files : ℕ → Option String
  chunks : ℕ → Option Row
  embeddings : ℕ → ℕ → Option Row

/-- An index : the dimension of its embedding table (`none` for another table), its metric, and
whether it was created `USING HNSW`. -/
structure Index where
  dims : Option ℕ
  metric : String
  usingHnsw : Bool
  deriving DecidableEq

/-- The indexes by name. -/
abbrev Catalog := String → Option Index

/-- The HNSW index of a name. -/
def hnsw (catalog : Catalog) (name : String) : Option Index := (catalog name).filter Index.usingHnsw

/-- `transaction` is what an open transaction goes back to. -/
structure State where
  tables : Tables
  catalog : Catalog
  transaction : Option (Tables × Catalog)
  transactionActive : Bool

/-- What a statement raises. -/
inductive Err
  | conflict
  | transactionException
  | other
  deriving DecidableEq

/-- Programs on the connection. -/
abbrev GuardM := EStateM Err State

/-- A statement : it raises, or has its effect. -/
def execute (runs : Bool) (effect : State → State) : GuardM Unit :=
  if runs then modify effect else throw .other

/-! ## Discovery and creation of indexes -/

/-- An index that was found. -/
structure IndexInfo where
  indexName : String
  dims : ℕ
  metric : String
  deriving DecidableEq

/-- `re.fullmatch(r"[A-Za-z_][A-Za-z0-9_]*", identifier)`. -/
def isSafeDuckdbIdentifier (identifier : String) : Bool :=
  match identifier.toList with
  | [] => false
  | c :: cs => isWord c && !c.isDigit && cs.all isWord
where
  isWord (c : Char) : Bool := c.isAlphanum || c = '_'

/-- An index created `USING HNSW`, or one with the name of one. -/
def isHnswIndex (indexName : String) (index : Index) : Bool :=
  index.usingHnsw || "hnsw_".toList.isPrefixOf indexName.toList ||
    "idx_hnsw_".toList.isPrefixOf indexName.toList

/-- The metric is `cosine` when it cannot be read. -/
def indexInfo (metricReads : String → Bool) (name : String) (index : Index) : Option IndexInfo :=
  match index.dims with
  | none => none
  | some dims =>
    if isHnswIndex name index then
      some ⟨name, dims, if index.usingHnsw && metricReads name then index.metric else "cosine"⟩
    else none

/-- `names` are the names in the catalog. An error finds no indexes. -/
def getExistingVectorIndexes (discovers : Bool) (metricReads : String → Bool)
    (names : List String) (catalog : Catalog) : List IndexInfo :=
  if discovers then names.filterMap fun name => (catalog name).bind (indexInfo metricReads name)
  else []

/-- `DROP INDEX` -/
def Catalog.drop (catalog : Catalog) (indexName : String) : Catalog := fun name =>
  if name = indexName then none else catalog name

/-- `CREATE INDEX IF NOT EXISTS ... USING HNSW`. -/
def Catalog.create (catalog : Catalog) (info : IndexInfo) : Catalog := fun name =>
  if name = info.indexName then (catalog name).or (some ⟨some info.dims, info.metric, true⟩)
  else catalog name

/-- An index is dropped, or the statement raises. -/
def dropIndex (drops : String → Bool) (info : IndexInfo) : GuardM PUnit :=
  execute (drops info.indexName) fun s => { s with catalog := s.catalog.drop info.indexName }

/-- An index whose name is not an identifier is skipped. -/
def recreateIndex (recreates : String → Bool) (info : IndexInfo) : GuardM PUnit :=
  execute (recreates info.indexName) fun s =>
    if isSafeDuckdbIdentifier info.indexName then { s with catalog := s.catalog.create info } else s

/-! ## Transactions -/

/-- Back to the state before the transaction, if there is one. -/
def State.undo (s : State) : State :=
  match s.transaction with
  | some (tables, catalog) => { s with tables, catalog, transaction := none }
  | none => s

/-- The flag is written. -/
def setTransactionActive (active : Bool) : GuardM Unit :=
  modify fun s => { s with transactionActive := active }

/-- `BEGIN TRANSACTION` -/
def executeBegin (begins : Bool) : GuardM Unit := do
  if (← get).transaction.isSome then throw .transactionException
  execute begins fun s => { s with transaction := some (s.tables, s.catalog) }

/-- `_executor_begin_transaction` -/
def beginTransaction (begins : Bool) : GuardM Unit :=
  Transactions.beginTransaction (executeBegin begins) setTransactionActive

/-- A transaction that is over without a commit is undone. -/
def executeCommit (reply : Reply) : GuardM Unit :=
  match reply with
  | .ok => modify fun s => { s with transaction := none }
  | .raised => throw .other
  | .ended => do
    modify State.undo
    throw .transactionException

/-- `_executor_commit_transaction`, without a checkpoint. -/
def commitTransaction (reply : Reply) : GuardM Unit :=
  Transactions.commitTransaction (executeCommit reply) setTransactionActive false (pure ())

/-- `ROLLBACK` -/
def executeRollback (reply : Reply) : GuardM Unit := do
  if (← get).transaction.isNone then throw .transactionException
  else
    match reply with
    | .ok => modify State.undo
    | .raised => throw .other
    | .ended =>
      modify State.undo
      throw .other

/-- `_executor_rollback_transaction` -/
def rollbackTransaction (reply : Reply) : GuardM Unit :=
  Transactions.rollbackTransaction (· = Err.transactionException) (executeRollback reply)
    setTransactionActive

/-! ## Deleting files -/

/-- The rows that go with some files. -/
structure Snapshot where
  fileIds : List ℕ
  tables : Tables
  dims : List ℕ

namespace Snapshot

variable (snapshot : Snapshot)

/-- A file of the snapshot. -/
def hasFile (id : ℕ) : Bool := snapshot.fileIds.contains id

/-- A chunk of one of its files. -/
def hasChunk (id : ℕ) : Bool := (snapshot.tables.chunks id).any fun c => snapshot.hasFile c.parent

/-- An embedding of one of its chunks. -/
def hasEmbedding (dims id : ℕ) : Bool :=
  snapshot.dims.contains dims &&
    (snapshot.tables.embeddings dims id).any fun e => snapshot.hasChunk e.parent

/-- `DELETE FROM` an embedding table. -/
def deleteEmbeddings (dims : ℕ) (t : Tables) : Tables :=
  { t with embeddings := fun d id =>
      if d = dims ∧ (t.embeddings d id).any (fun e => snapshot.hasChunk e.parent) = true then none
      else t.embeddings d id }

/-- The chunks of the snapshot are deleted. -/
def deleteChunks (t : Tables) : Tables :=
  { t with chunks := fun id => if snapshot.hasChunk id then none else t.chunks id }

/-- Its files are deleted. -/
def deleteFiles (t : Tables) : Tables :=
  { t with files := fun id => if snapshot.hasFile id then none else t.files id }

/-- Its files are inserted as they were. -/
def insertFiles (t : Tables) : Tables :=
  { t with files := fun id => if snapshot.hasFile id then snapshot.tables.files id else t.files id }

/-- Its chunks are inserted as they were. -/
def insertChunks (t : Tables) : Tables :=
  { t with chunks := fun id =>
      if snapshot.hasChunk id then snapshot.tables.chunks id else t.chunks id }

/-- Its embeddings of some dimensions are inserted as they were. -/
def insertEmbeddings (dims : ℕ) (t : Tables) : Tables :=
  { t with embeddings := fun d id =>
      if d = dims ∧ snapshot.hasEmbedding d id = true then snapshot.tables.embeddings d id
      else t.embeddings d id }

/-- The statements that delete the rows, children first. -/
def deletes : List (Tables → Tables) :=
  snapshot.dims.map snapshot.deleteEmbeddings ++ [snapshot.deleteChunks, snapshot.deleteFiles]

/-- The statements that insert them again, parents first. -/
def inserts : List (Tables → Tables) :=
  [snapshot.insertFiles, snapshot.insertChunks] ++ snapshot.dims.map snapshot.insertEmbeddings

end Snapshot

/-! ## The guard -/

/-- Statements with their outcomes. One past the end of the outcomes runs. -/
def withOutcomes (outcomes : List Bool) (statements : List (Tables → Tables)) :
    List (Bool × (Tables → Tables)) :=
  statements.zipIdx.map fun statement => (outcomes.getD statement.2 true, statement.1)

/-- Statements one after the other, of which any may raise. -/
def runAll (statements : List (Bool × (Tables → Tables))) : GuardM PUnit :=
  statements.forM fun statement =>
    execute statement.1 fun s => { s with tables := statement.2 s.tables }

/-- How a failure of a call without a transaction is undone. -/
structure Undo where
  discovers : Bool
  metricReads : String → Bool
  drops : String → Bool
  statements : List Bool
  recreates : String → Bool
  checkpoints : Bool

/-- What a call mutates : any statements in a transaction, or the rows of some files without one. -/
inductive Mutation
  | transactional (begins : Bool) (statements : List (Bool × (Tables → Tables))) (commit : Reply)
      (rollback : Reply) (retries : String → Bool)
  | deleteFiles (fileIds dims : List ℕ) (deletes : List Bool) (undo : Undo)

/-- A guarded mutation, and the outcome of each of its statements. -/
structure Call where
  names : List String
  discovers : Bool
  metricReads : String → Bool
  optimizeForBulk : Bool
  sets : Bool
  drops : String → Bool
  mutation : Mutation
  recreates : String → Bool
  checkpoints : Bool

namespace Call

/-- The setting for a bulk mutation, and the drop of the indexes. -/
def prepare (c : Call) (indexes : List IndexInfo) : GuardM Unit := do
  if c.optimizeForBulk then execute c.sets id
  indexes.forM (dropIndex c.drops)

/-- The indexes are created again, and the file is checkpointed. -/
def finish (c : Call) (indexes : List IndexInfo) : GuardM Unit := do
  indexes.forM (recreateIndex c.recreates)
  execute c.checkpoints id

/-- The body of the `try`. -/
def run (c : Call) (tables : Tables) (indexes : List IndexInfo) : GuardM Unit :=
  match c.mutation with
  | .transactional begins statements commit .. => do
    beginTransaction begins
    c.prepare indexes
    runAll statements
    commitTransaction commit
    c.finish indexes
  | .deleteFiles fileIds dims outcomes _ => do
    c.prepare indexes
    runAll (withOutcomes outcomes (Snapshot.mk fileIds tables dims).deletes)
    c.finish indexes

/-- `_executor_restore_file_delete_targets`. -/
def restore (c : Call) (snapshot : Snapshot) (undo : Undo) (indexes : List IndexInfo) :
    GuardM Unit := do
  let current := getExistingVectorIndexes undo.discovers undo.metricReads c.names (← get).catalog
  current.forM (dropIndex undo.drops)
  runAll (withOutcomes undo.statements (snapshot.deletes ++ snapshot.inserts))
  indexes.forM (recreateIndex undo.recreates)
  execute undo.checkpoints id

/-- Each index is created again on its own, and failures are logged. -/
def bestEffort (retries : String → Bool) (indexes : List IndexInfo) : GuardM PUnit :=
  indexes.forM fun info => tryCatch (recreateIndex retries info) fun _ => pure ()

/-- What follows a failure, before it is raised again. -/
def recover (c : Call) (tables : Tables) (indexes : List IndexInfo) : GuardM Unit := do
  match c.mutation with
  | .transactional _ _ _ rollback retries =>
    if (← get).transactionActive then rollbackTransaction rollback
    else bestEffort retries indexes
  | .deleteFiles fileIds dims _ undo => c.restore ⟨fileIds, tables, dims⟩ undo indexes

/-- A call inside an open transaction is refused. -/
def exec (c : Call) : GuardM Unit := do
  let s ← get
  if s.transactionActive then throw .conflict
  let indexes := getExistingVectorIndexes c.discovers c.metricReads c.names s.catalog
  tryCatch (c.run s.tables indexes) fun err => do
    c.recover s.tables indexes
    throw err

end Call

/-- A call that raises leaves the rows as they were, and every call leaves the HNSW indexes. -/
def Atomic (c : Call) (s : State) : Prop :=
  (raised (c.exec s) = true → (state (c.exec s)).tables = s.tables) ∧
    ∀ name, hnsw (state (c.exec s)).catalog name = hnsw s.catalog name

/-! ## Calls that are atomic -/

/-- Every statement of the restore runs, for the indexes that were found. -/
def Undo.Runs (undo : Undo) (found : List IndexInfo) : Prop :=
  (∀ info ∈ found, undo.drops info.indexName = true) ∧ (∀ b ∈ undo.statements, b = true) ∧
    (∀ info ∈ found, undo.recreates info.indexName = true) ∧ undo.checkpoints = true

namespace Call

/-- The indexes that the call finds. -/
def indexes (c : Call) (s : State) : List IndexInfo :=
  getExistingVectorIndexes c.discovers c.metricReads c.names s.catalog

/-- Each index that is found can be created as it was : it is an HNSW index, its name is an
identifier, and its metric is read or is the default. -/
def Restorable (c : Call) (s : State) : Prop :=
  ∀ info ∈ c.indexes s, isSafeDuckdbIdentifier info.indexName = true ∧
    s.catalog info.indexName = some ⟨some info.dims, info.metric, true⟩

/-- The setting, the drops and the statements run. -/
def Mutates (c : Call) (s : State) (outcomes : List Bool) : Prop :=
  (c.optimizeForBulk = true → c.sets = true) ∧
    (∀ info ∈ c.indexes s, c.drops info.indexName = true) ∧ ∀ b ∈ outcomes, b = true

/-- What follows the mutation runs. -/
def Finishes (c : Call) (s : State) : Prop :=
  (∀ info ∈ c.indexes s, c.recreates info.indexName = true) ∧ c.checkpoints = true

/-- The restore finds no index that the call did not find. -/
def FindsNoMore (c : Call) (s : State) (undo : Undo) : Prop :=
  ∀ info ∈ getExistingVectorIndexes undo.discovers undo.metricReads c.names s.catalog,
    ∃ found ∈ c.indexes s, found.indexName = info.indexName

/-- With a transaction : nothing raises after `COMMIT`, and the indexes can be created again; or the
transaction, where it is still open, is undone. Without one : the indexes can be created again, and
a failure is undone by statements that run. -/
def Sound (c : Call) (s : State) : Prop :=
  s.transactionActive = false →
    match c.mutation with
    | .transactional begins statements commit rollback _ =>
      begins = true →
        (c.Mutates s (statements.map Prod.fst) ∧ commit = .ok → c.Finishes s ∧ c.Restorable s) ∧
          (¬c.Mutates s (statements.map Prod.fst) ∨ commit = .raised → rollback ≠ .raised)
    | .deleteFiles _ _ outcomes undo =>
      c.Restorable s ∧
        (¬(c.Mutates s outcomes ∧ c.Finishes s) → undo.Runs (c.indexes s) ∧ c.FindsNoMore s undo)

end Call

/-! ## Statements and loops -/

/-- A statement returns only where its outcome says so. -/
theorem execute_spec {P Q : State → Prop} (runs : Bool) {effect : State → State}
    (h : ∀ s, P s → Q (effect s)) :
    Triple P (execute runs effect) (fun _ s => runs = true ∧ Q s)
      fun _ s => runs = false ∧ P s := by
  cases runs with
  | true => exact .modify fun s hs => ⟨rfl, h s hs⟩
  | false => exact .throw fun s hs => ⟨rfl, hs⟩

variable {P : State → Prop}

/-- A loop returns only where the outcome of each of its statements says so. -/
theorem forM_spec {γ : Type} {f : γ → GuardM PUnit} {runs : γ → Bool} :
    ∀ {l : List γ}, (∀ a ∈ l, Triple P (f a) (fun _ s => runs a = true ∧ P s)
      fun _ s => runs a = false ∧ P s) →
      Triple P (l.forM f) (fun _ s => (∀ a ∈ l, runs a = true) ∧ P s)
        fun _ s => (∃ a ∈ l, runs a = false) ∧ P s
  | [], _ => fun s hs => ⟨fun a h => absurd h List.not_mem_nil, hs⟩
  | a :: l, h => by
    refine Triple.bind ((h a List.mem_cons_self).conseq (fun _ h => h) (fun _ _ h => h)
      fun _ s hs => ⟨⟨a, List.mem_cons_self, hs.1⟩, hs.2⟩) fun _ => ?_
    intro s ⟨ha, hs⟩
    have hl := forM_spec (fun b hb => h b (List.mem_cons_of_mem a hb)) s hs
    cases hr : l.forM f s with
    | ok u t =>
      rw [hr] at hl
      exact ⟨List.forall_mem_cons.2 ⟨ha, hl.1⟩, hl.2⟩
    | error err t =>
      rw [hr] at hl
      obtain ⟨⟨b, hb, hfalse⟩, ht⟩ := hl
      exact ⟨⟨b, List.mem_cons_of_mem a hb, hfalse⟩, ht⟩

/-! ## Indexes -/

/-- Each name has its index, or has lost one of those that are found. -/
def PartialIndexes (found : List IndexInfo) (catalog current : Catalog) : Prop :=
  ∀ name, current name = catalog name ∨
    (current name = none ∧ ∃ info ∈ found, info.indexName = name)

theorem PartialIndexes.refl (found : List IndexInfo) (catalog : Catalog) :
    PartialIndexes found catalog catalog := fun _ => Or.inl rfl

variable {found : List IndexInfo} {catalog current : Catalog}

theorem PartialIndexes.drop (h : PartialIndexes found catalog current) {indexName : String}
    (hn : ∃ info ∈ found, info.indexName = indexName) :
    PartialIndexes found catalog (current.drop indexName) := by
  intro name
  unfold Catalog.drop
  split
  · next heq => exact Or.inr ⟨rfl, heq ▸ hn⟩
  · exact h name

variable {info : IndexInfo}

/-- The index of an info, created where it is missing, is the one that was there. -/
theorem PartialIndexes.create (h : PartialIndexes found catalog current)
    (hi : catalog info.indexName = some ⟨some info.dims, info.metric, true⟩) :
    PartialIndexes found catalog (current.create info) ∧
      current.create info info.indexName = catalog info.indexName := by
  have hcreated : current.create info info.indexName = catalog info.indexName := by
    unfold Catalog.create
    rw [if_pos rfl]
    rcases h info.indexName with heq | ⟨hnone, -⟩
    · rw [heq, hi]
      rfl
    · rw [hnone, hi]
      rfl
  refine ⟨fun name => ?_, hcreated⟩
  by_cases hn : name = info.indexName
  · exact Or.inl (hn ▸ hcreated)
  · have : current.create info name = current name := if_neg hn
    rw [this]
    exact h name

/-- An index that is there stays. -/
theorem create_of_some {current : Catalog} {name : String} {index : Index}
    (h : current name = some index) : current.create info name = some index := by
  unfold Catalog.create
  split
  · rw [h]
    rfl
  · exact h

/-- A statement about the catalog, with a frame on the rest of the state. -/
theorem dropIndex_spec (F : Tables → Option (Tables × Catalog) → Bool → Prop)
    (found : List IndexInfo) (catalog : Catalog) (drops : String → Bool)
    (hn : ∃ i ∈ found, i.indexName = info.indexName) :
    Triple (fun s => F s.tables s.transaction s.transactionActive ∧
        PartialIndexes found catalog s.catalog) (dropIndex drops info)
      (fun _ s => drops info.indexName = true ∧ F s.tables s.transaction s.transactionActive ∧
        PartialIndexes found catalog s.catalog)
      fun _ s => drops info.indexName = false ∧ F s.tables s.transaction s.transactionActive ∧
        PartialIndexes found catalog s.catalog :=
  execute_spec _ fun _ hs => ⟨hs.1, hs.2.drop hn⟩

/-- What has been created again stays, and a loop creates all of its list. -/
theorem recreateAll_spec (F : Tables → Option (Tables × Catalog) → Bool → Prop)
    (found : List IndexInfo) {catalog : Catalog} (recreates : String → Bool) :
    ∀ {l : List IndexInfo}, (∀ info ∈ l, isSafeDuckdbIdentifier info.indexName = true ∧
        catalog info.indexName = some ⟨some info.dims, info.metric, true⟩) →
      Triple (fun s => F s.tables s.transaction s.transactionActive ∧
          PartialIndexes found catalog s.catalog) (l.forM (recreateIndex recreates))
        (fun _ s => (F s.tables s.transaction s.transactionActive ∧
          PartialIndexes found catalog s.catalog) ∧
          ∀ info ∈ l, s.catalog info.indexName = catalog info.indexName)
        fun _ s => (∃ info ∈ l, recreates info.indexName = false) ∧
          F s.tables s.transaction s.transactionActive ∧
          PartialIndexes found catalog s.catalog
  | [], _ => fun s hs => ⟨hs, fun a h => absurd h List.not_mem_nil⟩
  | info :: l, h => by
    have hinfo := h info List.mem_cons_self
    -- the first index is there while the others are created
    let G := fun s : State => (F s.tables s.transaction s.transactionActive ∧
      PartialIndexes found catalog s.catalog) ∧
        s.catalog info.indexName = catalog info.indexName
    refine Triple.bind (Q := fun _ => G) ?_ fun _ => ?_
    · refine (execute_spec (Q := G) _ fun s hs => ?_).conseq (fun _ h => h) (fun _ _ h => h.2)
        fun _ s hs => ⟨⟨info, List.mem_cons_self, hs.1⟩, hs.2⟩
      rw [if_pos hinfo.1]
      exact ⟨⟨hs.1, (hs.2.create hinfo.2).1⟩, (hs.2.create hinfo.2).2⟩
    · intro s hs
      have hrest := recreateAll_spec F found recreates
        (fun i hi => h i (List.mem_cons_of_mem info hi)) s hs.1
      have hkept : Meets
          (fun (_ : PUnit) (t : State) => t.catalog info.indexName = catalog info.indexName)
          (fun _ _ => True) (l.forM (recreateIndex recreates) s) := by
        refine Triple.forM (P := fun t : State => t.catalog info.indexName = catalog info.indexName)
          (fun i _ => ?_) s hs.2
        refine (execute_spec _ fun t ht => ?_).conseq (fun _ h => h) (fun _ _ h => h.2)
          fun _ _ _ => trivial
        split
        · rw [hinfo.2] at ht ⊢
          exact create_of_some ht
        · exact ht
      cases hr : l.forM (recreateIndex recreates) s with
      | ok u t =>
        rw [hr] at hrest hkept
        exact ⟨hrest.1, List.forall_mem_cons.2 ⟨hkept, hrest.2⟩⟩
      | error err t =>
        rw [hr] at hrest
        obtain ⟨⟨i, hi, hfalse⟩, ht⟩ := hrest
        exact ⟨⟨i, List.mem_cons_of_mem info hi, hfalse⟩, ht⟩

/-- When every index that is found is there again, the catalog is as it was. -/
theorem PartialIndexes.eq (h : PartialIndexes found catalog current)
    (hall : ∀ info ∈ found, current info.indexName = catalog info.indexName) :
    current = catalog := by
  funext name
  rcases h name with heq | ⟨-, info, hinfo, rfl⟩
  · exact heq
  · exact hall info hinfo

variable {metricReads : String → Bool} {names : List String} {discovers : Bool}

/-- What is found in a catalog with missing indexes is found in the whole one. -/
theorem mem_found_of_missing
    (h : PartialIndexes found catalog current)
    (hinfo : info ∈ getExistingVectorIndexes discovers metricReads names current) :
    info ∈ getExistingVectorIndexes discovers metricReads names catalog := by
  cases discovers with
  | false => exact absurd hinfo List.not_mem_nil
  | true =>
    obtain ⟨name, hname, hbind⟩ := List.mem_filterMap.1 hinfo
    refine List.mem_filterMap.2 ⟨name, hname, ?_⟩
    rcases h name with heq | ⟨hnone, -⟩
    · rw [← heq]
      exact hbind
    · rw [hnone] at hbind
      exact nomatch hbind

/-- An index that is found is in the catalog. -/
theorem exists_of_found {catalog : Catalog}
    (h : info ∈ getExistingVectorIndexes discovers metricReads names catalog) :
    ∃ index, catalog info.indexName = some index := by
  cases discovers with
  | false => exact absurd h List.not_mem_nil
  | true =>
    obtain ⟨name, -, hbind⟩ := List.mem_filterMap.1 h
    obtain ⟨index, hindex, hinfo⟩ := Option.bind_eq_some_iff.1 hbind
    refine ⟨index, ?_⟩
    unfold indexInfo at hinfo
    split at hinfo
    · exact nomatch hinfo
    · split at hinfo
      · obtain rfl := Option.some.inj hinfo
        exact hindex
      · exact nomatch hinfo

/-! ## Calls with a transaction -/

/-- Inside the transaction of a call. -/
def InTransaction (s₀ : State) (_ : Tables) (transaction : Option (Tables × Catalog))
    (active : Bool) : Prop :=
  transaction = some (s₀.tables, s₀.catalog) ∧ active = true

/-- The rows and the indexes are as they were. -/
def Unchanged (s₀ s : State) : Prop := s.tables = s₀.tables ∧ s.catalog = s₀.catalog

/-- The transaction is over and undone, and the flag is still set. -/
def Undone (s₀ s : State) : Prop :=
  Unchanged s₀ s ∧ s.transaction = none ∧ s.transactionActive = true

theorem beginTransaction_spec (s₀ : State) (found : List IndexInfo) (begins : Bool) :
    Triple (fun s => s = s₀) (beginTransaction begins)
      (fun _ s => begins = true ∧ InTransaction s₀ s.tables s.transaction s.transactionActive ∧
        PartialIndexes found s₀.catalog s.catalog)
      fun _ s => s = s₀ := by
  rintro s rfl
  obtain ⟨tables, catalog, transaction, active⟩ := s
  cases transaction with
  | some saved => exact rfl
  | none =>
    cases begins with
    | true => exact ⟨rfl, ⟨rfl, rfl⟩, PartialIndexes.refl _ _⟩
    | false => exact rfl

theorem commitTransaction_spec (s₀ : State) (found : List IndexInfo) (reply : Reply) :
    Triple (fun s => InTransaction s₀ s.tables s.transaction s.transactionActive ∧
        PartialIndexes found s₀.catalog s.catalog) (commitTransaction reply)
      (fun _ s => reply = .ok ∧ PartialIndexes found s₀.catalog s.catalog)
      fun _ s => (reply = .raised ∧ InTransaction s₀ s.tables s.transaction s.transactionActive) ∨
        (reply = .ended ∧ Undone s₀ s) := by
  rintro ⟨tables, catalog, transaction, active⟩ ⟨⟨htx, hactive⟩, hpartial⟩
  obtain rfl : transaction = some (s₀.tables, s₀.catalog) := htx
  cases reply with
  | ok => exact ⟨rfl, hpartial⟩
  | raised => exact Or.inl ⟨rfl, rfl, hactive⟩
  | ended => exact Or.inr ⟨rfl, ⟨rfl, rfl⟩, rfl, hactive⟩

theorem rollbackTransaction_spec (s₀ : State) {reply : Reply} :
    Triple (fun s => (reply ≠ .raised ∧
        InTransaction s₀ s.tables s.transaction s.transactionActive) ∨ Undone s₀ s)
      (rollbackTransaction reply) (fun _ => Unchanged s₀) fun _ => Unchanged s₀ := by
  rintro ⟨tables, catalog, transaction, active⟩ (⟨hr, htx, -⟩ | ⟨⟨htables, hcatalog⟩, htx, -⟩)
  · obtain rfl : transaction = some (s₀.tables, s₀.catalog) := htx
    cases reply with
    | ok => exact ⟨rfl, rfl⟩
    | raised => exact absurd rfl hr
    | ended => exact ⟨rfl, rfl⟩
  · obtain rfl : transaction = none := htx
    exact ⟨htables, hcatalog⟩

/-- Creating indexes that are there changes nothing. -/
theorem bestEffort_spec (s₀ : State) (retries : String → Bool)
    (h : ∀ info ∈ found, ∃ index, s₀.catalog info.indexName = some index) {E : Err → State → Prop} :
    Triple (Unchanged s₀) (Call.bestEffort retries found) (fun _ => Unchanged s₀) E := by
  refine Triple.forM fun info hinfo => Triple.tryCatch (E := fun _ => Unchanged s₀) ?_
    fun _ => .pure _ fun _ h => h
  refine (execute_spec (Q := Unchanged s₀) _ fun s hs => ?_).conseq (fun _ h => h)
    (fun _ _ h => h.2) fun _ _ h => h.2
  split
  · refine ⟨hs.1, funext fun name => ?_⟩
    by_cases hn : name = info.indexName
    · obtain ⟨index, hindex⟩ := h info hinfo
      rw [← hs.2, ← hn] at hindex
      rw [← hs.2, hindex]
      exact create_of_some hindex
    · rw [← hs.2]
      exact if_neg hn
  · exact hs

theorem runAll_spec {statements : List (Bool × (Tables → Tables))}
    (h : ∀ st ∈ statements, ∀ s, P s → P { s with tables := st.2 s.tables }) :
    Triple P (runAll statements) (fun _ s => (∀ st ∈ statements, st.1 = true) ∧ P s)
      fun _ s => (∃ st ∈ statements, st.1 = false) ∧ P s :=
  forM_spec fun st hst => execute_spec _ (h st hst)

namespace Call

variable {c : Call} {s₀ : State}

/-- What is missing after the drops is what was found. -/
theorem prepare_spec (F : Tables → Option (Tables × Catalog) → Bool → Prop) :
    Triple (fun s => F s.tables s.transaction s.transactionActive ∧
        PartialIndexes (c.indexes s₀) s₀.catalog s.catalog) (c.prepare (c.indexes s₀))
      (fun _ s => ((c.optimizeForBulk = true → c.sets = true) ∧
          ∀ info ∈ c.indexes s₀, c.drops info.indexName = true) ∧
        F s.tables s.transaction s.transactionActive ∧
        PartialIndexes (c.indexes s₀) s₀.catalog s.catalog)
      fun _ s => ¬((c.optimizeForBulk = true → c.sets = true) ∧
          ∀ info ∈ c.indexes s₀, c.drops info.indexName = true) ∧
        F s.tables s.transaction s.transactionActive ∧
        PartialIndexes (c.indexes s₀) s₀.catalog s.catalog := by
  have hdrops := forM_spec fun info (hinfo : info ∈ c.indexes s₀) =>
    dropIndex_spec F (c.indexes s₀) s₀.catalog c.drops ⟨info, hinfo, rfl⟩
  have hfails : ∀ {φ : Prop}, (∃ info ∈ c.indexes s₀, c.drops info.indexName = false) →
      ¬(φ ∧ ∀ info ∈ c.indexes s₀, c.drops info.indexName = true) := by
    rintro φ ⟨info, hinfo, hfalse⟩ ⟨-, hall⟩
    rw [hall info hinfo] at hfalse
    exact nomatch hfalse
  unfold prepare
  cases hbulk : c.optimizeForBulk with
  | false =>
    exact hdrops.conseq (fun _ h => h) (fun _ _ h => ⟨⟨nofun, h.1⟩, h.2⟩)
      fun _ _ h => ⟨hfails h.1, h.2⟩
  | true =>
    refine Triple.bind ((execute_spec c.sets fun s hs => hs).conseq (fun _ h => h)
      (fun _ _ h => h) fun _ s h => ⟨fun himp => ?_, h.2⟩) fun _ => ?_
    · rw [himp.1 rfl] at h
      exact nomatch h.1
    · rintro s ⟨hsets, hs⟩
      exact hdrops.conseq (fun _ h => h) (fun _ _ h => ⟨⟨fun _ => hsets, h.1⟩, h.2⟩)
        (fun _ _ h => ⟨hfails h.1, h.2⟩) s hs

/-- The indexes are created again, and the file is checkpointed. -/
theorem finish_spec {F : Tables → Option (Tables × Catalog) → Bool → Prop}
    (hr : c.Restorable s₀) :
    Triple (fun s => F s.tables s.transaction s.transactionActive ∧
        PartialIndexes (c.indexes s₀) s₀.catalog s.catalog) (c.finish (c.indexes s₀))
      (fun _ s => s.catalog = s₀.catalog)
      fun _ s => ¬c.Finishes s₀ ∧ F s.tables s.transaction s.transactionActive ∧
        PartialIndexes (c.indexes s₀) s₀.catalog s.catalog := by
  refine Triple.bind ((recreateAll_spec F (c.indexes s₀) c.recreates hr).conseq (fun _ h => h)
    (fun _ s h => h) fun _ s h => ⟨fun hf => ?_, h.2⟩) fun _ => ?_
  · obtain ⟨⟨info, hinfo, hfalse⟩, -⟩ := h
    rw [hf.1 info hinfo] at hfalse
    exact nomatch hfalse
  · refine (execute_spec c.checkpoints fun s hs => hs).conseq (fun _ h => h)
      (fun _ s h => h.2.1.2.eq h.2.2) fun _ s h => ⟨fun hf => ?_, h.2.1⟩
    rw [hf.2] at h
    exact nomatch h.1

variable {statements : List (Bool × (Tables → Tables))}

/-- Before `COMMIT` a failure leaves the transaction open, or undone. -/
theorem mutate_spec {begins : Bool}
    {commit : Reply} {q : GuardM Unit} {Q : Unit → State → Prop} {E : Err → State → Prop}
    (hbegin : ∀ err, E err s₀)
    (hfails : begins = true → ¬c.Mutates s₀ (statements.map Prod.fst) ∨ commit = .raised →
      ∀ err s, InTransaction s₀ s.tables s.transaction s.transactionActive → E err s)
    (hended : ∀ err s, Undone s₀ s → E err s)
    (hq : begins = true → c.Mutates s₀ (statements.map Prod.fst) → commit = .ok →
      Triple (fun s => PartialIndexes (c.indexes s₀) s₀.catalog s.catalog) q Q E) :
    Triple (fun s => s = s₀) (do
      beginTransaction begins
      c.prepare (c.indexes s₀)
      runAll statements
      commitTransaction commit
      q) Q E := by
  refine Triple.bind ((beginTransaction_spec s₀ (c.indexes s₀) begins).conseq (fun _ h => h)
    (fun _ _ h => h) fun err _ h => h ▸ hbegin err) fun _ => ?_
  rintro s ⟨hbegins, hs⟩
  refine Triple.bind ((prepare_spec (InTransaction s₀)).conseq (fun _ h => h) (fun _ _ h => h)
    fun err t h => hfails hbegins (Or.inl fun hm => h.1 ⟨hm.1, hm.2.1⟩) err t h.2.1)
    (fun _ => ?_) s hs
  rintro s ⟨hprepared, hs⟩
  have hrun : ∀ {P : State → Prop}, (∀ st : Bool × (Tables → Tables), ∀ s, P s →
      P { s with tables := st.2 s.tables }) → Triple P (runAll statements) _ _ := fun h =>
    runAll_spec fun st _ => h st
  refine Triple.bind ((hrun (P := fun s => InTransaction s₀ s.tables s.transaction
    s.transactionActive ∧ PartialIndexes (c.indexes s₀) s₀.catalog s.catalog)
      fun _ _ h => h).conseq (fun _ h => h) (fun _ _ h => h) fun err t h => ?_) (fun _ => ?_) s hs
  · refine hfails hbegins (Or.inl fun hm => ?_) err t h.2.1
    obtain ⟨st, hst, hfalse⟩ := h.1
    rw [hm.2.2 st.1 (List.mem_map_of_mem hst)] at hfalse
    exact nomatch hfalse
  rintro s ⟨hruns, hs⟩
  have hmutates : c.Mutates s₀ (statements.map Prod.fst) :=
    ⟨hprepared.1, hprepared.2, fun b hb => by
      obtain ⟨st, hst, rfl⟩ := List.mem_map.1 hb
      exact hruns st hst⟩
  refine Triple.bind ((commitTransaction_spec s₀ (c.indexes s₀) commit).conseq (fun _ h => h)
    (fun _ _ h => h) fun err t h => h.elim (fun hraised => hfails hbegins (Or.inr hraised.1) err t
      hraised.2) fun hover => hended err t hover.2) (fun _ => ?_) s hs
  rintro s ⟨hok, hs⟩
  exact hq hbegins hmutates hok s hs

/-- A call that is not refused. -/
theorem exec_eq (hactive : s₀.transactionActive = false) :
    c.exec s₀ = tryCatch (c.run s₀.tables (c.indexes s₀)) (fun err =>
      c.recover s₀.tables (c.indexes s₀) >>= fun _ => throw err) s₀ := by
  simp only [exec, bind, EStateM.bind, get, getThe, MonadStateOf.get, EStateM.get, hactive]
  rfl

/-- Its recovery takes back what a failed run leaves. -/
theorem exec_meets {P : State → Prop} (hactive : s₀.transactionActive = false)
    (hrun : Triple (fun s => s = s₀) (c.run s₀.tables (c.indexes s₀))
      (fun _ s => s.catalog = s₀.catalog) fun _ => P)
    (hrecover : Triple P (c.recover s₀.tables (c.indexes s₀)) (fun _ => Unchanged s₀)
      fun _ => Unchanged s₀) :
    Meets (fun _ s => s.catalog = s₀.catalog) (fun _ => Unchanged s₀) (c.exec s₀) := by
  have hexec : Triple (fun s => s = s₀) (tryCatch (c.run s₀.tables (c.indexes s₀)) fun err =>
      c.recover s₀.tables (c.indexes s₀) >>= fun _ => throw err)
      (fun _ s => s.catalog = s₀.catalog) fun _ => Unchanged s₀ :=
    .tryCatch hrun fun err => .seq hrecover (.throw fun _ h => h)
  rw [exec_eq hactive]
  exact hexec s₀ rfl

/-- With a transaction, a sound call is atomic. -/
theorem exec_transactional {begins : Bool} {commit rollback : Reply} {retries : String → Bool}
    (hm : c.mutation = .transactional begins statements commit rollback retries)
    (hactive : s₀.transactionActive = false) (hc : c.Sound s₀) :
    Meets (fun _ s => s.catalog = s₀.catalog) (fun _ => Unchanged s₀) (c.exec s₀) := by
  have hsound := hc hactive
  rw [hm] at hsound
  have hrun : Triple (fun s => s = s₀) (c.run s₀.tables (c.indexes s₀))
      (fun _ s => s.catalog = s₀.catalog)
      fun _ s => s = s₀ ∨ (rollback ≠ .raised ∧
        InTransaction s₀ s.tables s.transaction s.transactionActive) ∨ Undone s₀ s := by
    simp only [run, hm]
    refine mutate_spec (fun _ => Or.inl rfl) (fun hbegins hfails _ s hs =>
      Or.inr (Or.inl ⟨(hsound hbegins).2 hfails, hs⟩)) (fun _ _ hs => Or.inr (Or.inr hs))
      fun hbegins hmutates hok => ?_
    obtain ⟨hfinishes, hrestorable⟩ := (hsound hbegins).1 ⟨hmutates, hok⟩
    exact (finish_spec (F := fun _ _ _ => True) hrestorable).conseq (fun _ h => ⟨trivial, h⟩)
      (fun _ _ h => h) fun _ _ h => absurd hfinishes h.1
  have hrecover : Triple (fun s => s = s₀ ∨ (rollback ≠ .raised ∧
        InTransaction s₀ s.tables s.transaction s.transactionActive) ∨ Undone s₀ s)
      (c.recover s₀.tables (c.indexes s₀)) (fun _ => Unchanged s₀) fun _ => Unchanged s₀ := by
    simp only [recover, hm]
    rintro s (rfl | hs)
    · refine Triple.get_bind (P := fun t => t = s) (fun t ht => ?_) s rfl
      obtain rfl : t = s := ht
      rw [hactive]
      exact (bestEffort_spec t retries fun info hinfo => exists_of_found hinfo).pre
        fun u hu => hu ▸ ⟨rfl, rfl⟩
    · refine Triple.get_bind (P := fun t => t = s) (fun t ht => ?_) s rfl
      obtain rfl : t = s := ht
      have htrue : t.transactionActive = true := hs.elim (fun h => h.2.2) fun h => h.2.2
      rw [htrue]
      exact (rollbackTransaction_spec s₀).pre fun u hu => hu ▸ hs
  exact exec_meets hactive hrun hrecover

end Call

/-! ## Rows that are inserted again -/

/-- Each row is there, or is one of those that go with the files and is missing. -/
structure PartialRows (snapshot : Snapshot) (t : Tables) : Prop where
  files : ∀ id, t.files id = snapshot.tables.files id ∨
    (t.files id = none ∧ snapshot.hasFile id = true)
  chunks : ∀ id, t.chunks id = snapshot.tables.chunks id ∨
    (t.chunks id = none ∧ snapshot.hasChunk id = true)
  embeddings : ∀ d id, t.embeddings d id = snapshot.tables.embeddings d id ∨
    (t.embeddings d id = none ∧ snapshot.hasEmbedding d id = true)

namespace PartialRows

variable {snapshot : Snapshot} {t : Tables}

theorem refl (snapshot : Snapshot) : PartialRows snapshot snapshot.tables where
  files _ := Or.inl rfl
  chunks _ := Or.inl rfl
  embeddings _ _ := Or.inl rfl

theorem deleteEmbeddings (h : PartialRows snapshot t) {dims : ℕ} (hd : dims ∈ snapshot.dims) :
    PartialRows snapshot (snapshot.deleteEmbeddings dims t) := by
  refine { h with embeddings := fun d id => ?_ }
  unfold Snapshot.deleteEmbeddings
  simp only
  split
  · next hif =>
    obtain ⟨rfl, hany⟩ := hif
    refine Or.inr ⟨rfl, ?_⟩
    rcases h.embeddings d id with heq | ⟨hnone, -⟩
    · rw [heq] at hany
      simp [Snapshot.hasEmbedding, hd, hany]
    · rw [hnone] at hany
      exact nomatch hany
  · exact h.embeddings d id

theorem deleteChunks (h : PartialRows snapshot t) :
    PartialRows snapshot (snapshot.deleteChunks t) := by
  refine { h with chunks := fun id => ?_ }
  unfold Snapshot.deleteChunks
  simp only
  split
  · next hif => exact Or.inr ⟨rfl, hif⟩
  · exact h.chunks id

theorem deleteFiles (h : PartialRows snapshot t) :
    PartialRows snapshot (snapshot.deleteFiles t) := by
  refine { h with files := fun id => ?_ }
  unfold Snapshot.deleteFiles
  simp only
  split
  · next hif => exact Or.inr ⟨rfl, hif⟩
  · exact h.files id

/-- Any of the statements that delete. -/
theorem delete (h : PartialRows snapshot t) {f : Tables → Tables} (hf : f ∈ snapshot.deletes) :
    PartialRows snapshot (f t) := by
  rcases List.mem_append.1 hf with hf | hf
  · obtain ⟨dims, hd, rfl⟩ := List.mem_map.1 hf
    exact h.deleteEmbeddings hd
  · rcases List.mem_pair.1 hf with rfl | rfl
    · exact h.deleteChunks
    · exact h.deleteFiles

end PartialRows

/-- Statements one after the other. -/
def applyAll (l : List (Tables → Tables)) (t : Tables) : Tables := l.foldl (fun t f => f t) t

theorem applyAll_append (l l' : List (Tables → Tables)) (t : Tables) :
    applyAll (l ++ l') t = applyAll l' (applyAll l t) := List.foldl_append

theorem PartialRows.applyAll {snapshot : Snapshot} : ∀ {l : List (Tables → Tables)} {t : Tables},
    (∀ f ∈ l, f ∈ snapshot.deletes) → PartialRows snapshot t →
      PartialRows snapshot (applyAll l t)
  | [], _, _, h => h
  | f :: l, t, hl, h => by
    show PartialRows snapshot (GuardAtomicity.applyAll l (f t))
    exact PartialRows.applyAll (fun g hg => hl g (List.mem_cons_of_mem f hg))
      (h.delete (hl f List.mem_cons_self))

/-- The embeddings of the tables in a list, and nothing else, are inserted again. -/
theorem applyAll_insertEmbeddings (snapshot : Snapshot) : ∀ (l : List ℕ) (t : Tables),
    applyAll (l.map snapshot.insertEmbeddings) t =
      { t with embeddings := fun d id =>
          if d ∈ l ∧ snapshot.hasEmbedding d id = true then snapshot.tables.embeddings d id
          else t.embeddings d id }
  | [], t => by simp [applyAll]
  | a :: l, t => by
    show applyAll (l.map snapshot.insertEmbeddings) (snapshot.insertEmbeddings a t) = _
    rw [applyAll_insertEmbeddings snapshot l]
    unfold Snapshot.insertEmbeddings
    congr 1
    funext d id
    by_cases ha : d = a
    · subst ha
      by_cases he : snapshot.hasEmbedding d id = true
      · simp [he]
      · simp [he]
    · simp [ha]

/-- Deleted or not, the rows are inserted as they were. -/
theorem applyAll_restores {snapshot : Snapshot} {t : Tables} (h : PartialRows snapshot t) :
    applyAll (snapshot.deletes ++ snapshot.inserts) t = snapshot.tables := by
  have hdeleted := h.applyAll (l := snapshot.deletes) fun _ hf => hf
  rw [applyAll_append]
  generalize applyAll snapshot.deletes t = t' at hdeleted
  unfold Snapshot.inserts
  rw [applyAll_append, applyAll_insertEmbeddings]
  have hfiles : (fun id => if snapshot.hasFile id = true then snapshot.tables.files id
      else t'.files id) = snapshot.tables.files := by
    funext id
    split
    · rfl
    · next hno => exact (hdeleted.files id).resolve_right fun hr => hno hr.2
  have hchunks : (fun id => if snapshot.hasChunk id = true then snapshot.tables.chunks id
      else t'.chunks id) = snapshot.tables.chunks := by
    funext id
    split
    · rfl
    · next hno => exact (hdeleted.chunks id).resolve_right fun hr => hno hr.2
  have hembeddings : (fun d id => if d ∈ snapshot.dims ∧ snapshot.hasEmbedding d id = true then
      snapshot.tables.embeddings d id else t'.embeddings d id) = snapshot.tables.embeddings := by
    funext d id
    split
    · rfl
    · next hno =>
      refine (hdeleted.embeddings d id).resolve_right fun hr => hno ⟨?_, hr.2⟩
      have := (Bool.and_eq_true _ _ ▸ hr.2 :)
      exact List.contains_iff_mem.1 this.1
  show Tables.mk
    (fun id => if snapshot.hasFile id = true then snapshot.tables.files id else t'.files id)
    (fun id => if snapshot.hasChunk id = true then snapshot.tables.chunks id else t'.chunks id)
    (fun d id => if d ∈ snapshot.dims ∧ snapshot.hasEmbedding d id = true then
      snapshot.tables.embeddings d id else t'.embeddings d id) = _
  rw [hfiles, hchunks, hembeddings]

theorem withOutcomes_snd (outcomes : List Bool) (l : List (Tables → Tables)) :
    (withOutcomes outcomes l).map Prod.snd = l := by
  simp [withOutcomes, Function.comp_def]

theorem mem_withOutcomes {outcomes : List Bool} {l : List (Tables → Tables)}
    {st : Bool × (Tables → Tables)} (h : st ∈ withOutcomes outcomes l) :
    (st.1 = true ∨ st.1 ∈ outcomes) ∧ st.2 ∈ l := by
  refine ⟨?_, withOutcomes_snd outcomes l ▸ List.mem_map_of_mem h⟩
  obtain ⟨⟨f, i⟩, -, rfl⟩ := List.mem_map.1 h
  simp only [List.getD_eq_getElem?_getD]
  cases hi : outcomes[i]? with
  | none => exact Or.inl rfl
  | some b => exact Or.inr (List.mem_of_getElem? hi)

/-- Statements that all run. -/
theorem runAll_true : ∀ {l : List (Bool × (Tables → Tables))}, (∀ st ∈ l, st.1 = true) →
    ∀ s : State, runAll l s = .ok ⟨⟩ { s with tables := applyAll (l.map Prod.snd) s.tables }
  | [], _, _ => rfl
  | (runs, f) :: l, h, s => by
    obtain rfl : runs = true := h _ List.mem_cons_self
    exact runAll_true (fun st hst => h st (List.mem_cons_of_mem _ hst))
      { s with tables := f s.tables }

/-! ## Calls without a transaction -/

namespace Call

variable {c : Call} {s₀ : State} {fileIds dims : List ℕ} {outcomes : List Bool} {undo : Undo}

/-- The restore of a failed delete brings rows and indexes back. -/
theorem restore_spec (hrestorable : c.Restorable s₀) (hundo : undo.Runs (c.indexes s₀))
    (hfinds : c.FindsNoMore s₀ undo) {E : Err → State → Prop} :
    Triple (fun s => PartialRows ⟨fileIds, s₀.tables, dims⟩ s.tables ∧
        PartialIndexes (c.indexes s₀) s₀.catalog s.catalog)
      (c.restore ⟨fileIds, s₀.tables, dims⟩ undo (c.indexes s₀)) (fun _ => Unchanged s₀) E := by
  obtain ⟨hdrops, hstatements, hrecreates, hcheckpoints⟩ := hundo
  let snapshot : Snapshot := ⟨fileIds, s₀.tables, dims⟩
  refine Triple.get_bind fun t ht => Triple.pre ?_ fun s hs => hs ▸ ht
  have hfound : ∀ info ∈ getExistingVectorIndexes undo.discovers undo.metricReads c.names t.catalog,
      ∃ i ∈ c.indexes s₀, i.indexName = info.indexName := fun info hinfo =>
    hfinds info (mem_found_of_missing ht.2 hinfo)
  have hdrop := forM_spec fun info hinfo => dropIndex_spec
    (fun tables _ _ => PartialRows snapshot tables) (c.indexes s₀) s₀.catalog undo.drops
      (hfound info hinfo)
  refine Triple.bind (hdrop.conseq (fun _ h => h) (fun _ _ h => h.2) fun _ s h => ?_) fun _ => ?_
  · obtain ⟨⟨info, hinfo, hfalse⟩, -⟩ := h
    obtain ⟨i, hi, hname⟩ := hfound info hinfo
    rw [← hname, hdrops i hi] at hfalse
    exact nomatch hfalse
  refine Triple.bind (Q := fun _ s => s.tables = s₀.tables ∧
    PartialIndexes (c.indexes s₀) s₀.catalog s.catalog) ?_ fun _ => ?_
  · rintro s ⟨hrows, hindexes⟩
    rw [runAll_true (fun st hst => (mem_withOutcomes hst).1.elim id (hstatements _)) s,
      withOutcomes_snd]
    exact ⟨applyAll_restores hrows, hindexes⟩
  refine Triple.bind ((recreateAll_spec (fun tables _ _ => tables = s₀.tables) (c.indexes s₀)
    undo.recreates hrestorable).conseq (fun _ h => h)
      (fun _ s h => (⟨h.1.1, h.1.2.eq h.2⟩ : Unchanged s₀ s)) fun _ s h => ?_) fun _ => ?_
  · obtain ⟨⟨info, hinfo, hfalse⟩, -⟩ := h
    rw [hrecreates info hinfo] at hfalse
    exact nomatch hfalse
  · refine (execute_spec undo.checkpoints fun s hs => hs).conseq (fun _ h => h) (fun _ _ h => h.2)
      fun _ s h => ?_
    rw [hcheckpoints] at h
    exact nomatch h.1

/-- A sound batch delete is atomic. -/
theorem exec_deleteFiles (hm : c.mutation = .deleteFiles fileIds dims outcomes undo)
    (hactive : s₀.transactionActive = false) (hc : c.Sound s₀) :
    Meets (fun _ s => s.catalog = s₀.catalog) (fun _ => Unchanged s₀) (c.exec s₀) := by
  have hsound := hc hactive
  rw [hm] at hsound
  obtain ⟨hrestorable, hfailure⟩ := hsound
  let snapshot : Snapshot := ⟨fileIds, s₀.tables, dims⟩
  let P := fun s : State => PartialRows snapshot s.tables ∧
    PartialIndexes (c.indexes s₀) s₀.catalog s.catalog
  have hrun : Triple (fun s => s = s₀) (c.run s₀.tables (c.indexes s₀))
      (fun _ s => s.catalog = s₀.catalog)
      fun _ s => ¬(c.Mutates s₀ outcomes ∧ c.Finishes s₀) ∧ P s := by
    simp only [run, hm]
    refine Triple.bind ((prepare_spec fun tables _ _ => PartialRows snapshot tables).conseq
      (fun s hs => by
        rw [hs]
        exact ⟨PartialRows.refl snapshot, PartialIndexes.refl _ _⟩) (fun _ _ h => h)
      fun _ s h => ⟨fun hf => h.1 ⟨hf.1.1, hf.1.2.1⟩, h.2⟩) fun _ => ?_
    rintro s ⟨hprepared, hs⟩
    have hdeletes : Triple P (runAll (withOutcomes outcomes snapshot.deletes)) _ _ :=
      runAll_spec fun st hst s hs => ⟨hs.1.delete (mem_withOutcomes hst).2, hs.2⟩
    refine Triple.bind (hdeletes.conseq (fun _ h => h) (fun _ _ h => h.2)
      fun _ t h => ⟨fun hf => ?_, h.2⟩) (fun _ => ?_) s hs
    · exact (finish_spec (F := fun tables _ _ => PartialRows snapshot tables) hrestorable).conseq
        (fun _ h => h) (fun _ _ h => h) fun _ _ h => ⟨fun hf => h.1 hf.2, h.2⟩
    · obtain ⟨st, hst, hfalse⟩ := h.1
      rcases (mem_withOutcomes hst).1 with htrue | hmem
      · rw [htrue] at hfalse
        exact nomatch hfalse
      · rw [hf.1.2.2 st.1 hmem] at hfalse
        exact nomatch hfalse
  have hrecover : Triple (fun s => ¬(c.Mutates s₀ outcomes ∧ c.Finishes s₀) ∧ P s)
      (c.recover s₀.tables (c.indexes s₀)) (fun _ => Unchanged s₀) fun _ => Unchanged s₀ := by
    simp only [recover, hm]
    rintro s ⟨hfails, hs⟩
    obtain ⟨hruns, hfinds⟩ := hfailure hfails
    exact restore_spec hrestorable hruns hfinds s hs
  exact exec_meets hactive hrun hrecover

end Call

/-- A sound call is atomic. -/
theorem atomic_of_sound (c : Call) (s : State) (hc : c.Sound s) : Atomic c s := by
  have hends : Meets (fun _ t => t.catalog = s.catalog) (fun _ => Unchanged s) (c.exec s) := by
    cases hactive : s.transactionActive with
    | true =>
      -- refused
      have hrefused : c.exec s = .error .conflict s := by
        simp only [Call.exec, bind, EStateM.bind, get, getThe, MonadStateOf.get, EStateM.get,
          hactive]
        rfl
      rw [hrefused]
      exact ⟨rfl, rfl⟩
    | false =>
      cases hm : c.mutation with
      | transactional begins statements commit rollback retries =>
        exact Call.exec_transactional hm hactive hc
      | deleteFiles fileIds dims outcomes undo => exact Call.exec_deleteFiles hm hactive hc
  unfold Atomic
  cases hr : c.exec s with
  | ok u t =>
    rw [hr] at hends
    have hcatalog : t.catalog = s.catalog := hends
    refine ⟨nofun, fun name => ?_⟩
    simp only [state, hcatalog]
  | error err t =>
    rw [hr] at hends
    obtain ⟨htables, hcatalog⟩ : Unchanged s t := hends
    refine ⟨fun _ => htables, fun name => ?_⟩
    simp only [state, hcatalog]

/-! ## Calls that are not -/

/-- Two files with a chunk each, one embedded, and an HNSW index. -/
def twoFiles : State where
  tables :=
    { files := fun id => if id = 1 then some "a.py" else if id = 2 then some "b.py" else none
      chunks := fun id => if id = 1 then some ⟨1, "x = 1"⟩ else if id = 2 then some ⟨2, "y = 1"⟩
        else none
      embeddings := fun d id => if d = 3 ∧ id = 1 then some ⟨1, "[1, 0, 0]"⟩ else none }
  catalog := fun name => if name = "idx_hnsw_3" then some ⟨some 3, "cosine", true⟩ else none
  transaction := none
  transactionActive := false

/-- The deletion of a chunk, which is committed, and a checkpoint that fails or not. -/
def deleteChunk (checkpoints : Bool) : Call where
  names := ["idx_hnsw_3"]
  discovers := true
  metricReads := fun _ => true
  optimizeForBulk := false
  sets := true
  drops := fun _ => true
  mutation := .transactional true [(true, fun t =>
    { t with chunks := fun id => if id = 1 then none else t.chunks id })] .ok .ok fun _ => true
  recreates := fun _ => true
  checkpoints := checkpoints

theorem deleteChunk_atomic : Atomic (deleteChunk true) twoFiles := by
  refine atomic_of_sound (deleteChunk true) twoFiles fun _ _ =>
    ⟨fun _ => ⟨⟨fun _ _ => rfl, rfl⟩, fun info hinfo => ?_⟩, fun _ => by decide⟩
  have hfound : (deleteChunk true).indexes twoFiles = [⟨"idx_hnsw_3", 3, "cosine"⟩] := by decide
  obtain rfl := List.mem_singleton.1 (hfound ▸ hinfo)
  exact ⟨by decide, rfl⟩

/-- The call raises after `COMMIT`, and the chunk is gone. -/
theorem deleteChunk_not_atomic : ¬Atomic (deleteChunk false) twoFiles := by
  intro h
  have hchunks := congrArg (fun t : Tables => t.chunks 1) (h.1 rfl)
  exact nomatch (show none = some (⟨1, "x = 1"⟩ : Row) from hchunks)

end ChunkHound.GuardAtomicity
