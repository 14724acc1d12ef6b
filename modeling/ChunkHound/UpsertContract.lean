import ChunkHound.CrashHoare
import ChunkHound.Transactions

/-!
# The unique rows of an embedding table

Embeddings are upserted on a unique index over the chunk, the provider and the model. A table from
before the index may hold several rows of one key. The repair deletes all but the newest and then
creates the index, each in a transaction of its own : the index builder still counts rows that were
deleted in the open transaction.

`repair_converges` : after any number of repairs, each cut short anywhere, the table has all its
rows, or the newest of each key and no others. A repair that returns leaves the newest of each key
and the index, and one in which nothing fails returns.

A repair is over its own connection, with no transaction open. What else the caller may have in a
transaction is not part of this.
-/

namespace ChunkHound.UpsertContract

open CrashHoare

/-! ## Rows -/

variable {ε : Type}

/-- A row of an embedding table. A creation time that is null is the lowest. -/
structure EmbeddingRow (ε : Type) where
  id : ℤ
  chunkId : ℤ
  provider : String
  model : String
  embedding : ε
  dims : ℤ
  createdAt : WithBot ℤ

/-- The columns of the unique index. -/
def EmbeddingRow.key (r : EmbeddingRow ε) : ℤ × String × String := (r.chunkId, r.provider, r.model)

/-- The order of the window, from its end : by the creation time, then by the id. -/
def EmbeddingRow.age (r : EmbeddingRow ε) : WithBot ℤ ×ₗ ℤ := toLex (r.createdAt, r.id)

/-- `ROW_NUMBER()` among the rows of its key. -/
def rowNum (rows : List (EmbeddingRow ε)) (r : EmbeddingRow ε) : ℕ :=
  (rows.filter fun r' => r'.key = r.key ∧ r.age < r'.age).length + 1

/-- `_executor_get_embedding_duplicate_row_ids`, in any order. -/
def duplicateRowIds (rows : List (EmbeddingRow ε)) : List ℤ :=
  (rows.filter fun r => 1 < rowNum rows r).map (·.id)

/-- `_executor_delete_embeddings_by_row_ids`. -/
def deleteByRowIds (rowIds : List ℤ) (rows : List (EmbeddingRow ε)) : List (EmbeddingRow ε) :=
  rows.filter fun r => r.id ∉ rowIds

/-- The newest row of each key. -/
structure Newest (rows kept : List (EmbeddingRow ε)) : Prop where
  sublist : kept.Sublist rows
  unique : (kept.map (·.key)).Nodup
  newest : ∀ r ∈ rows, ∃ k ∈ kept, k.key = r.key ∧ r.age ≤ k.age

variable {rows : List (EmbeddingRow ε)}

theorem newest_self (h : (rows.map (·.key)).Nodup) :
    Newest rows rows :=
  ⟨List.Sublist.refl rows, h, fun r hr => ⟨r, hr, rfl, le_rfl⟩⟩

theorem rowNum_le_one_iff {r : EmbeddingRow ε} :
    ¬1 < rowNum rows r ↔ ∀ r' ∈ rows, r'.key = r.key → r'.age ≤ r.age := by
  unfold rowNum
  rw [Nat.lt_add_left_iff_pos, List.length_pos_iff, not_not, List.filter_eq_nil_iff]
  simp

section Distinct

variable {rows : List (EmbeddingRow ε)} (h : (rows.map (·.id)).Nodup)

include h

theorem eq_of_id_eq {r r' : EmbeddingRow ε} (hr : r ∈ rows) (hr' : r' ∈ rows)
    (hid : r.id = r'.id) : r = r' :=
  List.inj_on_of_nodup_map h hr hr' hid

/-- What is left is not behind another row of its key. -/
theorem mem_deleteByRowIds {r : EmbeddingRow ε} :
    r ∈ deleteByRowIds (duplicateRowIds rows) rows ↔
      r ∈ rows ∧ ∀ r' ∈ rows, r'.key = r.key → r'.age ≤ r.age := by
  have hid : r ∈ rows → (r.id ∈ duplicateRowIds rows ↔ 1 < rowNum rows r) := by
    intro hr
    unfold duplicateRowIds
    constructor
    · intro hmem
      obtain ⟨r', hr', hid⟩ := List.mem_map.1 hmem
      obtain ⟨hr', hnum⟩ := List.mem_filter.1 hr'
      rw [← eq_of_id_eq h hr' hr hid]
      exact of_decide_eq_true hnum
    · exact fun hnum => List.mem_map.2 ⟨r, List.mem_filter.2 ⟨hr, decide_eq_true hnum⟩, rfl⟩
  unfold deleteByRowIds
  rw [List.mem_filter, decide_eq_true_iff]
  refine and_congr_right fun hr => ?_
  rw [hid hr, rowNum_le_one_iff]

/-- Deleting the duplicates leaves the newest row of each key. -/
theorem newest_deleteByRowIds : Newest rows (deleteByRowIds (duplicateRowIds rows) rows) where
  sublist := List.filter_sublist
  unique := by
    have hrows : rows.Nodup := List.Nodup.of_map _ h
    refine List.Nodup.map_on (fun r hr r' hr' hkey => ?_) (hrows.filter _)
    obtain ⟨hr, hbest⟩ := (mem_deleteByRowIds h).1 hr
    obtain ⟨hr', hbest'⟩ := (mem_deleteByRowIds h).1 hr'
    have hage : r.age = r'.age := le_antisymm (hbest' r hr hkey) (hbest r' hr' hkey.symm)
    exact eq_of_id_eq h hr hr' (congrArg (fun a => (ofLex a).2) hage)
  newest := by
    intro r hr
    have hmem : r ∈ rows.filter fun r' => r'.key = r.key :=
      List.mem_filter.2 ⟨hr, decide_eq_true rfl⟩
    cases hmax : (rows.filter fun r' => r'.key = r.key).argmax (·.age) with
    | none =>
      rw [List.argmax_eq_none] at hmax
      rw [hmax] at hmem
      cases hmem
    | some k =>
      obtain ⟨hk, hkey⟩ := List.mem_filter.1 (List.argmax_mem hmax)
      have hkey : k.key = r.key := of_decide_eq_true hkey
      refine ⟨k, (mem_deleteByRowIds h).2 ⟨hk, fun r' hr' hkey' => ?_⟩, hkey,
        List.le_of_mem_argmax hmem hmax⟩
      exact List.le_of_mem_argmax
        (List.mem_filter.2 ⟨hr', decide_eq_true (hkey'.trans hkey)⟩) hmax

end Distinct

/-! ## The repair -/

/-- An embedding table, with what is created on it. -/
structure Table (ε : Type) where
  rows : List (EmbeddingRow ε)
  providerModelIndex : Bool
  uniqueIndex : Bool

/-- A transaction : the table as it is in it, and the rows that were deleted in it. -/
structure Transaction (ε : Type) where
  table : Table ε
  deleted : List (EmbeddingRow ε)

/-- A connection, and `state["transaction_active"]`. -/
structure Session (ε : Type) where
  committed : Table ε
  opened : Option (Transaction ε)
  transactionActive : Bool

abbrev Repair (ε : Type) (α : Type) := Prog (Session ε) Unit α

/-- The table a statement sees. -/
def Session.view (s : Session ε) : Table ε := (s.opened.map (·.table)).getD s.committed

/-- A statement outside a transaction commits. -/
def Session.write (s : Session ε) (f : Transaction ε → Option (Transaction ε)) :
    Option (Session ε) :=
  match s.opened with
  | some t => (f t).map fun t => { s with opened := some t }
  | none => (f ⟨s.committed, []⟩).map fun t => { s with committed := t.table }

/-- `state["transaction_active"] = active`. -/
def setTransactionActive (active : Bool) : Repair ε Unit :=
  Prog.modify fun s => { s with transactionActive := active }

def executeBegin : Repair ε Unit :=
  Prog.act () fun s =>
    match s.opened with
    | some _ => none
    | none => some { s with opened := some ⟨s.committed, []⟩ }

def executeCommit : Repair ε Unit :=
  Prog.act () fun s => s.opened.map fun t => { s with committed := t.table, opened := none }

/-- Without a transaction its error is one that the caller skips. -/
def executeRollback : Repair ε Unit := Prog.act () fun s => some { s with opened := none }

def beginTransaction : Repair ε Unit :=
  Transactions.beginTransaction executeBegin setTransactionActive

def commitTransaction : Repair ε Unit :=
  Transactions.commitTransaction executeCommit setTransactionActive false (pure ())

def rollbackTransaction : Repair ε Unit :=
  Transactions.rollbackTransaction (fun _ : Unit => false) executeRollback setTransactionActive

/-- `_executor_run_upsert_contract_step`. -/
def runUpsertContractStep (stepFunc : Repair ε Unit) : Repair ε Unit :=
  Prog.get >>= fun s =>
    if s.transactionActive then stepFunc
    else
      beginTransaction >>= fun _ =>
        Prog.tryCatch stepFunc
            (fun _ => rollbackTransaction >>= fun _ => Prog.throw ()) >>= fun _ =>
          commitTransaction

/-- The deletion of the duplicates. -/
def deleteRows (rowIds : List ℤ) : Repair ε Unit :=
  Prog.act () fun s => s.write fun t => some
    ⟨{ t.table with rows := deleteByRowIds rowIds t.table.rows },
      t.deleted ++ t.table.rows.filter fun r => r.id ∈ rowIds⟩

/-- `CREATE UNIQUE INDEX`, which counts the rows that were deleted in the transaction. -/
def createIndex (t : Transaction ε) : Option (Transaction ε) :=
  if ((t.table.rows ++ t.deleted).map (·.key)).Nodup then
    some { t with table := { t.table with uniqueIndex := true } }
  else none

/-- `_executor_create_embedding_unique_index`. -/
def createEmbeddingUniqueIndex : Repair ε Unit :=
  Prog.query () (fun s => some s.view.uniqueIndex) >>= fun exist =>
    if exist then pure () else Prog.act () fun s => s.write createIndex

/-- `_executor_create_embedding_provider_model_index`. -/
def createEmbeddingProviderModelIndex : Repair ε Unit :=
  Prog.query () (fun s => some s.view.providerModelIndex) >>= fun exist =>
    if exist then pure ()
    else Prog.act () fun s => s.write fun t => some
      { t with table := { t.table with providerModelIndex := true } }

/-- The duplicates are deleted, and the unique index is created. -/
def dedupe : Repair ε Unit :=
  Prog.query () (fun s => some (duplicateRowIds s.view.rows)) >>= fun rowIds =>
    (if rowIds = [] then pure () else runUpsertContractStep (deleteRows rowIds)) >>= fun _ =>
      runUpsertContractStep createEmbeddingUniqueIndex

/-- `_executor_ensure_embedding_upsert_contract`. -/
def ensureEmbeddingUpsertContract : Repair ε Unit :=
  createEmbeddingProviderModelIndex >>= fun _ =>
    Prog.query () (fun s => some s.view.uniqueIndex) >>= fun exist =>
      if exist then pure () else dedupe

/-! ## One step -/

/-- No transaction, and this table. -/
def At (u : Table ε) (s : Session ε) : Prop := s = ⟨u, none, false⟩

/-- A transaction on this table. -/
def In (u : Table ε) (t : Transaction ε) (s : Session ε) : Prop := s = ⟨u, some t, true⟩

theorem triple_begin (u : Table ε) :
    Triple (At u) beginTransaction (fun _ => In u ⟨u, []⟩) (fun s => s.committed = u) := by
  refine Triple.seq (Triple.act (fun s hs => hs ▸ rfl) fun s s' hs h => ?_)
    (Triple.modify fun s (hs : s = ⟨u, some ⟨u, []⟩, false⟩) => hs ▸ rfl)
  subst hs
  cases h
  exact ⟨rfl, rfl⟩

variable {deleted : List (EmbeddingRow ε)}

theorem triple_commit {u v : Table ε} :
    Triple (In u ⟨v, deleted⟩) commitTransaction (fun _ => At v)
      (fun s => s.committed = u ∨ s.committed = v) := by
  refine Triple.seq (Triple.act (fun s hs => .inl (hs ▸ rfl)) fun s s' hs h => ?_)
    (Triple.modify fun s (hs : s = ⟨v, none, true⟩) => hs ▸ rfl)
  subst hs
  cases h
  exact ⟨rfl, .inr rfl⟩

theorem triple_rollback {Q : Unit → Session ε → Prop} (u : Table ε) :
    Triple (fun s => s.committed = u) (rollbackTransaction >>= fun _ => Prog.throw ()) Q
      (fun s => s.committed = u) := by
  have hrollback : Triple (fun s : Session ε => s.committed = u) rollbackTransaction
      (fun _ s => s.committed = u) (fun s => s.committed = u) := by
    have hexecute : Triple (fun s : Session ε => s.committed = u) executeRollback
        (fun _ s => s.committed = u) (fun s => s.committed = u) := by
      refine Triple.act (fun s hs => hs) fun s s' hs h => ?_
      cases h
      exact ⟨hs, hs⟩
    exact Triple.seq (Triple.tryCatch hexecute fun e => Triple.throw e fun s hs => hs)
      (Triple.modify fun s hs => hs)
  exact Triple.seq hrollback (Triple.throw () fun s hs => hs)

variable {stepFunc : Repair ε Unit}

/-- A step over its own transaction takes the table from one to the other, or leaves it. -/
theorem triple_step {u v : Table ε}
    (h : Triple (In u ⟨u, []⟩) stepFunc (fun _ => In u ⟨v, deleted⟩) (fun s => s.committed = u)) :
    Triple (At u) (runUpsertContractStep stepFunc) (fun _ => At v)
      (fun s => s.committed = u ∨ s.committed = v) := by
  refine Triple.get_bind fun d hd => ?_
  obtain rfl : d = ⟨u, none, false⟩ := hd
  have hleft : ∀ s : Session ε, s.committed = u → s.committed = u ∨ s.committed = v :=
    fun s hs => .inl hs
  have hcaught := (Triple.tryCatch h fun _ => triple_rollback u).crash hleft
  exact Triple.seq ((triple_begin u).crash hleft) (Triple.seq hcaught triple_commit)

theorem triple_deleteRows (u : Table ε) (rowIds : List ℤ) :
    Triple (In u ⟨u, []⟩) (deleteRows rowIds)
      (fun _ => In u ⟨{ u with rows := deleteByRowIds rowIds u.rows },
        [] ++ u.rows.filter fun r => r.id ∈ rowIds⟩) (fun s => s.committed = u) := by
  refine Triple.act (fun s hs => hs ▸ rfl) fun s s' hs h => ?_
  subst hs
  cases h
  exact ⟨rfl, rfl⟩

theorem triple_createIndex (u : Table ε) :
    Triple (In u ⟨u, []⟩) createEmbeddingUniqueIndex
      (fun _ => In u ⟨{ u with uniqueIndex := true }, []⟩) (fun s => s.committed = u) := by
  refine Triple.bind (Triple.query fun s hs => hs ▸ rfl) fun exist => ?_
  cases exist with
  | true =>
    refine Triple.pure () fun s hs => ?_
    obtain ⟨rfl, hexist⟩ := hs
    have hindex : u.uniqueIndex = true := Option.some.inj hexist
    rw [In, ← hindex]
  | false =>
    refine Triple.act (fun s hs => hs.1 ▸ rfl) fun s s' hs h => ?_
    obtain ⟨rfl, -⟩ := hs
    obtain ⟨t, ht, rfl⟩ := Option.map_eq_some_iff.1 h
    unfold createIndex at ht
    split at ht
    · cases ht
      exact ⟨rfl, rfl⟩
    · cases ht

theorem triple_providerModelIndex (u : Table ε) :
    Triple (At u) createEmbeddingProviderModelIndex
      (fun _ => At { u with providerModelIndex := true })
      (fun s => s.committed = u ∨ s.committed = { u with providerModelIndex := true }) := by
  refine Triple.bind (Triple.query fun s hs => .inl (hs ▸ rfl)) fun exist => ?_
  cases exist with
  | true =>
    refine Triple.pure () fun s hs => ?_
    obtain ⟨rfl, hexist⟩ := hs
    have hindex : u.providerModelIndex = true := Option.some.inj hexist
    rw [At, ← hindex]
  | false =>
    refine Triple.act (fun s hs => .inl (hs.1 ▸ rfl)) fun s s' hs h => ?_
    obtain ⟨rfl, -⟩ := hs
    cases h
    exact ⟨rfl, .inr rfl⟩

/-! ## Repairs -/

/-- The table has the rows it had, or the newest of each key, and the index only with these. -/
structure Held (t u : Table ε) : Prop where
  rows : u.rows = t.rows ∨ Newest t.rows u.rows
  index : u.uniqueIndex = true → Newest t.rows u.rows

variable {t u : Table ε}

theorem Held.newest (h : Held t u) (hids : (t.rows.map (·.id)).Nodup) :
    Newest t.rows (deleteByRowIds (duplicateRowIds u.rows) u.rows) := by
  rcases h.rows with heq | hnewest
  · rw [heq]
    exact newest_deleteByRowIds hids
  · -- no row is behind another, so none is deleted
    have hall : deleteByRowIds (duplicateRowIds u.rows) u.rows = u.rows := by
      have hids' : (u.rows.map (·.id)).Nodup := hids.sublist (hnewest.sublist.map _)
      refine List.filter_eq_self.2 fun r hr => ?_
      refine (List.mem_filter.1 ((mem_deleteByRowIds hids').2 ⟨hr, fun r' hr' hkey => ?_⟩)).2
      rw [List.inj_on_of_nodup_map hnewest.unique hr' hr hkey]
    rw [hall]
    exact hnewest

theorem triple_dedupe (hids : (t.rows.map (·.id)).Nodup) (h : Held t u) :
    Triple (At u) dedupe
      (fun _ s => Newest t.rows s.committed.rows ∧ s.committed.uniqueIndex = true)
      (fun s => Held t s.committed) := by
  let v : Table ε := { u with rows := deleteByRowIds (duplicateRowIds u.rows) u.rows }
  have hnewest : Newest t.rows v.rows := h.newest hids
  have hv : Held t v := ⟨.inr hnewest, fun _ => hnewest⟩
  have hcreate : Triple (At v) (runUpsertContractStep createEmbeddingUniqueIndex)
      (fun _ s => Newest t.rows s.committed.rows ∧ s.committed.uniqueIndex = true)
      (fun s => Held t s.committed) := by
    refine ((triple_step (triple_createIndex v)).conseq (fun s hs => hs) ?_).crash ?_
    · intro _ s hs
      rw [hs]
      exact ⟨hnewest, rfl⟩
    · rintro s (hs | hs) <;> rw [hs]
      · exact hv
      · exact ⟨.inr hnewest, fun _ => hnewest⟩
  refine Triple.bind (Triple.query fun s hs => by rw [hs]; exact h) fun rowIds => ?_
  refine Triple.seq (M := At v) ?_ hcreate
  intro s hs
  obtain ⟨hat, hrowIds⟩ := hs
  obtain rfl : duplicateRowIds u.rows = rowIds := by
    rw [hat] at hrowIds
    exact Option.some.inj hrowIds
  by_cases hnone : duplicateRowIds u.rows = []
  · have hrows : v.rows = u.rows := by
      change deleteByRowIds (duplicateRowIds u.rows) u.rows = u.rows
      rw [hnone]
      exact List.filter_eq_self.2 fun r _ => by simp
    rw [if_pos hnone, show v = u by rw [show v = { u with rows := v.rows } from rfl, hrows]]
    exact fun os => hat
  · rw [if_neg hnone]
    refine ((triple_step (triple_deleteRows u _)).crash ?_) s hat
    rintro s (hs | hs) <;> rw [hs]
    · exact h
    · exact hv

/-- A repair of a table that an earlier one left. -/
theorem triple_ensure (hids : (t.rows.map (·.id)).Nodup) (h : Held t u) :
    Triple (At u) ensureEmbeddingUpsertContract
      (fun _ s => Newest t.rows s.committed.rows ∧ s.committed.uniqueIndex = true)
      (fun s => Held t s.committed) := by
  let v : Table ε := { u with providerModelIndex := true }
  have hv : Held t v := ⟨h.rows, h.index⟩
  refine Triple.seq ((triple_providerModelIndex u).crash ?_) ?_
  · rintro s (hs | hs) <;> rw [hs]
    · exact h
    · exact hv
  refine Triple.bind (Triple.query fun s hs => by rw [hs]; exact hv) fun exist => ?_
  cases exist with
  | true =>
    refine Triple.pure () fun s hs => ?_
    obtain ⟨rfl, hexist⟩ := hs
    have hindex : u.uniqueIndex = true := Option.some.inj hexist
    exact ⟨h.index hindex, hindex⟩
  | false => exact (triple_dedupe hids hv).pre fun s hs => hs.1

/-- A connection of its own. -/
def connect (t : Table ε) : Session ε := ⟨t, none, false⟩

/-- The table after repairs that were cut short. -/
def afterRepairs (t : Table ε) (runs : List (List Outcome)) : Table ε :=
  runs.foldl (fun t os => (ensureEmbeddingUpsertContract (connect t) os).state.committed) t

theorem held_ensure (hids : (t.rows.map (·.id)).Nodup) (h : Held t u) (os : List Outcome) :
    Held t (ensureEmbeddingUpsertContract (connect u) os).state.committed := by
  refine Result.Meets.state (C := fun s : Session ε => Held t s.committed) ?_
  exact (triple_ensure hids h (connect u) rfl os).mono fun _ s hs =>
    ⟨.inr hs.1, fun _ => hs.1⟩

theorem held_afterRepairs {t : Table ε} (hids : (t.rows.map (·.id)).Nodup)
    (runs : List (List Outcome)) {u : Table ε} (h : Held t u) : Held t (afterRepairs u runs) := by
  induction runs generalizing u with
  | nil => exact h
  | cons os runs ih => exact ih (held_ensure hids h os)

theorem act_ok {f : Session ε → Option (Session ε)} {s s' : Session ε} (h : f s = some s')
    (os : List Outcome) : (Prog.act () f : Repair ε Unit) s (.ok :: os) = .done () s' os := by
  simp only [Prog.act, Prog.action, h, Option.map_some]

/-- A step that returns, over its own transaction. -/
theorem runStep_ok {u v : Table ε} {d : List (EmbeddingRow ε)}
    {os os' : List Outcome} (h : stepFunc ⟨u, some ⟨u, []⟩, true⟩ os =
      .done () ⟨u, some ⟨v, d⟩, true⟩ (.ok :: os')) :
    runUpsertContractStep stepFunc (connect u) (.ok :: os) = .done () (connect v) os' := by
  have hbegin : (beginTransaction : Repair ε Unit) (connect u) (.ok :: os) =
      .done () ⟨u, some ⟨u, []⟩, true⟩ os := rfl
  have htry : Prog.tryCatch stepFunc (fun _ => rollbackTransaction >>= fun _ => Prog.throw ())
      ⟨u, some ⟨u, []⟩, true⟩ os = .done () ⟨u, some ⟨v, d⟩, true⟩ (.ok :: os') := by
    rw [Prog.tryCatch, h]
  change (beginTransaction >>= fun _ => Prog.tryCatch stepFunc _ >>= fun _ => commitTransaction)
    (connect u) (.ok :: os) = _
  rw [Prog.bind_done _ hbegin, Prog.bind_done _ htry]
  rfl

/-- The index is created where the rows have distinct keys. -/
theorem runCreate_ok (h : (rows.map (·.key)).Nodup) (index : Bool)
    (os : List Outcome) : runUpsertContractStep createEmbeddingUniqueIndex
      (connect ⟨rows, index, false⟩) (.ok :: .ok :: .ok :: .ok :: os) =
        .done () (connect ⟨rows, index, true⟩) os := by
  have hindex : createIndex ⟨(⟨rows, index, false⟩ : Table ε), []⟩ =
      some ⟨⟨rows, index, true⟩, []⟩ := by
    unfold createIndex
    rw [List.append_nil, if_pos h]
  refine runStep_ok (d := []) ?_
  change (Prog.act () fun s : Session ε => s.write createIndex) _ (.ok :: .ok :: os) = _
  refine act_ok ?_ _
  change (createIndex _).map _ = _
  rw [hindex]
  rfl

theorem dedupe_ok
    (h : ((deleteByRowIds (duplicateRowIds rows) rows).map (·.key)).Nodup) (index : Bool) (n : ℕ) :
    (dedupe (connect ⟨rows, index, false⟩) (List.replicate (n + 8) .ok)).isDone = true := by
  have hstart : dedupe (connect ⟨rows, index, false⟩) (List.replicate (n + 8) .ok) =
      ((if duplicateRowIds rows = [] then pure ()
        else runUpsertContractStep (deleteRows (duplicateRowIds rows))) >>= fun _ =>
          runUpsertContractStep createEmbeddingUniqueIndex)
      (connect ⟨rows, index, false⟩) (List.replicate (n + 7) .ok) := rfl
  rw [hstart]
  by_cases hnone : duplicateRowIds rows = []
  · have hrows : deleteByRowIds (duplicateRowIds rows) rows = rows := by
      rw [hnone]
      exact List.filter_eq_self.2 fun r _ => by simp
    rw [hrows] at h
    have hcreate : runUpsertContractStep createEmbeddingUniqueIndex (connect ⟨rows, index, false⟩)
        (List.replicate (n + 7) .ok) = .done () (connect ⟨rows, index, true⟩)
          (List.replicate (n + 3) .ok) := runCreate_ok h index _
    rw [if_pos hnone]
    exact congrArg Result.isDone hcreate
  · have hdelete : runUpsertContractStep (deleteRows (duplicateRowIds rows))
        (connect ⟨rows, index, false⟩) (List.replicate (n + 7) .ok) = .done ()
          (connect ⟨deleteByRowIds (duplicateRowIds rows) rows, index, false⟩)
            (List.replicate (n + 4) .ok) := runStep_ok rfl
    have hcreate : runUpsertContractStep createEmbeddingUniqueIndex
        (connect ⟨deleteByRowIds (duplicateRowIds rows) rows, index, false⟩)
          (List.replicate (n + 4) .ok) = .done ()
            (connect ⟨deleteByRowIds (duplicateRowIds rows) rows, index, true⟩)
              (List.replicate n .ok) := runCreate_ok h index _
    rw [if_neg hnone, Prog.bind_done _ hdelete, hcreate]
    rfl

/-- A repair in which nothing fails returns. -/
theorem ensure_ok {u : Table ε}
    (h : ((deleteByRowIds (duplicateRowIds u.rows) u.rows).map (·.key)).Nodup) :
    (ensureEmbeddingUpsertContract (connect u) (List.replicate 11 .ok)).isDone = true := by
  obtain ⟨rows, index, unique⟩ := u
  cases unique with
  | true => cases index <;> rfl
  | false =>
    cases index with
    | true => exact dedupe_ok h true 1
    | false => exact dedupe_ok h true 0

/-- A repair after others. -/
def nextRepair (t : Table ε) (runs : List (List Outcome)) (os : List Outcome) :
    Result (Session ε) Unit Unit :=
  ensureEmbeddingUpsertContract (connect (afterRepairs t runs)) os

/-- After any repairs that were cut short anywhere, the table has all its rows or the newest of each
key. The next one that returns leaves the newest of each key and the index, and it returns where
nothing fails. -/
theorem repair_converges {t : Table ε} (hids : (t.rows.map (·.id)).Nodup)
    (hindex : t.uniqueIndex = true → (t.rows.map (·.key)).Nodup) (runs : List (List Outcome)) :
    Held t (afterRepairs t runs) ∧
      (∀ os, (nextRepair t runs os).isDone = true →
        Newest t.rows (nextRepair t runs os).state.committed.rows ∧
          (nextRepair t runs os).state.committed.uniqueIndex = true) ∧
      (nextRepair t runs (List.replicate 11 .ok)).isDone = true := by
  have hheld : Held t (afterRepairs t runs) :=
    held_afterRepairs hids runs ⟨.inl rfl, fun h => newest_self (hindex h)⟩
  refine ⟨hheld, fun os hdone => ?_, ensure_ok (hheld.newest hids).unique⟩
  exact Result.Meets.of_isDone (triple_ensure hids hheld _ rfl os) hdone

/-- Two rows of one key, one without a creation time, and a row of another key. -/
def legacyTable : Table Unit :=
  ⟨[⟨1, 5, "p", "m", (), 8, 10⟩, ⟨2, 5, "p", "m", (), 8, ⊥⟩,
    ⟨3, 6, "p", "m", (), 8, ⊥⟩], false, false⟩

theorem repair_converges_legacyTable :
    Newest legacyTable.rows (nextRepair legacyTable [[.ok, .ok, .ok, .ok, .ok, .failedAfter]]
      (List.replicate 11 .ok)).state.committed.rows := by
  obtain ⟨-, hreturned, hdone⟩ := repair_converges (t := legacyTable) (by decide) (by decide)
    [[.ok, .ok, .ok, .ok, .ok, .failedAfter]]
  exact (hreturned _ hdone).1

end ChunkHound.UpsertContract
