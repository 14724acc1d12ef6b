import ChunkHound.LanceEmbeddings

/-!
# When the chunks survive a new dimension

Recreating the table drops it before the rows are written back, so what is cut short in between
loses rows : all of them, or those of the batches not appended yet (`recreateTable_cut`). Before
the drop and from the last append on every row is there, and merging the vectors changes no
other column (`updateEmbeddings_keeps`). `stillStored_iff` counts the operations : the read, the
drop, the creation, the conversion of the rows, and two for each batch.
-/

namespace ChunkHound.Lance

open CrashHoare Slices

/-- The columns that are not about the vector. -/
def ChunkRow.core (r : ChunkRow) : ChunkRow :=
  { r with embedding := none, provider := none, model := none, createdTime := 0 }

/-- Every row is still there, with its columns. -/
def StillStored (before : List ChunkRow) (db : LanceDb) : Prop :=
  ∀ r ∈ before, ∃ t, db.chunks = some t ∧ ∃ r' ∈ t.rows, r'.core = r.core

/-- The same rows, up to their vectors. -/
def Keeps (before : List ChunkRow) (db : LanceDb) : Prop :=
  ∃ t, db.chunks = some t ∧ t.rows.map (·.core) = before.map (·.core)

theorem Keeps.stillStored {before : List ChunkRow} {db : LanceDb} (h : Keeps before db) :
    StillStored before db := by
  obtain ⟨t, ht, hrows⟩ := h
  intro r hr
  have hmem : r.core ∈ t.rows.map (·.core) := hrows ▸ List.mem_map_of_mem hr
  obtain ⟨r', hr', hcore⟩ := List.mem_map.1 hmem
  exact ⟨t, ht, r', hr', hcore⟩

section Json

variable {μ : Type} {json : Json μ} {before : List ChunkRow}

/-- Rows as the provider writes them : an id of its own, and serialized metadata. -/
structure Stored (json : Json μ) (rows : List ChunkRow) : Prop where
  ids : (rows.map (·.id)).Nodup
  metadata : ∀ r ∈ rows, ∃ m, r.metadata = serializeMetadata json m

theorem reserialize_serialize (m : μ) :
    reserialize json (serializeMetadata json m) = some (serializeMetadata json m) := by
  unfold reserialize serializeMetadata
  split
  · simp [deserializeMetadata, json.isEmpty_empty]
  · rename_i h
    simp [deserializeMetadata, json.loads_dumps, h]

/-! ## Writing the rows back -/

/-- A row written back. -/
def restored (r : ChunkRow) : ChunkRow :=
  { r with embedding := none, provider := some "", model := some "" }

theorem restoreRow_eq {r : ChunkRow} (h : ∃ m, r.metadata = serializeMetadata json m) :
    restoreRow json r = some (restored r) := by
  obtain ⟨m, hm⟩ := h
  rw [restoreRow, hm, reserialize_serialize, Option.map_some, ← hm]
  rfl

theorem mapM_eq_map {α β : Type} {f : α → Option β} {g : α → β} :
    ∀ {xs : List α}, (∀ x ∈ xs, f x = some (g x)) → xs.mapM f = some (xs.map g)
  | [], _ => rfl
  | x :: xs, h => by
    rw [List.mapM_cons, h x List.mem_cons_self,
      mapM_eq_map fun y hy => h y (List.mem_cons_of_mem _ hy)]
    rfl

theorem restoreRows_eq (h : Stored json before) :
    before.mapM (restoreRow json) = some (before.map restored) :=
  mapM_eq_map fun r hr => restoreRow_eq (h.metadata r hr)

theorem restoreBatches_ok (b : List ChunkRow) (bs : List (List ChunkRow)) (t : ChunksTable)
    (os : List Outcome) : (b :: bs).forM restoreBatch ⟨some t⟩ (.ok :: .ok :: os) =
      bs.forM restoreBatch ⟨some { t with rows := t.rows ++ b }⟩ os :=
  rfl

theorem restoreBatches_done : ∀ (bs : List (List ChunkRow)) (t : ChunksTable) (os : List Outcome),
    2 * bs.length ≤ returns os → bs.forM restoreBatch ⟨some t⟩ os =
      .done () ⟨some { t with rows := t.rows ++ bs.flatten }⟩ (os.drop (2 * bs.length))
  | [], t, os, _ => by simp [List.forM_nil, pure]
  | b :: bs, t, .ok :: .ok :: os, h => by
    have hlen : 2 * bs.length ≤ returns os := by
      simp only [returns, List.length_cons] at h
      omega
    rw [restoreBatches_ok, restoreBatches_done bs _ os hlen]
    simp [Nat.mul_succ, List.append_assoc]
  | b :: bs, t, [], h => by simp [returns] at h
  | b :: bs, t, .failed :: os, h => by simp [returns] at h
  | b :: bs, t, .failedAfter :: os, h => by simp [returns] at h
  | b :: bs, t, [.ok], h => by simp [returns] at h; omega
  | b :: bs, t, .ok :: .failed :: os, h => by simp [returns] at h; omega
  | b :: bs, t, .ok :: .failedAfter :: os, h => by simp [returns] at h; omega

/-- A run cut short has appended the batches whose append took effect. -/
theorem restoreBatches_cut : ∀ (bs : List (List ChunkRow)) (t : ChunksTable) (os : List Outcome),
    returns os < 2 * bs.length → (bs.forM restoreBatch ⟨some t⟩ os).isDone = false ∧
      (bs.forM restoreBatch ⟨some t⟩ os).state =
        ⟨some { t with rows := t.rows ++ (bs.take (effects os / 2)).flatten }⟩
  | [], t, os, h => by simp at h
  | b :: bs, t, .ok :: .ok :: os, h => by
    have hlen : returns os < 2 * bs.length := by
      simp only [returns, List.length_cons] at h
      omega
    obtain ⟨hcut, hstate⟩ := restoreBatches_cut bs { t with rows := t.rows ++ b } os hlen
    have heffects : effects (.ok :: .ok :: os) / 2 = effects os / 2 + 1 := by
      simp only [effects]
      omega
    rw [restoreBatches_ok, heffects]
    refine ⟨hcut, hstate.trans ?_⟩
    simp [List.append_assoc]
  | b :: bs, t, [], _ => ⟨rfl, by simp [effects]; rfl⟩
  | b :: bs, t, .failed :: os, _ => ⟨rfl, by simp [effects]; rfl⟩
  | b :: bs, t, .failedAfter :: os, _ => ⟨rfl, by simp [effects]; rfl⟩
  | b :: bs, t, [.ok], _ => ⟨rfl, by simp [effects]; rfl⟩
  | b :: bs, t, .ok :: .failed :: os, _ => ⟨rfl, by simp [effects]; rfl⟩
  | b :: bs, t, .ok :: .failedAfter :: os, _ => ⟨rfl, by simp [effects]; rfl⟩

/-! ## The recreation, cut anywhere -/

/-- The batches the rows are written back in. -/
def restoreBatches (before : List ChunkRow) : List (List ChunkRow) :=
  slices restoreBatchSize (before.map restored)

/-- The table is gone, or lacks a batch. -/
def Lost (before : List ChunkRow) (db : LanceDb) : Prop :=
  db.chunks = none ∨ ∃ column j, j < (restoreBatches before).length ∧
    db.chunks = some ⟨column, ((restoreBatches before).take j).flatten⟩

theorem flatten_restoreBatches (before : List ChunkRow) :
    (restoreBatches before).flatten = before.map restored :=
  flatten_slices (by decide) _

theorem keeps_restored (before : List ChunkRow) (column : EmbeddingColumn) :
    Keeps before ⟨some ⟨column, (restoreBatches before).flatten⟩⟩ := by
  refine ⟨_, rfl, ?_⟩
  rw [flatten_restoreBatches, List.map_map]
  rfl

/-- A batch that is missing has rows that are. -/
theorem Lost.not_stillStored {db : LanceDb} (hids : (before.map (·.id)).Nodup)
    (hne : before ≠ []) (h : Lost before db) : ¬StillStored before db := by
  intro hstored
  rcases h with hnone | ⟨column, j, hj, hdb⟩
  · obtain ⟨r, hr⟩ := List.exists_mem_of_ne_nil _ hne
    obtain ⟨t, ht, -⟩ := hstored r hr
    rw [hnone] at ht
    cases ht
  · -- distinct ids, all among those of fewer rows
    have hsub : before.map (·.id) ⊆ ((restoreBatches before).take j).flatten.map (·.id) := by
      intro i hi
      obtain ⟨r, hr, rfl⟩ := List.mem_map.1 hi
      obtain ⟨t, ht, r', hr', hcore⟩ := hstored r hr
      rw [hdb] at ht
      obtain rfl := Option.some.inj ht
      have hid : r'.core.id = r.core.id := by rw [hcore]
      exact List.mem_map.2 ⟨r', hr', hid⟩
    have hle := (List.subperm_of_subset hids hsub).length_le
    have hflat := congrArg List.length (flatten_restoreBatches before)
    rw [← List.take_append_drop j (restoreBatches before), List.flatten_append,
      List.length_append, List.length_map] at hflat
    have hdrop : 0 < ((restoreBatches before).drop j).flatten.length := by
      cases hd : (restoreBatches before).drop j with
      | nil =>
        have := List.drop_eq_nil_iff.1 hd
        omega
      | cons b bs =>
        have hb : b ∈ restoreBatches before := List.mem_of_mem_drop (hd ▸ List.mem_cons_self)
        have := List.length_pos_iff.2 (ne_nil_of_mem_slices (by decide) hb)
        simp only [List.flatten_cons, List.length_append]
        omega
    simp only [List.length_map] at hle
    omega

theorem restoreBatches_pos (hne : before ≠ []) : 0 < (restoreBatches before).length := by
  refine List.length_pos_iff.2 fun hnil => hne ?_
  have hflat := flatten_restoreBatches before
  rw [hnil, List.flatten_nil] at hflat
  exact List.map_eq_nil_iff.1 hflat.symm

/-- A table just created has no rows. -/
theorem lost_empty (hne : before ≠ []) (column : EmbeddingColumn) :
    Lost before ⟨some ⟨column, []⟩⟩ :=
  Or.inr ⟨column, 0, restoreBatches_pos hne, by rw [List.take_zero, List.flatten_nil]⟩

section Recreate

variable {dims : ℕ} {column : EmbeddingColumn}

/-- The operations before the first append, when they return. -/
theorem recreateTable_ok (hstored : Stored json before) (os : List Outcome) :
    recreateTable json dims ⟨some ⟨column, before⟩⟩ (.ok :: .ok :: .ok :: .ok :: os) =
      (restoreBatches before).forM restoreBatch ⟨some ⟨.fixedSize dims, []⟩⟩ os := by
  have hquery : Prog.query (σ := LanceDb) LanceError.json
      (fun _ => before.mapM (restoreRow json)) ⟨some ⟨.fixedSize dims, []⟩⟩ (.ok :: os) =
        .done (before.map restored) ⟨some ⟨.fixedSize dims, []⟩⟩ os := by
    simp [Prog.query, Prog.action, restoreRows_eq hstored]
  show (Prog.query LanceError.json (fun _ => before.mapM (restoreRow json)) >>= fun restored =>
    (slices restoreBatchSize restored).forM restoreBatch) _ (.ok :: os) = _
  rw [Prog.bind_done _ hquery]
  rfl

/-- The rows were converted, and something raises then. -/
theorem recreateTable_conversion (hstored : Stored json before) (os : List Outcome) :
    (recreateTable json dims ⟨some ⟨column, before⟩⟩
        (.ok :: .ok :: .ok :: .failedAfter :: os)).isDone = false ∧
      (recreateTable json dims ⟨some ⟨column, before⟩⟩
        (.ok :: .ok :: .ok :: .failedAfter :: os)).state = ⟨some ⟨.fixedSize dims, []⟩⟩ := by
  have hquery : Prog.query (σ := LanceDb) LanceError.json
      (fun _ => before.mapM (restoreRow json)) ⟨some ⟨.fixedSize dims, []⟩⟩
      (.failedAfter :: os) = .error .json ⟨some ⟨.fixedSize dims, []⟩⟩ os := by
    simp [Prog.query, Prog.action, restoreRows_eq hstored]
  have hdone := congrArg Result.isDone hquery
  refine ⟨Prog.isDone_bind (fun restored =>
    (slices restoreBatchSize restored).forM restoreBatch) hdone, ?_⟩
  exact (Prog.state_bind (fun restored =>
    (slices restoreBatchSize restored).forM restoreBatch) hdone).trans
      (congrArg Result.state hquery)

/-- Cut before the drop takes effect, the recreation changes nothing. -/
theorem recreateTable_early (json : Json μ) (before : List ChunkRow) (dims : ℕ)
    (column : EmbeddingColumn) : ∀ os : List Outcome, effects os ≤ 1 →
    (recreateTable json dims ⟨some ⟨column, before⟩⟩ os).isDone = false ∧
      (recreateTable json dims ⟨some ⟨column, before⟩⟩ os).state = ⟨some ⟨column, before⟩⟩
  | [], _ => ⟨rfl, rfl⟩
  | .failed :: _, _ => ⟨rfl, rfl⟩
  | .failedAfter :: _, _ => ⟨rfl, rfl⟩
  | [.ok], _ => ⟨rfl, rfl⟩
  | .ok :: .failed :: _, _ => ⟨rfl, rfl⟩
  | .ok :: .failedAfter :: _, h => by simp [effects] at h
  | .ok :: .ok :: _, h => by simp [effects] at h

/-- Cut between the drop and the last append, it loses rows. -/
theorem recreateTable_cut (dims : ℕ) (column : EmbeddingColumn) (hstored : Stored json before)
    (hne : before ≠ []) :
    ∀ os : List Outcome, 2 ≤ effects os → effects os < 4 + 2 * (restoreBatches before).length →
      (recreateTable json dims ⟨some ⟨column, before⟩⟩ os).isDone = false ∧
        Lost before (recreateTable json dims ⟨some ⟨column, before⟩⟩ os).state
  | .ok :: .failedAfter :: _, _, _ => ⟨rfl, Or.inl rfl⟩
  | [.ok, .ok], _, _ => ⟨rfl, Or.inl rfl⟩
  | .ok :: .ok :: .failed :: _, _, _ => ⟨rfl, Or.inl rfl⟩
  | .ok :: .ok :: .failedAfter :: _, _, _ => ⟨rfl, lost_empty hne _⟩
  | [.ok, .ok, .ok], _, _ => ⟨rfl, lost_empty hne _⟩
  | .ok :: .ok :: .ok :: .failed :: _, _, _ => ⟨rfl, lost_empty hne _⟩
  | .ok :: .ok :: .ok :: .failedAfter :: os, _, _ => by
    obtain ⟨hdone, hstate⟩ := recreateTable_conversion hstored os
    exact ⟨hdone, hstate.symm ▸ lost_empty hne _⟩
  | .ok :: .ok :: .ok :: .ok :: os, _, h => by
    rw [recreateTable_ok hstored]
    have hreturns : returns os < 2 * (restoreBatches before).length := by
      have := returns_le_effects os
      simp only [effects] at h
      omega
    obtain ⟨hcut, hstate⟩ := restoreBatches_cut (restoreBatches before) ⟨.fixedSize dims, []⟩ os
      hreturns
    refine ⟨hcut, Or.inr ⟨.fixedSize dims, effects os / 2, ?_, ?_⟩⟩
    · simp only [effects] at h
      omega
    · rw [hstate, List.nil_append]
  | [], h, _ => by simp [effects] at h
  | .failed :: _, h, _ => by simp [effects] at h
  | .failedAfter :: _, h, _ => by simp [effects] at h
  | [.ok], h, _ => by simp [effects] at h
  | .ok :: .failed :: _, h, _ => by simp [effects] at h

/-- From the last append on, every row is there. -/
theorem recreateTable_late (hstored : Stored json before) :
    ∀ os : List Outcome, 4 + 2 * (restoreBatches before).length ≤ effects os →
      Keeps before (recreateTable json dims ⟨some ⟨column, before⟩⟩ os).state
  | .ok :: .ok :: .ok :: .ok :: os, h => by
    have heffects : 2 * (restoreBatches before).length ≤ effects os := by
      simp only [effects] at h
      omega
    rw [recreateTable_ok hstored]
    by_cases hreturns : 2 * (restoreBatches before).length ≤ returns os
    · rw [restoreBatches_done _ _ _ hreturns]
      exact keeps_restored before _
    · have := effects_le_returns os
      obtain ⟨-, hstate⟩ := restoreBatches_cut (restoreBatches before) ⟨.fixedSize dims, []⟩ os
        (Nat.lt_of_not_le hreturns)
      rw [hstate, List.take_of_length_le (by omega), List.nil_append]
      exact keeps_restored before _
  | [], h => by simp [effects] at h
  | .failed :: _, h => by simp [effects] at h
  | .failedAfter :: _, h => by simp [effects] at h; omega
  | [.ok], h => by simp [effects] at h; omega
  | .ok :: .failed :: _, h => by simp [effects] at h; omega
  | .ok :: .failedAfter :: _, h => by simp [effects] at h; omega
  | [.ok, .ok], h => by simp [effects] at h; omega
  | .ok :: .ok :: .failed :: _, h => by simp [effects] at h; omega
  | .ok :: .ok :: .failedAfter :: _, h => by simp [effects] at h; omega
  | [.ok, .ok, .ok], h => by simp [effects] at h; omega
  | .ok :: .ok :: .ok :: .failed :: _, h => by simp [effects] at h; omega
  | .ok :: .ok :: .ok :: .failedAfter :: os, h => by
    -- there is nothing to write back
    have hnil : restoreBatches before = [] := by
      refine List.length_eq_zero_iff.1 ?_
      simp only [effects] at h
      omega
    rw [(recreateTable_conversion hstored os).2]
    have hkeeps : Keeps before _ := keeps_restored before (.fixedSize dims)
    rwa [hnil] at hkeeps

end Recreate

/-! ## Merging keeps the rows -/

/-- A list of rows of the table, with their columns. -/
def FromRows (before rows : List ChunkRow) : Prop :=
  ∀ x ∈ rows, ∃ r ∈ before, x.core = r.core

theorem toPandas_keeps : Triple (Keeps before) toPandas
    (fun rows db => Keeps before db ∧ FromRows before rows) (Keeps before) := by
  refine (Triple.query fun _ h => h).conseq (fun _ h => h) ?_
  rintro rows db ⟨hkeeps, hread⟩
  refine ⟨hkeeps, fun x hx => ?_⟩
  obtain ⟨t, ht, hrows⟩ := hkeeps
  rw [ht] at hread
  obtain rfl := Option.some.inj hread
  obtain ⟨r, hr, hcore⟩ := List.mem_map.1 (hrows ▸ List.mem_map_of_mem hx)
  exact ⟨r, hr, hcore.symm⟩

theorem FromRows.filter {rows : List ChunkRow} (h : FromRows before rows) (p : ChunkRow → Bool) :
    FromRows before (rows.filter p) :=
  fun x hx => h x (List.mem_of_mem_filter hx)

theorem FromRows.append {xs ys : List ChunkRow} (hx : FromRows before xs)
    (hy : FromRows before ys) : FromRows before (xs ++ ys) :=
  fun x hmem => (List.mem_append.1 hmem).elim (hx x) (hy x)

theorem readPages_keeps (pagination : Bool) (ids : List ℤ) :
    ∀ (pages offset : ℕ) (acc : List ChunkRow), FromRows before acc →
      Triple (Keeps before) (readPages pagination ids pages offset acc)
        (fun rows db => Keeps before db ∧ FromRows before rows) (Keeps before)
  | 0, _, acc, hacc => Triple.pure _ fun _ h => ⟨h, hacc⟩
  | pages + 1, offset, acc, hacc => by
    refine Triple.bind toPandas_keeps fun rows => Triple.and_pre fun hrows => ?_
    have hpage : FromRows before ((rows.drop offset).take pageSize) := fun x hx =>
      hrows x (List.mem_of_mem_drop (List.mem_of_mem_take hx))
    split
    · dsimp only
      split
      · exact Triple.pure _ fun _ h => ⟨h, hacc.append (hpage.filter _)⟩
      · exact readPages_keeps pagination ids pages _ _ (hacc.append (hpage.filter _))
    · exact Triple.pure _ fun _ h => ⟨h, hacc.append (hrows.filter _)⟩

theorem readExisting_keeps (pagination : Bool) (ids : List ℤ) :
    Triple (Keeps before) (readExisting pagination ids)
      (fun rows db => Keeps before db ∧ FromRows before rows) (Keeps before) := by
  refine Triple.tryCatch ?_ fun _ => ?_
  · refine Triple.bind toPandas_keeps fun rows => Triple.and_pre fun hrows => ?_
    exact Triple.pure _ fun _ h => ⟨h, hrows.filter _⟩
  · refine Triple.bind toPandas_keeps fun rows => Triple.and_pre fun _ => ?_
    exact readPages_keeps pagination ids _ _ _ fun _ hx => absurd hx List.not_mem_nil

/-- A merged row has the columns of the row it was built from. -/
theorem mergedRow_core {batch : List EmbeddingData} {x y : ChunkRow}
    (hx : ∃ m, x.metadata = serializeMetadata json m)
    (h : mergedRow json batch x = some (some y)) : y.core = x.core := by
  obtain ⟨m, hm⟩ := hx
  unfold mergedRow at h
  split at h
  · cases h
  · rw [hm, reserialize_serialize, Option.map_some] at h
    obtain rfl := Option.some.inj (Option.some.inj h)
    simp [ChunkRow.core, hm]

theorem mem_of_mapM {α β : Type} {f : α → Option β} :
    ∀ {xs : List α} {ys : List β}, xs.mapM f = some ys → ∀ y ∈ ys, ∃ x ∈ xs, f x = some y
  | [], ys, h, y, hy => by
    obtain rfl := Option.some.inj h
    exact absurd hy List.not_mem_nil
  | x :: xs, ys, h, y, hy => by
    rw [List.mapM_cons] at h
    obtain ⟨z, hz, h⟩ := Option.bind_eq_some_iff.1 h
    obtain ⟨zs, hzs, h⟩ := Option.bind_eq_some_iff.1 h
    obtain rfl := Option.some.inj h
    rcases List.mem_cons.1 hy with rfl | hy
    · exact ⟨x, List.mem_cons_self, hz⟩
    · obtain ⟨x', hx', hf⟩ := mem_of_mapM hzs y hy
      exact ⟨x', List.mem_cons_of_mem _ hx', hf⟩

/-- Replacing rows by rows with the same columns. -/
theorem mergeRows_keeps (hstored : Stored json before) {source : List ChunkRow}
    (hsource : FromRows before source) :
    Triple (Keeps before) (mergeRows source) (fun _ => Keeps before) (Keeps before) := by
  refine Triple.act (fun _ h => h) fun db db' h hd => ?_
  obtain ⟨t, ht, rfl⟩ := Option.map_eq_some_iff.1 hd
  have ht' := h
  obtain ⟨t', ht₂, hrows⟩ := ht'
  obtain rfl : t' = t := Option.some.inj (ht₂.symm.trans ht)
  suffices hmap : (t'.rows.map fun r => (source.find? fun x => x.id = r.id).getD r).map (·.core) =
      t'.rows.map (·.core) from ⟨⟨_, rfl, hmap.trans hrows⟩, ⟨_, rfl, hmap.trans hrows⟩⟩
  rw [List.map_map]
  refine List.map_congr_left fun r hr => ?_
  show ((source.find? fun x => x.id = r.id).getD r).core = r.core
  cases hf : source.find? fun x => x.id = r.id with
  | none => rfl
  | some x =>
    -- both come from the row with that id
    have hid : x.id = r.id := by simpa using List.find?_some hf
    obtain ⟨b, hb, hxb⟩ := hsource x (List.mem_of_find?_eq_some hf)
    obtain ⟨b', hb', hrb⟩ := List.mem_map.1 (hrows ▸ List.mem_map_of_mem hr)
    have hbid : b.id = b'.id := by
      have h1 : x.core.id = b.core.id := by rw [hxb]
      have h2 : b'.core.id = r.core.id := by rw [hrb]
      exact h1.symm.trans (hid.trans h2.symm)
    obtain rfl := List.inj_on_of_nodup_map hstored.ids hb hb' hbid
    exact hxb.trans hrb

theorem execute_keeps {P : LanceDb → Prop} : Triple P execute (fun _ => P) P :=
  Triple.act (fun _ h => h) fun d d' h hd => by
    obtain rfl := Option.some.inj hd
    exact ⟨h, h⟩

theorem mergeBatch_keeps (hstored : Stored json before) (pagination : Bool)
    (batch : List EmbeddingData) :
    Triple (Keeps before) (mergeBatch json pagination batch) (fun _ => Keeps before)
      (Keeps before) := by
  refine Triple.bind (readExisting_keeps pagination _) fun existing => Triple.and_pre fun hex => ?_
  refine Triple.bind (Triple.query fun _ h => h) fun merged => Triple.and_pre fun hmerged => ?_
  have hsource : FromRows before (merged.filterMap id) := by
    intro y hy
    obtain ⟨o, ho, hoy⟩ := List.mem_filterMap.1 hy
    obtain rfl : o = some y := hoy
    obtain ⟨x, hx, hxy⟩ := mem_of_mapM hmerged _ ho
    obtain ⟨r, hr, hcore⟩ := hex x hx
    have hmeta : x.core.metadata = r.core.metadata := by rw [hcore]
    have hmeta : x.metadata = r.metadata := hmeta
    obtain ⟨m, hm⟩ := hstored.metadata r hr
    exact ⟨r, hr, (mergedRow_core ⟨m, hmeta.trans hm⟩ hxy).trans hcore⟩
  dsimp only
  split
  · exact Triple.pure _ fun _ h => h
  · refine Triple.seq execute_keeps (Triple.seq (mergeRows_keeps hstored hsource) ?_)
    exact Triple.pure _ fun _ h => h

/-- Merging changes no column but those of the vector, wherever it is cut. -/
theorem updateEmbeddings_keeps (hstored : Stored json before) (pagination : Bool) (size : ℕ)
    (data : List EmbeddingData) :
    Triple (Keeps before) (updateEmbeddings json pagination size data) (fun _ => Keeps before)
      (Keeps before) := by
  unfold updateEmbeddings
  split
  · exact Triple.throw _ fun _ h => h
  · refine Triple.bind (Triple.foldlM (fun total batch => ?_) _ _) fun total => ?_
    · exact (mergeBatch_keeps hstored pagination batch).bind fun _ => Triple.pure _ fun _ h => h
    · refine Triple.bind toPandas_keeps fun rows => Triple.and_pre fun _ => ?_
      refine Triple.seq (M := Keeps before) ?_ (Triple.pure _ fun _ h => h)
      unfold createVectorIndex
      split
      · exact Triple.attempt execute_keeps fun _ h => h
      · exact Triple.pure _ fun _ h => h

/-- What the merging is left with when the table was prepared. -/
theorem insertEmbeddings_of_prepared (hstored : Stored json before) {p : LanceM Unit}
    {db : LanceDb} {os : List Outcome} (pagination : Bool) (size : ℕ)
    (data : List EmbeddingData) (h : Keeps before (p db os).state) :
    Keeps before ((p >>= fun _ => updateEmbeddings json pagination size data) db os).state := by
  cases hr : p db os with
  | done u db' os' =>
    rw [hr] at h
    rw [Prog.bind_done _ hr]
    have hm := updateEmbeddings_keeps hstored pagination size data db' h os'
    cases hu : updateEmbeddings json pagination size data db' os' with
    | done n d rest =>
      rw [hu] at hm
      exact hm
    | error e d rest =>
      rw [hu] at hm
      exact hm
    | killed d =>
      rw [hu] at hm
      exact hm
  | error e db' os' =>
    have hstate := Prog.state_bind (fun _ => updateEmbeddings json pagination size data)
      (congrArg Result.isDone hr)
    rwa [hstate]
  | killed db' =>
    have hstate := Prog.state_bind (fun _ => updateEmbeddings json pagination size data)
      (congrArg Result.isDone hr)
    rwa [hstate]

/-- The rows survive vectors of another dimension exactly when the run is not cut between the
drop and the last append, or there are none. -/
theorem stillStored_iff (hstored : Stored json before) {column : EmbeddingColumn}
    (pagination : Bool) (batchSize : Option ℕ) {e : EmbeddingData} {data : List EmbeddingData}
    (he : e.embedding ≠ []) (hcolumn : needsRecreation e.embedding.length column = true)
    (os : List Outcome) :
    StillStored before (insertEmbeddingsBatch json pagination batchSize (e :: data)
        ⟨some ⟨column, before⟩⟩ os).state ↔
      before = [] ∨ effects os ≤ 1 ∨ 4 + 2 * (restoreBatches before).length ≤ effects os := by
  have hrun : insertEmbeddingsBatch json pagination batchSize (e :: data)
      ⟨some ⟨column, before⟩⟩ os = (recreateTable json e.embedding.length >>= fun _ =>
        updateEmbeddings json pagination (batchSize.getD (min 10000 (e :: data).length))
          (e :: data)) ⟨some ⟨column, before⟩⟩ os := by
    show (if e.embedding = [] then pure 0 else
      prepareTable json e.embedding.length column >>= fun _ => updateEmbeddings json pagination
        (batchSize.getD (min 10000 (e :: data).length)) (e :: data) : LanceM ℕ) _ os = _
    rw [if_neg he, prepareTable, if_pos hcolumn]
  rw [hrun]
  constructor
  · intro h
    by_contra hnot
    simp only [not_or] at hnot
    obtain ⟨hne, hearly, hlate⟩ := hnot
    obtain ⟨hdone, hlost⟩ :=
      recreateTable_cut e.embedding.length column hstored hne os (by omega) (by omega)
    rw [Prog.state_bind _ hdone] at h
    exact hlost.not_stillStored hstored.ids hne h
  · rintro (rfl | hearly | hlate)
    · exact fun r hr => absurd hr List.not_mem_nil
    · obtain ⟨hdone, hstate⟩ := recreateTable_early json before e.embedding.length column os
        hearly
      rw [Prog.state_bind _ hdone, hstate]
      exact Keeps.stillStored ⟨_, rfl, rfl⟩
    · exact (insertEmbeddings_of_prepared hstored pagination _ _
        (recreateTable_late hstored os hlate)).stillStored

end Json

/-- Metadata that is never there. -/
def noMetadata : Json Unit where
  empty := ()
  isEmpty _ := true
  dumps _ := "{}"
  loads _ := some ()
  isEmpty_empty := rfl
  loads_dumps _ := rfl

/-- A chunk of a table made before the dimension was known. -/
def storedChunk : ChunkRow where
  id := 7
  fileId := 1
  content := "x = 1"
  startLine := 1
  endLine := 1
  chunkType := "variable"
  language := "python"
  name := some "x"
  embedding := none
  provider := none
  model := none
  createdTime := 0
  metadata := none

theorem stored_storedChunk : Stored noMetadata [storedChunk] where
  ids := List.nodup_singleton _
  metadata r hr := ⟨(), by rw [List.mem_singleton.1 hr]; rfl⟩

/-- Killed right after `drop_table`, the one chunk is gone. -/
theorem killed_after_drop : ¬StillStored [storedChunk] (insertEmbeddingsBatch noMetadata true none
    [⟨7, [⟨0⟩], "p", "m"⟩] ⟨some ⟨.variableSize, [storedChunk]⟩⟩ [.ok, .ok]).state := by
  intro h
  obtain ⟨t, ht, -⟩ := h storedChunk (List.mem_singleton_self _)
  cases ht

theorem returned_keeps : StillStored [storedChunk] (insertEmbeddingsBatch noMetadata true none
    [⟨7, [⟨0⟩], "p", "m"⟩] ⟨some ⟨.variableSize, [storedChunk]⟩⟩
    (List.replicate 20 .ok)).state :=
  (stillStored_iff stored_storedChunk true none (List.cons_ne_nil _ _) rfl _).2
    (Or.inr (Or.inr (by decide)))

end ChunkHound.Lance
