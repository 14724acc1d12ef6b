import ChunkHound.NativeStore
import Mathlib

/-!
# What the store's statements do to the tables

`Db.WF` is what the schema enforces : primary key, unique path, the foreign key of
`chunks`, ids below the sequence. Every statement keeps it, and each gets one lemma that
says which rows it leaves and which chunks a row owns after it. Later modules use these
and do not unfold the statements.
-/

namespace ChunkHound

open StepSystem Slices

/-- The constraints of the schema. -/
structure Db.WF (db : Db) : Prop where
  nodupId : (db.files.map (·.id)).Nodup
  nodupPath : (db.files.map (·.path)).Nodup
  idLt : ∀ r ∈ db.files, r.id < db.filesIdSeq
  fk : ∀ c ∈ db.chunks, ∃ r ∈ db.files, r.id = c.fileId

theorem Db.wf_empty : Db.empty.WF :=
  ⟨by simp [Db.empty], by simp [Db.empty], by simp [Db.empty], by simp [Db.empty]⟩

namespace Db.WF

variable {db : Db} (h : db.WF)
include h

theorem eq_of_id {r r' : FileRow} (hr : r ∈ db.files) (hr' : r' ∈ db.files)
    (he : r.id = r'.id) : r = r' :=
  List.inj_on_of_nodup_map h.nodupId hr hr' he

theorem eq_of_path {r r' : FileRow} (hr : r ∈ db.files) (hr' : r' ∈ db.files)
    (he : r.path = r'.path) : r = r' :=
  List.inj_on_of_nodup_map h.nodupPath hr hr' he

theorem pathOf_id {r : FileRow} (hr : r ∈ db.files) : db.pathOf r.id = some r.path := by
  rw [Db.pathOf, find?_key h.nodupId hr]
  rfl

theorem id_mem_fileIdsOf {r : FileRow} (hr : r ∈ db.files) {paths : List String} :
    r.id ∈ db.fileIdsOf paths ↔ r.path ∈ paths := by
  simp only [Db.fileIdsOf, List.mem_map, List.mem_filter, decide_eq_true_eq]
  constructor
  · rintro ⟨r', ⟨hr', hp⟩, hid⟩
    rwa [← h.eq_of_id hr' hr hid]
  · exact fun hp => ⟨r, ⟨hr, hp⟩, rfl⟩

/-- A fresh id owns nothing. -/
theorem ownedChunks_eq_nil {id : ℕ} (hid : ∀ r ∈ db.files, r.id ≠ id) :
    db.ownedChunks id = [] := by
  refine List.filter_eq_nil_iff.2 fun c hc => ?_
  obtain ⟨r, hr, he⟩ := h.fk c hc
  have := hid r hr
  simpa [← he] using this

end Db.WF

variable {db : Db}

theorem Db.exists_of_pathOf {id : ℕ} {p : String} (h : db.pathOf id = some p) :
    ∃ r ∈ db.files, r.id = id ∧ r.path = p := by
  obtain ⟨r, hr, rfl⟩ := Option.map_eq_some_iff.1 h
  exact ⟨r, List.mem_of_find?_eq_some hr, by simpa using List.find?_some hr, rfl⟩

theorem Db.mem_fileIdsOf {paths : List String} {id : ℕ} :
    id ∈ db.fileIdsOf paths ↔ ∃ r ∈ db.files, r.path ∈ paths ∧ r.id = id := by
  simp [Db.fileIdsOf, and_assoc]

/-! ## Rewriting rows in place -/

variable {g : FileRow → FileRow}

/-- Rewriting rows without touching ids or paths keeps the constraints. -/
theorem Db.WF.mapFiles (h : db.WF)
    (hid : ∀ r ∈ db.files, (g r).id = r.id) (hpath : ∀ r ∈ db.files, (g r).path = r.path) :
    Db.WF { db with files := db.files.map g } where
  nodupId := by
    have : (db.files.map g).map (·.id) = db.files.map (·.id) := by
      rw [List.map_map]
      exact List.map_congr_left hid
    simpa only [this] using h.nodupId
  nodupPath := by
    have : (db.files.map g).map (·.path) = db.files.map (·.path) := by
      rw [List.map_map]
      exact List.map_congr_left hpath
    simpa only [this] using h.nodupPath
  idLt r hr := by
    obtain ⟨r', hr', rfl⟩ := List.mem_map.1 hr
    rw [hid r' hr']
    exact h.idLt r' hr'
  fk c hc := by
    obtain ⟨r, hr, he⟩ := h.fk c hc
    exact ⟨g r, List.mem_map_of_mem hr, (hid r hr).trans he⟩

@[simp] theorem Db.updateFiles_ownedChunks (db : Db) (p : FileRow → Bool)
    (g : FileRow → FileRow) (id : ℕ) :
    (db.updateFiles p g).1.ownedChunks id = db.ownedChunks id :=
  rfl

variable {p : FileRow → Bool}

theorem Db.mem_updateFiles {r : FileRow} : r ∈ (db.updateFiles p g).1.files ↔
      ∃ r' ∈ db.files, (if p r' then g r' else r') = r := by
  simp [Db.updateFiles]

theorem Db.updateFiles_fileIdsOf (db : Db) (hid : ∀ r, (g r).id = r.id)
    (hpath : ∀ r, (g r).path = r.path) (p : FileRow → Bool) (paths : List String) :
    (db.updateFiles p g).1.fileIdsOf paths = db.fileIdsOf paths := by
  have hg : ∀ r : FileRow, (if p r then g r else r).id = r.id ∧
      (if p r then g r else r).path = r.path := by
    intro r
    split <;> simp [hid, hpath]
  simp [Db.fileIdsOf, Db.updateFiles, List.filter_map, Function.comp_def, hg]

theorem Db.WF.updateFiles (h : db.WF)
    (hid : ∀ r, (g r).id = r.id) (hpath : ∀ r, (g r).path = r.path) :
    (db.updateFiles p g).1.WF :=
  h.mapFiles (fun r _ => by split <;> simp [hid]) (fun r _ => by split <;> simp [hpath])

/-! ## Deleting chunks -/

@[simp] theorem Db.deleteChunksOf_files (db : Db) (ids : List ℕ) :
    (db.deleteChunksOf ids).files = db.files :=
  rfl

theorem Db.deleteChunksOf_ownedChunks (db : Db) (ids : List ℕ) (id : ℕ) :
    (db.deleteChunksOf ids).ownedChunks id = if id ∈ ids then [] else db.ownedChunks id := by
  unfold Db.ownedChunks Db.deleteChunksOf
  rw [List.filter_filter]
  split
  · rename_i hid
    refine List.filter_eq_nil_iff.2 fun c _ => ?_
    simp only [Bool.and_eq_true, decide_eq_true_eq, not_and]
    rintro rfl
    exact not_not.2 hid
  · rename_i hid
    refine List.filter_congr fun c _ => ?_
    by_cases hc : c.fileId = id
    · simp [hc, hid]
    · simp [hc]

theorem Db.WF.deleteChunksOf (h : db.WF) (ids : List ℕ) :
    (db.deleteChunksOf ids).WF where
  nodupId := h.nodupId
  nodupPath := h.nodupPath
  idLt := h.idLt
  fk c hc := h.fk c (List.mem_of_mem_filter hc)

/-- What a batch-by-batch delete of chunks leaves. -/
theorem foldl_deleteChunksOf :
    ∀ (bs : List (List String)) (db : Db), db.WF →
      let db' := bs.foldl (fun db batch => db.deleteChunksOf (db.fileIdsOf batch)) db
      db'.WF ∧ db'.files = db.files ∧ ∀ id, db'.ownedChunks id =
        if id ∈ db.fileIdsOf bs.flatten then [] else db.ownedChunks id
  | [], db, h => ⟨h, rfl, fun id => by simp [Db.fileIdsOf]⟩
  | b :: bs, db, h => by
    obtain ⟨hwf, hfiles, howned⟩ :=
      foldl_deleteChunksOf bs (db.deleteChunksOf (db.fileIdsOf b)) (h.deleteChunksOf _)
    refine ⟨hwf, hfiles, fun id => ?_⟩
    rw [List.foldl_cons, howned, Db.deleteChunksOf_ownedChunks]
    have hrest : (db.deleteChunksOf (db.fileIdsOf b)).fileIdsOf bs.flatten =
        db.fileIdsOf bs.flatten := rfl
    have hflat : id ∈ db.fileIdsOf (b ++ bs.flatten) ↔
        id ∈ db.fileIdsOf b ∨ id ∈ db.fileIdsOf bs.flatten := by
      simp only [Db.mem_fileIdsOf, List.mem_append]
      constructor
      · rintro ⟨r, hr, hp | hp, he⟩
        · exact Or.inl ⟨r, hr, hp, he⟩
        · exact Or.inr ⟨r, hr, hp, he⟩
      · rintro (⟨r, hr, hp, he⟩ | ⟨r, hr, hp, he⟩)
        · exact ⟨r, hr, Or.inl hp, he⟩
        · exact ⟨r, hr, Or.inr hp, he⟩
    rw [hrest, List.flatten_cons, if_congr hflat rfl rfl]
    by_cases h₁ : id ∈ db.fileIdsOf b <;> by_cases h₂ : id ∈ db.fileIdsOf bs.flatten <;>
      simp [h₁, h₂]

section DeletePaths

variable {db : Db} (h : db.WF) (paths : List String)
include h

theorem Db.WF.deletePathsPhase1 : (deletePathsPhase1 db paths).WF :=
  (foldl_deleteChunksOf _ db h).1

theorem deletePathsPhase1_files : (deletePathsPhase1 db paths).files = db.files :=
  (foldl_deleteChunksOf _ db h).2.1

/-- Phase 1 leaves the rows of `paths` without chunks and the other rows alone. -/
theorem deletePathsPhase1_ownedChunks (id : ℕ) :
    (deletePathsPhase1 db paths).ownedChunks id =
      if id ∈ db.fileIdsOf paths then [] else db.ownedChunks id := by
  have := (foldl_deleteChunksOf (slices deleteBatch paths) db h).2.2 id
  rwa [flatten_slices (by decide)] at this

end DeletePaths

/-- A phase-2 statement whose rows own no chunks deletes them. -/
theorem deletePathsPhase2_ok {batch : List String}
    (hown : ∀ r ∈ db.files, r.path ∈ batch → db.ownedChunks r.id = []) :
    deletePathsPhase2 db batch =
      .ok { db with files := db.files.filter (·.path ∉ batch) } := by
  unfold deletePathsPhase2
  rw [if_neg]
  intro hany
  obtain ⟨c, hc, hid⟩ := List.any_eq_true.1 hany
  obtain ⟨r, hr, hp, he⟩ := Db.mem_fileIdsOf.1 (of_decide_eq_true hid)
  have : c ∈ db.ownedChunks r.id := by simp [Db.ownedChunks, hc, he]
  simp [hown r hr hp] at this

theorem Db.WF.filterFiles (h : db.WF) {batch : List String}
    (hown : ∀ r ∈ db.files, r.path ∈ batch → db.ownedChunks r.id = []) :
    Db.WF { db with files := db.files.filter (·.path ∉ batch) } where
  nodupId := h.nodupId.sublist (List.filter_sublist.map _)
  nodupPath := h.nodupPath.sublist (List.filter_sublist.map _)
  idLt r hr := h.idLt r (List.mem_of_mem_filter hr)
  fk c hc := by
    obtain ⟨r, hr, he⟩ := h.fk c hc
    refine ⟨r, List.mem_filter.2 ⟨hr, decide_eq_true fun hp => ?_⟩, he⟩
    have : c ∈ db.ownedChunks r.id := by simp [Db.ownedChunks, hc, he]
    simp [hown r hr hp] at this

/-! ## The pre-delete -/

section PreDelete

variable {db : Db} (h : db.WF) (batch : DbWriterBatch)
include h

theorem mem_byId_or_byPath {r : FileRow} (hr : r ∈ db.files) :
    r.id ∈ byId db batch.files ∨ r.path ∈ byPath db batch.files ↔
      ∃ f ∈ batch.files, f.path = r.path := by
  constructor
  · rintro (hid | hp)
    · obtain ⟨f, hf, he⟩ := List.mem_filterMap.1 hid
      obtain ⟨-, hp⟩ := Option.filter_eq_some_iff.1 he
      rw [h.pathOf_id hr] at hp
      exact ⟨f, hf, by simpa using (of_decide_eq_true hp).symm⟩
    · obtain ⟨f, hf, he⟩ := List.mem_map.1 hp
      exact ⟨f, List.mem_of_mem_filter hf, he⟩
  · rintro ⟨f, hf, he⟩
    cases hid : f.existingFileId with
    | none =>
      refine Or.inr (List.mem_map.2 ⟨f, List.mem_filter.2 ⟨hf, ?_⟩, he⟩)
      simp [hid]
    | some id =>
      by_cases hp : db.pathOf id = some f.path
      · obtain ⟨r', hr', rfl, hpath⟩ := Db.exists_of_pathOf hp
        obtain rfl := h.eq_of_path hr' hr (hpath.trans he)
        refine Or.inl (List.mem_filterMap.2 ⟨f, hf, ?_⟩)
        simp [hid, hp]
      · refine Or.inr (List.mem_map.2 ⟨f, List.mem_filter.2 ⟨hf, ?_⟩, he⟩)
        simp [hid, hp]

/-- The rows the batch upserts become dirty. -/
theorem preDeleteForUpsert_files : (preDeleteForUpsert db batch).files =
    db.files.map fun r => if r.path ∈ batch.files.map (·.path) then r.dirty else r := by
  have hfiles : (preDeleteForUpsert db batch).files =
      (db.files.map fun r => if r.id ∈ byId db batch.files then r.dirty else r).map
        fun r => if r.path ∈ byPath db batch.files then r.dirty else r := by
    simp [preDeleteForUpsert, Db.updateFiles]
  rw [hfiles, List.map_map]
  refine List.map_congr_left fun r hr => ?_
  have hmem : r.path ∈ batch.files.map (·.path) ↔
      r.id ∈ byId db batch.files ∨ r.path ∈ byPath db batch.files := by
    rw [mem_byId_or_byPath h batch hr]
    simp
  by_cases hid : r.id ∈ byId db batch.files <;> by_cases hp : r.path ∈ byPath db batch.files <;>
    simp [hid, hp, hmem, FileRow.dirty]

theorem Db.WF.preDeleteForUpsert : (preDeleteForUpsert db batch).WF := by
  have h₁ := (h.updateFiles (p := (·.id ∈ byId db batch.files)) (g := FileRow.dirty)
    (fun _ => rfl) fun _ => rfl).deleteChunksOf (byId db batch.files)
  exact (h₁.updateFiles (p := (·.path ∈ byPath db batch.files)) (g := FileRow.dirty)
    (fun _ => rfl) fun _ => rfl).deleteChunksOf _

/-- The rows the batch upserts lose their chunks, the others keep theirs. -/
theorem preDeleteForUpsert_ownedChunks {r : FileRow} (hr : r ∈ db.files) :
    (preDeleteForUpsert db batch).ownedChunks r.id =
      if r.path ∈ batch.files.map (·.path) then [] else db.ownedChunks r.id := by
  unfold ChunkHound.preDeleteForUpsert
  rw [Db.deleteChunksOf_ownedChunks, Db.updateFiles_ownedChunks, Db.deleteChunksOf_ownedChunks,
    Db.updateFiles_ownedChunks]
  rw [Db.updateFiles_fileIdsOf (g := FileRow.dirty) _ (fun _ => rfl) fun _ => rfl]
  have hid : r.id ∈ Db.fileIdsOf ((db.updateFiles (·.id ∈ byId db batch.files)
      FileRow.dirty).1.deleteChunksOf (byId db batch.files)) (byPath db batch.files) ↔
      r.path ∈ byPath db batch.files := by
    change r.id ∈ Db.fileIdsOf (db.updateFiles (·.id ∈ byId db batch.files) FileRow.dirty).1 _ ↔ _
    rw [Db.updateFiles_fileIdsOf (g := FileRow.dirty) _ (fun _ => rfl) fun _ => rfl]
    exact h.id_mem_fileIdsOf hr
  have hmem : r.path ∈ batch.files.map (·.path) ↔
      r.path ∈ byPath db batch.files ∨ r.id ∈ byId db batch.files := by
    rw [or_comm, mem_byId_or_byPath h batch hr]
    simp
  rw [if_congr hid rfl rfl, if_congr hmem rfl rfl]
  by_cases hp : r.path ∈ byPath db batch.files <;> simp [hp]

end PreDelete

/-! ## Upserts -/

section Upsert

variable {toTimestamp : ℚ → ℚ}

/-- What one upsert leaves : the record's row under `id`, and every row of another path. -/
structure Upserted (toTimestamp : ℚ → ℚ) (db : Db) (file : FileRecord) (id : ℕ) (db' : Db) :
    Prop where
  wf : db'.WF
  chunks : db'.chunks = db.chunks
  tables : db'.embeddingTables = db.embeddingTables
  mem : ∀ r, r ∈ db'.files ↔ r = file.row toTimestamp id ∨ r ∈ db.files ∧ r.path ≠ file.path
  id_iff : ∀ r ∈ db.files, r.id = id ↔ r.path = file.path

variable {file : FileRecord}

/-- An update that rewrites the one row of the record's path. -/
theorem Upserted.update {db : Db} (h : db.WF) {r₀ : FileRow}
    (hr₀ : r₀ ∈ db.files) (hpath : r₀.path = file.path) {p : FileRow → Bool}
    (hp : ∀ r ∈ db.files, p r = true ↔ r = r₀) :
    Upserted toTimestamp db file r₀.id
      (db.updateFiles p fun r => { file.row toTimestamp r.id with path := r.path }).1 where
  wf := h.updateFiles (fun _ => rfl) fun _ => rfl
  chunks := rfl
  tables := rfl
  mem r := by
    rw [Db.mem_updateFiles]
    constructor
    · rintro ⟨r', hr', rfl⟩
      split
      · rename_i hsel
        obtain rfl := (hp r' hr').1 hsel
        left
        simp [FileRecord.row, hpath]
      · rename_i hsel
        refine Or.inr ⟨hr', fun he => hsel ((hp r' hr').2 ?_)⟩
        exact h.eq_of_path hr' hr₀ (he.trans hpath.symm)
    · rintro (rfl | ⟨hr, hne⟩)
      · refine ⟨r₀, hr₀, ?_⟩
        rw [if_pos ((hp r₀ hr₀).2 rfl)]
        simp [FileRecord.row, hpath]
      · refine ⟨r, hr, if_neg fun hsel => hne ?_⟩
        rw [(hp r hr).1 hsel, hpath]
  id_iff r hr := by
    constructor
    · intro he
      rw [h.eq_of_id hr hr₀ he, hpath]
    · intro he
      rw [h.eq_of_path hr hr₀ (he.trans hpath.symm)]

/-- An insert under the next id. -/
theorem Upserted.insert {db : Db} (h : db.WF) (hnew : ∀ r ∈ db.files, r.path ≠ file.path) :
    Upserted toTimestamp db file db.filesIdSeq
      { db with
        files := db.files ++ [file.row toTimestamp db.filesIdSeq]
        filesIdSeq := db.filesIdSeq + 1 } where
  wf :=
    { nodupId := by
        simp only [List.map_append, List.map_cons, List.map_nil]
        refine List.nodup_append.2 ⟨h.nodupId, List.nodup_singleton _, ?_⟩
        rintro _ hid _ hid'
        obtain ⟨r, hr, rfl⟩ := List.mem_map.1 hid
        rw [List.mem_singleton.1 hid']
        exact Nat.ne_of_lt (h.idLt r hr)
      nodupPath := by
        simp only [List.map_append, List.map_cons, List.map_nil]
        refine List.nodup_append.2 ⟨h.nodupPath, List.nodup_singleton _, ?_⟩
        rintro _ hp _ hp'
        obtain ⟨r, hr, rfl⟩ := List.mem_map.1 hp
        rw [List.mem_singleton.1 hp']
        exact hnew r hr
      idLt := by
        intro r hr
        rcases List.mem_append.1 hr with hr | hr
        · exact Nat.lt_succ_of_lt (h.idLt r hr)
        · rw [List.mem_singleton.1 hr]
          exact Nat.lt_succ_self _
      fk := by
        intro c hc
        obtain ⟨r, hr, he⟩ := h.fk c hc
        exact ⟨r, List.mem_append_left _ hr, he⟩ }
  chunks := rfl
  tables := rfl
  mem r := by
    simp only [List.mem_append, List.mem_singleton]
    constructor
    · rintro (hr | rfl)
      · exact Or.inr ⟨hr, hnew r hr⟩
      · exact Or.inl rfl
    · rintro (rfl | ⟨hr, -⟩)
      · exact Or.inr rfl
      · exact Or.inl hr
  id_iff r hr := by
    have := h.idLt r hr
    simp [hnew r hr]
    omega

theorem upserted_upsertFile {db : Db} (h : db.WF) (file : FileRecord) :
    Upserted toTimestamp db file (upsertFile toTimestamp db file).1
      (upsertFile toTimestamp db file).2 := by
  have hslow : ∀ x : ℕ × Db,
      (∀ r, db.files.find? (·.path = file.path) = some r →
        x = (r.id, (db.updateFiles (·.id = r.id)
          fun r => { file.row toTimestamp r.id with path := r.path }).1)) →
      (db.files.find? (·.path = file.path) = none →
        x = (db.filesIdSeq,
          { db with
            files := db.files ++ [file.row toTimestamp db.filesIdSeq]
            filesIdSeq := db.filesIdSeq + 1 })) →
      Upserted toTimestamp db file x.1 x.2 := by
    intro x hsome hnone
    cases hf : db.files.find? (·.path = file.path) with
    | some r₀ =>
      obtain rfl := hsome r₀ hf
      have hr₀ := List.mem_of_find?_eq_some hf
      refine Upserted.update h hr₀ (by simpa using List.find?_some hf) fun r hr => ?_
      simp only [decide_eq_true_eq]
      exact ⟨h.eq_of_id hr hr₀, fun he => by rw [he]⟩
    | none =>
      obtain rfl := hnone hf
      exact Upserted.insert h fun r hr => by simpa using List.find?_eq_none.1 hf r hr
  unfold upsertFile
  cases hid : file.existingFileId with
  | none => exact hslow _ (fun r hr => by simp only [hr]) fun hnone => by simp only [hnone]
  | some id =>
    simp only [Db.updateFiles]
    split
    · rename_i hcount
      obtain ⟨r₀, hr₀, hsel⟩ := List.countP_pos_iff.1 (hcount ▸ Nat.one_pos)
      obtain ⟨rfl, hpath⟩ : r₀.id = id ∧ r₀.path = file.path := of_decide_eq_true hsel
      refine Upserted.update h hr₀ hpath fun r hr => ?_
      simp only [decide_eq_true_eq]
      exact ⟨fun he => h.eq_of_id hr hr₀ he.1, fun he => by rw [he]; exact ⟨rfl, hpath⟩⟩
    · exact hslow _ (fun r hr => by simp only [hr, Db.updateFiles]) fun hnone => by
        simp only [hnone]

/-- `r` is the row of the last record of `files` for its path. -/
def WrittenBy (toTimestamp : ℚ → ℚ) (files : List FileRecord) (r : FileRow) : Prop :=
  ∃ pre g post, files = pre ++ g :: post ∧ g.path = r.path ∧ (∀ f ∈ post, f.path ≠ r.path) ∧
    r = g.row toTimestamp r.id

/-- What the upserts of a batch leave : a row for each path of the batch, written by its
last record, and every row of another path. `ids` are the rows' ids, record by record. -/
structure UpsertedAll (toTimestamp : ℚ → ℚ) (db : Db) (files : List FileRecord) (ids : List ℕ)
    (db' : Db) : Prop where
  wf : db'.WF
  chunks : db'.chunks = db.chunks
  tables : db'.embeddingTables = db.embeddingTables
  length : ids.length = files.length
  rows : ∀ r ∈ db'.files,
    WrittenBy toTimestamp files r ∨ r ∈ db.files ∧ ∀ f ∈ files, f.path ≠ r.path
  keep : ∀ r ∈ db.files, ∃ r' ∈ db'.files, r'.path = r.path ∧ r'.id = r.id
  ids : ∀ p ∈ files.zip ids, ∃ r ∈ db'.files, r.path = p.1.path ∧ r.id = p.2

variable {files : List FileRecord}

theorem WrittenBy.cons {r : FileRow} (h : WrittenBy toTimestamp files r) (f : FileRecord) :
    WrittenBy toTimestamp (f :: files) r := by
  obtain ⟨pre, g, post, rfl, hpath, hlast, hr⟩ := h
  exact ⟨f :: pre, g, post, rfl, hpath, hlast, hr⟩

/-- The upserts of a batch, one after the other. -/
theorem UpsertedAll.cons {db db₁ db₂ : Db} {id : ℕ}
    {ids : List ℕ} (h₁ : Upserted toTimestamp db file id db₁)
    (h₂ : UpsertedAll toTimestamp db₁ files ids db₂) :
    UpsertedAll toTimestamp db (file :: files) (id :: ids) db₂ where
  wf := h₂.wf
  chunks := h₂.chunks.trans h₁.chunks
  tables := h₂.tables.trans h₁.tables
  length := by simp [h₂.length]
  rows r hr := by
    rcases h₂.rows r hr with hw | ⟨hr₁, hne⟩
    · exact Or.inl (hw.cons file)
    · rcases (h₁.mem r).1 hr₁ with he | ⟨hr₀, hpath⟩
      · exact Or.inl ⟨[], file, files, rfl, by rw [he]; rfl, hne, by rw [he]; rfl⟩
      · refine Or.inr ⟨hr₀, fun f hf => ?_⟩
        rcases List.mem_cons.1 hf with rfl | hf
        · exact hpath.symm
        · exact hne f hf
  keep r hr := by
    by_cases hpath : r.path = file.path
    · obtain ⟨r', hr', hp, hid⟩ := h₂.keep _ ((h₁.mem _).2 (Or.inl rfl))
      exact ⟨r', hr', hp.trans hpath.symm, hid.trans ((h₁.id_iff r hr).2 hpath).symm⟩
    · exact h₂.keep r ((h₁.mem r).2 (Or.inr ⟨hr, hpath⟩))
  ids p hp := by
    rcases List.mem_cons.1 hp with rfl | hp
    · exact h₂.keep _ ((h₁.mem _).2 (Or.inl rfl))
    · exact h₂.ids p hp

theorem upsertedAll_upsertFiles : ∀ (files : List FileRecord) {db : Db}, db.WF →
    UpsertedAll toTimestamp db files (upsertFiles toTimestamp db files).1
      (upsertFiles toTimestamp db files).2
  | [], _, h => ⟨h, rfl, rfl, rfl, fun r hr => Or.inr ⟨hr, by simp⟩,
      fun r hr => ⟨r, hr, rfl, rfl⟩, by simp⟩
  | file :: files, _, h =>
    UpsertedAll.cons (upserted_upsertFile h file)
      (upsertedAll_upsertFiles files (upserted_upsertFile h file).wf)

end Upsert

/-! ## Inserting chunks and embeddings -/

theorem chunkRows_append (as bs : List ChunkRecord) (n fileId : ℕ) :
    chunkRows (as ++ bs) n fileId =
      chunkRows as n fileId ++ chunkRows bs (n + as.length) fileId := by
  simp [chunkRows, List.zipIdx_append]

theorem fileId_of_mem_chunkRows {chunks : List ChunkRecord} {n fileId : ℕ} {c : ChunkRow}
    (h : c ∈ chunkRows chunks n fileId) : c.fileId = fileId := by
  obtain ⟨p, -, rfl⟩ := List.mem_map.1 h
  rfl

/-- What inserts into `chunks` leave : the rows appended, all of existing files. -/
structure Inserted (db : Db) (rows : List ChunkRow) (db' : Db) : Prop where
  files : db'.files = db.files
  tables : db'.embeddingTables = db.embeddingTables
  filesIdSeq : db'.filesIdSeq = db.filesIdSeq
  chunks : db'.chunks = db.chunks ++ rows
  fk : ∀ c ∈ rows, ∃ r ∈ db.files, r.id = c.fileId

variable {db db' : Db}

variable {rows : List ChunkRow}

theorem Inserted.wf (hi : Inserted db rows db') (h : db.WF) : db'.WF where
  nodupId := by simpa only [hi.files] using h.nodupId
  nodupPath := by simpa only [hi.files] using h.nodupPath
  idLt := by simpa only [hi.files, hi.filesIdSeq] using h.idLt
  fk c hc := by
    rw [hi.chunks] at hc
    rw [hi.files]
    exact (List.mem_append.1 hc).elim (h.fk c) (hi.fk c)

theorem Inserted.nil (db : Db) : Inserted db [] db :=
  ⟨rfl, rfl, rfl, (List.append_nil _).symm, by simp⟩

theorem Inserted.trans {db db₁ db₂ : Db} {as bs : List ChunkRow} (h₁ : Inserted db as db₁)
    (h₂ : Inserted db₁ bs db₂) : Inserted db (as ++ bs) db₂ where
  files := h₂.files.trans h₁.files
  tables := h₂.tables.trans h₁.tables
  filesIdSeq := h₂.filesIdSeq.trans h₁.filesIdSeq
  chunks := by rw [h₂.chunks, h₁.chunks, List.append_assoc]
  fk c hc := by
    rcases List.mem_append.1 hc with hc | hc
    · exact h₁.fk c hc
    · simpa only [h₁.files] using h₂.fk c hc

theorem Inserted.ownedChunks (h : Inserted db rows db')
    (id : ℕ) : db'.ownedChunks id = db.ownedChunks id ++ rows.filter (·.fileId = id) := by
  rw [Db.ownedChunks, h.chunks, List.filter_append]
  rfl

theorem inserted_insertChunkSlice {fileId : ℕ} {slice : List ChunkRecord}
    (h : insertChunkSlice db fileId slice = .ok (rows, db')) :
    Inserted db rows db' ∧ rows = chunkRows slice db.chunksIdSeq fileId ∧
      db'.chunksIdSeq = db.chunksIdSeq + slice.length := by
  unfold insertChunkSlice at h
  split at h
  · rename_i hfile
    obtain ⟨r, hr, hid⟩ := List.any_eq_true.1 hfile
    obtain ⟨rfl, rfl⟩ := Prod.mk.inj (Except.ok.inj h)
    refine ⟨⟨rfl, rfl, rfl, rfl, fun c hc => ?_⟩, rfl, rfl⟩
    exact ⟨r, hr, (of_decide_eq_true hid).trans (fileId_of_mem_chunkRows hc).symm⟩
  · cases h

theorem inserted_insertChunkSlices {fileId : ℕ} : ∀ {sl : List (List ChunkRecord)} {db db' : Db}
    {rows : List ChunkRow}, insertChunkSlices fileId db sl = .ok (rows, db') →
      Inserted db rows db' ∧ rows = chunkRows sl.flatten db.chunksIdSeq fileId
  | [], db, db', rows, h => by
    obtain ⟨rfl, rfl⟩ := Prod.mk.inj (Except.ok.inj h)
    exact ⟨Inserted.nil db, rfl⟩
  | slice :: rest, db, db', rows, h => by
    unfold insertChunkSlices at h
    obtain ⟨⟨rows₁, db₁⟩, h₁, h⟩ := bind_eq_ok.1 h
    obtain ⟨⟨rows₂, db₂⟩, h₂, h⟩ := bind_eq_ok.1 h
    obtain ⟨rfl, rfl⟩ := Prod.mk.inj (Except.ok.inj h)
    obtain ⟨hi₁, rfl, hseq⟩ := inserted_insertChunkSlice h₁
    obtain ⟨hi₂, rfl⟩ := inserted_insertChunkSlices h₂
    refine ⟨hi₁.trans hi₂, ?_⟩
    rw [List.flatten_cons, chunkRows_append, hseq]

/-- An upsert whose chunk rows are those of its record, under consecutive ids. -/
def Upsert.Stored (u : Upsert) : Prop :=
  ∃ n, u.inserted = chunkRows u.record.chunks n u.fileId

variable {u : Upsert}

theorem Upsert.Stored.fileId (h : u.Stored) {c : ChunkRow} (hc : c ∈ u.inserted) :
    c.fileId = u.fileId := by
  obtain ⟨n, hn⟩ := h
  exact fileId_of_mem_chunkRows (hn ▸ hc)

theorem Upsert.Stored.eq_nil (h : u.Stored) (hc : u.record.chunks = []) :
    u.inserted = [] := by
  obtain ⟨n, hn⟩ := h
  rw [hn, hc]
  rfl

variable {size : ℕ}

theorem inserted_insertChunksLoop : ∀ {ps : List (FileRecord × ℕ)} {db db' : Db}
    {us : List Upsert}, insertChunksLoop size db ps = .ok (us, db') →
      Inserted db (us.flatMap (·.inserted)) db' ∧ us.map (fun u => (u.record, u.fileId)) = ps ∧
        ∀ u ∈ us, u.Stored
  | [], db, db', us, h => by
    obtain ⟨rfl, rfl⟩ := Prod.mk.inj (Except.ok.inj h)
    exact ⟨Inserted.nil db, rfl, by simp⟩
  | (file, id) :: rest, db, db', us, h => by
    unfold insertChunksLoop at h
    obtain ⟨⟨rows, db₁⟩, h₁, h⟩ := bind_eq_ok.1 h
    obtain ⟨⟨us', db₂⟩, h₂, h⟩ := bind_eq_ok.1 h
    obtain ⟨rfl, rfl⟩ := Prod.mk.inj (Except.ok.inj h)
    obtain ⟨hi₁, hrows⟩ := inserted_insertChunkSlices h₁
    obtain ⟨hi₂, hps, hst⟩ := inserted_insertChunksLoop h₂
    rw [flatten_slices (by omega)] at hrows
    refine ⟨hi₁.trans hi₂, by simp [hps], fun u hu => ?_⟩
    rcases List.mem_cons.1 hu with rfl | hu
    · exact ⟨_, hrows⟩
    · exact hst u hu

/-- The tables but the embeddings are the same. -/
structure SameRows (db db' : Db) : Prop where
  files : db'.files = db.files
  chunks : db'.chunks = db.chunks
  tables : db'.embeddingTables = db.embeddingTables
  filesIdSeq : db'.filesIdSeq = db.filesIdSeq

theorem sameRows_insertEmbeddingsTxn {pairs : List (ChunkRow × ChunkRecord)}
    (h : insertEmbeddingsTxn db pairs = .ok db') : SameRows db db' := by
  refine foldlM_invariant (I := SameRows db) (fun p _ s s' hs hp => ?_) ⟨rfl, rfl, rfl, rfl⟩ h
  split at hp
  · split at hp
    · exact Except.ok.inj hp ▸ hs
    · unfold insertEmbedding at hp
      split at hp
      · exact Except.ok.inj hp ▸ ⟨hs.files, hs.chunks, hs.tables, hs.filesIdSeq⟩
      · cases hp
  · exact Except.ok.inj hp ▸ hs

theorem SameRows.wf (hs : SameRows db db') (h : db.WF) : db'.WF where
  nodupId := by simpa only [hs.files] using h.nodupId
  nodupPath := by simpa only [hs.files] using h.nodupPath
  idLt := by simpa only [hs.files, hs.filesIdSeq] using h.idLt
  fk := by simpa only [hs.files, hs.chunks] using h.fk

/-! ## A batch -/

/-- What the write of a batch leaves : a row for each path of the batch, written by its
last record, every other row, and the chunks of each upsert under the row it wrote. -/
structure Wrote (toTimestamp : ℚ → ℚ) (db : Db) (files : List FileRecord) (us : List Upsert)
    (db' : Db) : Prop where
  wf : db'.WF
  tables : db'.embeddingTables = db.embeddingTables
  records : us.map (·.record) = files
  stored : ∀ u ∈ us, u.Stored
  rows : ∀ r ∈ db'.files,
    WrittenBy toTimestamp files r ∨ r ∈ db.files ∧ ∀ f ∈ files, f.path ≠ r.path
  keep : ∀ r ∈ db.files, ∃ r' ∈ db'.files, r'.path = r.path ∧ r'.id = r.id
  row : ∀ u ∈ us, ∃ r ∈ db'.files, r.path = u.record.path ∧ r.id = u.fileId
  ownedChunks : ∀ id, db'.ownedChunks id =
    db.ownedChunks id ++ (us.filter (·.fileId = id)).flatMap (·.inserted)

theorem filter_flatMap_inserted (id : ℕ) : ∀ {us : List Upsert}, (∀ u ∈ us, u.Stored) →
    (us.flatMap (·.inserted)).filter (·.fileId = id) =
      (us.filter (·.fileId = id)).flatMap (·.inserted)
  | [], _ => rfl
  | u :: us, h => by
    have hu := h u List.mem_cons_self
    rw [List.flatMap_cons, List.filter_append,
      filter_flatMap_inserted id fun v hv => h v (List.mem_cons_of_mem u hv)]
    by_cases hid : u.fileId = id
    · have hall : u.inserted.filter (·.fileId = id) = u.inserted :=
        List.filter_eq_self.2 fun c hc => by simp [hu.fileId hc, hid]
      simp [hid, hall]
    · have hnone : u.inserted.filter (·.fileId = id) = [] :=
        List.filter_eq_nil_iff.2 fun c hc => by simp [hu.fileId hc, hid]
      simp [hid, hnone]

variable {toTimestamp : ℚ → ℚ} {batch : DbWriterBatch} {us : List Upsert}

theorem wrote_writeBatchInner (h : db.WF)
    (hw : writeBatchInner toTimestamp size db batch = .ok (us, db')) :
    Wrote toTimestamp db batch.files us db' := by
  have hup : UpsertedAll toTimestamp db batch.files _ _ := upsertedAll_upsertFiles batch.files h
  unfold writeBatchInner at hw
  obtain ⟨⟨us', db₁⟩, h₁, hw⟩ := bind_eq_ok.1 hw
  obtain ⟨db₂, h₂, hw⟩ := bind_eq_ok.1 hw
  obtain ⟨rfl, rfl⟩ := Prod.mk.inj (Except.ok.inj hw)
  obtain ⟨hi, hps, hst⟩ := inserted_insertChunksLoop h₁
  have hs := sameRows_insertEmbeddingsTxn h₂
  have hfiles : db₂.files = (upsertFiles toTimestamp db batch.files).2.files :=
    hs.files.trans hi.files
  have hrec : us'.map (·.record) = batch.files := by
    have := congrArg (List.map Prod.fst) hps
    rwa [List.map_map, List.map_fst_zip hup.length.ge] at this
  refine ⟨hs.wf (hi.wf hup.wf), (hs.tables.trans hi.tables).trans hup.tables, hrec, hst, ?_, ?_,
    ?_, fun id => ?_⟩
  · simpa only [hfiles] using hup.rows
  · simpa only [hfiles] using hup.keep
  · intro u hu
    rw [hfiles]
    exact hup.ids (u.record, u.fileId) (hps ▸ List.mem_map_of_mem (f := fun u : Upsert =>
      (u.record, u.fileId)) hu)
  · have hown : db₂.ownedChunks id = db₁.ownedChunks id := by
      unfold Db.ownedChunks
      rw [hs.chunks]
    have hown₀ : (upsertFiles toTimestamp db batch.files).2.ownedChunks id =
        db.ownedChunks id := by
      unfold Db.ownedChunks
      rw [hup.chunks]
    rw [hown, hi.ownedChunks, hown₀, filter_flatMap_inserted id hst]

theorem wrote_writeBatchesInOneTxn (h : db.WF)
    (hw : writeBatchesInOneTxn toTimestamp size db [batch] = .ok (us, db')) :
    Wrote toTimestamp db batch.files us db' := by
  unfold writeBatchesInOneTxn at hw
  obtain ⟨⟨us', db₁⟩, h₁, hw⟩ := bind_eq_ok.1 hw
  obtain ⟨rfl, rfl⟩ := Prod.mk.inj (Except.ok.inj hw)
  rw [List.append_nil]
  exact wrote_writeBatchInner h h₁

theorem mem_files_of_writeBatchesInOneTxn
    (hw : writeBatchesInOneTxn toTimestamp size db [batch] = .ok (us, db'))
    (hu : u ∈ us) : u.record ∈ batch.files := by
  unfold writeBatchesInOneTxn writeBatchInner at hw
  obtain ⟨⟨us', db₁⟩, h₁, hw⟩ := bind_eq_ok.1 hw
  obtain ⟨rfl, rfl⟩ := Prod.mk.inj (Except.ok.inj hw)
  obtain ⟨⟨us'', db₂⟩, h₂, h₁⟩ := bind_eq_ok.1 h₁
  obtain ⟨db₃, -, h₁⟩ := bind_eq_ok.1 h₁
  obtain ⟨rfl, rfl⟩ := Prod.mk.inj (Except.ok.inj h₁)
  obtain ⟨-, hps, -⟩ := inserted_insertChunksLoop h₂
  rw [List.append_nil] at hu
  have hmem : (u.record, u.fileId) ∈ batch.files.zip _ :=
    hps ▸ List.mem_map_of_mem (f := fun u : Upsert => (u.record, u.fileId)) hu
  exact (List.of_mem_zip hmem).1

end ChunkHound
