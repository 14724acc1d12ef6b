import ChunkHound.StoreTables

/-!
# Clean rows and their chunks

A row is clean when its `modified_time` and `content_hash` are set : the diff may call its
file unchanged without looking at the chunks. `Store.CleanRows` says every clean row still
owns the chunks that were inserted with it. The lemmas are about any property `q` of rows
that no dirty row has, since the diff trusts a row that has a `modified_time` alone, too.

The pre-delete of an upsert dirties the rows in the transaction that deletes their chunks,
so a batch keeps the invariant wherever it is cut (`Store.Inv.cutRun_batches`).
`delete_paths` does not : phase 1 commits the chunk deletes and leaves the rows clean until
phase 2 removes them. A run cut in between severs the rows still there (`Session.Severs`),
and this is the one way to lose the invariant (`cleanRows_session`).
-/

namespace ChunkHound

open StepSystem Slices

/-- Neither column carries the dirty marker. -/
def FileRow.Clean (r : FileRow) : Prop :=
  r.modifiedTime ≠ none ∧ r.contentHash ≠ none

theorem FileRow.not_clean_dirty (r : FileRow) : ¬r.dirty.Clean :=
  fun h => h.1 rfl

instance (r : FileRow) : Decidable r.Clean :=
  inferInstanceAs (Decidable (_ ∧ _))

/-- The row is as the latest upsert of it wrote it and owns the chunks inserted then. -/
def Store.OwnsItsUpsert (toTimestamp : ℚ → ℚ) (s : Store) (r : FileRow) : Prop :=
  ∃ u ∈ s.lastUpsert r.id, r = u.record.row toTimestamp r.id ∧ s.db.ownedChunks r.id = u.inserted

/-- Every row with the property `q` owns the chunks inserted with it. -/
def Store.Sound (toTimestamp : ℚ → ℚ) (q : FileRow → Prop) (s : Store) : Prop :=
  ∀ r ∈ s.db.files, q r → s.OwnsItsUpsert toTimestamp r

/-- Every clean row owns the chunks inserted with it. -/
def Store.CleanRows (toTimestamp : ℚ → ℚ) (s : Store) : Prop :=
  s.Sound toTimestamp FileRow.Clean

instance (toTimestamp : ℚ → ℚ) (s : Store) (r : FileRow) :
    Decidable (s.OwnsItsUpsert toTimestamp r) :=
  inferInstanceAs (Decidable (∃ u ∈ s.lastUpsert r.id, _))

instance (toTimestamp : ℚ → ℚ) (s : Store) : Decidable (s.CleanRows toTimestamp) :=
  inferInstanceAs (Decidable (∀ r ∈ s.db.files, r.Clean → s.OwnsItsUpsert toTimestamp r))

/-- Of the records of a batch for one path, only the last carries chunks, if the row it
writes has the property `q`. -/
def SingleOwner (toTimestamp : ℚ → ℚ) (q : FileRow → Prop) (files : List FileRecord) : Prop :=
  ∀ pre g post, files = pre ++ g :: post → (∀ f ∈ post, f.path ≠ g.path) →
    (∃ id, q (g.row toTimestamp id)) → ∀ f ∈ pre, f.path = g.path → f.chunks = []

theorem singleOwner_of_nodup {toTimestamp : ℚ → ℚ} {q : FileRow → Prop} {files : List FileRecord}
    (h : (files.map (·.path)).Nodup) : SingleOwner toTimestamp q files := by
  rintro pre g post rfl - - f hf hpath
  rw [List.map_append, List.nodup_append] at h
  exact absurd hpath (h.2.2 _ (List.mem_map_of_mem hf) _ (by simp))

/-- The commits the session reaches. -/
def Session.commits (sess : Session) : List Commit :=
  (storeThread sess.orphans sess.batches).take sess.cut

/-- Every batch the session writes has a single owner for each path. -/
def Session.SingleOwner (toTimestamp : ℚ → ℚ) (q : FileRow → Prop) (sess : Session) : Prop :=
  ∀ files, .writeBatchesInOneTxn [fileBatch files] ∈ sess.commits →
    ChunkHound.SingleOwner toTimestamp q files

/-- The session is cut after phase 1 of the orphan delete and before the phase-2 statement
of a row with the property `q` that owns chunks. -/
def Session.Severs (q : FileRow → Prop) (sess : Session) (s : Store) : Prop :=
  1 ≤ sess.cut ∧ ∃ r ∈ s.db.files, q r ∧ s.db.ownedChunks r.id ≠ [] ∧ r.path ∈ sess.orphans ∧
    r.path ∉ sess.orphans.take (deleteBatch * (sess.cut - 1))

/-- A session as a step of the store. -/
def Session.step (toTimestamp : ℚ → ℚ) (insertBatchSize : ℕ) (s : Store) (sess : Session) :
    Option Store :=
  some (sess.run toTimestamp insertBatchSize s)

/-- The invariant between sessions. -/
structure Store.Inv (toTimestamp : ℚ → ℚ) (q : FileRow → Prop) (s : Store) : Prop where
  dirty : ∀ r : FileRow, ¬q r.dirty
  wf : s.db.WF
  stored : ∀ u ∈ s.upserts, u.Stored
  sound : s.Sound toTimestamp q

section

variable {toTimestamp : ℚ → ℚ} {q : FileRow → Prop} {size : ℕ}

theorem Store.inv_empty (hq : ∀ r : FileRow, ¬q r.dirty) : Store.empty.Inv toTimestamp q :=
  ⟨hq, Db.wf_empty, by simp [Store.empty], by simp [Store.Sound, Store.empty, Db.empty]⟩

/-! ## One batch -/

variable {s : Store}

/-- A commit that dirties every row whose chunks it touches keeps the invariant. -/
theorem Store.Inv.of_db (h : s.Inv toTimestamp q) {db : Db} (hwf : db.WF)
    (hrow : ∀ r ∈ db.files, q r →
      r ∈ s.db.files ∧ db.ownedChunks r.id = s.db.ownedChunks r.id) :
    Store.Inv toTimestamp q { s with db := db } where
  dirty := h.dirty
  wf := hwf
  stored := h.stored
  sound r hr hc := by
    obtain ⟨hr', howned⟩ := hrow r hr hc
    obtain ⟨u, hu, hrec, hins⟩ := h.sound r hr' hc
    exact ⟨u, hu, hrec, howned.trans hins⟩

theorem Store.Inv.preDelete (h : s.Inv toTimestamp q) (batch : DbWriterBatch) :
    Store.Inv toTimestamp q { s with db := preDeleteForUpsert s.db batch } := by
  refine h.of_db (h.wf.preDeleteForUpsert batch) fun r hr hc => ?_
  rw [preDeleteForUpsert_files h.wf] at hr
  obtain ⟨r', hr', rfl⟩ := List.mem_map.1 hr
  by_cases hp : r'.path ∈ batch.files.map (·.path)
  · rw [if_pos hp] at hc
    exact absurd hc (h.dirty r')
  · rw [if_neg hp] at hc ⊢
    refine ⟨hr', ?_⟩
    rw [preDeleteForUpsert_ownedChunks h.wf batch hr', if_neg hp]

theorem Store.Inv.ensureDims (h : s.Inv toTimestamp q) (dims : ℕ) :
    Store.Inv toTimestamp q { s with db := ensureEmbeddingTableDims s.db dims } := by
  unfold ensureEmbeddingTableDims
  split
  · exact h
  · exact ⟨h.dirty, ⟨h.wf.nodupId, h.wf.nodupPath, h.wf.idLt, h.wf.fk⟩, h.stored, h.sound⟩

/-- The batch's preparation has run from `s₀` : none of its rows owns a chunk, and the rows
of other paths are as they were. -/
structure Store.Prepared (toTimestamp : ℚ → ℚ) (q : FileRow → Prop) (files : List FileRecord)
    (s s₀ : Store) : Prop where
  inv : s.Inv toTimestamp q
  chunkless : ∀ r ∈ s.db.files, ∀ f ∈ files, f.path = r.path → s.db.ownedChunks r.id = []
  upserts : s.upserts = s₀.upserts
  others : ∀ r ∈ s.db.files, (∀ f ∈ files, f.path ≠ r.path) → r ∈ s₀.db.files
  keep : ∀ r ∈ s₀.db.files, ∃ r' ∈ s.db.files, r'.path = r.path

theorem prepareWrite_fileBatch (files : List FileRecord) :
    prepareWrite (fileBatch files) =
      (if files = [] then [] else [.preDeleteForUpsert (fileBatch files)]) ++
        (collectDims (fileBatch files)).map .ensureEmbeddingTableDims :=
  rfl

theorem ensureEmbeddingTableDims_files (db : Db) (dims : ℕ) :
    (ensureEmbeddingTableDims db dims).files = db.files := by
  unfold ensureEmbeddingTableDims
  split <;> rfl

variable {files : List FileRecord}

theorem Store.Prepared.ensureDims {s₀ s : Store}
    (h : s.Prepared toTimestamp q files s₀) (dims : ℕ) :
    Store.Prepared toTimestamp q files { s with db := ensureEmbeddingTableDims s.db dims } s₀ := by
  refine ⟨h.inv.ensureDims dims, ?_, h.upserts, ?_, ?_⟩
  · unfold ensureEmbeddingTableDims
    split
    · exact h.chunkless
    · exact h.chunkless
  · simpa only [ensureEmbeddingTableDims_files] using h.others
  · simpa only [ensureEmbeddingTableDims_files] using h.keep

theorem Store.Inv.prepared (h : s.Inv toTimestamp q) :
    Store.Prepared toTimestamp q files
      { s with db := preDeleteForUpsert s.db (fileBatch files) } s := by
  have hkey : ∀ r : FileRow, (if r.path ∈ files.map (·.path) then r.dirty else r).id = r.id ∧
      (if r.path ∈ files.map (·.path) then r.dirty else r).path = r.path := by
    intro r
    split <;> exact ⟨rfl, rfl⟩
  refine ⟨h.preDelete (fileBatch files), fun r hr f hf hp => ?_, rfl, fun r hr hne => ?_,
    fun r hr => ?_⟩
  · rw [preDeleteForUpsert_files h.wf] at hr
    obtain ⟨r', hr', rfl⟩ := List.mem_map.1 hr
    obtain ⟨hid, hpath⟩ := hkey r'
    rw [show (fileBatch files).files = files from rfl, hid,
      preDeleteForUpsert_ownedChunks h.wf (fileBatch files) hr', if_pos]
    exact List.mem_map.2 ⟨f, hf, hp.trans hpath⟩
  · rw [preDeleteForUpsert_files h.wf] at hr
    obtain ⟨r', hr', rfl⟩ := List.mem_map.1 hr
    have hout : r'.path ∉ (fileBatch files).files.map (·.path) := by
      intro hp
      obtain ⟨f, hf, he⟩ := List.mem_map.1 hp
      exact hne f hf (he.trans (hkey r').2.symm)
    rwa [if_neg hout]
  · refine ⟨_, ?_, (hkey r).2⟩
    rw [preDeleteForUpsert_files h.wf]
    exact List.mem_map_of_mem hr

variable {s s' : Store}

/-- A commit of `prepare_write` keeps the invariant. -/
theorem Store.Inv.run_of_mem_prepareWrite {c : Commit}
    (hc : c ∈ prepareWrite (fileBatch files)) (h : s.Inv toTimestamp q)
    (hs : c.run toTimestamp size s = .ok s') : s'.Inv toTimestamp q := by
  rw [prepareWrite_fileBatch, List.mem_append] at hc
  rcases hc with hc | hc
  · split at hc
    · simp at hc
    · obtain rfl := List.mem_singleton.1 hc
      exact Except.ok.inj hs ▸ h.preDelete (fileBatch files)
  · obtain ⟨dims, -, rfl⟩ := List.mem_map.1 hc
    exact Except.ok.inj hs ▸ h.ensureDims dims

/-- Once `prepare_write` has run the rows of the batch own nothing. -/
theorem Store.Inv.foldlM_prepareWrite (h : s.Inv toTimestamp q)
    (hs : (prepareWrite (fileBatch files)).foldlM (Commit.run toTimestamp size) s = .ok s') :
    s'.Prepared toTimestamp q files s := by
  have hensure : ∀ c ∈ (collectDims (fileBatch files)).map Commit.ensureEmbeddingTableDims,
      ∀ t t', t.Prepared toTimestamp q files s → c.run toTimestamp size t = .ok t' →
        t'.Prepared toTimestamp q files s := by
    intro c hc t t' ht he
    obtain ⟨dims, -, rfl⟩ := List.mem_map.1 hc
    exact Except.ok.inj he ▸ ht.ensureDims dims
  rw [prepareWrite_fileBatch] at hs
  split at hs
  · rename_i hnil
    exact foldlM_invariant (I := fun t : Store => t.Prepared toTimestamp q files s) hensure
      ⟨h, by simp [hnil], rfl, fun r hr _ => hr, fun r hr => ⟨r, hr, rfl⟩⟩ hs
  · rw [List.singleton_append, List.foldlM_cons] at hs
    obtain ⟨t, ht, hs⟩ := bind_eq_ok.1 hs
    exact foldlM_invariant (I := fun t : Store => t.Prepared toTimestamp q files s) hensure
      (Except.ok.inj ht ▸ h.prepared) hs

variable {r : FileRow} {us : List Upsert}

variable {db db' : Db}

/-- The upserts of a batch, split at the last one for the path of a row it wrote. -/
theorem Wrote.last (hw : Wrote toTimestamp db files us db') (hr : r ∈ db'.files)
    (hby : WrittenBy toTimestamp files r) :
    ∃ us₁ u us₂, us = us₁ ++ u :: us₂ ∧ u.fileId = r.id ∧ u.record.path = r.path ∧
      r = u.record.row toTimestamp r.id ∧
      (∀ v ∈ us₂, v.fileId ≠ r.id ∧ v.record.path ≠ r.path) ∧
      ∀ v ∈ us₁, v.fileId = r.id → v.record.path = r.path := by
  obtain ⟨pre, g, post, hfiles, hpath, hlast, hrow⟩ := hby
  have hrec := hw.records
  rw [hfiles] at hrec
  obtain ⟨us₁, us₂, rfl, h₁, h₂⟩ := List.map_eq_append_iff.1 hrec
  obtain ⟨u, us₃, rfl, rfl, h₃⟩ := List.map_eq_cons_iff.1 h₂
  have hfid : ∀ v ∈ us₁ ++ u :: us₃, v.fileId = r.id ↔ v.record.path = r.path := by
    intro v hv
    obtain ⟨r', hr', hp, hid⟩ := hw.row v hv
    rw [← hp, ← hid]
    exact ⟨fun he => by rw [hw.wf.eq_of_id hr' hr he], fun he => by rw [hw.wf.eq_of_path hr' hr he]⟩
  have hpost : ∀ v ∈ us₃, v.record.path ≠ r.path :=
    fun v hv => hlast v.record (h₃ ▸ List.mem_map_of_mem hv)
  refine ⟨us₁, u, us₃, rfl, (hfid u (by simp)).2 hpath, hpath, hrow, fun v hv => ?_, fun v hv => ?_⟩
  · exact ⟨fun he => hpost v hv ((hfid v (by simp [hv])).1 he), hpost v hv⟩
  · exact (hfid v (by simp [hv])).1

/-- The latest upsert of a row the batch wrote. -/
theorem Wrote.find?_last (hw : Wrote toTimestamp db files us db') (hr : r ∈ db'.files)
    (hby : WrittenBy toTimestamp files r) :
    ∃ u ∈ us.reverse.find? (·.fileId = r.id), u ∈ us ∧ r = u.record.row toTimestamp r.id := by
  obtain ⟨us₁, u, us₂, rfl, hid, -, hrow, hpost, -⟩ := hw.last hr hby
  have hnone : us₂.reverse.find? (·.fileId = r.id) = none :=
    List.find?_eq_none.2 fun v hv => by simpa using (hpost v (List.mem_reverse.1 hv)).1
  exact ⟨u, by simp [hnone, hid], by simp, hrow⟩

/-- A row of a path the batch does not have is in none of its upserts. -/
theorem Wrote.fileId_ne (hw : Wrote toTimestamp db files us db') (hr : r ∈ db'.files)
    (hne : ∀ f ∈ files, f.path ≠ r.path) : ∀ v ∈ us, v.fileId ≠ r.id := by
  intro v hv he
  obtain ⟨r', hr', hp, hid⟩ := hw.row v hv
  obtain rfl := hw.wf.eq_of_id hr' hr (hid.trans he)
  have hv' : v.record ∈ files := by
    rw [← hw.records]
    exact List.mem_map_of_mem hv
  exact hne v.record hv' hp.symm

/-- The upsert of the last record for a path owns the chunks of the path's row. -/
theorem Wrote.owned (hw : Wrote toTimestamp db files us db') (hso : SingleOwner toTimestamp q files)
    (hr : r ∈ db'.files) (hc : q r) (hby : WrittenBy toTimestamp files r)
    (hnil : db.ownedChunks r.id = []) :
    ∃ u ∈ us.reverse.find? (·.fileId = r.id),
      r = u.record.row toTimestamp r.id ∧ db'.ownedChunks r.id = u.inserted := by
  obtain ⟨us₁, u, us₂, rfl, hid, hpath, hrow, hpost, hpre⟩ := hw.last hr hby
  have hfiles : us₁.map (·.record) ++ u.record :: us₂.map (·.record) = files := by
    rw [← hw.records]
    simp
  have hlast : ∀ f ∈ us₂.map (·.record), f.path ≠ u.record.path := by
    intro f hf
    obtain ⟨v, hv, rfl⟩ := List.mem_map.1 hf
    rw [hpath]
    exact (hpost v hv).2
  have hnil' : ∀ v ∈ us₁, v.fileId = r.id → v.inserted = [] := by
    intro v hv he
    refine (hw.stored v (by simp [hv])).eq_nil ?_
    exact hso _ _ _ hfiles.symm hlast ⟨r.id, hrow ▸ hc⟩ v.record (List.mem_map_of_mem hv)
      ((hpre v hv he).trans hpath.symm)
  refine ⟨u, ?_, hrow, ?_⟩
  · have hnone : us₂.reverse.find? (·.fileId = r.id) = none :=
      List.find?_eq_none.2 fun v hv => by simpa using (hpost v (List.mem_reverse.1 hv)).1
    simp [hnone, hid]
  · have hnone : us₂.filter (·.fileId = r.id) = [] :=
      List.filter_eq_nil_iff.2 fun v hv => by simpa using (hpost v hv).1
    have hpre' : (us₁.filter (·.fileId = r.id)).flatMap (·.inserted) = [] := by
      refine List.flatMap_eq_nil_iff.2 fun v hv => ?_
      exact hnil' v (List.mem_of_mem_filter hv) (by simpa using (List.mem_filter.1 hv).2)
    rw [hw.ownedChunks, hnil, List.filter_append, List.flatMap_append, hpre']
    simp [hid, hnone]

/-- The rows of the batch own nothing before the write, nor does a row it adds. -/
theorem Store.Prepared.ownedChunks_eq_nil {s₀ s : Store} {db : Db}
    (h : s.Prepared toTimestamp q files s₀)
    (hw : Wrote toTimestamp s.db files us db) (hr : r ∈ db.files)
    (hby : WrittenBy toTimestamp files r) : s.db.ownedChunks r.id = [] := by
  by_cases hold : ∃ r₀ ∈ s.db.files, r₀.id = r.id
  · obtain ⟨r₀, hr₀, hid⟩ := hold
    obtain ⟨r', hr', hp, hid'⟩ := hw.keep r₀ hr₀
    obtain rfl := hw.wf.eq_of_id hr' hr (hid'.trans hid)
    obtain ⟨pre, g, post, rfl, hpath, -, -⟩ := hby
    rw [← hid]
    exact h.chunkless r₀ hr₀ g (by simp) (hpath.trans hp)
  · exact h.inv.wf.ownedChunks_eq_nil fun r₀ hr₀ hid => hold ⟨r₀, hr₀, hid⟩

theorem lastUpsert_append_of_ne {us old : List Upsert} {id : ℕ} (h : ∀ v ∈ us, v.fileId ≠ id) :
    (us.reverse ++ old).find? (·.fileId = id) = old.find? (·.fileId = id) := by
  have hnone : us.reverse.find? (·.fileId = id) = none :=
    List.find?_eq_none.2 fun v hv => by simpa using h v (List.mem_reverse.1 hv)
  rw [List.find?_append, hnone]
  rfl

/-- What a batch leaves : the rows it wrote with an upsert of its own, and the rows of other
paths as they were. -/
structure Rewrote (toTimestamp : ℚ → ℚ) (s : Store) (files : List FileRecord) (s' : Store) :
    Prop where
  rows : ∀ r ∈ s'.db.files,
    (∃ u ∈ s'.lastUpsert r.id, u.record ∈ files ∧ r = u.record.row toTimestamp r.id) ∨
      r ∈ s.db.files ∧ (∀ f ∈ files, f.path ≠ r.path) ∧ s'.lastUpsert r.id = s.lastUpsert r.id
  keep : ∀ r ∈ s.db.files, ∃ r' ∈ s'.db.files, r'.path = r.path
  mem : ∀ f ∈ files, ∃ r ∈ s'.db.files, r.path = f.path

theorem Rewrote.nil (s : Store) : Rewrote toTimestamp s [] s :=
  ⟨fun _ hr => Or.inr ⟨hr, by simp, rfl⟩, fun r hr => ⟨r, hr, rfl⟩, by simp⟩

theorem Rewrote.trans {s t u : Store} {fs gs : List FileRecord} (h₁ : Rewrote toTimestamp s fs t)
    (h₂ : Rewrote toTimestamp t gs u) : Rewrote toTimestamp s (fs ++ gs) u where
  rows r hr := by
    rcases h₂.rows r hr with ⟨v, hv, hmem, hp⟩ | ⟨hrt, hgs, hlast⟩
    · exact Or.inl ⟨v, hv, List.mem_append_right _ hmem, hp⟩
    · rcases h₁.rows r hrt with ⟨v, hv, hmem, hp⟩ | ⟨hrs, hfs, hlast'⟩
      · exact Or.inl ⟨v, hlast ▸ hv, List.mem_append_left _ hmem, hp⟩
      · refine Or.inr ⟨hrs, fun f hf => ?_, hlast.trans hlast'⟩
        exact (List.mem_append.1 hf).elim (hfs f) (hgs f)
  keep r hr := by
    obtain ⟨r₁, hr₁, hp₁⟩ := h₁.keep r hr
    obtain ⟨r₂, hr₂, hp₂⟩ := h₂.keep r₁ hr₁
    exact ⟨r₂, hr₂, hp₂.trans hp₁⟩
  mem f hf := by
    rcases List.mem_append.1 hf with hf | hf
    · obtain ⟨r, hr, hp⟩ := h₁.mem f hf
      obtain ⟨r', hr', hp'⟩ := h₂.keep r hr
      exact ⟨r', hr', hp'.trans hp⟩
    · exact h₂.mem f hf

/-- The write of a prepared batch restores the invariant and rewrites the batch's rows. -/
theorem Store.Prepared.write {s₀ s s' : Store} (h : s.Prepared toTimestamp q files s₀)
    (hs : (Commit.writeBatchesInOneTxn [fileBatch files]).run toTimestamp size s = .ok s') :
    (SingleOwner toTimestamp q files → s'.Inv toTimestamp q) ∧ Rewrote toTimestamp s₀ files s' := by
  unfold Commit.run at hs
  cases hw : writeBatchesInOneTxn toTimestamp size s.db [fileBatch files] with
  | error e => simp [hw, Except.map] at hs
  | ok p =>
    obtain ⟨us, db⟩ := p
    obtain rfl : (⟨db, us.reverse ++ s.upserts⟩ : Store) = s' := by
      simpa [hw, Except.map] using hs
    have hwrote : Wrote toTimestamp s.db files us db := wrote_writeBatchesInOneTxn h.inv.wf hw
    refine ⟨fun hso => ⟨h.inv.dirty, hwrote.wf, fun u hu => ?_, fun r hr hc => ?_⟩,
      fun r hr => ?_, fun r hr => ?_, fun f hf => ?_⟩
    · rcases List.mem_append.1 hu with hu | hu
      · exact hwrote.stored u (List.mem_reverse.1 hu)
      · exact h.inv.stored u hu
    · rcases hwrote.rows r hr with hby | ⟨hold, hne⟩
      · obtain ⟨u, hu, hrow, hown⟩ :=
          hwrote.owned hso hr hc hby (h.ownedChunks_eq_nil hwrote hr hby)
        refine ⟨u, ?_, hrow, hown⟩
        rw [Store.lastUpsert, List.find?_append, Option.mem_def.1 hu]
        rfl
      · have hother := hwrote.fileId_ne hr hne
        obtain ⟨u, hu, hrow, hown⟩ := h.inv.sound r hold hc
        have hnone : us.filter (·.fileId = r.id) = [] :=
          List.filter_eq_nil_iff.2 fun v hv => by simpa using hother v hv
        refine ⟨u, ?_, hrow, ?_⟩
        · rw [Store.lastUpsert, lastUpsert_append_of_ne hother]
          exact hu
        · rw [hwrote.ownedChunks, hnone, hown]
          simp
    · rcases hwrote.rows r hr with hby | ⟨hold, hne⟩
      · obtain ⟨u, hu, hmem, hp⟩ := hwrote.find?_last hr hby
        refine Or.inl ⟨u, ?_, hwrote.records ▸ List.mem_map_of_mem hmem, hp⟩
        rw [Store.lastUpsert, List.find?_append, Option.mem_def.1 hu]
        rfl
      · refine Or.inr ⟨h.others r hold hne, hne, ?_⟩
        rw [Store.lastUpsert, lastUpsert_append_of_ne (hwrote.fileId_ne hr hne), h.upserts]
        rfl
    · obtain ⟨r₁, hr₁, hp₁⟩ := h.keep r hr
      obtain ⟨r₂, hr₂, hp₂, -⟩ := hwrote.keep r₁ hr₁
      exact ⟨r₂, hr₂, hp₂.trans hp₁⟩
    · obtain ⟨u, hu, rfl⟩ := List.mem_map.1 (hwrote.records ▸ hf)
      obtain ⟨r, hr, hp, -⟩ := hwrote.row u hu
      exact ⟨r, hr, hp⟩

/-- A batch keeps the invariant wherever it is cut. -/
theorem Store.Inv.cutRun_batchCommits (h : s.Inv toTimestamp q) (k : ℕ)
    (hso : Commit.writeBatchesInOneTxn [fileBatch files] ∈ (batchCommits files).take k →
      SingleOwner toTimestamp q files) :
    (cutRun (Commit.run toTimestamp size) (batchCommits files) k s).Inv toTimestamp q := by
  rcases cutRun_append (Commit.run toTimestamp size) [.writeBatchesInOneTxn [fileBatch files]]
    (prepareWrite (fileBatch files)) k s with
    hcut | ⟨s', hk, hs', hcut⟩
  · rw [batchCommits, hcut]
    exact cutRun_invariant k (fun c hc t t' ht he => ht.run_of_mem_prepareWrite hc he) h
  · rw [batchCommits, hcut]
    have hprep := h.foldlM_prepareWrite hs'
    cases hj : k - (prepareWrite (fileBatch files)).length with
    | zero =>
      rw [cutRun_zero]
      exact hprep.inv
    | succ j =>
      have hmem : Commit.writeBatchesInOneTxn [fileBatch files] ∈ (batchCommits files).take k := by
        rw [batchCommits, List.take_append, hj]
        simp
      unfold cutRun
      split
      · rename_i t ht
        rw [cutRun_nil]
        exact (hprep.write ht).1 (hso hmem)
      · exact hprep.inv

theorem Store.Inv.foldlM_batchCommits
    (h : s.Inv toTimestamp q) (hso : SingleOwner toTimestamp q files)
    (hs : (batchCommits files).foldlM (Commit.run toTimestamp size) s = .ok s') :
    s'.Inv toTimestamp q ∧ Rewrote toTimestamp s files s' := by
  rw [batchCommits, List.foldlM_append] at hs
  obtain ⟨t, ht, hs⟩ := bind_eq_ok.1 hs
  rw [List.foldlM_cons] at hs
  obtain ⟨t', ht', hs⟩ := bind_eq_ok.1 hs
  obtain rfl := Except.ok.inj hs
  obtain ⟨hinv, hrew⟩ := (h.foldlM_prepareWrite ht).write ht'
  exact ⟨hinv hso, hrew⟩

/-- Batches committed whole rewrite the rows of their records. -/
theorem Store.Inv.foldlM_batches : ∀ {batches : List (List FileRecord)} {s s' : Store},
    s.Inv toTimestamp q → (∀ files ∈ batches, SingleOwner toTimestamp q files) →
    (batches.flatMap batchCommits).foldlM (Commit.run toTimestamp size) s = .ok s' →
    s'.Inv toTimestamp q ∧ Rewrote toTimestamp s batches.flatten s'
  | [], s, s', h, _, hs => by
    obtain rfl : s = s' := Except.ok.inj hs
    exact ⟨h, Rewrote.nil s⟩
  | files :: rest, s, s', h, hso, hs => by
    rw [List.flatMap_cons, List.foldlM_append] at hs
    obtain ⟨t, ht, hs⟩ := bind_eq_ok.1 hs
    obtain ⟨hinv, hrew⟩ := h.foldlM_batchCommits (hso files List.mem_cons_self) ht
    obtain ⟨hinv', hrew'⟩ :=
      hinv.foldlM_batches (fun f hf => hso f (List.mem_cons_of_mem _ hf)) hs
    exact ⟨hinv', hrew.trans hrew'⟩

/-- The batches of a session keep the invariant wherever they are cut. -/
theorem Store.Inv.cutRun_batches : ∀ {batches : List (List FileRecord)} {s : Store} {k : ℕ},
    s.Inv toTimestamp q →
    (∀ files, Commit.writeBatchesInOneTxn [fileBatch files] ∈
      (batches.flatMap batchCommits).take k → SingleOwner toTimestamp q files) →
    (cutRun (Commit.run toTimestamp size) (batches.flatMap batchCommits) k s).Inv toTimestamp q
  | [], s, k, h, _ => by simpa using h
  | files :: rest, s, k, h, hso => by
    rw [List.flatMap_cons] at hso ⊢
    rcases cutRun_append (Commit.run toTimestamp size) (rest.flatMap batchCommits)
      (batchCommits files) k s with
      hcut | ⟨s', hk, hs', hcut⟩
    · rw [hcut]
      refine h.cutRun_batchCommits k fun hmem => hso files ?_
      rw [List.take_append]
      exact List.mem_append_left _ hmem
    · rw [hcut]
      have hwrite : Commit.writeBatchesInOneTxn [fileBatch files] ∈
          batchCommits files := by simp [batchCommits]
      have hfiles : SingleOwner toTimestamp q files := by
        refine hso files ?_
        rw [List.take_append, List.take_of_length_le hk]
        exact List.mem_append_left _ hwrite
      refine Store.Inv.cutRun_batches (h.foldlM_batchCommits hfiles hs').1 fun f hf => hso f ?_
      rw [List.take_append]
      exact List.mem_append_right _ hf

/-! ## The orphan delete -/

/-- The state after phase 1 of `delete_paths` and `j` statements of phase 2. -/
def Store.deleted (s : Store) (paths : List String) (j : ℕ) : Store :=
  let db := deletePathsPhase1 s.db paths
  { s with db := { db with files := db.files.filter (·.path ∉ paths.take (deleteBatch * j)) } }

theorem cutRun_deletePathsPhase2 : ∀ (bs : List (List String)) (k : ℕ) (s : Store),
    (∀ r ∈ s.db.files, r.path ∈ bs.flatten → s.db.ownedChunks r.id = []) →
    cutRun (Commit.run toTimestamp size) (bs.map .deletePathsPhase2) k s =
      { s with db := { s.db with files := s.db.files.filter (·.path ∉ (bs.take k).flatten) } }
  | [], k, s, _ => by simp
  | _ :: _, 0, s, _ => by simp
  | b :: bs, k + 1, s, h => by
    have hb : ∀ r ∈ s.db.files, r.path ∈ b → s.db.ownedChunks r.id = [] := by
      intro r hr hp
      exact h r hr (by simp [hp])
    have hrun : (Commit.deletePathsPhase2 b).run toTimestamp size s =
        .ok { s with db := { s.db with files := s.db.files.filter (·.path ∉ b) } } := by
      simp [Commit.run, deletePathsPhase2_ok hb, Except.map]
    rw [List.map_cons, cutRun_cons_ok hrun, cutRun_deletePathsPhase2 bs k]
    · simp only [List.filter_filter, List.take_succ_cons, List.flatten_cons, List.mem_append,
        not_or, Bool.decide_and, decide_not, Bool.and_comm]
    · intro r hr hp
      exact h r (List.mem_of_mem_filter hr) (by simp [hp])

variable {paths : List String}

theorem deletePathsPhase1_chunkless {db : Db} (h : db.WF)
    (hr : r ∈ db.files) (hp : r.path ∈ paths) :
    (deletePathsPhase1 db paths).ownedChunks r.id = [] := by
  rw [deletePathsPhase1_ownedChunks h, if_pos ((h.id_mem_fileIdsOf hr).2 hp)]

theorem cutRun_deletePaths (h : s.db.WF) (hne : paths ≠ [])
    (j : ℕ) : cutRun (Commit.run toTimestamp size) (deletePaths paths) (j + 1) s =
      s.deleted paths j := by
  have hphase1 : (Commit.deletePathsPhase1 paths).run toTimestamp size s =
      .ok { s with db := deletePathsPhase1 s.db paths } := rfl
  rw [deletePaths, if_neg hne, cutRun_cons_ok hphase1, cutRun_deletePathsPhase2,
    flatten_take_slices (by decide)]
  · rfl
  · intro r hr hp
    rw [flatten_slices (by decide)] at hp
    exact deletePathsPhase1_chunkless h (deletePathsPhase1_files h paths ▸ hr) hp

theorem Store.mem_deleted (h : s.db.WF) {j : ℕ} :
    r ∈ (s.deleted paths j).db.files ↔
      r ∈ s.db.files ∧ r.path ∉ paths.take (deleteBatch * j) := by
  simp [Store.deleted, deletePathsPhase1_files h paths]

theorem Store.deleted_ownedChunks (h : s.db.WF) (j : ℕ)
    (hr : r ∈ s.db.files) : (s.deleted paths j).db.ownedChunks r.id =
      if r.path ∈ paths then [] else s.db.ownedChunks r.id := by
  have := deletePathsPhase1_ownedChunks h paths r.id
  rwa [if_congr (h.id_mem_fileIdsOf hr) rfl rfl] at this

theorem Db.WF.deleted (h : s.db.WF) (paths : List String) (j : ℕ) :
    (s.deleted paths j).db.WF := by
  refine (h.deletePathsPhase1 paths).filterFiles fun r hr hp => ?_
  exact deletePathsPhase1_chunkless h (deletePathsPhase1_files h paths ▸ hr)
    (List.mem_of_mem_take hp)

/-- A cut delete keeps the clean rows sound exactly when it leaves no clean row whose chunks
it has deleted. -/
theorem Store.Inv.sound_deleted (h : s.Inv toTimestamp q) (paths : List String)
    (j : ℕ) : (s.deleted paths j).Sound toTimestamp q ↔
      ¬∃ r ∈ s.db.files, q r ∧ s.db.ownedChunks r.id ≠ [] ∧ r.path ∈ paths ∧
        r.path ∉ paths.take (deleteBatch * j) := by
  constructor
  · rintro hclean ⟨r, hr, hc, hown, hp, htake⟩
    obtain ⟨u, hu, -, hins⟩ := hclean r ((Store.mem_deleted h.wf).2 ⟨hr, htake⟩) hc
    obtain ⟨u', hu', -, hins'⟩ := h.sound r hr hc
    obtain rfl : u = u' := Option.some.inj (hu.symm.trans hu')
    rw [Store.deleted_ownedChunks h.wf j hr, if_pos hp] at hins
    exact hown (hins'.trans hins.symm)
  · intro hno r hr hc
    obtain ⟨hr, htake⟩ := (Store.mem_deleted h.wf).1 hr
    obtain ⟨u, hu, hrow, hins⟩ := h.sound r hr hc
    refine ⟨u, hu, hrow, ?_⟩
    rw [Store.deleted_ownedChunks h.wf j hr]
    split
    · rename_i hp
      by_contra hne
      exact hno ⟨r, hr, hc, fun he => hne (he.symm.trans hins), hp, htake⟩
    · exact hins

/-! ## Sessions -/

theorem storeThread_eq (orphans : List String) (batches : List (List FileRecord)) :
    storeThread orphans batches = deletePaths orphans ++ batches.flatMap batchCommits := by
  unfold storeThread
  congr 1
  by_cases hnil : orphans = []
  · simp [hnil, deletePaths]
  · rw [if_neg hnil, prepareWrite, if_pos rfl, List.append_nil]
    exact List.append_nil _

/-- A complete orphan delete leaves the invariant, and no row of its paths. -/
theorem Store.Inv.foldlM_deletePaths (h : s.Inv toTimestamp q)
    (hs : (deletePaths paths).foldlM (Commit.run toTimestamp size) s = .ok s') :
    s'.Inv toTimestamp q ∧ (∀ r, r ∈ s'.db.files ↔ r ∈ s.db.files ∧ r.path ∉ paths) ∧
      s'.upserts = s.upserts := by
  by_cases hne : paths = []
  · subst hne
    obtain rfl : s = s' := Except.ok.inj hs
    exact ⟨h, by simp, rfl⟩
  · have hlen : (deletePaths paths).length = (slices deleteBatch paths).length + 1 := by
      simp [deletePaths, hne]
    have hs' := cutRun_of_foldlM hs hlen.le
    rw [cutRun_deletePaths h.wf hne] at hs'
    have htake : paths.take (deleteBatch * (slices deleteBatch paths).length) = paths := by
      rw [← flatten_take_slices (by decide), List.take_length, flatten_slices (by decide)]
    have hmem : ∀ r, r ∈ s'.db.files ↔ r ∈ s.db.files ∧ r.path ∉ paths := by
      intro r
      rw [← hs', Store.mem_deleted h.wf, htake]
    refine ⟨?_, hmem, by rw [← hs']; rfl⟩
    · rw [← hs']
      refine ⟨h.dirty, h.wf.deleted _ _, h.stored, (h.sound_deleted _ _).2 ?_⟩
      rintro ⟨r, -, -, -, hp, htk⟩
      exact htk (htake.symm ▸ hp)

variable {sess : Session}

theorem not_severs_of_le (s : Store)
    (h : (deletePaths sess.orphans).length ≤ sess.cut) : ¬sess.Severs q s := by
  rintro ⟨hcut, r, -, -, -, hp, htake⟩
  have hne : sess.orphans ≠ [] := List.ne_nil_of_mem hp
  have hk : (slices deleteBatch sess.orphans).length ≤ sess.cut - 1 := by
    simp only [deletePaths, if_neg hne, List.length_cons, List.length_map] at h
    omega
  rw [← flatten_take_slices (by decide), List.take_of_length_le hk,
    flatten_slices (by decide)] at htake
  exact htake hp

theorem mem_batchCommits {files files' : List FileRecord}
    (h : Commit.writeBatchesInOneTxn [fileBatch files] ∈ batchCommits files') : files = files' := by
  rw [batchCommits, prepareWrite_fileBatch, List.mem_append, List.mem_append] at h
  rcases h with (h | h) | h
  · split at h <;> simp at h
  · simp at h
  · simpa [fileBatch] using h

/-- It is enough that every batch of the session has a single owner for each path. -/
theorem singleOwner_of_batches (h : ∀ files ∈ sess.batches, SingleOwner toTimestamp q files) :
    sess.SingleOwner toTimestamp q := by
  intro files hf
  have hmem := List.mem_of_mem_take hf
  rw [storeThread_eq, List.mem_append] at hmem
  rcases hmem with hmem | hmem
  · unfold deletePaths at hmem
    split at hmem <;> simp at hmem
  · obtain ⟨files', hf', hmem⟩ := List.mem_flatMap.1 hmem
    rw [mem_batchCommits hmem]
    exact h files' hf'

/-- A session keeps the invariant when it is cut outside the delete window, and loses the
clean rows when it is cut inside. -/
theorem Store.Inv.session (h : s.Inv toTimestamp q) (hso : sess.SingleOwner toTimestamp q) :
    (¬sess.Severs q s → (sess.run toTimestamp size s).Inv toTimestamp q) ∧
      ((sess.run toTimestamp size s).Sound toTimestamp q ↔ ¬sess.Severs q s) := by
  have hsame : ∀ t : Store, t.Inv toTimestamp q → ¬sess.Severs q s →
      (¬sess.Severs q s → t.Inv toTimestamp q) ∧ (t.Sound toTimestamp q ↔ ¬sess.Severs q s) :=
    fun t ht hns => ⟨fun _ => ht, fun _ => hns, fun _ => ht.sound⟩
  rw [Session.run, storeThread_eq]
  rcases cutRun_append (Commit.run toTimestamp size) (sess.batches.flatMap batchCommits)
    (deletePaths sess.orphans) sess.cut s with
    hcut | ⟨s', hk, hs', hcut⟩
  · rw [hcut]
    by_cases hne : sess.orphans = []
    · rw [hne]
      exact hsame s h fun ⟨_, r, _, _, _, hp, _⟩ => by simp [hne] at hp
    cases hj : sess.cut with
    | zero =>
      rw [cutRun_zero]
      exact hsame s h fun ⟨hone, _⟩ => by omega
    | succ j =>
      rw [cutRun_deletePaths h.wf hne]
      have hiff : (s.deleted sess.orphans j).Sound toTimestamp q ↔ ¬sess.Severs q s := by
        rw [h.sound_deleted, Session.Severs, hj]
        simp
      exact ⟨fun hns => ⟨h.dirty, h.wf.deleted _ _, h.stored, hiff.2 hns⟩, hiff⟩
  · rw [hcut]
    refine hsame _ ((h.foldlM_deletePaths hs').1.cutRun_batches fun files hf => hso files ?_)
      (not_severs_of_le s hk)
    rw [Session.commits, storeThread_eq, List.take_append]
    exact List.mem_append_right _ hf

/-- The upserts a session adds are of records of its batches. -/
theorem Session.mem_upserts_run {u : Upsert} (hu : u ∈ (sess.run toTimestamp size s).upserts) :
    u ∈ s.upserts ∨ ∃ files ∈ sess.batches, u.record ∈ files := by
  have hall : ∀ u ∈ (sess.run toTimestamp size s).upserts,
      u ∈ s.upserts ∨ ∃ files ∈ sess.batches, u.record ∈ files := by
    unfold Session.run
    rw [storeThread_eq]
    refine cutRun_invariant (I := fun t : Store => ∀ u ∈ t.upserts,
      u ∈ s.upserts ∨ ∃ files ∈ sess.batches, u.record ∈ files) sess.cut ?_ fun u hu => Or.inl hu
    intro c hc t t' ht hrun
    cases c with
    | deletePathsPhase1 paths => exact Except.ok.inj hrun ▸ ht
    | preDeleteForUpsert batch => exact Except.ok.inj hrun ▸ ht
    | ensureEmbeddingTableDims dims => exact Except.ok.inj hrun ▸ ht
    | deletePathsPhase2 batch =>
      cases hd : deletePathsPhase2 t.db batch with
      | error e => simp [Commit.run, hd, Except.map] at hrun
      | ok db =>
        obtain rfl : ({ t with db := db } : Store) = t' := by
          simpa [Commit.run, hd, Except.map] using hrun
        exact ht
    | writeBatchesInOneTxn batches =>
      obtain ⟨files, hfiles, rfl⟩ : ∃ files ∈ sess.batches, batches = [fileBatch files] := by
        rcases List.mem_append.1 hc with hc | hc
        · unfold deletePaths at hc
          split at hc <;> simp at hc
        · obtain ⟨files, hfiles, hc⟩ := List.mem_flatMap.1 hc
          rw [batchCommits, prepareWrite_fileBatch, List.mem_append, List.mem_append] at hc
          rcases hc with (hc | hc) | hc
          · split at hc <;> simp at hc
          · simp at hc
          · exact ⟨files, hfiles, by simpa using hc⟩
      cases hw : writeBatchesInOneTxn toTimestamp size t.db [fileBatch files] with
      | error e => simp [Commit.run, hw, Except.map] at hrun
      | ok p =>
        obtain rfl : (⟨p.2, p.1.reverse ++ t.upserts⟩ : Store) = t' := by
          simpa [Commit.run, hw, Except.map] using hrun
        intro v hv
        rcases List.mem_append.1 hv with hv | hv
        · exact Or.inr ⟨files, hfiles,
            mem_files_of_writeBatchesInOneTxn hw (List.mem_reverse.1 hv)⟩
        · exact ht v hv
  exact hall u hu

theorem Store.inv_of_reach (hq : ∀ r : FileRow, ¬q r.dirty)
    (h : ReachWhen (Session.step toTimestamp size)
      (fun s sess => sess.SingleOwner toTimestamp q ∧ ¬sess.Severs q s) Store.empty s) :
    s.Inv toTimestamp q := by
  refine h.invariant (Store.inv_empty hq) fun t sess t' ht ⟨hso, hns⟩ hstep => ?_
  obtain rfl := Option.some.inj hstep
  exact (ht.session hso).1 hns

end

/-- In every state reached by sessions that are cut outside the delete window and carry the
chunks of a path in one record, every clean row owns the chunks inserted with it. From such
a state, a session keeps that so exactly when it is cut outside the window. -/
theorem cleanRows_of_reach (toTimestamp : ℚ → ℚ) (insertBatchSize : ℕ) {s : Store}
    (h : ReachWhen (Session.step toTimestamp insertBatchSize)
      (fun s sess => sess.SingleOwner toTimestamp FileRow.Clean ∧ ¬sess.Severs FileRow.Clean s)
      Store.empty s) :
    s.CleanRows toTimestamp ∧ ∀ sess : Session, sess.SingleOwner toTimestamp FileRow.Clean →
      ((sess.run toTimestamp insertBatchSize s).CleanRows toTimestamp ↔
        ¬sess.Severs FileRow.Clean s) :=
  have hinv := Store.inv_of_reach FileRow.not_clean_dirty h
  ⟨hinv.sound, fun _ hso => (hinv.session hso).2⟩

/-- A file with one chunk, indexed. -/
def indexedFile : FileRecord where
  existingFileId := none
  path := "a.py"
  mtime := some 5
  sizeBytes := some 8
  contentHash := some "h1"
  language := some "python"
  skipReason := none
  chunks := [{
    chunkType := "function"
    symbol := some "f"
    code := "def f()"
    startLine := some 1
    endLine := some 2
    startByte := none
    endByte := none
    language := some "python"
    metadata := none
    embedding := none
    provider := none
    model := none }]
  parsedFrom := none

/-- The file is indexed, then leaves the disk, and the run that deletes its row is killed
after phase 1 : the row is clean and owns nothing. -/
theorem severed_row_stays_clean : ∃ s, Reach (Session.step id 1000) Store.empty s ∧
    ∃ r ∈ s.db.files, r.Clean ∧ ∃ u ∈ s.lastUpsert r.id, u.inserted ≠ [] ∧
      s.db.ownedChunks r.id = [] ∧ ¬s.CleanRows id :=
  ⟨_, Reach.of_execute [⟨[], [[indexedFile]], 2⟩, ⟨["a.py"], [], 1⟩] rfl, by decide⟩

theorem cleanRows_indexedFile :
    (Session.run id 1000 Store.empty ⟨[], [[indexedFile]], 2⟩).CleanRows id := by
  refine (cleanRows_of_reach id 1000 (.step .init ⟨?_, ?_⟩ rfl)).1
  · refine singleOwner_of_batches fun files hf => ?_
    rw [List.mem_singleton.1 hf]
    exact singleOwner_of_nodup (by simp)
  · rintro ⟨-, r, hr, -⟩
    simp [Store.empty, Db.empty] at hr

end ChunkHound
