import ChunkHound.CompactionSafety
import ChunkHound.ProviderCompaction

/-!
# What the provider's compaction keeps

While a compaction runs the data is at the live path, with a backup that is a copy of it if
there is one (`Live`), or the live path is empty and the backup is the data (`Aside`). Every
step of the compaction, of the restore and of a connect keeps one of the two, and what returns
leaves the data live (`executorCompactDatabase_safe`, `connect_safe`).

A compaction does not always start like that : the backup of an earlier one, whose restore
failed as well, may be older than the data. `_compact_restore` does not ask whose backup it
finds. When a step before `backup_path.unlink` raises it moves the old one over the live file,
and so `keepsCopy_iff` : the data is safe exactly when there is no such backup.
-/

namespace ChunkHound

open CrashHoare

namespace Provider

section Safety

variable {data : Contents} {isWindows : Bool}

/-- The data is live, and a backup is a copy of it. -/
structure Live (data : Contents) (d : ProviderDisk) : Prop where
  live : IsCopy data d.live
  backup : d.backup = none ∨ IsCopy data d.backup
  startable : Startable d.compacted

/-- The live file was moved to the backup. -/
structure Aside (data : Contents) (d : ProviderDisk) : Prop where
  live : d.live = none
  backup : IsCopy data d.backup
  startable : Startable d.compacted

def Safe (data : Contents) (d : ProviderDisk) : Prop := Live data d ∨ Aside data d

/-- One of the three files is a complete copy. -/
def HasCopy (data : Contents) (d : ProviderDisk) : Prop :=
  IsCopy data d.live ∨ IsCopy data d.backup ∨ IsCopy data d.compacted

variable {d : ProviderDisk}

theorem Safe.hasCopy (h : Safe data d) : HasCopy data d :=
  h.elim (fun h => Or.inl h.live) fun h => Or.inr (Or.inl h.backup)

theorem Live.safe (h : Live data d) : Safe data d := Or.inl h

theorem Aside.safe (h : Aside data d) : Safe data d := Or.inr h

/-- Where there is a live file it is the data. -/
theorem Safe.live_of_exists (h : Safe data d) (hl : d.live ≠ none) :
    Live data d :=
  h.resolve_right fun h => hl h.live

theorem isCopy_none : ¬IsCopy data none := fun ⟨_, h, _⟩ => nomatch h

/-! ## Steps -/

variable {P C : ProviderDisk → Prop}

/-- What changes no row keeps any condition. -/
theorem execute_keeps (hP : ∀ d, P d → C d) :
    Triple P execute (fun _ => P) C :=
  Triple.act hP fun d d' h hd => by
    obtain rfl := Option.some.inj hd
    exact ⟨h, hP _ h⟩

theorem restoreHnsw_keeps (hP : ∀ d, P d → C d) (hadHnsw : Bool) :
    Triple P (restoreHnsw hadHnsw) (fun _ => P) C := by
  cases hadHnsw with
  | true => exact execute_keeps hP
  | false => exact Triple.pure _ fun _ h => h

theorem getsize_keeps (hP : ∀ d, P d → C d) (path : ProviderPath) :
    Triple P (getsize path) (fun _ => P) C :=
  (Triple.query hP).conseq (fun _ h => h) fun _ _ h => h.1

theorem closeLive_keeps (hP : ∀ d, P d → C d) :
    Triple P closeLiveCompactionConnections (fun _ => P) C :=
  Triple.seq (execute_keeps hP) (execute_keeps hP)

theorem Live.dropBackup (h : Live data d) :
    Live data { d with backup := none } :=
  ⟨h.live, Or.inl rfl, h.startable⟩

theorem unlinkBackup_live :
    Triple (Live data) (unlink .backup) (fun _ => Live data) (Safe data) :=
  Triple.act (fun _ h => h.safe) fun d d' h hd => by
    obtain rfl := Option.some.inj hd
    exact ⟨h.dropBackup, h.dropBackup.safe⟩

theorem unlinkCompacted_live :
    Triple (Live data) (unlinkCompacted isWindows) (fun _ => Live data) (Safe data) := by
  have hdrop : ∀ d : ProviderDisk, Live data d → Live data { d with compacted := none } :=
    fun d h => ⟨h.live, h.backup, startable_none⟩
  cases isWindows with
  | true =>
    show Triple _ (Prog.attempt (unlink .compacted)) _ _
    refine Triple.attempt (Triple.act (fun _ h => h) fun d d' h hd => ?_) fun _ h => h.safe
    obtain rfl := Option.some.inj hd
    exact ⟨hdrop d h, hdrop d h⟩
  | false =>
    show Triple _ (unlink .compacted) _ _
    refine Triple.act (fun _ h => h.safe) fun d d' h hd => ?_
    obtain rfl := Option.some.inj hd
    exact ⟨hdrop d h, (hdrop d h).safe⟩

/-- Connecting to the data changes nothing. -/
theorem duckdbConnect_live :
    Triple (Live data) (duckdbConnect .live) (fun _ => Live data) (Safe data) := by
  refine Triple.seq (M := Live data) (Triple.act (fun _ h => h.safe) fun d d' h hd => ?_)
    (Triple.act (fun _ h => h.safe) fun d d' h hd => ?_)
  · obtain ⟨img, hl, -⟩ := h.live
    obtain rfl : d = d' := by
      rw [← Option.some.inj hd]
      simp only [ProviderDisk.setFile, ProviderDisk.file, hl, Option.getD_some]
      rw [← hl]
    exact ⟨h, h.safe⟩
  · obtain ⟨img, hl, -⟩ := h.live
    obtain rfl : d = d' := by
      rw [← Option.some.inj hd]
      simp only [ProviderDisk.setFile, ProviderDisk.file, hl, openedImage]
      rw [← hl]
    exact ⟨h, h.safe⟩

theorem createConnection_live :
    Triple (Live data) createConnection (fun _ => Live data) (Safe data) :=
  Triple.seq duckdbConnect_live (execute_keeps fun _ h => h.safe)

theorem createSchema_live :
    Triple (Live data) createSchema (fun _ => Live data) (Safe data) := by
  refine Triple.act (fun _ h => h.safe) fun d d' h hd => ?_
  obtain ⟨img, hl, hwf, -⟩ := h.live
  obtain rfl : d = d' := by
    rw [hl] at hd
    rw [← Option.some.inj hd, DbImage.setupSchema_of_wf hwf, ← hl]
  exact ⟨h, h.safe⟩

/-- Moving the backup to the live path. -/
theorem replaceBackup_safe :
    Triple (fun d => Safe data d ∧ IsCopy data d.backup) (atomicReplace .backup .live)
      (fun _ => Live data) (Safe data) := by
  refine Triple.act (fun _ h => h.1) fun d d' h hd => ?_
  obtain ⟨f, hf, rfl⟩ := Option.map_eq_some_iff.1 hd
  obtain ⟨hsafe, img, hb, hwf, hdata⟩ := h
  obtain rfl : f = .image img := Option.some.inj (hf.symm.trans hb)
  have hstart : Startable d.compacted := hsafe.elim Live.startable Aside.startable
  have hlive : Live data ((d.setFile .live (some (.image img))).setFile .backup none) :=
    ⟨⟨img, rfl, hwf, hdata⟩, Or.inl rfl, hstart⟩
  exact ⟨hlive, hlive.safe⟩

/-! ## Prepare -/

theorem replaceLive_aside :
    Triple (Live data) (atomicReplace .live .backup) (fun _ => Aside data) (Safe data) := by
  refine Triple.act (fun _ h => h.safe) fun d d' h hd => ?_
  obtain ⟨f, hf, rfl⟩ := Option.map_eq_some_iff.1 hd
  obtain ⟨img, hl, hwf, hdata⟩ := h.live
  obtain rfl : f = .image img := Option.some.inj (hf.symm.trans hl)
  have haside : Aside data ((d.setFile .backup (some (.image img))).setFile .live none) :=
    ⟨rfl, ⟨img, rfl, hwf, hdata⟩, h.startable⟩
  exact ⟨haside, haside.safe⟩

theorem compactPrepare_safe :
    Triple (Live data) (compactPrepare isWindows) (fun _ => Aside data) (Safe data) := by
  have hsafe : ∀ d : ProviderDisk, Live data d → Safe data d := fun _ h => h.safe
  refine Triple.seq (execute_keeps hsafe) (Triple.seq (getsize_keeps hsafe .live) ?_)
  refine Triple.seq (closeLive_keeps hsafe) (Triple.seq unlinkBackup_live ?_)
  exact Triple.seq unlinkCompacted_live replaceLive_aside

/-! ## Copy -/

section Copy

variable {src : DbImage}

/-- The disk while `.compact_new` is built, with a condition on what is in it. -/
structure Building (src : DbImage) (J : DbImage → Prop) (d : ProviderDisk) : Prop where
  live : d.live = none
  backup : d.backup = some (.image src)
  compacted : ∃ img, d.compacted = some (.image img) ∧ J img

variable {J : DbImage → Prop}

theorem Building.safe (hsrc : src.WF) (hJ : Stable J) {d : ProviderDisk}
    (h : Building src J d) : Safe src.tables d := by
  obtain ⟨img, hc, hj⟩ := h.compacted
  refine Or.inr ⟨h.live, ⟨src, h.backup, hsrc, rfl⟩, fun img' himg => ?_⟩
  obtain rfl : img = img' := by simpa [hc] using himg
  exact hJ img hj

theorem executeTgt_executes (hsrc : src.WF) :
    Executes src executeTgt (Building src) (Safe src.tables) := by
  intro stmt J K hJ hK h
  refine Triple.act (fun _ hd => hd.safe hsrc hJ) fun d d' hd hd' => ?_
  suffices hb : Building src K d' from ⟨hb, hb.safe hsrc hK⟩
  obtain ⟨img, hc, hj⟩ := hd.compacted
  simp only [hc, hd.backup] at hd'
  obtain ⟨img', himg', rfl⟩ := Option.map_eq_some_iff.1 hd'
  exact ⟨hd.live, rfl, img', rfl, h img img' hj himg'⟩

theorem querySrc_building (hsrc : src.WF) {α : Type} {f : DbImage → Option α}
    (hJ : Stable J) :
    Triple (Building src J) (querySrc f) (fun a d => Building src J d ∧ f src = some a)
      (Safe src.tables) := by
  refine Triple.conseq (Triple.query fun _ hd => hd.safe hsrc hJ) (fun _ hd => hd) ?_
  rintro a d ⟨hd, ha⟩
  rw [hd.backup] at ha
  exact ⟨hd, ha⟩

theorem srcMaxId_building (hsrc : src.WF) (hJ : Stable J) (name : TableName) :
    Triple (Building src J) (srcMaxId name) (fun _ => Building src J) (Safe src.tables) :=
  (querySrc_building hsrc hJ).conseq (fun _ h => h) fun _ _ h => h.1

theorem maxEmbeddingId_building (hsrc : src.WF) (hJ : Stable J) (embTables : List ℕ) :
    Triple (Building src J) (maxEmbeddingId embTables) (fun _ => Building src J)
      (Safe src.tables) :=
  Triple.foldlM (fun _ dims => (srcMaxId_building hsrc hJ (.embeddings dims)).bind fun _ =>
    Triple.pure _ fun _ h => h) embTables 0

/-- `duckdb.connect` finds nothing, or a leftover the copy may start on. -/
theorem duckdbConnect_building (hsrc : src.WF) :
    Triple (fun d => d.live = none ∧ d.backup = some (.image src) ∧ Startable d.compacted)
      (duckdbConnect .compacted) (fun _ => Building src DbImage.Startable)
      (Safe src.tables) := by
  have hsafe : ∀ d : ProviderDisk, d.live = none ∧ d.backup = some (.image src) ∧
      Startable d.compacted → Safe src.tables d := fun d h =>
    Or.inr ⟨h.1, ⟨src, h.2.1, hsrc, rfl⟩, h.2.2⟩
  refine Triple.seq (Triple.act hsafe fun d d' hd hd' => ?_)
    (Triple.act hsafe fun d d' hd hd' => ?_)
  · obtain ⟨hl, hb, hc⟩ := hd
    obtain rfl := Option.some.inj hd'
    have hd1 : Startable (some (d.compacted.getD .zeroLength)) := by
      intro img himg
      cases hcd : d.compacted with
      | none => simp [hcd] at himg
      | some f => exact hc img (by simpa [hcd] using himg)
    exact ⟨⟨hl, hb, hd1⟩, hsafe _ ⟨hl, hb, hd1⟩⟩
  · obtain ⟨hl, hb, hc⟩ := hd
    obtain rfl := Option.some.inj hd'
    have hst : (openedImage d.compacted).Startable := by
      unfold openedImage
      split
      · exact hc _ (by assumption)
      · exact Or.inl rfl
    have hbuild : Building src DbImage.Startable
        (d.setFile .compacted (some (.image (openedImage d.compacted)))) :=
      ⟨hl, hb, _, rfl, hst⟩
    exact ⟨hbuild, hbuild.safe hsrc fun _ h => h⟩

theorem attachBackup_building (hsrc : src.WF) (hJ : Stable J) :
    Triple (Building src J) attachBackup (fun _ => Building src J) (Safe src.tables) := by
  refine Triple.act (fun _ hd => hd.safe hsrc hJ) fun d d' hd hd' => ?_
  obtain rfl := Option.some.inj hd'
  have hb : Building src J { d with backup := some (.image (openedImage d.backup)) } :=
    ⟨hd.live, by simp [hd.backup, openedImage], hd.compacted⟩
  exact ⟨hb, hb.safe hsrc hJ⟩

/-- A copy that returns leaves a complete copy in `.compact_new`. -/
theorem compactCopyData_building (hsrc : src.WF) :
    Triple (fun d => d.live = none ∧ d.backup = some (.image src) ∧ Startable d.compacted)
      compactCopyData
      (fun _ d => d.live = none ∧ d.backup = some (.image src) ∧ IsCopy src.tables d.compacted)
      (Safe src.tables) := by
  have hst : Stable DbImage.Startable := fun _ h => h
  have hx := executeTgt_executes hsrc
  have hother {seqs : List SequenceName} {created filled : List TableName}
      (hseq : .filesIdSeq ∈ seqs) :
      Triple (Building src (Copying src seqs created filled)) (executeTgt .other)
        (fun _ => Building src (Copying src seqs created filled)) (Safe src.tables) :=
    hx.copying hseq hseq fun _ _ h ha => h.other ha
  have hexec {seqs : List SequenceName} {created filled : List TableName}
      (hseq : .filesIdSeq ∈ seqs) :
      Triple (Building src (Copying src seqs created filled)) execute
        (fun _ => Building src (Copying src seqs created filled)) (Safe src.tables) :=
    execute_keeps fun _ h => h.safe hsrc fun _ hi => hi.startable hseq
  refine Triple.seq (duckdbConnect_building hsrc) ?_
  refine Triple.seq (execute_keeps fun _ h => h.safe hsrc hst) ?_
  refine Triple.seq (attachBackup_building hsrc hst) ?_
  refine Triple.bind (srcMaxId_building hsrc hst .files) fun maxFileId => ?_
  refine Triple.bind (srcMaxId_building hsrc hst .chunks) fun maxChunkId => ?_
  refine Triple.bind (querySrc_building hsrc hst) fun embTables => Triple.and_pre fun hemb => ?_
  obtain rfl : src.embeddingTables = embTables := Option.some.inj hemb
  refine Triple.bind (maxEmbeddingId_building hsrc hst _) fun maxEmbId => ?_
  refine Triple.seq (hx.createFilesIdSeq _) ?_
  refine Triple.seq (hx.copying (by decide) (by decide) fun _ _ h ha => h.createSequence ha) ?_
  refine Triple.seq (hx.copying (by decide) (by decide) fun _ _ h ha => h.createSequence ha) ?_
  refine Triple.seq (hx.copying (by decide) (by decide) fun _ _ h ha => h.createTable ha) ?_
  refine Triple.seq (hx.copying (by decide) (by decide) fun _ _ h ha => h.createTable ha) ?_
  refine Triple.seq (hexec (by decide)) ?_
  refine Triple.seq (hx.copying (by decide) (by decide) fun _ _ h ha => h.createTable ha) ?_
  refine Triple.seq (hx.copying (by decide) (by decide)
    fun _ _ h ha => h.insertSelectStar (by decide) ha) ?_
  refine Triple.seq (hx.copying (by decide) (by decide)
    fun _ _ h ha => h.insertSelect hsrc (by decide) (by decide) ha) ?_
  refine Triple.seq (hx.copying (by decide) (by decide)
    fun _ _ h ha => h.insertSelect hsrc (by decide) (by decide) ha) ?_
  refine Triple.seq (forM_copying
    (fun _ dims => Triple.seq (hx.createEmbeddings (by decide) dims)
      (hx.fillEmbeddings hsrc (by decide) dims)) src.embeddingTables) ?_
  refine Triple.seq (hexec (by decide)) (Triple.seq (hother (by decide)) ?_)
  refine Triple.seq (Triple.forM (I := fun _ _ => Building src (Copying src createdSequences
    (createdTables src.embeddingTables) (filledTables src.embeddingTables)))
    (fun _ _ _ => hother (by decide)) src.embeddingTables []) ?_
  refine Triple.seq (hother (by decide)) ?_
  refine (hexec (by decide)).conseq (fun _ h => h) fun _ d h => ?_
  obtain ⟨img, hc, hcopy⟩ := h.compacted
  exact ⟨h.live, h.backup, img, hc, hcopy.complete_all hsrc⟩

end Copy

theorem compactCopyData_safe :
    Triple (Aside data) compactCopyData
      (fun _ d => d.live = none ∧ IsCopy data d.backup ∧ IsCopy data d.compacted)
      (Safe data) := by
  intro d h os
  obtain ⟨src, hb, hwf, rfl⟩ := h.backup
  refine (compactCopyData_building hwf d ⟨h.live, hb, h.startable⟩ os).mono ?_
  rintro _ d' ⟨hl', hb', hc'⟩
  exact ⟨hl', ⟨src, hb', hwf, rfl⟩, hc'⟩

/-! ## Finalize and restore -/

theorem replaceCompacted_live :
    Triple (fun d => d.live = none ∧ IsCopy data d.backup ∧ IsCopy data d.compacted)
      (atomicReplace .compacted .live) (fun _ => Live data) (Safe data) := by
  refine Triple.act (fun d h => Or.inr ⟨h.1, h.2.1, h.2.2.startable⟩) fun d d' h hd => ?_
  obtain ⟨f, hf, rfl⟩ := Option.map_eq_some_iff.1 hd
  obtain ⟨-, hb, img, hc, hwf, hdata⟩ := h
  obtain rfl : f = .image img := Option.some.inj (hf.symm.trans hc)
  have hlive : Live data ((d.setFile .live (some (.image img))).setFile .compacted none) :=
    ⟨⟨img, rfl, hwf, hdata⟩, Or.inr hb, startable_none⟩
  exact ⟨hlive, hlive.safe⟩

theorem compactFinalize_safe (hadHnsw : Bool) :
    Triple (fun d => d.live = none ∧ IsCopy data d.backup ∧ IsCopy data d.compacted)
      (compactFinalize hadHnsw) (fun _ => Live data) (Safe data) := by
  have hsafe : ∀ d : ProviderDisk, Live data d → Safe data d := fun _ h => h.safe
  refine Triple.seq replaceCompacted_live ?_
  refine Triple.seq createConnection_live (Triple.seq createConnection_live ?_)
  refine Triple.seq (execute_keeps hsafe) (Triple.seq (restoreHnsw_keeps hsafe hadHnsw) ?_)
  exact Triple.seq unlinkBackup_live (getsize_keeps hsafe .live)

theorem restoreBackup_safe :
    Triple (Safe data) restoreBackup (fun _ => Live data) (Safe data) := by
  refine Triple.get_bind fun d hd => ?_
  split
  · rename_i hsome
    have hb : IsCopy data d.backup := by
      rcases hd with h | h
      · exact h.backup.resolve_left fun hnone => by simp [hnone] at hsome
      · exact h.backup
    exact replaceBackup_safe.pre fun s hs => hs ▸ ⟨hd, hb⟩
  · rename_i hnone
    have hlive : Live data d := hd.resolve_right fun h => by
      obtain ⟨img, himg, -⟩ := h.backup
      simp [himg] at hnone
    exact Triple.pure _ fun s hs => hs ▸ hlive

theorem compactRestore_safe (isWindows hadHnsw : Bool) :
    Triple (Safe data) (compactRestore isWindows hadHnsw) (fun _ => Live data) (Safe data) := by
  have hsafe : ∀ d : ProviderDisk, Live data d → Safe data d := fun _ h => h.safe
  refine Triple.seq (closeLive_keeps fun _ h => h) (Triple.seq restoreBackup_safe ?_)
  refine Triple.seq unlinkCompacted_live (Triple.seq createConnection_live ?_)
  refine Triple.seq createSchema_live (Triple.seq (execute_keeps hsafe) ?_)
  exact Triple.seq (restoreHnsw_keeps hsafe hadHnsw) createConnection_live

/-- A compaction that starts without an older backup keeps the data, whatever raises. -/
theorem executorCompactDatabase_safe (isWindows hadHnsw transactionActive : Bool) :
    Triple (Live data) (executorCompactDatabase isWindows hadHnsw transactionActive)
      (fun _ => Live data) (Safe data) := by
  have hsafe : ∀ d : ProviderDisk, Live data d → Safe data d := fun _ h => h.safe
  unfold executorCompactDatabase
  split
  · exact Triple.throw _ hsafe
  · refine Triple.tryCatch ?_ fun e => ?_
    · refine Triple.seq compactPrepare_safe (Triple.seq compactCopyData_safe ?_)
      exact compactFinalize_safe hadHnsw
    · have hrestore : Triple (Safe data) _ (fun _ => Safe data) _ :=
        (compactRestore_safe isWindows hadHnsw).conseq (fun _ h => h) fun _ _ h => h.safe
      exact Triple.seq (Triple.attempt hrestore fun _ h => h) (Triple.throw _ fun _ h => h)

/-! ## Connecting -/

theorem recoverBackup_safe :
    Triple (Safe data) recoverBackup (fun _ => Live data) (Safe data) := by
  refine Triple.get_bind fun d hd => ?_
  rcases hd with h | h
  · rw [if_neg (by simp [h.live.not_missing]), if_pos (by simp [h.live.not_missing])]
    exact unlinkBackup_live.pre fun s hs => hs ▸ h
  · obtain ⟨img, hb, -⟩ := h.backup
    rw [if_pos ⟨by simp [hb], by rw [h.live]; rfl⟩]
    refine Triple.pre (P := Aside data) ?_ fun s hs => hs ▸ h
    -- there is no live file to unlink
    refine Triple.seq (M := Aside data) (Triple.act (fun _ h => h.safe) fun d d' h hd => ?_)
      (replaceBackup_safe.pre fun _ h => ⟨h.safe, h.backup⟩)
    obtain rfl := Option.some.inj hd
    have haside : Aside data (d.setFile .live none) := ⟨rfl, h.backup, h.startable⟩
    exact ⟨haside, haside.safe⟩

theorem duckdbConnectReadOnly_safe {P : ProviderDisk → Prop} (hP : ∀ d, P d → Safe data d) :
    Triple P duckdbConnectReadOnly (fun _ => Live data) (Safe data) := by
  refine (Triple.query hP).conseq (fun _ h => h) ?_
  rintro _ d ⟨hd, hopen⟩
  refine (hP d hd).live_of_exists fun hl => ?_
  simp [hl] at hopen

/-- A connect that returns finds the data at the live path. -/
theorem connect_safe (isWindows readOnly : Bool) :
    Triple (Safe data) (connect isWindows readOnly) (fun _ => Live data) (Safe data) := by
  have hsafe : ∀ d : ProviderDisk, Live data d → Safe data d := fun _ h => h.safe
  refine Triple.seq (execute_keeps fun _ h => h) ?_
  split
  · refine Triple.seq (duckdbConnectReadOnly_safe fun _ h => h) ?_
    exact Triple.seq (execute_keeps hsafe) (duckdbConnectReadOnly_safe hsafe)
  · refine Triple.seq (Triple.seq recoverBackup_safe unlinkCompacted_live) ?_
    refine Triple.seq duckdbConnect_live (Triple.seq (execute_keeps hsafe) ?_)
    refine Triple.seq createConnection_live (Triple.seq createSchema_live ?_)
    exact execute_keeps hsafe

end Safety

/-! ## A compaction and the connects after it -/

/-- A connect, with what becomes of its actions. -/
structure ConnectRun where
  readOnly : Bool
  outcomes : List Outcome

def afterConnects (isWindows : Bool) (conns : List ConnectRun) (d : ProviderDisk) :
    ProviderDisk :=
  conns.foldl (fun d c => (connect isWindows c.readOnly d c.outcomes).state) d

/-- Whatever becomes of a compaction and of the connects after it, one of the files is a complete
copy, and a connect that returns has opened one. -/
def KeepsCopy (isWindows : Bool) (data : Contents) (d : ProviderDisk) : Prop :=
  ∀ hadHnsw transactionActive os conns,
    let d' := afterConnects isWindows conns
      (executorCompactDatabase isWindows hadHnsw transactionActive d os).state
    HasCopy data d' ∧ ∀ readOnly os' u d'' rest,
      connect isWindows readOnly d' os' = .done u d'' rest → IsCopy data d''.live

section Runs

variable {data : Contents} {isWindows : Bool}

theorem Safe.after {α : Type} {p : ProviderM α} {P : ProviderDisk → Prop} {d : ProviderDisk}
    (h : Triple P p (fun _ => Live data) (Safe data)) (hd : P d) (os : List Outcome) :
    Safe data (p d os).state := by
  have hm : (p d os).Meets (fun _ => Safe data) (Safe data) :=
    (h d hd os).mono fun _ _ hlive => Live.safe hlive
  exact hm.state

theorem Safe.afterConnects (isWindows : Bool) : ∀ (conns : List ConnectRun) {d : ProviderDisk},
    Safe data d → Safe data (afterConnects isWindows conns d)
  | [], _, h => h
  | c :: conns, _, h =>
    Safe.afterConnects isWindows conns (Safe.after (connect_safe isWindows c.readOnly) h c.outcomes)

/-- The run that shows an older backup : `CHECKPOINT` raises, and the restore takes the backup. -/
theorem checkpoint_raises (isWindows : Bool) (f : DbFile) (live compacted : Option DbFile) :
    (executorCompactDatabase isWindows false false ⟨live, some f, compacted⟩
      [.failed, .ok, .ok, .ok, .ok]).state = ⟨some f, none, none⟩ := by
  cases isWindows with
  | true => rfl
  | false => rfl

theorem isCopy_of_keepsCopy {f : DbFile} {live compacted : Option DbFile}
    (h : KeepsCopy isWindows data ⟨live, some f, compacted⟩) : IsCopy data (some f) := by
  obtain ⟨hcopy, -⟩ := h false false [.failed, .ok, .ok, .ok, .ok] []
  have hcopy : HasCopy data ⟨some f, none, none⟩ :=
    checkpoint_raises isWindows f live compacted ▸ hcopy
  rcases hcopy with hf | hnone | hnone
  · exact hf
  · exact absurd hnone isCopy_none
  · exact absurd hnone isCopy_none

/-- With the data live, a compaction and the connects after it keep it exactly when a backup that
is there at the start is a copy of it. -/
theorem keepsCopy_iff {d : ProviderDisk} (hlive : IsCopy data d.live)
    (hstart : Startable d.compacted) :
    KeepsCopy isWindows data d ↔ d.backup = none ∨ IsCopy data d.backup := by
  constructor
  · intro h
    obtain ⟨live, backup, compacted⟩ := d
    cases backup with
    | none => exact Or.inl rfl
    | some f => exact Or.inr (isCopy_of_keepsCopy h)
  · intro hbackup hadHnsw transactionActive os conns
    have hsafe := Safe.afterConnects isWindows conns (Safe.after
      (executorCompactDatabase_safe isWindows hadHnsw transactionActive)
      ⟨hlive, hbackup, hstart⟩ os)
    refine ⟨hsafe.hasCopy, fun readOnly os' u d'' rest hr => ?_⟩
    have hm := (connect_safe isWindows readOnly).of_done hsafe hr
    exact Live.live hm

end Runs

/-- A database with one file. -/
def oneFile : DbImage :=
  { DbImage.empty.setupSchema with
    tables := Function.update DbImage.empty.setupSchema.tables .files
      (some [fun c => if c = "path" then .text "a.py" else .null]) }

theorem oneFile_wf : oneFile.WF where
  sequences := DbImage.wf_setupSchema_empty.sequences
  files := rfl
  chunks := rfl
  version := DbImage.wf_setupSchema_empty.version
  columns := by
    intro name rows hrows r hr c hc
    by_cases hfiles : name = .files
    · subst hfiles
      obtain rfl := Option.some.inj hrows
      rw [List.mem_singleton.1 hr]
      exact if_neg fun hpath : c = "path" => hc (by rw [hpath]; decide)
    · have htables : oneFile.tables name = DbImage.empty.setupSchema.tables name :=
        Function.update_of_ne hfiles _ _
      exact DbImage.wf_setupSchema_empty.columns name rows (htables ▸ hrows) r hr c hc
  catalog := DbImage.wf_setupSchema_empty.catalog

/-- A compaction that cannot drop its backup, nor close the connection for the restore. -/
def backupLeft : ProviderDisk :=
  (executorCompactDatabase false false false
    ⟨some (.image DbImage.empty.setupSchema), none, none⟩
    (List.replicate 36 .ok ++ [.failed, .failed])).state

/-- The backup it leaves is what the next compaction restores, over the file stored since. -/
theorem backupLeft_loses :
    IsCopy oneFile.tables { backupLeft with live := some (.image oneFile) }.live ∧
      ¬KeepsCopy false oneFile.tables { backupLeft with live := some (.image oneFile) } := by
  refine ⟨⟨oneFile, rfl, oneFile_wf, rfl⟩, fun h => ?_⟩
  have hleft : { backupLeft with live := some (.image oneFile) } =
      (⟨some (.image oneFile), some (.image DbImage.empty.setupSchema), none⟩ : ProviderDisk) := by
    cbv
  rw [hleft] at h
  obtain ⟨img, himg, -, hdata⟩ := isCopy_of_keepsCopy h
  obtain rfl : DbImage.empty.setupSchema = img := by simpa using himg
  have hfiles := congrFun hdata .files
  simp [oneFile, DbImage.setupSchema, DbImage.empty] at hfiles

theorem keepsCopy_oneFile : KeepsCopy false oneFile.tables ⟨some (.image oneFile), none, none⟩ :=
  (keepsCopy_iff ⟨oneFile, rfl, oneFile_wf, rfl⟩ startable_none).2 (Or.inl rfl)

end Provider

end ChunkHound
