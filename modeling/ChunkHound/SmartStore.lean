import ChunkHound.ParsedStore
import Mathlib

/-!
# The smart diff against a fresh store

What storing one result leaves (`storeFile_spec`) : of the file's rows those whose content
is still parsed, then the rows of the new contents, and of every other file its rows. The
ids come out in the order of the inserted rows.

A kept row has the lines, symbol and type it was stored with. So the file ends up as a
store into an empty index would leave it exactly when, over the contents that were stored
before and are parsed again, the stored rows are what storing the new chunks would give
(`smartStore_eq_fresh_iff`). A moved or renamed chunk, and a chunk repeated more or less
often than before, are the ways to miss that.
-/

namespace ChunkHound

open Grouping

namespace IndexDb

/-- What the keys, the sequences and the foreign key of the schema say. -/
structure WF (db : IndexDb) : Prop where
  fileIds : (db.files.map (·.id)).Nodup
  fileIdLt : ∀ f ∈ db.files, f.id < db.filesIdSeq
  filePaths : (db.files.map (·.path)).Nodup
  chunkIds : (db.chunks.map (·.id)).Nodup
  chunkIdLt : ∀ e ∈ db.chunks, e.id < db.chunksIdSeq
  chunkFile : ∀ e ∈ db.chunks, ∃ f ∈ db.files, f.id = e.chunk.fileId
  embeddingIdLt : ∀ e ∈ db.embeddings, e.chunkId < db.chunksIdSeq

theorem wf_empty : empty.WF := by
  constructor <;> simp [empty]

/-- The id a path has. -/
def fileIdOf (db : IndexDb) (path : String) : Option ℕ := (db.getFileByPath path).map (·.id)

/-- The chunk rows of a file. -/
def fileChunks (db : IndexDb) (path : String) : List ChunkEntry :=
  match db.fileIdOf path with
  | some id => db.chunks.filter (·.chunk.fileId = id)
  | none => []

variable {db : IndexDb}

theorem exists_of_fileIdOf {path : String} {id : ℕ}
    (h : db.fileIdOf path = some id) : ∃ f ∈ db.files, f.path = path ∧ f.id = id := by
  obtain ⟨f, hf, rfl⟩ := Option.map_eq_some_iff.1 h
  exact ⟨f, List.mem_of_find?_eq_some hf, by simpa using List.find?_some hf, rfl⟩

/-- Two paths have two ids. -/
theorem WF.fileIdOf_inj (h : db.WF) {p q : String} {id : ℕ}
    (hp : db.fileIdOf p = some id) (hq : db.fileIdOf q = some id) : p = q := by
  obtain ⟨f, hf, rfl, rfl⟩ := exists_of_fileIdOf hp
  obtain ⟨g, hg, rfl, hid⟩ := exists_of_fileIdOf hq
  rw [List.inj_on_of_nodup_map h.fileIds hg hf hid]

variable {g : FileEntry → FileEntry}

/-- Updates that keep ids and paths keep the id of every path. -/
theorem fileIdOf_map (hg : ∀ f, (g f).id = f.id ∧ (g f).path = f.path) (path : String) :
    fileIdOf { db with files := db.files.map g } path = db.fileIdOf path := by
  unfold fileIdOf getFileByPath
  rw [List.find?_map, Option.map_map]
  have hfind : (fun f => decide (f.path = path)) ∘ g = fun f => decide (f.path = path) := by
    funext f
    simp [(hg f).2]
  rw [hfind]
  refine Option.map_congr fun f _ => ?_
  exact (hg f).1

theorem fileChunks_map (hg : ∀ f, (g f).id = f.id ∧ (g f).path = f.path) (path : String) :
    fileChunks { db with files := db.files.map g } path = db.fileChunks path := by
  unfold fileChunks
  rw [fileIdOf_map hg]

/-- Updates that keep ids and paths keep the schema's promises. -/
theorem WF.mapFiles (h : db.WF) (hg : ∀ f, (g f).id = f.id ∧ (g f).path = f.path) :
    WF { db with files := db.files.map g } := by
  have hid : (db.files.map g).map (·.id) = db.files.map (·.id) := by
    rw [List.map_map]
    exact List.map_congr_left fun f _ => (hg f).1
  have hpath : (db.files.map g).map (·.path) = db.files.map (·.path) := by
    rw [List.map_map]
    exact List.map_congr_left fun f _ => (hg f).2
  refine ⟨by simpa only [hid] using h.fileIds, ?_, by simpa only [hpath] using h.filePaths,
    h.chunkIds, h.chunkIdLt, ?_, h.embeddingIdLt⟩
  · intro f hf
    obtain ⟨f₀, hf₀, rfl⟩ := List.mem_map.1 hf
    rw [(hg f₀).1]
    exact h.fileIdLt f₀ hf₀
  · intro e he
    obtain ⟨f, hf, hfe⟩ := h.chunkFile e he
    exact ⟨g f, List.mem_map_of_mem hf, (hg f).1.trans hfe⟩

theorem fileIdOf_updateFile (db : IndexDb) (id : ℕ) (size : ℤ) (mtime : ℚ)
    (hash : Option String) (path : String) :
    (db.updateFile id size mtime hash).fileIdOf path = db.fileIdOf path := by
  refine fileIdOf_map (fun f => ?_) path
  split <;> exact ⟨rfl, rfl⟩

theorem WF.updateFile (h : db.WF) (id : ℕ) (size : ℤ) (mtime : ℚ)
    (hash : Option String) : (db.updateFile id size mtime hash).WF := by
  refine h.mapFiles fun f => ?_
  split <;> exact ⟨rfl, rfl⟩

/-- A new row for a path that has none. -/
theorem fileIdOf_append (db : IndexDb) (f : FileEntry) (n : ℕ) (path : String) :
    fileIdOf { db with files := db.files ++ [f], filesIdSeq := n } path =
      (db.fileIdOf path).or (if f.path = path then some f.id else none) := by
  unfold fileIdOf getFileByPath
  rw [List.find?_append]
  cases db.files.find? (fun f => decide (f.path = path)) with
  | some g => rfl
  | none =>
    by_cases hp : f.path = path
    · simp [hp]
    · simp [hp]

theorem WF.appendFile (h : db.WF) {f : FileEntry} (hid : f.id = db.filesIdSeq)
    (hpath : db.fileIdOf f.path = none) :
    WF { db with files := db.files ++ [f], filesIdSeq := db.filesIdSeq + 1 } := by
  refine ⟨?_, ?_, ?_, h.chunkIds, h.chunkIdLt, ?_, h.embeddingIdLt⟩
  · rw [List.map_append, List.map_singleton]
    refine h.fileIds.append (List.nodup_singleton _) ?_
    rw [List.disjoint_singleton]
    intro hmem
    obtain ⟨g, hg, hgid⟩ := List.mem_map.1 hmem
    have hlt := h.fileIdLt g hg
    omega
  · intro g hg
    rcases List.mem_append.1 hg with hg | hg
    · exact Nat.lt_succ_of_lt (h.fileIdLt g hg)
    · rw [List.mem_singleton.1 hg, hid]
      exact Nat.lt_succ_self _
  · rw [List.map_append, List.map_singleton]
    refine h.filePaths.append (List.nodup_singleton _) ?_
    rw [List.disjoint_singleton]
    intro hmem
    obtain ⟨g, hg, hgp⟩ := List.mem_map.1 hmem
    have hnone : db.files.find? (·.path = f.path) = none := by
      simpa [fileIdOf, getFileByPath] using hpath
    have hne := List.find?_eq_none.1 hnone g hg
    simp [hgp] at hne
  · intro e he
    obtain ⟨g, hg, hge⟩ := h.chunkFile e he
    exact ⟨g, List.mem_append_left _ hg, hge⟩

theorem mem_getChunksByFileId {fileId : ℕ} {c : Chunk} :
    c ∈ db.getChunksByFileId fileId ↔
      ∃ e ∈ db.chunks, e.chunk.fileId = fileId ∧ { e.chunk with id := some e.id } = c := by
  simp [getChunksByFileId, List.mem_mergeSort, and_assoc]

/-! ## New rows -/

theorem newEntries_chunk : ∀ (n : ℕ) (cs : List Chunk), (newEntries n cs).map (·.chunk) = cs
  | _, [] => rfl
  | n, c :: cs => by rw [newEntries, List.map_cons, newEntries_chunk]

theorem newEntries_id : ∀ (n : ℕ) (cs : List Chunk),
    (newEntries n cs).map (·.id) = List.range' n cs.length
  | _, [] => rfl
  | n, c :: cs => by rw [newEntries, List.map_cons, newEntries_id, List.length_cons,
      List.range'_succ]

theorem mem_newEntries {n : ℕ} {cs : List Chunk} {e : ChunkEntry} (h : e ∈ newEntries n cs) :
    n ≤ e.id ∧ e.id < n + cs.length ∧ e.chunk ∈ cs := by
  have hid := List.mem_map_of_mem (f := (·.id)) h
  have hchunk := List.mem_map_of_mem (f := (·.chunk)) h
  rw [newEntries_id, List.mem_range'_1] at hid
  rw [newEntries_chunk] at hchunk
  exact ⟨hid.1, hid.2, hchunk⟩

/-- Inserting chunks of an existing file keeps the schema's promises. -/
theorem WF.insertChunksBatch (h : db.WF) {chunks : List Chunk}
    (hfile : ∀ c ∈ chunks, ∃ f ∈ db.files, f.id = c.fileId) :
    (db.insertChunksBatch chunks).1.WF := by
  refine ⟨h.fileIds, h.fileIdLt, h.filePaths, ?_, ?_, ?_, ?_⟩
  · show ((db.chunks ++ newEntries db.chunksIdSeq chunks).map (·.id)).Nodup
    rw [List.map_append, newEntries_id]
    refine h.chunkIds.append List.nodup_range' ?_
    intro id hid hnew
    obtain ⟨e, he, rfl⟩ := List.mem_map.1 hid
    have hlt := h.chunkIdLt e he
    have hge := (List.mem_range'_1.1 hnew).1
    omega
  · intro e he
    show e.id < db.chunksIdSeq + chunks.length
    rcases List.mem_append.1 he with he | he
    · have hlt := h.chunkIdLt e he
      omega
    · exact (mem_newEntries he).2.1
  · intro e he
    rcases List.mem_append.1 he with he | he
    · exact h.chunkFile e he
    · exact hfile e.chunk (mem_newEntries he).2.2
  · intro e he
    show e.chunkId < db.chunksIdSeq + chunks.length
    have hlt := h.embeddingIdLt e he
    omega

theorem WF.deleteChunksBatch (h : db.WF) (ids : List ℕ) :
    (db.deleteChunksBatch ids).WF := by
  refine ⟨h.fileIds, h.fileIdLt, h.filePaths, ?_, ?_, ?_, ?_⟩
  · exact h.chunkIds.sublist (List.filter_sublist.map _)
  · exact fun e he => h.chunkIdLt e (List.mem_of_mem_filter he)
  · exact fun e he => h.chunkFile e (List.mem_of_mem_filter he)
  · exact fun e he => h.embeddingIdLt e (List.mem_of_mem_filter he)

end IndexDb

/-- A piece belongs to the file of the chunk it was cut from. -/
theorem fileId_of_mem_validateChunkSizes {splitter : Splitter} {chunks : List Chunk} {c : Chunk}
    (h : c ∈ validateChunkSizes splitter chunks) : ∃ c₀ ∈ chunks, c₀.fileId = c.fileId := by
  obtain ⟨c₀, hc₀, hc⟩ := List.mem_flatMap.1 h
  refine ⟨c₀, hc₀, ?_⟩
  unfold Splitter.validated at hc
  split at hc
  · obtain ⟨uc, -, rfl⟩ := List.mem_map.1 hc
    rfl
  · rw [List.mem_singleton.1 hc]

/-- The guard does not look at the file. -/
theorem validateChunkSizes_withFileId (splitter : Splitter) (fileId : ℕ) (cs : List Chunk) :
    validateChunkSizes splitter (cs.map (withFileId fileId)) =
      (validateChunkSizes splitter cs).map (withFileId fileId) := by
  have hone : ∀ c : Chunk, splitter.validated (withFileId fileId c) =
      (splitter.validated c).map (withFileId fileId) := by
    intro c
    have hcode : (withFileId fileId c).code = c.code := rfl
    have huc : chunkToUniversal (withFileId fileId c) = chunkToUniversal c := rfl
    unfold Splitter.validated
    rw [hcode, huc]
    split
    · rw [List.map_map]
      rfl
    · rfl
  unfold validateChunkSizes
  rw [List.map_flatMap, List.flatMap_map]
  exact congrArg (List.flatMap · cs) (funext hone)

/-! ## The file record -/

/-- What `_store_file_record` leaves : the path has the id, every other path keeps its own,
and the chunks are as they were. -/
structure FileRecorded (db : IndexDb) (r : ParsedFileResult) (fileId : ℕ) (isExisting : Bool)
    (db' : IndexDb) : Prop where
  wf : db'.WF
  chunks : db'.chunks = db.chunks
  seq : db'.chunksIdSeq = db.chunksIdSeq
  embeddings : db'.embeddings = db.embeddings
  path : db'.fileIdOf r.path = some fileId
  others : ∀ p, p ≠ r.path → db'.fileIdOf p = db.fileIdOf p
  existing : isExisting = true → db.fileIdOf r.path = some fileId
  new : isExisting = false → db.fileIdOf r.path = none ∧
    ∀ e ∈ db.chunks, e.chunk.fileId ≠ fileId

theorem storeFileRecord_spec {db : IndexDb} (h : db.WF) (r : ParsedFileResult) :
    FileRecorded db r (storeFileRecord db r).1 (storeFileRecord db r).2.1
      (storeFileRecord db r).2.2 := by
  unfold storeFileRecord
  cases hf : db.getFileByPath r.path with
  | some f =>
    have hid : db.fileIdOf r.path = some f.id := by simp [IndexDb.fileIdOf, hf]
    exact
      { wf := h.updateFile _ _ _ _
        chunks := rfl
        seq := rfl
        embeddings := rfl
        path := (IndexDb.fileIdOf_updateFile ..).trans hid
        others := fun p _ => IndexDb.fileIdOf_updateFile ..
        existing := fun _ => hid
        new := fun hn => nomatch hn }
  | none =>
    have hid : db.fileIdOf r.path = none := by simp [IndexDb.fileIdOf, hf]
    refine
      { wf := h.appendFile rfl hid
        chunks := rfl
        seq := rfl
        embeddings := rfl
        path := ?_
        others := fun p hp => ?_
        existing := nofun
        new := fun _ => ⟨hid, fun e he heq => ?_⟩ }
    · unfold IndexDb.insertFile
      rw [IndexDb.fileIdOf_append, hid]
      simp
    · unfold IndexDb.insertFile
      rw [IndexDb.fileIdOf_append, if_neg (Ne.symm hp), Option.or_none]
    · obtain ⟨f, hfm, hfe⟩ := h.chunkFile e he
      have hlt := h.fileIdLt f hfm
      have hseq : e.chunk.fileId = db.filesIdSeq := heq
      omega

theorem getChunksByFileId_eq_nil {db : IndexDb} {path : String} {fileId : ℕ}
    (h : db.fileIdOf path = some fileId) :
    db.getChunksByFileId fileId = [] ↔ db.fileChunks path = [] := by
  rw [IndexDb.getChunksByFileId, List.map_eq_nil_iff, IndexDb.fileChunks, h]
  constructor
  · intro hs
    have hp := List.mergeSort_perm (db.chunks.filter (·.chunk.fileId = fileId)) IndexDb.rowOrder
    rw [hs] at hp
    exact List.nil_perm.1 hp
  · intro hs
    simp only at hs
    rw [hs, List.mergeSort_nil]

namespace FileRecorded

variable {db db' : IndexDb} {r : ParsedFileResult} {fileId : ℕ} {isExisting : Bool}

/-- The rows of the file are the ones it had, none when it is new. -/
theorem fileChunks_self (h : FileRecorded db r fileId isExisting db') :
    db'.fileChunks r.path = db.fileChunks r.path := by
  unfold IndexDb.fileChunks
  rw [h.path, h.chunks]
  cases he : isExisting with
  | true => rw [h.existing he]
  | false =>
    obtain ⟨hnone, hfresh⟩ := h.new he
    rw [hnone]
    refine List.filter_eq_nil_iff.2 fun e hmem => ?_
    simpa using hfresh e hmem

theorem fileChunks_other (h : FileRecorded db r fileId isExisting db') {p : String}
    (hp : p ≠ r.path) : db'.fileChunks p = db.fileChunks p := by
  unfold IndexDb.fileChunks
  rw [h.others p hp, h.chunks]

/-- A file of its own has the id. -/
theorem exists_file (h : FileRecorded db r fileId isExisting db') :
    ∃ f ∈ db'.files, f.id = fileId := by
  obtain ⟨f, hf, -, hid⟩ := IndexDb.exists_of_fileIdOf h.path
  exact ⟨f, hf, hid⟩

end FileRecorded

/-! ## One file -/

section StoreFile

variable (splitter : Splitter) (order : IterationOrder)

/-- The stored rows with some content. -/
def keptRows (rows : List ChunkEntry) (chunks : List Chunk) : List ChunkEntry :=
  rows.filter fun e => hasContent chunks (normalizedCode e.chunk)

/-- The parsed chunks with a content that no stored row has. -/
def newContents (rows : List ChunkEntry) (chunks : List Chunk) : List Chunk :=
  chunks.filter fun c => !hasContent (rows.map (·.chunk)) (normalizedCode c)

/-- The parsed chunks with a content that is stored. -/
def sharedContents (rows : List ChunkEntry) (chunks : List Chunk) : List Chunk :=
  chunks.filter fun c => hasContent (rows.map (·.chunk)) (normalizedCode c)

theorem hasContent_map_withFileId (fileId : ℕ) (cs : List Chunk) (content : String) :
    hasContent (cs.map (withFileId fileId)) content = hasContent cs content := by
  rw [Bool.eq_iff_iff, hasContent_iff, hasContent_iff]
  constructor
  · rintro ⟨_, hmem, rfl⟩
    obtain ⟨c, hc, rfl⟩ := List.mem_map.1 hmem
    exact ⟨c, hc, rfl⟩
  · rintro ⟨c, hc, rfl⟩
    exact ⟨_, List.mem_map_of_mem hc, rfl⟩

variable {db : IndexDb} {fileId : ℕ}

variable {path : String}

/-- The models of a file's rows have the contents of the rows. -/
theorem hasContent_getChunksByFileId (h : db.fileIdOf path = some fileId) (content : String) :
    hasContent (db.getChunksByFileId fileId) content =
      hasContent ((db.fileChunks path).map (·.chunk)) content := by
  have hrows : db.fileChunks path = db.chunks.filter (·.chunk.fileId = fileId) := by
    simp [IndexDb.fileChunks, h]
  rw [Bool.eq_iff_iff, hasContent_iff, hasContent_iff, hrows]
  constructor
  · rintro ⟨_, hc, rfl⟩
    obtain ⟨e, he, hid, rfl⟩ := IndexDb.mem_getChunksByFileId.1 hc
    exact ⟨_, List.mem_map_of_mem (List.mem_filter.2 ⟨he, by simpa using hid⟩), rfl⟩
  · rintro ⟨_, hc, rfl⟩
    obtain ⟨e, he, rfl⟩ := List.mem_map.1 hc
    obtain ⟨he, hid⟩ := List.mem_filter.1 he
    exact ⟨_, IndexDb.mem_getChunksByFileId.2 ⟨e, he, by simpa using hid, rfl⟩, rfl⟩

/-- The chunks given to the size guard, in order : all of them when nothing is stored. -/
def insertedChunks (rows : List ChunkEntry) (chunks : List Chunk) : List Chunk :=
  if rows = [] then chunks
  else chunksOf order chunks (addedKeys chunks (rows.map (·.chunk)))

/-- They are the new contents, up to order. -/
theorem insertedChunks_perm (rows : List ChunkEntry) (chunks : List Chunk) :
    (insertedChunks order rows chunks).Perm (newContents rows chunks) := by
  unfold insertedChunks
  split
  · rename_i hnil
    simp [newContents, hnil, hasContent]
  · exact added_perm order chunks (rows.map (·.chunk))

/-- The diff adds the inserted chunks, for the rows read back and the chunks of the file. -/
theorem added_withFileId (h : db.fileIdOf path = some fileId) (chunks : List Chunk) :
    (diffChunks order (chunks.map (withFileId fileId)) (db.getChunksByFileId fileId)).added =
      (chunksOf order chunks (addedKeys chunks ((db.fileChunks path).map (·.chunk)))).map
        (withFileId fileId) := by
  have hkeys : addedKeys (chunks.map (withFileId fileId)) (db.getChunksByFileId fileId) =
      addedKeys chunks ((db.fileChunks path).map (·.chunk)) := by
    unfold addedKeys
    rw [keysOf_groupBy_map normalizedCode normalizedCode (withFileId fileId) fun _ => rfl]
    refine List.filter_congr fun content _ => ?_
    simp only [mem_keysOf_iff, hasContent_getChunksByFileId h]
  rw [diffChunks_added, hkeys, chunksOf, chunksOf, List.map_flatMap]
  refine congrArg (List.flatMap · _) (funext fun content => ?_)
  rw [valuesOf_groupBy, valuesOf_groupBy, List.filter_map]
  -- the id of the file is no part of the code
  have hcode : ∀ chunk : Chunk, normalizedCode (withFileId fileId chunk) = normalizedCode chunk :=
    fun _ => rfl
  simp only [Function.comp_def, hcode]

/-- What storing a result leaves, and the ids it returns. `inserted` are the chunks given to
the size guard. -/
structure FileStored (db : IndexDb) (r : ParsedFileResult) (inserted : List Chunk)
    (db' : IndexDb) (ids : List ℕ) : Prop where
  wf : db'.WF
  others : ∀ p, p ≠ r.path → db'.fileChunks p = db.fileChunks p
  otherIds : ∀ p, p ≠ r.path → db'.fileIdOf p = db.fileIdOf p
  rows : db'.fileChunks r.path = keptRows (db.fileChunks r.path) r.chunks ++
    IndexDb.newEntries db.chunksIdSeq (validateChunkSizes splitter inserted)
  ids : ids =
    (IndexDb.newEntries db.chunksIdSeq (validateChunkSizes splitter inserted)).map (·.id)
  embeddings : db'.embeddings ⊆ db.embeddings

variable {chunks : List Chunk}

/-- Rows of other files are not touched by inserting into one. -/
theorem fileChunks_insert_other (h : db.WF) (hpath : db.fileIdOf path = some fileId)
    (hfile : ∀ c ∈ chunks, c.fileId = fileId) {p : String} (hp : p ≠ path) :
    (db.insertChunksBatch chunks).1.fileChunks p = db.fileChunks p := by
  have hid : (db.insertChunksBatch chunks).1.fileIdOf p = db.fileIdOf p := rfl
  unfold IndexDb.fileChunks
  rw [hid]
  cases hq : db.fileIdOf p with
  | none => rfl
  | some q =>
    have hne : q ≠ fileId := fun he => hp (h.fileIdOf_inj (he ▸ hq) hpath)
    have hnone : (IndexDb.newEntries db.chunksIdSeq chunks).filter
        (fun e => e.chunk.fileId = q) = [] := by
      rw [List.filter_eq_nil_iff]
      intro e he
      have hc := hfile _ (IndexDb.mem_newEntries he).2.2
      simpa [hc] using Ne.symm hne
    show List.filter _ (db.chunks ++ _) = _
    rw [List.filter_append, hnone, List.append_nil]

/-- The rows of the file itself get the new ones appended. -/
theorem fileChunks_insert_self (hpath : db.fileIdOf path = some fileId)
    (hfile : ∀ c ∈ chunks, c.fileId = fileId) :
    (db.insertChunksBatch chunks).1.fileChunks path =
      db.fileChunks path ++ IndexDb.newEntries db.chunksIdSeq chunks := by
  have hid : (db.insertChunksBatch chunks).1.fileIdOf path = some fileId := hpath
  unfold IndexDb.fileChunks
  rw [hid, hpath]
  show List.filter _ (db.chunks ++ _) = _
  rw [List.filter_append]
  congr 1
  rw [List.filter_eq_self]
  intro e he
  simpa using hfile _ (IndexDb.mem_newEntries he).2.2

theorem fileId_of_forall {c : Chunk} (h : c ∈ validateChunkSizes splitter chunks)
    (hall : ∀ c₀ ∈ chunks, c₀.fileId = fileId) : c.fileId = fileId := by
  obtain ⟨c₀, hc₀, hid⟩ := fileId_of_mem_validateChunkSizes h
  exact hid.symm.trans (hall c₀ hc₀)

variable {e : ChunkEntry}

theorem mem_chunks_of_mem_fileChunks {p : String} (h : e ∈ db.fileChunks p) : e ∈ db.chunks := by
  unfold IndexDb.fileChunks at h
  split at h
  · exact List.mem_of_mem_filter h
  · cases h

/-- A row belongs to one path. -/
theorem fileChunks_disjoint (h : db.WF) {p q : String}
    (hp : e ∈ db.fileChunks p) (hq : e ∈ db.fileChunks q) : p = q := by
  unfold IndexDb.fileChunks at hp hq
  split at hp
  · rename_i id hid
    split at hq
    · rename_i id' hid'
      have h1 : e.chunk.fileId = id := by simpa using (List.mem_filter.1 hp).2
      have h2 : e.chunk.fileId = id' := by simpa using (List.mem_filter.1 hq).2
      exact h.fileIdOf_inj hid (by rw [hid', ← h2, h1])
    · cases hq
  · cases hp

/-- Deleting rows of one file by their ids leaves the rows of the others. -/
theorem fileChunks_delete (ids : List ℕ) (p : String) :
    (db.deleteChunksBatch ids).fileChunks p = (db.fileChunks p).filter (·.id ∉ ids) := by
  have hid : (db.deleteChunksBatch ids).fileIdOf p = db.fileIdOf p := rfl
  unfold IndexDb.fileChunks
  rw [hid]
  cases db.fileIdOf p with
  | none => rfl
  | some q => exact List.filter_comm _ _ _

/-- The ids of the deleted chunks are those of the rows whose content is gone. -/
theorem mem_deletedIds (h : db.WF) (hpath : db.fileIdOf path = some fileId) {new : List Chunk}
    (he : e ∈ db.chunks) :
    e.id ∈ (diffChunks order new (db.getChunksByFileId fileId)).deleted.filterMap (·.id) ↔
      e ∈ db.fileChunks path ∧ hasContent new (normalizedCode e.chunk) = false := by
  have hrows : db.fileChunks path = db.chunks.filter (·.chunk.fileId = fileId) := by
    simp [IndexDb.fileChunks, hpath]
  rw [List.mem_filterMap, hrows, List.mem_filter]
  constructor
  · rintro ⟨c, hc, hid⟩
    obtain ⟨hmem, hcont⟩ := mem_deleted.1 hc
    obtain ⟨e', he', hfile, rfl⟩ := IndexDb.mem_getChunksByFileId.1 hmem
    obtain rfl : e' = e :=
      List.inj_on_of_nodup_map h.chunkIds he' he (Option.some.inj hid)
    exact ⟨⟨he, by simpa using hfile⟩, hcont⟩
  · rintro ⟨⟨-, hfile⟩, hcont⟩
    refine ⟨{ e.chunk with id := some e.id }, mem_deleted.2 ⟨?_, hcont⟩, rfl⟩
    exact IndexDb.mem_getChunksByFileId.2 ⟨e, he, by simpa using hfile, rfl⟩

theorem storeFile_new {db db₁ : IndexDb} {r : ParsedFileResult} {isExisting : Bool}
    (hrec : FileRecorded db r fileId isExisting db₁) (hrows : db.fileChunks r.path = [])
    (hfile : ∀ c ∈ chunks, c.fileId = fileId) :
    FileStored splitter db r chunks
      (db₁.insertChunksBatch (validateChunkSizes splitter chunks)).1
      (db₁.insertChunksBatch (validateChunkSizes splitter chunks)).2 := by
  have hvalid : ∀ c ∈ validateChunkSizes splitter chunks, c.fileId = fileId :=
    fun c hc => fileId_of_forall splitter hc hfile
  refine ⟨hrec.wf.insertChunksBatch fun c hc => ?_, fun p hp => ?_, hrec.others, ?_, ?_, ?_⟩
  · rw [hvalid c hc]
    exact hrec.exists_file
  · rw [fileChunks_insert_other hrec.wf hrec.path hvalid hp, hrec.fileChunks_other hp]
  · rw [fileChunks_insert_self hrec.path hvalid, hrec.fileChunks_self, hrows, keptRows,
      List.filter_nil, hrec.seq]
  · rw [← hrec.seq]
    rfl
  · exact fun e he => hrec.embeddings ▸ he

theorem storeFile_existing {db db₁ : IndexDb} {r : ParsedFileResult}
    {isExisting : Bool} (hrec : FileRecorded db r fileId isExisting db₁)
    (hfile : ∀ c₀ ∈ r.chunks.map (withFileId fileId), c₀.fileId = fileId) :
    let diff := diffChunks order (r.chunks.map (withFileId fileId))
      (db₁.getChunksByFileId fileId)
    let db₂ := db₁.deleteChunksBatch ((diff.deleted ++ diff.modified).filterMap (·.id))
    FileStored splitter db r (diff.added ++ diff.modified)
      (db₂.insertChunksBatch (validateChunkSizes splitter (diff.added ++ diff.modified))).1
      (db₂.insertChunksBatch (validateChunkSizes splitter (diff.added ++ diff.modified))).2 := by
  intro diff db₂
  have hmod : diff.modified = [] := diffChunks_modified ..
  have hids : ∀ e ∈ db₁.chunks, e.id ∈ (diff.deleted ++ diff.modified).filterMap (·.id) ↔
      e ∈ db₁.fileChunks r.path ∧ hasContent r.chunks (normalizedCode e.chunk) = false := by
    intro e he
    rw [hmod, List.append_nil, ← hasContent_map_withFileId fileId]
    exact mem_deletedIds order hrec.wf hrec.path he
  have hwf₂ : db₂.WF := hrec.wf.deleteChunksBatch _
  have hpath₂ : db₂.fileIdOf r.path = some fileId := hrec.path
  have hinserted : ∀ c ∈ diff.added ++ diff.modified, c.fileId = fileId := by
    intro c hc
    rw [hmod, List.append_nil] at hc
    have hmem := (added_perm order _ _).mem_iff.1 hc
    exact hfile c (List.mem_of_mem_filter hmem)
  have hvalid : ∀ c ∈ validateChunkSizes splitter (diff.added ++ diff.modified),
      c.fileId = fileId := fun c hc => fileId_of_forall splitter hc hinserted
  have hseq₂ : db₂.chunksIdSeq = db.chunksIdSeq := hrec.seq
  refine ⟨hwf₂.insertChunksBatch fun c hc => ?_, fun p hp => ?_, hrec.others, ?_, ?_, ?_⟩
  · rw [hvalid c hc]
    exact hrec.exists_file
  · -- no row of another file was deleted
    rw [fileChunks_insert_other hwf₂ hpath₂ hvalid hp, fileChunks_delete,
      ← hrec.fileChunks_other hp, List.filter_eq_self]
    intro e he
    rw [decide_eq_true_eq, hids e (mem_chunks_of_mem_fileChunks he)]
    rintro ⟨hself, -⟩
    exact hp (fileChunks_disjoint hrec.wf he hself)
  · rw [fileChunks_insert_self hpath₂ hvalid, fileChunks_delete, hrec.fileChunks_self, keptRows,
      hseq₂]
    refine congrArg (· ++ _) (List.filter_congr fun e he => ?_)
    rw [← hrec.fileChunks_self] at he
    have hiff := hids e (mem_chunks_of_mem_fileChunks he)
    cases hc : hasContent r.chunks (normalizedCode e.chunk) with
    | true =>
      refine decide_eq_true fun hmem => ?_
      rw [hc] at hiff
      exact Bool.noConfusion (hiff.1 hmem).2
    | false => exact decide_eq_false (not_not.2 (hiff.2 ⟨he, hc⟩))
  · rw [← hseq₂]
    rfl
  · exact fun e he => hrec.embeddings ▸ List.mem_of_mem_filter he

/-- Storing one result keeps what is still parsed and adds the new contents. -/
theorem storeFile_spec (h : db.WF) (r : ParsedFileResult) :
    ∃ fileId, FileStored splitter db r
      ((insertedChunks order (db.fileChunks r.path) r.chunks).map (withFileId fileId))
      (storeFile splitter order db r).1 (storeFile splitter order db r).2 := by
  have hrec := storeFileRecord_spec h r
  unfold storeFile
  generalize storeFileRecord db r = recorded at hrec ⊢
  obtain ⟨fileId, isExisting, db₁⟩ := recorded
  simp only at hrec ⊢
  refine ⟨fileId, ?_⟩
  have hfile : ∀ c₀ ∈ r.chunks.map (withFileId fileId), c₀.fileId = fileId := by
    intro c₀ hc₀
    obtain ⟨c, -, rfl⟩ := List.mem_map.1 hc₀
    rfl
  cases isExisting with
  | false =>
    have hrows : db.fileChunks r.path = [] := by simp [IndexDb.fileChunks, (hrec.new rfl).1]
    simp only [Bool.false_eq_true, reduceIte, ne_eq, not_true_eq_false]
    rw [insertedChunks, if_pos hrows]
    exact storeFile_new splitter hrec hrows hfile
  | true =>
    simp only [reduceIte]
    have hnil := getChunksByFileId_eq_nil hrec.path
    rw [hrec.fileChunks_self] at hnil
    by_cases hE : db₁.getChunksByFileId fileId = []
    · rw [if_neg (not_not.2 hE), insertedChunks, if_pos (hnil.1 hE)]
      exact storeFile_new splitter hrec (hnil.1 hE) hfile
    · rw [if_pos hE, insertedChunks, if_neg fun hrows => hE (hnil.2 hrows)]
      have hstored := storeFile_existing splitter order hrec hfile
      have hadded := added_withFileId order hrec.path r.chunks
      rw [hrec.fileChunks_self] at hadded
      simp only [diffChunks_modified, List.append_nil] at hstored ⊢
      rw [← hadded]
      exact hstored

end StoreFile

/-! ## All results -/

section StoreAll

variable (splitter : Splitter) (order : IterationOrder)

theorem recordSkippedFile_spec {db : IndexDb} (h : db.WF) (r : ParsedFileResult)
    (reason : String) : (db.recordSkippedFile r reason).WF ∧
      ∀ p, p ≠ r.path → (db.recordSkippedFile r reason).fileChunks p = db.fileChunks p := by
  unfold IndexDb.recordSkippedFile
  split
  · refine ⟨h.mapFiles fun f => ?_, fun p _ => IndexDb.fileChunks_map (fun f => ?_) p⟩
    · split <;> exact ⟨rfl, rfl⟩
    · split <;> exact ⟨rfl, rfl⟩
  · rename_i hnone
    have hid : db.fileIdOf r.path = none := by simpa [IndexDb.fileIdOf] using hnone
    refine ⟨h.appendFile rfl hid, fun p hp => ?_⟩
    unfold IndexDb.fileChunks
    rw [IndexDb.fileIdOf_append, if_neg (Ne.symm hp), Option.or_none]

/-- A result leaves the rows of every other file alone. -/
theorem storeParsedResult_other {st : IndexDb × StoreStats} (h : st.1.WF)
    (r : ParsedFileResult) : (storeParsedResult splitter order st r).1.WF ∧
      ∀ p, p ≠ r.path →
        (storeParsedResult splitter order st r).1.fileChunks p = st.1.fileChunks p := by
  unfold storeParsedResult
  cases r.status with
  | success =>
    obtain ⟨_, hstored⟩ := storeFile_spec splitter order h r
    exact ⟨hstored.wf, hstored.others⟩
  | error message => exact ⟨h, fun _ _ => rfl⟩
  | skipped reason => exact recordSkippedFile_spec h r reason

theorem foldl_storeParsedResult_other : ∀ (results : List ParsedFileResult)
    {st : IndexDb × StoreStats}, st.1.WF →
      (results.foldl (storeParsedResult splitter order) st).1.WF ∧
        ∀ p, p ∉ results.map (·.path) →
          (results.foldl (storeParsedResult splitter order) st).1.fileChunks p =
            st.1.fileChunks p
  | [], _, h => ⟨h, fun _ _ => rfl⟩
  | r :: rs, st, h => by
    obtain ⟨hwf, hother⟩ := storeParsedResult_other splitter order h r
    obtain ⟨hwf', hothers⟩ := foldl_storeParsedResult_other rs hwf
    refine ⟨hwf', fun p hp => ?_⟩
    rw [List.map_cons, List.mem_cons, not_or] at hp
    exact (hothers p hp.2).trans (hother p hp.1)

variable {r : ParsedFileResult}

variable {results : List ParsedFileResult}

/-- The rows of a file after a store of results of distinct files, one of them its own. -/
theorem fileChunks_storeParsedResults {db : IndexDb} (h : db.WF)
    (hpaths : (results.map (·.path)).Nodup)
    (hr : r ∈ results) (hs : r.status = .success) :
    ∃ fileId n, (storeParsedResults splitter order none db results).1.fileChunks r.path =
      keptRows (db.fileChunks r.path) r.chunks ++
        IndexDb.newEntries n (validateChunkSizes splitter
          ((insertedChunks order (db.fileChunks r.path) r.chunks).map (withFileId fileId))) := by
  obtain ⟨before, after, rfl⟩ := List.append_of_mem hr
  rw [List.map_append, List.map_cons, List.nodup_append] at hpaths
  obtain ⟨-, hafter, hdisj⟩ := hpaths
  have hbefore : r.path ∉ before.map (·.path) := fun hm =>
    hdisj _ hm _ List.mem_cons_self rfl
  show ∃ fileId n,
    ((before ++ r :: after).foldl _ (db, StoreStats.empty)).1.fileChunks r.path = _
  rw [List.foldl_append, List.foldl_cons]
  have hst : (db, StoreStats.empty).1.WF := h
  obtain ⟨hwf₁, hrows₁⟩ := foldl_storeParsedResult_other splitter order before hst
  generalize before.foldl (storeParsedResult splitter order) (db, StoreStats.empty) = st₁
    at hwf₁ hrows₁ ⊢
  have hrows : st₁.1.fileChunks r.path = db.fileChunks r.path := hrows₁ _ hbefore
  have hwf₂ := (storeParsedResult_other splitter order hwf₁ r).1
  obtain ⟨-, hrows₂⟩ := foldl_storeParsedResult_other splitter order after hwf₂
  rw [hrows₂ _ (List.nodup_cons.1 hafter).1]
  obtain ⟨fileId, hstored⟩ := storeFile_spec splitter order hwf₁ r
  have hself := hstored.rows
  rw [hrows] at hself
  refine ⟨fileId, st₁.1.chunksIdSeq, ?_⟩
  rw [storeParsedResult, hs]
  exact hself

/-! ## Stored rows as files are compared -/

/-- The content of a stored chunk, as files are compared. -/
structure StoredContent where
  code : String
  symbol : Option String
  chunkType : ChunkType
  startLine : ℤ
  endLine : ℤ
  deriving DecidableEq

def storedContent (chunk : Chunk) : StoredContent :=
  ⟨normalizedCode chunk, chunk.symbol, chunk.chunkType, chunk.startLine, chunk.endLine⟩

/-- What a store of the chunks inserts. -/
def insertedContents (chunks : List Chunk) : List StoredContent :=
  (validateChunkSizes splitter chunks).map storedContent

/-- The content of the rows of a file. -/
def IndexDb.contents (db : IndexDb) (path : String) : List StoredContent :=
  (db.fileChunks path).map fun e => storedContent e.chunk

theorem insertedContents_append (cs cs' : List Chunk) :
    insertedContents splitter (cs ++ cs') =
      insertedContents splitter cs ++ insertedContents splitter cs' := by
  simp [insertedContents, validateChunkSizes]

theorem insertedContents_perm {cs cs' : List Chunk} (h : cs.Perm cs') :
    (insertedContents splitter cs).Perm (insertedContents splitter cs') :=
  (h.flatMap_right _).map _

/-- The content stored does not depend on the id of the file. -/
theorem insertedContents_withFileId (fileId : ℕ) (cs : List Chunk) :
    insertedContents splitter (cs.map (withFileId fileId)) = insertedContents splitter cs := by
  unfold insertedContents
  rw [validateChunkSizes_withFileId, List.map_map]
  rfl

/-- The kept rows and the new contents, against all the parsed chunks. -/
theorem contents_perm_iff (rows : List ChunkEntry) (chunks : List Chunk) :
    ((keptRows rows chunks).map (fun e => storedContent e.chunk) ++
        insertedContents splitter (insertedChunks order rows chunks)).Perm
          (insertedContents splitter chunks) ↔
      ((keptRows rows chunks).map fun e => storedContent e.chunk).Perm
        (insertedContents splitter (sharedContents rows chunks)) := by
  have hnew := insertedContents_perm splitter (insertedChunks_perm order rows chunks)
  have hall : (insertedContents splitter (sharedContents rows chunks) ++
      insertedContents splitter (newContents rows chunks)).Perm
        (insertedContents splitter chunks) := by
    rw [← insertedContents_append]
    exact insertedContents_perm splitter (List.filter_append_perm _ _)
  rw [(hnew.append_left _).congr_left, ← hall.congr_right]
  exact List.perm_append_right_iff _

/-- The contents of a file after a store of results of distinct files, one of them its own. -/
theorem contents_storeParsedResults {db : IndexDb} (h : db.WF)
    (hpaths : (results.map (·.path)).Nodup)
    (hr : r ∈ results) (hs : r.status = .success) :
    (storeParsedResults splitter order none db results).1.contents r.path =
      (keptRows (db.fileChunks r.path) r.chunks).map (fun e => storedContent e.chunk) ++
        insertedContents splitter (insertedChunks order (db.fileChunks r.path) r.chunks) := by
  obtain ⟨fileId, n, hrows⟩ := fileChunks_storeParsedResults splitter order h hpaths hr hs
  rw [IndexDb.contents, hrows, List.map_append, ← insertedContents_withFileId splitter fileId,
    insertedContents]
  conv_rhs => rw [← IndexDb.newEntries_chunk n (validateChunkSizes splitter _), List.map_map]
  rfl

/-- A store into an empty index gives the parsed chunks. -/
theorem contents_fresh (hs : r.status = .success) :
    (storeParsedResults splitter order none .empty [r]).1.contents r.path =
      insertedContents splitter r.chunks := by
  have hpaths : ([r].map (·.path)).Nodup := List.nodup_singleton _
  have hempty : IndexDb.empty.fileChunks r.path = [] := rfl
  rw [contents_storeParsedResults splitter order IndexDb.wf_empty hpaths
    (List.mem_singleton_self r) hs, hempty, insertedChunks, if_pos rfl, keptRows,
    List.filter_nil, List.map_nil, List.nil_append]

/-- Storing over an indexed file leaves what a store into an empty index would, exactly when
the rows of the contents that are parsed again are what storing those chunks would insert. -/
theorem smartStore_eq_fresh_iff (diskLimitError : Option String) {db : IndexDb} (h : db.WF)
    {results : List ParsedFileResult} (hpaths : (results.map (·.path)).Nodup)
    {r : ParsedFileResult} (hr : r ∈ results) (hs : r.status = .success)
    (hstored : db.fileChunks r.path ≠ []) :
    ((storeParsedResults splitter order diskLimitError db results).1.contents r.path).Perm
        ((storeParsedResults splitter order diskLimitError .empty [r]).1.contents r.path) ↔
      diskLimitError = none ∧
        ((keptRows (db.fileChunks r.path) r.chunks).map fun e => storedContent e.chunk).Perm
          (insertedContents splitter (sharedContents (db.fileChunks r.path) r.chunks)) := by
  cases diskLimitError with
  | some e =>
    refine iff_of_false (fun hperm => ?_) fun hc => nomatch hc.1
    have hnil : db.contents r.path = [] := List.perm_nil.1 hperm
    exact hstored (List.map_eq_nil_iff.1 hnil)
  | none =>
    rw [contents_storeParsedResults splitter order h hpaths hr hs,
      contents_fresh splitter order hs, contents_perm_iff splitter order]
    simp

end StoreAll

/-! ## A chunk that moved -/

theorem firstLine_ok : (1 : ℤ) ≤ 1 := le_refl 1

theorem movedChunk_symbol_ok : (some "f").all (fun s => !isBlank s) = true := by decide

theorem movedChunk_lines_ok {startLine : ℤ} (h : 1 ≤ startLine) :
    1 ≤ startLine ∧ startLine ≤ startLine + 1 :=
  ⟨h, by omega⟩

theorem movedChunk_code_ok : "def f():\n    pass" ≠ "" := by decide

/-- `f` of `a.py`, at the given lines. -/
def movedChunk (startLine : ℤ) (h : 1 ≤ startLine) : Chunk where
  id := none
  fileId := 1
  filePath := some "a.py"
  symbol := some "f"
  startLine := startLine
  endLine := startLine + 1
  code := "def f():\n    pass"
  chunkType := .function
  language := "python"
  startByte := none
  endByte := none
  metadata := none
  symbol_ok := movedChunk_symbol_ok
  lines_ok := movedChunk_lines_ok h
  code_ok := movedChunk_code_ok

/-- An index of `a.py` with `f` at line 1. -/
def indexedOnce : IndexDb where
  files := [⟨1, "a.py", 20, 0, some "h1", some "python", none⟩]
  chunks := [⟨1, movedChunk 1 firstLine_ok⟩]
  embeddings := []
  filesIdSeq := 2
  chunksIdSeq := 2

/-- `a.py` parsed again, with `f` at the given line. -/
def parsedAt (startLine : ℤ) (h : 1 ≤ startLine) : ParsedFileResult :=
  ⟨"a.py", [movedChunk startLine h], "python", 22, 1, .success, some "h2"⟩

theorem indexedOnce_wf : indexedOnce.WF := by
  constructor <;> simp [indexedOnce, movedChunk]

/-- Python's order for a set of one, and a possible one for every set. -/
def insertionOrder : IterationOrder := ⟨id, fun _ => .refl _⟩

/-- A chunk that moved two lines down keeps the lines it was stored with. -/
theorem moved_chunk_keeps_lines :
    ¬((storeParsedResults charSplitter insertionOrder none indexedOnce
          [parsedAt 3 (by decide)]).1.contents "a.py").Perm
        ((storeParsedResults charSplitter insertionOrder none .empty
          [parsedAt 3 (by decide)]).1.contents "a.py") := by
  decide +kernel

/-- Where it did not move, nothing is missed. -/
theorem smartStore_eq_fresh_unmoved :
    ((storeParsedResults charSplitter insertionOrder none indexedOnce
        [parsedAt 1 (by decide)]).1.contents "a.py").Perm
      ((storeParsedResults charSplitter insertionOrder none .empty
        [parsedAt 1 (by decide)]).1.contents "a.py") := by
  have hpaths : ([parsedAt 1 (by decide)].map (·.path)).Nodup := by decide
  exact (smartStore_eq_fresh_iff charSplitter insertionOrder none indexedOnce_wf hpaths
    (List.mem_singleton_self _) rfl (by decide +kernel)).2 ⟨rfl, by decide +kernel⟩

end ChunkHound
