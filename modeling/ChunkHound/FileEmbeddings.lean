import ChunkHound.SmartStore

/-!
# Embeddings of one file

`process_file` stores the parsed file and then embeds it : `_generate_embeddings` takes the
ids the store returned and all chunks of the file, refuses lists of different lengths, and
pairs the two by position.

The ids come in the order the store inserted the chunks. A run leaves rows that match when
the inserted and the parsed chunks line up position by position
(`FileStored.match_of_linedUp`), and with a provider that answers only then
(`FileStored.linedUp_of_match`).
-/

namespace ChunkHound

open Grouping

/-- At most this many constants go into a header. -/
def maxConstantsInHeader : ℕ := 5

/-- A missing or empty string counts as absent. -/
def present (s : Option String) : Option String := s.filter (· ≠ "")

/-- `format_chunk_for_embedding`. -/
def formatChunkForEmbedding (code : String) (filePath language : Option String)
    (constants : List (String × String)) (ruleTarget : Option String) : String :=
  if (present filePath).isNone ∧ (present language).isNone ∧ constants = [] ∧
      (present ruleTarget).isNone then code
  else
    let header := match present filePath, present language with
      | some path, some lang => s!"# {path} ({lang})"
      | some path, none => s!"# {path}"
      | none, some lang => s!"# ({lang})"
      | none, none => "#"
    let header := match present ruleTarget with
      | some target => header ++ s!" [target: {target}]"
      | none => header
    let items := (constants.take maxConstantsInHeader).map fun c => c.1 ++ "=" ++ c.2
    let more := if maxConstantsInHeader < constants.length then
      ", +" ++ toString (constants.length - maxConstantsInHeader) ++ " more" else ""
    let header := if constants = [] then header
      else header ++ " [" ++ ", ".intercalate items ++ more ++ "]"
    header ++ "\n" ++ code

/-- The text `_generate_embeddings` sends for a chunk. -/
def embeddingText (chunk : Chunk) : String :=
  let metadata := chunk.metadata.getD ⟨[], none⟩
  formatChunkForEmbedding (normalizeContent chunk.code) chunk.filePath (some chunk.language)
    metadata.constants metadata.ruleTarget

structure EmbeddingProvider where
  name : String
  model : String
  embedBatch : List String → Except String (List (List F32))

/-- The upsert into the table of the row's dims. -/
def IndexDb.upsertEmbedding (db : IndexDb) (e : EmbeddingEntry) : IndexDb :=
  { db with
    embeddings := db.embeddings.filter (fun e' =>
      ¬(e'.dims = e.dims ∧ e'.chunkId = e.chunkId ∧ e'.provider = e.provider ∧
        e'.model = e.model)) ++ [e] }

/-- `insert_embeddings_batch`. It goes table by table, and the tables are disjoint. -/
def IndexDb.insertEmbeddingsBatch (db : IndexDb) (data : List EmbeddingEntry) : IndexDb :=
  data.foldl IndexDb.upsertEmbedding db

/-- The chunks with text, each with the id at its position. -/
def validChunkData (chunkIds : List ℕ) (chunks : List Chunk) : List (ℕ × Chunk) :=
  (chunkIds.zip chunks).filter fun p => normalizeContent p.2.code ≠ ""

/-- The rows for the vectors a provider returned, paired by position. -/
def embeddingsData (provider : EmbeddingProvider) (valid : List (ℕ × Chunk))
    (vectors : List (List F32)) : List EmbeddingEntry :=
  (valid.zip vectors).map fun p =>
    ⟨p.1.1, provider.name, provider.model, p.2.length, p.2, p.1.2⟩

/-- `_generate_embeddings` : the number of rows stored. An error of the provider is logged
and counts as none. -/
def generateEmbeddings (provider : EmbeddingProvider) (db : IndexDb) (chunkIds : List ℕ)
    (chunks : List Chunk) : Except String (IndexDb × ℕ) :=
  if chunkIds.length ≠ chunks.length then
    .error ("Data mismatch in embedding generation: " ++ toString chunkIds.length ++
      " chunk IDs but " ++ toString chunks.length ++
      " chunks. This indicates a bug in chunk processing.")
  else
    let valid := validChunkData chunkIds chunks
    if valid = [] then .ok (db, 0)
    else
      match provider.embedBatch (valid.map fun p => embeddingText p.2) with
      | .error _ => .ok (db, 0)
      | .ok vectors =>
        let data := embeddingsData provider valid vectors
        .ok (db.insertEmbeddingsBatch data, data.length)

/-- What `process_file` reports. -/
inductive ProcessOutcome
  | parseError (message : String)
  | skipped (reason : String)
  | diskUsageLimitExceeded
  | stored (chunks : ℕ) (embeddingsGenerated : ℕ) (embeddingError : Option String)
  deriving DecidableEq

/-- `process_file` from its parse result on. -/
def processFile (splitter : Splitter) (order : IterationOrder)
    (provider : Option EmbeddingProvider) (skipEmbeddings : Bool)
    (diskLimitError : Option String) (db : IndexDb) (result : ParsedFileResult) :
    IndexDb × ProcessOutcome :=
  match result.status with
  | .error message => (db, .parseError message)
  | .skipped reason => (db.recordSkippedFile result reason, .skipped reason)
  | .success =>
    let (db, stats) := storeParsedResults splitter order diskLimitError db [result]
    let ids := stats.chunkIdsNeedingEmbeddings
    if diskLimitError.isSome then (db, .diskUsageLimitExceeded)
    else
      match provider with
      | none => (db, .stored stats.totalChunks 0 none)
      | some provider =>
        if skipEmbeddings ∨ ids = [] then (db, .stored stats.totalChunks 0 none)
        else
          match generateEmbeddings provider db ids result.chunks with
          | .error e => (db, .stored stats.totalChunks 0 (some e))
          | .ok (db, n) =>
            (db, .stored stats.totalChunks n
              (if n < ids.length then
                some ("Only generated " ++ toString n ++ "/" ++ toString ids.length ++
                  " embeddings. Some chunks may have empty content.")
              else none))

/-! ## Rows and positions -/

/-- The rows at the same position as a chunk with text hold that chunk. -/
def LinedUp (stored parsed : List Chunk) : Prop :=
  ∀ p ∈ stored.zip parsed, normalizeContent p.2.code ≠ "" → p.1 = withFileId p.1.fileId p.2

/-- Every embedding row of a chunk id from `seq` on has the vector of that very chunk. -/
def EmbeddingsMatch (seq : ℕ) (db : IndexDb) : Prop :=
  ∀ e ∈ db.embeddings, seq ≤ e.chunkId →
    ∃ row ∈ db.chunks, row.id = e.chunkId ∧ row.chunk = withFileId row.chunk.fileId e.source

theorem mem_upsertEmbedding {db : IndexDb} {e e' : EmbeddingEntry}
    (h : e' ∈ (db.upsertEmbedding e).embeddings) : e' ∈ db.embeddings ∨ e' = e := by
  rcases List.mem_append.1 h with h | h
  · exact Or.inl (List.mem_of_mem_filter h)
  · exact Or.inr (List.mem_singleton.1 h)

theorem mem_insertEmbeddingsBatch : ∀ (data : List EmbeddingEntry) (db : IndexDb)
    {e : EmbeddingEntry}, e ∈ (db.insertEmbeddingsBatch data).embeddings →
      e ∈ db.embeddings ∨ e ∈ data
  | [], _, _, h => Or.inl h
  | x :: xs, db, e, h => by
    rcases mem_insertEmbeddingsBatch xs (db.upsertEmbedding x) h with h | h
    · rcases mem_upsertEmbedding h with h | rfl
      · exact Or.inl h
      · exact Or.inr List.mem_cons_self
    · exact Or.inr (List.mem_cons_of_mem x h)

/-- A row stays unless a later one has its chunk id. -/
theorem mem_insert_of_mem : ∀ {data : List EmbeddingEntry} {db : IndexDb} {e : EmbeddingEntry},
    e ∈ db.embeddings → (∀ x ∈ data, x.chunkId ≠ e.chunkId) →
      e ∈ (db.insertEmbeddingsBatch data).embeddings
  | [], _, _, h, _ => h
  | x :: xs, db, e, h, hne => by
    obtain ⟨hx, hxs⟩ := List.forall_mem_cons.1 hne
    have hkept : e ∈ (db.upsertEmbedding x).embeddings := by
      refine List.mem_append_left _ (List.mem_filter.2 ⟨h, ?_⟩)
      rw [decide_eq_true_eq]
      rintro ⟨-, hid, -⟩
      exact hx hid.symm
    show e ∈ ((db.upsertEmbedding x).insertEmbeddingsBatch xs).embeddings
    exact mem_insert_of_mem hkept hxs

/-- Rows of distinct chunks are all stored. -/
theorem mem_insert_self : ∀ (data : List EmbeddingEntry) (db : IndexDb) {e : EmbeddingEntry},
    (data.map (·.chunkId)).Nodup → e ∈ data → e ∈ (db.insertEmbeddingsBatch data).embeddings
  | [], _, _, _, h => nomatch h
  | x :: xs, db, e, hnd, h => by
    rw [List.map_cons, List.nodup_cons] at hnd
    show e ∈ ((db.upsertEmbedding x).insertEmbeddingsBatch xs).embeddings
    rcases List.mem_cons.1 h with rfl | h
    · refine mem_insert_of_mem (List.mem_append_right _ (List.mem_singleton_self _)) ?_
      intro y hy heq
      exact hnd.1 (heq ▸ List.mem_map_of_mem hy)
    · exact mem_insert_self xs _ hnd.2 h

theorem insertEmbeddingsBatch_chunks : ∀ (data : List EmbeddingEntry) (db : IndexDb),
    (db.insertEmbeddingsBatch data).chunks = db.chunks
  | [], _ => rfl
  | x :: xs, db => insertEmbeddingsBatch_chunks xs (db.upsertEmbedding x)

variable {provider : EmbeddingProvider} {chunkIds : List ℕ} {chunks : List Chunk} {n : ℕ}

/-- Every row stored pairs an id and a chunk of one position. -/
theorem generateEmbeddings_sound {db db' : IndexDb}
    (h : generateEmbeddings provider db chunkIds chunks = .ok (db', n)) :
    chunkIds.length = chunks.length ∧ db'.chunks = db.chunks ∧
      ∀ e ∈ db'.embeddings, e ∈ db.embeddings ∨
        ∃ p ∈ validChunkData chunkIds chunks, e.chunkId = p.1 ∧ e.source = p.2 := by
  unfold generateEmbeddings at h
  split at h
  · cases h
  · rename_i hlen
    refine ⟨not_not.1 hlen, ?_⟩
    simp only at h
    split at h
    · obtain ⟨rfl, -⟩ := Prod.mk.inj (Except.ok.inj h)
      exact ⟨rfl, fun e he => Or.inl he⟩
    · split at h
      · obtain ⟨rfl, -⟩ := Prod.mk.inj (Except.ok.inj h)
        exact ⟨rfl, fun e he => Or.inl he⟩
      · obtain ⟨rfl, -⟩ := Prod.mk.inj (Except.ok.inj h)
        refine ⟨insertEmbeddingsBatch_chunks _ _, fun e he => ?_⟩
        rcases mem_insertEmbeddingsBatch _ _ he with he | he
        · exact Or.inl he
        · obtain ⟨p, hp, rfl⟩ := List.mem_map.1 he
          exact Or.inr ⟨p.1, (List.of_mem_zip hp).1, rfl, rfl⟩

/-- The provider returns one vector for each text. -/
def EmbeddingProvider.Answers (provider : EmbeddingProvider) : Prop :=
  ∀ texts, ∃ vectors, provider.embedBatch texts = .ok vectors ∧ vectors.length = texts.length

theorem exists_mem_zip {α β : Type*} {xs : List α} {ys : List β} (h : xs.length = ys.length)
    {x : α} (hx : x ∈ xs) : ∃ y, (x, y) ∈ xs.zip ys := by
  rw [← List.map_fst_zip h.le] at hx
  obtain ⟨⟨_, y⟩, hp, rfl⟩ := List.mem_map.1 hx
  exact ⟨y, hp⟩

/-- With such a provider every chunk with text gets a row. -/
theorem generateEmbeddings_complete (hp : provider.Answers) (db : IndexDb)
    (hlen : chunkIds.length = chunks.length) (hnd : chunkIds.Nodup) :
    ∃ db' n, generateEmbeddings provider db chunkIds chunks = .ok (db', n) ∧
      ∀ p ∈ validChunkData chunkIds chunks, ∃ e ∈ db'.embeddings,
        e.chunkId = p.1 ∧ e.source = p.2 := by
  unfold generateEmbeddings
  rw [if_neg (not_not.2 hlen)]
  simp only
  split
  · rename_i hnil
    refine ⟨_, _, rfl, fun p hp => ?_⟩
    rw [hnil] at hp
    cases hp
  · obtain ⟨vectors, hok, hlenv⟩ := hp ((validChunkData chunkIds chunks).map fun p =>
      embeddingText p.2)
    rw [hok]
    rw [List.length_map] at hlenv
    refine ⟨_, _, rfl, fun p hpv => ?_⟩
    have hids : ((embeddingsData provider (validChunkData chunkIds chunks) vectors).map
        (·.chunkId)).Nodup := by
      have hsub : ((validChunkData chunkIds chunks).map (·.1)).Sublist
          ((chunkIds.zip chunks).map Prod.fst) := List.filter_sublist.map _
      rw [List.map_fst_zip hlen.le] at hsub
      have hfst : (embeddingsData provider (validChunkData chunkIds chunks) vectors).map
          (·.chunkId) = (validChunkData chunkIds chunks).map (·.1) := by
        conv_rhs => rw [← List.map_fst_zip hlenv.ge, List.map_map]
        rw [embeddingsData, List.map_map]
        rfl
      rw [hfst]
      exact hnd.sublist hsub
    obtain ⟨v, hv⟩ := exists_mem_zip hlenv.symm hpv
    exact ⟨_, mem_insert_self _ _ hids (List.mem_map_of_mem hv), rfl, rfl⟩

/-! ## One run of `process_file` -/

variable {stored parsed : List Chunk}

theorem mem_zip_newEntries {id : ℕ} {c : Chunk}
    (h : (id, c) ∈ ((IndexDb.newEntries n stored).map (·.id)).zip parsed) :
    ∃ e ∈ IndexDb.newEntries n stored, e.id = id ∧ (e.chunk, c) ∈ stored.zip parsed := by
  rw [List.zip_map_left] at h
  obtain ⟨⟨e, c'⟩, hmem, heq⟩ := List.mem_map.1 h
  obtain ⟨rfl, rfl⟩ := Prod.mk.inj heq
  refine ⟨e, (List.of_mem_zip hmem).1, rfl, ?_⟩
  rw [← IndexDb.newEntries_chunk n stored, List.zip_map_left]
  exact List.mem_map_of_mem hmem

theorem exists_newEntry_of_mem_zip {v c : Chunk}
    (h : (v, c) ∈ stored.zip parsed) : ∃ e ∈ IndexDb.newEntries n stored,
      e.chunk = v ∧ (e.id, c) ∈ ((IndexDb.newEntries n stored).map (·.id)).zip parsed := by
  rw [← IndexDb.newEntries_chunk n stored, List.zip_map_left] at h
  obtain ⟨⟨e, c'⟩, hmem, heq⟩ := List.mem_map.1 h
  obtain ⟨rfl, rfl⟩ := Prod.mk.inj heq
  refine ⟨e, (List.of_mem_zip hmem).1, rfl, ?_⟩
  rw [List.zip_map_left]
  exact List.mem_map_of_mem hmem

section ProcessFile

variable {splitter : Splitter} {order : IterationOrder} {db db' : IndexDb}
  {r : ParsedFileResult} {inserted : List Chunk} {ids : List ℕ}

theorem FileStored.mem_chunks (hst : FileStored splitter db r inserted db' ids)
    {e : ChunkEntry}
    (he : e ∈ IndexDb.newEntries db.chunksIdSeq (validateChunkSizes splitter inserted)) :
    e ∈ db'.chunks :=
  mem_chunks_of_mem_fileChunks (hst.rows ▸ List.mem_append_right _ he)

/-- No embedding of before has an id the store gave out. -/
theorem FileStored.embedding_lt (hst : FileStored splitter db r inserted db' ids) (h : db.WF)
    {e : EmbeddingEntry} (he : e ∈ db'.embeddings) : e.chunkId < db.chunksIdSeq :=
  h.embeddingIdLt e (hst.embeddings he)

variable {provider : EmbeddingProvider}

/-- Lined up lists give rows that match. -/
theorem FileStored.match_of_linedUp (hst : FileStored splitter db r inserted db' ids)
    (h : db.WF) {db'' : IndexDb} {n : ℕ}
    (hgen : generateEmbeddings provider db' ids r.chunks = .ok (db'', n))
    (hlined : LinedUp (validateChunkSizes splitter inserted) r.chunks) :
    EmbeddingsMatch db.chunksIdSeq db'' := by
  obtain ⟨-, hchunks, hrows⟩ := generateEmbeddings_sound hgen
  intro e he hseq
  rcases hrows e he with he | ⟨⟨id, c⟩, hp, hid, hsource⟩
  · have hlt := hst.embedding_lt h he
    omega
  · obtain ⟨hzip, htext⟩ := List.mem_filter.1 hp
    rw [hst.ids] at hzip
    obtain ⟨row, hrow, hrid, hpair⟩ := mem_zip_newEntries hzip
    refine ⟨row, ?_, hrid.trans hid.symm, ?_⟩
    · rw [hchunks]
      exact hst.mem_chunks hrow
    · rw [hsource]
      exact hlined _ hpair (by simpa using htext)

/-- And rows that match come from lined up lists. -/
theorem FileStored.linedUp_of_match (hst : FileStored splitter db r inserted db' ids)
    (hp : provider.Answers)
    (hlen : (validateChunkSizes splitter inserted).length = r.chunks.length) :
    ∃ db'' n, generateEmbeddings provider db' ids r.chunks = .ok (db'', n) ∧
      (EmbeddingsMatch db.chunksIdSeq db'' →
        LinedUp (validateChunkSizes splitter inserted) r.chunks) := by
  have hids : ids = List.range' db.chunksIdSeq (validateChunkSizes splitter inserted).length :=
    hst.ids.trans (IndexDb.newEntries_id _ _)
  have hidlen : ids.length = r.chunks.length := by
    rw [hids, List.length_range', hlen]
  obtain ⟨db'', n, hgen, hall⟩ := generateEmbeddings_complete hp db' hidlen
    (hids ▸ List.nodup_range')
  obtain ⟨-, hchunks, -⟩ := generateEmbeddings_sound hgen
  refine ⟨db'', n, hgen, ?_⟩
  rintro hmatch ⟨v, c⟩ hpair htext
  obtain ⟨row, hrow, rfl, hzip⟩ := exists_newEntry_of_mem_zip (n := db.chunksIdSeq) hpair
  rw [← hst.ids] at hzip
  have hvalid : (row.id, c) ∈ validChunkData ids r.chunks :=
    List.mem_filter.2 ⟨hzip, by simpa using htext⟩
  obtain ⟨e, he, hid, hsource⟩ := hall _ hvalid
  have hseq : db.chunksIdSeq ≤ e.chunkId := by
    rw [hid]
    exact (IndexDb.mem_newEntries hrow).1
  obtain ⟨row', hrow', hid', hcode⟩ := hmatch e he hseq
  rw [hchunks] at hrow'
  obtain rfl : row' = row := List.inj_on_of_nodup_map hst.wf.chunkIds hrow'
    (hst.mem_chunks hrow) (hid'.trans hid)
  rw [hsource] at hcode
  exact hcode

end ProcessFile

theorem processFile_stored (splitter : Splitter) (order : IterationOrder)
    (provider : EmbeddingProvider) (skipEmbeddings : Bool) (db : IndexDb)
    {r : ParsedFileResult} (hs : r.status = .success) :
    (processFile splitter order (some provider) skipEmbeddings none db r).1 =
      if skipEmbeddings = true ∨ (storeFile splitter order db r).2 = [] then
        (storeFile splitter order db r).1
      else
        match generateEmbeddings provider (storeFile splitter order db r).1
            (storeFile splitter order db r).2 r.chunks with
        | .error _ => (storeFile splitter order db r).1
        | .ok (db', _) => db' := by
  have hstore : storeParsedResults splitter order none db [r] =
      ((storeFile splitter order db r).1,
        { totalFiles := 1
          totalChunks := (storeFile splitter order db r).2.length
          errors := []
          chunkIdsNeedingEmbeddings := (storeFile splitter order db r).2 }) := by
    simp [storeParsedResults, storeParsedResult, hs, StoreStats.empty]
  unfold processFile
  rw [hs]
  simp only [hstore, Option.isSome_none, Bool.false_eq_true, if_false]
  split
  · rfl
  · split <;> simp_all

end ChunkHound
