import ChunkHound.FileEmbeddings

/-!
# When ids and texts line up

What the diff adds are the new contents only, in the order Python iterates a set of them.
So over an indexed file the inserted chunks line up with the parsed ones for every iteration
order exactly when all parsed chunks have one content. Two orders decide it : one with some
content first and one with it last cannot both start with the first parsed chunk
(`same_of_inPlace`).

Where the two lists differ in length nothing is embedded. Otherwise a run over an indexed
file with two contents can give a chunk the vector of another (`embeddings_match_iff`).
-/

namespace ChunkHound

open Grouping

/-! ## Counting positions -/

variable {α β : Type*}

theorem countP_le_of_zip {p : α → Bool} {q : β → Bool} :
    ∀ {xs : List α} {ys : List β}, xs.length = ys.length →
      (∀ z ∈ xs.zip ys, q z.2 = true → p z.1 = true) → ys.countP q ≤ xs.countP p
  | [], [], _, _ => le_rfl
  | x :: xs, y :: ys, hlen, h => by
    rw [List.zip_cons_cons, List.forall_mem_cons] at h
    have ih : ys.countP q ≤ xs.countP p := countP_le_of_zip (Nat.succ.inj hlen) h.2
    rw [List.countP_cons, List.countP_cons]
    by_cases hy : q y = true
    · have hx : p x = true := h.1 hy
      rw [if_pos hy, if_pos hx]
      omega
    · rw [if_neg hy]
      omega

/-- With as many on the right as on the left, a hit at the head of the left is one on the
right too. -/
theorem head_of_countP {p : α → Bool} {q : β → Bool} {x : α} {xs : List α}
    {y : β} {ys : List β} (hlen : (x :: xs).length = (y :: ys).length)
    (h : ∀ z ∈ (x :: xs).zip (y :: ys), q z.2 = true → p z.1 = true)
    (hcount : (x :: xs).countP p ≤ (y :: ys).countP q) (hx : p x = true) : q y = true := by
  rw [List.zip_cons_cons, List.forall_mem_cons] at h
  have hle := countP_le_of_zip (Nat.succ.inj hlen) h.2
  by_contra hy
  rw [List.countP_cons, List.countP_cons, if_pos hx, if_neg hy] at hcount
  omega

theorem exists_mem_zip_right {xs : List α} {ys : List β}
    (h : xs.length = ys.length) {y : β} (hy : y ∈ ys) : ∃ x, (x, y) ∈ xs.zip ys := by
  rw [← List.map_snd_zip h.ge] at hy
  obtain ⟨⟨x, _⟩, hp, rfl⟩ := List.mem_map.1 hy
  exact ⟨x, hp⟩

theorem eq_of_mem_zip_map {f : α → β} :
    ∀ {xs : List α} {p : β × α}, p ∈ (xs.map f).zip xs → p.1 = f p.2
  | x :: xs, p, h => by
    rw [List.map_cons, List.zip_cons_cons] at h
    rcases List.mem_cons.1 h with rfl | h
    · rfl
    · exact eq_of_mem_zip_map h

/-! ## Two iteration orders -/

/-- The order that starts with `k`. -/
def IterationOrder.first (k : String) : IterationOrder where
  iter keys := if k ∈ keys then k :: keys.erase k else keys
  perm keys := by
    split
    · rename_i h
      exact (List.perm_cons_erase h).symm
    · exact .refl _

/-- The order that ends with `k`. -/
def IterationOrder.last (k : String) : IterationOrder where
  iter keys := if k ∈ keys then keys.erase k ++ [k] else keys
  perm keys := by
    split
    · rename_i h
      exact (List.perm_append_singleton k _).trans (List.perm_cons_erase h).symm
    · exact .refl _

variable {chunks : List Chunk} {keys : List String}

theorem exists_head_first {k : String} (hk : k ∈ keys) (hc : hasContent chunks k = true) :
    ∃ v vs, chunksOf (.first k) chunks keys = v :: vs ∧ normalizedCode v = k := by
  have hiter : (IterationOrder.first k).iter keys = k :: keys.erase k := if_pos hk
  obtain ⟨c, hmem, hck⟩ := hasContent_iff.1 hc
  unfold chunksOf
  rw [hiter, List.flatMap_cons, valuesOf_groupBy]
  cases hf : chunks.filter (normalizedCode · = k) with
  | nil =>
    have hnot := List.filter_eq_nil_iff.1 hf c hmem
    simp [hck] at hnot
  | cons v vs =>
    have hv : v ∈ chunks.filter (normalizedCode · = k) := hf ▸ List.mem_cons_self
    exact ⟨v, _, rfl, by simpa using (List.mem_filter.1 hv).2⟩

theorem exists_head_last (hnd : keys.Nodup)
    {k k' : String} (hk : k ∈ keys) (hk' : k' ∈ keys) (hne : k' ≠ k)
    (hc : hasContent chunks k' = true) :
    ∃ v vs, chunksOf (.last k) chunks keys = v :: vs ∧ normalizedCode v ≠ k := by
  have hiter : (IterationOrder.last k).iter keys = keys.erase k ++ [k] := if_pos hk
  obtain ⟨c, hmem, hck⟩ := hasContent_iff.1 hc
  unfold chunksOf
  rw [hiter, List.flatMap_append]
  have hfront : c ∈ (keys.erase k).flatMap (valuesOf (groupBy normalizedCode chunks)) := by
    refine List.mem_flatMap.2 ⟨k', (List.mem_erase_of_ne hne).2 hk', ?_⟩
    rw [valuesOf_groupBy]
    exact List.mem_filter.2 ⟨hmem, by simpa using hck⟩
  cases hf : (keys.erase k).flatMap (valuesOf (groupBy normalizedCode chunks)) with
  | nil =>
    rw [hf] at hfront
    cases hfront
  | cons v vs =>
    refine ⟨v, _, rfl, ?_⟩
    have hv : v ∈ (keys.erase k).flatMap (valuesOf (groupBy normalizedCode chunks)) :=
      hf ▸ List.mem_cons_self
    obtain ⟨k₀, hk₀, hv⟩ := List.mem_flatMap.1 hv
    rw [valuesOf_groupBy] at hv
    have hvk : normalizedCode v = k₀ := by simpa using (List.mem_filter.1 hv).2
    rw [hvk]
    exact ((hnd.mem_erase_iff).1 hk₀).1

/-- Chunks with text sit at the position of one of their content. -/
def InPlace (stored parsed : List Chunk) : Prop :=
  ∀ p ∈ stored.zip parsed, normalizedCode p.2 ≠ "" → normalizedCode p.1 = normalizedCode p.2

/-- Only one content stays in place whatever the order. -/
theorem same_of_inPlace (hnd : keys.Nodup) (hkeys : ∀ c ∈ chunks, normalizedCode c ∈ keys)
    (h : ∀ order, InPlace (chunksOf order chunks keys) chunks) :
    ∀ c ∈ chunks, ∀ c' ∈ chunks, normalizedCode c = normalizedCode c' := by
  have hperm : ∀ order, (chunksOf order chunks keys).Perm chunks := by
    intro order
    refine (chunksOf_perm order chunks hnd).trans (.of_eq ?_)
    rw [List.filter_eq_self]
    exact fun c hc => decide_eq_true (hkeys c hc)
  -- a content with text and another one cannot both be there
  have hone : ∀ c ∈ chunks, ∀ c' ∈ chunks, normalizedCode c ≠ "" →
      normalizedCode c' = normalizedCode c := by
    intro c hc c' hc' htext
    by_contra hne
    obtain ⟨y, ys, rfl⟩ := List.exists_cons_of_ne_nil (List.ne_nil_of_mem hc)
    obtain ⟨v, vs, hfirst, hv⟩ := exists_head_first (hkeys c hc)
      (hasContent_iff.2 ⟨c, hc, rfl⟩)
    obtain ⟨w, ws, hlast, hw⟩ := exists_head_last hnd (hkeys c hc) (hkeys c' hc') hne
      (hasContent_iff.2 ⟨c', hc', rfl⟩)
    have hf := h (.first (normalizedCode c))
    have hl := h (.last (normalizedCode c))
    have hp := hperm (.first (normalizedCode c))
    rw [hfirst] at hf hp
    rw [hlast] at hl
    have hy : decide (normalizedCode y = normalizedCode c) = true := by
      refine head_of_countP (p := fun x => decide (normalizedCode x = normalizedCode c))
        (q := fun x => decide (normalizedCode x = normalizedCode c)) hp.length_eq ?_
        (hp.countP_eq _).le (decide_eq_true hv)
      intro p hpair hq
      rw [decide_eq_true_eq] at hq ⊢
      rw [hf p hpair (hq.trans_ne htext), hq]
    rw [decide_eq_true_eq] at hy
    have hwy := hl (w, y) List.mem_cons_self (hy.trans_ne htext)
    exact hw (hwy.trans hy)
  intro c hc c' hc'
  by_cases htext : normalizedCode c = ""
  · by_cases htext' : normalizedCode c' = ""
    · rw [htext, htext']
    · exact hone c' hc' c hc htext'
  · exact (hone c hc c' hc' htext).symm

/-! ## Over the rows of a file -/

section Alignment

variable (splitter : Splitter) {rows : List ChunkEntry} {chunks : List Chunk}

theorem length_inserted (order : IterationOrder) (rows : List ChunkEntry) (chunks : List Chunk)
    (fileId : ℕ) : (validateChunkSizes splitter
      ((insertedChunks order rows chunks).map (withFileId fileId))).length =
        (validateChunkSizes splitter (newContents rows chunks)).length := by
  rw [validateChunkSizes_withFileId, List.length_map]
  exact ((insertedChunks_perm order rows chunks).flatMap_right _).length_eq

/-- Where as many chunks are inserted as parsed, and all are new, none was split. -/
theorem fits_of_length (hnew : newContents rows chunks = chunks)
    (hlen : (validateChunkSizes splitter (newContents rows chunks)).length = chunks.length) :
    ∀ c ∈ chunks, oversized c.code = false := by
  intro c hc
  by_contra ho
  have hlt := (length_validateChunkSizes splitter chunks).2 ⟨c, hc, by simpa using ho⟩
  rw [hnew] at hlen
  omega

theorem linedUp_map (fileId : ℕ) (chunks : List Chunk) :
    LinedUp (chunks.map (withFileId fileId)) chunks := by
  intro p hp _
  have hp := eq_of_mem_zip_map hp
  rw [hp]
  rfl

/-- A blank chunk has blank pieces. -/
theorem blank_of_mem_validated {splitter : Splitter} {chunk c : Chunk}
    (h : c ∈ splitter.validated chunk) (hblank : normalizedCode chunk = "") :
    normalizedCode c = "" := by
  unfold Splitter.validated at h
  split at h
  · obtain ⟨uc, huc, rfl⟩ := List.mem_map.1 h
    have hsub : uc.content.toList ⊆ chunk.code.toList :=
      splitter.chars (chunkToUniversal chunk) uc huc
    have hall := List.all_eq_true.1 (normalizeContent_eq_empty.1 hblank)
    exact normalizeContent_eq_empty.2 (List.all_eq_true.2 fun ch hch => hall ch (hsub hch))
  · rw [List.mem_singleton.1 h]
    exact hblank

variable {order : IterationOrder}

/-- One new content comes out as it was parsed. -/
theorem insertedChunks_of_same
    (hsame : ∀ c ∈ chunks, ∀ c' ∈ chunks, normalizedCode c = normalizedCode c')
    (hnew : newContents rows chunks = chunks) : insertedChunks order rows chunks = chunks := by
  unfold insertedChunks
  split
  · rfl
  · cases chunks with
    | nil =>
      have hperm := chunksOf_perm order [] (nodup_addedKeys [] (rows.map (·.chunk)))
      rw [List.filter_nil] at hperm
      exact hperm.eq_nil
    | cons c cs =>
      have hc : c ∈ newContents rows (c :: cs) := by
        rw [hnew]
        exact List.mem_cons_self
      have hkeys : (addedKeys (c :: cs) (rows.map (·.chunk))).Perm [normalizedCode c] := by
        refine (List.perm_ext_iff_of_nodup (nodup_addedKeys _ _) (List.nodup_singleton _)).2
          fun content => ?_
        rw [mem_addedKeys, List.mem_singleton, hasContent_iff]
        constructor
        · rintro ⟨⟨c', hc', rfl⟩, -⟩
          exact hsame c' hc' c List.mem_cons_self
        · rintro rfl
          exact ⟨⟨c, List.mem_cons_self, rfl⟩, by simpa using (List.mem_filter.1 hc).2⟩
      have hiter : order.iter (addedKeys (c :: cs) (rows.map (·.chunk))) = [normalizedCode c] :=
        List.perm_singleton.1 ((order.perm _).trans hkeys)
      rw [chunksOf, hiter, List.flatMap_singleton, valuesOf_groupBy, List.filter_eq_self]
      exact fun c' hc' => decide_eq_true (hsame c' hc' c List.mem_cons_self)

/-- Into a file without rows, or with one content parsed, chunks go in as they were parsed. -/
theorem linedUp_of_same (order : IterationOrder) (fileId : ℕ)
    (hlen : (validateChunkSizes splitter (newContents rows chunks)).length = chunks.length)
    (hsame : rows = [] ∨
      ∀ c ∈ chunks, ∀ c' ∈ chunks, normalizedCode c = normalizedCode c') :
    LinedUp (validateChunkSizes splitter
      ((insertedChunks order rows chunks).map (withFileId fileId))) chunks := by
  have hall : newContents rows chunks = chunks := by
    rcases hsame with rfl | hsame
    · simp [newContents, hasContent]
    · -- all of them are new, or none is
      rw [newContents, List.filter_eq_self]
      by_contra hex
      push Not at hex
      obtain ⟨c, hc, hold⟩ := hex
      have hnil : newContents rows chunks = [] := by
        rw [newContents, List.filter_eq_nil_iff]
        intro c' hc' hnew
        rw [hsame c' hc' c hc] at hnew
        exact hold hnew
      rw [hnil] at hlen
      exact List.ne_nil_of_mem hc (List.length_eq_zero_iff.1 hlen.symm)
  have hinserted : insertedChunks order rows chunks = chunks := by
    rcases hsame with rfl | hsame
    · exact if_pos rfl
    · exact insertedChunks_of_same hsame hall
  rw [hinserted, validateChunkSizes_withFileId,
    validateChunkSizes_of_fits splitter (fits_of_length splitter hall hlen)]
  exact linedUp_map fileId chunks

/-- Lined up, the chunks with text were all inserted whole. -/
theorem new_of_linedUp {fileId : ℕ}
    (hlen : (validateChunkSizes splitter (newContents rows chunks)).length = chunks.length)
    (h : LinedUp (validateChunkSizes splitter
      ((insertedChunks order rows chunks).map (withFileId fileId))) chunks) :
    newContents rows chunks = chunks := by
  have hW := length_inserted splitter order rows chunks fileId
  -- the stored chunk at the position of a chunk with text has its code
  have hstored : ∀ c ∈ chunks, normalizedCode c ≠ "" →
      ∃ v ∈ validateChunkSizes splitter (insertedChunks order rows chunks),
        v.code = c.code := by
    intro c hc htext
    obtain ⟨v, hpair⟩ := exists_mem_zip_right (hW.trans hlen) hc
    have hv : v = withFileId v.fileId c := h _ hpair htext
    have hmem := (List.of_mem_zip hpair).1
    rw [validateChunkSizes_withFileId] at hmem
    obtain ⟨v₀, hv₀, hfile⟩ := List.mem_map.1 hmem
    refine ⟨v₀, hv₀, ?_⟩
    have hcode : v.code = (withFileId v.fileId c).code := congrArg Chunk.code hv
    have hcode₀ : v₀.code = v.code := by
      rw [← hfile]
      rfl
    exact hcode₀.trans hcode
  have hfits : ∀ c ∈ chunks, normalizedCode c ≠ "" → oversized c.code = false := by
    intro c hc htext
    obtain ⟨v, hv, hcode⟩ := hstored c hc htext
    rw [← hcode]
    exact oversized_of_mem_validateChunkSizes hv
  have hnewText : ∀ c ∈ chunks, normalizedCode c ≠ "" →
      hasContent (rows.map (·.chunk)) (normalizedCode c) = false := by
    intro c hc htext
    obtain ⟨v, hv, hcode⟩ := hstored c hc htext
    have hvc : normalizedCode v = normalizedCode c := congrArg normalizeContent hcode
    obtain ⟨c₀, hc₀, hpiece⟩ := List.mem_flatMap.1 hv
    obtain ⟨hmem₀, hnew₀⟩ := List.mem_filter.1
      ((insertedChunks_perm order rows chunks).mem_iff.1 hc₀)
    have htext₀ : normalizedCode c₀ ≠ "" := fun hblank =>
      htext (hvc.symm.trans (blank_of_mem_validated hpiece hblank))
    rw [splitter.validated_of_fits (hfits c₀ hmem₀ htext₀), List.mem_singleton] at hpiece
    rw [← hvc, hpiece]
    simpa using hnew₀
  rw [newContents, List.filter_eq_self]
  by_contra hex
  push Not at hex
  obtain ⟨c, hc, hold⟩ := hex
  -- it is blank, so every new content has text, none was split and none is missing
  have hblank : normalizedCode c = "" := by
    by_contra htext
    simp [hnewText c hc htext] at hold
  have hfitsNew : ∀ c' ∈ newContents rows chunks, oversized c'.code = false := by
    intro c' hc'
    obtain ⟨hmem, hnew⟩ := List.mem_filter.1 hc'
    refine hfits c' hmem fun hblank' => hold ?_
    rw [hblank, ← hblank']
    exact hnew
  rw [validateChunkSizes_of_fits splitter hfitsNew] at hlen
  exact hold (List.length_filter_eq_length_iff.1 hlen c hc)

/-- Lined up for every order over rows of before, the parsed chunks have one content. -/
theorem same_of_linedUp (hrows : rows ≠ [])
    (hlen : (validateChunkSizes splitter (newContents rows chunks)).length = chunks.length)
    (h : ∀ order, ∃ fileId, LinedUp (validateChunkSizes splitter
      ((insertedChunks order rows chunks).map (withFileId fileId))) chunks) :
    ∀ c ∈ chunks, ∀ c' ∈ chunks, normalizedCode c = normalizedCode c' := by
  obtain ⟨fileId, hone⟩ := h (.first "")
  have hnew := new_of_linedUp splitter hlen hone
  have hfits := fits_of_length splitter hnew hlen
  refine same_of_inPlace (nodup_addedKeys chunks (rows.map (·.chunk))) ?_ ?_
  · intro c hc
    have hmem : c ∈ newContents rows chunks := hnew.symm ▸ hc
    refine mem_addedKeys.2 ⟨hasContent_iff.2 ⟨c, hc, rfl⟩, ?_⟩
    simpa using (List.mem_filter.1 hmem).2
  · intro order
    obtain ⟨fileId, hlined⟩ := h order
    have hins : insertedChunks order rows chunks =
        chunksOf order chunks (addedKeys chunks (rows.map (·.chunk))) := if_neg hrows
    have hfitsIns : ∀ c ∈ insertedChunks order rows chunks, oversized c.code = false := by
      intro c hc
      have hmem := (insertedChunks_perm order rows chunks).mem_iff.1 hc
      exact hfits c (List.mem_of_mem_filter hmem)
    rw [validateChunkSizes_withFileId, validateChunkSizes_of_fits splitter hfitsIns, hins] at hlined
    rintro ⟨v, c⟩ hpair htext
    have hmapped : (withFileId fileId v, c) ∈
        ((chunksOf order chunks (addedKeys chunks (rows.map (·.chunk)))).map
          (withFileId fileId)).zip chunks := by
      rw [List.zip_map_left]
      exact List.mem_map_of_mem (f := Prod.map (withFileId fileId) id) hpair
    have heq : withFileId fileId v = withFileId fileId c := hlined _ hmapped htext
    have hcode : (withFileId fileId v).code = (withFileId fileId c).code :=
      congrArg Chunk.code heq
    show normalizeContent v.code = normalizeContent c.code
    exact congrArg normalizeContent hcode

end Alignment

/-! ## Every run of `process_file` -/

/-- A provider that answers every text with the same vector. -/
def constantProvider : EmbeddingProvider where
  name := "constant"
  model := "m"
  embedBatch texts := .ok (texts.map fun _ => [])

theorem constantProvider_answers : constantProvider.Answers :=
  fun _ => ⟨_, rfl, List.length_map _⟩

section Main

variable (splitter : Splitter) {db : IndexDb} {r : ParsedFileResult}

/-- Every run leaves rows that match, when what it inserts lines up with what was parsed. -/
theorem match_of_linedUp (h : db.WF) (hs : r.status = .success) (order : IterationOrder)
    (provider : Option EmbeddingProvider) (skipEmbeddings : Bool)
    (diskLimitError : Option String)
    (hlined : (validateChunkSizes splitter
        (newContents (db.fileChunks r.path) r.chunks)).length = r.chunks.length →
      ∀ fileId, LinedUp (validateChunkSizes splitter
        ((insertedChunks order (db.fileChunks r.path) r.chunks).map (withFileId fileId)))
        r.chunks) :
    EmbeddingsMatch db.chunksIdSeq
      (processFile splitter order provider skipEmbeddings diskLimitError db r).1 := by
  obtain ⟨fileId, hst⟩ := storeFile_spec splitter order h r
  have hstored : EmbeddingsMatch db.chunksIdSeq (storeFile splitter order db r).1 := by
    intro e he hseq
    have hlt := hst.embedding_lt h he
    omega
  cases diskLimitError with
  | some e =>
    have hnone : (processFile splitter order provider skipEmbeddings (some e) db r).1 = db := by
      unfold processFile
      rw [hs]
      rfl
    rw [hnone]
    intro e' he hseq
    have hlt := h.embeddingIdLt e' he
    omega
  | none =>
    cases provider with
    | none =>
      have hdb : (processFile splitter order none skipEmbeddings none db r).1 =
          (storeFile splitter order db r).1 := by
        unfold processFile
        rw [hs]
        simp [storeParsedResults, storeParsedResult, hs]
      rw [hdb]
      exact hstored
    | some provider =>
      rw [processFile_stored splitter order provider skipEmbeddings db hs]
      split
      · exact hstored
      · split
        · exact hstored
        · rename_i db' n hgen
          refine hst.match_of_linedUp h hgen (hlined ?_ fileId)
          have hlen := (generateEmbeddings_sound hgen).1
          rw [hst.ids, List.length_map] at hlen
          rw [← length_inserted splitter order _ _ fileId, ← hlen,
            ← congrArg List.length (IndexDb.newEntries_chunk db.chunksIdSeq _), List.length_map]

/-- A run that embeds lines the two lists up, if it leaves rows that match. -/
theorem linedUp_of_match (h : db.WF) (hs : r.status = .success) (order : IterationOrder)
    (hlen : (validateChunkSizes splitter
      (newContents (db.fileChunks r.path) r.chunks)).length = r.chunks.length)
    (hmatch : EmbeddingsMatch db.chunksIdSeq
      (processFile splitter order (some constantProvider) false none db r).1) :
    ∃ fileId, LinedUp (validateChunkSizes splitter
      ((insertedChunks order (db.fileChunks r.path) r.chunks).map (withFileId fileId)))
      r.chunks := by
  obtain ⟨fileId, hst⟩ := storeFile_spec splitter order h r
  refine ⟨fileId, ?_⟩
  rw [← length_inserted splitter order _ _ fileId] at hlen
  obtain ⟨db', n, hgen, hlined⟩ := hst.linedUp_of_match constantProvider_answers hlen
  rw [processFile_stored splitter order constantProvider false db hs, hgen] at hmatch
  by_cases hids : (storeFile splitter order db r).2 = []
  · -- nothing was inserted
    have hnil : validateChunkSizes splitter
        ((insertedChunks order (db.fileChunks r.path) r.chunks).map (withFileId fileId)) = [] := by
      rw [hst.ids, List.map_eq_nil_iff] at hids
      rw [← IndexDb.newEntries_chunk db.chunksIdSeq (validateChunkSizes splitter _), hids]
      rfl
    rw [hnil]
    intro p hp
    cases hp
  · rw [if_neg (by simpa using hids)] at hmatch
    exact hlined hmatch

/-- Every run over the file, whatever the iteration order, gives each embedded chunk the
vector of its own text, exactly when nothing was stored of the file, or the numbers of
inserted and parsed chunks differ, or all parsed chunks have one content. -/
theorem embeddings_match_iff (h : db.WF) (hs : r.status = .success) :
    (∀ order provider skipEmbeddings diskLimitError, EmbeddingsMatch db.chunksIdSeq
        (processFile splitter order provider skipEmbeddings diskLimitError db r).1) ↔
      db.fileChunks r.path = [] ∨
        (validateChunkSizes splitter (newContents (db.fileChunks r.path) r.chunks)).length ≠
          r.chunks.length ∨
        ∀ c ∈ r.chunks, ∀ c' ∈ r.chunks, normalizedCode c = normalizedCode c' := by
  constructor
  · intro hmatch
    by_cases hrows : db.fileChunks r.path = []
    · exact Or.inl hrows
    by_cases hlen : (validateChunkSizes splitter
        (newContents (db.fileChunks r.path) r.chunks)).length = r.chunks.length
    · refine Or.inr (Or.inr (same_of_linedUp splitter hrows hlen fun order => ?_))
      exact linedUp_of_match splitter h hs order hlen (hmatch order _ false none)
    · exact Or.inr (Or.inl hlen)
  · intro hcond order provider skipEmbeddings diskLimitError
    refine match_of_linedUp splitter h hs order provider skipEmbeddings diskLimitError
      fun hlen fileId => linedUp_of_same splitter order fileId hlen ?_
    rcases hcond with hrows | hne | hsame
    · exact Or.inl hrows
    · exact absurd hlen hne
    · exact Or.inr hsame

end Main

/-! ## Two new functions -/

/-- A function of `a.py` with the given code. -/
def functionChunk (name code : String) (startLine : ℤ)
    (symbol_ok : (some name).all (fun s => !isBlank s) = true) (lines_ok : 1 ≤ startLine)
    (code_ok : code ≠ "") : Chunk where
  id := none
  fileId := 1
  filePath := some "a.py"
  symbol := some name
  startLine := startLine
  endLine := startLine + 1
  code := code
  chunkType := .function
  language := "python"
  startByte := none
  endByte := none
  metadata := none
  symbol_ok := symbol_ok
  lines_ok := movedChunk_lines_ok lines_ok
  code_ok := code_ok

/-- `a.py` with `f` replaced by `g` and `h`. -/
def parsedTwo : ParsedFileResult :=
  ⟨"a.py",
    [functionChunk "g" "def g(): pass" 1 (by decide) firstLine_ok (by decide),
      functionChunk "h" "def h(): pass" 3 (by decide) (by decide) (by decide)],
    "python", 26, 1, .success, some "h2"⟩

/-- A set iterated from the last inserted on. -/
def reverseOrder : IterationOrder := ⟨List.reverse, List.reverse_perm⟩

/-- The row of `h` gets the vector of the text of `g`. -/
theorem swapped_vectors : ¬EmbeddingsMatch indexedOnce.chunksIdSeq
    (processFile charSplitter reverseOrder (some constantProvider) false none indexedOnce
      parsedTwo).1 := by
  unfold EmbeddingsMatch
  decide +kernel

/-- Into an index without the file every chunk gets its own vector. -/
theorem embeddings_match_fresh : IndexDb.empty.fileChunks parsedTwo.path = [] ∧
    ∀ order provider skipEmbeddings diskLimitError,
      EmbeddingsMatch IndexDb.empty.chunksIdSeq
        (processFile charSplitter order provider skipEmbeddings diskLimitError .empty
          parsedTwo).1 :=
  ⟨rfl, (embeddings_match_iff charSplitter IndexDb.wf_empty rfl).2 (Or.inl rfl)⟩

end ChunkHound
