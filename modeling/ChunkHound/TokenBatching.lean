import ChunkHound.Slices
import Mathlib

/-!
# Token-aware batches

`_create_token_aware_batches` of `embedding_service.py` : texts are packed greedily, in order,
under the tokens and the documents of the provider and 300 chunks. The check of the documents
does not ask whether there is a batch to close, so a provider that takes no document gets an
empty batch (`createTokenAwareBatches_fits_iff`).

`estimate_tokens` and `int(max_tokens * 0.80)`, a product of floats, are parameters.
-/

namespace ChunkHound.TokenBatching

/-- A chunk id and its text. -/
abbrev Entry := ℕ × String

/-- What the batching asks of the provider. `textTokens` is `estimate_tokens` for its name,
model and base URL. -/
structure EmbeddingProvider where
  maxTokensPerBatch : ℤ
  maxDocumentsPerBatch : ℤ
  textTokens : String → ℕ

def maxChunksPerBatch : ℕ := 300

/-- The batch size without a provider. -/
def simpleBatchSize : ℕ := 20

/-- What the loop has built. -/
structure Batching where
  batches : List (List Entry)
  currentBatch : List Entry
  currentTokens : ℕ

/-- The estimated tokens of a batch. -/
def batchTokens (provider : EmbeddingProvider) (batch : List Entry) : ℕ :=
  (batch.map fun entry => provider.textTokens entry.2).sum

section Loop

variable (provider : EmbeddingProvider) (safeLimit : ℤ)

/-- One chunk of the loop. -/
def addChunk (s : Batching) (entry : Entry) : Batching :=
  let textTokens := provider.textTokens entry.2
  if (safeLimit < (s.currentTokens + textTokens : ℕ) ∧ s.currentBatch ≠ []) ∨
      provider.maxDocumentsPerBatch ≤ s.currentBatch.length ∨
      maxChunksPerBatch ≤ s.currentBatch.length then
    ⟨s.batches ++ [s.currentBatch], [entry], textTokens⟩
  else
    ⟨s.batches, s.currentBatch ++ [entry], s.currentTokens + textTokens⟩

/-- The loop, and what remains when it ends. -/
def greedyBatches (chunkData : List Entry) : List (List Entry) :=
  let s := chunkData.foldl (addChunk provider safeLimit) ⟨[], [], 0⟩
  if s.currentBatch ≠ [] then s.batches ++ [s.currentBatch] else s.batches

end Loop

/-- `_create_token_aware_batches`. `share n` is `int(n * 0.80)`. -/
def createTokenAwareBatches (share : ℤ → ℤ) (provider : Option EmbeddingProvider)
    (chunkData : List Entry) : List (List Entry) :=
  if chunkData = [] then []
  else
    match provider with
    | none => Slices.slices simpleBatchSize chunkData
    | some provider => greedyBatches provider (share provider.maxTokensPerBatch) chunkData

/-! ## What fits -/

/-- A batch the provider takes. -/
structure Fits (provider : EmbeddingProvider) (safeLimit : ℤ) (batch : List Entry) : Prop where
  nonempty : batch ≠ []
  documents : (batch.length : ℤ) ≤ provider.maxDocumentsPerBatch
  entries : batch.length ≤ maxChunksPerBatch
  tokens : (batchTokens provider batch : ℤ) ≤ safeLimit ∨ batch.length = 1

section Greedy

variable {provider : EmbeddingProvider} {safeLimit : ℤ}

theorem batchTokens_append (provider : EmbeddingProvider) (batch : List Entry) (entry : Entry) :
    batchTokens provider (batch ++ [entry]) =
      batchTokens provider batch + provider.textTokens entry.2 := by
  simp [batchTokens]

theorem fits_singleton (hdocs : 1 ≤ provider.maxDocumentsPerBatch) (entry : Entry) :
    Fits provider safeLimit [entry] :=
  ⟨by simp, by simpa using hdocs, by simp [maxChunksPerBatch], Or.inr rfl⟩

/-- The loop has seen the entries `seen`. -/
structure Batching.Inv (provider : EmbeddingProvider) (safeLimit : ℤ) (seen : List Entry)
    (s : Batching) : Prop where
  concat : s.batches.flatten ++ s.currentBatch = seen
  closed : ∀ batch ∈ s.batches, Fits provider safeLimit batch
  current : s.currentBatch ≠ [] → Fits provider safeLimit s.currentBatch
  tokens : s.currentTokens = batchTokens provider s.currentBatch

/-- With room for a document, a batch is only closed when there is something in it. -/
theorem Batching.Inv.addChunk {seen : List Entry} {s : Batching}
    (hdocs : 1 ≤ provider.maxDocumentsPerBatch) (h : s.Inv provider safeLimit seen)
    (entry : Entry) :
    (TokenBatching.addChunk provider safeLimit s entry).Inv provider safeLimit
      (seen ++ [entry]) := by
  unfold TokenBatching.addChunk
  dsimp only
  split
  · rename_i hfull
    have hne : s.currentBatch ≠ [] := by
      intro hnil
      rw [hnil, List.length_nil] at hfull
      rcases hfull with ⟨-, hne⟩ | hd | hc
      · exact hne rfl
      · omega
      · simp [maxChunksPerBatch] at hc
    refine ⟨?_, ?_, fun _ => fits_singleton hdocs entry, by simp [batchTokens]⟩
    · rw [List.flatten_append, List.flatten_singleton, h.concat]
    · intro batch hbatch
      rcases List.mem_append.1 hbatch with hbatch | hbatch
      · exact h.closed batch hbatch
      · rw [List.mem_singleton.1 hbatch]
        exact h.current hne
  · rename_i hroom
    push Not at hroom
    obtain ⟨htokens, hd, hc⟩ := hroom
    have hsum := batchTokens_append provider s.currentBatch entry
    refine ⟨?_, h.closed, fun _ => ⟨by simp, ?_, ?_, ?_⟩, ?_⟩
    · rw [← List.append_assoc, h.concat]
    · rw [List.length_append, List.length_singleton]
      omega
    · rw [List.length_append, List.length_singleton]
      omega
    · by_cases hnil : s.currentBatch = []
      · right
        rw [hnil]
        rfl
      · left
        have hlimit : ¬ safeLimit < (s.currentTokens + provider.textTokens entry.2 : ℕ) :=
          fun hlt => hnil (htokens hlt)
        rw [hsum, ← h.tokens]
        omega
    · rw [hsum, h.tokens]

theorem Batching.Inv.foldl (hdocs : 1 ≤ provider.maxDocumentsPerBatch) :
    ∀ (chunkData : List Entry) {seen : List Entry} {s : Batching},
      s.Inv provider safeLimit seen →
      (chunkData.foldl (TokenBatching.addChunk provider safeLimit) s).Inv provider safeLimit
        (seen ++ chunkData)
  | [], seen, s, h => by simpa using h
  | entry :: rest, seen, s, h => by
    have hrest := Batching.Inv.foldl hdocs rest (h.addChunk hdocs entry)
    rwa [List.append_assoc, List.singleton_append] at hrest

/-- The loop shares out the entries, in order, over batches that fit. -/
theorem greedyBatches_spec (safeLimit : ℤ) (hdocs : 1 ≤ provider.maxDocumentsPerBatch)
    (chunkData : List Entry) :
    (greedyBatches provider safeLimit chunkData).flatten = chunkData ∧
      ∀ batch ∈ greedyBatches provider safeLimit chunkData, Fits provider safeLimit batch := by
  have hinit : Batching.Inv provider safeLimit [] ⟨[], [], 0⟩ :=
    ⟨rfl, by simp, fun h => absurd rfl h, rfl⟩
  have hinv := Batching.Inv.foldl hdocs chunkData hinit
  rw [List.nil_append] at hinv
  unfold greedyBatches
  dsimp only
  split
  · rename_i hne
    refine ⟨?_, ?_⟩
    · rw [List.flatten_append, List.flatten_singleton, hinv.concat]
    · intro batch hbatch
      rcases List.mem_append.1 hbatch with hbatch | hbatch
      · exact hinv.closed batch hbatch
      · rw [List.mem_singleton.1 hbatch]
        exact hinv.current hne
  · rename_i hnil
    have hconcat := hinv.concat
    rw [not_ne_iff.1 hnil, List.append_nil] at hconcat
    exact ⟨hconcat, hinv.closed⟩

end Greedy

/-! ## The batches -/

/-- The batches hold the entries in order, and each fits. Without a provider there are only
the 300 chunks to respect. -/
structure BatchesFit (share : ℤ → ℤ) (provider : Option EmbeddingProvider)
    (chunkData : List Entry) (batches : List (List Entry)) : Prop where
  concat : batches.flatten = chunkData
  nonempty : ∀ batch ∈ batches, batch ≠ []
  entries : ∀ batch ∈ batches, batch.length ≤ maxChunksPerBatch
  documents : ∀ p, provider = some p → ∀ batch ∈ batches,
    (batch.length : ℤ) ≤ p.maxDocumentsPerBatch
  tokens : ∀ p, provider = some p → ∀ batch ∈ batches,
    (batchTokens p batch : ℤ) ≤ share p.maxTokensPerBatch ∨ batch.length = 1

theorem createTokenAwareBatches_fits_iff (share : ℤ → ℤ) (provider : Option EmbeddingProvider)
    (chunkData : List Entry) :
    BatchesFit share provider chunkData (createTokenAwareBatches share provider chunkData) ↔
      chunkData = [] ∨ ∀ p, provider = some p → 1 ≤ p.maxDocumentsPerBatch := by
  unfold createTokenAwareBatches
  by_cases hnil : chunkData = []
  · rw [if_pos hnil]
    exact ⟨fun _ => Or.inl hnil, fun _ => ⟨by simp [hnil], by simp, by simp, by simp, by simp⟩⟩
  rw [if_neg hnil]
  cases provider with
  | none =>
    have hsize : 0 < simpleBatchSize := by simp [simpleBatchSize]
    refine iff_of_true ⟨Slices.flatten_slices hsize chunkData, ?_, ?_, by simp, by simp⟩
      (Or.inr (by simp))
    · exact fun batch hbatch => Slices.ne_nil_of_mem_slices hsize hbatch
    · intro batch hbatch
      have hlen : batch.length ≤ 20 := Slices.length_le_of_mem_slices hbatch
      unfold maxChunksPerBatch
      omega
  | some p =>
    dsimp only
    constructor
    · intro h
      right
      intro q hq
      obtain ⟨batch, hbatch⟩ : ∃ batch, batch ∈
          greedyBatches p (share p.maxTokensPerBatch) chunkData := by
        refine List.exists_mem_of_ne_nil _ fun hempty => hnil ?_
        rw [← h.concat, hempty, List.flatten_nil]
      have hlen := List.length_pos_iff.2 (h.nonempty batch hbatch)
      have hdocs := h.documents q hq batch hbatch
      omega
    · rintro (h | h)
      · exact absurd h hnil
      obtain ⟨hconcat, hfits⟩ := greedyBatches_spec (share p.maxTokensPerBatch) (h p rfl)
        chunkData
      refine ⟨hconcat, fun b hb => (hfits b hb).nonempty, fun b hb => (hfits b hb).entries,
        ?_, ?_⟩
      · intro q hq b hb
        obtain rfl := Option.some.inj hq
        exact (hfits b hb).documents
      · intro q hq b hb
        obtain rfl := Option.some.inj hq
        exact (hfits b hb).tokens

/-- A provider configured with the batch size 0. -/
def noDocuments : EmbeddingProvider := ⟨8191, 0, String.length⟩

/-- It gets an empty batch, and then one with a document. -/
theorem createTokenAwareBatches_noDocuments :
    ¬BatchesFit (fun n => (n * 4).tdiv 5) (some noDocuments) [(1, "pass")]
      (createTokenAwareBatches (fun n => (n * 4).tdiv 5) (some noDocuments) [(1, "pass")]) := by
  intro h
  have hbatches : createTokenAwareBatches (fun n => (n * 4).tdiv 5) (some noDocuments)
      [(1, "pass")] = [[], [(1, "pass")]] := rfl
  rw [hbatches] at h
  exact h.nonempty [] List.mem_cons_self rfl

end ChunkHound.TokenBatching
