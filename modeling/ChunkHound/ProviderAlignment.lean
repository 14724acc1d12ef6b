import ChunkHound.VoyageBatching

/-!
# Which texts a provider aligns

Callers pair the vectors of a provider with their texts by position. When a call that
returns has one vector for each text, of that text, is decided exactly
(`providers_aligned_iff`).

* OpenAI : no text is oversized. The pieces of an oversized text come back as vectors of
  their own (`embedBatchLoop_yields`), while `handle_token_limit_error` takes the first
  piece for the text.
* VoyageAI : no text is blank. A blank text is dropped and gets no vector
  (`VoyageProvider.embed_yields`), while `validate_texts` of the OpenAI provider puts a
  placeholder.

The rest are settings with which a call never returns, or never sends anything.
-/

namespace ChunkHound

open Outcomes Slices

/-- What stands for a text : the text, or the placeholder of a blank one. -/
def textOrPlaceholder (text : String) : String := if isBlank text then "[EMPTY]" else text

/-- One vector for each text, returned for a piece of it. -/
def VectorsOf (texts : List String) (es : List Embedding) : Prop :=
  List.Forall₂ (fun t e => PieceOf e.source (textOrPlaceholder t)) texts es

variable {texts : List String} {es : List Embedding}

theorem VectorsOf.length_eq
    (h : VectorsOf texts es) : texts.length = es.length := List.Forall₂.length_eq h

theorem pieceOf_validText (text : String) : PieceOf (validText text) (textOrPlaceholder text) := by
  unfold validText textOrPlaceholder
  by_cases hs : strip text.toList = []
  · rw [if_pos hs, if_pos (isBlank_iff.2 hs)]
    exact .refl (by decide)
  · rw [if_neg hs, if_neg fun hblank => hs (isBlank_iff.1 hblank)]
    exact pieceOf_strip hs

theorem VectorsOf.of_validateTexts (h : Aligned (validateTexts texts) es) : VectorsOf texts es := by
  unfold Aligned validateTexts at h
  rw [List.forall₂_map_left_iff] at h
  exact h.imp fun t e he => he.trans (pieceOf_validText t)

theorem VectorsOf.of_aligned
    (ht : ∀ t ∈ texts, isBlank t = false) (h : Aligned texts es) : VectorsOf texts es := by
  refine (List.forall₂_iff_zip.2 ⟨h.length_eq, fun {t e} hmem => ?_⟩)
  have hpiece : PieceOf e.source t := (List.forall₂_iff_zip.1 h).2 hmem
  unfold textOrPlaceholder
  rw [ht t (List.of_mem_zip hmem).1]
  exact hpiece

/-! ## OpenAI -/

/-- Every response has one vector for each text of the request. -/
def OpenAIAnswers (server : OpenAIServer) : Prop :=
  ∀ n texts data, server n texts = .response data → OnePerText texts data

/-- A server that always answers. -/
def openAIAnswering : OpenAIServer := fun _ texts =>
  .response ((List.range texts.length).map fun i => (i, []))

theorem onePerText_answering (texts : List String) :
    OnePerText texts ((List.range texts.length).map fun i => (i, [])) := by
  unfold OnePerText
  rw [List.map_map]
  exact .of_eq (List.map_id _)

section OpenAI

variable {p : OpenAIProvider}

theorem embedBatchInternal_yields (hp : p.retryAttempts ≠ 0) {texts : List String}
    (ht : texts ≠ []) :
    Yields (embedBatchInternal p openAIAnswering texts) fun es => es.length = texts.length := by
  obtain ⟨k, hk⟩ := Nat.exists_eq_succ_of_ne_zero hp
  obtain ⟨es, hes⟩ := (onePerText_answering texts).exists_readResponse (p := p) ht
  have hlen : es.length = texts.length := by
    conv_rhs => rw [← readResponse_source hes, List.length_map]
  have hreply : Yields (request openAIAnswering texts) fun reply =>
      reply = .response ((List.range texts.length).map fun i => (i, [])) :=
    fun n => ⟨_, n + 1, rfl, rfl⟩
  rw [embedBatchInternal, hk, attempts]
  refine hreply.bind ?_
  rintro reply rfl
  exact Yields.lift hes hlen

theorem flushBatch_yields (hp : p.retryAttempts ≠ 0) (batch : List String)
    (all : List Embedding) : Yields (flushBatch p openAIAnswering batch all) fun es =>
      es.length = all.length + batch.length := by
  unfold flushBatch
  split
  · rename_i hnil
    rw [hnil]
    exact Yields.pure rfl
  · rename_i hne
    refine (embedBatchInternal_yields hp hne).bind fun es hes => Yields.pure ?_
    rw [List.length_append, hes]

theorem embedChunks_yields (hp : p.retryAttempts ≠ 0) :
    ∀ (chunks : List String) (all : List Embedding),
      Yields (embedChunks p openAIAnswering chunks all) fun es =>
        es.length = all.length + chunks.length
  | [], all => Yields.pure rfl
  | chunk :: chunks, all => by
    have hone : [chunk] ≠ [] := List.cons_ne_nil _ _
    refine (embedBatchInternal_yields hp hone).bind fun es hes => ?_
    have ih := embedChunks_yields hp chunks (all ++ es)
    rw [List.length_append, hes] at ih
    refine Yields.mono ih fun es' hes' => ?_
    rw [hes', List.length_singleton, List.length_cons]
    omega

/-- At least one vector comes back for each text, and more for an oversized one. -/
theorem embedBatchLoop_yields (hp : p.retryAttempts ≠ 0) :
    ∀ (texts batch : List String) (tokens : ℕ) (all : List Embedding),
      Yields (embedBatchLoop p openAIAnswering texts batch tokens all) fun es =>
        all.length + batch.length + texts.length ≤ es.length ∧
          ((∃ t ∈ texts, (8091 : ℤ) < estimateTokens t) →
            all.length + batch.length + texts.length < es.length)
  | [], batch, tokens, all => by
    refine (flushBatch_yields hp batch all).mono fun es hes => ⟨?_, fun ⟨_, h, _⟩ => nomatch h⟩
    rw [hes]
    rfl
  | text :: texts, batch, tokens, all => by
    unfold embedBatchLoop
    simp only [p.tokenLimit_eq]
    by_cases hlong : (8091 : ℤ) < estimateTokens text
    · rw [if_pos hlong]
      obtain ⟨chunks, hchunks, htwo⟩ := exists_chunks_of_long hlong
      refine (flushBatch_yields hp batch all).bind fun all₁ h₁ => ?_
      refine Yields.bind (Q := fun cs => cs = chunks) (Yields.lift hchunks rfl) ?_
      rintro cs rfl
      refine (embedChunks_yields hp cs all₁).bind fun all₂ h₂ => ?_
      refine (embedBatchLoop_yields hp texts [] _ all₂).mono fun es hes => ?_
      have hle := hes.1
      rw [h₂, h₁, List.length_nil] at hle
      rw [List.length_cons]
      exact ⟨by omega, fun _ => by omega⟩
    · rw [if_neg hlong]
      have hrest : (∃ t ∈ text :: texts, (8091 : ℤ) < estimateTokens t) →
          ∃ t ∈ texts, (8091 : ℤ) < estimateTokens t := by
        rintro ⟨t, hmem, ht⟩
        rcases List.mem_cons.1 hmem with rfl | hmem
        · exact absurd ht hlong
        · exact ⟨t, hmem, ht⟩
      split
      · refine (flushBatch_yields hp batch all).bind fun all₁ h₁ => ?_
        refine (embedBatchLoop_yields hp texts [text] _ all₁).mono fun es hes => ?_
        rw [h₁, List.length_singleton] at hes
        rw [List.length_cons]
        exact ⟨by have := hes.1; omega, fun h => by have := hes.2 (hrest h); omega⟩
      · refine (embedBatchLoop_yields hp texts (batch ++ [text]) _ all).mono fun es hes => ?_
        rw [List.length_append, List.length_singleton] at hes
        rw [List.length_cons]
        exact ⟨by have := hes.1; omega, fun h => by have := hes.2 (hrest h); omega⟩

/-- Without attempts every request raises. -/
theorem embedBatchInternal_raises (hp : p.retryAttempts = 0) (server : OpenAIServer)
    (texts : List String) : Raises (embedBatchInternal p server texts) := by
  rw [embedBatchInternal, hp, attempts]
  exact Raises.throw _

theorem flushBatch_raises (hp : p.retryAttempts = 0) (server : OpenAIServer)
    {batch : List String} (hb : batch ≠ []) (all : List Embedding) :
    Raises (flushBatch p server batch all) := by
  unfold flushBatch
  rw [if_neg hb]
  exact (embedBatchInternal_raises hp server batch).bind _

theorem embedBatchLoop_raises (hp : p.retryAttempts = 0) (server : OpenAIServer) :
    ∀ (texts batch : List String) (tokens : ℕ) (all : List Embedding),
      batch ++ texts ≠ [] → Raises (embedBatchLoop p server texts batch tokens all)
  | [], batch, tokens, all, h => by
    rw [List.append_nil] at h
    exact flushBatch_raises hp server h all
  | text :: texts, batch, tokens, all, _ => by
    unfold embedBatchLoop
    simp only [p.tokenLimit_eq]
    split
    · rename_i hlong
      by_cases hb : batch = []
      · obtain ⟨chunks, hchunks, htwo⟩ := exists_chunks_of_long hlong
        have hflush : Yields (flushBatch p server batch all) fun _ => True := by
          rw [flushBatch, if_pos hb]
          exact Yields.pure trivial
        refine Raises.bind_of_yields hflush fun all₁ _ => ?_
        refine Raises.bind_of_yields (Q := fun cs => cs = chunks) (Yields.lift hchunks rfl) ?_
        rintro cs rfl
        obtain ⟨c, cs, rfl⟩ := List.exists_cons_of_length_pos (by omega : 0 < cs.length)
        exact ((embedBatchInternal_raises hp server [c]).bind _).bind _
      · exact (flushBatch_raises hp server hb all).bind _
    · split
      · rename_i hfull
        exact (flushBatch_raises hp server hfull.2 all).bind _
      · exact embedBatchLoop_raises hp server texts (batch ++ [text]) _ all (by simp)

/-- `embed` of the OpenAI provider : exactly the oversized texts break the alignment. -/
theorem openAIEmbed_iff (p : OpenAIProvider) {texts : List String} (h : texts ≠ []) :
    (∀ server, OpenAIAnswers server → Returns (p.embed server texts) (VectorsOf texts)) ↔
      p.retryAttempts = 0 ∨ ∀ t ∈ texts, estimateTokens (validText t) ≤ 8091 := by
  have hne : validateTexts texts ≠ [] := fun hnil => h (List.map_eq_nil_iff.1 hnil)
  have hembed : ∀ server, p.embed server texts =
      embedBatchLoop p server (validateTexts texts) [] 0 [] := by
    intro server
    rw [OpenAIProvider.embed, if_neg h, OpenAIProvider.embedBatch, if_neg hne]
  constructor
  · intro hall
    by_contra hcond
    push Not at hcond
    obtain ⟨hp, t, ht, hlong⟩ := hcond
    have hanswers : OpenAIAnswers openAIAnswering := by
      intro n texts data hdata
      cases hdata
      exact onePerText_answering texts
    have hyields := embedBatchLoop_yields hp (validateTexts texts) [] 0 []
    refine hyields.not_returns (fun es hes hvec => ?_)
      (hembed openAIAnswering ▸ hall openAIAnswering hanswers)
    have hlt := hes.2 ⟨validText t, List.mem_map_of_mem ht, by omega⟩
    have hlen := hvec.length_eq
    rw [validateTexts, List.length_map, List.length_nil] at hlt
    omega
  · intro hcond server _
    rw [hembed]
    rcases hcond with hp | hfits
    · exact (embedBatchLoop_raises hp server _ _ _ _ (by simpa using hne)).returns
    · have hvalid : ∀ t ∈ validateTexts texts, t ≠ "" ∧ (estimateTokens t : ℤ) ≤ p.tokenLimit := by
        intro t ht
        obtain ⟨t₀, ht₀, rfl⟩ := List.mem_map.1 ht
        refine ⟨(pieceOf_validText t₀).1, ?_⟩
        have hle := hfits t₀ ht₀
        rw [p.tokenLimit_eq]
        omega
      have hnil : Aligned [] [] := List.Forall₂.nil
      exact (embedBatchLoop_aligned (validateTexts texts) [] 0 hvalid (fun t ht => nomatch ht)
        hnil).mono fun es hes => .of_validateTexts hes

end OpenAI

/-! ## VoyageAI -/

namespace VoyageProvider

/-- A server that always answers. -/
def answering : VoyageServer := fun _ texts => .embeddings (texts.map fun _ => [])

theorem onePerText_answering : OnePerText answering := by
  intro n texts vectors h
  cases h
  rw [List.length_map]

/-- A call that only raises : no batch can be cut or sent. -/
def Unusable (v : VoyageProvider) : Prop :=
  v.batchSize = 0 ∨ 0 < v.batchSize ∧ v.retryAttempts = 0

/-- The texts that come back as vectors. A negative batch size sends none. -/
def embedded (v : VoyageProvider) (texts : List String) : ℕ :=
  if v.batchSize < 0 then 0 else (textsWithContent texts).length

variable {v : VoyageProvider}

theorem embedded_append (texts texts' : List String) :
    v.embedded (texts ++ texts') = v.embedded texts + v.embedded texts' := by
  unfold embedded textsWithContent
  split
  · rfl
  · rw [List.filter_append, List.length_append]

theorem embedSingleBatch_yields {k : ℕ} (hk : k ≠ 0) (texts : List String) :
    Yields (v.embedSingleBatch answering texts k) fun es => es.length = texts.length := by
  obtain ⟨k, rfl⟩ := Nat.exists_eq_succ_of_ne_zero hk
  have hreply : Yields (request answering texts) fun reply =>
      reply = .embeddings (texts.map fun _ => []) := fun n => ⟨_, n + 1, rfl, rfl⟩
  unfold embedSingleBatch
  refine hreply.bind ?_
  rintro reply rfl
  refine Yields.pure ?_
  simp [readEmbeddings]

theorem embedSubBatches_yields (hv : v.retryAttempts ≠ 0) :
    ∀ (parts : List (List String)) (all : List Embedding),
      Yields (v.embedSubBatches answering parts all) fun es =>
        es.length = all.length + parts.flatten.length
  | [], all => Yields.pure rfl
  | part :: parts, all => by
    unfold embedSubBatches
    refine (embedSingleBatch_yields hv part).bind fun es hes => ?_
    refine (embedSubBatches_yields hv parts (all ++ es)).mono fun es' hes' => ?_
    rw [hes', List.length_append, hes, List.flatten_cons, List.length_append]
    omega

variable {texts : List String}

/-- What is kept comes back, when the call can return at all. -/
theorem embed_yields (h : ¬v.Unusable ∨ textsWithContent texts = []) :
    Yields (v.embed answering texts) fun es => es.length = v.embedded texts := by
  have hlen := length_validateTextInput texts
  unfold embed
  split
  · rename_i hnil
    subst hnil
    refine Yields.pure ?_
    simp [embedded, textsWithContent]
  · simp only
    split
    · rename_i hnil
      rw [hnil] at hlen
      refine Yields.pure ?_
      unfold embedded
      rw [← hlen]
      split <;> rfl
    · rename_i hkept
      have husable : ¬v.Unusable := by
        rcases h with h | h
        · exact h
        · rw [h] at hlen
          exact absurd (List.length_eq_zero_iff.1 hlen) hkept
      rcases lt_trichotomy v.batchSize 0 with hneg | hzero | hpos
      · have hslices : rangeSlices v.batchSize (validateTextInput texts) = .ok [] := by
          unfold rangeSlices
          rw [if_neg (by omega), if_pos hneg]
        rw [if_pos (by omega), hslices, embedded, if_pos hneg]
        refine Yields.bind (Q := fun parts => parts = []) (Yields.lift rfl rfl) ?_
        rintro parts rfl
        exact Yields.pure rfl
      · exact absurd (Or.inl hzero) husable
      · have hv : v.retryAttempts ≠ 0 := fun hr => husable (Or.inr ⟨hpos, hr⟩)
        have hembedded : v.embedded texts = (validateTextInput texts).length := by
          rw [embedded, if_neg (by omega : ¬v.batchSize < 0), hlen]
        rw [hembedded]
        split
        · have hflat := flatten_slices (n := v.batchSize.toNat) (by omega)
            (validateTextInput texts)
          rw [rangeSlices_of_pos hpos]
          refine Yields.bind (Q := fun parts => parts = slices v.batchSize.toNat _)
            (Yields.lift rfl rfl) ?_
          rintro parts rfl
          refine (embedSubBatches_yields hv _ []).mono fun es hes => ?_
          rw [hes, hflat, List.length_nil, Nat.zero_add]
        · exact embedSingleBatch_yields hv _

/-- A call that only raises does so at the first text that is not blank. -/
theorem embed_raises (hv : v.Unusable) (server : VoyageServer)
    (h : textsWithContent texts ≠ []) : Raises (v.embed server texts) := by
  have hlen := length_validateTextInput texts
  have hpos := List.length_pos_iff.2 h
  have hne : texts ≠ [] := by
    rintro rfl
    exact h rfl
  have hkept : validateTextInput texts ≠ [] := by
    intro hnil
    rw [hnil, List.length_nil] at hlen
    omega
  unfold embed
  rw [if_neg hne]
  simp only
  rw [if_neg hkept]
  rcases hv with hzero | ⟨hsize, hretry⟩
  · have hslices : rangeSlices v.batchSize (validateTextInput texts) =
        .error (.value "range() arg 3 must not be zero") := if_pos hzero
    rw [if_pos (by omega), hslices]
    exact (Raises.lift rfl).bind _
  · split
    · rw [rangeSlices_of_pos hsize]
      have hflat := flatten_slices (n := v.batchSize.toNat) (by omega) (validateTextInput texts)
      refine Raises.bind_of_yields (Q := fun parts => parts = slices v.batchSize.toNat _)
        (Yields.lift rfl rfl) ?_
      rintro parts rfl
      cases hs : slices v.batchSize.toNat (validateTextInput texts) with
      | nil =>
        rw [hs] at hflat
        exact absurd hflat.symm hkept
      | cons part parts =>
        unfold embedSubBatches
        rw [hretry]
        exact (Raises.throw _).bind _
    · rw [hretry]
      exact Raises.throw _

theorem embedBatchLoop_yields {effective : ℤ} :
    ∀ (texts batch : List String) (tokens : ℕ) (all : List Embedding),
      (¬v.Unusable ∨ textsWithContent (batch ++ texts) = []) →
      Yields (v.embedBatchLoop answering effective texts batch tokens all) fun es =>
        es.length = all.length + v.embedded (batch ++ texts)
  | [], batch, tokens, all, h => by
    rw [List.append_nil] at h ⊢
    unfold embedBatchLoop
    split
    · rename_i hnil
      rw [hnil]
      refine Yields.pure ?_
      simp [embedded, textsWithContent]
    · refine (embed_yields h).bind fun es hes => Yields.pure ?_
      rw [List.length_append, hes]
  | text :: texts, batch, tokens, all, h => by
    have hsplit : textsWithContent (batch ++ text :: texts) =
        textsWithContent batch ++ textsWithContent (text :: texts) := List.filter_append ..
    unfold embedBatchLoop
    simp only
    split
    · have hb : ¬v.Unusable ∨ textsWithContent batch = [] :=
        h.imp_right fun hnil => (List.append_eq_nil_iff.1 (hsplit ▸ hnil)).1
      have hrest : ¬v.Unusable ∨ textsWithContent ([text] ++ texts) = [] :=
        h.imp_right fun hnil => (List.append_eq_nil_iff.1 (hsplit ▸ hnil)).2
      refine (embed_yields hb).bind fun es hes => ?_
      refine (embedBatchLoop_yields texts [text] _ (all ++ es) hrest).mono fun es' hes' => ?_
      rw [List.singleton_append] at hes'
      rw [hes', List.length_append, hes, embedded_append batch]
      omega
    · refine (embedBatchLoop_yields texts (batch ++ [text]) _ all ?_).mono fun es hes => ?_
      · rwa [List.append_assoc, List.singleton_append]
      · rw [hes, List.append_assoc, List.singleton_append]

/-- An unusable provider embeds a batch without content, which sends nothing. -/
theorem embed_yields_of_blank (server : VoyageServer)
    (h : textsWithContent texts = []) : Yields (v.embed server texts) fun es => es = [] := by
  have hlen := length_validateTextInput texts
  rw [h] at hlen
  have hkept := List.length_eq_zero_iff.1 hlen
  unfold embed
  split
  · exact Yields.pure rfl
  · simp only
    rw [if_pos hkept]
    exact Yields.pure rfl

theorem embedBatchLoop_raises (hv : v.Unusable) (server : VoyageServer) {effective : ℤ} :
    ∀ (texts batch : List String) (tokens : ℕ) (all : List Embedding),
      textsWithContent (batch ++ texts) ≠ [] →
      Raises (v.embedBatchLoop server effective texts batch tokens all)
  | [], batch, tokens, all, h => by
    rw [List.append_nil] at h
    have hne : batch ≠ [] := by
      rintro rfl
      exact h rfl
    unfold embedBatchLoop
    rw [if_neg hne]
    exact (embed_raises hv server h).bind _
  | text :: texts, batch, tokens, all, h => by
    unfold embedBatchLoop
    simp only
    split
    · by_cases hb : textsWithContent batch = []
      · refine Raises.bind_of_yields (embed_yields_of_blank server hb) fun es _ => ?_
        refine embedBatchLoop_raises hv server texts [text] _ (all ++ es) fun hnil => h ?_
        have hsplit : textsWithContent (batch ++ text :: texts) =
            textsWithContent batch ++ textsWithContent (text :: texts) := List.filter_append ..
        rw [hsplit, hb]
        exact hnil
      · exact (embed_raises hv server hb).bind _
    · refine embedBatchLoop_raises hv server texts (batch ++ [text]) _ all ?_
      rwa [List.append_assoc, List.singleton_append]

/-- The settings and texts with which the vectors are aligned, or the call only raises. -/
def Right (v : VoyageProvider) (texts : List String) : Prop :=
  (0 < v.batchSize ∧ ∀ t ∈ texts, isBlank t = false) ∨
    (v.Unusable ∧ ∃ t ∈ texts, isBlank t = false)

theorem textsWithContent_ne_nil :
    textsWithContent texts ≠ [] ↔ ∃ t ∈ texts, isBlank t = false := by
  unfold textsWithContent
  rw [ne_eq, List.filter_eq_nil_iff]
  push Not
  simp

/-- A result as long as the texts means that none was dropped. -/
theorem right_of_embedded_eq (hne : texts ≠ [])
    (hv : ¬v.Unusable ∨ textsWithContent texts = []) (h : v.embedded texts = texts.length) :
    v.Right texts := by
  have hpos := List.length_pos_iff.2 hne
  unfold embedded at h
  split at h
  · omega
  · have hall := List.length_filter_eq_length_iff.1 h
    have hkept : textsWithContent texts ≠ [] := fun hnil => by
      rw [hnil, List.length_nil] at h
      omega
    have husable : ¬v.Unusable := hv.resolve_right hkept
    refine Or.inl ⟨?_, fun t ht => by simpa using hall t ht⟩
    have hzero : v.batchSize ≠ 0 := fun hz => husable (Or.inl hz)
    omega

/-- A call is right exactly when it embeds as many as it was given, or only raises. -/
theorem aligned_iff {call : VoyageServer → Calls (List Embedding)} (hne : texts ≠ [])
    (haligned : ∀ server, OnePerText server → 0 < v.batchSize →
      (∀ t ∈ texts, isBlank t = false) → Returns (call server) (Aligned texts))
    (hraises : ∀ server, v.Unusable → textsWithContent texts ≠ [] → Raises (call server))
    (hyields : ¬v.Unusable ∨ textsWithContent texts = [] →
      Yields (call answering) fun es => es.length = v.embedded texts) :
    (∀ server, OnePerText server → Returns (call server) (VectorsOf texts)) ↔
      v.Right texts := by
  constructor
  · intro hall
    by_cases hv : v.Unusable ∧ textsWithContent texts ≠ []
    · exact Or.inr ⟨hv.1, textsWithContent_ne_nil.1 hv.2⟩
    · have hcase : ¬v.Unusable ∨ textsWithContent texts = [] := by
        rw [not_and_or, not_not] at hv
        exact hv
      by_contra hright
      refine (hyields hcase).not_returns (fun es hes hvec => hright ?_)
        (hall answering onePerText_answering)
      exact right_of_embedded_eq hne hcase (hes.symm.trans hvec.length_eq.symm)
  · intro hright server hserver
    rcases hright with ⟨hsize, hkept⟩ | ⟨hv, hkept⟩
    · exact (haligned server hserver hsize hkept).mono fun es hes => .of_aligned hkept hes
    · exact (hraises server hv (textsWithContent_ne_nil.2 hkept)).returns

end VoyageProvider

/-- For each call of a provider : whatever the server answers, one vector for each text
when it returns, exactly under the condition on the texts. -/
theorem providers_aligned_iff (p : OpenAIProvider) (v : VoyageProvider) (batchSize : Option ℤ)
    {texts : List String} (h : texts ≠ []) :
    ((∀ server, OpenAIAnswers server → Returns (p.embed server texts) (VectorsOf texts)) ↔
      p.retryAttempts = 0 ∨ ∀ t ∈ texts, estimateTokens (validText t) ≤ 8091) ∧
    ((∀ server, VoyageProvider.OnePerText server →
        Returns (v.embed server texts) (VectorsOf texts)) ↔ v.Right texts) ∧
    ((∀ server, VoyageProvider.OnePerText server →
        Returns (v.embedBatch server batchSize texts) (VectorsOf texts)) ↔ v.Right texts) := by
  refine ⟨openAIEmbed_iff p h, ?_, ?_⟩
  · exact VoyageProvider.aligned_iff h
      (fun server hserver hsize ht => VoyageProvider.embed_aligned hserver hsize ht)
      (fun server hv hkept => VoyageProvider.embed_raises hv server hkept)
      fun hcase => VoyageProvider.embed_yields hcase
  · have hloop : ∀ server, v.embedBatch server batchSize texts =
        v.embedBatchLoop server (v.effectiveBatchSize batchSize) texts [] 0 [] :=
      fun server => if_neg h
    refine VoyageProvider.aligned_iff h
      (fun server hserver hsize ht => VoyageProvider.embedBatch_aligned hserver hsize _ ht)
      (fun server hv hkept => ?_) fun hcase => ?_
    · rw [hloop]
      exact VoyageProvider.embedBatchLoop_raises hv server texts [] 0 [] hkept
    · rw [hloop]
      refine (VoyageProvider.embedBatchLoop_yields texts [] 0 [] hcase).mono fun es hes => ?_
      rw [hes, List.length_nil, Nat.zero_add, List.nil_append]

/-! ## A blank and a long text -/

/-- Default settings. -/
def voyageDefault : VoyageProvider := ⟨100, 3, 120000, id⟩

def openAIDefault : OpenAIProvider := ⟨"text-embedding-3-small", 3, id⟩

/-- One word of `n` letters. -/
def word (n : ℕ) : String := String.ofList (List.replicate n 'a')

theorem length_word (n : ℕ) : (word n).length = n := by
  rw [word, String.length_ofList, List.length_replicate]

theorem validText_word {n : ℕ} (hn : n ≠ 0) : validText (word n) = word n := by
  have hspace : isSpace 'a' = false := by decide
  have hdrop : (List.replicate n 'a').dropWhile isSpace = List.replicate n 'a' := by
    rw [List.dropWhile_replicate, hspace]
    rfl
  have hstrip : strip (word n).toList = List.replicate n 'a' := by
    unfold strip word
    rw [String.toList_ofList, hdrop, List.rdropWhile, List.reverse_replicate, hdrop,
      List.reverse_replicate]
  unfold validText
  rw [hstrip, if_neg (by simpa using hn)]
  rfl

/-- From here on a word is oversized. -/
theorem lt_estimateTokens_word {n : ℕ} (hn : 24276 ≤ n) : 8091 < estimateTokens (word n) := by
  unfold estimateTokens embeddingCharsPerToken
  rw [length_word]
  split <;> omega

/-- Of `["def f(): pass", " "]` VoyageAI returns one vector, and of one long text OpenAI
returns more than one. -/
theorem dropped_and_split_texts :
    ¬(∀ server, VoyageProvider.OnePerText server →
      Returns (voyageDefault.embed server ["def f(): pass", " "])
        (VectorsOf ["def f(): pass", " "])) ∧
    ¬(∀ server, OpenAIAnswers server →
      Returns (openAIDefault.embed server [word 24276]) (VectorsOf [word 24276])) := by
  constructor
  · intro hall
    have hright := (VoyageProvider.aligned_iff (v := voyageDefault) (List.cons_ne_nil _ _)
      (fun server hserver hsize ht => VoyageProvider.embed_aligned hserver hsize ht)
      (fun server hv hkept => VoyageProvider.embed_raises hv server hkept)
      fun hcase => VoyageProvider.embed_yields hcase).1 hall
    rcases hright with ⟨-, hkept⟩ | ⟨hv, -⟩
    · exact absurd (hkept " " (by decide)) (by decide)
    · rcases hv with hzero | ⟨-, hretry⟩
      · exact absurd hzero (by decide)
      · exact absurd hretry (by decide)
  · intro hall
    have hcond := (openAIEmbed_iff openAIDefault (List.cons_ne_nil _ _)).1 hall
    rcases hcond with hretry | hfits
    · exact absurd hretry (by decide)
    · have hle := hfits (word 24276) List.mem_cons_self
      have hlong := lt_estimateTokens_word (le_refl 24276)
      rw [validText_word (by decide)] at hle
      omega

/-- Two texts with content and of ordinary length are aligned by every call. -/
theorem providers_aligned_two :
    (∀ server, OpenAIAnswers server →
      Returns (openAIDefault.embed server ["def f(): pass", "x = 1"])
        (VectorsOf ["def f(): pass", "x = 1"])) ∧
    (∀ server, VoyageProvider.OnePerText server →
      Returns (voyageDefault.embed server ["def f(): pass", "x = 1"])
        (VectorsOf ["def f(): pass", "x = 1"])) ∧
    (∀ server, VoyageProvider.OnePerText server →
      Returns (voyageDefault.embedBatch server (some 10) ["def f(): pass", "x = 1"])
        (VectorsOf ["def f(): pass", "x = 1"])) := by
  have hmain := providers_aligned_iff openAIDefault voyageDefault (some 10)
    (List.cons_ne_nil "def f(): pass" ["x = 1"])
  have hright : voyageDefault.Right ["def f(): pass", "x = 1"] :=
    Or.inl ⟨by decide, by decide⟩
  exact ⟨hmain.1.2 (Or.inr (by decide +kernel)), hmain.2.1.2 hright, hmain.2.2.2 hright⟩

end ChunkHound
