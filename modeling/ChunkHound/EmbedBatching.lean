import ChunkHound.Outcomes
import ChunkHound.ParsedStore
import Mathlib

/-!
# Batches of the OpenAI provider

`embed` of `openai_provider.py` : blank texts become a placeholder, `embed_batch` packs the
texts greedily under the token limit of the model, and `_embed_batch_internal` sends one
batch, with retries. A request the server refuses for its length is split by
`handle_token_limit_error`, which sends the parts through `_embed_batch_internal` again.
Every such part is smaller, so the recursion ends (`requestSize`).

The server is any function from the number of the request and its texts to a reply. A
vector carries the text it was returned for, a ghost. The texts of a request come back
vector by vector in order, whatever the order of the response (`readResponse_source`), and a
split request gives one vector for each text, of a piece of it
(`embedBatchInternal_aligned`).
-/

namespace ChunkHound

open Outcomes Slices

/-- A vector. `source` is ghost : the text of the request it was returned for. No function
reads it. -/
structure Embedding where
  vector : List F32
  source : String
  deriving DecidableEq

inductive EmbedError
  | validation (field : String) (message : String)
  | value (message : String)
  | index
  | zeroDivision
  | runtime (message : String)
  /-- An error of the client library, or of the check of the dimensions. -/
  | raised (message : String)
  deriving DecidableEq

/-- What runs against a server. The state is the number of requests sent. -/
abbrev Calls := StateT ℕ (Except EmbedError)

/-! ## Texts and tokens -/

def embeddingCharsPerToken : ℕ := 3

/-- `estimate_tokens`. -/
def estimateTokens (text : String) : ℕ :=
  if text.length = 0 then 0 else max 1 (text.length / embeddingCharsPerToken)

/-- `estimate_batch_tokens`. -/
def estimateBatchTokens (texts : List String) : ℕ := (texts.map estimateTokens).sum

/-- The slices `l[i : i + step]` for `i` in `range(0, len(l), step)`. -/
def rangeSlices {α : Type} (step : ℤ) (l : List α) : Except EmbedError (List (List α)) :=
  if step = 0 then .error (.value "range() arg 3 must not be zero")
  else if step < 0 then .ok []
  else .ok (slices step.toNat l)

/-- The characters of one piece, under a safety margin. -/
def maxChars (maxTokens : ℤ) : ℤ :=
  let safetyMargin := max 200 (maxTokens / 5)
  let safeMaxTokens := maxTokens - safetyMargin
  safeMaxTokens * embeddingCharsPerToken

/-- `chunk_text_by_tokens`. -/
def chunkTextByTokens (text : String) (maxTokens : ℤ) : Except EmbedError (List String) :=
  if maxTokens ≤ 0 then .error (.validation "max_tokens" "max_tokens must be positive")
  else if (text.length : ℤ) ≤ maxChars maxTokens then .ok [text]
  else (rangeSlices (maxChars maxTokens) text.toList).map fun pieces =>
    pieces.map String.ofList

/-- One text of `validate_texts`. -/
def validText (text : String) : String :=
  if strip text.toList = [] then "[EMPTY]" else String.ofList (strip text.toList)

/-- `validate_texts` of a list with at least one text. -/
def validateTexts (texts : List String) : List String := texts.map validText

/-- The size of a request, which every split of it decreases. -/
def requestSize (texts : List String) : ℕ := texts.length + (texts.map String.length).sum

/-! ## Splitting a request -/

/-- The parts of `handle_token_limit_error` from the `i`-th on, `n` of them. -/
def evenSplits (chunkSize remainder : ℕ) : ℕ → ℕ → List String → List (List String)
  | _, 0, _ => []
  | i, n + 1, texts =>
    let currentChunkSize := chunkSize + if i < remainder then 1 else 0
    texts.take currentChunkSize ::
      evenSplits chunkSize remainder (i + 1) n (texts.drop currentChunkSize)

/-- `max(2, (total_tokens + token_limit - 1) // token_limit)`. -/
def numSplits (totalTokens tokenLimit : ℤ) : ℕ :=
  (max 2 ((totalTokens + tokenLimit - 1).fdiv tokenLimit)).toNat

theorem two_le_numSplits (totalTokens tokenLimit : ℤ) : 2 ≤ numSplits totalTokens tokenLimit := by
  unfold numSplits
  omega

theorem flatten_evenSplits {q r : ℕ} : ∀ (n i : ℕ) (texts : List String),
    texts.length + min i r ≤ n * q + min (i + n) r →
      (evenSplits q r i n texts).flatten = texts
  | 0, i, texts, h => by
    have hnil : texts.length = 0 := by
      rw [Nat.zero_mul, Nat.add_zero] at h
      omega
    rw [List.length_eq_zero_iff.1 hnil]
    rfl
  | n + 1, i, texts, h => by
    have hdrop : (texts.drop (q + if i < r then 1 else 0)).length + min (i + 1) r ≤
        n * q + min (i + 1 + n) r := by
      rw [Nat.succ_mul] at h
      rw [List.length_drop]
      split <;> omega
    rw [evenSplits, List.flatten_cons, flatten_evenSplits n (i + 1) _ hdrop,
      List.take_append_drop]

theorem length_le_of_mem_evenSplits {q r : ℕ} : ∀ {n i : ℕ} {texts part : List String},
    part ∈ evenSplits q r i n texts → part.length ≤ q + if 0 < r then 1 else 0
  | n + 1, i, texts, part, h => by
    rcases List.mem_cons.1 h with rfl | h
    · have htake := List.length_take_le (q + if i < r then 1 else 0) texts
      by_cases hi : i < r
      · rw [if_pos hi] at htake ⊢
        rw [if_pos (by omega)]
        exact htake
      · rw [if_neg hi] at htake ⊢
        omega
    · exact length_le_of_mem_evenSplits h

/-- The parts of a request that is split. -/
def splitRequest (texts : List String) (splits : ℕ) : List (List String) :=
  evenSplits (texts.length / splits) (texts.length % splits) 0 splits texts

variable {splits : ℕ}

theorem flatten_splitRequest (texts : List String) (h : 0 < splits) :
    (splitRequest texts splits).flatten = texts := by
  refine flatten_evenSplits splits 0 texts ?_
  have hdiv := Nat.div_add_mod texts.length splits
  have hmod := Nat.mod_lt texts.length h
  omega

/-- Every part is shorter than the request. -/
theorem length_lt_of_mem_splitRequest {texts part : List String}
    (hs : 2 ≤ splits) (ht : 1 < texts.length) (h : part ∈ splitRequest texts splits) :
    part.length < texts.length := by
  have hle := length_le_of_mem_evenSplits h
  have hdiv := Nat.div_add_mod texts.length splits
  have hmul : 2 * (texts.length / splits) ≤ splits * (texts.length / splits) :=
    Nat.mul_le_mul_right _ hs
  split at hle <;> omega

theorem requestSize_lt_of_mem_splitRequest {texts part : List String}
    (hs : 2 ≤ splits) (ht : 1 < texts.length) (h : part ∈ splitRequest texts splits) :
    requestSize part < requestSize texts := by
  have hlen := length_lt_of_mem_splitRequest hs ht h
  have hsum : (part.map String.length).sum ≤ (texts.map String.length).sum := by
    have hpart : part <:+: texts := by
      have hflat := List.infix_of_mem_flatten h
      rwa [flatten_splitRequest texts (by omega)] at hflat
    exact (hpart.sublist.map String.length).sum_le_sum fun _ _ => Nat.zero_le _
  unfold requestSize
  omega

/-! ## Pieces of a text -/

/-- `s` is a part of `t`, and not empty. -/
def PieceOf (s t : String) : Prop := s ≠ "" ∧ s.toList <:+: t.toList

theorem PieceOf.refl {t : String} (h : t ≠ "") : PieceOf t t := ⟨h, List.infix_refl _⟩

theorem PieceOf.trans {s t u : String} (hst : PieceOf s t) (htu : PieceOf t u) : PieceOf s u :=
  ⟨hst.1, hst.2.trans htu.2⟩

variable {text : String} {maxTokens : ℤ}

variable {chunks : List String}

/-- What comes out of `chunk_text_by_tokens` : the text, or no piece, or its slices. -/
theorem chunkTextByTokens_cases (h : chunkTextByTokens text maxTokens = .ok chunks) :
    chunks = [text] ∨ chunks = [] ∨ ∃ k, 0 < k ∧ k < text.length ∧
      chunks = (slices k text.toList).map String.ofList := by
  unfold chunkTextByTokens rangeSlices at h
  split at h
  · cases h
  · split at h
    · exact Or.inl (Except.ok.inj h).symm
    · rename_i hlong
      split at h
      · cases h
      · split at h
        · exact Or.inr (Or.inl (Except.ok.inj h).symm)
        · refine Or.inr (Or.inr ⟨(maxChars maxTokens).toNat, ?_, ?_, (Except.ok.inj h).symm⟩)
          · omega
          · omega

variable {rest : List String}

/-- The first of several pieces is shorter than the text. -/
theorem length_first_chunk {c d : String}
    (h : chunkTextByTokens text maxTokens = .ok (c :: d :: rest)) : c.length < text.length := by
  rcases chunkTextByTokens_cases h with h | h | ⟨k, hk, hlt, h⟩
  · cases h
  · cases h
  · have hc : c ∈ (slices k text.toList).map String.ofList := h ▸ List.mem_cons_self
    obtain ⟨p, hp, rfl⟩ := List.mem_map.1 hc
    have hle := length_le_of_mem_slices hp
    rw [String.length_ofList]
    omega

/-- Every piece is one of the text. -/
theorem pieceOf_chunk {c : String}
    (ht : text ≠ "") (h : chunkTextByTokens text maxTokens = .ok chunks) (hc : c ∈ chunks) :
    PieceOf c text := by
  rcases chunkTextByTokens_cases h with rfl | rfl | ⟨k, hk, -, rfl⟩
  · rw [List.mem_singleton.1 hc]
    exact .refl ht
  · cases hc
  · obtain ⟨p, hp, rfl⟩ := List.mem_map.1 hc
    refine ⟨?_, ?_⟩
    · intro hempty
      have hnil : p = [] := by simpa using congrArg String.toList hempty
      exact ne_nil_of_mem_slices hk hp hnil
    · rw [String.toList_ofList]
      have hpart := List.infix_of_mem_flatten hp
      rwa [flatten_slices hk] at hpart

/-! ## One request -/

/-- What the server does with a request. -/
inductive OpenAIReply
  /-- The vectors, each with its index in the request. -/
  | response (data : List (ℕ × List F32))
  | rateLimitError (message : String)
  | connectionError (message : String)
  /-- A bad request whose message says that the tokens exceed a limit. -/
  | tokenLimitError (message : String)
  | otherError (message : String)

abbrev OpenAIServer := ℕ → List String → OpenAIReply

/-- `max_tokens` of `OPENAI_MODEL_CONFIG`. -/
def openAIMaxTokens : List (String × ℕ) :=
  [("text-embedding-3-small", 8191), ("text-embedding-3-large", 8191),
    ("text-embedding-ada-002", 8191)]

structure OpenAIProvider where
  model : String
  retryAttempts : ℕ
  /-- What client-side truncation does to a vector. -/
  truncate : List F32 → List F32

/-- `get_model_token_limit`. -/
def OpenAIProvider.getModelTokenLimit (p : OpenAIProvider) : ℕ :=
  (openAIMaxTokens.lookup p.model).getD 8191

/-- The limit with its safety margin. -/
def OpenAIProvider.tokenLimit (p : OpenAIProvider) : ℤ := p.getModelTokenLimit - 100

/-- Every model has the same limit. -/
theorem OpenAIProvider.tokenLimit_eq (p : OpenAIProvider) : p.tokenLimit = 8091 := by
  have hlimit : p.getModelTokenLimit = 8191 := by
    unfold getModelTokenLimit openAIMaxTokens
    simp only [List.lookup_cons, List.lookup_nil]
    split <;> try rfl
    split <;> try rfl
    split <;> rfl
  rw [tokenLimit, hlimit]
  rfl

/-- One request. -/
def request {ρ : Type} (server : ℕ → List String → ρ) (texts : List String) : Calls ρ :=
  fun n => .ok (server n texts, n + 1)

/-- `embeddings[data.index] = embedding`, one vector at a time. -/
def placeAll (texts : List String) : List (ℕ × List F32) → List (Option Embedding) →
    Except EmbedError (List (Option Embedding))
  | [], embeddings => .ok embeddings
  | (index, vector) :: data, embeddings =>
    match texts[index]? with
    | some text => placeAll texts data (embeddings.set index (some ⟨vector, text⟩))
    | none => .error .index

/-- The positions without a vector. -/
def missingIndices (embeddings : List (Option Embedding)) : List ℕ :=
  (List.range embeddings.length).filter fun i => embeddings[i]? = some none

/-- Reading a response, in the order of the request. -/
def readResponse (p : OpenAIProvider) (texts : List String) (data : List (ℕ × List F32)) :
    Except EmbedError (List Embedding) :=
  match placeAll texts data (List.replicate texts.length none) with
  | .error e => .error e
  | .ok embeddings =>
    if none ∈ embeddings then
      .error (.runtime ("OpenAI API returned incomplete embeddings, missing indices: " ++
        toString (missingIndices embeddings)))
    else
      match embeddings.reduceOption with
      | [] => .error .index
      | e :: es => .ok ((e :: es).map fun e => { e with vector := p.truncate e.vector })

/-- The parts of a split, in order. -/
def embedParts {n : ℕ}
    (embed : (texts : List String) → requestSize texts < n → Calls (List Embedding)) :
    (parts : List (List String)) → (∀ part ∈ parts, requestSize part < n) →
      List Embedding → Calls (List Embedding)
  | [], _, all => pure all
  | part :: parts, h, all =>
    if part = [] then
      embedParts embed parts (fun q hq => h q (List.mem_cons_of_mem _ hq)) all
    else
      embed part (h part List.mem_cons_self) >>= fun es =>
        embedParts embed parts (fun q hq => h q (List.mem_cons_of_mem _ hq)) (all ++ es)

theorem requestSize_first_chunk {c d : String}
    (h : chunkTextByTokens text maxTokens = .ok (c :: d :: rest)) :
    requestSize [c] < requestSize [text] := by
  have hlt := length_first_chunk h
  simp only [requestSize, List.map_cons, List.map_nil, List.sum_cons, List.sum_nil,
    List.length_singleton]
  omega

/-- `handle_token_limit_error`, as `_embed_batch_internal` calls it : with one text its first
piece stands for it. -/
def handleTokenLimitError (texts : List String) (totalTokens tokenLimit : ℤ)
    (embed : (texts' : List String) → requestSize texts' < requestSize texts →
      Calls (List Embedding)) : Calls (List Embedding) :=
  if h : 1 < texts.length then
    if tokenLimit = 0 then throw .zeroDivision
    else
      embedParts embed (splitRequest texts (numSplits totalTokens tokenLimit))
        (fun _ hp => requestSize_lt_of_mem_splitRequest (two_le_numSplits _ _) h hp) []
  else
    match texts with
    | [] => throw .index
    | _ :: _ :: _ => absurd (by simp) h
    | [text] =>
      match hc : chunkTextByTokens text tokenLimit with
      | .error e => throw e
      | .ok [] => throw .index
      | .ok [_] =>
        throw (.value ("Text too large to embed even after chunking: " ++
          toString text.length ++ " chars"))
      | .ok (c :: _ :: _) => embed [c] (requestSize_first_chunk hc)

/-- The rounds of `_embed_batch_internal` that are left. -/
def attempts (p : OpenAIProvider) (server : OpenAIServer) (texts : List String)
    (again : (texts' : List String) → requestSize texts' < requestSize texts →
      Calls (List Embedding)) : ℕ → Calls (List Embedding)
  | 0 => throw (.runtime ("Failed to generate embeddings after " ++
      toString p.retryAttempts ++ " attempts"))
  | k + 1 => request server texts >>= fun reply =>
    match reply with
    | .response data => StateT.lift (readResponse p texts data)
    | .rateLimitError e => if k = 0 then throw (.raised e) else attempts p server texts again k
    | .connectionError e => if k = 0 then throw (.raised e) else attempts p server texts again k
    | .tokenLimitError _ =>
      handleTokenLimitError texts (estimateBatchTokens texts) p.tokenLimit again
    | .otherError e => throw (.raised e)

/-- `_embed_batch_internal`. A client that cannot be set up is an error that is not retried. -/
def embedBatchInternal (p : OpenAIProvider) (server : OpenAIServer) (texts : List String) :
    Calls (List Embedding) :=
  attempts p server texts (fun texts' _ => embedBatchInternal p server texts') p.retryAttempts
termination_by requestSize texts

/-! ## Reading a response -/

/-- Every vector placed so far is at the position of its text. -/
def Placed (texts : List String) (embeddings : List (Option Embedding)) : Prop :=
  embeddings.length = texts.length ∧
    ∀ (i : ℕ) (e : Embedding), embeddings[i]? = some (some e) → texts[i]? = some e.source

theorem placed_replicate (texts : List String) :
    Placed texts (List.replicate texts.length none) := by
  refine ⟨List.length_replicate, fun i e h => ?_⟩
  rw [List.getElem?_replicate] at h
  split at h <;> cases h

variable {texts : List String}

theorem Placed.placeAll : ∀ {data : List (ℕ × List F32)}
    {embeddings embeddings' : List (Option Embedding)}, Placed texts embeddings →
      placeAll texts data embeddings = .ok embeddings' → Placed texts embeddings'
  | [], _, _, h, hp => by
    cases hp
    exact h
  | (index, vector) :: data, embeddings, embeddings', h, hp => by
    unfold ChunkHound.placeAll at hp
    split at hp
    · rename_i text htext
      refine Placed.placeAll ⟨?_, ?_⟩ hp
      · rw [List.length_set]
        exact h.1
      · intro i e he
        rw [List.getElem?_set] at he
        split at he
        · rename_i hi
          split at he
          · obtain rfl := Option.some.inj (Option.some.inj he)
            rw [← hi]
            exact htext
          · cases he
        · exact h.2 i e he
    · cases hp

/-- The vectors of a full list, in order. -/
theorem map_some_reduceOption : ∀ {embeddings : List (Option Embedding)}, none ∉ embeddings →
    embeddings.reduceOption.map some = embeddings
  | [], _ => rfl
  | none :: _, h => absurd List.mem_cons_self h
  | some e :: embeddings, h => by
    rw [List.reduceOption_cons_of_some, List.map_cons,
      map_some_reduceOption fun hmem => h (List.mem_cons_of_mem _ hmem)]

variable {data : List (ℕ × List F32)} {es : List Embedding}

/-- The vectors read come back in the order of the texts. -/
theorem readResponse_source {p : OpenAIProvider}
    (h : readResponse p texts data = .ok es) :
    es.map (·.source) = texts := by
  unfold readResponse at h
  split at h
  · cases h
  · rename_i embeddings hplace
    obtain ⟨hlen, hsource⟩ := (placed_replicate texts).placeAll hplace
    split at h
    · cases h
    · rename_i hfull
      have hsome := map_some_reduceOption hfull
      split at h
      · cases h
      · rename_i e rest hred
        obtain rfl := Except.ok.inj h
        rw [hred] at hsome
        have hmap : (((e :: rest).map fun e => { e with vector := p.truncate e.vector }).map
            (·.source)) = (e :: rest).map (·.source) := by
          rw [List.map_map]
          rfl
        rw [hmap]
        refine List.ext_getElem? fun i => ?_
        rw [List.getElem?_map]
        by_cases hi : i < (e :: rest).length
        · have hget : embeddings[i]? = some (some (e :: rest)[i]) := by
            rw [← hsome, List.getElem?_map, List.getElem?_eq_getElem hi]
            rfl
          rw [hsource i _ hget, List.getElem?_eq_getElem hi]
          rfl
        · have hlen' : texts.length = (e :: rest).length := by
            rw [← hlen, ← hsome, List.length_map]
          rw [List.getElem?_eq_none (by omega), List.getElem?_eq_none (by omega)]
          rfl

/-- With an index in range each, no vector is refused. -/
theorem exists_placeAll : ∀ (data : List (ℕ × List F32))
    (embeddings : List (Option Embedding)), embeddings.length = texts.length →
      (∀ d ∈ data, d.1 < texts.length) →
      ∃ embeddings', placeAll texts data embeddings = .ok embeddings' ∧
        ∀ i, (embeddings[i]? ≠ some none ∨ i ∈ data.map Prod.fst) → embeddings'[i]? ≠ some none
  | [], embeddings, _, _ => by
    refine ⟨embeddings, rfl, fun i h => ?_⟩
    rcases h with h | h
    · exact h
    · cases h
  | (index, vector) :: data, embeddings, hlen, hall => by
    obtain ⟨hindex, hdata⟩ := List.forall_mem_cons.1 hall
    have htext : texts[index]? = some texts[index] := List.getElem?_eq_getElem hindex
    obtain ⟨embeddings', hplace, hfull⟩ := exists_placeAll data
      (embeddings.set index (some ⟨vector, texts[index]⟩)) (by rw [List.length_set, hlen]) hdata
    refine ⟨embeddings', ?_, fun i h => hfull i ?_⟩
    · unfold placeAll
      rw [htext]
      exact hplace
    · rw [List.getElem?_set]
      by_cases hi : index = i
      · left
        rw [if_pos hi]
        split
        · intro hnone
          cases hnone
        · intro hnone
          cases hnone
      · rw [if_neg hi]
        rcases h with h | h
        · exact Or.inl h
        · rw [List.map_cons] at h
          rcases List.mem_cons.1 h with rfl | h
          · exact absurd rfl hi
          · exact Or.inr h

/-- The response has one vector for each text of the request. -/
def OnePerText (texts : List String) (data : List (ℕ × List F32)) : Prop :=
  (data.map Prod.fst).Perm (List.range texts.length)

/-- Such a response is read. -/
theorem OnePerText.exists_readResponse {p : OpenAIProvider}
    (h : OnePerText texts data) (ht : texts ≠ []) :
    ∃ es, readResponse p texts data = .ok es := by
  have hall : ∀ d ∈ data, d.1 < texts.length := fun d hd =>
    List.mem_range.1 (h.mem_iff.1 (List.mem_map_of_mem hd))
  obtain ⟨embeddings, hplace, hfull⟩ := exists_placeAll data
    (List.replicate texts.length none) List.length_replicate hall
  obtain ⟨hlen, -⟩ := (placed_replicate texts).placeAll hplace
  have hnone : none ∉ embeddings := by
    intro hmem
    obtain ⟨i, hi, hget⟩ := List.getElem_of_mem hmem
    refine hfull i (Or.inr (h.mem_iff.2 (List.mem_range.2 (hlen ▸ hi)))) ?_
    rw [List.getElem?_eq_getElem hi, hget]
  unfold readResponse
  rw [hplace]
  simp only [if_neg hnone]
  cases hred : embeddings.reduceOption with
  | nil =>
    have hsome := map_some_reduceOption hnone
    rw [hred] at hsome
    rw [← hsome] at hlen
    exact absurd (List.length_eq_zero_iff.1 hlen.symm) ht
  | cons e es => exact ⟨_, rfl⟩

/-! ## Vectors and texts -/

/-- One vector for each text, returned for a piece of it. -/
def Aligned (texts : List String) (es : List Embedding) : Prop :=
  List.Forall₂ (fun t e => PieceOf e.source t) texts es

theorem Aligned.append {ts ts' : List String} {es es' : List Embedding} (h : Aligned ts es)
    (h' : Aligned ts' es') : Aligned (ts ++ ts') (es ++ es') := List.rel_append h h'

theorem Aligned.of_source
    (ht : ∀ t ∈ texts, t ≠ "") (h : es.map (·.source) = texts) : Aligned texts es := by
  subst h
  unfold Aligned
  rw [List.forall₂_map_left_iff, List.forall₂_same]
  intro e he
  exact .refl (ht _ (List.mem_map_of_mem he))

section Internal

variable {p : OpenAIProvider} {server : OpenAIServer}

theorem embedParts_aligned {n : ℕ}
    {embed : (texts : List String) → requestSize texts < n → Calls (List Embedding)}
    (hembed : ∀ texts h, (∀ t ∈ texts, t ≠ "") → Returns (embed texts h) (Aligned texts)) :
    ∀ (parts : List (List String)) (h : ∀ part ∈ parts, requestSize part < n)
      {sent : List String} {all : List Embedding}, (∀ t ∈ parts.flatten, t ≠ "") →
      Aligned sent all →
      Returns (embedParts embed parts h all) (Aligned (sent ++ parts.flatten))
  | [], h, sent, all, _, hall => by
    rw [List.flatten_nil, List.append_nil]
    exact Returns.pure hall
  | part :: parts, h, sent, all, ht, hall => by
    rw [List.flatten_cons] at ht ⊢
    have hrest : ∀ t ∈ parts.flatten, t ≠ "" := fun t hmem =>
      ht t (List.mem_append_right _ hmem)
    unfold embedParts
    split
    · rename_i hnil
      subst hnil
      rw [List.nil_append]
      exact embedParts_aligned hembed parts _ hrest hall
    · refine Returns.bind (hembed part _ fun t hmem => ht t (List.mem_append_left _ hmem)) ?_
      intro es hes
      rw [← List.append_assoc]
      exact embedParts_aligned hembed parts _ hrest (hall.append hes)

theorem handleTokenLimitError_aligned {texts : List String} {totalTokens tokenLimit : ℤ}
    {embed : (texts' : List String) → requestSize texts' < requestSize texts →
      Calls (List Embedding)}
    (hembed : ∀ texts' h, (∀ t ∈ texts', t ≠ "") → Returns (embed texts' h) (Aligned texts'))
    (ht : ∀ t ∈ texts, t ≠ "") :
    Returns (handleTokenLimitError texts totalTokens tokenLimit embed) (Aligned texts) := by
  unfold handleTokenLimitError
  split
  · split
    · exact Returns.throw _
    · have htwo := two_le_numSplits totalTokens tokenLimit
      have hflat := flatten_splitRequest texts (lt_of_lt_of_le Nat.two_pos htwo)
      have hnil : Aligned [] [] := List.Forall₂.nil
      have hparts := embedParts_aligned hembed
        (splitRequest texts (numSplits totalTokens tokenLimit))
        (fun _ hp => requestSize_lt_of_mem_splitRequest (two_le_numSplits _ _) ‹_› hp)
        (by rwa [hflat]) hnil
      rwa [hflat] at hparts
  · split
    · exact Returns.throw _
    · rename_i hshort
      exact absurd (by simp) hshort
    · rename_i text _ _
      have htext : text ≠ "" := ht text List.mem_cons_self
      split
      · exact Returns.throw _
      · exact Returns.throw _
      · exact Returns.throw _
      · rename_i c d rest hc
        have hpiece : PieceOf c text := pieceOf_chunk htext hc List.mem_cons_self
        refine (hembed [c] _ ?_).mono ?_
        · intro t hmem
          rw [List.mem_singleton.1 hmem]
          exact hpiece.1
        · intro es hes
          cases hes with
          | cons he hnil =>
            cases hnil
            exact .cons (he.trans hpiece) .nil

theorem attempts_aligned {texts : List String}
    {again : (texts' : List String) → requestSize texts' < requestSize texts →
      Calls (List Embedding)}
    (hagain : ∀ texts' h, (∀ t ∈ texts', t ≠ "") → Returns (again texts' h) (Aligned texts'))
    (ht : ∀ t ∈ texts, t ≠ "") :
    ∀ k, Returns (attempts p server texts again k) (Aligned texts)
  | 0 => Returns.throw _
  | k + 1 => by
    have hretry : ∀ e, Returns (if k = 0 then throw (EmbedError.raised e) else
        attempts p server texts again k) (Aligned texts) := by
      intro e
      split
      · exact Returns.throw _
      · exact attempts_aligned hagain ht k
    unfold attempts
    refine Returns.bind (Q := fun _ => True) (fun _ _ _ _ => trivial) fun reply _ => ?_
    cases reply with
    | response data =>
      exact Returns.lift fun es hes => .of_source ht (readResponse_source hes)
    | rateLimitError e => exact hretry e
    | connectionError e => exact hretry e
    | tokenLimitError e => exact handleTokenLimitError_aligned hagain ht
    | otherError e => exact Returns.throw _

/-- However the server answers, a batch that returns has one vector for each text. -/
theorem embedBatchInternal_aligned (texts : List String) (ht : ∀ t ∈ texts, t ≠ "") :
    Returns (embedBatchInternal p server texts) (Aligned texts) := by
  rw [embedBatchInternal]
  refine attempts_aligned (fun texts' _ ht' => ?_) ht _
  exact embedBatchInternal_aligned texts' ht'
termination_by requestSize texts

end Internal

/-! ## All batches -/

/-- One request for a batch that is not empty. -/
def flushBatch (p : OpenAIProvider) (server : OpenAIServer) (currentBatch : List String)
    (all : List Embedding) : Calls (List Embedding) :=
  if currentBatch = [] then pure all
  else embedBatchInternal p server currentBatch >>= fun es => pure (all ++ es)

/-- The pieces of an oversized text, one request each. -/
def embedChunks (p : OpenAIProvider) (server : OpenAIServer) :
    List String → List Embedding → Calls (List Embedding)
  | [], all => pure all
  | chunk :: chunks, all =>
    embedBatchInternal p server [chunk] >>= fun es => embedChunks p server chunks (all ++ es)

/-- The loop of `embed_batch`, and the batch it leaves. -/
def embedBatchLoop (p : OpenAIProvider) (server : OpenAIServer) :
    List String → List String → ℕ → List Embedding → Calls (List Embedding)
  | [], currentBatch, _, all => flushBatch p server currentBatch all
  | text :: texts, currentBatch, currentTokens, all =>
    let textTokens := estimateTokens text
    if p.tokenLimit < textTokens then
      flushBatch p server currentBatch all >>= fun all =>
      StateT.lift (chunkTextByTokens text p.tokenLimit) >>= fun chunks =>
      embedChunks p server chunks all >>= fun all =>
      embedBatchLoop p server texts [] (if currentBatch = [] then currentTokens else 0) all
    else if p.tokenLimit < currentTokens + textTokens ∧ currentBatch ≠ [] then
      flushBatch p server currentBatch all >>= fun all =>
      embedBatchLoop p server texts [text] textTokens all
    else embedBatchLoop p server texts (currentBatch ++ [text]) (currentTokens + textTokens) all

/-- `embed_batch`. -/
def OpenAIProvider.embedBatch (p : OpenAIProvider) (server : OpenAIServer)
    (texts : List String) : Calls (List Embedding) :=
  if texts = [] then pure [] else embedBatchLoop p server texts [] 0 []

/-- `embed`. -/
def OpenAIProvider.embed (p : OpenAIProvider) (server : OpenAIServer) (texts : List String) :
    Calls (List Embedding) :=
  if texts = [] then pure [] else p.embedBatch server (validateTexts texts)

/-- An oversized text has more than one piece. -/
theorem exists_chunks_of_long (h : (8091 : ℤ) < estimateTokens text) :
    ∃ chunks, chunkTextByTokens text 8091 = .ok chunks ∧ 2 ≤ chunks.length := by
  have hlen : 24276 ≤ text.length := by
    unfold estimateTokens embeddingCharsPerToken at h
    split at h <;> omega
  have hmax : maxChars 8091 = 19419 := by decide
  refine ⟨(slices 19419 text.toList).map String.ofList, ?_, ?_⟩
  · unfold chunkTextByTokens rangeSlices
    rw [hmax, if_neg (by omega), if_neg (by omega), if_neg (by omega), if_neg (by omega)]
    rfl
  · rw [List.length_map]
    exact two_le_length_slices (by omega) (by rw [String.length_toList]; omega)

section EmbedBatch

variable {p : OpenAIProvider} {server : OpenAIServer}

theorem flushBatch_aligned {batch sent : List String} {all : List Embedding}
    (ht : ∀ t ∈ batch, t ≠ "") (hall : Aligned sent all) :
    Returns (flushBatch p server batch all) (Aligned (sent ++ batch)) := by
  unfold flushBatch
  split
  · rename_i hnil
    rw [hnil, List.append_nil]
    exact Returns.pure hall
  · exact Returns.bind (embedBatchInternal_aligned batch ht) fun es hes =>
      Returns.pure (hall.append hes)

/-- With no oversized text the loop keeps what it has sent aligned. -/
theorem embedBatchLoop_aligned : ∀ (texts batch : List String) (tokens : ℕ)
    {sent : List String} {all : List Embedding},
    (∀ t ∈ texts, t ≠ "" ∧ (estimateTokens t : ℤ) ≤ p.tokenLimit) → (∀ t ∈ batch, t ≠ "") →
      Aligned sent all →
      Returns (embedBatchLoop p server texts batch tokens all) (Aligned (sent ++ batch ++ texts))
  | [], batch, tokens, sent, all, _, hb, hall => by
    rw [List.append_nil]
    exact flushBatch_aligned hb hall
  | text :: texts, batch, tokens, sent, all, ht, hb, hall => by
    obtain ⟨⟨hne, hfits⟩, hts⟩ := List.forall_mem_cons.1 ht
    have hone : ∀ t ∈ [text], t ≠ "" := by
      intro t hmem
      rwa [List.mem_singleton.1 hmem]
    unfold embedBatchLoop
    simp only
    rw [if_neg (not_lt.2 hfits)]
    split
    · refine Returns.bind (flushBatch_aligned hb hall) fun all' hall' => ?_
      have ih := embedBatchLoop_aligned texts [text] (estimateTokens text) hts hone hall'
      rwa [List.append_assoc (sent ++ batch), List.singleton_append] at ih
    · have hb' : ∀ t ∈ batch ++ [text], t ≠ "" := by
        intro t hmem
        rcases List.mem_append.1 hmem with hmem | hmem
        · exact hb t hmem
        · exact hone t hmem
      have ih := embedBatchLoop_aligned texts (batch ++ [text]) (tokens + estimateTokens text)
        hts hb' hall
      rwa [← List.append_assoc sent, List.append_assoc (sent ++ batch),
        List.singleton_append] at ih

end EmbedBatch

end ChunkHound
