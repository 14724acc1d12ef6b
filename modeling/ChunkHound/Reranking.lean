import ChunkHound.RankPlaces
import ChunkHound.Slices
import ChunkHound.StepSystem
import Mathlib.Data.Int.Notation

/-!
# Reranking

`rerank` of `openai_provider.py`, and `_rerank_via_http` of `voyageai_provider.py`. Documents are
sent to a service in batches. Each answer lists indices of the batch with scores, and the results of
all batches are put in order and cut to the best `top_k`.

What the service answers is a parameter : any items, in any order, or a failure. The OpenAI provider
goes on without the batches that failed. A single batch it returns as it is listed, which "are
already sorted descending by score" only if the service sorts. Neither provider drops a repeated
index. `rerank_iff` says when the results are the best `top_k` all the same, and when several
batches give the same list as one.
-/

set_option linter.unusedSectionVars false

namespace ChunkHound.Reranking

open Ranking Slices StepSystem

/-! ## Answers -/

structure RerankResult (S : Type) where
  index : ℤ
  score : S
  deriving DecidableEq

/-- A field of a dictionary. -/
inductive Field (α : Type)
  | absent
  | null
  | value (a : α)

namespace Field

variable {α : Type}

def isPresent : Field α → Bool
  | absent => false
  | _ => true

def get? : Field α → Option α
  | value a => some a
  | _ => none

end Field

/-- An item that is listed : a dictionary, or something else. -/
inductive Item (S : Type)
  | other
  | dict (index : Field ℤ) (relevanceScore score : Field S)

/-- An answer, where a bare list has become the dictionary that has it under `results`. `error` is
any answer that is refused as a whole. -/
inductive Body (S : Type)
  | error
  | dict (results data : Option (List (Item S)))

/-- `provider` is an `EmbeddingProviderError`. -/
inductive Failure
  | provider
  | other
  deriving DecidableEq

variable {D S : Type}

/-- The result of an index and a score, if the index is one of the documents. -/
def validResult (numDocuments : ℕ) (index : Option ℤ) (score : Option S) :
    Option (RerankResult S) :=
  match index, score with
  | some index, some score =>
    if 0 ≤ index ∧ index < numDocuments then some ⟨index, score⟩ else none
  | _, _ => none

/-- An item of which the score is in `relevance_score`, or else in `score`. -/
def openaiItem (numDocuments : ℕ) (relevance : Bool) : Item S → Option (RerankResult S)
  | .other => none
  | .dict index relevanceScore score =>
    validResult numDocuments index.get? (if relevance then relevanceScore.get? else score.get?)

/-- `_parse_rerank_response` of the OpenAI provider. The first item tells where the scores are. -/
def openaiParse (response : Body S) (numDocuments : ℕ) :
    Except Failure (List (RerankResult S)) :=
  match response with
  | .error => .error .other
  | .dict results _ =>
    if numDocuments = 0 then .ok []
    else
      match results with
      | none => .error .other
      | some [] => .ok []
      | some (.other :: _) => .error .other
      | some (.dict index relevanceScore score :: items) =>
        if !index.isPresent then .error .other
        else if !relevanceScore.isPresent && !score.isPresent then .error .other
        else .ok ((Item.dict index relevanceScore score :: items).filterMap
          (openaiItem numDocuments relevanceScore.isPresent))

/-- An item of which the score is in `relevance_score` where it has this field. -/
def voyageItem (numDocuments : ℕ) : Item S → Option (RerankResult S)
  | .other => none
  | .dict index relevanceScore score =>
    validResult numDocuments index.get?
      (if relevanceScore.isPresent then relevanceScore.get? else score.get?)

variable [LinearOrder S]

/-- `_parse_rerank_response` of the VoyageAI provider. -/
def voyageParse (response : Body S) (numDocuments : ℕ) :
    Except Failure (List (RerankResult S)) :=
  match response with
  | .error => .error .other
  | .dict results data =>
    match results.or data with
    | none => .error .other
    | some items => .ok (rank RerankResult.score (items.filterMap (voyageItem numDocuments)))

/-! ## The providers -/

/-- What the service answers to the request for a batch, given its number, its documents and
`top_k`. -/
abbrev Service (D S : Type) := ℕ → List D → Option ℕ → Except Failure (Body S)

/-- The results of a batch. -/
abbrev Batch (D S : Type) := ℕ → List D → Option ℕ → Except Failure (List (RerankResult S))

/-- `_rerank_batch_with_retry`, with the answer of the last attempt. -/
def openaiBatch (respond : Service D S) : Batch D S := fun i documents topK =>
  (respond i documents topK).bind fun response => openaiParse response documents.length

/-- `_rerank_http_batch`. -/
def voyageBatch (respond : Service D S) : Batch D S := fun i documents topK =>
  (respond i documents topK).bind fun response => voyageParse response documents.length

/-- The result with its index among all documents. -/
def shift (start : ℕ) (r : RerankResult S) : RerankResult S := ⟨r.index + start, r.score⟩

section Rerank

variable (batch : Batch D S) (limit : ℕ)

/-- A batch that fails has no results, unless the provider is at fault. -/
def skipFailed : Except Failure (List (RerankResult S)) → Except Failure (List (RerankResult S))
  | .error .other => .ok []
  | results => results

/-- The results of all batches. The indices are tested once more. -/
def openaiCollect : List (List D × ℕ) → Except Failure (List (RerankResult S))
  | [] => .ok []
  | (documents, i) :: batches =>
    (skipFailed (batch i documents none)).bind fun batchResults =>
      let valid := batchResults.filter fun r => 0 ≤ r.index ∧ r.index < (documents.length : ℤ)
      (openaiCollect batches).map (valid.map (shift (i * limit)) ++ ·)

/-- The best `top_k`, with `heapq.nlargest` if they are less than half. -/
def openaiSelect (topK : Option ℕ) (results : List (RerankResult S)) : List (RerankResult S) :=
  match topK with
  | none => rank RerankResult.score results
  | some k =>
    if 2 * k < results.length then (rank RerankResult.score results).take k
    else
      let sorted := rank RerankResult.score results
      if k < sorted.length then sorted.take k else sorted

/-- `rerank` of the OpenAI provider. It raises for several batches of no documents. -/
def openaiRerank (documents : List D) (topK : Option ℕ) :
    Except Failure (List (RerankResult S)) :=
  if documents = [] then .ok []
  else if documents.length ≤ limit then
    (batch 0 documents topK).map fun results =>
      match topK with
      | none => results
      | some k => if k < results.length then results.take k else results
  else if limit = 0 then .error .other
  else (openaiCollect batch limit (slices limit documents).zipIdx).map (openaiSelect topK)

/-- The results of all batches, if none fails. -/
def voyageCollect : List (List D × ℕ) → Except Failure (List (RerankResult S))
  | [] => .ok []
  | (documents, i) :: batches =>
    (batch i documents none).bind fun batchResults =>
      (voyageCollect batches).map (batchResults.map (shift (i * limit)) ++ ·)

/-- `results[:top_k]`, or all. -/
def firstOf (topK : Option ℕ) (results : List (RerankResult S)) : List (RerankResult S) :=
  match topK with
  | none => results
  | some k => results.take k

/-- `rerank` of the VoyageAI provider, with a URL for reranking. -/
def voyageRerank (documents : List D) (topK : Option ℕ) :
    Except Failure (List (RerankResult S)) :=
  if documents = [] then .ok []
  else if documents.length ≤ limit then (batch 0 documents topK).map (firstOf topK)
  else if limit = 0 then .error .other
  else
    (voyageCollect batch limit (slices limit documents).zipIdx).map fun results =>
      firstOf topK (rank RerankResult.score results)

end Rerank

/-! ## What the results should be -/

section Spec

variable (batch : Batch D S) (limit : ℕ)

/-- The valid results of the batches that did not fail. -/
def answered (batches : List (List D × ℕ)) : List (RerankResult S) :=
  batches.flatMap fun b => (((batch b.2 b.1 none).toOption.getD []).map (shift (b.2 * limit)))

def validResults (documents : List D) (topK : Option ℕ) : List (RerankResult S) :=
  if documents = [] then []
  else if documents.length ≤ limit then (batch 0 documents topK).toOption.getD []
  else answered batch limit (slices limit documents).zipIdx

/-- Distinct indices of documents, in descending order of scores, at most `top_k` of them. No valid
result that is omitted has a higher score than one of them. -/
structure IsTopK (valid : List (RerankResult S)) (numDocuments : ℕ) (topK : Option ℕ)
    (results : List (RerankResult S)) : Prop where
  distinct : (results.map RerankResult.index).Nodup
  in_range : ∀ r ∈ results, 0 ≤ r.index ∧ r.index < numDocuments
  descending : results.Pairwise fun a b => b.score ≤ a.score
  few : ∀ k ∈ topK, results.length ≤ k
  best : ∃ omitted, valid.Perm (results ++ omitted) ∧
    ∀ o ∈ omitted, ∀ r ∈ results, o.score ≤ r.score

/-- Of the results that are returned, or of all without `top_k`. -/
def bound (topK : Option ℕ) (valid : List (RerankResult S)) : ℕ := topK.getD valid.length

/-- The first `top_k` are listed in descending order, with distinct indices, and none behind them is
better. -/
def ListedBest (topK : Option ℕ) (valid : List (RerankResult S)) : Prop :=
  ∀ i j a b, i < j → i < bound topK valid → valid[i]? = some a → valid[j]? = some b →
    b.score ≤ a.score ∧ (j < bound topK valid → a.index ≠ b.index)

/-- Of two results with one index, one has `top_k` others ahead. -/
def RepeatedBehind (topK : Option ℕ) (valid : List (RerankResult S)) : Prop :=
  ∀ i j a b, i < j → valid[i]? = some a → valid[j]? = some b → a.index = b.index →
    bound topK valid ≤ ahead RerankResult.score valid i ∨
      bound topK valid ≤ ahead RerankResult.score valid j

/-- Equal scores in equal places. -/
def SameUpToTies (results results' : List (RerankResult S)) : Prop :=
  results.map RerankResult.score = results'.map RerankResult.score

/-- Each document with its score. -/
def scored (score : D → S) (documents : List D) : List (RerankResult S) :=
  documents.zipIdx.map fun d => ⟨d.2, score d.1⟩

/-- The batches have the scores of their documents. With `top_k` at least as many of the best may be
listed alone. -/
def Scores (score : D → S) : Prop :=
  ∀ i documents topK, documents ≠ [] → ∃ results omitted,
    batch i documents topK = .ok results ∧
      (results ++ omitted).Perm (scored score documents) ∧
      (topK = none → omitted = []) ∧
      (∀ k ∈ topK, min k documents.length ≤ results.length) ∧
      ∀ r ∈ results, ∀ o ∈ omitted, o.score ≤ r.score

end Spec

/-! ## Batches -/

/-- The results of a batch have indices of its documents. -/
def InRange (batch : Batch D S) : Prop :=
  ∀ i documents topK results, batch i documents topK = .ok results →
    ∀ r ∈ results, 0 ≤ r.index ∧ r.index < documents.length

variable {r : RerankResult S}

theorem validResult_range {n : ℕ} {index : Option ℤ} {score : Option S}
    (h : validResult n index score = some r) : 0 ≤ r.index ∧ r.index < n := by
  unfold validResult at h
  split at h
  · split at h
    · obtain rfl := Option.some.inj h
      assumption
    · cases h
  · cases h

theorem openaiItem_range {n : ℕ} {relevance : Bool} {item : Item S}
    (h : openaiItem n relevance item = some r) : 0 ≤ r.index ∧ r.index < n := by
  cases item with
  | other => cases h
  | dict index relevanceScore score => exact validResult_range h

theorem voyageItem_range {n : ℕ} {item : Item S}
    (h : voyageItem n item = some r) : 0 ≤ r.index ∧ r.index < n := by
  cases item with
  | other => cases h
  | dict index relevanceScore score => exact validResult_range h

theorem openaiBatch_inRange (respond : Service D S) : InRange (openaiBatch respond) := by
  intro i documents topK results h r hr
  obtain ⟨response, -, hparse⟩ := bind_eq_ok.1 h
  unfold openaiParse at hparse
  split at hparse
  · cases hparse
  split at hparse
  · obtain rfl := Except.ok.inj hparse
    cases hr
  split at hparse
  · cases hparse
  · obtain rfl := Except.ok.inj hparse
    cases hr
  · cases hparse
  · split at hparse
    · cases hparse
    split at hparse
    · cases hparse
    · obtain rfl := Except.ok.inj hparse
      obtain ⟨item, -, hitem⟩ := List.mem_filterMap.1 hr
      exact openaiItem_range hitem

/-- An answer is parsed to its valid items in order. -/
theorem voyageBatch_ok {respond : Service D S} {i : ℕ} {documents : List D} {topK : Option ℕ}
    {results : List (RerankResult S)} (h : voyageBatch respond i documents topK = .ok results) :
    ∃ items, results = rank RerankResult.score
      (List.filterMap (voyageItem documents.length) items) := by
  obtain ⟨response, -, hparse⟩ := bind_eq_ok.1 h
  unfold voyageParse at hparse
  split at hparse
  · cases hparse
  split at hparse
  · cases hparse
  · exact ⟨_, (Except.ok.inj hparse).symm⟩

theorem voyageBatch_inRange (respond : Service D S) : InRange (voyageBatch respond) := by
  intro i documents topK results h r hr
  obtain ⟨items, rfl⟩ := voyageBatch_ok h
  obtain ⟨item, -, hitem⟩ := List.mem_filterMap.1 (mem_rank.1 hr)
  exact voyageItem_range hitem

section Collect

variable {batch : Batch D S} {limit : ℕ} {documents : List D} {topK : Option ℕ}
  {results : List (RerankResult S)}

/-- The second test of the indices leaves out nothing. -/
theorem filter_inRange (hrange : InRange batch) {i : ℕ}
    (h : batch i documents topK = .ok results) :
    results.filter (fun r => 0 ≤ r.index ∧ r.index < (documents.length : ℤ)) = results :=
  List.filter_eq_self.2 fun r hr => decide_eq_true (hrange i documents topK results h r hr)

theorem openaiCollect_ok (hrange : InRange batch) : ∀ {batches : List (List D × ℕ)}
    {results : List (RerankResult S)}, openaiCollect batch limit batches = .ok results →
      results = answered batch limit batches
  | [], _, h => (Except.ok.inj h).symm
  | (documents, i) :: batches, _, h => by
    obtain ⟨batchResults, hbatch, hrest⟩ := bind_eq_ok.1 h
    obtain ⟨rest, hcollect, rfl⟩ := map_eq_ok.1 hrest
    rw [openaiCollect_ok hrange hcollect, answered, answered, List.flatMap_cons]
    congr 1
    cases hb : batch i documents none with
    | ok found =>
      rw [hb] at hbatch
      obtain rfl := Except.ok.inj hbatch
      rw [filter_inRange hrange hb]
      rfl
    | error e =>
      rw [hb] at hbatch
      cases e with
      | provider => cases hbatch
      | other =>
        obtain rfl := Except.ok.inj hbatch
        rfl

theorem voyageCollect_ok : ∀ {batches : List (List D × ℕ)} {results : List (RerankResult S)},
    voyageCollect batch limit batches = .ok results → results = answered batch limit batches
  | [], _, h => (Except.ok.inj h).symm
  | (documents, i) :: batches, _, h => by
    obtain ⟨batchResults, hbatch, hrest⟩ := bind_eq_ok.1 h
    obtain ⟨rest, hcollect, rfl⟩ := map_eq_ok.1 hrest
    rw [voyageCollect_ok hcollect, answered, answered, List.flatMap_cons, hbatch]
    rfl

/-- Shifted to its batch, an index is one of all documents. -/
theorem answered_inRange (hrange : InRange batch) (hlimit : 0 < limit) (documents : List D) :
    ∀ r ∈ answered batch limit (slices limit documents).zipIdx,
      0 ≤ r.index ∧ r.index < documents.length := by
  intro r hr
  obtain ⟨⟨piece, i⟩, hpiece, hr⟩ := List.mem_flatMap.1 hr
  obtain ⟨r, hin, rfl⟩ := List.mem_map.1 hr
  have hlen := add_length_le_of_mem_zipIdx_slices hlimit hpiece
  cases hb : batch i piece none with
  | error e =>
    rw [hb] at hin
    cases hin
  | ok found =>
    rw [hb] at hin
    obtain ⟨hpos, hlt⟩ := hrange i piece none found hb r hin
    have hmul : limit * i = i * limit := Nat.mul_comm _ _
    simp only [shift]
    omega

end Collect

/-! ## Results of the providers -/

section Results

variable {batch : Batch D S} {limit : ℕ} {documents : List D} {topK : Option ℕ}
  {results : List (RerankResult S)}

theorem validResults_inRange (hrange : InRange batch) (topK : Option ℕ)
    (h : documents.length ≤ limit ∨ 0 < limit) :
    ∀ r ∈ validResults batch limit documents topK,
      0 ≤ r.index ∧ r.index < documents.length := by
  intro r hr
  unfold validResults at hr
  split at hr
  · cases hr
  split at hr
  · cases hb : batch 0 documents topK with
    | error e =>
      rw [hb] at hr
      cases hr
    | ok found =>
      rw [hb] at hr
      exact hrange 0 documents topK found hb r hr
  · exact answered_inRange hrange (h.resolve_left ‹_›) documents r hr

theorem openaiSelect_eq (topK : Option ℕ) (results : List (RerankResult S)) :
    openaiSelect topK results =
      (rank RerankResult.score results).take (bound topK results) := by
  have hlen := (rank_perm RerankResult.score results).length_eq
  unfold openaiSelect bound
  cases topK with
  | none => rw [Option.getD_none, List.take_of_length_le (by omega)]
  | some k =>
    simp only [Option.getD_some]
    split
    · rfl
    split
    · rfl
    · rw [List.take_of_length_le (by omega)]

theorem firstOf_eq {l : List (RerankResult S)} (topK : Option ℕ) (h : l.length = results.length) :
    firstOf topK l = l.take (bound topK results) := by
  cases topK with
  | none => rw [bound, Option.getD_none, ← h, List.take_length]; rfl
  | some k => rfl

/-- Both providers send one batch or several, whatever they make of the results. -/
theorem rerank_cases {single several : List (RerankResult S) → List (RerankResult S)}
    {collected : Except Failure (List (RerankResult S))}
    (h : (if documents = [] then .ok []
      else if documents.length ≤ limit then (batch 0 documents topK).map single
      else if limit = 0 then .error .other
      else collected.map several) = .ok results) :
    (documents = [] ∧ results = []) ∨
      (documents ≠ [] ∧ documents.length ≤ limit ∧
        ∃ found, batch 0 documents topK = .ok found ∧ results = single found) ∨
      (documents ≠ [] ∧ ¬documents.length ≤ limit ∧ 0 < limit ∧
        ∃ found, collected = .ok found ∧ results = several found) := by
  split at h
  · exact Or.inl ⟨‹_›, (Except.ok.inj h).symm⟩
  rename_i hne
  split at h
  · obtain ⟨found, hb, rfl⟩ := map_eq_ok.1 h
    exact Or.inr (Or.inl ⟨hne, ‹_›, found, hb, rfl⟩)
  rename_i hmany
  split at h
  · cases h
  · obtain ⟨found, hcollect, rfl⟩ := map_eq_ok.1 h
    exact Or.inr (Or.inr ⟨hne, hmany, Nat.pos_of_ne_zero ‹_›, found, hcollect, rfl⟩)

/-- One batch is returned as it is listed, and of several the best. -/
theorem openaiRerank_ok (hrange : InRange batch)
    (h : openaiRerank batch limit documents topK = .ok results) :
    (documents.length ≤ limit ∨ 0 < limit) ∧
      results = ((if documents.length ≤ limit then id else rank RerankResult.score)
        (validResults batch limit documents topK)).take
          (bound topK (validResults batch limit documents topK)) := by
  unfold validResults
  rcases rerank_cases h with ⟨rfl, rfl⟩ | ⟨hne, hone, found, hb, rfl⟩ |
    ⟨hne, hmany, hlimit, found, hcollect, rfl⟩
  · simp
  · refine ⟨Or.inl hone, ?_⟩
    rw [if_neg hne, if_pos hone, if_pos hone, hb]
    cases topK with
    | none => exact List.take_length.symm
    | some k =>
      change (if k < found.length then found.take k else found) = found.take k
      split
      · rfl
      · rw [List.take_of_length_le (by omega)]
  · refine ⟨Or.inr hlimit, ?_⟩
    rw [if_neg hne, if_neg hmany, if_neg hmany, ← openaiCollect_ok hrange hcollect,
      openaiSelect_eq]

/-- The best of all results, also of one batch, which is listed in order. -/
theorem voyageRerank_ok {respond : Service D S}
    (h : voyageRerank (voyageBatch respond) limit documents topK = .ok results) :
    (documents.length ≤ limit ∨ 0 < limit) ∧
      results = (rank RerankResult.score (validResults (voyageBatch respond) limit documents
        topK)).take (bound topK (validResults (voyageBatch respond) limit documents topK)) := by
  unfold validResults
  rcases rerank_cases h with ⟨rfl, rfl⟩ | ⟨hne, hone, found, hb, rfl⟩ |
    ⟨hne, hmany, hlimit, found, hcollect, rfl⟩
  · simp [rank]
  · refine ⟨Or.inl hone, ?_⟩
    obtain ⟨items, rfl⟩ := voyageBatch_ok hb
    rw [if_neg hne, if_pos hone, hb]
    change firstOf topK _ = (rank RerankResult.score (rank RerankResult.score _)).take
      (bound topK (rank RerankResult.score _))
    rw [rank_eq_self (rank_sorted RerankResult.score _), firstOf_eq topK rfl]
  · refine ⟨Or.inr hlimit, ?_⟩
    rw [if_neg hne, if_neg hmany, ← voyageCollect_ok hcollect,
      firstOf_eq topK (rank_perm RerankResult.score found).length_eq]

end Results

/-! ## The best -/

section Best

variable {valid l : List (RerankResult S)} {n : ℕ} {topK : Option ℕ}

/-- The first of the valid results, in whatever order, are the best when they have distinct indices
and lead. -/
theorem isTopK_take_iff (hperm : l.Perm valid)
    (hrange : ∀ r ∈ valid, 0 ≤ r.index ∧ r.index < n) :
    IsTopK valid n topK (l.take (bound topK valid)) ↔
      ((l.take (bound topK valid)).map RerankResult.index).Nodup ∧
        Leads RerankResult.score l (bound topK valid) := by
  constructor
  · rintro ⟨hdistinct, -, hsorted, -, omitted, homitted, hbest⟩
    refine ⟨hdistinct, hsorted, fun a ha b hb => hbest b ?_ a ha⟩
    have hrest : (l.drop (bound topK valid)).Perm omitted := by
      refine (List.perm_append_left_iff (l.take (bound topK valid))).1 ?_
      rw [List.take_append_drop]
      exact hperm.trans homitted
    exact hrest.subset hb
  · rintro ⟨hdistinct, hsorted, hbest⟩
    refine ⟨hdistinct, fun r hr => hrange r (hperm.subset (List.mem_of_mem_take hr)), hsorted, ?_,
      l.drop (bound topK valid), ?_, fun o ho r hr => hbest r hr o ho⟩
    · rintro k rfl
      exact List.length_take_le _ _
    · rw [List.take_append_drop]
      exact hperm.symm

theorem isTopK_rank_iff (hrange : ∀ r ∈ valid, 0 ≤ r.index ∧ r.index < n) :
    IsTopK valid n topK ((rank RerankResult.score valid).take (bound topK valid)) ↔
      RepeatedBehind topK valid := by
  rw [isTopK_take_iff (rank_perm _ _) hrange,
    and_iff_left (leads_rank RerankResult.score valid (bound topK valid)), nodup_take_rank_iff]
  rfl

theorem isTopK_listed_iff (hrange : ∀ r ∈ valid, 0 ≤ r.index ∧ r.index < n) :
    IsTopK valid n topK (valid.take (bound topK valid)) ↔ ListedBest topK valid := by
  have hdistinct : ((valid.take (bound topK valid)).map RerankResult.index).Nodup ↔
      ∀ i j a b, i < j → j < bound topK valid → valid[i]? = some a → valid[j]? = some b →
        a.index ≠ b.index := by
    rw [List.Nodup, List.pairwise_map, List.pairwise_iff_getElem]
    constructor
    · intro h i j a b hij hj hi' hj'
      obtain ⟨hil, rfl⟩ := List.getElem?_eq_some_iff.1 hi'
      obtain ⟨hjl, rfl⟩ := List.getElem?_eq_some_iff.1 hj'
      have hne := h i j (by rw [List.length_take]; omega) (by rw [List.length_take]; omega) hij
      rwa [List.getElem_take, List.getElem_take] at hne
    · intro h i j hi hj hij
      rw [List.length_take] at hi hj
      rw [List.getElem_take, List.getElem_take]
      exact h i j _ _ hij (by omega) (List.getElem?_eq_getElem _) (List.getElem?_eq_getElem _)
  rw [isTopK_take_iff (.refl _) hrange, hdistinct, leads_iff]
  constructor
  · rintro ⟨hne, hsorted⟩ i j a b hij hi hi' hj'
    exact ⟨hsorted i j a b hij hi hi' hj', fun hj => hne i j a b hij hj hi' hj'⟩
  · intro h
    exact ⟨fun i j a b hij hj hi' hj' => (h i j a b hij (hij.trans hj) hi' hj').2 hj,
      fun i j a b hij hi hi' hj' => (h i j a b hij hi hi' hj').1⟩

end Best

/-! ## Several batches and one -/

section Split

variable {batch : Batch D S} {limit : ℕ} {documents : List D} {topK : Option ℕ} {score : D → S}

theorem map_score_scored (score : D → S) (documents : List D) :
    (scored score documents).map RerankResult.score = documents.map score := by
  rw [scored, List.map_map]
  change documents.zipIdx.map (score ∘ Prod.fst) = _
  rw [← List.map_map, List.zipIdx_map_fst]

theorem scored_indices_nodup (score : D → S) (documents : List D) :
    ((scored score documents).map RerankResult.index).Nodup := by
  rw [scored, List.map_map]
  change (documents.zipIdx.map ((fun i : ℕ => (i : ℤ)) ∘ Prod.snd)).Nodup
  rw [← List.map_map, List.zipIdx_map_snd]
  exact (List.nodup_range' 1).map fun _ _ h => Int.ofNat.inj h

/-- A batch without `top_k` lists all of its documents. -/
theorem Scores.all (h : Scores batch score) (i : ℕ) (hne : documents ≠ []) :
    ∃ results, batch i documents none = .ok results ∧
      (results.map RerankResult.score).Perm (documents.map score) := by
  obtain ⟨results, omitted, hok, hperm, hnone, -⟩ := h i documents none hne
  rw [hnone rfl, List.append_nil] at hperm
  exact ⟨results, hok, map_score_scored score documents ▸ hperm.map _⟩

theorem openaiCollect_scores (h : Scores batch score) :
    ∀ {batches : List (List D × ℕ)}, (∀ b ∈ batches, b.1 ≠ []) →
      ∃ results, openaiCollect batch limit batches = .ok results
  | [], _ => ⟨[], rfl⟩
  | (documents, i) :: batches, hne => by
    obtain ⟨found, hok, -⟩ := h.all i (hne _ List.mem_cons_self)
    obtain ⟨rest, hrest⟩ := openaiCollect_scores h fun b hb => hne b (List.mem_cons_of_mem _ hb)
    exact ⟨_, bind_eq_ok.2 ⟨found, by rw [hok]; rfl, map_eq_ok.2 ⟨rest, hrest, rfl⟩⟩⟩

theorem voyageCollect_scores (h : Scores batch score) :
    ∀ {batches : List (List D × ℕ)}, (∀ b ∈ batches, b.1 ≠ []) →
      ∃ results, voyageCollect batch limit batches = .ok results
  | [], _ => ⟨[], rfl⟩
  | (documents, i) :: batches, hne => by
    obtain ⟨found, hok, -⟩ := h.all i (hne _ List.mem_cons_self)
    obtain ⟨rest, hrest⟩ := voyageCollect_scores h fun b hb => hne b (List.mem_cons_of_mem _ hb)
    exact ⟨_, bind_eq_ok.2 ⟨found, hok, map_eq_ok.2 ⟨rest, hrest, rfl⟩⟩⟩

/-- All batches together have the scores of all documents. -/
theorem answered_scores (limit : ℕ) (h : Scores batch score) : ∀ {batches : List (List D × ℕ)},
    (∀ b ∈ batches, b.1 ≠ []) →
      ((answered batch limit batches).map RerankResult.score).Perm
        ((batches.map Prod.fst).flatten.map score)
  | [], _ => .refl _
  | (documents, i) :: batches, hne => by
    obtain ⟨found, hok, hperm⟩ := h.all i (hne _ List.mem_cons_self)
    have hrest := answered_scores limit h fun b hb => hne b (List.mem_cons_of_mem _ hb)
    have hshift : (found.map (shift (i * limit))).map RerankResult.score =
        found.map RerankResult.score := by
      rw [List.map_map]
      rfl
    rw [answered, List.flatMap_cons, hok, List.map_append, List.map_cons, List.flatten_cons,
      List.map_append]
    exact (hshift ▸ hperm).append hrest

/-- The scores of the best of all documents. -/
def bestScores (score : D → S) (documents : List D) (topK : Option ℕ) : List S :=
  ((rank RerankResult.score (scored score documents)).take
    (topK.getD documents.length)).map RerankResult.score

theorem pieces_ne_nil (hlimit : 0 < limit) (documents : List D) :
    ∀ b ∈ (slices limit documents).zipIdx, b.1 ≠ [] := fun _ hb =>
  ne_nil_of_mem_slices hlimit (List.fst_mem_of_mem_zipIdx hb)

/-- The best of several batches have the scores of the best of all documents. -/
theorem split_scores (h : Scores batch score) (hlimit : 0 < limit)
    (hmany : limit < documents.length) :
    ((rank RerankResult.score (validResults batch limit documents topK)).take
      (bound topK (validResults batch limit documents topK))).map RerankResult.score =
        bestScores score documents topK := by
  have hne : documents ≠ [] := List.ne_nil_of_length_pos (by omega)
  rw [validResults, if_neg hne, if_neg (by omega)]
  have hperm := answered_scores limit h (pieces_ne_nil hlimit documents)
  rw [List.zipIdx_map_fst, flatten_slices hlimit] at hperm
  have hlen := hperm.length_eq
  rw [List.length_map, List.length_map] at hlen
  rw [← map_score_scored score documents] at hperm
  rw [bestScores, bound, hlen, List.map_take, rank_scores_eq hperm, List.map_take]

/-- So do the best of one batch. -/
theorem whole_scores (h : Scores batch score) (hne : documents ≠ [])
    (hone : documents.length ≤ limit) :
    ((rank RerankResult.score (validResults batch limit documents topK)).take
      (bound topK (validResults batch limit documents topK))).map RerankResult.score =
        bestScores score documents topK := by
  obtain ⟨results, omitted, hok, hperm, hnone, hmany, hbest⟩ := h 0 documents topK hne
  rw [validResults, if_neg hne, if_pos hone, hok]
  change ((rank RerankResult.score results).take (bound topK results)).map _ = _
  have hlen := hperm.length_eq
  rw [List.length_append, scored, List.length_map, List.length_zipIdx] at hlen
  have hall := rank_scores_eq (hperm.map RerankResult.score)
  have hbound : bound topK results ≤ results.length →
      ((rank RerankResult.score results).take (bound topK results)).map RerankResult.score =
        ((rank RerankResult.score (scored score documents)).take
          (bound topK results)).map RerankResult.score := by
    intro hle
    rw [← take_rank_append hbest hle, List.map_take, hall, List.map_take]
  cases topK with
  | none =>
    obtain rfl := hnone rfl
    rw [hbound (Nat.le_refl _), bestScores, bound, Option.getD_none, Option.getD_none, ← hlen]
    rfl
  | some k =>
    have hk := hmany k rfl
    by_cases hle : k ≤ results.length
    · exact hbound hle
    · obtain rfl : omitted = [] := List.length_eq_zero_iff.1 (by omega)
      rw [List.append_nil] at hall
      rw [bestScores, List.map_take, hall, List.map_take]
      rfl

/-- Of a service that scores documents, no index is repeated. -/
theorem whole_indices_nodup (h : Scores batch score) (hne : documents ≠ [])
    (hone : documents.length ≤ limit) :
    ((validResults batch limit documents topK).map RerankResult.index).Nodup := by
  obtain ⟨results, omitted, hok, hperm, -⟩ := h 0 documents topK hne
  rw [validResults, if_neg hne, if_pos hone, hok]
  have hall := (hperm.map RerankResult.index).nodup_iff.2 (scored_indices_nodup score documents)
  rw [List.map_append] at hall
  exact (List.nodup_append.1 hall).1

/-- Where the batches have the scores, both providers return a list. -/
theorem rerank_scores {single several : List (RerankResult S) → List (RerankResult S)}
    {collected : Except Failure (List (RerankResult S))} (h : Scores batch score)
    (hlimit : 0 < limit) (hcollect : ∃ found, collected = .ok found) :
    ∃ results, (if documents = [] then .ok []
      else if documents.length ≤ limit then (batch 0 documents topK).map single
      else if limit = 0 then .error .other
      else collected.map several) = .ok results := by
  split
  · exact ⟨_, rfl⟩
  rename_i hne
  split
  · obtain ⟨results, omitted, hok, -⟩ := h 0 documents topK hne
    exact ⟨_, map_eq_ok.2 ⟨results, hok, rfl⟩⟩
  · rw [if_neg (Nat.ne_of_gt hlimit)]
    obtain ⟨found, hok⟩ := hcollect
    exact ⟨_, map_eq_ok.2 ⟨found, hok, rfl⟩⟩

theorem openaiRerank_scores (h : Scores batch score) (hlimit : 0 < limit) (documents : List D)
    (topK : Option ℕ) : ∃ results, openaiRerank batch limit documents topK = .ok results :=
  rerank_scores h hlimit (openaiCollect_scores h (pieces_ne_nil hlimit documents))

theorem voyageRerank_scores (h : Scores batch score) (hlimit : 0 < limit) (documents : List D)
    (topK : Option ℕ) : ∃ results, voyageRerank batch limit documents topK = .ok results :=
  rerank_scores h hlimit (voyageCollect_scores h (pieces_ne_nil hlimit documents))

variable {respond : Service D S}

/-- The VoyageAI provider returns the same list for several batches and for one. -/
theorem voyage_split {limit' : ℕ} (h : Scores (voyageBatch respond) score)
    (hlimit : 0 < limit) (hmany : limit < documents.length) (hone : documents.length ≤ limit')
    (topK : Option ℕ) : ∃ split whole,
      voyageRerank (voyageBatch respond) limit documents topK = .ok split ∧
        voyageRerank (voyageBatch respond) limit' documents topK = .ok whole ∧
          SameUpToTies split whole := by
  have hne : documents ≠ [] := List.ne_nil_of_length_pos (by omega)
  obtain ⟨split, hsplit⟩ := voyageRerank_scores h hlimit documents topK
  obtain ⟨whole, hwhole⟩ := voyageRerank_scores h (show 0 < limit' by omega) documents topK
  refine ⟨split, whole, hsplit, hwhole, ?_⟩
  rw [SameUpToTies, (voyageRerank_ok hsplit).2, (voyageRerank_ok hwhole).2,
    split_scores h hlimit hmany, whole_scores h hne hone]

/-- The OpenAI provider does when the service lists the best of one batch first. -/
theorem openai_split {limit' : ℕ} (h : Scores (openaiBatch respond) score)
    (hlimit : 0 < limit) (hmany : limit < documents.length) (hone : documents.length ≤ limit')
    (topK : Option ℕ) : ∃ split whole,
      openaiRerank (openaiBatch respond) limit documents topK = .ok split ∧
        openaiRerank (openaiBatch respond) limit' documents topK = .ok whole ∧
          (SameUpToTies split whole ↔
            ListedBest topK (validResults (openaiBatch respond) limit' documents topK)) := by
  have hrange := openaiBatch_inRange respond
  have hne : documents ≠ [] := List.ne_nil_of_length_pos (by omega)
  obtain ⟨split, hsplit⟩ := openaiRerank_scores h hlimit documents topK
  obtain ⟨whole, hwhole⟩ := openaiRerank_scores h (show 0 < limit' by omega) documents topK
  refine ⟨split, whole, hsplit, hwhole, ?_⟩
  have hvalid := validResults_inRange hrange topK (Or.inl hone)
  have hdistinct : (((validResults (openaiBatch respond) limit' documents topK).take
      (bound topK (validResults (openaiBatch respond) limit' documents topK))).map
        RerankResult.index).Nodup :=
    (whole_indices_nodup h hne hone).sublist ((List.take_sublist _ _).map _)
  rw [← isTopK_listed_iff hvalid, isTopK_take_iff (.refl _) hvalid, and_iff_right hdistinct,
    ← take_scores_iff, SameUpToTies, (openaiRerank_ok hrange hsplit).2,
    (openaiRerank_ok hrange hwhole).2, if_neg (by omega), if_pos hone,
    split_scores h hlimit hmany, whole_scores h hne hone, id_eq]
  exact eq_comm

end Split

/-! ## Results -/

/-- When the results are the best `top_k`, and when several batches give the same list as one. -/
theorem rerank_iff (respond : Service D S) (limit : ℕ) (documents : List D) (topK : Option ℕ) :
    (∀ results, openaiRerank (openaiBatch respond) limit documents topK = .ok results →
      (IsTopK (validResults (openaiBatch respond) limit documents topK) documents.length topK
          results ↔
        if documents.length ≤ limit then
          ListedBest topK (validResults (openaiBatch respond) limit documents topK)
        else RepeatedBehind topK (validResults (openaiBatch respond) limit documents topK))) ∧
    (∀ results, voyageRerank (voyageBatch respond) limit documents topK = .ok results →
      (IsTopK (validResults (voyageBatch respond) limit documents topK) documents.length topK
          results ↔
        RepeatedBehind topK (validResults (voyageBatch respond) limit documents topK))) ∧
    ∀ (score : D → S) (limit' : ℕ), 0 < limit → limit < documents.length →
      documents.length ≤ limit' →
        (Scores (openaiBatch respond) score → ∃ split whole,
          openaiRerank (openaiBatch respond) limit documents topK = .ok split ∧
            openaiRerank (openaiBatch respond) limit' documents topK = .ok whole ∧
              (SameUpToTies split whole ↔
                ListedBest topK (validResults (openaiBatch respond) limit' documents topK))) ∧
        (Scores (voyageBatch respond) score → ∃ split whole,
          voyageRerank (voyageBatch respond) limit documents topK = .ok split ∧
            voyageRerank (voyageBatch respond) limit' documents topK = .ok whole ∧
              SameUpToTies split whole) := by
  refine ⟨fun results h => ?_, fun results h => ?_, fun score limit' hlimit hmany hone =>
    ⟨fun h => openai_split h hlimit hmany hone topK,
      fun h => voyage_split h hlimit hmany hone topK⟩⟩
  · obtain ⟨hcut, rfl⟩ := openaiRerank_ok (openaiBatch_inRange respond) h
    have hvalid := validResults_inRange (openaiBatch_inRange respond) topK hcut
    split
    · exact isTopK_listed_iff hvalid
    · exact isTopK_rank_iff hvalid
  · obtain ⟨hcut, rfl⟩ := voyageRerank_ok h
    exact isTopK_rank_iff (validResults_inRange (voyageBatch_inRange respond) topK hcut)

/-- Documents that are numbers, listed in their order, each with itself as its score. -/
def listing : Service ℕ ℕ := fun _ documents _ =>
  .ok (.dict (some (documents.zipIdx.map fun d => .dict (.value d.2) (.value d.1) .absent)) none)

theorem filterMap_listing {item : Item ℕ → Option (RerankResult ℕ)} (documents : List ℕ)
    (h : ∀ i d, i < documents.length → item (.dict (.value i) (.value d) .absent) = some ⟨i, d⟩) :
    (documents.zipIdx.map fun d => Item.dict (.value (d.2 : ℤ)) (.value d.1) .absent).filterMap
      item = scored id documents := by
  rw [List.filterMap_map, scored, ← List.filterMap_eq_map']
  refine List.filterMap_congr fun d hd => ?_
  exact h d.2 d.1 (List.snd_lt_of_mem_zipIdx hd)

theorem validResult_of_lt {i n d : ℕ} (h : i < n) :
    validResult n (some (i : ℤ)) (some d) = some ⟨i, d⟩ :=
  if_pos ⟨Int.natCast_nonneg i, Int.ofNat_lt.2 h⟩

theorem openai_listing : Scores (openaiBatch listing) id := by
  intro i documents topK hne
  obtain ⟨d, rest, rfl⟩ := List.exists_cons_of_ne_nil hne
  refine ⟨scored id (d :: rest), [], ?_, by simp, fun _ => rfl, ?_, by simp⟩
  · exact congrArg Except.ok (filterMap_listing (d :: rest) fun i d hi => validResult_of_lt hi)
  · intro k _
    rw [scored, List.length_map, List.length_zipIdx]
    exact Nat.min_le_right _ _

theorem voyage_listing : Scores (voyageBatch listing) id := by
  intro i documents topK _
  refine ⟨rank RerankResult.score (scored id documents), [], ?_, ?_, fun _ => rfl, ?_, by simp⟩
  · exact congrArg (fun l => Except.ok (rank RerankResult.score l))
      (filterMap_listing documents fun i d hi => validResult_of_lt hi)
  · rw [List.append_nil]
    exact rank_perm _ _
  · intro k _
    rw [(rank_perm _ _).length_eq, scored, List.length_map, List.length_zipIdx]
    exact Nat.min_le_right _ _

theorem rerank_iff_listing :
    (IsTopK (validResults (openaiBatch listing) 1 [3, 5] none) 2 none [⟨1, 5⟩, ⟨0, 3⟩] ↔
      RepeatedBehind none (validResults (openaiBatch listing) 1 [3, 5] none)) ∧
    (IsTopK (validResults (voyageBatch listing) 1 [3, 5] none) 2 none [⟨1, 5⟩, ⟨0, 3⟩] ↔
      RepeatedBehind none (validResults (voyageBatch listing) 1 [3, 5] none)) ∧
    (∃ split whole, openaiRerank (openaiBatch listing) 1 [3, 5] none = .ok split ∧
      openaiRerank (openaiBatch listing) 2 [3, 5] none = .ok whole ∧
        (SameUpToTies split whole ↔
          ListedBest none (validResults (openaiBatch listing) 2 [3, 5] none))) ∧
    ∃ split whole, voyageRerank (voyageBatch listing) 1 [3, 5] none = .ok split ∧
      voyageRerank (voyageBatch listing) 2 [3, 5] none = .ok whole ∧ SameUpToTies split whole := by
  have h := rerank_iff listing 1 [3, 5] none
  obtain ⟨hopenai, hvoyage⟩ := h.2.2 id 2 (by decide) (by decide) (by decide)
  exact ⟨h.1 _ (by rfl), h.2.1 _ (by rfl), hopenai openai_listing, hvoyage voyage_listing⟩

/-- The first of two documents, twice. -/
def repeating : Service ℕ ℕ := fun _ _ _ =>
  .ok (.dict (some [.dict (.value 0) (.value 5) .absent, .dict (.value 0) (.value 5) .absent]) none)

/-- The OpenAI provider returns two documents in ascending order, and the VoyageAI provider one
document twice. -/
theorem not_topK :
    (openaiRerank (openaiBatch listing) 2 [3, 5] none = .ok [⟨0, 3⟩, ⟨1, 5⟩] ∧
      ¬IsTopK (validResults (openaiBatch listing) 2 [3, 5] none) 2 none [⟨0, 3⟩, ⟨1, 5⟩]) ∧
    voyageRerank (voyageBatch repeating) 2 [3, 5] none = .ok [⟨0, 5⟩, ⟨0, 5⟩] ∧
      ¬IsTopK (validResults (voyageBatch repeating) 2 [3, 5] none) 2 none [⟨0, 5⟩, ⟨0, 5⟩] :=
  ⟨⟨by rfl, fun h => absurd h.descending (by decide)⟩, by rfl,
    fun h => absurd h.distinct (by decide)⟩

end ChunkHound.Reranking
