import Mathlib.Algebra.Order.Ring.Rat
import ChunkHound.Ranking
import ChunkHound.SearchQueries

/-!
# Multi-hop search

`MultiHopStrategy.search` starts from the results of a semantic search, and adds in rounds the
neighbours of its best results, which it reranks with the others. The clock, the neighbours and the
reranker answer each round anew, and may fail.

Each round keeps that no chunk comes twice, that the results are within the limit, and that they are
sorted, also when reranking fails. It ends or finds a chunk that was not seen, so that on a finite
database the search ends without any limit (`search_invariants`).
-/

namespace ChunkHound.MultiHop

open OrderedDict Paging Ranking SearchQueries

/-- `INITIAL_LIMIT_CAP_NORMAL` -/
def initialLimitCapNormal : ℕ := 100

/-- `INITIAL_LIMIT_CAP_EXHAUSTIVE` -/
def initialLimitCapExhaustive : ℕ := 500

/-- `NEIGHBORS_PER_CANDIDATE_NORMAL` -/
def neighborsPerCandidateNormal : ℕ := 20

/-- `NEIGHBORS_PER_CANDIDATE_EXHAUSTIVE` -/
def neighborsPerCandidateExhaustive : ℕ := 30

/-- `MIN_EXPANSION_CANDIDATES` -/
def minExpansionCandidates : ℕ := 5

/-- `SCORE_DROP_THRESHOLD` -/
def scoreDropThreshold : ℚ := 15 / 100

/-- `MIN_RELEVANCE_FLOOR` -/
def minRelevanceFloor : ℚ := 3 / 10

/-! ## Results and services -/

/-- A result. A score or a similarity may be missing. -/
structure Result where
  chunkId : ℕ
  content : String
  score : Option ℚ
  similarity : Option ℚ
  deriving DecidableEq

/-- `result.get("score", 0.0)`. -/
def getScore (r : Result) : ℚ := r.score.getD 0

/-- A row of the semantic search, which has no score. -/
def ofRow (row : Row ℚ) : Result := ⟨row.chunkId, row.content, none, some row.similarity⟩

/-- What is read of the configuration. -/
structure Config where
  exhaustiveMode : Bool
  effectiveResultLimit : Option ℕ

/-- The arguments of `search`. -/
structure Args where
  pageSize : ℕ
  offset : ℕ
  threshold : Option ℚ
  provider : String
  model : String
  pathFilter : Option (List Char)
  resultLimit : Option ℕ
  config : Option Config

/-- The database, the embedding of the query, and what is answered in each round : whether the time
is up, the neighbours of a chunk and the scores of the reranker, none where it raises. -/
structure Services (V : Type) where
  db : Database V
  fns : Functions V ℚ
  order : List (Row ℚ) → List (Row ℚ)
  orders : Orders semanticKey order
  embed : Option V
  timeUp : ℕ → Bool
  neighbors : ℕ → ℕ → ℕ → Option (List Result)
  neighbors_stored : ∀ {n id limit rows}, neighbors n id limit = some rows →
    ∀ r ∈ rows, r.chunkId ∈ db.chunks.map ChunkRow.id
  rerank : ℕ → List String → Option (List (ℤ × ℚ))
  sub : ℚ → ℚ → ℚ

/-- `config.exhaustive_mode`, false without a configuration. -/
def isExhaustive (args : Args) : Bool := args.config.any Config.exhaustiveMode

/-- No limit at all is a configuration's choice. -/
def effectiveResultLimit (args : Args) : Option ℕ :=
  match args.resultLimit, args.config with
  | some limit, _ => some limit
  | none, some config => config.effectiveResultLimit
  | none, none => some 500

/-! ## Scores -/

/-- The similarity stands in for a missing score. -/
def seed (r : Result) : Result :=
  match r.score with
  | some _ => r
  | none => { r with score := some (r.similarity.getD 0) }

/-- The scores of the reranker, by index. An index out of range is skipped. -/
def applyScores (results : List Result) (reranked : List (ℤ × ℚ)) : List Result :=
  reranked.foldl (fun results r =>
    if 0 ≤ r.1 ∧ r.1 < (results.length : ℤ) then
      results.modify r.1.toNat fun result => { result with score := some r.2 }
    else results) results

/-- Best first, ties in their order. -/
def sortByScore (results : List Result) : List Result := rank getScore results

/-- The scores of the first results, by chunk. -/
def topChunkScores (results : List Result) : List (ℕ × ℚ) :=
  update [] ((results.take minExpansionCandidates).map fun r => (r.chunkId, getScore r))

/-! ## The search -/

section Search

variable {V : Type} (services : Services V) (args : Args)

/-- How many results the semantic search is asked for. -/
def initialLimit : ℕ :=
  let cap := if isExhaustive args then initialLimitCapExhaustive else initialLimitCapNormal
  let limit := min (args.pageSize * 3) cap
  (effectiveResultLimit args).elim limit fun resultLimit => min limit resultLimit

/-- The results of the semantic search, if the query was embedded. -/
def singleHop : List Result :=
  match services.embed with
  | none => []
  | some query =>
    (searchSemantic services.db services.fns services.order query args.provider args.model
      (initialLimit args) 0 (some 0) args.pathFilter).items.map ofRow

/-- These, reranked if that does not fail. -/
def initialResults : List Result :=
  let results := (singleHop services args).map seed
  match services.rerank 0 (results.map Result.content) with
  | some reranked => sortByScore (applyScores results reranked)
  | none => results

/-- What the rounds go on with. -/
structure State where
  allResults : List Result
  seenChunkIds : List ℕ
  topChunkScores : List (ℕ × ℚ)

/-- Before the first round. -/
def initialState : State where
  allResults := initialResults services args
  seenChunkIds := (initialResults services args).map Result.chunkId
  topChunkScores := topChunkScores (initialResults services args)

/-- A neighbour that was not seen is a new candidate. -/
def addCandidate (seen : List ℕ) (newCandidates : List Result) (neighbor : Result) :
    List Result :=
  if neighbor.chunkId ∈ seen ∨ neighbor.chunkId ∈ newCandidates.map Result.chunkId then
    newCandidates
  else newCandidates ++ [neighbor]

/-- The neighbours of a candidate, unless the query raises. -/
def addNeighbors (n neighborLimit : ℕ) (seen : List ℕ) (newCandidates : List Result)
    (candidate : Result) : List Result :=
  match services.neighbors n candidate.chunkId neighborLimit with
  | some neighbors => neighbors.foldl (addCandidate seen) newCandidates
  | none => newCandidates

/-- The new neighbours of the best results. -/
def collectCandidates (n : ℕ) (seen : List ℕ) (topCandidates : List Result) : List Result :=
  let neighborLimit :=
    if isExhaustive args then neighborsPerCandidateExhaustive else neighborsPerCandidateNormal
  topCandidates.foldl (addNeighbors services n neighborLimit seen) []

/-- How much the scores of the tracked chunks have fallen. A chunk that is gone has none. -/
def scoreDrops (tracked : List (ℕ × ℚ)) (results : List Result) : List ℚ :=
  tracked.filterMap fun (chunkId, prevScore) =>
    let currentScore := ((results.find? (·.chunkId = chunkId)).map getScore).getD 0
    if currentScore < prevScore then some (services.sub prevScore currentScore) else none

/-- What a round does : end with its results, or go on. -/
inductive Outcome
  | stop (results : List Result)
  | next (st : State)

/-- The new candidates are reranked with the other results. -/
def rerankRound (n : ℕ) (st : State) (newCandidates : List Result) : Outcome :=
  let seen := st.seenChunkIds ++ newCandidates.map Result.chunkId
  let results := (st.allResults ++ newCandidates).map seed
  match services.rerank (n + 1) (results.map Result.content) with
  | none => .stop (sortByScore results)
  | some reranked =>
    let results := sortByScore (applyScores results reranked)
    let currentTopScores := (results.take minExpansionCandidates).map getScore
    if (scoreDrops services st.topChunkScores results).max?.any (scoreDropThreshold ≤ ·) then
      .stop results
    else if currentTopScores.min?.any (· < minRelevanceFloor) then .stop results
    else .next ⟨results, seen, topChunkScores results⟩

/-- One round. -/
def expandRound (n : ℕ) (st : State) : Outcome :=
  if services.timeUp n then .stop st.allResults
  else if (effectiveResultLimit args).any (· ≤ st.allResults.length) then .stop st.allResults
  else
    let topCandidates := (st.allResults.filter (0 < getScore ·)).take minExpansionCandidates
    if topCandidates.length < minExpansionCandidates then .stop st.allResults
    else
      let newCandidates := collectCandidates services args n st.seenChunkIds topCandidates
      if newCandidates = [] then .stop st.allResults
      else
        match effectiveResultLimit args with
        | none => rerankRound services n st newCandidates
        | some limit =>
          let remainingBudget := limit - st.allResults.length
          if remainingBudget ≤ 0 then .stop st.allResults
          else rerankRound services n st (newCandidates.take remainingBudget)

/-- The rounds from one on. -/
def expand : ℕ → ℕ → State → Option (List Result)
  | 0, _, _ => none
  | fuel + 1, n, st =>
    match expandRound services args n st with
    | .stop results => some results
    | .next st => expand fuel (n + 1) st

/-- The state after some rounds that go on. -/
def stateAfter : ℕ → Option State
  | 0 => some (initialState services args)
  | n + 1 => (stateAfter n).bind fun st =>
    match expandRound services args n st with
    | .stop _ => none
    | .next st => some st

/-- The results from the threshold on. -/
def aboveThreshold (results : List Result) : List Result :=
  match args.threshold with
  | none => results
  | some threshold => results.filter (threshold ≤ getScore ·)

/-- A page of what is above the threshold. -/
def paginate (results : List Result) : Page Result :=
  page (aboveThreshold args results) (aboveThreshold args results).length args.pageSize args.offset

/-- `search`, with at most so many rounds. -/
def search (fuel : ℕ) : Option (Page Result) :=
  (expand services args fuel 0 (initialState services args)).map (paginate args)

end Search

/-! ## The chunks of the results -/

/-- The chunks of some results. -/
def ids (results : List Result) : List ℕ := results.map Result.chunkId

/-- The best come first. -/
def IsSorted (results : List Result) : Prop := results.Pairwise fun a b => getScore b ≤ getScore a

/-- No chunk comes twice, and the results are within the limit. -/
structure Accumulated (limit : Option ℕ) (results : List Result) : Prop where
  nodup : (ids results).Nodup
  length_le : ∀ l ∈ limit, results.length ≤ l

theorem chunkId_seed (r : Result) : (seed r).chunkId = r.chunkId := by
  unfold seed
  cases r.score <;> rfl

theorem ids_map_seed (results : List Result) : ids (results.map seed) = ids results := by
  unfold ids
  rw [List.map_map]
  exact List.map_congr_left fun r _ => chunkId_seed r

theorem ids_modify (score : ℚ) : ∀ (results : List Result) (i : ℕ),
    ids (results.modify i fun result => { result with score := some score }) = ids results
  | [], i => by cases i <;> rfl
  | r :: results, 0 => rfl
  | r :: results, i + 1 => congrArg (r.chunkId :: ·) (ids_modify score results i)

theorem ids_applyScores (reranked : List (ℤ × ℚ)) : ∀ results : List Result,
    ids (applyScores results reranked) = ids results := by
  induction reranked with
  | nil => exact fun _ => rfl
  | cons r reranked ih =>
    intro results
    have hstep : applyScores results (r :: reranked) = applyScores
        (if 0 ≤ r.1 ∧ r.1 < (results.length : ℤ) then
          results.modify r.1.toNat fun result => { result with score := some r.2 }
        else results) reranked := rfl
    rw [hstep, ih]
    split
    · exact ids_modify r.2 results _
    · rfl

theorem ids_sortByScore_perm (results : List Result) :
    (ids (sortByScore results)).Perm (ids results) :=
  (rank_perm getScore results).map _

theorem isSorted_sortByScore (results : List Result) : IsSorted (sortByScore results) :=
  rank_sorted getScore results

theorem length_ids (results : List Result) : (ids results).length = results.length :=
  List.length_map _

/-- Results with the same chunks in another order are accumulated as well. -/
theorem Accumulated.of_perm {limit : Option ℕ} {results results' : List Result}
    (h : Accumulated limit results) (hperm : (ids results').Perm (ids results)) :
    Accumulated limit results' := by
  refine ⟨hperm.nodup_iff.2 h.nodup, fun l hl => ?_⟩
  rw [← length_ids, hperm.length_eq, length_ids]
  exact h.length_le l hl

/-! ## The initial results -/

section Search

variable {V : Type} (services : Services V) (args : Args)

theorem initialLimit_le {l : ℕ} (h : l ∈ effectiveResultLimit args) : initialLimit args ≤ l := by
  unfold initialLimit
  rw [Option.mem_def.1 h]
  exact min_le_right _ _

/-- A page of the semantic search. -/
theorem singleHop_spec : Accumulated (effectiveResultLimit args) (singleHop services args) ∧
    (singleHop services args).Pairwise fun a b =>
      getScore (seed b) ≤ getScore (seed a) := by
  unfold singleHop
  cases services.embed with
  | none => exact ⟨⟨List.nodup_nil, fun _ _ => Nat.zero_le _⟩, List.Pairwise.nil⟩
  | some query =>
    have hnil : services.order [] = [] := (services.orders []).1.eq_nil
    obtain ⟨hperm, hsorted⟩ := services.orders (semanticMatching services.db services.fns query
      args.provider args.model (some 0) args.pathFilter)
    have hnodup := semanticMatching_nodup services.db services.fns query args.provider args.model
      (some 0) args.pathFilter
    simp only [searchSemantic_eq services.db services.fns query args.provider args.model
      (initialLimit args) (some 0) args.pathFilter hnil 0]
    generalize services.order (semanticMatching services.db services.fns query args.provider
      args.model (some 0) args.pathFilter) = rows at hperm hsorted
    simp only [page, slice, List.drop_zero]
    refine ⟨⟨?_, fun l hl => ?_⟩, ?_⟩
    · have hids : ids ((rows.take (initialLimit args)).map ofRow) =
          (rows.take (initialLimit args)).map (·.chunkId) := by
        unfold ids
        rw [List.map_map]
        rfl
      rw [hids]
      exact ((hperm.map _).nodup_iff.2 hnodup).sublist ((List.take_sublist _ _).map _)
    · rw [List.length_map]
      exact (List.length_take_le _ _).trans (initialLimit_le args hl)
    · exact List.pairwise_map.2 (hsorted.sublist (List.take_sublist _ _))

/-- The initial results are sorted : by their similarities when they are not reranked. -/
theorem initialResults_spec :
    Accumulated (effectiveResultLimit args) (initialResults services args) ∧
      IsSorted (initialResults services args) := by
  obtain ⟨hacc, hsorted⟩ := singleHop_spec services args
  have hseeded := hacc.of_perm (List.Perm.of_eq (ids_map_seed (singleHop services args)))
  unfold initialResults
  dsimp only
  cases services.rerank 0 (((singleHop services args).map seed).map Result.content) with
  | none => exact ⟨hseeded, List.pairwise_map.2 hsorted⟩
  | some reranked =>
    refine ⟨hseeded.of_perm ?_, isSorted_sortByScore _⟩
    exact (ids_sortByScore_perm _).trans (List.Perm.of_eq (ids_applyScores _ _))

/-! ## New candidates -/

/-- The candidates that are new : stored, not seen, and each once. -/
structure AreNew (seen : List ℕ) (newCandidates : List Result) : Prop where
  nodup : (ids newCandidates).Nodup
  unseen : ∀ id ∈ ids newCandidates, id ∉ seen
  stored : ∀ id ∈ ids newCandidates, id ∈ services.db.chunks.map ChunkRow.id

variable {services}

variable {newCandidates : List Result} {seen : List ℕ}

theorem AreNew.addCandidate (h : AreNew services seen newCandidates) {neighbor : Result}
    (hstored : neighbor.chunkId ∈ services.db.chunks.map ChunkRow.id) :
    AreNew services seen (addCandidate seen newCandidates neighbor) := by
  unfold MultiHop.addCandidate
  split
  · exact h
  · next hnew =>
    rw [not_or] at hnew
    have hids : ids (newCandidates ++ [neighbor]) = ids newCandidates ++ [neighbor.chunkId] :=
      List.map_append
    have hmem : ∀ id ∈ ids (newCandidates ++ [neighbor]),
        id ∈ ids newCandidates ∨ id = neighbor.chunkId := fun id hid => by
      rw [hids, List.mem_append, List.mem_singleton] at hid
      exact hid
    refine ⟨?_, fun id hid => ?_, fun id hid => ?_⟩
    · rw [hids, ← List.concat_eq_append]
      exact h.nodup.concat hnew.2
    · obtain hid | rfl := hmem id hid
      · exact h.unseen id hid
      · exact hnew.1
    · obtain hid | rfl := hmem id hid
      · exact h.stored id hid
      · exact hstored

theorem AreNew.foldl_addCandidate : ∀ {neighbors newCandidates : List Result},
    AreNew services seen newCandidates →
    (∀ r ∈ neighbors, r.chunkId ∈ services.db.chunks.map ChunkRow.id) →
    AreNew services seen (neighbors.foldl (MultiHop.addCandidate seen) newCandidates)
  | [], _, h, _ => h
  | r :: neighbors, newCandidates, h, hstored => by
    have hstep := h.addCandidate (hstored r List.mem_cons_self)
    exact hstep.foldl_addCandidate fun r' hr' => hstored r' (List.mem_cons_of_mem r hr')

theorem AreNew.addNeighbors
    (h : AreNew services seen newCandidates) (n limit : ℕ) (candidate : Result) :
    AreNew services seen (addNeighbors services n limit seen newCandidates candidate) := by
  unfold MultiHop.addNeighbors
  cases hneighbors : services.neighbors n candidate.chunkId limit with
  | none => exact h
  | some neighbors => exact h.foldl_addCandidate (services.neighbors_stored hneighbors)

theorem areNew_collectCandidates (n : ℕ) (seen : List ℕ) (topCandidates : List Result) :
    AreNew services seen (collectCandidates services args n seen topCandidates) := by
  have hrun : ∀ (limit : ℕ) (topCandidates newCandidates : List Result),
      AreNew services seen newCandidates → AreNew services seen
        (topCandidates.foldl (MultiHop.addNeighbors services n limit seen) newCandidates) := by
    intro limit topCandidates
    induction topCandidates with
    | nil => exact fun _ h => h
    | cons candidate topCandidates ih => exact fun _ h => ih _ (h.addNeighbors n limit candidate)
  exact hrun _ topCandidates [] ⟨List.nodup_nil, fun _ h => (nomatch h), fun _ h => (nomatch h)⟩

theorem AreNew.sublist {newCandidates newCandidates' : List Result}
    (h : AreNew services seen newCandidates) (hsub : newCandidates'.Sublist newCandidates) :
    AreNew services seen newCandidates' := by
  have hids : (ids newCandidates').Sublist (ids newCandidates) := hsub.map _
  exact ⟨h.nodup.sublist hids, fun id hid => h.unseen id (hids.subset hid),
    fun id hid => h.stored id (hids.subset hid)⟩

/-! ## Rounds -/

variable (services)

/-- What holds before each round. -/
structure Invariant (st : State) : Prop where
  accumulated : Accumulated (effectiveResultLimit args) st.allResults
  sorted : IsSorted st.allResults
  seen : ∀ id ∈ ids st.allResults, id ∈ st.seenChunkIds

/-- The stored chunks that were not seen. -/
def unseen (st : State) : ℕ :=
  ((services.db.chunks.map ChunkRow.id).filter (· ∉ st.seenChunkIds)).length

/-- What a round does from a state in which the invariant holds. -/
def Keeps (st : State) : Outcome → Prop
  | .stop results => Accumulated (effectiveResultLimit args) results ∧ IsSorted results
  | .next st' => Invariant args st' ∧ unseen services st' < unseen services st

variable {services args}

variable {st : State}

/-- A chunk that is seen now was not seen before. -/
theorem unseen_lt {results : List Result} {new : List ℕ} {top : List (ℕ × ℚ)} {id : ℕ}
    (hstored : id ∈ services.db.chunks.map ChunkRow.id) (hunseen : id ∉ st.seenChunkIds)
    (hid : id ∈ new) :
    unseen services ⟨results, st.seenChunkIds ++ new, top⟩ < unseen services st := by
  have hfilter : (services.db.chunks.map ChunkRow.id).filter (· ∉ st.seenChunkIds ++ new) =
      ((services.db.chunks.map ChunkRow.id).filter (· ∉ st.seenChunkIds)).filter (· ∉ new) := by
    rw [List.filter_filter]
    refine List.filter_congr fun k _ => ?_
    simp [and_comm]
  unfold unseen
  rw [hfilter, List.length_filter_lt_length_iff_exists]
  exact ⟨id, List.mem_filter.2 ⟨hstored, by simpa using hunseen⟩, by simpa using hid⟩

/-- Reranking with some new candidates that are within the limit. -/
theorem rerankRound_keeps (n : ℕ) (h : Invariant args st)
    (hnew : AreNew services st.seenChunkIds newCandidates) (hne : newCandidates ≠ [])
    (hlimit : ∀ l ∈ effectiveResultLimit args,
      st.allResults.length + newCandidates.length ≤ l) :
    Keeps services args st (rerankRound services n st newCandidates) := by
  have happend : ids (st.allResults ++ newCandidates) = ids st.allResults ++ ids newCandidates :=
    List.map_append
  have hacc : Accumulated (effectiveResultLimit args)
      ((st.allResults ++ newCandidates).map seed) := by
    refine ⟨?_, fun l hl => ?_⟩
    · rw [ids_map_seed, happend]
      exact List.nodup_append.2 ⟨h.accumulated.nodup, hnew.nodup, fun a ha b hb hab =>
        hnew.unseen b hb (hab ▸ h.seen a ha)⟩
    · rw [List.length_map, List.length_append]
      exact hlimit l hl
  have hstop : ∀ results, Accumulated (effectiveResultLimit args) results →
      Accumulated (effectiveResultLimit args) (sortByScore results) ∧
        IsSorted (sortByScore results) := fun results hresults =>
    ⟨hresults.of_perm (ids_sortByScore_perm results), isSorted_sortByScore results⟩
  unfold rerankRound
  dsimp only
  cases services.rerank (n + 1)
      (((st.allResults ++ newCandidates).map seed).map Result.content) with
  | none => exact hstop _ hacc
  | some reranked =>
    have hscored := hstop _ (hacc.of_perm (List.Perm.of_eq (ids_applyScores reranked _)))
    dsimp only
    split
    · exact hscored
    split
    · exact hscored
    refine ⟨⟨hscored.1, hscored.2, fun id hid => ?_⟩, ?_⟩
    · rw [(ids_sortByScore_perm _).mem_iff, ids_applyScores, ids_map_seed, happend] at hid
      exact List.mem_append.2 ((List.mem_append.1 hid).imp_left (h.seen id))
    · obtain ⟨candidate, hcandidate⟩ := List.exists_mem_of_ne_nil _ hne
      have hid : candidate.chunkId ∈ ids newCandidates := List.mem_map_of_mem hcandidate
      exact unseen_lt (hnew.stored _ hid) (hnew.unseen _ hid) hid

theorem expandRound_keeps (n : ℕ) (h : Invariant args st) :
    Keeps services args st (expandRound services args n st) := by
  have hend : Keeps services args st (.stop st.allResults) := ⟨h.accumulated, h.sorted⟩
  unfold expandRound
  dsimp only
  split
  · exact hend
  split
  · exact hend
  split
  · exact hend
  split
  · exact hend
  next hne =>
    have hnew : AreNew services st.seenChunkIds (collectCandidates services args n st.seenChunkIds
        ((st.allResults.filter (0 < getScore ·)).take minExpansionCandidates)) :=
      areNew_collectCandidates args n st.seenChunkIds _
    cases hlimit : effectiveResultLimit args with
    | none => exact rerankRound_keeps n h hnew hne fun l hl => by simp [hlimit] at hl
    | some limit =>
      dsimp only
      split
      · exact hend
      next hbudget =>
        have hcut := hnew.sublist (List.take_sublist (limit - st.allResults.length) _)
        refine rerankRound_keeps n h hcut (fun hnil => ?_) fun l hl => ?_
        · rcases List.take_eq_nil_iff.1 hnil with hzero | hnil
          · omega
          · exact hne hnil
        · obtain rfl : limit = l := Option.some.inj (hlimit.symm.trans hl)
          have hle := List.length_take_le (limit - st.allResults.length)
            (collectCandidates services args n st.seenChunkIds
              ((st.allResults.filter (0 < getScore ·)).take minExpansionCandidates))
          omega

/-! ## Runs -/

theorem invariant_initialState (services : Services V) (args : Args) :
    Invariant args (initialState services args) := by
  obtain ⟨hacc, hsorted⟩ := initialResults_spec services args
  exact ⟨hacc, hsorted, fun _ hid => hid⟩

/-- The invariant holds before every round. -/
theorem invariant_stateAfter : ∀ {n : ℕ} {st : State}, stateAfter services args n = some st →
    Invariant args st
  | 0, st, h => by
    obtain rfl := Option.some.inj h
    exact invariant_initialState services args
  | n + 1, st, h => by
    obtain ⟨st₀, h₀, hst⟩ := Option.bind_eq_some_iff.1 h
    have hkeeps : Keeps services args st₀ (expandRound services args n st₀) :=
      expandRound_keeps n (invariant_stateAfter h₀)
    cases hround : expandRound services args n st₀ with
    | stop results => simp [hround] at hst
    | next st' =>
      rw [hround] at hst hkeeps
      obtain rfl := Option.some.inj hst
      exact hkeeps.1

/-- The rounds end when no more are left than chunks that were not seen. -/
theorem expand_spec : ∀ {fuel n : ℕ} {st : State}, Invariant args st →
    unseen services st < fuel → ∃ results, expand services args fuel n st = some results ∧
      Accumulated (effectiveResultLimit args) results ∧ IsSorted results
  | 0, _, _, _, hfuel => absurd hfuel (Nat.not_lt_zero _)
  | fuel + 1, n, st, h, hfuel => by
    have hkeeps : Keeps services args st (expandRound services args n st) := expandRound_keeps n h
    unfold expand
    cases hround : expandRound services args n st with
    | stop results =>
      rw [hround] at hkeeps
      exact ⟨results, rfl, hkeeps⟩
    | next st' =>
      rw [hround] at hkeeps
      exact expand_spec hkeeps.1 (hkeeps.2.trans_le (Nat.le_of_lt_succ hfuel))

/-- A search ends, whatever the clock, the neighbours and the reranker answer, and with or without
limits. Before each of its rounds and at its end no chunk comes twice and the results are within the
limit, and what is filtered and paginated is sorted. -/
theorem search_invariants (services : Services V) (args : Args) :
    (∀ n st, stateAfter services args n = some st →
      Accumulated (effectiveResultLimit args) st.allResults) ∧
    ∃ results,
      expand services args (services.db.chunks.length + 1) 0 (initialState services args) =
        some results ∧
      Accumulated (effectiveResultLimit args) results ∧ IsSorted results ∧
      search services args (services.db.chunks.length + 1) = some (paginate args results) := by
  refine ⟨fun n st h => (invariant_stateAfter h).accumulated, ?_⟩
  have hfuel : unseen services (initialState services args) < services.db.chunks.length + 1 := by
    unfold unseen
    exact Nat.lt_succ_of_le ((List.length_filter_le _ _).trans_eq (List.length_map _))
  obtain ⟨results, hexpand, hacc, hsorted⟩ :=
    expand_spec (n := 0) (invariant_initialState services args) hfuel
  refine ⟨results, hexpand, hacc, hsorted, ?_⟩
  unfold search
  rw [hexpand, Option.map_some]

end Search

/-- Seven chunks of a file, each with the same embedding. -/
def sevenChunks : Database ℚ where
  files := [⟨1, "a.py".toList, none⟩]
  chunks := (List.range 7).map fun i => ⟨i, some 1, "function", none, "", none, none, none⟩
  embeddings dims := if dims = 1 then some ((List.range 7).map fun i => ⟨i, "p", "m", 1⟩) else none
  chunkIds := by decide
  embeddingKeys dims rows h := by
    obtain ⟨-, h⟩ := Option.ite_none_right_eq_some.1 h
    obtain rfl := Option.some.inj h
    decide

/-- The last chunk is a neighbour of each, and the reranker answers with no scores. -/
def sevenServices : Services ℚ where
  db := sevenChunks
  fns := ⟨fun _ => none, fun _ => 1, fun a b => a * b⟩
  order := rank fun row => row.similarity
  orders rows := ⟨rank_perm _ rows,
    (rank_sorted (fun row : Row ℚ => row.similarity) rows).imp fun h => h⟩
  embed := some 1
  timeUp n := n = 2
  neighbors _ _ _ := some [⟨6, "", none, none⟩]
  neighbors_stored h r hr := by
    obtain rfl := Option.some.inj h
    obtain rfl := List.mem_singleton.1 hr
    decide
  rerank _ _ := some []
  sub := (· - ·)

/-- A page of two chunks. -/
def firstTwo : Args := ⟨2, 0, none, "p", "m", none, none, none⟩

/-- The search finds six chunks, and the last one in its first round. -/
theorem search_invariants_sevenServices :
    ∃ st, stateAfter sevenServices firstTwo 1 = some st ∧ st.allResults.length = 7 ∧
      Accumulated (some 500) st.allResults := by
  have hround : (stateAfter sevenServices firstTwo 1).map (·.allResults.length) = some 7 := by
    decide +kernel
  obtain ⟨st, hst, hlength⟩ := Option.map_eq_some_iff.1 hround
  exact ⟨st, hst, hlength, (search_invariants sevenServices firstTwo).1 1 st hst⟩

end ChunkHound.MultiHop
