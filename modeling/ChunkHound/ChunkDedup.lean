import Mathlib.Data.List.MinMax
import ChunkHound.OrderedDict

/-!
# Deduplicating chunks

`deduplicate_chunks` keeps the first of the best chunks of each id. `merge_chunk_lists` does so with
the new chunks, but the base chunks overwrite each other, so that it starts from the last of them.
The two are the same exactly when that last chunk is the first of the best, or a new one beats it
(`keepsBest_iff`). A chunk whose id is falsy is taken for one without an id.
-/

namespace ChunkHound.ChunkDedup

open OrderedDict

/-! ## Chunks -/

inductive ChunkId
  | int (n : ℤ)
  | str (s : String)
  deriving DecidableEq

/-- `bool(chunk_id)`. -/
def ChunkId.truthy : ChunkId → Bool
  | .int n => n ≠ 0
  | .str s => s ≠ ""

/-- `chunk_id or id`. -/
def orId (chunkId id : Option ChunkId) : Option ChunkId :=
  match chunkId with
  | none => id
  | some i => if i.truthy then some i else id

/-- A chunk dictionary : its ids, the scores it carries, and the rest. -/
structure Chunk (S : Type) where
  chunkId : Option ChunkId
  id : Option ChunkId
  scores : List (String × S)
  content : String
  deriving DecidableEq

variable {S : Type}

def getChunkId (chunk : Chunk S) : Option ChunkId := orId chunk.chunkId chunk.id

/-- How a score is read from a chunk. -/
structure Scoring (S : Type) where
  scoreField : String
  defaultScore : S
  scoreFn : Option (Chunk S → S)

def Scoring.getScore (scoring : Scoring S) : Chunk S → S :=
  match scoring.scoreFn with
  | some scoreFn => scoreFn
  | none => fun c => (c.scores.lookup scoring.scoreField).getD scoring.defaultScore

/-! ## The two routines -/

section Order

variable [LinearOrder S]

/-- The chunk for an id, of one that comes and the one that is there. -/
def betterOf (getScore : Chunk S → S) (chunk : Chunk S) : Option (Chunk S) → Chunk S
  | none => chunk
  | some existing => if getScore existing < getScore chunk then chunk else existing

/-- Enter a chunk by its id. A falsy id is skipped. -/
def enter (choose : Chunk S → Option (Chunk S) → Chunk S) (chunkMap : List (ChunkId × Chunk S))
    (chunk : Chunk S) : List (ChunkId × Chunk S) :=
  match getChunkId chunk with
  | none => chunkMap
  | some id => if id.truthy then alter (choose chunk) id chunkMap else chunkMap

def dedupMap (scoring : Scoring S) (chunkLists : List (List (Chunk S))) :
    List (ChunkId × Chunk S) :=
  chunkLists.foldl (fun chunkMap chunks =>
    chunks.foldl (enter (betterOf scoring.getScore)) chunkMap) []

def deduplicateChunks (scoring : Scoring S) (chunkLists : List (List (Chunk S))) :
    List (Chunk S) :=
  values (dedupMap scoring chunkLists)

/-- The base chunks are entered as they come, the new ones when they are better. -/
def mergeMap (scoring : Scoring S) (baseChunks newChunks : List (Chunk S)) :
    List (ChunkId × Chunk S) :=
  newChunks.foldl (enter (betterOf scoring.getScore))
    (baseChunks.foldl (enter fun chunk _ => chunk) [])

def mergeChunkLists (scoring : Scoring S) (baseChunks newChunks : List (Chunk S)) :
    List (Chunk S) :=
  values (mergeMap scoring baseChunks newChunks)

/-- One chunk for each id of the input, one of the best with that id. -/
structure KeepsBest (scoring : Scoring S) (input output : List (Chunk S)) : Prop where
  nodup : (output.map getChunkId).Nodup
  ids : ∀ id, (∃ c ∈ input, getChunkId c = some id) ↔ ∃ c ∈ output, getChunkId c = some id
  best : ∀ c ∈ output, c ∈ input ∧ ∃ id, getChunkId c = some id ∧
    ∀ c' ∈ input, getChunkId c' = some id → scoring.getScore c' ≤ scoring.getScore c

end Order

/-! ## Entering chunks -/

/-- The chunks of an id. -/
def withId (id : ChunkId) (chunks : List (Chunk S)) : List (Chunk S) :=
  chunks.filter (getChunkId · = some id)

/-- The chunks that are entered, with their ids. -/
def entries (chunks : List (Chunk S)) : List (ChunkId × Chunk S) :=
  chunks.filterMap fun chunk =>
    match getChunkId chunk with
    | none => none
    | some id => if id.truthy then some (id, chunk) else none

variable {id : ChunkId}

variable {chunks : List (Chunk S)}

theorem mem_withId {c : Chunk S} :
    c ∈ withId id chunks ↔ c ∈ chunks ∧ getChunkId c = some id := by
  simp [withId]

theorem foldl_enter (choose : Chunk S → Option (Chunk S) → Chunk S) (chunks : List (Chunk S)) :
    ∀ chunkMap, chunks.foldl (enter choose) chunkMap =
      alterAll Prod.fst (fun e => choose e.2) chunkMap (entries chunks) := by
  induction chunks with
  | nil => exact fun _ => rfl
  | cons chunk chunks ih =>
    intro chunkMap
    rw [List.foldl_cons, ih]
    unfold enter entries
    rw [List.filterMap_cons]
    cases getChunkId chunk with
    | none => rfl
    | some id => cases h : id.truthy <;> simp [h, alterAll_cons]

theorem entries_append (xs ys : List (Chunk S)) : entries (xs ++ ys) = entries xs ++ entries ys :=
  List.filterMap_append

theorem mem_entries {c : Chunk S} :
    (id, c) ∈ entries chunks ↔ c ∈ chunks ∧ getChunkId c = some id ∧ id.truthy = true := by
  unfold entries
  rw [List.mem_filterMap]
  constructor
  · rintro ⟨c', hc', h⟩
    cases hid : getChunkId c' with
    | none => simp [hid] at h
    | some i =>
      simp only [hid, Option.ite_none_right_eq_some, Option.some.injEq, Prod.mk.injEq] at h
      obtain ⟨htruthy, rfl, rfl⟩ := h
      exact ⟨hc', hid, htruthy⟩
  · rintro ⟨hc, hid, htruthy⟩
    exact ⟨c, hc, by simp [hid, htruthy]⟩

/-- The entries of an id are its chunks. -/
theorem filter_entries (h : id.truthy = true) (chunks : List (Chunk S)) :
    (entries chunks).filter (·.1 = id) = (withId id chunks).map fun c => (id, c) := by
  induction chunks with
  | nil => rfl
  | cons chunk chunks ih =>
    unfold entries withId at ih ⊢
    rw [List.filterMap_cons, List.filter_cons]
    cases hid : getChunkId chunk with
    | none => simpa using ih
    | some i =>
      by_cases hi : i = id
      · subst hi
        simpa [h] using ih
      · cases htruthy : i.truthy <;> simpa [htruthy, hi] using ih

/-- The chunk of an id is what its chunks choose. -/
theorem lookup_alterAll_entries (choose : Chunk S → Option (Chunk S) → Chunk S)
    (h : id.truthy = true) (chunks : List (Chunk S)) (chunkMap : List (ChunkId × Chunk S)) :
    (alterAll Prod.fst (fun e => choose e.2) chunkMap (entries chunks)).lookup id =
      (withId id chunks).foldl (fun v c => some (choose c v)) (chunkMap.lookup id) := by
  rw [lookup_alterAll, filter_entries h, List.foldl_map]

/-- The last chunk stays. -/
theorem foldl_last (chunks : List (Chunk S)) : ∀ first : Option (Chunk S),
    chunks.foldl (fun _ c => some c) first = chunks.getLast?.or first := by
  induction chunks using List.reverseRecOn with
  | nil => exact fun _ => rfl
  | append_singleton chunks c _ =>
    intro first
    rw [List.foldl_append, List.getLast?_concat]
    rfl

section Order

variable [LinearOrder S]

/-- Choosing the better chunk finds the first of the best. -/
theorem foldl_betterOf (getScore : Chunk S → S) (first : Option (Chunk S))
    (chunks : List (Chunk S)) :
    chunks.foldl (fun v c => some (betterOf getScore c v)) first =
      (first.toList ++ chunks).argmax getScore := by
  have hstep : (fun v c => some (betterOf getScore c v)) =
      List.argAux fun b c : Chunk S => getScore c < getScore b := by
    funext v c
    cases v with
    | none => rfl
    | some existing => exact apply_ite some (getScore existing < getScore c) c existing
  rw [hstep]
  cases first <;> rfl

theorem dedupMap_eq (scoring : Scoring S) (chunkLists : List (List (Chunk S))) :
    dedupMap scoring chunkLists =
      alterAll Prod.fst (fun e => betterOf scoring.getScore e.2) []
        (entries chunkLists.flatten) := by
  rw [← foldl_enter, List.foldl_flatten]
  rfl

theorem mergeMap_eq (scoring : Scoring S) (base new : List (Chunk S)) :
    mergeMap scoring base new =
      alterAll Prod.fst (fun e => betterOf scoring.getScore e.2)
        (alterAll Prod.fst (fun e _ => e.2) [] (entries base)) (entries new) := by
  rw [← foldl_enter, ← foldl_enter fun chunk _ => chunk]
  rfl

variable {id : ChunkId}

theorem lookup_dedupMap (scoring : Scoring S) (h : id.truthy = true)
    (chunkLists : List (List (Chunk S))) :
    (dedupMap scoring chunkLists).lookup id =
      (withId id chunkLists.flatten).argmax scoring.getScore := by
  rw [dedupMap_eq, lookup_alterAll_entries _ h, foldl_betterOf]
  rfl

theorem lookup_mergeMap (scoring : Scoring S) (h : id.truthy = true) (base new : List (Chunk S)) :
    (mergeMap scoring base new).lookup id =
      ((withId id base).getLast?.toList ++ withId id new).argmax scoring.getScore := by
  rw [mergeMap_eq, lookup_alterAll_entries _ h, foldl_betterOf,
    lookup_alterAll_entries (fun chunk _ => chunk) h, foldl_last]
  cases (withId id base).getLast? <;> rfl

/-- The ids come in the same order. -/
theorem keys_mergeMap (scoring : Scoring S) (base new : List (Chunk S)) :
    keys (mergeMap scoring base new) = keys (dedupMap scoring [base, new]) := by
  have hflatten : [base, new].flatten = base ++ new := by simp
  rw [mergeMap_eq, dedupMap_eq, hflatten, entries_append, alterAll_append]
  exact keys_alterAll_congr _ _ (keys_alterAll_congr _ _ rfl)

theorem nodup_keys_dedupMap (scoring : Scoring S) (chunkLists : List (List (Chunk S))) :
    (keys (dedupMap scoring chunkLists)).Nodup := by
  rw [dedupMap_eq]
  exact nodup_keys_alterAll _ _ List.nodup_nil

variable {chunkLists : List (List (Chunk S))} {scoring : Scoring S}

/-- A falsy id is not a key. -/
theorem truthy_of_mem_keys (h : id ∈ keys (dedupMap scoring chunkLists)) : id.truthy = true := by
  rw [dedupMap_eq, mem_keys_alterAll] at h
  obtain h | ⟨⟨i, c⟩, hmem, rfl⟩ := h
  · exact nomatch h
  · exact (mem_entries.1 hmem).2.2

theorem lookup_dedupMap_eq_some_iff {c : Chunk S} :
    (dedupMap scoring chunkLists).lookup id = some c ↔
      id.truthy = true ∧ (withId id chunkLists.flatten).argmax scoring.getScore = some c := by
  constructor
  · intro h
    have htruthy := truthy_of_mem_keys (mem_keys_iff.2 ⟨c, h⟩)
    exact ⟨htruthy, lookup_dedupMap scoring htruthy chunkLists ▸ h⟩
  · rintro ⟨htruthy, h⟩
    rwa [lookup_dedupMap scoring htruthy]

theorem mem_deduplicateChunks {c : Chunk S} : c ∈ deduplicateChunks scoring chunkLists ↔
      ∃ id : ChunkId, id.truthy = true ∧
        (withId id chunkLists.flatten).argmax scoring.getScore = some c := by
  unfold deduplicateChunks
  rw [mem_values_iff (nodup_keys_dedupMap scoring chunkLists)]
  exact exists_congr fun id => lookup_dedupMap_eq_some_iff

theorem map_getChunkId_deduplicateChunks (scoring : Scoring S)
    (chunkLists : List (List (Chunk S))) :
    (deduplicateChunks scoring chunkLists).map getChunkId =
      (keys (dedupMap scoring chunkLists)).map some := by
  unfold deduplicateChunks values keys
  rw [List.map_map, List.map_map]
  refine List.map_congr_left fun e he => ?_
  have hlookup := (lookup_eq_some_iff (nodup_keys_dedupMap scoring chunkLists)).2 he
  exact (mem_withId.1 (List.argmax_mem (lookup_dedupMap_eq_some_iff.1 hlookup).2)).2

/-! ## The best chunks -/

variable {α : Type}

theorem exists_argmax (f : α → S) {a : α} {l : List α} (h : a ∈ l) :
    ∃ b, l.argmax f = some b :=
  Option.ne_none_iff_exists'.1 fun hnone => List.ne_nil_of_mem h (List.argmax_eq_none.1 hnone)

/-- Every id that is found is truthy. -/
def IdsTruthy (chunks : List (Chunk S)) : Prop :=
  ∀ c ∈ chunks, ∀ id, getChunkId c = some id → id.truthy = true

/-- Deduplicating keeps the best, for chunks whose ids are truthy. -/
theorem keepsBest_deduplicateChunks_iff (scoring : Scoring S)
    (chunkLists : List (List (Chunk S))) :
    KeepsBest scoring chunkLists.flatten (deduplicateChunks scoring chunkLists) ↔
      IdsTruthy chunkLists.flatten := by
  constructor
  · intro h c hc id hid
    obtain ⟨c', hc', hid'⟩ := (h.ids id).1 ⟨c, hc, hid⟩
    obtain ⟨i, htruthy, hi⟩ := mem_deduplicateChunks.1 hc'
    obtain rfl : i = id :=
      Option.some.inj ((mem_withId.1 (List.argmax_mem hi)).2.symm.trans hid')
    exact htruthy
  · intro h
    refine ⟨?_, fun id => ⟨?_, ?_⟩, fun c hc => ?_⟩
    · rw [map_getChunkId_deduplicateChunks]
      exact (nodup_keys_dedupMap scoring chunkLists).map (Option.some_injective _)
    · rintro ⟨c, hc, hid⟩
      obtain ⟨best, hbest⟩ := exists_argmax scoring.getScore (mem_withId.2 ⟨hc, hid⟩)
      exact ⟨best, mem_deduplicateChunks.2 ⟨id, h c hc id hid, hbest⟩,
        (mem_withId.1 (List.argmax_mem hbest)).2⟩
    · rintro ⟨c, hc, hid⟩
      obtain ⟨i, -, hi⟩ := mem_deduplicateChunks.1 hc
      exact ⟨c, (mem_withId.1 (List.argmax_mem hi)).1, hid⟩
    · obtain ⟨i, -, hi⟩ := mem_deduplicateChunks.1 hc
      obtain ⟨hmem, hid⟩ := mem_withId.1 (List.argmax_mem hi)
      exact ⟨hmem, i, hid, fun c' hc' hid' => List.le_of_mem_argmax (mem_withId.2 ⟨hc', hid'⟩) hi⟩

/-- The last base chunk of an id is its first best one, or a new chunk takes its place. -/
def LastIsBest (scoring : Scoring S) (base new : List (Chunk S)) : Prop :=
  ∀ id, ∀ last ∈ (withId id base).getLast?, ∀ b ∈ (withId id base).argmax scoring.getScore,
    last = b ∨ ∃ n ∈ (withId id new).argmax scoring.getScore,
      scoring.getScore b < scoring.getScore n ∨
        n = b ∧ scoring.getScore last < scoring.getScore n

/-- Two heads leave the same best, when the second is at least as good. -/
theorem argmax_cons_eq_iff {f : α → S} {a b : α} {l : List α} (h : f a ≤ f b) :
    (a :: l).argmax f = (b :: l).argmax f ↔
      a = b ∨ ∃ n ∈ l.argmax f, f b < f n ∨ n = b ∧ f a < f n := by
  rw [List.argmax_cons, List.argmax_cons]
  cases l.argmax f with
  | none => simp
  | some n =>
    simp only [Option.mem_some_iff, exists_eq_left']
    by_cases hb : f b < f n
    · simp [hb, h.trans_lt hb]
    · by_cases ha : f a < f n
      · have hne : a ≠ b := fun heq => hb (heq ▸ ha)
        simp [hb, ha, hne]
      · simp [hb, ha]

theorem argmax_append {f : α → S} {b : α} {xs : List α} (h : xs.argmax f = some b)
    (ys : List α) : (xs ++ ys).argmax f = (b :: ys).argmax f := by
  unfold List.argmax at h ⊢
  rw [List.foldl_append, h]
  rfl

theorem lookup_mergeMap_eq_iff (scoring : Scoring S) (h : id.truthy = true)
    (base new : List (Chunk S)) :
    (mergeMap scoring base new).lookup id = (dedupMap scoring [base, new]).lookup id ↔
      ∀ last ∈ (withId id base).getLast?, ∀ b ∈ (withId id base).argmax scoring.getScore,
        last = b ∨ ∃ n ∈ (withId id new).argmax scoring.getScore,
          scoring.getScore b < scoring.getScore n ∨
            n = b ∧ scoring.getScore last < scoring.getScore n := by
  have hflatten : withId id [base, new].flatten = withId id base ++ withId id new := by
    simp [withId]
  rw [lookup_mergeMap scoring h, lookup_dedupMap scoring h, hflatten]
  cases hlast : (withId id base).getLast? with
  | none =>
    rw [List.getLast?_eq_none_iff.1 hlast]
    simp
  | some last =>
    have hmem : last ∈ withId id base := List.mem_of_getLast? hlast
    obtain ⟨b, hb⟩ := exists_argmax scoring.getScore hmem
    rw [argmax_append hb, hb]
    simp only [Option.mem_some_iff, forall_eq']
    exact argmax_cons_eq_iff (List.le_of_mem_argmax hmem hb)

/-- Merging is deduplicating when the last base chunks are the best. -/
theorem mergeChunkLists_eq_iff {base new : List (Chunk S)} (h : IdsTruthy (base ++ new)) :
    mergeChunkLists scoring base new = deduplicateChunks scoring [base, new] ↔
      LastIsBest scoring base new := by
  have hnodup := nodup_keys_dedupMap scoring [base, new]
  have hmaps : mergeChunkLists scoring base new = deduplicateChunks scoring [base, new] ↔
      mergeMap scoring base new = dedupMap scoring [base, new] :=
    ⟨ext_values (keys_mergeMap scoring base new), fun h => congrArg values h⟩
  rw [hmaps]
  constructor
  · intro heq id last hlast b hb
    obtain ⟨hmem, hid⟩ := mem_withId.1 (List.mem_of_getLast? hlast)
    have htruthy := h last (List.mem_append_left new hmem) id hid
    exact (lookup_mergeMap_eq_iff scoring htruthy base new).1 (by rw [heq]) last hlast b hb
  · intro hlast
    refine ext_lookup (keys_mergeMap scoring base new ▸ hnodup) (keys_mergeMap scoring base new)
      fun id => ?_
    by_cases hid : id ∈ keys (dedupMap scoring [base, new])
    · exact (lookup_mergeMap_eq_iff scoring (truthy_of_mem_keys hid) base new).2 (hlast id)
    · rw [lookup_eq_none_iff.2 hid, lookup_eq_none_iff.2 (keys_mergeMap scoring base new ▸ hid)]

/-- The two routines keep the best chunks and agree, exactly when every id is truthy and the last
base chunk of each id is its first best one or makes place for a new one. -/
theorem keepsBest_iff (scoring : Scoring S) (chunkLists : List (List (Chunk S)))
    (base new : List (Chunk S)) :
    (KeepsBest scoring chunkLists.flatten (deduplicateChunks scoring chunkLists) ∧
        KeepsBest scoring (base ++ new) (mergeChunkLists scoring base new) ∧
        mergeChunkLists scoring base new = deduplicateChunks scoring [base, new]) ↔
      IdsTruthy chunkLists.flatten ∧ IdsTruthy (base ++ new) ∧ LastIsBest scoring base new := by
  have hflatten : [base, new].flatten = base ++ new := by simp
  have hpair := keepsBest_deduplicateChunks_iff scoring [base, new]
  rw [hflatten] at hpair
  rw [keepsBest_deduplicateChunks_iff]
  refine and_congr_right fun _ => ?_
  constructor
  · rintro ⟨hbest, heq⟩
    have htruthy := hpair.1 (heq ▸ hbest)
    exact ⟨htruthy, (mergeChunkLists_eq_iff htruthy).1 heq⟩
  · rintro ⟨htruthy, hlast⟩
    have heq : mergeChunkLists scoring base new = deduplicateChunks scoring [base, new] :=
      (mergeChunkLists_eq_iff htruthy).2 hlast
    exact ⟨heq ▸ hpair.2 htruthy, heq⟩

end Order

/-- A chunk with the id 7. -/
def scored (score : ℕ) : Chunk ℕ := ⟨none, some (.int 7), [("rerank_score", score)], "def f(): ..."⟩

/-- A worse base chunk that comes last takes the place of the better one. -/
theorem not_keepsBest_mergeChunkLists :
    ¬ KeepsBest ⟨"rerank_score", 0, none⟩ ([scored 9, scored 3] ++ [])
      (mergeChunkLists ⟨"rerank_score", 0, none⟩ [scored 9, scored 3] []) := by
  intro h
  obtain ⟨-, id, hid, hbest⟩ := h.best (scored 3) (by decide)
  exact absurd (hbest (scored 9) (by decide) hid) (by decide)

end ChunkHound.ChunkDedup
