import ChunkHound.Grouping
import ChunkHound.Slices

/-!
# Embedding one batch in parallel

`embed_batch_parallel` of `pipeline.rs` : the targets of a batch of parsed files are cut into
sub-batches, each sub-batch is one call of the provider, and what the calls return is collected
under two locks, vectors under one and errors under the other, in the order the calls end. The
vectors are then written to the chunks their indices name.

The reply to a call is any list of slots, of any length, or an error. The order in which calls
end, and that of the map `format_batch_errors` counts with, are `AnyOrder`s.
-/

namespace ChunkHound.ParallelEmbedding

open Grouping

/-- An order that the source leaves open. -/
structure AnyOrder (α : Type*) where
  arrange : List α → List α
  perm : ∀ l, (arrange l).Perm l

/-- What the stage reads and writes of a chunk. -/
structure NewChunk (ν : Type*) where
  code : String
  embedText : Option String
  embedding : Option ν
  provider : Option String
  model : Option String

structure ParsedFile (ν : Type*) where
  path : String
  chunks : List (NewChunk ν)
  error : Option String

/-- `EmbedBatchResult`. -/
structure EmbedBatchResult (ν : Type*) where
  vectors : List (Option ν)
  errors : List String

/-- The reply to one call. -/
abbrev Reply (ν : Type*) := Except String (EmbedBatchResult ν)

/-- The number of a file and of one of its chunks. -/
abbrev ChunkIndex := ℕ × ℕ

abbrev Target := ChunkIndex × String

structure EmbedBatchOutcome (ν : Type*) where
  parsed : List (ParsedFile ν)
  embedded : ℕ
  errors : List String

variable {ν : Type*}

/-! ## The stage -/

def NewChunk.text (ch : NewChunk ν) : String := ch.embedText.getD ch.code

/-- The targets of one file, numbered `fi`. -/
def fileTargets (pf : ParsedFile ν) (fi : ℕ) : List Target :=
  if pf.error.isSome then [] else pf.chunks.zipIdx.map fun (ch, ci) => ((fi, ci), ch.text)

/-- `embed_targets`. -/
def embedTargets (parsed : List (ParsedFile ν)) : List Target :=
  parsed.zipIdx.flatMap fun (pf, fi) => fileTargets pf fi

/-- `per_file`, the number of indices of each file. -/
def perFile (indices : List ChunkIndex) : List (ℕ × ℕ) :=
  indices.foldl (fun d k => OrderedDict.alter (fun n => n.getD 0 + 1) k.1 d) []

def errorLine (path : String) (count : ℕ) (reason : String) : String :=
  s!"{path}: embedding failed for {count} chunk(s): {reason}"

/-- The path of the file numbered `fi`. -/
def pathOf (filePaths : List String) (fi : ℕ) : String := (filePaths[fi]?).getD "<unknown>"

def formatBatchErrors (order : AnyOrder (ℕ × ℕ)) (indices : List ChunkIndex)
    (filePaths : List String) (reason : String) : List String :=
  (order.arrange (perFile indices)).map fun (fi, count) =>
    errorLine (pathOf filePaths fi) count reason

/-- The reason for the chunks that got no vector. -/
def shortReason (result : EmbedBatchResult ν) (batchLen : ℕ) : String :=
  let returned := (result.vectors.filter Option.isSome).length
  let reason := s!"provider returned {returned} vector(s) for {batchLen} requested"
  let joined := "; ".intercalate result.errors
  if result.errors = [] then reason else s!"{reason} ({joined})"

/-- `embed_result.vectors.get(i)`, when there is a vector. -/
def slot (result : EmbedBatchResult ν) (i : ℕ) : Option ν := (result.vectors[i]?).join

/-- One sub-batch : the vectors with the chunks they belong to, and the errors. -/
def embedSubBatch (order : AnyOrder (ℕ × ℕ)) (filePaths : List String) (batch : List Target)
    (reply : Reply ν) : List (ChunkIndex × ν) × List String :=
  let indices := batch.map Prod.fst
  match reply with
  | .ok result =>
    let batchResults := indices.zipIdx.filterMap fun (k, i) => (slot result i).map (k, ·)
    let missing := indices.zipIdx.filterMap fun (k, i) =>
      if (slot result i).isSome then none else some k
    (batchResults, if missing = [] then []
      else formatBatchErrors order missing filePaths (shortReason result batch.length))
  | .error e => ([], formatBatchErrors order indices filePaths e)

section Apply

variable (provider model : String)

def NewChunk.withEmbedding (vec : ν) (ch : NewChunk ν) : NewChunk ν :=
  { ch with embedding := some vec, provider := some provider, model := some model }

/-- `parsed[fi].chunks[ci]` gets its vector. The indices are those of chunks of the batch. -/
def applyEmbedding (parsed : List (ParsedFile ν)) (result : ChunkIndex × ν) :
    List (ParsedFile ν) :=
  parsed.modify result.1.1 fun pf =>
    { pf with chunks := pf.chunks.modify result.1.2 (·.withEmbedding provider model result.2) }

end Apply

/-- What is open about the schedule : the orders in which the calls take the two locks, and
that of the map of each call. -/
structure Schedule (ν : Type*) where
  results : AnyOrder (List (ChunkIndex × ν))
  errors : AnyOrder (List String)
  perFile : ℕ → AnyOrder (ℕ × ℕ)

section Stage

variable (schedule : Schedule ν) (embedBatchSize : ℕ) (parsed : List (ParsedFile ν))
  (targets : List Target) (embedBatch : ℕ → List String → Reply ν) (provider model : String)

/-- `par_chunks`. -/
def subBatches : List (List Target) := Slices.slices (max embedBatchSize 1) targets

/-- What the sub-batches give, by their number. -/
def subOutcomes : List (List (ChunkIndex × ν) × List String) :=
  (subBatches embedBatchSize targets).zipIdx.map fun (batch, n) =>
    embedSubBatch (schedule.perFile n) (parsed.map ParsedFile.path) batch
      (embedBatch n (batch.map Prod.snd))

/-- `embed_batch_parallel`. `embedBatch n` answers the call of the `n`-th sub-batch. -/
def embedBatchParallel : EmbedBatchOutcome ν :=
  let outcomes := subOutcomes schedule embedBatchSize parsed targets embedBatch
  let results := (schedule.results.arrange (outcomes.map Prod.fst)).flatten
  { parsed := results.foldl (applyEmbedding provider model) parsed
    embedded := results.length
    errors := (schedule.errors.arrange (outcomes.map Prod.snd)).flatten }

end Stage

/-! ## Writing the vectors -/

/-- The chunk with an index. -/
def chunkAt (parsed : List (ParsedFile ν)) (k : ChunkIndex) : Option (NewChunk ν) :=
  (parsed[k.1]?).bind fun pf => pf.chunks[k.2]?

section Apply

variable {provider model : String}

theorem chunkAt_applyEmbedding (parsed : List (ParsedFile ν)) (result : ChunkIndex × ν)
    (k : ChunkIndex) :
    chunkAt (applyEmbedding provider model parsed result) k =
      if result.1 = k then (chunkAt parsed k).map (·.withEmbedding provider model result.2)
      else chunkAt parsed k := by
  obtain ⟨⟨fi, ci⟩, vec⟩ := result
  obtain ⟨fi', ci'⟩ := k
  unfold chunkAt applyEmbedding
  rw [List.getElem?_modify]
  cases hpf : parsed[fi']? with
  | none => simp
  | some pf =>
    by_cases hfi : fi = fi'
    · by_cases hci : ci = ci'
      · simp [hfi, hci]
      · simp [hfi, hci]
    · simp [hfi]

/-- A chunk without a vector stays as it was. -/
theorem chunkAt_foldl_of_notMem : ∀ (results : List (ChunkIndex × ν))
    (parsed : List (ParsedFile ν)) {k : ChunkIndex}, k ∉ results.map Prod.fst →
      chunkAt (results.foldl (applyEmbedding provider model) parsed) k = chunkAt parsed k
  | [], parsed, k, _ => rfl
  | result :: results, parsed, k, h => by
    rw [List.map_cons, List.mem_cons, not_or] at h
    rw [List.foldl_cons, chunkAt_foldl_of_notMem results _ h.2, chunkAt_applyEmbedding,
      if_neg (Ne.symm h.1)]

/-- Of results for distinct chunks, each is what its chunk gets. -/
theorem chunkAt_foldl_of_mem : ∀ (results : List (ChunkIndex × ν))
    (parsed : List (ParsedFile ν)) {k : ChunkIndex} {vec : ν}, (results.map Prod.fst).Nodup →
      (k, vec) ∈ results →
      chunkAt (results.foldl (applyEmbedding provider model) parsed) k =
        (chunkAt parsed k).map (·.withEmbedding provider model vec)
  | result :: results, parsed, k, vec, hnodup, h => by
    rw [List.map_cons, List.nodup_cons] at hnodup
    rw [List.foldl_cons]
    rcases List.mem_cons.1 h with rfl | h
    · rw [chunkAt_foldl_of_notMem results _ hnodup.1, chunkAt_applyEmbedding, if_pos rfl]
    · have hne : result.1 ≠ k := by
        rintro rfl
        exact hnodup.1 (List.mem_map.2 ⟨_, h, rfl⟩)
      rw [chunkAt_foldl_of_mem results _ hnodup.2 h, chunkAt_applyEmbedding, if_neg hne]

end Apply

/-! ## The targets -/

theorem mem_embedTargets {parsed : List (ParsedFile ν)} {t : Target} :
    t ∈ embedTargets parsed ↔ ∃ pf ch, parsed[t.1.1]? = some pf ∧ pf.error = none ∧
      pf.chunks[t.1.2]? = some ch ∧ t.2 = ch.text := by
  obtain ⟨⟨fi, ci⟩, text⟩ := t
  constructor
  · intro h
    obtain ⟨⟨pf, n⟩, hpf, ht⟩ := List.mem_flatMap.1 h
    rw [List.mem_zipIdx_iff_getElem?] at hpf
    unfold fileTargets at ht
    cases herror : pf.error with
    | some e => simp [herror] at ht
    | none =>
      simp only [herror, Option.isSome_none, Bool.false_eq_true, if_false] at ht
      obtain ⟨⟨ch, m⟩, hch, heq⟩ := List.mem_map.1 ht
      rw [List.mem_zipIdx_iff_getElem?] at hch
      simp only [Prod.mk.injEq] at heq
      obtain ⟨⟨rfl, rfl⟩, rfl⟩ := heq
      exact ⟨pf, ch, hpf, herror, hch, rfl⟩
  · rintro ⟨pf, ch, hpf, herror, hch, htext⟩
    refine List.mem_flatMap.2 ⟨(pf, fi), List.mem_zipIdx_iff_getElem?.2 hpf, ?_⟩
    unfold fileTargets
    simp only [herror, Option.isSome_none, Bool.false_eq_true, if_false]
    exact List.mem_map.2 ⟨(ch, ci), List.mem_zipIdx_iff_getElem?.2 hch, by
      dsimp only at htext ⊢
      rw [htext]⟩

theorem nodup_fileTargets (pf : ParsedFile ν) (fi : ℕ) :
    ((fileTargets pf fi).map Prod.fst).Nodup := by
  unfold fileTargets
  split
  · exact List.nodup_nil
  · rw [List.map_map]
    have hmap : ∀ n, (pf.chunks.zipIdx n).map (Prod.fst ∘ fun (ch, ci) => ((fi, ci), ch.text)) =
        (List.range' n pf.chunks.length).map (Prod.mk fi) := by
      intro n
      rw [← List.zipIdx_map_snd, List.map_map]
      rfl
    rw [hmap]
    exact List.Nodup.map (fun a b h => (Prod.mk.inj h).2) List.nodup_range'

/-- No chunk is a target twice. -/
theorem nodup_embedTargets (parsed : List (ParsedFile ν)) :
    ((embedTargets parsed).map Prod.fst).Nodup := by
  unfold embedTargets
  rw [List.map_flatMap, List.nodup_flatMap]
  refine ⟨fun p _ => nodup_fileTargets p.1 p.2, ?_⟩
  have hsnd : (parsed.zipIdx.map Prod.snd).Nodup := by
    rw [List.zipIdx_map_snd]
    exact List.nodup_range'
  refine (List.pairwise_map.1 hsnd).imp ?_
  intro p q hne
  refine List.disjoint_left.2 fun k hp hq => hne ?_
  have hfile : ∀ r : ParsedFile ν × ℕ, k ∈ (fileTargets r.1 r.2).map Prod.fst → k.1 = r.2 := by
    intro r hr
    unfold fileTargets at hr
    split at hr
    · simp at hr
    · obtain ⟨t, ht, rfl⟩ := List.mem_map.1 hr
      obtain ⟨c, -, rfl⟩ := List.mem_map.1 ht
      rfl
  exact (hfile p hp).symm.trans (hfile q hq)

/-! ## What the calls return -/

/-- The vector a reply has for the `i`-th text. -/
def received (reply : Reply ν) (i : ℕ) : Option ν :=
  match reply with
  | .ok result => slot result i
  | .error _ => none

/-- The targets of one sub-batch, with what they get. -/
def slots (batch : List Target) (reply : Reply ν) : List (ChunkIndex × Option ν) :=
  (batch.map Prod.fst).zipIdx.map fun (k, i) => (k, received reply i)

/-- The slots that hold a vector. -/
def filled (ss : List (ChunkIndex × Option ν)) : List (ChunkIndex × ν) :=
  ss.filterMap fun (k, vec) => vec.map (k, ·)

/-- The chunks of the slots that hold none. -/
def missing (ss : List (ChunkIndex × Option ν)) : List ChunkIndex :=
  ss.filterMap fun (k, vec) => if vec.isSome then none else some k

theorem slots_map_fst (batch : List Target) (reply : Reply ν) :
    (slots batch reply).map Prod.fst = batch.map Prod.fst := by
  rw [slots, List.map_map]
  exact List.zipIdx_map_fst 0 (batch.map Prod.fst)

theorem mem_slots {batch : List Target} {reply : Reply ν} {k : ChunkIndex} {vec : Option ν} :
    (k, vec) ∈ slots batch reply ↔
      ∃ i t, batch[i]? = some t ∧ t.1 = k ∧ received reply i = vec := by
  unfold slots
  rw [List.mem_map]
  constructor
  · rintro ⟨⟨k', i⟩, hmem, heq⟩
    rw [List.mem_zipIdx_iff_getElem?, List.getElem?_map, Option.map_eq_some_iff] at hmem
    obtain ⟨t, ht, hk⟩ := hmem
    simp only [Prod.mk.injEq] at heq
    exact ⟨i, t, ht, hk.trans heq.1, heq.2⟩
  · rintro ⟨i, t, ht, rfl, rfl⟩
    refine ⟨(t.1, i), ?_, rfl⟩
    rw [List.mem_zipIdx_iff_getElem?, List.getElem?_map, ht]
    rfl

theorem length_filled_add_missing : ∀ ss : List (ChunkIndex × Option ν),
    (filled ss).length + (missing ss).length = ss.length
  | [] => rfl
  | (k, none) :: ss => by
    have ih := length_filled_add_missing ss
    have hfilled : filled ((k, none) :: ss) = filled ss := rfl
    have hmissing : missing ((k, none) :: ss) = k :: missing ss := rfl
    rw [hfilled, hmissing, List.length_cons, List.length_cons]
    omega
  | (k, some vec) :: ss => by
    have ih := length_filled_add_missing ss
    have hfilled : filled ((k, some vec) :: ss) = (k, vec) :: filled ss := rfl
    have hmissing : missing ((k, some vec) :: ss) = missing ss := rfl
    rw [hfilled, hmissing, List.length_cons, List.length_cons]
    omega

theorem filled_map_fst_sublist : ∀ ss : List (ChunkIndex × Option ν),
    ((filled ss).map Prod.fst).Sublist (ss.map Prod.fst)
  | [] => List.Sublist.refl _
  | (k, none) :: ss => (filled_map_fst_sublist ss).cons k
  | (k, some _) :: ss => (filled_map_fst_sublist ss).cons_cons k

theorem missing_sublist : ∀ ss : List (ChunkIndex × Option ν),
    (missing ss).Sublist (ss.map Prod.fst)
  | [] => List.Sublist.refl _
  | (k, none) :: ss => (missing_sublist ss).cons_cons k
  | (k, some _) :: ss => (missing_sublist ss).cons k

theorem mem_filled {ss : List (ChunkIndex × Option ν)} {k : ChunkIndex} {vec : ν} :
    (k, vec) ∈ filled ss ↔ (k, some vec) ∈ ss := by
  unfold filled
  rw [List.mem_filterMap]
  constructor
  · rintro ⟨⟨k', v⟩, hmem, heq⟩
    obtain ⟨w, rfl, hw⟩ := Option.map_eq_some_iff.1 heq
    simp only [Prod.mk.injEq] at hw
    obtain ⟨rfl, rfl⟩ := hw
    exact hmem
  · intro h
    exact ⟨(k, some vec), h, rfl⟩

theorem embedSubBatch_results (order : AnyOrder (ℕ × ℕ)) (filePaths : List String)
    (batch : List Target) (reply : Reply ν) :
    (embedSubBatch order filePaths batch reply).1 = filled (slots batch reply) := by
  unfold filled slots
  rw [List.filterMap_map]
  cases reply with
  | ok result => rfl
  | error e =>
    symm
    exact List.filterMap_eq_nil_iff.2 fun p _ => rfl

/-! ## What the errors count -/

/-- An error that counts the chunks `group`, all of one file. -/
def CountsFile (filePaths : List String) (error : String) (group : List ChunkIndex) : Prop :=
  group ≠ [] ∧ ∃ fi reason, (∀ k ∈ group, k.1 = fi) ∧
    error = errorLine (pathOf filePaths fi) group.length reason

/-- The errors count the chunks, each in one error. -/
def CountsOnce (filePaths : List String) (errors : List String) (chunks : List ChunkIndex) :
    Prop :=
  ∃ groups, List.Forall₂ (CountsFile filePaths) errors groups ∧ groups.flatten.Perm chunks

theorem perFile_eq (indices : List ChunkIndex) :
    perFile indices = (groupBy Prod.fst indices).map fun g => (g.1, g.2.length) := by
  have halter : ∀ (k : ℕ) (x : ChunkIndex) (d : List (ℕ × List ChunkIndex)),
      OrderedDict.alter (fun n => n.getD 0 + 1) k (d.map fun g => (g.1, g.2.length)) =
        (appendTo k x d).map fun g => (g.1, g.2.length) := by
    intro k x d
    induction d with
    | nil => rfl
    | cons g d ih =>
      unfold OrderedDict.alter appendTo
      rw [List.map_cons]
      by_cases hk : g.1 = k
      · simp [hk]
      · simp [hk, ih]
  induction indices using List.reverseRecOn with
  | nil => rfl
  | append_singleton indices x ih =>
    rw [groupBy_append, ← halter, ← ih, perFile, List.foldl_append]
    rfl

theorem CountsOnce.nil (filePaths : List String) : CountsOnce filePaths [] [] :=
  ⟨[], .nil, .refl _⟩

variable {filePaths errors errors' : List String}

theorem CountsOnce.append
    {chunks chunks' : List ChunkIndex} (h : CountsOnce filePaths errors chunks)
    (h' : CountsOnce filePaths errors' chunks') :
    CountsOnce filePaths (errors ++ errors') (chunks ++ chunks') := by
  obtain ⟨groups, hcounts, hperm⟩ := h
  obtain ⟨groups', hcounts', hperm'⟩ := h'
  refine ⟨groups ++ groups', List.rel_append hcounts hcounts', ?_⟩
  rw [List.flatten_append]
  exact hperm.append hperm'

theorem CountsOnce.perm {chunks : List ChunkIndex}
    (h : CountsOnce filePaths errors chunks) (hperm : errors'.Perm errors) :
    CountsOnce filePaths errors' chunks := by
  obtain ⟨groups, hcounts, hgroups⟩ := h
  obtain ⟨groups', hcounts', hperm'⟩ := List.perm_comp_forall₂ hperm hcounts
  exact ⟨groups', hcounts', hperm'.flatten.trans hgroups⟩

/-- Whatever the order of the map, its lines count every index once. -/
theorem countsOnce_formatBatchErrors (order : AnyOrder (ℕ × ℕ)) (indices : List ChunkIndex)
    (filePaths : List String) (reason : String) :
    CountsOnce filePaths (formatBatchErrors order indices filePaths reason) indices := by
  have hlines : CountsOnce filePaths ((perFile indices).map fun (fi, count) =>
      errorLine (pathOf filePaths fi) count reason) indices := by
    refine ⟨(groupBy Prod.fst indices).map Prod.snd, ?_, ?_⟩
    · rw [perFile_eq, List.map_map, List.forall₂_map_left_iff, List.forall₂_map_right_iff]
      refine List.forall₂_same.2 fun g hg => ⟨ne_nil_of_mem_groupBy _ _ g hg, g.1, reason, ?_, rfl⟩
      intro k hk
      have hnodup := nodup_keysOf_groupBy Prod.fst indices
      have hvalues : valuesOf (groupBy Prod.fst indices) g.1 = g.2 := by
        unfold valuesOf
        rw [(OrderedDict.lookup_eq_some_iff hnodup).2 hg]
        rfl
      rw [← hvalues, valuesOf_groupBy, List.mem_filter] at hk
      simpa using hk.2
    · rw [← List.flatMap_def]
      exact flatMap_groupBy_perm Prod.fst indices
  exact hlines.perm ((order.perm _).map _)

/-- A call that fails leaves every chunk of its sub-batch without a vector. -/
theorem missing_slots_error (batch : List Target) (e : String) :
    missing (slots (ν := ν) batch (.error e)) = batch.map Prod.fst := by
  have hnone : ∀ ss : List (ChunkIndex × Option ν), (∀ s ∈ ss, s.2 = none) →
      missing ss = ss.map Prod.fst := by
    intro ss h
    rw [missing, ← List.filterMap_eq_map]
    refine List.filterMap_congr fun s hs => ?_
    simp [h s hs]
  rw [hnone, slots_map_fst]
  intro s hs
  obtain ⟨i, t, -, -, hvec⟩ := mem_slots.1 hs
  exact hvec.symm

theorem countsOnce_embedSubBatch (order : AnyOrder (ℕ × ℕ)) (filePaths : List String)
    (batch : List Target) (reply : Reply ν) :
    CountsOnce filePaths (embedSubBatch order filePaths batch reply).2
      (missing (slots batch reply)) := by
  cases reply with
  | ok result =>
    have hmissing : missing (slots batch (.ok result)) =
        (batch.map Prod.fst).zipIdx.filterMap fun (k, i) =>
          if (slot result i).isSome then none else some k := by
      rw [missing, slots, List.filterMap_map]
      rfl
    unfold embedSubBatch
    dsimp only
    rw [hmissing]
    split
    · rename_i hnil
      rw [hnil]
      exact CountsOnce.nil filePaths
    · exact countsOnce_formatBatchErrors order _ filePaths _
  | error e =>
    rw [missing_slots_error]
    exact countsOnce_formatBatchErrors order _ filePaths _

/-! ## The whole stage -/

section Stage

variable (schedule : Schedule ν) (embedBatchSize : ℕ) (parsed : List (ParsedFile ν))
  (targets : List Target) (embedBatch : ℕ → List String → Reply ν) (provider model : String)

/-- The slots of all sub-batches. -/
def allSlots : List (ChunkIndex × Option ν) :=
  (subBatches embedBatchSize targets).zipIdx.flatMap fun (batch, n) =>
    slots batch (embedBatch n (batch.map Prod.snd))

theorem flatten_subBatches : (subBatches embedBatchSize targets).flatten = targets :=
  Slices.flatten_slices (by omega) targets

/-- There is a slot for each target. -/
theorem allSlots_map_fst :
    (allSlots embedBatchSize targets embedBatch).map Prod.fst = targets.map Prod.fst := by
  have hbatches : ∀ (batches : List (List Target)) (n : ℕ),
      ((batches.zipIdx n).flatMap fun (batch, n) =>
        slots batch (embedBatch n (batch.map Prod.snd))).map Prod.fst =
        batches.flatten.map Prod.fst := by
    intro batches
    induction batches with
    | nil => exact fun _ => rfl
    | cons batch batches ih =>
      intro n
      rw [List.zipIdx_cons, List.flatMap_cons, List.map_append, ih, slots_map_fst,
        List.flatten_cons, List.map_append]
  rw [allSlots, hbatches, flatten_subBatches]

theorem results_perm :
    (schedule.results.arrange ((subOutcomes schedule embedBatchSize parsed targets
      embedBatch).map Prod.fst)).flatten.Perm
        (filled (allSlots embedBatchSize targets embedBatch)) := by
  refine (schedule.results.perm _).flatten.trans (List.Perm.of_eq ?_)
  unfold subOutcomes allSlots filled
  rw [List.map_map, ← List.flatMap_def, List.filterMap_flatMap]
  exact List.flatMap_congr fun p _ => embedSubBatch_results _ _ _ _

theorem countsOnce_errors :
    CountsOnce (parsed.map ParsedFile.path)
      (embedBatchParallel schedule embedBatchSize parsed targets embedBatch provider model).errors
      (missing (allSlots embedBatchSize targets embedBatch)) := by
  have hbatches : ∀ ps : List (List Target × ℕ), CountsOnce (parsed.map ParsedFile.path)
      (ps.map fun p => (embedSubBatch (schedule.perFile p.2) (parsed.map ParsedFile.path) p.1
        (embedBatch p.2 (p.1.map Prod.snd))).2).flatten
      (missing (ps.flatMap fun p => slots p.1 (embedBatch p.2 (p.1.map Prod.snd)))) := by
    intro ps
    induction ps with
    | nil => exact CountsOnce.nil _
    | cons p ps ih =>
      have hcons : missing ((p :: ps).flatMap fun p =>
          slots p.1 (embedBatch p.2 (p.1.map Prod.snd))) =
          missing (slots p.1 (embedBatch p.2 (p.1.map Prod.snd))) ++
            missing (ps.flatMap fun p => slots p.1 (embedBatch p.2 (p.1.map Prod.snd))) := by
        unfold missing
        rw [List.flatMap_cons, List.filterMap_append]
      rw [hcons, List.map_cons, List.flatten_cons]
      exact (countsOnce_embedSubBatch _ _ _ _).append ih
  have hall := hbatches (subBatches embedBatchSize targets).zipIdx
  refine hall.perm ((schedule.errors.perm _).flatten.trans (List.Perm.of_eq ?_))
  rw [subOutcomes, List.map_map]
  rfl

/-- The chunk of a slot, once its vector is written. -/
def NewChunk.assigned (vec : Option ν) (ch : NewChunk ν) : NewChunk ν :=
  match vec with
  | some vec => ch.withEmbedding provider model vec
  | none => ch

theorem chunkAt_parsed_of_slot {k : ChunkIndex} {vec : Option ν}
    (hnodup : (targets.map Prod.fst).Nodup)
    (h : (k, vec) ∈ allSlots embedBatchSize targets embedBatch) :
    chunkAt (embedBatchParallel schedule embedBatchSize parsed targets embedBatch provider
      model).parsed k = (chunkAt parsed k).map (·.assigned provider model vec) := by
  have hperm := results_perm schedule embedBatchSize parsed targets embedBatch
  rw [← allSlots_map_fst embedBatchSize targets embedBatch] at hnodup
  cases vec with
  | some vec =>
    have hmem := hperm.mem_iff.2 (mem_filled.2 h)
    have hkeys := ((hperm.map Prod.fst).nodup_iff).2
      ((filled_map_fst_sublist _).nodup hnodup)
    exact chunkAt_foldl_of_mem _ parsed hkeys hmem
  | none =>
    have hnot : k ∉ (filled (allSlots embedBatchSize targets embedBatch)).map Prod.fst := by
      intro hk
      obtain ⟨⟨k', vec⟩, hmem, rfl⟩ := List.mem_map.1 hk
      have heq := List.inj_on_of_nodup_map hnodup (mem_filled.1 hmem) h rfl
      cases heq
    rw [← (hperm.map Prod.fst).mem_iff] at hnot
    have hsame : (NewChunk.assigned provider model (none : Option ν)) = id := rfl
    rw [hsame, Option.map_id_fun, id]
    exact chunkAt_foldl_of_notMem _ parsed hnot

end Stage

/-- What the stage makes of a batch. The `i`-th chunk of the `n`-th sub-batch gets the `i`-th
vector of the reply to the texts of the sub-batch, its own text the `i`-th of them, or none,
and the chunks that get none are counted once in the errors. -/
structure Accounted (embedBatchSize : ℕ) (parsed : List (ParsedFile ν))
    (embedBatch : ℕ → List String → Reply ν) (provider model : String)
    (out : EmbedBatchOutcome ν) : Prop where
  covered : (subBatches embedBatchSize (embedTargets parsed)).flatten = embedTargets parsed
  aligned : ∀ n batch, (subBatches embedBatchSize (embedTargets parsed))[n]? = some batch →
    ∀ i target, batch[i]? = some target → ∃ ch, chunkAt parsed target.1 = some ch ∧
      (batch.map Prod.snd)[i]? = some ch.text ∧
      chunkAt out.parsed target.1 = some (ch.assigned provider model
        (received (embedBatch n (batch.map Prod.snd)) i))
  others : ∀ k, k ∉ (embedTargets parsed).map Prod.fst → chunkAt out.parsed k = chunkAt parsed k
  counted : out.embedded +
    (missing (allSlots embedBatchSize (embedTargets parsed) embedBatch)).length =
      (embedTargets parsed).length
  distinct : (missing (allSlots embedBatchSize (embedTargets parsed) embedBatch)).Nodup
  errors : CountsOnce (parsed.map ParsedFile.path) out.errors
    (missing (allSlots embedBatchSize (embedTargets parsed) embedBatch))

theorem embedBatchParallel_accounted (schedule : Schedule ν) (embedBatchSize : ℕ)
    (parsed : List (ParsedFile ν)) (embedBatch : ℕ → List String → Reply ν)
    (provider model : String) :
    Accounted embedBatchSize parsed embedBatch provider model
      (embedBatchParallel schedule embedBatchSize parsed (embedTargets parsed) embedBatch
        provider model) := by
  have hnodup := nodup_embedTargets parsed
  have hkeys := allSlots_map_fst embedBatchSize (embedTargets parsed) embedBatch
  have hperm := results_perm schedule embedBatchSize parsed (embedTargets parsed) embedBatch
  refine ⟨flatten_subBatches _ _, ?_, ?_, ?_, ?_, countsOnce_errors _ _ _ _ _ _ _⟩
  · intro n batch hbatch i target htarget
    have hmem : target ∈ embedTargets parsed := by
      rw [← flatten_subBatches embedBatchSize (embedTargets parsed)]
      exact List.mem_flatten_of_mem (List.mem_of_getElem? hbatch) (List.mem_of_getElem? htarget)
    obtain ⟨pf, ch, hpf, -, hch, htext⟩ := mem_embedTargets.1 hmem
    have hat : chunkAt parsed target.1 = some ch := by
      rw [chunkAt, hpf, Option.bind_some, hch]
    have hslot : (target.1, received (embedBatch n (batch.map Prod.snd)) i) ∈
        allSlots embedBatchSize (embedTargets parsed) embedBatch :=
      List.mem_flatMap.2 ⟨(batch, n), List.mem_zipIdx_iff_getElem?.2 hbatch,
        mem_slots.2 ⟨i, target, htarget, rfl, rfl⟩⟩
    refine ⟨ch, hat, ?_, ?_⟩
    · rw [List.getElem?_map, htarget, Option.map_some, htext]
    · rw [chunkAt_parsed_of_slot _ _ _ _ _ _ _ hnodup hslot, hat, Option.map_some]
  · intro k hk
    refine chunkAt_foldl_of_notMem _ parsed fun hmem => hk ?_
    rw [(hperm.map Prod.fst).mem_iff] at hmem
    rw [← hkeys]
    exact (filled_map_fst_sublist _).subset hmem
  · have hlength := length_filled_add_missing
      (allSlots embedBatchSize (embedTargets parsed) embedBatch)
    have hslots := congrArg List.length hkeys
    rw [List.length_map, List.length_map] at hslots
    rw [← hslots, ← hlength, ← hperm.length_eq]
    rfl
  · rw [← hkeys] at hnodup
    exact (missing_sublist _).nodup hnodup

end ChunkHound.ParallelEmbedding
