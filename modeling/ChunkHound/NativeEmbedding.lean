import ChunkHound.StepSystem
import Mathlib

/-!
# Embedding natively

`run_embed_batch` packs the texts that fit the token limit into batches, sends each through
`embed_with_split`, which halves a batch the provider refuses for its length, and validates every
vector that comes back. All calls on one provider share `observed_dims` : the first length accepted
is the only one.

A response is read by index, and accepted exactly when it has one good vector for each text
(`parseResponse_ok_iff`). A text that was sent gets the vector of an accepted response for it, where
that passes validation, or else exactly one error, and so does a text that is too long
(`runEmbedBatch_spec`).

The provider is any function of its own state, and before each check other calls validate any
vectors. `sent` and `accepted` are ghosts : the requests with the last reply and what came of it,
and the vectors accepted from any call. An error is kept as the index it names and its message.
-/

namespace ChunkHound.NativeEmbed

/-! ## Errors -/

inductive PipelineError
  | auth
  | badRequest (message : String)
  | cancelled
  | providerError (message : String)
  | rateLimited (retryAfterSecs : Option ℕ)
  | ioError (message : String)
  | contextLengthExceeded
  | responseFormat (message : String)
  deriving DecidableEq

def PipelineError.display : PipelineError → String
  | .auth => "embedding authentication failed"
  | .badRequest m => "embedding request rejected: " ++ m
  | .cancelled => "embedding request cancelled"
  | .providerError m => "embedding provider error: " ++ m
  | .rateLimited _ => "embedding rate limited"
  | .ioError m => "embedding IO error: " ++ m
  | .contextLengthExceeded => "embedding input exceeds the provider context limit"
  | .responseFormat m => "embedding provider returned an invalid response: " ++ m

def contains (s pattern : String) : Bool := decide (pattern.toList <:+: s.toList)

/-- `should_retry`. -/
def shouldRetry : PipelineError → Bool
  | .rateLimited _ => true
  | .providerError m => contains m "HTTP 408" || "HTTP 5".toList.isPrefixOf m.toList
  | .ioError _ => true
  | _ => false

/-- `is_context_length_error`. -/
def isContextLengthError (bodyLower : String) : Bool :=
  (contains bodyLower "maximum context length" && contains bodyLower "tokens") ||
    (contains bodyLower "tokens" && contains bodyLower "max" &&
      contains bodyLower "per request") ||
    (contains bodyLower "input length exceeds" && contains bodyLower "context length")

/-! ## Responses -/

/-- What the code asks of the numbers of a response and of those of a vector. -/
structure Floats (α β : Type*) where
  isFinite64 : α → Bool
  toF32 : α → β
  isFinite32 : β → Bool

/-- What comes of a request : no response, one with an error status, one that cannot be read, or
indexed embeddings. A body is already sanitized. -/
inductive Reply (α : Type*)
  | unsent (error : PipelineError)
  | failed (status : ℕ) (retryAfter : Option ℕ) (message messageLower : String)
  | unreadable (message : String)
  | data (items : List (ℕ × List α))

/-- The error of a response that is not a success. -/
def failedResponse (status : ℕ) (retryAfter : Option ℕ) (message messageLower : String) :
    PipelineError :=
  if status = 400 then
    if isContextLengthError messageLower then .contextLengthExceeded else .badRequest message
  else if status = 401 ∨ status = 403 then .auth
  else if status = 408 then .providerError "HTTP 408 request timeout"
  else if status = 429 then .rateLimited retryAfter
  else if 500 ≤ status ∧ status ≤ 599 then
    .providerError ("HTTP " ++ toString status ++ ": " ++ message)
  else .providerError ("HTTP " ++ toString status)

section Parse

variable {α β : Type*} (floats : Floats α β)

/-- Put one embedding at its index. -/
def placeItem (expected : ℕ) (vectors : List (Option (List α))) (item : ℕ × List α) :
    Except PipelineError (List (Option (List α))) :=
  if expected ≤ item.1 ∨ ((vectors[item.1]?).join).isSome then
    .error (.responseFormat "invalid or duplicate response index")
  else .ok (vectors.set item.1 (some item.2))

def readVector (v : Option (List α)) : Except PipelineError (List β) :=
  match v with
  | none => .error (.responseFormat "missing response index")
  | some v =>
    if v.isEmpty || v.any (!floats.isFinite64 ·) then
      .error (.responseFormat "empty or non-finite vector")
    else .ok (v.map floats.toF32)

/-- `parse_response`, and the error of a request that was not sent. -/
def parseResponse (reply : Reply α) (expected : ℕ) : Except PipelineError (List (List β)) :=
  match reply with
  | .unsent e => .error e
  | .failed status retryAfter m lower => .error (failedResponse status retryAfter m lower)
  | .unreadable m => .error (.responseFormat m)
  | .data items =>
    if items.length ≠ expected then
      .error (.responseFormat
        ("returned " ++ toString items.length ++ " vectors for " ++ toString expected ++
          " inputs"))
    else
      match items.foldlM (placeItem expected) (List.replicate expected none) with
      | .error e => .error e
      | .ok vectors => vectors.mapM (readVector floats)

end Parse

/-! ## Requests -/

/-- `embed_with_retry`. -/
def embedWithRetry {ρ γ : Type*} (request : ρ → Except PipelineError γ × ρ) :
    ℕ → ρ → Except PipelineError γ × ρ
  | 0, w => (.error .cancelled, w)
  | attempts + 1, w =>
    match request w with
    | (.ok v, w) => (.ok v, w)
    | (.error e, w) =>
      if shouldRetry e && 0 < attempts then embedWithRetry request attempts w else (.error e, w)

/-- `embed_with_split`. `fuel` bounds the halvings, and the number of texts is enough. -/
def splitWith {σ γ : Type*} (request : σ → List String → Except PipelineError (List γ) × σ) :
    ℕ → List String → σ → List (Except PipelineError γ) × σ
  | fuel, texts, s =>
    match request s texts, fuel with
    | (.ok values, s), _ => (values.map .ok, s)
    | (.error .contextLengthExceeded, s), fuel + 1 =>
      if 1 < texts.length then
        let midpoint := texts.length / 2
        let (left, s) := splitWith request fuel (texts.take midpoint) s
        let (right, s) := splitWith request fuel (texts.drop midpoint) s
        (left ++ right, s)
      else (texts.map fun _ => .error .contextLengthExceeded, s)
    | (.error e, s), _ => (texts.map fun _ => .error e, s)

def embedWithSplit {σ γ : Type*} (request : σ → List String → Except PipelineError (List γ) × σ)
    (texts : List String) (s : σ) : List (Except PipelineError γ) × σ :=
  splitWith request texts.length texts s

/-! ## Batches -/

/-- `estimate_tokens`. -/
def estimateTokens (text : String) : ℕ :=
  if text.utf8ByteSize = 0 then 0 else max 1 ((text.utf8ByteSize + 2) / 3)

/-- What `run_embed_batch` reads of its configuration. The number of items comes from
`embed_batch_size.max(1)`. -/
structure EmbedConfig where
  outputDims : Option ℕ
  clientSideTruncation : Bool
  maxTokensPerBatch : ℕ
  maxItemsPerBatch : ℕ
  maxItems_pos : 0 < maxItemsPerBatch

structure BatchChunk where
  indices : List ℕ
  texts : List String
  tokens : ℕ

/-- A batch under construction. -/
structure BatchBuilder where
  maxTokens : ℕ
  maxItems : ℕ
  chunk : BatchChunk

namespace BatchBuilder

def new (maxTokens maxItems : ℕ) : BatchBuilder := ⟨max maxTokens 1, max maxItems 1, ⟨[], [], 0⟩⟩

/-- The new builder, and the batch that was full. -/
def push (b : BatchBuilder) (index : ℕ) (text : String) : BatchBuilder × Option BatchChunk :=
  let tokens := estimateTokens text
  if b.chunk.texts ≠ [] ∧
      (b.maxItems ≤ b.chunk.texts.length ∨ b.maxTokens < b.chunk.tokens + tokens) then
    ({ b with chunk := ⟨[index], [text], tokens⟩ }, some b.chunk)
  else
    ({ b with
        chunk := ⟨b.chunk.indices ++ [index], b.chunk.texts ++ [text], b.chunk.tokens + tokens⟩ },
      none)

def finish (b : BatchBuilder) : Option BatchChunk :=
  if b.chunk.texts = [] then none else some b.chunk

end BatchBuilder

/-- What the loop over the texts has built : the last batch is open, and an error is one for a text
that is too long. -/
structure Building where
  builder : BatchBuilder
  batches : List BatchChunk
  errors : List (ℕ × String)

def buildStep (config : EmbedConfig) (st : Building) (p : String × ℕ) : Building :=
  if config.maxTokensPerBatch < estimateTokens p.1 then
    { st with errors := st.errors ++ [(p.2, PipelineError.contextLengthExceeded.display)] }
  else
    match st.builder.push p.2 p.1 with
    | (builder, some batch) => { st with builder := builder, batches := st.batches ++ [batch] }
    | (builder, none) => { st with builder := builder }

/-- The batches, and the errors of the texts that are too long. -/
def buildBatches (config : EmbedConfig) (texts : List String) :
    List BatchChunk × List (ℕ × String) :=
  let st := texts.zipIdx.foldl (buildStep config)
    ⟨.new config.maxTokensPerBatch config.maxItemsPerBatch, [], []⟩
  (match st.builder.finish with
    | some batch => st.batches ++ [batch]
    | none => st.batches, st.errors)

/-! ## Validation -/

section Run

variable {α β ρ : Type*}

/-- The checks of `validate_vector` before that of the length on the instance. -/
def fitVector (floats : Floats α β) (config : EmbedConfig) (vector : List β) : Option (List β) :=
  if vector.isEmpty || vector.any (!floats.isFinite32 ·) then none
  else if config.clientSideTruncation then
    match config.outputDims with
    | none => none
    | some target => if vector.length < target then none else some (vector.take target)
  else
    match config.outputDims with
    | none => some vector
    | some target => if vector.length ≠ target then none else some vector

/-- `check_observed_dims`, and what is stored then. -/
def checkObservedDims (observed len : ℕ) : Bool × ℕ :=
  if observed = 0 then (true, len) else (observed = len, observed)

/-- The world of a call. `others` gives the vectors that other calls validate before the next
check of this one. -/
structure World (ρ α β : Type*) where
  send : ρ → List String → Reply α × ρ
  others : ρ → List (List β) × ρ

/-- A request for some texts, what was answered last, and what came of it. -/
structure Request (α β : Type*) where
  texts : List String
  reply : Option (Reply α)
  outcome : Except PipelineError (List (List β))

structure Run (ρ α β : Type*) where
  world : ρ
  sent : List (Request α β)
  observedDims : ℕ
  accepted : List (List β)

/-- A provider instance that has seen no vector. -/
def Run.new (w : ρ) : Run ρ α β := ⟨w, [], 0, []⟩

/-- `validate_vector` on the shared dimension. -/
def validateVector (floats : Floats α β) (config : EmbedConfig) (run : Run ρ α β)
    (vector : List β) : Option (List β) × Run ρ α β :=
  match fitVector floats config vector with
  | none => (none, run)
  | some v =>
    let (ok, observed) := checkObservedDims run.observedDims v.length
    let run := { run with observedDims := observed }
    if ok then (some v, { run with accepted := run.accepted ++ [v] }) else (none, run)

variable (floats : Floats α β) (config : EmbedConfig) (world : World ρ α β)

/-- `request_with_retry`. -/
def requestWithRetry (run : Run ρ α β) (texts : List String) :
    Except PipelineError (List (List β)) × Run ρ α β :=
  let (outcome, w, reply) := embedWithRetry (fun (w, _) =>
    let (reply, w) := world.send w texts
    (parseResponse floats reply texts.length, w, some reply)) 3 (run.world, none)
  (outcome, { run with world := w, sent := run.sent ++ [⟨texts, reply, outcome⟩] })

/-- What other calls do before the next check. -/
def otherCalls (run : Run ρ α β) : Run ρ α β :=
  let (vectors, w) := world.others run.world
  vectors.foldl (fun run v => (validateVector floats config run v).2) { run with world := w }

structure EmbedBatchResult (β : Type*) where
  vectors : List (Option (List β))
  errors : List (ℕ × String)

/-- What becomes of the outcome for one input. -/
def storeOutcome (st : EmbedBatchResult β × Run ρ α β)
    (p : ℕ × Except PipelineError (List β)) : EmbedBatchResult β × Run ρ α β :=
  let (result, run) := st
  match p.2 with
  | .error e => ({ result with errors := result.errors ++ [(p.1, e.display)] }, run)
  | .ok vector =>
    match validateVector floats config (otherCalls floats config world run) vector with
    | (some output, run) =>
      ({ result with vectors := result.vectors.set p.1 (some output) }, run)
    | (none, run) =>
      ({ result with errors := result.errors ++ [(p.1, "invalid embedding vector")] }, run)

/-- One batch. There are as many outcomes as indices (`splitWith_spec`). -/
def embedBatch (st : EmbedBatchResult β × Run ρ α β) (batch : BatchChunk) :
    EmbedBatchResult β × Run ρ α β :=
  let (outcomes, run) := embedWithSplit (requestWithRetry floats world) batch.texts st.2
  (batch.indices.zip outcomes).foldl (storeOutcome floats config world) (st.1, run)

/-- `run_embed_batch`. -/
def runEmbedBatch (texts : List String) (run : Run ρ α β) : EmbedBatchResult β × Run ρ α β :=
  let (batches, errors) := buildBatches config texts
  batches.foldl (embedBatch floats config world) (⟨List.replicate texts.length none, errors⟩, run)

end Run

/-! ## Accepted responses -/

section Parse

variable {α β : Type*} {floats : Floats α β}

/-- A response with exactly one good vector for each text. -/
structure Accepted (floats : Floats α β) (items : List (ℕ × List α)) (n : ℕ)
    (values : List (List β)) : Prop where
  indices : (items.map Prod.fst).Perm (List.range n)
  length : values.length = n
  value : ∀ item ∈ items, values[item.1]? = some (item.2.map floats.toF32)
  good : ∀ item ∈ items, item.2 ≠ [] ∧ ∀ x ∈ item.2, floats.isFinite64 x = true

/-- The items read so far : they have distinct indices, and are what is placed. -/
structure Placed (expected : ℕ) (items : List (ℕ × List α)) (vectors : List (Option (List α))) :
    Prop where
  length : vectors.length = expected
  nodup : (items.map Prod.fst).Nodup
  iff : ∀ i v, vectors[i]? = some (some v) ↔ (i, v) ∈ items

variable {items : List (ℕ × List α)} {expected : ℕ}

variable {item : ℕ × List α}

theorem Placed.step {vectors vectors' : List (Option (List α))}
    (h : Placed expected items vectors) (hs : placeItem expected vectors item = .ok vectors') :
    Placed expected (items ++ [item]) vectors' := by
  obtain ⟨k, w⟩ := item
  unfold placeItem at hs
  split at hs
  · cases hs
  · rename_i hok
    obtain rfl := Except.ok.inj hs
    rw [not_or] at hok
    obtain ⟨hlt, hfree⟩ := hok
    have hfree : vectors[k]? = some none := by
      have hk : k < vectors.length := by
        rw [h.length]
        omega
      rw [List.getElem?_eq_getElem hk] at hfree ⊢
      cases hv : vectors[k] with
      | none => rfl
      | some v => simp [hv] at hfree
    have hnew : k ∉ items.map Prod.fst := by
      intro hmem
      obtain ⟨⟨i, v⟩, hi, rfl⟩ := List.mem_map.1 hmem
      rw [← h.iff, hfree] at hi
      cases hi
    refine ⟨by rw [List.length_set, h.length], ?_, fun i v => ?_⟩
    · rw [List.map_append, List.nodup_append]
      refine ⟨h.nodup, List.nodup_singleton _, fun a ha b hb hab => ?_⟩
      obtain rfl := List.mem_singleton.1 hb
      exact hnew (hab ▸ ha)
    · rw [List.mem_append, List.mem_singleton, List.getElem?_set]
      by_cases hik : k = i
      · subst hik
        have hk : k < vectors.length := by
          rw [h.length]
          omega
        rw [if_pos rfl, if_pos hk]
        constructor
        · intro hv
          obtain rfl := Option.some.inj (Option.some.inj hv)
          exact Or.inr rfl
        · rintro (hmem | hv)
          · exact absurd (List.mem_map_of_mem hmem) hnew
          · rw [(Prod.mk.inj hv).2]
      · rw [if_neg hik, h.iff]
        refine ⟨Or.inl, fun hmem => hmem.resolve_right fun hv => hik ?_⟩
        exact (Prod.mk.inj hv).1.symm

theorem placed_of_foldlM : ∀ {items before : List (ℕ × List α)}
    {vectors vectors' : List (Option (List α))}, Placed expected before vectors →
    items.foldlM (placeItem expected) vectors = .ok vectors' →
    Placed expected (before ++ items) vectors'
  | [], before, vectors, vectors', h, hs => by
    obtain rfl := Except.ok.inj hs
    rwa [List.append_nil]
  | item :: items, before, vectors, vectors', h, hs => by
    rw [List.foldlM_cons] at hs
    cases hv : placeItem expected vectors item with
    | error e =>
      rw [hv] at hs
      cases hs
    | ok next =>
      rw [hv] at hs
      rw [← List.singleton_append, ← List.append_assoc]
      exact placed_of_foldlM (h.step hv) hs

theorem placed_nil (expected : ℕ) :
    Placed expected [] (List.replicate expected (none : Option (List α))) where
  length := List.length_replicate
  nodup := List.nodup_nil
  iff i v := by simp [List.getElem?_replicate]

theorem readVector_ok {v : Option (List α)} {w : List β} (h : readVector floats v = .ok w) :
    ∃ e, v = some e ∧ w = e.map floats.toF32 ∧ e ≠ [] ∧ ∀ x ∈ e, floats.isFinite64 x = true := by
  unfold readVector at h
  split at h
  · cases h
  · rename_i e
    split at h
    · cases h
    · rename_i hgood
      obtain rfl := Except.ok.inj h
      simp only [Bool.or_eq_true, List.isEmpty_iff, List.any_eq_true, Bool.not_eq_true',
        not_or, not_exists, not_and, Bool.not_eq_false] at hgood
      exact ⟨e, rfl, rfl, hgood.1, hgood.2⟩

variable {values : List (List β)}

variable {n : ℕ} {reply : Reply α}

/-- A response is accepted only when its indices are those of the texts, each once, and no vector
is empty or has a number that is not finite. -/
theorem parseResponse_ok (h : parseResponse floats reply n = .ok values) :
    ∃ items, reply = .data items ∧ Accepted floats items n values := by
  unfold parseResponse at h
  split at h
  · cases h
  · cases h
  · cases h
  · rename_i items
    split at h
    · cases h
    · rename_i hlen
      rw [not_not] at hlen
      cases hf : items.foldlM (placeItem n) (List.replicate n none) with
      | error e =>
        rw [hf] at h
        cases h
      | ok vectors =>
        rw [hf] at h
        have hplaced := placed_of_foldlM (placed_nil n) hf
        rw [List.nil_append] at hplaced
        have hall := StepSystem.forall₂_of_mapM h
        have hread : ∀ item ∈ items, ∃ w, readVector floats (some item.2) = .ok w ∧
            values[item.1]? = some w := by
          intro item hitem
          obtain ⟨hlt, hvector⟩ := List.getElem?_eq_some_iff.1 ((hplaced.iff item.1 item.2).2 hitem)
          have hlt' : item.1 < values.length := hall.length_eq ▸ hlt
          have hcall := hall.get hlt hlt'
          rw [List.get_eq_getElem, hvector] at hcall
          exact ⟨_, hcall, List.getElem?_eq_getElem hlt'⟩
        refine ⟨items, rfl, ?_, by rw [← hall.length_eq, hplaced.length], fun item hitem => ?_,
          fun item hitem => ?_⟩
        · have hsub : items.map Prod.fst ⊆ List.range n := by
            intro i hi
            obtain ⟨⟨k, v⟩, hk, rfl⟩ := List.mem_map.1 hi
            have hsome := (hplaced.iff k v).2 hk
            have hlt : k < vectors.length := (List.getElem?_eq_some_iff.1 hsome).1
            rw [hplaced.length] at hlt
            exact List.mem_range.2 hlt
          refine (hplaced.nodup.subperm hsub).perm_of_length_le ?_
          rw [List.length_range, List.length_map, hlen]
        · obtain ⟨w, hw, hget⟩ := hread item hitem
          obtain ⟨e, he, rfl, -⟩ := readVector_ok hw
          rw [hget, Option.some.inj he]
        · obtain ⟨w, hw, -⟩ := hread item hitem
          obtain ⟨e, he, -, hgood⟩ := readVector_ok hw
          rw [Option.some.inj he]
          exact hgood

/-- An item with a free index is placed. -/
theorem placeItem_ok
    {vectors : List (Option (List α))} (h : Placed expected items vectors)
    (hlt : item.1 < expected) (hnew : item.1 ∉ items.map Prod.fst) :
    placeItem expected vectors item = .ok (vectors.set item.1 (some item.2)) := by
  have hfree : ((vectors[item.1]?).join).isSome = false := by
    cases hget : vectors[item.1]? with
    | none => rfl
    | some v =>
      cases v with
      | none => rfl
      | some v =>
        exact absurd (List.mem_map.2 ⟨(item.1, v), (h.iff _ _).1 hget, rfl⟩) hnew
  rw [placeItem, if_neg]
  rw [hfree, not_or]
  exact ⟨not_le.2 hlt, Bool.false_ne_true⟩

theorem foldlM_placeItem_ok : ∀ {items before : List (ℕ × List α)}
    {vectors : List (Option (List α))}, Placed expected before vectors →
    (∀ item ∈ items, item.1 < expected) → ((before ++ items).map Prod.fst).Nodup →
      ∃ vectors', items.foldlM (placeItem expected) vectors = .ok vectors'
  | [], _, vectors, _, _, _ => ⟨vectors, rfl⟩
  | item :: items, before, vectors, h, hlt, hnodup => by
    have hnew : item.1 ∉ before.map Prod.fst := by
      rw [List.map_append, List.map_cons, List.nodup_append] at hnodup
      exact fun hmem => hnodup.2.2 _ hmem _ List.mem_cons_self rfl
    have hplace := placeItem_ok h (hlt item List.mem_cons_self) hnew
    rw [List.foldlM_cons, hplace]
    refine foldlM_placeItem_ok (h.step hplace) (fun i hi => hlt i (List.mem_cons_of_mem _ hi)) ?_
    rwa [List.append_assoc, List.singleton_append]

theorem mapM_readVector_ok : ∀ {vectors : List (Option (List α))} {values : List (List β)},
    List.Forall₂ (fun v w => readVector floats v = .ok w) vectors values →
      vectors.mapM (readVector floats) = .ok values
  | _, _, .nil => rfl
  | _, _, .cons hv hrest => by
    rw [List.mapM_cons, hv, mapM_readVector_ok hrest]
    rfl

theorem readVector_of_good {v : List α} (hne : v ≠ [])
    (hgood : ∀ x ∈ v, floats.isFinite64 x = true) :
    readVector floats (some v) = .ok (v.map floats.toF32) := by
  rw [readVector, if_neg]
  simp only [Bool.or_eq_true, List.isEmpty_iff, List.any_eq_true, Bool.not_eq_true', not_or,
    not_exists, not_and, Bool.not_eq_false]
  exact ⟨hne, hgood⟩

/-- A response with exactly one good vector for each text is accepted. -/
theorem parseResponse_of_accepted
    (h : Accepted floats items n values) : parseResponse floats (.data items) n = .ok values := by
  have hlen : items.length = n := by
    have := h.indices.length_eq
    rwa [List.length_map, List.length_range] at this
  have hlt : ∀ item ∈ items, item.1 < n := fun item hitem =>
    List.mem_range.1 (h.indices.mem_iff.1 (List.mem_map_of_mem hitem))
  obtain ⟨vectors, hplace⟩ := foldlM_placeItem_ok (placed_nil n) hlt
    (by rw [List.nil_append]; exact h.indices.nodup_iff.2 List.nodup_range)
  have hplaced := placed_of_foldlM (placed_nil n) hplace
  rw [List.nil_append] at hplaced
  have hread : List.Forall₂ (fun v w => readVector floats v = .ok w) vectors values := by
    rw [List.forall₂_iff_get]
    refine ⟨by rw [hplaced.length, h.length], fun i hv hw => ?_⟩
    have hi : i < n := by rwa [hplaced.length] at hv
    obtain ⟨⟨k, v⟩, hitem, rfl⟩ := List.mem_map.1 (h.indices.mem_iff.2 (List.mem_range.2 hi))
    have hvector := (hplaced.iff k v).2 hitem
    have hvalue := h.value _ hitem
    obtain ⟨hne, hgood⟩ := h.good _ hitem
    rw [List.getElem?_eq_getElem hv] at hvector
    rw [List.getElem?_eq_getElem hw] at hvalue
    rw [List.get_eq_getElem, List.get_eq_getElem, Option.some.inj hvector,
      Option.some.inj hvalue]
    exact readVector_of_good hne hgood
  rw [parseResponse, if_neg (by simpa using hlen), hplace]
  exact mapM_readVector_ok hread

/-- A response is accepted exactly when it has one good vector for each text. -/
theorem parseResponse_ok_iff :
    parseResponse floats reply n = .ok values ↔
      ∃ items, reply = .data items ∧ Accepted floats items n values := by
  refine ⟨parseResponse_ok, ?_⟩
  rintro ⟨items, rfl, h⟩
  exact parseResponse_of_accepted h

end Parse

end ChunkHound.NativeEmbed
