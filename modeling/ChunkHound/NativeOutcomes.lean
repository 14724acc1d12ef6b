import ChunkHound.NativeEmbedding

/-!
# What a native embedding call returns

Three walks follow each other in `run_embed_batch`, and each keeps the texts in order : the batches
are the texts that fit (`buildBatches_spec`), the requests of one batch settle its texts from left
to right however it is halved (`splitWith_spec`), and the outcomes go to their indices
(`foldl_storeValue`).

The length that a vector is checked against changes while the call runs, but only once
(`Leads`) : each vector is judged as if the last length had been known from the start.
-/

namespace ChunkHound.NativeEmbed

/-! ## Batches -/

section Batches

variable (config : EmbedConfig)

/-- The texts that are sent. -/
def fits (p : String × ℕ) : Bool := decide (estimateTokens p.1 ≤ config.maxTokensPerBatch)

def BatchChunk.pairs (c : BatchChunk) : List (String × ℕ) := c.texts.zip c.indices

/-- The limits of one request. -/
structure Bounded (texts : List String) : Prop where
  items : texts.length ≤ config.maxItemsPerBatch
  tokens : (texts.map estimateTokens).sum ≤ config.maxTokensPerBatch

structure BatchChunk.Sound (c : BatchChunk) : Prop where
  bounded : Bounded config c.texts
  indices : c.indices.length = c.texts.length

/-- What the loop over the texts has after some of them. -/
structure BuiltFrom (seen : List (String × ℕ)) (st : Building) : Prop where
  maxTokens : st.builder.maxTokens = max config.maxTokensPerBatch 1
  maxItems : st.builder.maxItems = max config.maxItemsPerBatch 1
  open_sound : st.builder.chunk.Sound config
  open_tokens : st.builder.chunk.tokens = (st.builder.chunk.texts.map estimateTokens).sum
  sound : ∀ c ∈ st.batches, c.Sound config ∧ c.texts ≠ []
  pairs : st.batches.flatMap BatchChunk.pairs ++ st.builder.chunk.pairs =
    seen.filter (fits config)
  errors : st.errors = (seen.filter fun p => !fits config p).map
    fun p => (p.2, PipelineError.contextLengthExceeded.display)

variable {config}

theorem Sound.single {text : String} (index tokens : ℕ)
    (h : estimateTokens text ≤ config.maxTokensPerBatch) :
    (⟨[index], [text], tokens⟩ : BatchChunk).Sound config where
  bounded := ⟨config.maxItems_pos, by simpa using h⟩
  indices := rfl

variable {seen : List (String × ℕ)}

theorem BuiltFrom.push {st : Building} {p : String × ℕ}
    (h : BuiltFrom config seen st) (hfit : estimateTokens p.1 ≤ config.maxTokensPerBatch) :
    BuiltFrom config (seen ++ [p]) (buildStep config st p) := by
  have hfits : fits config p = true := decide_eq_true hfit
  have herrors : ((seen ++ [p]).filter fun p => !fits config p) =
      seen.filter fun p => !fits config p := by
    simp [List.filter_append, hfits]
  have hpairs : (seen ++ [p]).filter (fits config) = seen.filter (fits config) ++ [p] := by
    simp [List.filter_append, hfits]
  unfold buildStep
  rw [if_neg (not_lt.2 hfit)]
  unfold BatchBuilder.push
  by_cases hfull : st.builder.chunk.texts ≠ [] ∧
      (st.builder.maxItems ≤ st.builder.chunk.texts.length ∨
        st.builder.maxTokens < st.builder.chunk.tokens + estimateTokens p.1)
  · simp only [if_pos hfull]
    constructor
    · exact h.maxTokens
    · exact h.maxItems
    · exact Sound.single _ _ hfit
    · simp
    · intro c hc
      rcases List.mem_append.1 hc with hc | hc
      · exact h.sound c hc
      · obtain rfl := List.mem_singleton.1 hc
        exact ⟨h.open_sound, hfull.1⟩
    · rw [hpairs, ← h.pairs, List.flatMap_append]
      simp [BatchChunk.pairs]
    · rw [herrors]
      exact h.errors
  · simp only [if_neg hfull]
    rw [not_and_or, not_or, not_le, not_lt, not_not] at hfull
    have hlen := h.open_sound.indices
    constructor
    · exact h.maxTokens
    · exact h.maxItems
    · refine ⟨⟨?_, ?_⟩, by simp [hlen]⟩
      · have hpos := config.maxItems_pos
        rw [List.length_append, List.length_singleton]
        rcases hfull with hnil | ⟨hitems, -⟩
        · rw [hnil, List.length_nil]
          omega
        · rw [h.maxItems] at hitems
          omega
      · have hsum := h.open_tokens
        simp only [List.map_append, List.map_cons, List.map_nil, List.sum_append, List.sum_cons,
          List.sum_nil, Nat.add_zero]
        rcases hfull with hnil | ⟨-, htokens⟩
        · simpa [hnil] using hfit
        · have hopen := h.open_sound.bounded.tokens
          rw [h.maxTokens] at htokens
          omega
    · simp [h.open_tokens]
    · exact h.sound
    · rw [hpairs, ← h.pairs, List.append_assoc]
      simp [BatchChunk.pairs, List.zip_append hlen.symm]
    · rw [herrors]
      exact h.errors

theorem BuiltFrom.step {st : Building} (h : BuiltFrom config seen st)
    (p : String × ℕ) : BuiltFrom config (seen ++ [p]) (buildStep config st p) := by
  rcases Nat.lt_or_ge config.maxTokensPerBatch (estimateTokens p.1) with hlong | hfit
  · have hfits : fits config p = false := decide_eq_false (not_le.2 hlong)
    unfold buildStep
    rw [if_pos hlong]
    exact {
      maxTokens := h.maxTokens
      maxItems := h.maxItems
      open_sound := h.open_sound
      open_tokens := h.open_tokens
      sound := h.sound
      pairs := by rw [h.pairs, List.filter_append]; simp [hfits]
      errors := by simp [List.filter_append, hfits, h.errors] }
  · exact h.push hfit

theorem BuiltFrom.foldl : ∀ {ps seen : List (String × ℕ)} {st : Building},
    BuiltFrom config seen st → BuiltFrom config (seen ++ ps) (ps.foldl (buildStep config) st)
  | [], seen, st, h => by rwa [List.append_nil]
  | p :: ps, seen, st, h => by
    rw [List.foldl_cons, ← List.singleton_append, ← List.append_assoc]
    exact (h.step p).foldl

theorem builtFrom_nil : BuiltFrom config []
    ⟨.new config.maxTokensPerBatch config.maxItemsPerBatch, [], []⟩ where
  maxTokens := rfl
  maxItems := rfl
  open_sound := ⟨⟨Nat.zero_le _, Nat.zero_le _⟩, rfl⟩
  open_tokens := rfl
  sound c hc := by cases hc
  pairs := rfl
  errors := rfl

/-- The batches have the texts that fit, in order, and each of the others has one error. -/
theorem buildBatches_spec (config : EmbedConfig) (texts : List String) :
    (∀ c ∈ (buildBatches config texts).1, c.Sound config ∧ c.texts ≠ []) ∧
    (buildBatches config texts).1.flatMap BatchChunk.pairs =
      texts.zipIdx.filter (fits config) ∧
    (buildBatches config texts).2 = (texts.zipIdx.filter fun p => !fits config p).map
      fun p => (p.2, PipelineError.contextLengthExceeded.display) := by
  have h : BuiltFrom config texts.zipIdx (texts.zipIdx.foldl (buildStep config) _) :=
    builtFrom_nil.foldl
  unfold buildBatches BatchBuilder.finish
  by_cases hnil : (texts.zipIdx.foldl (buildStep config)
      ⟨.new config.maxTokensPerBatch config.maxItemsPerBatch, [], []⟩).builder.chunk.texts = []
  · simp only [if_pos hnil]
    refine ⟨h.sound, ?_, h.errors⟩
    rw [← h.pairs]
    simp [BatchChunk.pairs, hnil]
  · simp only [if_neg hnil]
    refine ⟨fun c hc => ?_, ?_, h.errors⟩
    · rcases List.mem_append.1 hc with hc | hc
      · exact h.sound c hc
      · obtain rfl := List.mem_singleton.1 hc
        exact ⟨h.open_sound, hnil⟩
    · rw [← h.pairs, List.flatMap_append]
      simp

end Batches

/-! ## Requests -/

section Requests

variable {α β ρ : Type*} (floats : Floats α β) (world : World ρ α β)

/-- The request is sent again in halves. -/
def isSplit (q : Request α β) : Bool :=
  match q.outcome with
  | .error .contextLengthExceeded => decide (1 < q.texts.length)
  | _ => false

/-- What a request that is not split has for each of its texts. -/
def settle (q : Request α β) : List (String × Except PipelineError (List β)) :=
  match q.outcome with
  | .ok values => q.texts.zip (values.map .ok)
  | .error e => q.texts.map fun text => (text, .error e)

/-- The texts with what the requests that were not split have for them. -/
def settled (sent : List (Request α β)) : List (String × Except PipelineError (List β)) :=
  (sent.filter (!isSplit ·)).flatMap settle

@[simp] theorem settled_append (l l' : List (Request α β)) :
    settled (l ++ l') = settled l ++ settled l' := by
  simp [settled]

/-- A request got vectors exactly from a reply with one good vector for each text. -/
def Request.Answered (floats : Floats α β) (q : Request α β) : Prop :=
  ∃ reply, q.reply = some reply ∧ ∀ values, q.outcome = .ok values ↔
    ∃ items, reply = .data items ∧ Accepted floats items q.texts.length values

/-- The requests for some texts, and what came of them. -/
structure Requested (texts : List String)
    (sent : List (Request α β))
    (outcomes : List (Except PipelineError (List β))) : Prop where
  within : ∀ q ∈ sent, q.texts ≠ [] ∧ q.texts.Sublist texts
  answered : ∀ q ∈ sent, q.Answered floats
  settled : settled sent = texts.zip outcomes
  length : outcomes.length = texts.length

variable {floats world}

/-- What is tried again until it is over ends with the last reply. -/
theorem embedWithRetry_answered {γ : Type*} (send : ρ → Reply α × ρ)
    (parse : Reply α → Except PipelineError γ) : ∀ (n : ℕ) (s : ρ × Option (Reply α)),
    let request : ρ × Option (Reply α) → Except PipelineError γ × ρ × Option (Reply α) :=
      fun s => (parse (send s.1).1, (send s.1).2, some (send s.1).1)
    ∃ reply, (embedWithRetry request (n + 1) s).2.2 = some reply ∧
      (embedWithRetry request (n + 1) s).1 = parse reply
  | n, s => by
    dsimp only
    cases hparse : parse (send s.1).1 with
    | ok v =>
      refine ⟨(send s.1).1, ?_, ?_⟩ <;> rw [embedWithRetry] <;> simp only [hparse]
    | error e =>
      by_cases hretry : shouldRetry e && 0 < n
      · obtain ⟨m, rfl⟩ : ∃ m, n = m + 1 := by
          rw [Bool.and_eq_true, decide_eq_true_eq] at hretry
          exact Nat.exists_eq_add_one.2 hretry.2
        obtain ⟨reply, hreply, hvalue⟩ :=
          embedWithRetry_answered send parse m ((send s.1).2, some (send s.1).1)
        refine ⟨reply, ?_, ?_⟩ <;> rw [embedWithRetry] <;> simp only [hparse, hretry, if_true]
        · exact hreply
        · exact hvalue
      · refine ⟨(send s.1).1, ?_, ?_⟩ <;> rw [embedWithRetry] <;>
          simp only [hparse, hretry, Bool.false_eq_true, if_false]

/-- A request is logged with its last reply. -/
theorem requestWithRetry_spec (floats : Floats α β) (world : World ρ α β) (run : Run ρ α β)
    (texts : List String) :
    ∃ (w : ρ) (q : Request α β), q.texts = texts ∧ q.Answered floats ∧
      requestWithRetry floats world run texts =
        (q.outcome, { run with world := w, sent := run.sent ++ [q] }) := by
  obtain ⟨reply, hreply, hvalue⟩ := embedWithRetry_answered (fun w => world.send w texts)
    (fun reply => parseResponse floats reply texts.length) 2 (run.world, none)
  refine ⟨_, ⟨texts, _, _⟩, rfl, ⟨reply, hreply, fun values => ?_⟩, rfl⟩
  rw [← parseResponse_ok_iff]
  exact Eq.congr_left hvalue

variable {q : Request α β}

/-- A request that is not split settles its texts. -/
theorem Requested.single {outcomes : List (Except PipelineError (List β))}
    (hne : q.texts ≠ []) (hanswered : q.Answered floats) (hsplit : isSplit q = false)
    (hsettle : settle q = q.texts.zip outcomes) (hlen : outcomes.length = q.texts.length) :
    Requested floats q.texts [q] outcomes where
  within r hr := by
    obtain rfl := List.mem_singleton.1 hr
    exact ⟨hne, List.Sublist.refl _⟩
  answered r hr := by
    obtain rfl := List.mem_singleton.1 hr
    exact hanswered
  settled := by
    unfold NativeEmbed.settled
    rw [List.filter_singleton, hsplit]
    simpa using hsettle
  length := hlen

/-- Two halves settle the texts between them. -/
theorem Requested.halves {left right : List String} {sent sent' : List (Request α β)}
    {outcomes outcomes' : List (Except PipelineError (List β))}
    (hq : q.texts = left ++ right) (hanswered : q.Answered floats)
    (hsplit : isSplit q = true) (h : Requested floats left sent outcomes)
    (h' : Requested floats right sent' outcomes') :
    Requested floats (left ++ right) (q :: (sent ++ sent')) (outcomes ++ outcomes') := by
  have hsplit' := hsplit
  unfold isSplit at hsplit
  split at hsplit
  · have hlen : 1 < q.texts.length := of_decide_eq_true hsplit
    refine ⟨fun r hr => ?_, fun r hr => ?_, ?_, ?_⟩
    · rcases List.mem_cons.1 hr with rfl | hr
      · refine ⟨fun hnil => ?_, by rw [hq]⟩
        rw [hnil] at hlen
        exact absurd hlen (by simp)
      · rcases List.mem_append.1 hr with hr | hr
        · exact ⟨(h.within r hr).1,
            (h.within r hr).2.trans (List.sublist_append_left left right)⟩
        · exact ⟨(h'.within r hr).1,
            (h'.within r hr).2.trans (List.sublist_append_right left right)⟩
    · rcases List.mem_cons.1 hr with rfl | hr
      · exact hanswered
      · rcases List.mem_append.1 hr with hr | hr
        · exact h.answered r hr
        · exact h'.answered r hr
    · have hdrop : NativeEmbed.settled (q :: (sent ++ sent')) =
          NativeEmbed.settled (sent ++ sent') := by
        unfold NativeEmbed.settled
        rw [List.filter_cons_of_neg (by rw [hsplit']; exact Bool.false_ne_true)]
      rw [hdrop, settled_append, h.settled, h'.settled, List.zip_append h.length.symm]
    · rw [List.length_append, List.length_append, h.length, h'.length]
  · cases hsplit

variable {e : PipelineError}

theorem settle_error (h : q.outcome = .error e) :
    settle q = q.texts.zip (q.texts.map fun _ => .error e) := by
  unfold settle
  rw [h]
  dsimp only
  induction q.texts with
  | nil => rfl
  | cons text texts ih => rw [List.map_cons, List.map_cons, List.zip_cons_cons, ih]

variable {texts : List String}

theorem splitWith_error {σ γ : Type*}
    {request : σ → List String → Except PipelineError (List γ) × σ} {s s' : σ}
    (fuel : ℕ)
    (h : request s texts = (.error e, s')) (hstop : e = .contextLengthExceeded → texts.length ≤ 1) :
    splitWith request (fuel + 1) texts s = (texts.map fun _ => .error e, s') := by
  unfold splitWith
  rw [h]
  cases e with
  | contextLengthExceeded => exact if_neg (not_lt.2 (hstop rfl))
  | _ => rfl

theorem splitWith_halves {σ γ : Type*}
    {request : σ → List String → Except PipelineError (List γ) × σ} {s s' : σ}
    (fuel : ℕ) (h : request s texts = (.error .contextLengthExceeded, s'))
    (hlen : 1 < texts.length) :
    splitWith request (fuel + 1) texts s =
      let left := splitWith request fuel (texts.take (texts.length / 2)) s'
      let right := splitWith request fuel (texts.drop (texts.length / 2)) left.2
      (left.1 ++ right.1, right.2) := by
  conv_lhs => unfold splitWith
  rw [h]
  exact if_pos hlen

/-- Requests for the texts change nothing but the world and what was sent. -/
theorem splitWith_spec : ∀ (fuel : ℕ) (texts : List String) (run : Run ρ α β), texts ≠ [] →
    texts.length ≤ fuel → ∃ sent, Requested floats texts sent
      (splitWith (requestWithRetry floats world) fuel texts run).1 ∧
    ∃ w, (splitWith (requestWithRetry floats world) fuel texts run).2 =
      { run with world := w, sent := run.sent ++ sent }
  | 0, texts, run, hne, hfuel => by
    rw [Nat.le_zero, List.length_eq_zero_iff] at hfuel
    exact absurd hfuel hne
  | fuel + 1, texts, run, hne, hfuel => by
    obtain ⟨w, q, rfl, hanswered, hr⟩ := requestWithRetry_spec floats world run texts
    cases houtcome : q.outcome with
    | ok values =>
      have hlength : values.length = q.texts.length := by
        obtain ⟨reply, -, hiff⟩ := hanswered
        obtain ⟨items, -, hitems⟩ := (hiff values).1 houtcome
        exact hitems.length
      rw [houtcome] at hr
      have hleaf : isSplit q = false := by
        unfold isSplit
        rw [houtcome]
      have hsettle : settle q = q.texts.zip (values.map .ok) := by
        unfold settle
        rw [houtcome]
      unfold splitWith
      rw [hr]
      refine ⟨[q], .single hne hanswered hleaf hsettle ?_, w, rfl⟩
      rw [List.length_map, hlength]
    | error e =>
      rw [houtcome] at hr
      by_cases hsplit : e = .contextLengthExceeded ∧ 1 < q.texts.length
      · obtain ⟨rfl, hlen⟩ := hsplit
        rw [splitWith_halves fuel hr hlen]
        obtain ⟨sent, hleft, w₁, hw₁⟩ := splitWith_spec fuel (q.texts.take (q.texts.length / 2))
          { run with world := w, sent := run.sent ++ [q] }
          (List.ne_nil_of_length_pos (by rw [List.length_take]; omega))
          (by rw [List.length_take]; omega)
        simp only [hw₁]
        obtain ⟨sent', hright, w₂, hw₂⟩ := splitWith_spec fuel (q.texts.drop (q.texts.length / 2))
          { run with world := w₁, sent := run.sent ++ [q] ++ sent }
          (List.ne_nil_of_length_pos (by rw [List.length_drop]; omega))
          (by rw [List.length_drop]; omega)
        have hnode : isSplit q = true := by
          unfold isSplit
          rw [houtcome]
          exact decide_eq_true hlen
        have h := Requested.halves (q := q) (List.take_append_drop _ _).symm hanswered hnode hleft
          hright
        rw [List.take_append_drop] at h
        refine ⟨_, h, w₂, ?_⟩
        rw [hw₂]
        simp
      · rw [not_and, not_lt] at hsplit
        rw [splitWith_error fuel hr hsplit]
        have hleaf : isSplit q = false := by
          unfold isSplit
          rw [houtcome]
          cases e with
          | contextLengthExceeded => exact decide_eq_false (not_lt.2 (hsplit rfl))
          | _ => rfl
        exact ⟨_, .single hne hanswered hleaf (settle_error houtcome) (List.length_map _), w, rfl⟩

end Requests

/-! ## Checks of the length -/

section Checks

variable {α β ρ : Type*} (floats : Floats α β) (config : EmbedConfig)

/-- The length that is checked for may become the one of a vector, once. -/
def Leads (before after : ℕ) : Prop :=
  after = before ∨
    before = 0 ∧ ∃ v w : List β, fitVector floats config v = some w ∧ w.length = after

variable {floats config}

/-- Only a configuration for vectors of length zero lets one through. -/
theorem fitVector_nil {v v' w : List β} (h : fitVector floats config v = some [])
    (h' : fitVector floats config v' = some w) : w = [] := by
  unfold fitVector at h h'
  split at h
  · cases h
  · rename_i hv
    split at h'
    · cases h'
    · by_cases htrunc : config.clientSideTruncation = true
      · rw [if_pos htrunc] at h h'
        cases hdims : config.outputDims with
        | none => simp [hdims] at h
        | some target =>
          simp only [hdims] at h h'
          split at h
          · cases h
          · rename_i hlong
            have hnil := congrArg List.length (Option.some.inj h)
            rw [List.length_take, List.length_nil] at hnil
            split at h'
            · cases h'
            · rw [← Option.some.inj h']
              have hne : v.length ≠ 0 := fun h0 => hv (by simp [List.length_eq_zero_iff.1 h0])
              have : target = 0 := by omega
              rw [this, List.take_zero]
      · rw [if_neg htrunc] at h
        cases hdims : config.outputDims with
        | none =>
          simp only [hdims] at h
          obtain rfl := Option.some.inj h
          exact absurd rfl hv
        | some target =>
          simp only [hdims] at h
          split at h
          · cases h
          · obtain rfl := Option.some.inj h
            exact absurd rfl hv

theorem Leads.refl (d : ℕ) : Leads floats config d d := .inl rfl

theorem Leads.trans {a b c : ℕ} (h : Leads floats config a b) (h' : Leads floats config b c) :
    Leads floats config a c := by
  rcases h with rfl | ⟨rfl, v, w, hw, rfl⟩
  · exact h'
  · rcases h' with rfl | ⟨h0, v', w', hw', rfl⟩
    · exact .inr ⟨rfl, v, w, hw, rfl⟩
    · exact .inr ⟨rfl, v', w', hw', rfl⟩

theorem Leads.check {v w : List β} (h : fitVector floats config v = some w) (d : ℕ) :
    Leads floats config d (checkObservedDims d w.length).2 := by
  unfold checkObservedDims
  split
  · rename_i h0
    exact .inr ⟨h0, v, w, h, rfl⟩
  · exact .inl rfl

/-- A vector passes the check exactly when it has the length that is checked for in the end. -/
theorem Leads.check_iff {v w : List β} {d d' : ℕ} (h : fitVector floats config v = some w)
    (hd : Leads floats config (checkObservedDims d w.length).2 d') :
    (checkObservedDims d w.length).1 = true ↔ w.length = d' := by
  unfold checkObservedDims at hd ⊢
  split at hd
  · rename_i h0
    rw [if_pos h0]
    refine ⟨fun _ => ?_, fun _ => rfl⟩
    rcases hd with rfl | ⟨hnil, v', w', hw', rfl⟩
    · rfl
    · rw [List.length_eq_zero_iff.1 hnil] at h ⊢
      rw [fitVector_nil h hw']
  · rename_i h0
    rw [if_neg h0]
    rcases hd with rfl | ⟨h0', -⟩
    · simp [eq_comm]
    · exact absurd h0' h0

/-- Every vector that was accepted has the length that is checked for. -/
def OneLength (floats : Floats α β) (config : EmbedConfig) (run : Run ρ α β) : Prop :=
  ∀ w ∈ run.accepted, w.length = run.observedDims ∧ ∃ v, fitVector floats config v = some w

/-- The vector that is stored when the length in the end is `d`. -/
def judgeVector (floats : Floats α β) (config : EmbedConfig) (d : ℕ) (v : List β) :
    Option (List β) :=
  (fitVector floats config v).filter (·.length = d)

theorem validateVector_leads (run : Run ρ α β) (v : List β) :
    Leads floats config run.observedDims (validateVector floats config run v).2.observedDims := by
  unfold validateVector
  split
  · exact .refl _
  · rename_i w hw
    have h := Leads.check hw run.observedDims
    split
    rename_i ok observed heq
    rw [heq] at h
    split <;> exact h

theorem validateVector_sent (run : Run ρ α β) (v : List β) :
    (validateVector floats config run v).2.sent = run.sent := by
  unfold validateVector
  split
  · rfl
  · split
    split <;> rfl

variable {run : Run ρ α β}

theorem validateVector_judge {v : List β} {d : ℕ}
    (h : Leads floats config (validateVector floats config run v).2.observedDims d) :
    (validateVector floats config run v).1 = judgeVector floats config d v := by
  unfold validateVector at h ⊢
  unfold judgeVector
  split
  · rename_i hv
    rw [hv]
    rfl
  · rename_i w hw
    rw [hw] at h ⊢
    have hcheck := @Leads.check_iff α β floats config v w run.observedDims d hw
    rcases hc : checkObservedDims run.observedDims w.length with ⟨ok, observed⟩
    rw [hc] at hcheck
    simp only [hc] at h ⊢
    cases ok with
    | true =>
      have hd : w.length = d := (hcheck h).1 rfl
      simp [Option.filter, hd]
    | false =>
      have hd : w.length ≠ d := fun hd => Bool.false_ne_true ((hcheck h).2 hd)
      simp [Option.filter, hd]

theorem OneLength.validate (h : OneLength floats config run) (v : List β) :
    OneLength floats config (validateVector floats config run v).2 := by
  unfold validateVector
  split
  · exact h
  · rename_i w hw
    have hlead := Leads.check hw run.observedDims
    have hcheck := @Leads.check_iff α β floats config v w run.observedDims _ hw (.refl _)
    rcases hc : checkObservedDims run.observedDims w.length with ⟨ok, observed⟩
    rw [hc] at hlead hcheck
    have hold : ∀ u ∈ run.accepted, u.length = observed ∧
        ∃ v, fitVector floats config v = some u := by
      intro u hu
      obtain ⟨hlen, v', hv'⟩ := h u hu
      refine ⟨?_, v', hv'⟩
      rcases hlead with heq | ⟨h0, v'', w'', hw'', heq⟩
      · rw [hlen, ← heq]
      · rw [h0] at hlen
        rw [List.length_eq_zero_iff.1 hlen] at hv' ⊢
        have heq : w''.length = observed := heq
        rw [← heq, fitVector_nil hv' hw'']
    cases ok with
    | true =>
      intro u hu
      rcases List.mem_append.1 hu with hu | hu
      · exact hold u hu
      · obtain rfl := List.mem_singleton.1 hu
        exact ⟨hcheck.1 rfl, v, hw⟩
    | false => exact hold

end Checks

/-! ## Storing -/

section Storing

variable {α β ρ : Type*} (floats : Floats α β) (config : EmbedConfig)

/-- What an outcome leaves for its text when the length in the end is `d` : a vector, or the
message of an error. -/
def judge (d : ℕ) (outcome : Except PipelineError (List β)) : Except String (List β) :=
  match outcome with
  | .error e => .error e.display
  | .ok v =>
    match judgeVector floats config d v with
    | some w => .ok w
    | none => .error "invalid embedding vector"

def storeValue (d : ℕ) (result : EmbedBatchResult β)
    (p : ℕ × Except PipelineError (List β)) : EmbedBatchResult β :=
  match judge floats config d p.2 with
  | .ok w => { result with vectors := result.vectors.set p.1 (some w) }
  | .error m => { result with errors := result.errors ++ [(p.1, m)] }

/-- The errors of some outcomes. -/
def failures (d : ℕ) (l : List (ℕ × Except PipelineError (List β))) : List (ℕ × String) :=
  l.filterMap fun p =>
    match judge floats config d p.2 with
    | .ok _ => none
    | .error m => some (p.1, m)

variable {floats config}

theorem foldl_storeValue_length (d : ℕ) : ∀ (l : List (ℕ × Except PipelineError (List β)))
    (result : EmbedBatchResult β),
    (l.foldl (storeValue floats config d) result).vectors.length = result.vectors.length
  | [], result => rfl
  | p :: l, result => by
    rw [List.foldl_cons, foldl_storeValue_length d l]
    unfold storeValue
    split
    · exact List.length_set
    · rfl

theorem foldl_storeValue_errors (d : ℕ) : ∀ (l : List (ℕ × Except PipelineError (List β)))
    (result : EmbedBatchResult β),
    (l.foldl (storeValue floats config d) result).errors =
      result.errors ++ failures floats config d l
  | [], result => by simp [failures]
  | p :: l, result => by
    rw [List.foldl_cons, foldl_storeValue_errors d l]
    unfold storeValue failures
    cases hp : judge floats config d p.2 with
    | ok w => simp [hp]
    | error m => simp [hp]

theorem foldl_storeValue_other (d : ℕ) {i : ℕ} : ∀ (l : List (ℕ × Except PipelineError (List β)))
    (result : EmbedBatchResult β), i ∉ l.map Prod.fst →
    (l.foldl (storeValue floats config d) result).vectors[i]? = result.vectors[i]?
  | [], result, _ => rfl
  | p :: l, result, hi => by
    rw [List.map_cons, List.mem_cons, not_or] at hi
    rw [List.foldl_cons, foldl_storeValue_other d l _ hi.2]
    unfold storeValue
    split
    · exact List.getElem?_set_ne (Ne.symm hi.1)
    · rfl

theorem foldl_storeValue_mem (d : ℕ) {i : ℕ} {outcome : Except PipelineError (List β)} :
    ∀ (l : List (ℕ × Except PipelineError (List β))) (result : EmbedBatchResult β),
    (l.map Prod.fst).Nodup → (i, outcome) ∈ l → result.vectors[i]? = some none →
    (l.foldl (storeValue floats config d) result).vectors[i]? =
      some (judge floats config d outcome).toOption
  | p :: l, result, hnodup, hmem, hnone => by
    rw [List.map_cons, List.nodup_cons] at hnodup
    rw [List.foldl_cons]
    rcases List.mem_cons.1 hmem with rfl | hmem
    · rw [foldl_storeValue_other d l _ hnodup.1]
      unfold storeValue
      cases judge floats config d outcome with
      | ok w =>
        obtain ⟨hi, -⟩ := List.getElem?_eq_some_iff.1 hnone
        exact List.getElem?_set_self hi
      | error m => exact hnone
    · have hne : p.1 ≠ i := by
        rintro rfl
        exact hnodup.1 (List.mem_map.2 ⟨_, hmem, rfl⟩)
      refine foldl_storeValue_mem d l _ hnodup.2 hmem ?_
      unfold storeValue
      split
      · rw [List.getElem?_set_ne hne, hnone]
      · exact hnone

variable {l : List (ℕ × Except PipelineError (List β))}

theorem mem_failures {d i : ℕ} :
    i ∈ (failures floats config d l).map Prod.fst ↔
      ∃ outcome, (i, outcome) ∈ l ∧ (judge floats config d outcome).toOption = none := by
  unfold failures
  rw [List.mem_map]
  constructor
  · rintro ⟨⟨i, m⟩, hmem, rfl⟩
    obtain ⟨⟨j, outcome⟩, hl, hj⟩ := List.mem_filterMap.1 hmem
    cases ho : judge floats config d outcome with
    | ok w => simp [ho] at hj
    | error m' =>
      simp only [ho, Option.some.injEq, Prod.mk.injEq] at hj
      obtain ⟨rfl, -⟩ := hj
      exact ⟨outcome, hl, by rw [ho]; rfl⟩
  · rintro ⟨outcome, hl, hnone⟩
    cases ho : judge floats config d outcome with
    | ok w => simp [ho, Except.toOption] at hnone
    | error m =>
      refine ⟨(i, m), List.mem_filterMap.2 ⟨(i, outcome), hl, ?_⟩, rfl⟩
      simp [ho]

theorem failures_sublist (d : ℕ) : ∀ l : List (ℕ × Except PipelineError (List β)),
    ((failures floats config d l).map Prod.fst).Sublist (l.map Prod.fst)
  | [] => List.Sublist.slnil
  | p :: l => by
    have ih := failures_sublist d l
    unfold failures at ih ⊢
    cases hp : judge floats config d p.2 with
    | ok w => simpa [hp] using ih.cons p.1
    | error m => simpa [hp] using ih

/-- When every index has an error already or one outcome, exactly those without a vector are named,
once each. -/
theorem foldl_storeValue_count {d n : ℕ} {long : List (ℕ × String)}
    (hperm : (long.map Prod.fst ++ l.map Prod.fst).Perm (List.range n)) (i : ℕ) :
    let result := l.foldl (storeValue floats config d) ⟨List.replicate n none, long⟩
    (result.vectors[i]? = some none → (result.errors.map Prod.fst).count i = 1) ∧
    (result.vectors[i]? ≠ some none → (result.errors.map Prod.fst).count i = 0) := by
  intro result
  have hnodup := hperm.nodup_iff.2 List.nodup_range
  obtain ⟨-, hl, hdisj⟩ := List.nodup_append.1 hnodup
  have herrors : result.errors.map Prod.fst =
      long.map Prod.fst ++ (failures floats config d l).map Prod.fst := by
    rw [foldl_storeValue_errors, List.map_append]
  have hcount : (result.errors.map Prod.fst).Nodup := by
    rw [herrors]
    exact hnodup.sublist ((List.Sublist.refl _).append (failures_sublist d l))
  have hmem : result.vectors[i]? = some none ↔ i ∈ result.errors.map Prod.fst := by
    rw [herrors, List.mem_append, mem_failures]
    have hstart : i < n → (List.replicate n (none : Option (List β)))[i]? = some none :=
      fun hi => by rw [List.getElem?_replicate, if_pos hi]
    have hlt : i ∈ long.map Prod.fst ++ l.map Prod.fst ↔ i < n := by
      rw [hperm.mem_iff, List.mem_range]
    rw [List.mem_append] at hlt
    by_cases hil : i ∈ l.map Prod.fst
    · obtain ⟨⟨j, outcome⟩, hmem, rfl⟩ := List.mem_map.1 hil
      have hvec : result.vectors[j]? = _ :=
        foldl_storeValue_mem d l _ hl hmem (hstart (hlt.1 (Or.inr hil)))
      rw [hvec, Option.some_inj]
      refine ⟨fun hnone => Or.inr ⟨outcome, hmem, hnone⟩, ?_⟩
      rintro (hlong | ⟨outcome', hmem', hnone⟩)
      · exact absurd rfl (hdisj _ hlong _ hil)
      · have heq := List.inj_on_of_nodup_map hl hmem hmem' rfl
        rw [(Prod.mk.inj heq).2]
        exact hnone
    · have hvec : result.vectors[i]? = _ := foldl_storeValue_other d l _ hil
      rw [hvec]
      constructor
      · intro hnone
        have hi : i < n := by
          have h := (List.getElem?_eq_some_iff.1 hnone).1
          rwa [List.length_replicate] at h
        exact Or.inl ((hlt.2 hi).resolve_right hil)
      · rintro (hlong | ⟨outcome, hmem, -⟩)
        · exact hstart (hlt.1 (Or.inl hlong))
        · exact absurd (List.mem_map.2 ⟨_, hmem, rfl⟩) hil
  rw [hcount.count, Ne, hmem]
  exact ⟨fun h => if_pos h, fun h => if_neg h⟩

/-! ## Runs -/

variable {world : World ρ α β}

/-- What validation leaves as it is in a run, and the length that it may find. -/
structure Validated (floats : Floats α β) (config : EmbedConfig) (run run' : Run ρ α β) : Prop where
  leads : Leads floats config run.observedDims run'.observedDims
  sent : run'.sent = run.sent
  oneLength : OneLength floats config run → OneLength floats config run'

theorem Validated.trans {a b c : Run ρ α β} (h : Validated floats config a b)
    (h' : Validated floats config b c) : Validated floats config a c where
  leads := h.leads.trans h'.leads
  sent := h'.sent.trans h.sent
  oneLength := h'.oneLength ∘ h.oneLength

theorem Validated.vector (run : Run ρ α β) (v : List β) :
    Validated floats config run (validateVector floats config run v).2 where
  leads := validateVector_leads run v
  sent := validateVector_sent run v
  oneLength h := h.validate v

theorem Validated.vectors : ∀ (vs : List (List β)) (run : Run ρ α β), Validated floats config run
    (vs.foldl (fun run v => (validateVector floats config run v).2) run)
  | [], _ => ⟨.refl _, rfl, id⟩
  | v :: vs, run => (Validated.vector run v).trans (Validated.vectors vs _)

theorem Validated.otherCalls (run : Run ρ α β) :
    Validated floats config run (otherCalls floats config world run) := by
  have h : Validated floats config { run with world := (world.others run.world).2 } _ :=
    .vectors (world.others run.world).1 _
  exact ⟨h.leads, h.sent, h.oneLength⟩

theorem storeOutcome_spec (st : EmbedBatchResult β × Run ρ α β)
    (p : ℕ × Except PipelineError (List β)) :
    Validated floats config st.2 (storeOutcome floats config world st p).2 ∧
    ∀ d, Leads floats config (storeOutcome floats config world st p).2.observedDims d →
      (storeOutcome floats config world st p).1 = storeValue floats config d st.1 p := by
  obtain ⟨result, run⟩ := st
  obtain ⟨i, outcome⟩ := p
  cases outcome with
  | error e => exact ⟨⟨.refl _, rfl, id⟩, fun d _ => rfl⟩
  | ok v =>
    have hval : Validated floats config run (validateVector floats config
        (NativeEmbed.otherCalls floats config world run) v).2 :=
      (Validated.otherCalls run).trans (.vector _ v)
    have hjudge := fun d => @validateVector_judge α β ρ floats config
      (NativeEmbed.otherCalls floats config world run) v d
    unfold storeOutcome storeValue judge
    rcases hv : validateVector floats config (NativeEmbed.otherCalls floats config world run) v
      with ⟨_ | w, run'⟩
    · rw [hv] at hval hjudge
      simp only [hv]
      exact ⟨hval, fun d hd => by rw [← hjudge d hd]⟩
    · rw [hv] at hval hjudge
      simp only [hv]
      exact ⟨hval, fun d hd => by rw [← hjudge d hd]⟩

theorem foldl_storeOutcome_spec : ∀ (l : List (ℕ × Except PipelineError (List β)))
    (st : EmbedBatchResult β × Run ρ α β),
    Validated floats config st.2 (l.foldl (storeOutcome floats config world) st).2 ∧
    ∀ d, Leads floats config (l.foldl (storeOutcome floats config world) st).2.observedDims d →
      (l.foldl (storeOutcome floats config world) st).1 =
        l.foldl (storeValue floats config d) st.1
  | [], st => ⟨⟨.refl _, rfl, id⟩, fun d _ => rfl⟩
  | p :: l, st => by
    obtain ⟨hstep, hstore⟩ := @storeOutcome_spec α β ρ floats config world st p
    obtain ⟨hrest, hfold⟩ := foldl_storeOutcome_spec l (storeOutcome floats config world st p)
    refine ⟨hstep.trans hrest, fun d hd => ?_⟩
    rw [List.foldl_cons, List.foldl_cons, hfold d hd, hstore d (hrest.leads.trans hd)]

end Storing

/-! ## The call -/

section Call

variable {α β ρ : Type*} {floats : Floats α β} {config : EmbedConfig} {world : World ρ α β}

/-- What some batches add to a call. -/
structure Embedded (floats : Floats α β) (config : EmbedConfig) (batches : List BatchChunk)
    (st st' : EmbedBatchResult β × Run ρ α β)
    (new : List (Request α β))
    (outcomes : List (Except PipelineError (List β))) : Prop where
  sent : st'.2.sent = st.2.sent ++ new
  request : ∀ q ∈ new, q.texts ≠ [] ∧ Bounded config q.texts
  answered : ∀ q ∈ new, q.Answered floats
  settled : settled new = (batches.flatMap BatchChunk.texts).zip outcomes
  length : outcomes.length = (batches.flatMap BatchChunk.texts).length
  leads : Leads floats config st.2.observedDims st'.2.observedDims
  oneLength : OneLength floats config st.2 → OneLength floats config st'.2
  result : ∀ d, Leads floats config st'.2.observedDims d →
    st'.1 = ((batches.flatMap BatchChunk.indices).zip outcomes).foldl
      (storeValue floats config d) st.1

theorem Bounded.sublist {l l' : List String} (h : Bounded config l') (hsub : l.Sublist l') :
    Bounded config l where
  items := hsub.length_le.trans h.items
  tokens := ((hsub.map estimateTokens).sum_le_sum fun _ _ => Nat.zero_le _).trans h.tokens

theorem Embedded.batch (st : EmbedBatchResult β × Run ρ α β) {c : BatchChunk}
    (hc : c.Sound config ∧ c.texts ≠ []) :
    ∃ sent outcomes, Embedded floats config [c] st (embedBatch floats config world st c) sent
      outcomes := by
  obtain ⟨sent, hreq, w, hw⟩ := @splitWith_spec α β ρ floats world c.texts.length c.texts st.2
    hc.2 (Nat.le_refl _)
  unfold embedBatch embedWithSplit
  rcases hs : splitWith (requestWithRetry floats world) c.texts.length c.texts st.2
    with ⟨outcomes, run⟩
  rw [hs] at hreq hw
  obtain rfl : run = _ := hw
  obtain ⟨hval, hresult⟩ := @foldl_storeOutcome_spec α β ρ floats config world
    (c.indices.zip outcomes) (st.1, { st.2 with world := w, sent := st.2.sent ++ sent })
  refine ⟨sent, outcomes, hval.sent, fun q hq => ?_, hreq.answered, ?_, ?_, hval.leads,
    hval.oneLength, fun d hd => ?_⟩
  · exact ⟨(hreq.within q hq).1, hc.1.bounded.sublist (hreq.within q hq).2⟩
  · rw [List.flatMap_singleton]
    exact hreq.settled
  · rw [List.flatMap_singleton]
    exact hreq.length
  · rw [List.flatMap_singleton]
    exact hresult d hd

theorem Embedded.batches : ∀ (cs : List BatchChunk) (st : EmbedBatchResult β × Run ρ α β),
    (∀ c ∈ cs, c.Sound config ∧ c.texts ≠ []) → ∃ sent outcomes,
      Embedded floats config cs st (cs.foldl (embedBatch floats config world) st) sent outcomes
  | [], st, _ => ⟨[], [], (List.append_nil _).symm, fun q hq => (by cases hq),
      fun q hq => (by cases hq), rfl, rfl, .refl _, id, fun d _ => rfl⟩
  | c :: cs, st, hcs => by
    obtain ⟨hc, hcs⟩ := List.forall_mem_cons.1 hcs
    obtain ⟨sent, outcomes, h⟩ := @Embedded.batch α β ρ floats config world st c hc
    obtain ⟨sent', outcomes', h'⟩ := Embedded.batches cs (embedBatch floats config world st c) hcs
    refine ⟨sent ++ sent', outcomes ++ outcomes', ?_, fun q hq => ?_, fun q hq => ?_, ?_, ?_,
      h.leads.trans h'.leads, h'.oneLength ∘ h.oneLength, fun d hd => ?_⟩
    · rw [List.foldl_cons, h'.sent, h.sent, List.append_assoc]
    · rcases List.mem_append.1 hq with hq | hq
      · exact h.request q hq
      · exact h'.request q hq
    · rcases List.mem_append.1 hq with hq | hq
      · exact h.answered q hq
      · exact h'.answered q hq
    · have hlen := h.length
      rw [List.flatMap_singleton] at hlen
      rw [settled_append, h.settled, h'.settled, List.flatMap_singleton, List.flatMap_cons,
        List.zip_append hlen.symm]
    · have hlen := h.length
      rw [List.flatMap_singleton] at hlen
      rw [List.length_append, hlen, h'.length, List.flatMap_cons, List.length_append]
    · have hlen := h.length
      rw [List.flatMap_singleton, ← hc.1.indices] at hlen
      have hfirst := h.result d (h'.leads.trans hd)
      rw [List.flatMap_singleton] at hfirst
      rw [List.foldl_cons, h'.result d hd, hfirst, ← List.foldl_append, List.flatMap_cons,
        List.zip_append hlen.symm]

theorem flatMap_pairs : ∀ {cs : List BatchChunk}, (∀ c ∈ cs, c.indices.length = c.texts.length) →
    (cs.flatMap BatchChunk.pairs).map Prod.fst = cs.flatMap BatchChunk.texts ∧
    (cs.flatMap BatchChunk.pairs).map Prod.snd = cs.flatMap BatchChunk.indices
  | [], _ => ⟨rfl, rfl⟩
  | c :: cs, h => by
    obtain ⟨hc, hcs⟩ := List.forall_mem_cons.1 h
    obtain ⟨htexts, hindices⟩ := flatMap_pairs hcs
    unfold BatchChunk.pairs at htexts hindices ⊢
    simp only [List.flatMap_cons, List.map_append, htexts, hindices]
    rw [List.map_fst_zip (by omega), List.map_snd_zip (by omega)]
    exact ⟨rfl, rfl⟩

/-- Each text that fits has an outcome, in order, and the outcomes are stored at the indices of
their texts. -/
theorem runEmbedBatch_stored (texts : List String) (w : ρ) :
    ∃ outcomes : List (Except PipelineError (List β)),
      outcomes.length = (texts.zipIdx.filter (fits config)).length ∧
      settled (runEmbedBatch floats config world texts (.new w)).2.sent =
        ((texts.zipIdx.filter (fits config)).map Prod.fst).zip outcomes ∧
      (∀ q ∈ (runEmbedBatch floats config world texts (.new w)).2.sent,
        q.texts ≠ [] ∧ Bounded config q.texts ∧ q.Answered floats) ∧
      OneLength floats config (runEmbedBatch floats config world texts (.new w)).2 ∧
      (runEmbedBatch floats config world texts (.new w)).1 =
        (((texts.zipIdx.filter (fits config)).map Prod.snd).zip outcomes).foldl
          (storeValue floats config
            (runEmbedBatch floats config world texts (.new w)).2.observedDims)
          ⟨List.replicate texts.length none, (texts.zipIdx.filter fun p => !fits config p).map
            fun p => (p.2, PipelineError.contextLengthExceeded.display)⟩ := by
  obtain ⟨hsound, hpairs, herrors⟩ := buildBatches_spec config texts
  obtain ⟨htexts, hindices⟩ := flatMap_pairs fun c hc => (hsound c hc).1.indices
  obtain ⟨sent, outcomes, h⟩ : ∃ sent outcomes, Embedded floats config
      (buildBatches config texts).1
      (⟨List.replicate texts.length none, (buildBatches config texts).2⟩, .new w)
      (runEmbedBatch floats config world texts (.new w)) sent outcomes :=
    Embedded.batches _ _ hsound
  rw [hpairs] at htexts hindices
  have hsent := h.sent
  rw [show (Run.new w : Run ρ α β).sent = [] from rfl, List.nil_append] at hsent
  have hresult := h.result _ (.refl _)
  have hlen := h.length
  have hsettled := h.settled
  rw [← htexts, List.length_map] at hlen
  rw [← htexts, ← hsent] at hsettled
  rw [← hindices, herrors] at hresult
  refine ⟨outcomes, hlen, hsettled, fun q hq => ?_, h.oneLength fun v hv => ?_, hresult⟩
  · have hq : q ∈ sent := hsent ▸ hq
    exact ⟨(h.request q hq).1, (h.request q hq).2, h.answered q hq⟩
  · cases hv

theorem zipIdx_parts (p : String × ℕ → Bool) (texts : List String) :
    (((texts.zipIdx.filter fun q => !p q).map Prod.snd) ++
      (texts.zipIdx.filter p).map Prod.snd).Perm (List.range texts.length) := by
  have h := ((List.filter_append_perm p texts.zipIdx).map Prod.snd)
  rw [List.zipIdx_map_snd, ← List.range_eq_range', List.map_append] at h
  exact List.perm_append_comm.trans h

/-- `run_embed_batch` sends the texts that fit, in order, in requests within both limits, and
accepts exactly the replies with one good vector for each text of theirs. A text that is sent gets
the vector that an accepted reply has for it where that passes validation, and any other text has
none. Exactly the texts without a vector are named by an error, once each, and all vectors accepted
on the instance have one length. -/
theorem runEmbedBatch_spec (floats : Floats α β) (config : EmbedConfig) (world : World ρ α β)
    (texts : List String) (w : ρ) :
    let result := (runEmbedBatch floats config world texts (.new w)).1
    let run := (runEmbedBatch floats config world texts (.new w)).2
    let fitting := texts.zipIdx.filter (fits config)
    (∀ q ∈ run.sent, q.texts ≠ [] ∧ q.texts.length ≤ config.maxItemsPerBatch ∧
      (q.texts.map estimateTokens).sum ≤ config.maxTokensPerBatch ∧
      ∃ reply, q.reply = some reply ∧ ∀ values, q.outcome = .ok values ↔
        ∃ items, reply = .data items ∧ Accepted floats items q.texts.length values) ∧
    (settled run.sent).map Prod.fst = fitting.map Prod.fst ∧
    result.vectors.length = texts.length ∧
    (∀ (i : ℕ) (text : String), texts[i]? = some text → fits config (text, i) = false →
      result.vectors[i]? = some none) ∧
    (∀ (k : ℕ) (text : String) (i : ℕ), fitting[k]? = some (text, i) → ∃ outcome,
      (settled run.sent)[k]? = some (text, outcome) ∧
      result.vectors[i]? = some (judge floats config run.observedDims outcome).toOption) ∧
    (∀ i : ℕ,
      (result.vectors[i]? = some none → (result.errors.map Prod.fst).count i = 1) ∧
      (result.vectors[i]? ≠ some none → (result.errors.map Prod.fst).count i = 0)) ∧
    ∀ v ∈ run.accepted, v.length = run.observedDims := by
  intro result run fitting
  obtain ⟨outcomes, hlen, hsettled, hrequest, hone, hresult⟩ :
      ∃ outcomes : List (Except PipelineError (List β)), outcomes.length = fitting.length ∧
        settled run.sent = (fitting.map Prod.fst).zip outcomes ∧ _ ∧ _ ∧ result = _ :=
    @runEmbedBatch_stored α β ρ floats config world texts w
  have hkeys : ((fitting.map Prod.snd).zip outcomes).map Prod.fst = fitting.map Prod.snd :=
    List.map_fst_zip (by rw [List.length_map, hlen])
  have hperm := zipIdx_parts (fits config) texts
  have hnodup : (fitting.map Prod.snd).Nodup :=
    (List.nodup_append.1 (hperm.nodup_iff.2 List.nodup_range)).2.1
  have hstart : ∀ {i : ℕ} {text : String}, texts[i]? = some text →
      (List.replicate texts.length (none : Option (List β)))[i]? = some none := by
    intro i text htext
    rw [List.getElem?_replicate, if_pos (List.getElem?_eq_some_iff.1 htext).1]
  refine ⟨fun q hq => ?_, ?_, ?_, fun i text htext hlong => ?_, fun k text i hk => ?_, fun i => ?_,
    fun v hv => (hone v hv).1⟩
  · obtain ⟨hne, hbound, hanswered⟩ := hrequest q hq
    exact ⟨hne, hbound.items, hbound.tokens, hanswered⟩
  · rw [hsettled, List.map_fst_zip]
    rw [List.length_map, hlen]
  · rw [hresult, foldl_storeValue_length, List.length_replicate]
  · rw [hresult, foldl_storeValue_other, hstart htext]
    rw [hkeys]
    intro hmem
    obtain ⟨⟨text', j⟩, hfit, rfl⟩ := List.mem_map.1 hmem
    obtain ⟨hzip, hfits⟩ := List.mem_filter.1 hfit
    rw [List.mk_mem_zipIdx_iff_getElem?, htext] at hzip
    rw [← Option.some.inj hzip, hlong] at hfits
    cases hfits
  · have hlt : k < outcomes.length := by
      rw [hlen]
      exact (List.getElem?_eq_some_iff.1 hk).1
    have hout : outcomes[k]? = some outcomes[k] := List.getElem?_eq_getElem hlt
    have htext : texts[i]? = some text :=
      List.mk_mem_zipIdx_iff_getElem?.1 (List.mem_of_mem_filter (List.mem_of_getElem? hk))
    have hzip : ∀ {γ : Type} (f : String × ℕ → γ),
        ((fitting.map f).zip outcomes)[k]? = some (f (text, i), outcomes[k]) := by
      intro γ f
      rw [List.getElem?_zip_eq_some, List.getElem?_map, hk]
      exact ⟨rfl, hout⟩
    refine ⟨outcomes[k], ?_, ?_⟩
    · rw [hsettled]
      exact hzip Prod.fst
    · rw [hresult]
      exact foldl_storeValue_mem _ _ _ (by rw [hkeys]; exact hnodup)
        (List.mem_of_getElem? (hzip Prod.snd)) (hstart htext)
  · rw [hresult]
    refine foldl_storeValue_count ?_ i
    rw [hkeys, List.map_map]
    exact hperm

end Call

/-- A response that has a good vector for the first text and an empty one for the second leaves
both without a vector. -/
theorem runEmbedBatch_refuses_good_vector :
    let floats : Floats ℕ ℕ := ⟨fun _ => true, id, fun _ => true⟩
    let config : EmbedConfig := ⟨none, false, 10, 2, by decide⟩
    let world : World Unit ℕ ℕ := ⟨fun w _ => (.data [(0, [7]), (1, [])], w), fun w => ([], w)⟩
    fitVector floats config [7] = some [7] ∧
    (runEmbedBatch floats config world ["", ""] (.new ())).1.vectors = [none, none] := by
  decide

end ChunkHound.NativeEmbed
