import Mathlib
import ChunkHound.ProxyBridge

/-!
# The embedding model of an index

An index has vectors of a provider, a model and a number of dimensions, and a search finds only what
was embedded alike. The model of the index is in a record beside the database. Whoever opens the
index with another configuration is held to the record, unless the operator accepts the change or
the provider is another one.

* `sessions_keep` : over any sequence of sessions that neither switch the provider nor accept
  another model, and whose providers can be held to the record, the record stays and what is
  embedded has the provider, the model and the dimensions of the record.
* `resolve_settles` : resolving once more, with nobody to decide, leaves the record and the provider
  as they are.

The record is the JSON value of its text. A session whose index is empty is not held to anything,
also where there is a record.
-/

namespace ChunkHound.EmbeddingDrift

open ProxyBridge (Json)

/-- A text by its code points, as in a JSON value. -/
abbrev Name := List ℕ

def key (s : String) : Name := s.toList.map Char.toNat

/-! ## Data -/

structure ModelGroup where
  provider : Name
  model : Name
  dims : ℕ
  count : ℕ
  latest : WithBot ℚ

structure ActiveModel where
  provider : Name
  model : Name
  dims : Option ℕ
deriving DecidableEq

structure IndexedEmbeddingModel where
  provider : Name
  model : Name
  dims : Option ℕ
  embeddingCount : ℕ
deriving DecidableEq

/-- The indexed model beside the configured one. -/
structure ModelDrift where
  indexed : IndexedEmbeddingModel
  configuredProvider : Name
  configuredModel : Name
  configuredDims : Option ℕ
deriving DecidableEq

def ModelDrift.modelChanged (drift : ModelDrift) : Bool :=
  decide ((drift.indexed.provider, drift.indexed.model) ≠
    (drift.configuredProvider, drift.configuredModel))

def ModelDrift.dimsChanged (drift : ModelDrift) : Bool :=
  match drift.configuredDims, drift.indexed.dims with
  | some configured, some indexed => decide (configured ≠ indexed)
  | _, _ => false

/-! ## The record -/

/-- The file of the record. -/
inductive Record
  | missing
  | unreadable
  | invalid
  | json (v : Json)

/-- `== 1`, which `True` and `1.0` are. -/
def isVersion : Json → Bool
  | .int n => decide (n = 1)
  | .bool b => b
  | .float bits => decide (bits = 0x3FF0000000000000)
  | _ => false

/-- The dimensions of a record, none where they are not valid. -/
def dimsOf : Option Json → Option (Option ℕ)
  | none => some none
  | some .null => some none
  | some (.int n) => if 0 < n then some (some n.toNat) else none
  | some _ => none

/-- `read_active_model`. It raises where there is a record that is not understood. -/
def readActiveModel : Record → Except Unit (Option ActiveModel)
  | .missing => .ok none
  | .json (.obj payload) =>
    if ((payload.lookup (key "version")).map isVersion).getD false then
      match payload.lookup (key "provider"), payload.lookup (key "model"),
        dimsOf (payload.lookup (key "dims")) with
      | some (.str provider), some (.str model), some dims => .ok (some ⟨provider, model, dims⟩)
      | _, _, _ => .error ()
    else .error ()
  | _ => .error ()

/-- `write_active_model`. -/
def writeActiveModel (active : ActiveModel) : Record :=
  .json (.obj [(key "version", .int 1), (key "provider", .str active.provider),
    (key "model", .str active.model),
    (key "dims", match active.dims with | none => .null | some dims => .int dims)])

/-- What is written is read, where the dimensions are not zero. -/
theorem readActiveModel_writeActiveModel (active : ActiveModel) (h : active.dims ≠ some 0) :
    readActiveModel (writeActiveModel active) = .ok (some active) := by
  obtain ⟨provider, model, dims⟩ := active
  cases dims with
  | none => rfl
  | some n =>
    have hn : (0 : ℤ) < n := by
      have : n ≠ 0 := fun h0 => h (by rw [h0])
      omega
    have hdims : dimsOf (some (.int (n : ℤ))) = some (some n) := by
      rw [dimsOf, if_pos hn, Int.toNat_natCast]
    change (match some (Json.str provider), some (Json.str model), dimsOf (some (.int (n : ℤ))) with
      | some (.str provider), some (.str model), some dims =>
        Except.ok (some (⟨provider, model, dims⟩ : ActiveModel))
      | _, _, _ => .error ()) = _
    rw [hdims]

/-! ## The model of the index -/

/-- `resolve_indexed_model`. -/
def resolveIndexedModel (groups : List ModelGroup) :
    Option ActiveModel → Option IndexedEmbeddingModel
  | some active =>
    if groups = [] then none
    else
      let found := groups.filter fun g => decide ((g.provider, g.model) =
        (active.provider, active.model)) && active.dims.all fun dims => decide (g.dims = dims)
      let dims := active.dims <|> (found.argmax ModelGroup.count).map ModelGroup.dims
      some ⟨active.provider, active.model, dims, (found.map ModelGroup.count).sum⟩
  | none =>
    (groups.argmax fun g => toLex (g.count, g.latest)).map fun dominant =>
      ⟨dominant.provider, dominant.model, some dominant.dims, dominant.count⟩

/-- `detect_model_drift`. -/
def detectModelDrift (indexed : IndexedEmbeddingModel) (provider model : Name)
    (dims : Option ℕ) : Option ModelDrift :=
  let drift : ModelDrift := ⟨indexed, provider, model, dims⟩
  if !drift.modelChanged && !drift.dimsChanged then none else some drift

/-! ## The provider -/

/-- What the endpoint of a provider is configured to : the dimensions of the models it knows, and
the output dimensions that a model may have. -/
structure Endpoint where
  knownDims : Name → Option ℕ
  allows : Name → Option ℕ → Bool

structure Provider where
  name : Name
  model : Name
  outputDims : Option ℕ
  discovered : Option ℕ
deriving DecidableEq

/-- The embedding section of the configuration, from which a search builds its own provider. -/
structure EmbeddingConfig where
  model : Name
  outputDims : Option ℕ
deriving DecidableEq

variable (e : Endpoint)

/-- `_configured_embedding_dims`. -/
def configuredEmbeddingDims (provider : Provider) : Option ℕ :=
  provider.outputDims <|> e.knownDims provider.model <|> provider.discovered

/-- `update_config` of a model and, where given, of output dimensions. -/
def updateConfig (provider : Provider) (model : Name) (outputDims : Option ℕ) : Option Provider :=
  if outputDims = some 0 then none
  else if e.allows model (outputDims <|> provider.outputDims) then
    some ⟨provider.name, model, outputDims <|> provider.outputDims, none⟩
  else none

/-- `_pin_embedding_to_index`. -/
def pinEmbeddingToIndex (provider : Provider) (config : EmbeddingConfig)
    (indexed : IndexedEmbeddingModel) : Provider × EmbeddingConfig :=
  match updateConfig e provider indexed.model indexed.dims with
  | some pinned => (pinned, ⟨indexed.model, indexed.dims <|> config.outputDims⟩)
  | none =>
    match updateConfig e provider indexed.model none with
    | some pinned => (pinned, ⟨indexed.model, config.outputDims⟩)
    | none => (provider, config)

/-! ## Opening an index -/

/-- What is found where an index is opened : the provider and its configuration, the groups of the
index, whether the record has a path, may be written and is written, and who decides. -/
structure Opening where
  enabled : Bool
  endpoint : Endpoint
  provider : Provider
  config : EmbeddingConfig
  groups : Option (List ModelGroup)
  hasPath : Bool
  readOnly : Bool
  writes : Bool
  onModelDrift : Option (ModelDrift → Bool)

/-- `_load_active_model`. -/
def loadActiveModel (o : Opening) (record : Record) : Option ActiveModel × Bool :=
  if o.hasPath then
    match readActiveModel record with
    | .ok active => (active, !o.readOnly)
    | .error _ => (none, false)
  else (none, false)

/-- `_save_active_model`. -/
def saveActiveModel (o : Opening) (record : Record) (active : ActiveModel) : Record :=
  if o.hasPath && o.writes then writeActiveModel active else record

/-- The record once the index has been looked at. -/
def claim (o : Opening) (record : Record) (indexed : IndexedEmbeddingModel) : Record :=
  if (loadActiveModel o record).1.isNone && (loadActiveModel o record).2 then
    saveActiveModel o record ⟨indexed.provider, indexed.model, indexed.dims⟩
  else record

/-- The record of a change that is made. -/
def change (o : Opening) (record : Record) (indexed : IndexedEmbeddingModel) : Record :=
  if (loadActiveModel o record).2 then
    saveActiveModel o (claim o record indexed)
      ⟨o.provider.name, o.provider.model, configuredEmbeddingDims o.endpoint o.provider⟩
  else claim o record indexed

/-- The operator is asked, and accepts. -/
def accepted (o : Opening) (drift : ModelDrift) : Bool :=
  match o.onModelDrift with
  | none => false
  | some decision => decision drift

/-- What comes of it. -/
structure Settled where
  record : Record
  provider : Provider
  config : EmbeddingConfig

/-- The index keeps its model. -/
def hold (o : Opening) (record : Record) (indexed : IndexedEmbeddingModel) : Settled :=
  let pinned := pinEmbeddingToIndex o.endpoint o.provider o.config indexed
  ⟨claim o record indexed, pinned.1, pinned.2⟩

/-- What is done about a drift. -/
def settle (o : Opening) (record : Record) (indexed : IndexedEmbeddingModel) : Settled :=
  match detectModelDrift indexed o.provider.name o.provider.model
    (configuredEmbeddingDims o.endpoint o.provider) with
  | none => ⟨claim o record indexed, o.provider, o.config⟩
  | some drift =>
    if indexed.provider ≠ o.provider.name then ⟨change o record indexed, o.provider, o.config⟩
    else if accepted o drift && drift.modelChanged then
      ⟨change o record indexed, o.provider, o.config⟩
    else hold o record indexed

/-- The model of the index that is opened. -/
def indexedModel (o : Opening) (record : Record) : Option IndexedEmbeddingModel :=
  if o.enabled then
    o.groups.bind fun groups => resolveIndexedModel groups (loadActiveModel o record).1
  else none

/-- `_resolve_embedding_model_drift`. -/
def resolve (o : Opening) (record : Record) : Settled :=
  match indexedModel o record with
  | none => ⟨record, o.provider, o.config⟩
  | some indexed => settle o record indexed

/-! ## One opening -/

/-- There is no drift, or the index changes its model, or keeps it. -/
theorem settle_cases (o : Opening) (record : Record) (indexed : IndexedEmbeddingModel) :
    (detectModelDrift indexed o.provider.name o.provider.model
        (configuredEmbeddingDims o.endpoint o.provider) = none ∧
      settle o record indexed = ⟨claim o record indexed, o.provider, o.config⟩) ∨
    (∃ drift, detectModelDrift indexed o.provider.name o.provider.model
        (configuredEmbeddingDims o.endpoint o.provider) = some drift ∧
      (indexed.provider ≠ o.provider.name ∨ (accepted o drift = true ∧ drift.modelChanged = true)) ∧
      settle o record indexed = ⟨change o record indexed, o.provider, o.config⟩) ∨
    (detectModelDrift indexed o.provider.name o.provider.model
        (configuredEmbeddingDims o.endpoint o.provider) ≠ none ∧
      indexed.provider = o.provider.name ∧ settle o record indexed = hold o record indexed) := by
  unfold settle
  split
  · rename_i hdrift
    exact .inl ⟨hdrift, rfl⟩
  · rename_i drift hdrift
    split
    · rename_i hprovider
      exact .inr (.inl ⟨drift, hdrift, .inl hprovider, rfl⟩)
    · rename_i hprovider
      split
      · rename_i haccepted
        rw [Bool.and_eq_true] at haccepted
        exact .inr (.inl ⟨drift, hdrift, .inr haccepted, rfl⟩)
      · refine .inr (.inr ⟨?_, not_not.1 hprovider, rfl⟩)
        rw [hdrift]
        exact Option.some_ne_none drift

variable {record : Record} {indexed : IndexedEmbeddingModel} {o : Opening}

theorem settle_of_none (h : detectModelDrift indexed o.provider.name o.provider.model
      (configuredEmbeddingDims o.endpoint o.provider) = none) :
    settle o record indexed = ⟨claim o record indexed, o.provider, o.config⟩ := by
  rw [settle, h]

variable {dims : Option ℕ}

variable {provider model : Name}

theorem detectModelDrift_eq_none_iff : detectModelDrift indexed provider model dims = none ↔
      indexed.provider = provider ∧ indexed.model = model ∧
        ∀ configured, dims = some configured → ∀ n, indexed.dims = some n → configured = n := by
  have hdims : (ModelDrift.dimsChanged ⟨indexed, provider, model, dims⟩ = false) ↔
      ∀ configured, dims = some configured → ∀ n, indexed.dims = some n → configured = n := by
    unfold ModelDrift.dimsChanged
    dsimp only
    split <;> rename_i h
    · simp_all
    · constructor
      · intro _ configured hconfigured n hn
        exact absurd hn (h configured n hconfigured)
      · exact fun _ => rfl
  unfold detectModelDrift
  simp only [Bool.and_eq_true, Bool.not_eq_true', hdims, ModelDrift.modelChanged,
    decide_eq_false_iff_not, not_not, Prod.mk.injEq, ite_eq_left_iff, reduceCtorEq, imp_false,
    and_assoc]

/-- How many vectors there are does not matter. -/
theorem detectModelDrift_count (n : ℕ) :
    detectModelDrift ⟨indexed.provider, indexed.model, indexed.dims, n⟩ provider model dims = none ↔
      detectModelDrift indexed provider model dims = none := by
  rw [detectModelDrift_eq_none_iff, detectModelDrift_eq_none_iff]

theorem loadActiveModel_of_ok {active : Option ActiveModel}
    (hpath : o.hasPath = true) (h : readActiveModel record = .ok active) :
    loadActiveModel o record = (active, !o.readOnly) := by
  rw [loadActiveModel, if_pos hpath, h]

variable {groups : List ModelGroup}

/-- The model of the record is the model of the index. -/
theorem resolveIndexedModel_active (hgroups : groups ≠ [])
    (active : ActiveModel) : ∃ dims n, resolveIndexedModel groups (some active) =
      some ⟨active.provider, active.model, dims, n⟩ ∧
      (active.dims ≠ none → dims = active.dims) := by
  refine ⟨_, _, by rw [resolveIndexedModel, if_neg hgroups], fun h => ?_⟩
  cases hdims : active.dims with
  | none => exact absurd hdims h
  | some d => rfl

theorem updateConfig_eq_some {e : Endpoint} {provider pinned : Provider} {model : Name}
    {outputDims : Option ℕ} (h : updateConfig e provider model outputDims = some pinned) :
    pinned = ⟨provider.name, model, outputDims <|> provider.outputDims, none⟩ := by
  unfold updateConfig at h
  split at h
  · cases h
  · split at h
    · exact (Option.some.inj h).symm
    · cases h

theorem indexedModel_active
    (active : ActiveModel) (henabled : o.enabled = true) (hgroups : o.groups = some groups)
    (hne : groups ≠ []) (hload : (loadActiveModel o record).1 = some active) :
    ∃ dims n, indexedModel o record = some ⟨active.provider, active.model, dims, n⟩ ∧
      (active.dims ≠ none → dims = active.dims) := by
  obtain ⟨dims, n, hresolve, hdims⟩ := resolveIndexedModel_active hne active
  refine ⟨dims, n, ?_, hdims⟩
  rw [indexedModel, if_pos henabled, hgroups, Option.bind_some, hload, hresolve]

/-! ## Sessions -/

structure Vector where
  provider : Name
  model : Name
  dims : ℕ

structure Store where
  record : Record
  vectors : List Vector

/-- The groups are the groups of the vectors. -/
structure Summarises (groups : List ModelGroup) (vectors : List Vector) : Prop where
  keys : (groups.map fun g => (g.provider, g.model, g.dims)).Nodup
  count : ∀ g ∈ groups, 0 < g.count ∧ g.count = vectors.countP fun v =>
    decide ((v.provider, v.model, v.dims) = (g.provider, g.model, g.dims))
  complete : ∀ v ∈ vectors, ∃ g ∈ groups, (g.provider, g.model, g.dims) =
    (v.provider, v.model, v.dims)

/-- A vector that the provider embeds. What it does not know of the dimensions it takes as they
come. -/
structure EmbeddedBy (e : Endpoint) (provider : Provider) (v : Vector) : Prop where
  provider_eq : v.provider = provider.name
  model_eq : v.model = provider.model
  dims_eq : ∀ dims, configuredEmbeddingDims e provider = some dims → v.dims = dims

/-- A session opens the index, and then embeds and removes. -/
structure Session (o : Opening) (before after : Store) : Prop where
  groups : ∀ groups, o.groups = some groups → Summarises groups before.vectors
  record : after.record = (resolve o before.record).record
  vectors : ∀ v ∈ after.vectors, v ∈ before.vectors ∨
    EmbeddedBy o.endpoint (resolve o before.record).provider v

inductive Run : Store → List Opening → Store → Prop
  | nil (store : Store) : Run store [] store
  | cons {before next after : Store} {o : Opening} {os : List Opening} (h : Session o before next)
      (hrest : Run next os after) : Run before (o :: os) after

/-- The session cannot change the model of the index, and can be held to it. -/
structure Keeps (active : ActiveModel) (o : Opening) : Prop where
  enabled : o.enabled = true
  hasPath : o.hasPath = true
  groups : ∃ groups, o.groups = some groups ∧ groups ≠ []
  provider : o.provider.name = active.provider
  declines : ∀ drift : ModelDrift, drift.modelChanged = true → accepted o drift = false
  allows : (updateConfig o.endpoint o.provider active.model active.dims).isSome = true
  known : o.provider.model = active.model → active.dims ≠ none →
    configuredEmbeddingDims o.endpoint o.provider ≠ none

theorem updateConfig_pinned {e : Endpoint} {provider : Provider} (config : EmbeddingConfig)
    (indexed : IndexedEmbeddingModel)
    (hdims : dims ≠ none → indexed.dims = dims)
    (hallows : (updateConfig e provider indexed.model dims).isSome = true) :
    (pinEmbeddingToIndex e provider config indexed).1.name = provider.name ∧
    (pinEmbeddingToIndex e provider config indexed).1.model = indexed.model ∧
    (dims ≠ none → (pinEmbeddingToIndex e provider config indexed).1.outputDims = dims) := by
  obtain ⟨pinned, hpinned⟩ := Option.isSome_iff_exists.1 hallows
  unfold pinEmbeddingToIndex
  split
  · rename_i pinned' h
    rw [updateConfig_eq_some h]
    refine ⟨rfl, rfl, fun hne => ?_⟩
    obtain ⟨d, rfl⟩ := Option.ne_none_iff_exists'.1 hne
    rw [hdims hne]
    rfl
  · rename_i h
    cases dims with
    | none =>
      rw [hpinned]
      rw [updateConfig_eq_some hpinned]
      exact ⟨rfl, rfl, fun hne => absurd rfl hne⟩
    | some d =>
      rw [hdims (Option.some_ne_none d), hpinned] at h
      cases h

/-- A session that keeps the model embeds as the record says. -/
theorem resolve_keeps {active : ActiveModel}
    (hrecord : readActiveModel record = .ok (some active)) (h : Keeps active o) :
    (resolve o record).record = record ∧ ∀ v, EmbeddedBy o.endpoint (resolve o record).provider v →
      v.provider = active.provider ∧ v.model = active.model ∧
        ∀ dims, active.dims = some dims → v.dims = dims := by
  obtain ⟨groups, hgroups, hne⟩ := h.groups
  have hload := loadActiveModel_of_ok h.hasPath hrecord
  obtain ⟨dims, n, hindexed, hdims⟩ := indexedModel_active active h.enabled hgroups hne
    (show (loadActiveModel o record).1 = some active by rw [hload])
  have hclaim : ∀ indexed, claim o record indexed = record := fun indexed => by
    rw [claim, hload]
    rfl
  have hresolve : resolve o record = settle o record ⟨active.provider, active.model, dims, n⟩ := by
    rw [resolve, hindexed]
  rw [hresolve]
  rcases settle_cases o record ⟨active.provider, active.model, dims, n⟩ with
    ⟨hdrift, heq⟩ | ⟨drift, hdrift, hchange, -⟩ | ⟨-, -, heq⟩
  · rw [heq]
    obtain ⟨-, hmodel, hsame⟩ := detectModelDrift_eq_none_iff.1 hdrift
    refine ⟨hclaim _, fun v hv => ⟨?_, ?_, fun d hd => ?_⟩⟩
    · rw [hv.provider_eq, h.provider]
    · rw [hv.model_eq, ← hmodel]
    · have hsome : active.dims ≠ none := by rw [hd]; exact Option.some_ne_none d
      obtain ⟨c, hc⟩ := Option.ne_none_iff_exists'.1 (h.known hmodel.symm hsome)
      rw [hv.dims_eq c hc]
      exact hsame c hc d (by rw [hdims hsome, hd])
  · rcases hchange with hprovider | ⟨haccepted, hmodel⟩
    · exact absurd h.provider.symm hprovider
    · rw [h.declines drift hmodel] at haccepted
      cases haccepted
  · rw [heq]
    obtain ⟨hname, hmodel, houtput⟩ := updateConfig_pinned o.config
      ⟨active.provider, active.model, dims, n⟩ hdims h.allows
    refine ⟨hclaim _, fun v hv => ⟨?_, ?_, fun d hd => ?_⟩⟩
    · rw [hv.provider_eq, ← h.provider]
      exact hname
    · rw [hv.model_eq]
      exact hmodel
    · have hsome : active.dims ≠ none := by rw [hd]; exact Option.some_ne_none d
      refine hv.dims_eq d ?_
      rw [configuredEmbeddingDims]
      change ((hold o record _).provider.outputDims <|> _) = _
      rw [show (hold o record ⟨active.provider, active.model, dims, n⟩).provider.outputDims =
        some d by rw [← hd]; exact houtput hsome]
      rfl

/-- While no session switches the provider or accepts another model, the record stays, and all that
is embedded is embedded as it says. -/
theorem sessions_keep {before after : Store} {os : List Opening} {active : ActiveModel}
    (hrun : Run before os after) (hkeeps : ∀ o ∈ os, Keeps active o)
    (hrecord : readActiveModel before.record = .ok (some active)) :
    after.record = before.record ∧ ∀ v ∈ after.vectors, v ∈ before.vectors ∨
      (v.provider = active.provider ∧ v.model = active.model ∧
        ∀ dims, active.dims = some dims → v.dims = dims) := by
  induction hrun with
  | nil store => exact ⟨rfl, fun v hv => .inl hv⟩
  | cons h hrest ih =>
    rename_i before next after o os
    obtain ⟨hsame, hembedded⟩ := resolve_keeps hrecord (hkeeps o List.mem_cons_self)
    have hnext : next.record = before.record := by rw [h.record, hsame]
    obtain ⟨hafter, hvectors⟩ := ih (fun o ho => hkeeps o (List.mem_cons_of_mem _ ho))
      (by rw [hnext]; exact hrecord)
    refine ⟨hafter.trans hnext, fun v hv => ?_⟩
    rcases hvectors v hv with hv | hv
    · rcases h.vectors v hv with hv | hv
      · exact .inl hv
      · exact .inr (hembedded v hv)
    · exact .inr hv

/-- An endpoint that knows a model with 3 dimensions and any number of output dimensions. -/
def knowing : Endpoint := ⟨fun _ => some 3, fun _ _ => true⟩

/-- Another model of the provider is configured, and nobody decides. -/
def otherModel : Opening where
  enabled := true
  endpoint := knowing
  provider := ⟨key "p", key "new", none, none⟩
  config := ⟨key "new", none⟩
  groups := some [⟨key "p", key "old", 2, 1, ⊥⟩]
  hasPath := true
  readOnly := false
  writes := true
  onModelDrift := none

/-- The old model is recorded, and a vector of it is stored. -/
def storedOld : Store :=
  ⟨writeActiveModel ⟨key "p", key "old", some 2⟩, [⟨key "p", key "old", 2⟩]⟩

theorem sessions_keep_otherModel :
    ∃ after, Run storedOld [otherModel] after ∧ after.vectors.length = 2 ∧
      after.record = storedOld.record ∧ ∀ v ∈ after.vectors, v ∈ storedOld.vectors ∨
        (v.provider = key "p" ∧ v.model = key "old" ∧ ∀ dims, some 2 = some dims →
          v.dims = dims) := by
  let after : Store := ⟨storedOld.record, [⟨key "p", key "old", 2⟩, ⟨key "p", key "old", 2⟩]⟩
  have hsession : Session otherModel storedOld after := by
    refine ⟨fun groups h => ?_, rfl, fun v hv => .inl ?_⟩
    · cases h
      exact ⟨by decide, by decide, by decide⟩
    · simpa [storedOld, after] using hv
  have hkeeps : ∀ o ∈ [otherModel], Keeps ⟨key "p", key "old", some 2⟩ o := by
    intro o ho
    rw [List.mem_singleton] at ho
    subst ho
    exact ⟨rfl, rfl, ⟨_, rfl, by simp⟩, rfl, fun _ _ => rfl, by decide,
      fun h => absurd h (by decide), ⟩
  have hrun : Run storedOld [otherModel] after := .cons hsession (.nil _)
  exact ⟨after, hrun, rfl, sessions_keep hrun hkeeps
    (readActiveModel_writeActiveModel ⟨key "p", key "old", some 2⟩ (by decide))⟩

/-! ## Once more -/

/-- The provider and its configuration as they have come out, nobody to decide. -/
def again (o : Opening) (settled : Settled) : Opening :=
  { o with provider := settled.provider, config := settled.config, onModelDrift := none }

/-- The record is understood, may be written and is written. -/
structure Recordable (o : Opening) (record : Record) : Prop where
  hasPath : o.hasPath = true
  understood : ∃ active, readActiveModel record = .ok active
  readOnly : o.readOnly = false
  writes : o.writes = true
  dims : ∀ groups, o.groups = some groups → ∀ g ∈ groups, g.dims ≠ 0
  configured : configuredEmbeddingDims o.endpoint o.provider ≠ some 0

/-- Nothing is done where the index has a record and the provider is as it says. -/
theorem resolve_of_same (active : ActiveModel)
    (hpath : o.hasPath = true) (hrecord : readActiveModel record = .ok (some active))
    (hname : o.provider.name = active.provider) (hmodel : o.provider.model = active.model)
    (hdims : active.dims = configuredEmbeddingDims o.endpoint o.provider) :
    resolve o record = ⟨record, o.provider, o.config⟩ := by
  have hload := loadActiveModel_of_ok hpath hrecord
  unfold resolve
  split
  · rfl
  · rename_i indexed hindexed
    have hclaim : claim o record indexed = record := by
      rw [claim, hload]
      rfl
    have hnone : detectModelDrift indexed o.provider.name o.provider.model
        (configuredEmbeddingDims o.endpoint o.provider) = none := by
      unfold indexedModel at hindexed
      split at hindexed
      · obtain ⟨groups, hgroups, hresolve⟩ := Option.bind_eq_some_iff.1 hindexed
        rw [hload] at hresolve
        have hne : groups ≠ [] := by
          rintro rfl
          cases hresolve
        obtain ⟨dims, n, heq, hsame⟩ := resolveIndexedModel_active hne active
        rw [heq] at hresolve
        cases hresolve
        refine detectModelDrift_eq_none_iff.2 ⟨hname.symm, hmodel.symm, fun c hc n hn => ?_⟩
        have hsome : active.dims ≠ none := by rw [hdims, hc]; exact Option.some_ne_none c
        rw [show dims = some n from hn] at hsame
        exact Option.some.inj (by rw [← hc, ← hdims, ← hsame hsome])
      · cases hindexed
    rw [settle_of_none hnone, hclaim]

theorem change_eq (h : Recordable o record)
    (indexed : IndexedEmbeddingModel) : change o record indexed = writeActiveModel
      ⟨o.provider.name, o.provider.model, configuredEmbeddingDims o.endpoint o.provider⟩ := by
  obtain ⟨active, hactive⟩ := h.understood
  rw [change, loadActiveModel_of_ok h.hasPath hactive, h.readOnly]
  dsimp only
  rw [Bool.not_false, if_pos rfl, saveActiveModel, h.hasPath, h.writes]
  rfl

/-- The model of the index is the same after the record is claimed. -/
theorem indexedModel_claim (o' : Opening) (h : Recordable o record)
    (hindexed : indexedModel o record = some indexed)
    (hsame : o'.enabled = o.enabled ∧ o'.groups = o.groups ∧ o'.hasPath = o.hasPath) :
    ∃ active n, readActiveModel (claim o record indexed) = .ok (some active) ∧
      indexedModel o' (claim o record indexed) =
        some ⟨indexed.provider, indexed.model, indexed.dims, n⟩ := by
  obtain ⟨found, hfound⟩ := h.understood
  have hload := loadActiveModel_of_ok h.hasPath hfound
  have hpath : o'.hasPath = true := hsame.2.2.trans h.hasPath
  unfold indexedModel at hindexed
  split at hindexed
  · rename_i henabled
    obtain ⟨groups, hgroups, hresolve⟩ := Option.bind_eq_some_iff.1 hindexed
    rw [hload] at hresolve
    dsimp only at hresolve
    cases found with
    | some active =>
      have hclaim : claim o record indexed = record := by
        rw [claim, hload]
        rfl
      refine ⟨active, indexed.embeddingCount, by rw [hclaim]; exact hfound, ?_⟩
      rw [hclaim, indexedModel, if_pos (hsame.1.trans henabled), hsame.2.1, hgroups,
        Option.bind_some, loadActiveModel_of_ok hpath hfound, hresolve]
    | none =>
      rw [resolveIndexedModel] at hresolve
      obtain ⟨dominant, hdominant, rfl⟩ := Option.map_eq_some_iff.1 hresolve
      have hmem : dominant ∈ groups := List.argmax_mem hdominant
      have hclaim : claim o record ⟨dominant.provider, dominant.model, some dominant.dims,
          dominant.count⟩ = writeActiveModel
            ⟨dominant.provider, dominant.model, some dominant.dims⟩ := by
        rw [claim, hload, h.readOnly, saveActiveModel, h.hasPath, h.writes]
        rfl
      have hread := readActiveModel_writeActiveModel
        ⟨dominant.provider, dominant.model, some dominant.dims⟩
        (fun h0 => h.dims groups hgroups dominant hmem (Option.some.inj h0))
      obtain ⟨dims, n, hagain, hdims⟩ := indexedModel_active (o := o')
        ⟨dominant.provider, dominant.model, some dominant.dims⟩
        (hsame.1.trans henabled) (hsame.2.1.trans hgroups) (List.ne_nil_of_mem hmem)
        (show (loadActiveModel o' (writeActiveModel _)).1 = _ by
          rw [loadActiveModel_of_ok hpath hread])
      refine ⟨_, n, by rw [hclaim]; exact hread, ?_⟩
      rw [hclaim, hagain, hdims (Option.some_ne_none _)]
  · cases hindexed

/-- Holding a provider that is already held changes nothing. -/
theorem pinEmbeddingToIndex_again (e : Endpoint) (provider : Provider) (config : EmbeddingConfig)
    (indexed : IndexedEmbeddingModel) (n : ℕ)
    (hdrift : detectModelDrift indexed
      (pinEmbeddingToIndex e provider config indexed).1.name
      (pinEmbeddingToIndex e provider config indexed).1.model
      (configuredEmbeddingDims e (pinEmbeddingToIndex e provider config indexed).1) ≠ none)
    (hname : indexed.provider = provider.name) :
    pinEmbeddingToIndex e (pinEmbeddingToIndex e provider config indexed).1
      (pinEmbeddingToIndex e provider config indexed).2
      ⟨indexed.provider, indexed.model, indexed.dims, n⟩ =
    pinEmbeddingToIndex e provider config indexed := by
  cases hfirst : updateConfig e provider indexed.model indexed.dims with
  | some pinned =>
    -- the dimensions are those of the index, or the index has none : there is no drift
    have hpin : (pinEmbeddingToIndex e provider config indexed).1 = pinned := by
      rw [pinEmbeddingToIndex, hfirst]
    refine absurd (detectModelDrift_eq_none_iff.2 ?_) hdrift
    rw [hpin, updateConfig_eq_some hfirst]
    refine ⟨hname, rfl, fun c hc d hd => ?_⟩
    rw [configuredEmbeddingDims, hd] at hc
    exact (Option.some.inj hc).symm
  | none =>
    cases hsecond : updateConfig e provider indexed.model none with
    | some pinned =>
      have hpin : pinEmbeddingToIndex e provider config indexed =
          (pinned, ⟨indexed.model, config.outputDims⟩) := by
        rw [pinEmbeddingToIndex, hfirst]
        dsimp only
        rw [hsecond]
      have hpinned := updateConfig_eq_some hsecond
      have hagain : ∀ dims, updateConfig e pinned indexed.model dims =
          (updateConfig e provider indexed.model dims) := by
        intro dims
        rw [hpinned]
        rfl
      rw [hpin, pinEmbeddingToIndex]
      dsimp only
      rw [hagain, hagain, hfirst, hsecond]
    | none =>
      have hpin : pinEmbeddingToIndex e provider config indexed = (provider, config) := by
        rw [pinEmbeddingToIndex, hfirst]
        dsimp only
        rw [hsecond]
      rw [hpin, pinEmbeddingToIndex]
      dsimp only
      rw [hfirst]
      dsimp only
      rw [hsecond]

theorem pinEmbeddingToIndex_name (e : Endpoint) (provider : Provider) (config : EmbeddingConfig)
    (indexed : IndexedEmbeddingModel) :
    (pinEmbeddingToIndex e provider config indexed).1.name = provider.name := by
  unfold pinEmbeddingToIndex
  split
  · rename_i h
    rw [updateConfig_eq_some h]
  · split
    · rename_i h
      rw [updateConfig_eq_some h]
    · rfl

/-- An index that has been opened is settled : to look at it once more, as a provider is registered
that was built before, changes neither the record nor the provider nor its configuration. -/
theorem resolve_settles {o : Opening} {record : Record} (h : Recordable o record) :
    resolve (again o (resolve o record)) (resolve o record).record = resolve o record := by
  cases hindexed : indexedModel o record with
  | none =>
    have hresolve : resolve o record = ⟨record, o.provider, o.config⟩ := by
      rw [resolve, hindexed]
    have hagain : indexedModel (again o (resolve o record)) record = none := hindexed
    rw [resolve, show (resolve o record).record = record by rw [hresolve], hagain, hresolve]
    rfl
  | some indexed =>
    have hresolve : resolve o record = settle o record indexed := by
      rw [resolve, hindexed]
    rw [hresolve]
    obtain ⟨active, n, hread, hsame⟩ := indexedModel_claim (again o (settle o record indexed))
      h hindexed ⟨rfl, rfl, rfl⟩
    have hload := loadActiveModel_of_ok (o := again o (settle o record indexed))
      h.hasPath hread
    have hclaim : ∀ indexed', claim (again o (settle o record indexed)) (claim o record indexed)
        indexed' = claim o record indexed := fun indexed' => by
      rw [claim, hload]
      rfl
    rcases settle_cases o record indexed with
      ⟨hdrift, heq⟩ | ⟨drift, -, -, heq⟩ | ⟨hdrift, hprovider, heq⟩
    · rw [heq] at hsame hclaim ⊢
      rw [resolve, hsame]
      dsimp only
      have hnone := (detectModelDrift_count n).2 hdrift
      rw [settle_of_none (o := again o ⟨claim o record indexed, o.provider, o.config⟩) hnone,
        hclaim]
      rfl
    · rw [heq, change_eq h]
      refine resolve_of_same ⟨o.provider.name, o.provider.model,
        configuredEmbeddingDims o.endpoint o.provider⟩ h.hasPath ?_ rfl rfl rfl
      exact readActiveModel_writeActiveModel _ h.configured
    · rw [heq] at hsame hclaim ⊢
      rw [resolve, show (hold o record indexed).record = claim o record indexed from rfl, hsame]
      dsimp only
      rcases settle_cases (again o (hold o record indexed)) (claim o record indexed)
        ⟨indexed.provider, indexed.model, indexed.dims, n⟩ with
        ⟨-, hagain⟩ | ⟨drift, -, hchange, -⟩ | ⟨hdrift', -, hagain⟩
      · rw [hagain, hclaim]
        rfl
      · rcases hchange with hother | ⟨haccepted, -⟩
        · exact absurd (hprovider.trans (pinEmbeddingToIndex_name ..).symm) hother
        · cases haccepted
      · have hpin := pinEmbeddingToIndex_again o.endpoint o.provider o.config indexed n
          (fun hnone => hdrift' ((detectModelDrift_count n).2 hnone)) hprovider
        rw [hagain, hold, hclaim]
        change (⟨_, (pinEmbeddingToIndex o.endpoint
          (pinEmbeddingToIndex o.endpoint o.provider o.config indexed).1
          (pinEmbeddingToIndex o.endpoint o.provider o.config indexed).2 _).1,
          (pinEmbeddingToIndex o.endpoint
          (pinEmbeddingToIndex o.endpoint o.provider o.config indexed).1
          (pinEmbeddingToIndex o.endpoint o.provider o.config indexed).2 _).2⟩ : Settled) = _
        rw [hpin]
        rfl

theorem resolve_settles_otherModel :
    resolve (again otherModel (resolve otherModel .missing)) (resolve otherModel .missing).record =
      resolve otherModel .missing :=
  resolve_settles ⟨rfl, ⟨none, rfl⟩, rfl, rfl, fun groups h => by cases h; decide, by decide⟩

end ChunkHound.EmbeddingDrift
