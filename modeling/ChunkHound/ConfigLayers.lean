import ChunkHound.RemoteRules

/-!
# The layers of the configuration

The configuration is merged from the environment, the global defaults, the file of the project, the
file that is given, and the command line, each over those before it. The file of the project and the
file that is given may come with a repository that nobody trusts : what they say of the remote
configuration is dropped.

* `highest_wins` : at every path the last layer that says something decides.
* `remote_from_operator` : what the configuration says of the remote configuration is what the
  environment, the global defaults and the command line say.

What a layer says is a dictionary none of whose keys comes twice. Where a file cannot be read or is
no dictionary the configuration is not built. The models that are made of the merged data, with
their own defaults, are not part of this.
-/

namespace ChunkHound.ConfigLayers

open DictTree RemoteConfig

/-! ## Sources -/

/-- A dictionary, and the dictionaries in it, without a key that comes twice. -/
abbrev Layer := {d : Dict // DictTree.Distinct (.dict d)}

/-- A JSON file. -/
inductive File
  | missing
  | fails
  | json (v : RemoteConfig.Value) (distinct : DictTree.Distinct v)

/-- The dictionary of a file, none where something is raised. -/
def File.layer : File → Option Layer
  | .json (.dict d) distinct => some ⟨d, distinct⟩
  | _ => none

/-- A file and what it holds. -/
structure Source where
  path : Key
  file : File

inductive LayerName
  | env
  | global
  | localConfig
  | configFile
  | cli
  deriving DecidableEq

/-- What `Config` is built from. The sources are those that are found. -/
structure Inputs where
  skipLayers : LayerName → Bool
  targetDir : Key
  configArg : Option Key
  env : Layer
  globalOverride : Option Layer
  globalFile : Option Source
  localFile : Option Source
  configFile : Option File
  cli : Option Layer
  kwargs : Option Layer

/-! ## Merging -/

def pathAt (k : String) (path : Key) (configData : Dict) : Dict :=
  setAt [k.toList] (.leaf (.str path)) configData

def excludeUserSupplied : List Key := ["indexing".toList, "exclude_user_supplied".toList]

/-- `_mark_exclude_user_supplied`. -/
def markExcludeUserSupplied (data : Dict) : Dict :=
  match find ["indexing".toList, "exclude".toList] (.dict data) with
  | some (.arr _) => setAt excludeUserSupplied (.leaf (.bool true)) data
  | _ => data

/-- `pop("remote_config", None)`. -/
def withoutRemote (layer : Layer) : Layer :=
  ⟨OrderedDict.erase "remote_config".toList layer.1, distinct_erase layer.2⟩

/-- `_apply_env`. -/
def applyEnv (i : Inputs) (configData : Dict) : Dict := deepMerge configData i.env.1

/-- `_apply_global_json`. -/
def applyGlobalJson (i : Inputs) (configData : Dict) : Option Dict :=
  match i.globalOverride with
  | some layer => some (markExcludeUserSupplied (deepMerge configData layer.1))
  | none =>
    match i.globalFile with
    | none => some configData
    | some source => source.file.layer.map fun layer =>
      markExcludeUserSupplied
        (deepMerge (pathAt "global_config_file" source.path configData) layer.1)

/-- `_apply_local_json`. -/
def applyLocalJson (i : Inputs) (configData : Dict) : Option Dict :=
  match i.localFile with
  | none => some configData
  | some source => source.file.layer.map fun layer =>
    markExcludeUserSupplied
      (deepMerge (pathAt "local_config_file" source.path configData) (withoutRemote layer).1)

/-- `_apply_config_file`. -/
def applyConfigFile (i : Inputs) (configData : Dict) : Option Dict :=
  match i.configFile with
  | none => some configData
  | some file => file.layer.map fun layer =>
    markExcludeUserSupplied (deepMerge configData (withoutRemote layer).1)

/-- `_apply_cli`, and the direct overrides in the same way. -/
def applyOverrides (overrides : Option Layer) (configData : Dict) : Dict :=
  match overrides with
  | none => configData
  | some layer => deepMerge configData (markExcludeUserSupplied layer.1)

def unlessSkipped (i : Inputs) (name : LayerName) (f : Dict → Option Dict) (configData : Dict) :
    Option Dict :=
  if i.skipLayers name then some configData else f configData

/-- The data before any layer. -/
def start (i : Inputs) : Dict :=
  match i.configArg with
  | none => []
  | some path => pathAt "config_file" path []

/-- `Config.__init__`, up to the merged data. -/
def build (i : Inputs) : Option Dict := do
  let withEnv ← unlessSkipped i .env (fun d => some (applyEnv i d)) (start i)
  let withGlobal ← unlessSkipped i .global (applyGlobalJson i) withEnv
  let withLocal ← unlessSkipped i .localConfig (applyLocalJson i) withGlobal
  let withFile ← unlessSkipped i .configFile (applyConfigFile i) withLocal
  let withCli ← unlessSkipped i .cli (fun d => some (applyOverrides i.cli d)) withFile
  some (pathAt "target_dir" i.targetDir (applyOverrides i.kwargs withCli))

/-! ## What the layers say -/

def saidBy (i : Inputs) (name : LayerName) (layer : Option Layer) : List Layer :=
  if i.skipLayers name then [] else layer.toList

def envSays (i : Inputs) : List Layer := saidBy i .env (some i.env)

def globalSays (i : Inputs) : List Layer :=
  saidBy i .global (i.globalOverride <|> i.globalFile.bind fun source => source.file.layer)

def localSays (i : Inputs) : List Layer :=
  saidBy i .localConfig ((i.localFile.bind fun source => source.file.layer).map withoutRemote)

def configFileSays (i : Inputs) : List Layer :=
  saidBy i .configFile ((i.configFile.bind File.layer).map withoutRemote)

def overridesSay (i : Inputs) : List Layer := saidBy i .cli i.cli ++ i.kwargs.toList

/-- The layers, from the lowest to the highest. -/
def layers (i : Inputs) : List Layer :=
  envSays i ++ globalSays i ++ localSays i ++ configFileSays i ++ overridesSay i

/-- The layers merged in order. -/
def mergeAll (ls : List Layer) : Dict := (ls.map Subtype.val).foldl deepMerge []

/-- What is entered of its own accord. -/
def reserved : List (List Key) :=
  [["config_file".toList], ["global_config_file".toList], ["local_config_file".toList],
    ["target_dir".toList], excludeUserSupplied]

/-- The data is what the layers say, but for what is entered of its own accord. -/
def Reflects (configData : Dict) (ls : List Layer) : Prop :=
  ∀ p, (∀ r ∈ reserved, Apart r p) → find p (.dict configData) = find p (.dict (mergeAll ls))

variable {ls : List Layer} {configData : Dict}

theorem Reflects.pathAt (h : Reflects configData ls)
    (k : String) (hk : [k.toList] ∈ reserved) (path : Key) :
    Reflects (pathAt k path configData) ls := fun p hp => by
  rw [ConfigLayers.pathAt, find_setAt_of_apart (hp _ hk)]
  exact h p hp

theorem Reflects.append_none (h : Reflects configData ls) :
    Reflects configData (ls ++ (none : Option Layer).toList) := by
  rw [Option.toList_none, List.append_nil]
  exact h

theorem Reflects.mark (h : Reflects configData ls) :
    Reflects (markExcludeUserSupplied configData) ls := fun p hp => by
  unfold markExcludeUserSupplied
  split
  · rw [find_setAt_of_apart (hp _ (by decide))]
    exact h p hp
  · exact h p hp

theorem mergeAll_append (ls : List Layer) (layer : Layer) :
    mergeAll (ls ++ [layer]) = deepMerge (mergeAll ls) layer.1 := by
  rw [mergeAll, List.map_append, List.foldl_append]
  rfl

theorem Reflects.merge (h : Reflects configData ls)
    (layer : Layer) : Reflects (deepMerge configData layer.1) (ls ++ [layer]) := fun p hp => by
  rw [mergeAll_append]
  exact find_deepMerge_congr layer.2 (h p hp)

/-- The mark on an update is all that it changes. -/
theorem Reflects.mergeMarked (h : Reflects configData ls) (layer : Layer) :
    Reflects (deepMerge configData (markExcludeUserSupplied layer.1)) (ls ++ [layer]) := by
  intro p hp
  rw [← h.merge layer p hp]
  unfold markExcludeUserSupplied
  split
  · rename_i items hexclude
    have hindexing : ∃ d, find excludeUserSupplied.dropLast (.dict layer.1) = some (.dict d) := by
      obtain ⟨t, ht, hrest⟩ := Option.bind_eq_some_iff.1 hexclude
      cases t with
      | dict d =>
        have hfind : find ["indexing".toList] (.dict layer.1) = some (.dict d) := by
          rw [find_cons, ht]
          rfl
        exact ⟨d, hfind⟩
      | leaf s => cases hrest
      | arr items => cases hrest
    obtain ⟨d, hd⟩ := hindexing
    have hmerge := @find_mergeValue_setAt _ _ _ excludeUserSupplied p (.leaf (.bool true)) layer.1 d
      (some (.dict configData)) (distinct_leaf _) layer.2 (hp _ (by decide)) hd
    exact hmerge
  · rfl

/-! ## The configuration -/

variable {i : Inputs}

theorem Reflects.unlessSkipped {name : LayerName} {f : Dict → Option Dict}
    {configData configData' : Dict} (h : Reflects configData ls)
    (layer : Option Layer)
    (hf : ∀ d, f configData = some d → Reflects d (ls ++ layer.toList))
    (heq : unlessSkipped i name f configData = some configData') :
    Reflects configData' (ls ++ saidBy i name layer) := by
  unfold ConfigLayers.unlessSkipped at heq
  unfold saidBy
  split at heq
  · rename_i hskip
    rw [if_pos hskip, List.append_nil]
    cases heq
    exact h
  · rename_i hskip
    rw [if_neg hskip]
    exact hf _ heq

variable {configData d : Dict}

theorem applyGlobalJson_reflects
    (h : Reflects configData ls) (heq : applyGlobalJson i configData = some d) :
    Reflects d (ls ++ (i.globalOverride <|>
      i.globalFile.bind fun source => source.file.layer).toList) := by
  unfold applyGlobalJson at heq
  cases hover : i.globalOverride with
  | some layer =>
    rw [hover] at heq
    cases heq
    exact (h.merge layer).mark
  | none =>
    rw [hover] at heq
    cases hfile : i.globalFile with
    | none =>
      rw [hfile] at heq
      cases heq
      exact h.append_none
    | some source =>
      rw [hfile] at heq
      obtain ⟨layer, hlayer, rfl⟩ := Option.map_eq_some_iff.1 heq
      rw [Option.bind_some, hlayer]
      exact ((h.pathAt _ (by decide) source.path).merge layer).mark

theorem applyLocalJson_reflects
    (h : Reflects configData ls) (heq : applyLocalJson i configData = some d) :
    Reflects d (ls ++
      ((i.localFile.bind fun source => source.file.layer).map withoutRemote).toList) := by
  unfold applyLocalJson at heq
  cases hfile : i.localFile with
  | none =>
    rw [hfile] at heq
    cases heq
    exact h.append_none
  | some source =>
    rw [hfile] at heq
    obtain ⟨layer, hlayer, rfl⟩ := Option.map_eq_some_iff.1 heq
    rw [Option.bind_some, hlayer]
    exact ((h.pathAt _ (by decide) source.path).merge (withoutRemote layer)).mark

theorem applyConfigFile_reflects
    (h : Reflects configData ls) (heq : applyConfigFile i configData = some d) :
    Reflects d (ls ++ ((i.configFile.bind File.layer).map withoutRemote).toList) := by
  unfold applyConfigFile at heq
  cases hfile : i.configFile with
  | none =>
    rw [hfile] at heq
    cases heq
    exact h.append_none
  | some file =>
    rw [hfile] at heq
    obtain ⟨layer, hlayer, rfl⟩ := Option.map_eq_some_iff.1 heq
    rw [Option.bind_some, hlayer]
    exact (h.merge (withoutRemote layer)).mark

theorem applyOverrides_reflects (h : Reflects configData ls) (overrides : Option Layer) :
    Reflects (applyOverrides overrides configData) (ls ++ overrides.toList) := by
  cases overrides with
  | none => exact h.append_none
  | some layer => exact h.mergeMarked layer

theorem start_reflects (i : Inputs) : Reflects (start i) [] := by
  have hnil : Reflects [] [] := fun _ _ => rfl
  unfold start
  split
  · exact hnil
  · exact hnil.pathAt "config_file" (by decide) _

/-- The configuration is what the layers say. -/
theorem build_reflects {d : Dict} (h : build i = some d) : Reflects d (layers i) := by
  unfold build at h
  obtain ⟨withEnv, henv, h⟩ := Option.bind_eq_some_iff.1 h
  obtain ⟨withGlobal, hglobal, h⟩ := Option.bind_eq_some_iff.1 h
  obtain ⟨withLocal, hlocal, h⟩ := Option.bind_eq_some_iff.1 h
  obtain ⟨withFile, hfile, h⟩ := Option.bind_eq_some_iff.1 h
  obtain ⟨withCli, hcli, h⟩ := Option.bind_eq_some_iff.1 h
  have hstart := start_reflects i
  have h₁ := hstart.unlessSkipped (some i.env)
    (fun d hd => by cases hd; exact hstart.merge i.env) henv
  have h₂ := h₁.unlessSkipped _ (fun d hd => applyGlobalJson_reflects h₁ hd) hglobal
  have h₃ := h₂.unlessSkipped _ (fun d hd => applyLocalJson_reflects h₂ hd) hlocal
  have h₄ := h₃.unlessSkipped _ (fun d hd => applyConfigFile_reflects h₃ hd) hfile
  have h₅ := h₄.unlessSkipped i.cli
    (fun d hd => by cases hd; exact applyOverrides_reflects h₄ i.cli) hcli
  have h₆ := (applyOverrides_reflects h₅ i.kwargs).pathAt "target_dir" (by decide)
    i.targetDir
  cases h
  rw [List.append_assoc] at h₆
  exact h₆

/-- At every path that is not entered of its own accord the last layer that says something decides,
where it says no dictionary. A path that none says anything of has nothing, and so has one on the
way to which the last layer says something else than a dictionary. -/
theorem highest_wins {i : Inputs} {d : Dict} (h : build i = some d) {p : List Key}
    (hp : ∀ r ∈ reserved, Apart r p) :
    (∀ lower layer higher v, layers i = lower ++ layer :: higher →
      find p (.dict layer.1) = some v → (∀ entries, v ≠ .dict entries) →
      (∀ other ∈ higher, Silent p (.dict other.1)) → find p (.dict d) = some v) ∧
    ((∀ layer ∈ layers i, Silent p (.dict layer.1)) → find p (.dict d) = none) ∧
    (∀ lower layer higher q r v, layers i = lower ++ layer :: higher → p = q ++ r → r ≠ [] →
      find q (.dict layer.1) = some v → (∀ entries, v ≠ .dict entries) →
      (∀ other ∈ higher, Silent p (.dict other.1)) → find p (.dict d) = none) := by
  rw [build_reflects h p hp]
  refine ⟨?_, ?_, ?_⟩
  · intro lower layer higher v hlayers hv hdict hsilent
    rw [mergeAll, hlayers, List.map_append, List.map_cons]
    refine find_foldl_deepMerge_of_last layer.2 hv hdict fun u hu => ?_
    obtain ⟨other, hother, rfl⟩ := List.mem_map.1 hu
    exact ⟨other.2, hsilent other hother⟩
  · intro hsilent
    rw [mergeAll, find_foldl_deepMerge]
    · obtain ⟨k, q, rfl⟩ := List.exists_cons_of_ne_nil (hp _ List.mem_cons_self).ne_nil.2
      rfl
    · intro u hu
      obtain ⟨layer, hlayer, rfl⟩ := List.mem_map.1 hu
      exact ⟨layer.2, hsilent layer hlayer⟩
  · intro lower layer higher q r v hlayers hpath hr hv hdict hsilent
    rw [mergeAll, hlayers, List.map_append, List.map_cons, hpath]
    refine find_foldl_deepMerge_below layer.2 hv hdict hr fun u hu => ?_
    obtain ⟨other, hother, rfl⟩ := List.mem_map.1 hu
    exact ⟨other.2, hpath ▸ hsilent other hother⟩

/-- The layer that says one thing. -/
def saying (p : List String) (s : Scalar) : Layer :=
  ⟨setAt (p.map String.toList) (.leaf s) [], distinct_setAt (distinct_leaf s) distinct_nil⟩

/-- The file of the project asks for another remote configuration, for an embedding model and for
one more thing. The command line wants no embeddings. -/
def projectAsks : Inputs where
  skipLayers _ := false
  targetDir := "project".toList
  configArg := none
  env := saying ["remote_config", "url"] (.str "ours".toList)
  globalOverride := none
  globalFile := none
  localFile := some ⟨"project/.chunkhound.json".toList, .json
    (.dict (setAt ["embedding".toList, "model".toList] (.leaf (.str "large".toList))
      (setAt ["debug".toList] (.leaf (.bool true))
        (saying ["remote_config", "url"] (.str "theirs".toList)).1)))
    (distinct_setAt (distinct_leaf _) (distinct_setAt (distinct_leaf _) (saying _ _).2))⟩
  configFile := none
  cli := some ⟨setAt ["embedding".toList] (.leaf .null) (saying ["debug"] (.bool false)).1,
    distinct_setAt (distinct_leaf _) (saying _ _).2⟩
  kwargs := none

theorem highest_wins_projectAsks :
    ∃ d, build projectAsks = some d ∧
      find ["debug".toList] (.dict d) = some (.leaf (.bool false)) ∧
      find ["embedding".toList, "model".toList] (.dict d) = none := by
  have hbuild := Option.some_get (show (build projectAsks).isSome = true by decide)
  have hlast : ∀ other ∈ ([] : List Layer), False := fun _ h => nomatch h
  refine ⟨_, hbuild.symm, ?_, ?_⟩
  · exact (highest_wins hbuild.symm (by decide)).1 _ _ [] _ rfl rfl nofun
      fun other h => (hlast other h).elim
  · exact (highest_wins hbuild.symm (by decide)).2.2 _ _ [] ["embedding".toList] ["model".toList]
      _ rfl rfl (List.cons_ne_nil _ _) rfl nofun fun other h => (hlast other h).elim

/-- The layers that are dropped say nothing, in any place. -/
theorem find_mergeAll_append {p : List Key} {front dropped : List Layer} :
    ∀ {back : List Layer}, (∀ layer ∈ dropped, Silent p (.dict layer.1)) →
      find p (.dict (mergeAll (front ++ dropped ++ back))) =
        find p (.dict (mergeAll (front ++ back))) := by
  intro back hsilent
  induction back using List.reverseRecOn with
  | nil =>
    rw [List.append_nil, List.append_nil, mergeAll, List.map_append, List.foldl_append,
      find_foldl_deepMerge]
    · rfl
    · intro u hu
      obtain ⟨layer, hlayer, rfl⟩ := List.mem_map.1 hu
      exact ⟨layer.2, hsilent layer hlayer⟩
  | append_singleton back layer ih =>
    rw [← List.append_assoc, ← List.append_assoc, mergeAll_append, mergeAll_append]
    exact find_deepMerge_congr layer.2 ih

/-- What the configuration says of the remote configuration, the environment, the global defaults
and the command line say, whatever is in the file of the project and the file that is given. -/
theorem remote_from_operator {i : Inputs} {d : Dict} (h : build i = some d) (p : List Key) :
    find ("remote_config".toList :: p) (.dict d) = find ("remote_config".toList :: p)
      (.dict (mergeAll (envSays i ++ globalSays i ++ overridesSay i))) := by
  have hp : ∀ r ∈ reserved, Apart r ("remote_config".toList :: p) := by
    have hheads : ∀ r ∈ reserved, r ≠ [] ∧ r.head? ≠ some "remote_config".toList := by decide
    intro r hr
    obtain ⟨hne, hhead⟩ := hheads r hr
    obtain ⟨k, ks, rfl⟩ := List.exists_cons_of_ne_nil hne
    have hk : k ≠ "remote_config".toList := fun h => hhead (congrArg some h)
    exact ⟨fun hpre => hk (List.cons_prefix_cons.1 hpre).1,
      fun hpre => hk (List.cons_prefix_cons.1 hpre).1.symm⟩
  have hdropped : ∀ layer ∈ localSays i ++ configFileSays i,
      Silent ("remote_config".toList :: p) (.dict layer.1) := by
    have hsaid : ∀ (name : LayerName) (o : Option Layer), ∀ layer ∈ saidBy i name
        (o.map withoutRemote), Silent ("remote_config".toList :: p) (.dict layer.1) := by
      intro name o layer hlayer
      unfold saidBy at hlayer
      split at hlayer
      · cases hlayer
      · obtain ⟨from', -, rfl⟩ := Option.map_eq_some_iff.1 (Option.mem_toList.1 hlayer)
        exact silent_erase from'.1
    intro layer hlayer
    rcases List.mem_append.1 hlayer with hlocal | hfile
    · exact hsaid _ _ layer hlocal
    · exact hsaid _ _ layer hfile
  rw [build_reflects h _ hp, layers, List.append_assoc (envSays i ++ globalSays i)]
  exact find_mergeAll_append hdropped

theorem remote_from_operator_projectAsks :
    ∃ d, build projectAsks = some d ∧
      find ["remote_config".toList, "url".toList] (.dict d) =
        some (.leaf (.str "ours".toList)) := by
  have hbuild := Option.some_get (show (build projectAsks).isSome = true by decide)
  exact ⟨_, hbuild.symm, (remote_from_operator hbuild.symm ["url".toList]).trans rfl⟩

end ChunkHound.ConfigLayers
