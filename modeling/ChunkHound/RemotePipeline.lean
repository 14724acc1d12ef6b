import ChunkHound.RemoteFetch

/-!
# The pipeline of the remote configuration

Each invocation fetches the envelope, applies its rules to a copy of the global JSON, and writes the
copy back if it has changed. Before that it takes back what the rules did to the paths that belong
to the operator and to an URL that could not be fetched, enters the URL it has used where there is
none, and gives up where a command would have an error that it did not have.

`runs_keep` : over any sequence of invocations, whatever the servers answer, the operator's paths
keep their values, an URL for the next fetch that satisfies the rule for URLs is never replaced by
one that does not, and no command of those that are checked every time gets an error code it did not
have from the file alone.

`==` does not tell `True` from 1. A value that a rule replaces by an equal one is not taken back, so
that the values are the same as `==` has it. Invocations are one after another here : nothing keeps
two of them from reading the file before either has written it.
-/

set_option linter.unusedSectionVars false

namespace ChunkHound.RemoteConfig

open DictTree

/-! ## Comparison -/

/-- The number a scalar is. `True` and `False` are 1 and 0. -/
def Scalar.number : Scalar → Option ℚ
  | .bool b => some (if b then 1 else 0)
  | .num q => some q
  | _ => none

def Scalar.eq : Scalar → Scalar → Bool
  | .null, .null => true
  | .str s, .str s' => decide (s = s')
  | a, b =>
    match a.number, b.number with
    | some p, some q => decide (p = q)
    | _, _ => false

theorem Scalar.eq_iff (a b : Scalar) : a.eq b = true ↔
    (a = .null ∧ b = .null) ∨ (∃ s, a = .str s ∧ b = .str s) ∨
      ∃ q, a.number = some q ∧ b.number = some q := by
  cases a <;> cases b <;> simp [Scalar.eq, Scalar.number, eq_comm]

theorem chains_eq : Chains Scalar.eq := by
  intro a b c hab hbc
  rw [Scalar.eq_iff] at hab hbc ⊢
  rcases hab with ⟨rfl, rfl⟩ | ⟨s, rfl, rfl⟩ | ⟨q, ha, hb⟩
  · simpa [Scalar.number] using hbc
  · simpa [Scalar.number] using hbc
  · rcases hbc with ⟨rfl, -⟩ | ⟨s, rfl, -⟩ | ⟨q', hb', hc⟩
    · cases hb
    · cases hb
    · exact .inr (.inr ⟨q, ha, by rw [hc, ← hb', hb]⟩)

/-- `==`. -/
def valueEq (a b : Value) : Bool := same Scalar.eq a b

variable {v : Value}

theorem valueEq_leaf {b : Scalar} (h : valueEq v (.leaf b) = true) :
    ∃ a, v = .leaf a ∧ a.eq b = true := by
  cases v with
  | leaf a => exact ⟨a, rfl, h⟩
  | arr items => cases h
  | dict entries => cases h

theorem eq_null_of_valueEq (h : valueEq v null = true) : v = null := by
  obtain ⟨a, rfl, ha⟩ := valueEq_leaf h
  rcases (Scalar.eq_iff _ _).1 ha with ⟨rfl, -⟩ | ⟨s, -, hs⟩ | ⟨q, -, hq⟩
  · rfl
  · cases hs
  · cases hq

theorem eq_str_of_valueEq {s : List Char} (h : valueEq v (.leaf (.str s)) = true) :
    v = .leaf (.str s) := by
  obtain ⟨a, rfl, ha⟩ := valueEq_leaf h
  rcases (Scalar.eq_iff _ _).1 ha with ⟨-, hs⟩ | ⟨s', rfl, hs⟩ | ⟨q, -, hq⟩
  · cases hs
  · rw [hs]
  · cases hq

/-! ## Paths of the operator -/

/-- `REFUSED_PATHS`. -/
def refusedPaths : List (List Char) :=
  ["database.path".toList, "target_dir".toList, "embeddings_disabled".toList,
    "local_config_file".toList, "global_config_file".toList, "config_file".toList]

/-- The path has the value it has on disk, or a rule has changed it. -/
def unchanged (workingCopy onDisk : Dict) (segments : List Key) : Bool :=
  match find segments (.dict workingCopy), find segments (.dict onDisk) with
  | none, none => true
  | some v, some v' => valueEq v v'
  | _, _ => false

/-- The path gets the value it has on disk, or none. -/
def revert (workingCopy onDisk : Dict) (segments : List Key) : Dict :=
  match find segments (.dict onDisk) with
  | some v => setAt segments v workingCopy
  | none => removeAt segments workingCopy

def restoreAt (onDisk workingCopy : Dict) (segments : List Key) : Dict :=
  if unchanged workingCopy onDisk segments then workingCopy
  else revert workingCopy onDisk segments

/-- `_restore_refused`. -/
def restoreRefused (onDisk workingCopy : Dict) (path : List Char) : Dict :=
  match segmentsOf path with
  | none => workingCopy
  | some segments => restoreAt onDisk workingCopy segments

/-! ## The URL of the next fetch -/

structure Remote where
  url : Url
  authHeader : Option (List Char)

def urlPath : List Key := ["remote_config".toList, "url".toList]

/-- `_validate_remote_url`, none where the functions on URLs raise. -/
def validateRemoteUrl (schemeOk : Url → Option Bool) (onDisk workingCopy : Dict) : Option Dict :=
  match find urlPath (.dict workingCopy) with
  | none | some (.leaf .null) => some workingCopy
  | some (.leaf (.str s)) =>
    match schemeOk s with
    | none => none
    | some true => some workingCopy
    | some false => some (restoreAt onDisk workingCopy urlPath)
  | some _ => some (restoreAt onDisk workingCopy urlPath)

/-- `d.get("remote_config") or {}`, as the dictionary that `get` is called on. -/
def blockOf (d : Dict) : Option Dict :=
  if truthy (get "remote_config".toList d) then
    match get "remote_config".toList d with
    | .dict entries => some entries
    | _ => none
  else some []

def isNone : Value → Bool
  | .leaf .null => true
  | _ => false

/-- What is written of this fetch : the keys that have no value on disk and got none from a rule.
None where `get` is called on a block that is no dictionary. -/
def toWrite (onDiskBlock : Dict) (workingBlock : Option Dict) :
    List (Key × Option (List Char)) → Option Dict
  | [] => some []
  | (_, none) :: rest => toWrite onDiskBlock workingBlock rest
  | (key, some value) :: rest =>
    if isNone (get key onDiskBlock) then
      match workingBlock with
      | none => none
      | some block =>
        if isNone (get key block) then
          (toWrite onDiskBlock workingBlock rest).map ((key, .leaf (.str value)) :: ·)
        else toWrite onDiskBlock workingBlock rest
    else toWrite onDiskBlock workingBlock rest

/-- `_self_register_remote`. -/
def selfRegisterRemote (remote : Remote) (onDisk workingCopy : Dict) : Option Dict := do
  let onDiskBlock ← blockOf onDisk
  let workingBlock := blockOf workingCopy
  let entries ← toWrite onDiskBlock workingBlock
    [("url".toList, some remote.url), ("auth_header".toList, remote.authHeader)]
  if entries.isEmpty then some workingCopy
  else
    let merged := entries.foldl (fun d e => setAt [e.1] e.2 d) (workingBlock.getD [])
    some (setAt ["remote_config".toList] (.dict merged) workingCopy)

/-! ## The pipeline -/

/-- The errors of each command under a configuration, none where it cannot be built. -/
abbrev Snapshot (E : Type*) := Dict → Option (List Char → List E)

/-- `PERSISTENCE_HAZARD_COMMANDS`. -/
def hazardCommands : List (List Char) := ["index".toList, "mcp".toList, "research".toList]

/-- An invocation : where it discovers the URL, the servers and the environment as they are then,
the client, the configurations in which its own layers take part, and whether the file can be read
and written. -/
structure Invocation (V E : Type*) where
  command : List Char
  discovery : Dict → Option Remote
  servers : Servers
  environ : List Char → List Char
  client : Dict → Client V
  halfMerged : Snapshot E
  active : Snapshot E
  readable : Bool
  writable : Bool

section Pipeline

variable {V E : Type*} [LinearOrder V] [DecidableEq E]

/-- Step 3 : the envelope is an object of version 1, for a version that is not newer. -/
def acceptEnvelope (client : Client V) : Value → Option Dict
  | .dict envelope =>
    if valueEq (get "version".toList envelope) (.leaf (.num 1)) then
      match get "min_chunkhound_version".toList envelope with
      | .leaf .null => some envelope
      | required =>
        match client.currentVersion, client.parseVersion required with
        | some current, some required => if current < required then none else some envelope
        | _, _ => none
    else none
  | _ => none

/-- `envelope.get("rules") or []`. -/
def rulesOf (envelope : Dict) : Option (List Value) :=
  if truthy (get "rules".toList envelope) then
    match get "rules".toList envelope with
    | .arr rules => some rules
    | _ => none
  else some []

/-- Steps 4a to 4c, none where something is raised. -/
def rewrite (schemeOk : Url → Option Bool) (client : Client V) (remote : Remote)
    (rules : List Value) (onDisk : Dict) : Option Dict := do
  let workingCopy ← (applyRules client rules onDisk).toOption
  let scrubbed := refusedPaths.foldl (restoreRefused onDisk) workingCopy
  let checked ← validateRemoteUrl schemeOk onDisk scrubbed
  selfRegisterRemote remote onDisk checked

/-- No command has an error after that it does not have before. -/
def noNewCodes (commands : List (List Char)) (snapshot : Snapshot E) (pre post : Dict) : Bool :=
  match snapshot pre, snapshot post with
  | some codes, some codes' =>
    commands.all fun command => (codes' command).all fun code => decide (code ∈ codes command)
  | _, _ => false

/-- `_delta_ok`, on all three configurations. -/
def deltaOk (persisted : Snapshot E) (inv : Invocation V E) (pre post : Dict) : Bool :=
  let commands := inv.command :: hazardCommands
  noNewCodes commands persisted pre post && noNewCodes commands inv.halfMerged pre post &&
    noNewCodes commands inv.active pre post

/-- What `_run` writes, if it comes to that. -/
def written (urls : Urls) (persisted : Snapshot E) (inv : Invocation V E) (onDisk : Dict) :
    Option Dict := do
  let remote ← inv.discovery onDisk
  guard (remote.url ≠ [])
  let fetched ← (fetch urls inv.servers inv.environ remote.url remote.authHeader).2
  let envelope ← acceptEnvelope (inv.client onDisk) fetched
  guard inv.readable
  guard (inv.halfMerged onDisk).isSome
  let rules ← rulesOf envelope
  let workingCopy ← rewrite urls.schemeOk (inv.client onDisk) remote rules onDisk
  guard (deltaOk persisted inv onDisk workingCopy)
  guard (!valueEq (.dict workingCopy) (.dict onDisk))
  guard inv.writable
  pure workingCopy

/-- `run` : the global JSON after the invocation. -/
def run (urls : Urls) (persisted : Snapshot E) (onDisk : Dict) (inv : Invocation V E) : Dict :=
  (written urls persisted inv onDisk).getD onDisk

/-! ## What is kept -/

/-- The same value at the path, or none before and after. -/
def SameAt (segments : List Key) (d d' : Dict) : Prop :=
  (find segments (.dict d) = none ∧ find segments (.dict d') = none) ∨
    ∃ v v', find segments (.dict d) = some v ∧ find segments (.dict d') = some v' ∧
      (v = v' ∨ valueEq v v' = true)

/-- The next fetch has no URL, or one that satisfies the rule. -/
def SafeUrl (urls : Urls) (d : Dict) : Prop :=
  find urlPath (.dict d) = none ∨ find urlPath (.dict d) = some null ∨
    ∃ url, find urlPath (.dict d) = some (.leaf (.str url)) ∧ urls.schemeOk url = some true

/-- The file alone gives no command an error code that it did not have. -/
def NoNewHazard (persisted : Snapshot E) (d d' : Dict) : Prop :=
  d' = d ∨ ∃ codes codes', persisted d = some codes ∧ persisted d' = some codes' ∧
    ∀ command ∈ hazardCommands, codes' command ⊆ codes command

/-- What invocations leave of the global JSON `d`. -/
structure Kept (urls : Urls) (persisted : Snapshot E) (d d' : Dict) : Prop where
  operator : ∀ path ∈ refusedPaths, ∀ segments, segmentsOf path = some segments →
    SameAt segments d' d
  url : SafeUrl urls d → SafeUrl urls d'
  hazards : NoNewHazard persisted d d'

end Pipeline

/-! ## Taking back -/

variable {segments : List Key}

theorem SameAt.of_eq {d d' : Dict}
    (h : find segments (.dict d) = find segments (.dict d')) : SameAt segments d d' := by
  cases hv : find segments (.dict d') with
  | none => exact .inl ⟨h.trans hv, hv⟩
  | some v => exact .inr ⟨v, v, h.trans hv, hv, .inl rfl⟩

theorem SameAt.congr {d₁ d₂ d : Dict}
    (h : find segments (.dict d₁) = find segments (.dict d₂)) (hd : SameAt segments d₂ d) :
    SameAt segments d₁ d := by
  unfold SameAt at hd ⊢
  rw [h]
  exact hd

theorem SameAt.trans {d₁ d₂ d₃ : Dict} (h : SameAt segments d₁ d₂)
    (h' : SameAt segments d₂ d₃) : SameAt segments d₁ d₃ := by
  rcases h with ⟨h₁, h₂⟩ | ⟨v₁, v₂, h₁, h₂, h₁₂⟩
  · rcases h' with ⟨-, h₃⟩ | ⟨v, v₃, hv, -, -⟩
    · exact .inl ⟨h₁, h₃⟩
    · rw [h₂] at hv
      cases hv
  · rcases h' with ⟨hv, -⟩ | ⟨v, v₃, hv, h₃, h₂₃⟩
    · rw [h₂] at hv
      cases hv
    · rw [h₂] at hv
      obtain rfl := Option.some.inj hv
      refine .inr ⟨v₁, v₃, h₁, h₃, ?_⟩
      rcases h₁₂ with rfl | h₁₂
      · exact h₂₃
      · rcases h₂₃ with rfl | h₂₃
        · exact .inr h₁₂
        · exact .inr (same_trans chains_eq h₁₂ h₂₃)

theorem restoreAt_same {onDisk d : Dict} (hne : segments ≠ []) :
    SameAt segments (restoreAt onDisk d segments) onDisk := by
  unfold restoreAt
  split
  · rename_i h
    unfold unchanged at h
    split at h
    · exact .inl ⟨by assumption, by assumption⟩
    · exact .inr ⟨_, _, by assumption, by assumption, .inr h⟩
    · cases h
  · unfold revert
    split
    · rename_i v hv
      exact .inr ⟨v, v, find_setAt hne, hv, .inl rfl⟩
    · rename_i hv
      exact .inl ⟨find_removeAt hne, hv⟩

theorem restoreAt_of_apart {onDisk d : Dict} {segments q : List Key} (h : Apart segments q) :
    find q (.dict (restoreAt onDisk d segments)) = find q (.dict d) := by
  unfold restoreAt revert
  split
  · rfl
  · split
    · exact find_setAt_of_apart h
    · exact find_removeAt_of_apart h

theorem foldl_restoreAt_of_apart (onDisk : Dict) {q : List Key} : ∀ {paths : List (List Key)}
    (d : Dict), (∀ p ∈ paths, Apart p q) →
      find q (.dict (paths.foldl (restoreAt onDisk) d)) = find q (.dict d)
  | [], _, _ => rfl
  | p :: paths, d, h => by
    have hrest := foldl_restoreAt_of_apart onDisk (restoreAt onDisk d p)
      fun p' hp' => h p' (List.mem_cons_of_mem p hp')
    exact hrest.trans (restoreAt_of_apart (h p List.mem_cons_self))

/-- Paths that are apart are restored one after another. -/
theorem foldl_restoreAt_same {onDisk : Dict} {p : List Key} : ∀ {paths : List (List Key)}
    {d : Dict}, paths.Pairwise Apart → p ∈ paths →
      p ≠ [] → SameAt p (paths.foldl (restoreAt onDisk) d) onDisk
  | p' :: paths, d, hapart, hp, hne => by
    obtain ⟨hhead, htail⟩ := List.pairwise_cons.1 hapart
    rw [List.foldl_cons]
    rcases List.mem_cons.1 hp with rfl | hp
    · exact SameAt.congr (foldl_restoreAt_of_apart onDisk _ fun q hq => (hhead q hq).symm)
        (restoreAt_same hne)
    · exact foldl_restoreAt_same htail hp hne

/-- The segments of the operator's paths. -/
def refusedSegments : List (List Key) := refusedPaths.filterMap segmentsOf

theorem foldl_restoreRefused (onDisk d : Dict) :
    refusedPaths.foldl (restoreRefused onDisk) d = refusedSegments.foldl (restoreAt onDisk) d := by
  rw [refusedSegments, List.foldl_filterMap]
  refine congrArg (fun f => List.foldl f d refusedPaths) (funext fun d => funext fun path => ?_)
  unfold restoreRefused
  cases segmentsOf path <;> rfl

theorem refusedSegments_apart : refusedSegments.Pairwise Apart := by decide

theorem remote_apart : ∀ p ∈ refusedSegments, Apart ["remote_config".toList] p := by decide

theorem remote_url_apart {q : List Key} (h : Apart ["remote_config".toList] q) :
    Apart urlPath q := by
  refine ⟨fun hp => h.1 (List.IsPrefix.trans ?_ hp), fun hq => ?_⟩
  · exact List.cons_prefix_cons.2 ⟨rfl, List.nil_prefix⟩
  · cases q with
    | nil => exact h.ne_nil.2 rfl
    | cons k q =>
      obtain ⟨rfl, -⟩ := List.cons_prefix_cons.1 hq
      exact h.1 (List.cons_prefix_cons.2 ⟨rfl, List.nil_prefix⟩)

/-! ## The URL -/

section Url

variable {urls : Urls}

variable {onDisk d d' : Dict}

theorem validateRemoteUrl_of_apart {schemeOk : Url → Option Bool}
    {q : List Key} (h : validateRemoteUrl schemeOk onDisk d = some d') (hq : Apart urlPath q) :
    find q (.dict d') = find q (.dict d) := by
  unfold validateRemoteUrl at h
  split at h
  · cases h
    rfl
  · cases h
    rfl
  · split at h
    · cases h
    · cases h
      rfl
    · cases h
      exact restoreAt_of_apart hq
  · cases h
    exact restoreAt_of_apart hq

/-- An URL that is the one on disk is as safe. -/
theorem SafeUrl.of_same {d onDisk : Dict} (h : SameAt urlPath d onDisk)
    (hsafe : SafeUrl urls onDisk) : SafeUrl urls d := by
  rcases h with ⟨hnone, -⟩ | ⟨v, v', hv, hv', heq⟩
  · exact .inl hnone
  · rcases hsafe with hnone | hnull | ⟨url, hurl, hok⟩
    · rw [hnone] at hv'
      cases hv'
    · rw [hnull] at hv'
      obtain rfl := Option.some.inj hv'
      rcases heq with rfl | heq
      · exact .inr (.inl hv)
      · rw [eq_null_of_valueEq heq] at hv
        exact .inr (.inl hv)
    · rw [hurl] at hv'
      obtain rfl := Option.some.inj hv'
      rcases heq with rfl | heq
      · exact .inr (.inr ⟨url, hv, hok⟩)
      · rw [eq_str_of_valueEq heq] at hv
        exact .inr (.inr ⟨url, hv, hok⟩)

theorem validateRemoteUrl_safe (hsafe : SafeUrl urls onDisk)
    (h : validateRemoteUrl urls.schemeOk onDisk d = some d') : SafeUrl urls d' := by
  have hrestored : SafeUrl urls (restoreAt onDisk d urlPath) :=
    .of_same (restoreAt_same (List.cons_ne_nil _ _)) hsafe
  unfold validateRemoteUrl at h
  split at h
  · cases h
    exact .inl (by assumption)
  · cases h
    exact .inr (.inl (by assumption))
  · rename_i url hurl
    split at h
    · cases h
    · rename_i hok
      cases h
      exact .inr (.inr ⟨url, hurl, hok⟩)
    · cases h
      exact hrestored
  · cases h
    exact hrestored

/-! ## The entry of the URL that was used -/

theorem mem_toWrite {onDiskBlock block : Dict} {e : Key × Value} :
    ∀ {keys : List (Key × Option (List Char))} {entries : Dict},
      toWrite onDiskBlock (some block) keys = some entries → e ∈ entries →
        ∃ value, (e.1, some value) ∈ keys ∧ e.2 = .leaf (.str value)
  | [], _, h, he => by
    cases h
    cases he
  | (_, none) :: rest, entries, h, he => by
    have hrest : toWrite onDiskBlock (some block) rest = some entries := h
    obtain ⟨value, hmem, hvalue⟩ := mem_toWrite hrest he
    exact ⟨value, List.mem_cons_of_mem _ hmem, hvalue⟩
  | (key, some value) :: rest, entries, h, he => by
    have hrest : ∀ {entries'}, toWrite onDiskBlock (some block) rest = some entries' →
        e ∈ entries' → ∃ value', (e.1, some value') ∈ (key, some value) :: rest ∧
          e.2 = .leaf (.str value') := fun h he => by
      obtain ⟨value', hmem, hvalue⟩ := mem_toWrite h he
      exact ⟨value', List.mem_cons_of_mem _ hmem, hvalue⟩
    rw [toWrite] at h
    split at h
    · split at h
      · obtain ⟨entries', h', rfl⟩ := Option.map_eq_some_iff.1 h
        rcases List.mem_cons.1 he with rfl | he
        · exact ⟨value, List.mem_cons_self, rfl⟩
        · exact hrest h' he
      · exact hrest h he
    · exact hrest h he

theorem toWrite_none {onDiskBlock : Dict} : ∀ {keys : List (Key × Option (List Char))}
    {entries : Dict}, toWrite onDiskBlock none keys = some entries → entries = []
  | [], _, h => by
    cases h
    rfl
  | (_, none) :: rest, entries, h => by
    have hrest : toWrite onDiskBlock none rest = some entries := h
    exact toWrite_none hrest
  | (key, some value) :: rest, _, h => by
    rw [toWrite] at h
    split at h
    · cases h
    · exact toWrite_none h

theorem entry_foldl_setAt (k : Key) : ∀ (entries d : Dict),
    entry k (entries.foldl (fun d e => setAt [e.1] e.2 d) d) = entry k d ∨
      ∃ e ∈ entries, e.1 = k ∧ entry k (entries.foldl (fun d e => setAt [e.1] e.2 d) d) = some e.2
  | [], _ => .inl rfl
  | e :: entries, d => by
    rw [List.foldl_cons]
    rcases entry_foldl_setAt k entries (setAt [e.1] e.2 d) with h | ⟨e', he', hk, h⟩
    · by_cases hk : k = e.1
      · subst hk
        exact .inr ⟨e, List.mem_cons_self, rfl, h.trans (find_setAt (List.cons_ne_nil _ _))⟩
      · exact .inl (h.trans (find_setAt_of_apart (apart_top (List.cons_ne_nil _ _) hk)))
    · exact .inr ⟨e', List.mem_cons_of_mem _ he', hk, h⟩

theorem entry_blockOf {d block : Dict} (h : blockOf d = some block) (k : Key) :
    entry k block = find ["remote_config".toList, k] (.dict d) := by
  have hfind : find ["remote_config".toList, k] (.dict d) =
      (entry "remote_config".toList d).bind (find [k]) :=
    find_append ["remote_config".toList] [k] (.dict d)
  rw [hfind]
  unfold blockOf get at h
  cases hblock : entry "remote_config".toList d with
  | none =>
    rw [hblock] at h
    cases h
    rfl
  | some v =>
    rw [hblock, Option.getD_some] at h
    split at h
    · split at h
      · cases h
        rfl
      · cases h
    · rename_i hfalsy
      cases h
      cases v with
      | leaf s => rfl
      | arr items => rfl
      | dict entries =>
        cases entries with
        | nil => rfl
        | cons e entries => exact absurd rfl hfalsy

theorem selfRegisterRemote_of_apart {remote : Remote} {q : List Key}
    (h : selfRegisterRemote remote onDisk d = some d') (hq : Apart ["remote_config".toList] q) :
    find q (.dict d') = find q (.dict d) := by
  obtain ⟨onDiskBlock, -, h⟩ := Option.bind_eq_some_iff.1 h
  obtain ⟨entries, -, h⟩ := Option.bind_eq_some_iff.1 h
  dsimp only at h
  split at h
  · cases h
    rfl
  · cases h
    exact find_setAt_of_apart hq

theorem selfRegisterRemote_safe {remote : Remote}
    (hremote : urls.schemeOk remote.url = some true) (hsafe : SafeUrl urls d)
    (h : selfRegisterRemote remote onDisk d = some d') : SafeUrl urls d' := by
  obtain ⟨onDiskBlock, -, h⟩ := Option.bind_eq_some_iff.1 h
  obtain ⟨entries, hentries, h⟩ := Option.bind_eq_some_iff.1 h
  dsimp only at h
  split at h
  · cases h
    exact hsafe
  · rename_i hne
    cases h
    cases hblock : blockOf d with
    | none =>
      rw [hblock] at hentries
      rw [toWrite_none hentries] at hne
      exact absurd rfl hne
    | some block =>
      rw [hblock] at hentries
      rw [Option.getD_some]
      have hfind : find urlPath (.dict (setAt ["remote_config".toList]
          (.dict (entries.foldl (fun d e => setAt [e.1] e.2 d) block)) d)) =
          entry "url".toList (entries.foldl (fun d e => setAt [e.1] e.2 d) block) := by
        rw [show urlPath = ["remote_config".toList] ++ ["url".toList] from rfl, find_append,
          find_setAt (List.cons_ne_nil _ _)]
        rfl
      rcases entry_foldl_setAt "url".toList entries block with hold | ⟨e, he, hk, hnew⟩
      · have hsame := hfind.trans (hold.trans (entry_blockOf hblock "url".toList))
        unfold SafeUrl at hsafe ⊢
        rw [hsame]
        exact hsafe
      · obtain ⟨value, hmem, hvalue⟩ := mem_toWrite hentries he
        rw [hk] at hmem
        have hurl : value = remote.url := by
          rcases List.mem_cons.1 hmem with hmem | hmem
          · exact Option.some.inj (Prod.mk.inj hmem).2
          · have hkey := (Prod.mk.inj (List.mem_singleton.1 hmem)).1
            exact absurd hkey (by decide)
        refine .inr (.inr ⟨remote.url, ?_, hremote⟩)
        rw [hfind, hnew, hvalue, hurl]

end Url

/-! ## Invocations -/

section Invocations

variable {V E : Type*} [LinearOrder V] [DecidableEq E] {urls : Urls}
  {persisted : Snapshot E}

variable {remote : Remote}

variable {rules : List Value} {client : Client V}

theorem rewrite_operator {schemeOk : Url → Option Bool} {onDisk d : Dict}
    (h : rewrite schemeOk client remote rules onDisk = some d) {segments : List Key}
    (hsegments : segments ∈ refusedSegments) : SameAt segments d onDisk := by
  obtain ⟨workingCopy, -, h⟩ := Option.bind_eq_some_iff.1 h
  obtain ⟨checked, hchecked, hregistered⟩ := Option.bind_eq_some_iff.1 h
  have hapart := remote_apart segments hsegments
  refine .congr (selfRegisterRemote_of_apart hregistered hapart) ?_
  refine .congr (validateRemoteUrl_of_apart hchecked (remote_url_apart hapart)) ?_
  rw [foldl_restoreRefused]
  exact foldl_restoreAt_same refusedSegments_apart hsegments hapart.ne_nil.2

theorem rewrite_safe {onDisk d : Dict}
    (hremote : urls.schemeOk remote.url = some true) (hsafe : SafeUrl urls onDisk)
    (h : rewrite urls.schemeOk client remote rules onDisk = some d) : SafeUrl urls d := by
  obtain ⟨workingCopy, -, h⟩ := Option.bind_eq_some_iff.1 h
  obtain ⟨checked, hchecked, hregistered⟩ := Option.bind_eq_some_iff.1 h
  exact selfRegisterRemote_safe hremote (validateRemoteUrl_safe hsafe hchecked) hregistered

theorem noNewHazard_of_deltaOk {inv : Invocation V E} {pre post : Dict}
    (h : deltaOk persisted inv pre post = true) : NoNewHazard persisted pre post := by
  unfold deltaOk at h
  dsimp only at h
  rw [Bool.and_eq_true, Bool.and_eq_true] at h
  have hpersisted := h.1.1
  unfold noNewCodes at hpersisted
  split at hpersisted
  · rename_i codes codes' hpre hpost
    refine .inr ⟨codes, codes', hpre, hpost, fun command hcommand code hcode => ?_⟩
    have hall := List.all_eq_true.1 hpersisted command (List.mem_cons_of_mem _ hcommand)
    exact of_decide_eq_true (List.all_eq_true.1 hall code hcode)
  · cases hpersisted

/-- An envelope was fetched from an URL that satisfies the rule. -/
theorem schemeOk_of_fetch {servers : Servers} {environ : List Char → List Char} {envelope : Value}
    (h : (fetch urls servers environ remote.url remote.authHeader).2 = some envelope) :
    urls.schemeOk remote.url = some true := by
  unfold fetch at h
  split at h
  · assumption
  · cases h

theorem Kept.refl (d : Dict) : Kept urls persisted d d where
  operator := fun _ _ _ _ => .of_eq rfl
  url := id
  hazards := .inl rfl

variable {d₁ d₂ d₃ : Dict}

theorem NoNewHazard.trans (h : NoNewHazard persisted d₁ d₂)
    (h' : NoNewHazard persisted d₂ d₃) : NoNewHazard persisted d₁ d₃ := by
  rcases h with rfl | ⟨c₁, c₂, h₁, h₂, hsub⟩
  · exact h'
  · rcases h' with rfl | ⟨c₂', c₃, h₂', h₃, hsub'⟩
    · exact .inr ⟨c₁, c₂, h₁, h₂, hsub⟩
    · rw [h₂] at h₂'
      obtain rfl := Option.some.inj h₂'
      exact .inr ⟨c₁, c₃, h₁, h₃, fun command hcommand =>
        List.Subset.trans (hsub' command hcommand) (hsub command hcommand)⟩

theorem Kept.trans (h : Kept urls persisted d₁ d₂)
    (h' : Kept urls persisted d₂ d₃) : Kept urls persisted d₁ d₃ where
  operator := fun path hpath segments hsegments =>
    (h'.operator path hpath segments hsegments).trans (h.operator path hpath segments hsegments)
  url := h'.url ∘ h.url
  hazards := h.hazards.trans h'.hazards

/-- One invocation. -/
theorem run_kept (onDisk : Dict) (inv : Invocation V E) :
    Kept urls persisted onDisk (run urls persisted onDisk inv) := by
  unfold run
  cases hwritten : written urls persisted inv onDisk with
  | none => exact .refl onDisk
  | some d =>
    obtain ⟨remote, -, h⟩ := Option.bind_eq_some_iff.1 hwritten
    obtain ⟨-, -, h⟩ := Option.bind_eq_some_iff.1 h
    obtain ⟨fetched, hfetched, h⟩ := Option.bind_eq_some_iff.1 h
    obtain ⟨envelope, -, h⟩ := Option.bind_eq_some_iff.1 h
    obtain ⟨-, -, h⟩ := Option.bind_eq_some_iff.1 h
    obtain ⟨-, -, h⟩ := Option.bind_eq_some_iff.1 h
    obtain ⟨rules, -, h⟩ := Option.bind_eq_some_iff.1 h
    obtain ⟨workingCopy, hrewrite, h⟩ := Option.bind_eq_some_iff.1 h
    obtain ⟨_, hdelta, h⟩ := Option.bind_eq_some_iff.1 h
    obtain ⟨-, -, h⟩ := Option.bind_eq_some_iff.1 h
    obtain ⟨-, -, h⟩ := Option.bind_eq_some_iff.1 h
    obtain rfl := Option.some.inj h
    refine ⟨fun path hpath segments hsegments => ?_, fun hsafe => ?_, ?_⟩
    · exact rewrite_operator hrewrite (List.mem_filterMap.2 ⟨path, hpath, hsegments⟩)
    · exact rewrite_safe (schemeOk_of_fetch hfetched) hsafe hrewrite
    · exact noNewHazard_of_deltaOk (by simpa [guard] using hdelta)

/-- Over any sequence of invocations the operator's paths keep their values, the next fetch has no
URL that breaks the rule, and no command gets an error code from the file. -/
theorem runs_keep : ∀ (invs : List (Invocation V E)) (onDisk : Dict),
    Kept urls persisted onDisk (invs.foldl (run urls persisted) onDisk)
  | [], onDisk => .refl onDisk
  | inv :: invs, onDisk =>
    (run_kept onDisk inv).trans (runs_keep invs (run urls persisted onDisk inv))

end Invocations

/-! ## A rule for a path of the operator -/

/-- Every URL is one of `https` without a host. -/
def anyUrl : Urls :=
  ⟨fun _ => some ⟨"https".toList, none, some none⟩, fun _ location => some location, id,
    fun _ => none⟩

/-- A server whose rules set two fields of the database. -/
def databaseRules : Servers := fun _ _ => some ⟨200, none, some (.dict
  [("version".toList, .leaf (.num 1)),
    ("rules".toList, .arr
      [.dict [("id".toList, text "database.path"), ("value".toList, text "/tmp/db")],
        .dict [("id".toList, text "database.provider"), ("value".toList, text "lancedb")]])])⟩

def indexing : Invocation ℕ ℕ where
  command := "index".toList
  discovery := fun _ => some ⟨"https://host".toList, none⟩
  servers := databaseRules
  environ := fun _ => []
  client := fun _ => { oneModel with
    subModels := [("database".toList, [("path".toList, .plain), ("provider".toList, .plain)])] }
  halfMerged := fun _ => some fun _ => []
  active := fun _ => some fun _ => []
  readable := true
  writable := true

/-- The path is taken back, the provider stays, and the URL is entered. -/
example : run anyUrl (fun _ => some fun _ => ([] : List ℕ)) [] indexing =
    [("database".toList, .dict [("provider".toList, text "lancedb")]),
      ("remote_config".toList, .dict [("url".toList, text "https://host")])] := by
  rfl

end ChunkHound.RemoteConfig
