import ChunkHound.DictTree
import ChunkHound.StepSystem

/-!
# Rules of the remote configuration

A rule of the fetched envelope sets, merges or removes what stands at a path of the global JSON. It
is refused where its operation, its version, its predicates, its path or the keys of its value are
wrong, and undone where the sub-model that encloses the path does not accept what it makes.

`applyRule_effect` : a rule that is applied does at its path what its operation says, and nothing
elsewhere, and one that is not leaves every top-level key with the value it had.
`applyRules_sound` : after any list of rules every top-level key has the value it had, or is a
sub-model's and is empty or accepted by it.

`dict.get` does not tell a key that is missing from one that is null, and neither does the rollback
of a rule : a null it took the place of comes back as a missing key. What escapes `apply_rule` as an
exception (an operation that cannot be hashed, a path that is no text) ends the pipeline before
anything is written. Versions, the snapshot that predicates ask and the validation of a sub-model
are parameters.
-/

namespace ChunkHound.RemoteConfig

open DictTree

/-! ## JSON -/

inductive Scalar
  | null
  | bool (b : Bool)
  | num (q : ℚ)
  | str (s : List Char)
  deriving DecidableEq

abbrev Key := List Char

abbrev Value := Tree Key Scalar

abbrev Dict := List (Key × Value)

def null : Value := .leaf .null

def text (s : String) : Value := .leaf (.str s.toList)

/-- `bool(value)`. -/
def truthy : Value → Bool
  | .leaf .null => false
  | .leaf (.bool b) => b
  | .leaf (.num q) => decide (q ≠ 0)
  | .leaf (.str s) => !s.isEmpty
  | .arr items => !items.isEmpty
  | .dict entries => !entries.isEmpty

/-- The value of a key, if the dictionary has it. -/
def entry (k : Key) (d : Dict) : Option Value := find [k] (.dict d)

/-- `d.get(key)`. -/
def get (k : Key) (d : Dict) : Value := (entry k d).getD null

/-! ## Paths -/

/-- What `apply_rule` raises and does not catch. -/
inductive Escape
  | attributeError
  | typeError
  | invalidVersion
  deriving DecidableEq

/-- A single leading dot or slash goes. -/
def stripLead : List Char → List Char
  | '.' :: rest => rest
  | '/' :: rest => rest
  | path => path

/-- The segments of a text, none where one is empty. -/
def segmentsOf (path : List Char) : Option (List Key) :=
  let segments := ((stripLead path).map fun c => if c = '/' then '.' else c).splitOn '.'
  if segments.any List.isEmpty then none else some segments

/-- `parse_path`. A `ValueError` is none. -/
def parsePath (path : Value) : Except Escape (Option (List Key)) :=
  if truthy path then
    match path with
    | .leaf (.str s) => .ok (segmentsOf s)
    | _ => .error .attributeError
  else .ok none

variable {segments : List Key}

theorem segmentsOf_ne_nil {path : List Char}
    (h : segmentsOf path = some segments) : segments ≠ [] := by
  unfold segmentsOf at h
  dsimp only at h
  split at h
  · cases h
  · obtain rfl := Option.some.inj h
    exact List.splitOn_ne_nil _ _

theorem parsePath_ne_nil {path : Value}
    (h : parsePath path = .ok (some segments)) : segments ≠ [] := by
  unfold parsePath at h
  split at h
  · split at h
    · exact segmentsOf_ne_nil (Except.ok.inj h)
    · cases h
  · cases h

/-! ## The client -/

/-- A field of a model : a plain value, or a model of its own. -/
inductive Field
  | plain
  | model (fields : List (Key × Field))

/-- What a rule is held against : the sub-models of `Config` with their fields, what they accept,
the platform, the version, and which paths have a value in the half-merged snapshot. -/
structure Client (V : Type*) where
  subModels : List (Key × List (Key × Field))
  accepts : Key → Dict → Bool
  platform : Key
  parseVersion : Value → Option V
  currentVersion : Option V
  existing : List Key → Bool

variable {V : Type*}

/-- What a rule does. -/
inductive Op
  | merge
  | set
  | remove
  deriving DecidableEq

/-- What becomes of a rule. All but the last two are warnings, and a miss is silent. -/
inductive Outcome
  | unknownOp
  | versionUnparseable
  | versionGate
  | unknownPredicate (key : Key)
  | predicateMiss
  | badPath
  | unknownTop (top : Key)
  | unknownPath (path : List Key)
  | invalid
  | noOp
  | applied (op : Op) (collapsed : Bool)
  deriving DecidableEq

def opOf : Value → Except Escape (Option Op)
  | .leaf (.str s) =>
    if s = "merge".toList then .ok (some .merge)
    else if s = "set".toList then .ok (some .set)
    else if s = "remove".toList then .ok (some .remove)
    else .ok none
  | .leaf _ => .ok none
  | _ => .error .typeError

/-- `_version_gate_ok` : the outcome where the rule is not for this version. -/
def versionGate [LinearOrder V] (client : Client V) (rule : Dict) :
    Except Escape (Option Outcome) :=
  match get "min_chunkhound_version".toList rule with
  | .leaf .null => .ok none
  | required =>
    match client.parseVersion required, client.currentVersion with
    | none, _ => .ok (some .versionUnparseable)
    | some _, none => .error .invalidVersion
    | some required, some current =>
      if required ≤ current then .ok none else .ok (some .versionGate)

/-- `expected if isinstance(expected, list) else [expected]`. -/
def wantedOf : Value → List Value
  | .arr items => items
  | expected => [expected]

/-- Every path exists, asked one after another. -/
def allExist (client : Client V) : List Value → Except Escape Bool
  | [] => .ok true
  | path :: rest => do
    match ← parsePath path with
    | none => .ok false
    | some segments => if client.existing segments then allExist client rest else .ok false

/-- `_predicate_matches` : the outcome where a predicate fails or is not known. -/
def predicateMatches (client : Client V) : Dict → Except Escape (Option Outcome)
  | [] => .ok none
  | (key, expected) :: rest =>
    if key = "os".toList then
      if (wantedOf expected).any fun v =>
          match v with
          | .leaf (.str s) => decide (s = client.platform)
          | _ => false
      then predicateMatches client rest
      else .ok (some .predicateMiss)
    else if key = "existing".toList then do
      if ← allExist client (wantedOf expected) then predicateMatches client rest
      else .ok (some .predicateMiss)
    else .ok (some (.unknownPredicate key))

/-- The predicates of a rule, none of them where `when` is falsy. -/
def whenOutcome (client : Client V) (rule : Dict) : Except Escape (Option Outcome) :=
  if truthy (get "when".toList rule) then
    match get "when".toList rule with
    | .dict predicates => predicateMatches client predicates
    | _ => .error .attributeError
  else .ok none

mutual

/-- `_check_payload_keys` : the path of the first key that the model does not have. -/
def checkPayloadKeys (fields : List (Key × Field)) (path : List Key) : Value → Option (List Key)
  | .dict payload => checkEntries fields path payload
  | _ => none

def checkEntries (fields : List (Key × Field)) (path : List Key) : Dict → Option (List Key)
  | [] => none
  | (key, subPayload) :: rest =>
    match fields.lookup key with
    | none => some (path ++ [key])
    | some .plain => checkEntries fields path rest
    | some (.model nested) =>
      (checkPayloadKeys nested (path ++ [key]) subPayload).or (checkEntries fields path rest)

end

/-- The outcome where the path, or a value for a whole sub-model, has a key that is not known. -/
def pathOutcome (client : Client V) (op : Op) (value : Value) (segments : List Key) :
    Option Outcome :=
  match client.subModels.lookup (segments.headD []) with
  | none => some (.unknownTop (segments.headD []))
  | some fields =>
    match segments with
    | [_] =>
      if op = .remove then none
      else (checkPayloadKeys fields segments value).map .unknownPath
    | _ :: field :: _ => if (fields.lookup field).isSome then none else some (.unknownPath segments)
    | [] => none

/-- A subtree that is empty, or accepted by its sub-model. -/
def ValidSubtree (client : Client V) (top : Key) (subtree : Value) : Prop :=
  subtree = null ∨ ∃ entries, subtree = .dict entries ∧ client.accepts top entries = true

/-- `_validate_sub_model`. -/
def validateSubModel (client : Client V) (top : Key) (workingCopy : Dict) : Bool :=
  match get top workingCopy with
  | .leaf .null => true
  | .dict subtree => client.accepts top subtree
  | _ => false

variable {client : Client V}

theorem validSubtree_of_validate {top : Key} {d : Dict}
    (h : validateSubModel client top d = true) : ValidSubtree client top (get top d) := by
  unfold validateSubModel at h
  split at h
  · exact .inl (by assumption)
  · exact .inr ⟨_, by assumption, h⟩
  · cases h

/-! ## Applying a rule -/

/-- The working copy with the rule's mutation, and the outcome if it stays. -/
def mutate (op : Op) (segments : List Key) (value : Value) (workingCopy : Dict) : Outcome × Dict :=
  let existing := find segments (.dict workingCopy)
  match op with
  | .remove =>
    (if existing.isNone then .noOp else .applied .remove false, removeAt segments workingCopy)
  | .merge =>
    match value, existing with
    | .dict update, some (.dict base) =>
      (.applied .merge false, setAt segments (.dict (deepMerge base update)) workingCopy)
    | value, _ => (.applied .merge true, setAt segments value workingCopy)
  | .set => (.applied .set false, setAt segments value workingCopy)

/-- The subtree comes back as it was, or goes. -/
def rollback (top : Key) (snapshot : Value) (d : Dict) : Dict :=
  match snapshot with
  | .leaf .null => removeAt [top] d
  | snapshot => setAt [top] snapshot d

/-- The end of `apply_rule` : mutate, validate, keep or undo. -/
def commit (client : Client V) (op : Op) (segments : List Key) (value : Value)
    (workingCopy : Dict) : Outcome × Dict :=
  let top := segments.headD []
  let (outcome, mutated) := mutate op segments value workingCopy
  if validateSubModel client top mutated then (outcome, mutated)
  else (.invalid, rollback top (get top workingCopy) mutated)

/-- `apply_rule`. -/
def applyRule [LinearOrder V] (client : Client V) (rule workingCopy : Dict) :
    Except Escape (Outcome × Dict) := do
  match ← opOf ((entry "op".toList rule).getD (text "merge")) with
  | none => .ok (.unknownOp, workingCopy)
  | some op =>
  match ← versionGate client rule with
  | some outcome => .ok (outcome, workingCopy)
  | none =>
  match ← whenOutcome client rule with
  | some outcome => .ok (outcome, workingCopy)
  | none =>
  match entry "id".toList rule with
  | none => .ok (.badPath, workingCopy)
  | some path =>
  match ← parsePath path with
  | none => .ok (.badPath, workingCopy)
  | some segments =>
  let value := get "value".toList rule
  match pathOutcome client op value segments with
  | some outcome => .ok (outcome, workingCopy)
  | none => .ok (commit client op segments value workingCopy)

/-- Step 4a of the pipeline : the rules in order, and an entry that is no object is skipped. -/
def applyRules [LinearOrder V] (client : Client V) : List Value → Dict → Except Escape Dict
  | [], workingCopy => .ok workingCopy
  | .dict rule :: rest, workingCopy => do
    let (_, workingCopy) ← applyRule client rule workingCopy
    applyRules client rest workingCopy
  | _ :: rest, workingCopy => applyRules client rest workingCopy

/-! ## A rule for a whole sub-model -/

/-- A client with one sub-model of two fields. -/
def oneModel : Client ℕ where
  subModels := [("embedding".toList, [("model".toList, .plain), ("key".toList, .plain)])]
  accepts := fun _ _ => true
  platform := "linux".toList
  parseVersion := fun _ => some 1
  currentVersion := some 1
  existing := fun _ => false

/-- A rule without an operation, and so a merge. -/
def mergeRule : Dict :=
  [("id".toList, text "embedding"), ("value".toList, .dict [("model".toList, text "m")])]

def withKey : Dict := [("embedding".toList, .dict [("key".toList, text "k")])]

def withModel : Dict :=
  [("embedding".toList, .dict [("key".toList, text "k"), ("model".toList, text "m")])]

theorem applyRule_merge :
    applyRule oneModel mergeRule withKey = .ok (.applied .merge false, withModel) := rfl

/-! ## What a rule does -/

variable {k : Key}

theorem get_of_find {d d' : Dict} (h : find [k] (.dict d') = find [k] (.dict d)) :
    get k d' = get k d := by
  rw [get, get, entry, entry, h]

/-- Another top-level key is apart from the path. -/
theorem apart_top (hne : segments ≠ []) (hk : k ≠ segments.headD []) : Apart segments [k] := by
  obtain ⟨top, rest, rfl⟩ := List.exists_cons_of_ne_nil hne
  refine ⟨fun h => ?_, fun h => ?_⟩
  · obtain ⟨back, hback⟩ := h
    exact hk (List.cons.inj hback).1.symm
  · obtain ⟨back, hback⟩ := h
    exact hk (List.cons.inj hback).1

theorem mutate_of_apart (op : Op) (value : Value) (d : Dict) {segments q : List Key}
    (h : Apart segments q) : find q (.dict (mutate op segments value d).2) = find q (.dict d) := by
  cases op with
  | remove => exact find_removeAt_of_apart h
  | set => exact find_setAt_of_apart h
  | merge =>
    simp only [mutate]
    split
    · exact find_setAt_of_apart h
    · exact find_setAt_of_apart h

theorem get_rollback (k top : Key) (snapshot : Value) (d : Dict) :
    get k (rollback top snapshot d) = if k = top then snapshot else get k d := by
  by_cases hk : k = top
  · subst hk
    rw [if_pos rfl]
    unfold rollback
    split
    · rw [get, entry, find_removeAt (List.cons_ne_nil k [])]
      rfl
    · rw [get, entry, find_setAt (List.cons_ne_nil k [])]
      rfl
  · rw [if_neg hk]
    have hapart : Apart [top] [k] := apart_top (List.cons_ne_nil top []) hk
    unfold rollback
    split
    · exact get_of_find (find_removeAt_of_apart hapart)
    · exact get_of_find (find_setAt_of_apart hapart)

/-- A mutation stays where the sub-model accepts it. Else it leaves no trace. -/
theorem commit_cases (client : Client V) (op : Op) (value : Value) (d : Dict)
    (hne : segments ≠ []) :
    ((commit client op segments value d).1 = .invalid ∧
      ∀ k, get k (commit client op segments value d).2 = get k d) ∨
    (commit client op segments value d = mutate op segments value d ∧
      ValidSubtree client (segments.headD [])
        (get (segments.headD []) (commit client op segments value d).2)) := by
  unfold commit
  dsimp only
  split
  · rename_i hvalid
    exact .inr ⟨rfl, validSubtree_of_validate hvalid⟩
  · refine .inl ⟨rfl, fun k => ?_⟩
    rw [get_rollback]
    by_cases hk : k = segments.headD []
    · rw [if_pos hk, hk]
    · rw [if_neg hk]
      exact get_of_find (mutate_of_apart op value d (apart_top hne hk))

/-- A rule that was skipped or undone. -/
def Outcome.refused : Outcome → Bool
  | .noOp | .applied _ _ => false
  | _ => true

theorem mutate_not_refused (op : Op) (segments : List Key) (value : Value) (d : Dict) :
    (mutate op segments value d).1.refused = false := by
  cases op with
  | remove =>
    simp only [mutate]
    split <;> rfl
  | set => rfl
  | merge =>
    simp only [mutate]
    split <;> rfl

/-- The predicates name an outcome that refuses. -/
theorem predicateMatches_refused : ∀ {predicates : Dict} {outcome : Outcome},
    predicateMatches client predicates = .ok (some outcome) → outcome.refused = true
  | [], outcome, h => by cases h
  | (key, expected) :: rest, outcome, h => by
    rw [predicateMatches] at h
    split at h
    · split at h
      · exact predicateMatches_refused h
      · obtain rfl := Option.some.inj (Except.ok.inj h)
        rfl
    · split at h
      · obtain ⟨exist, -, h⟩ := StepSystem.bind_eq_ok.1 h
        split at h
        · exact predicateMatches_refused h
        · obtain rfl := Option.some.inj (Except.ok.inj h)
          rfl
      · obtain rfl := Option.some.inj (Except.ok.inj h)
        rfl

variable {outcome : Outcome}

theorem versionGate_refused [LinearOrder V] {rule : Dict}
    (h : versionGate client rule = .ok (some outcome)) : outcome.refused = true := by
  unfold versionGate at h
  split at h
  · cases h
  · split at h
    · obtain rfl := Option.some.inj (Except.ok.inj h)
      rfl
    · cases h
    · split at h
      · cases h
      · obtain rfl := Option.some.inj (Except.ok.inj h)
        rfl

theorem whenOutcome_refused {rule : Dict}
    (h : whenOutcome client rule = .ok (some outcome)) : outcome.refused = true := by
  unfold whenOutcome at h
  split at h
  · split at h
    · exact predicateMatches_refused h
    · cases h
  · cases h

theorem pathOutcome_refused {op : Op} {value : Value}
    (h : pathOutcome client op value segments = some outcome) :
    outcome.refused = true := by
  unfold pathOutcome at h
  split at h
  · obtain rfl := Option.some.inj h
    rfl
  · split at h
    · split at h
      · cases h
      · obtain ⟨path, -, rfl⟩ := Option.map_eq_some_iff.1 h
        rfl
    · split at h
      · cases h
      · obtain rfl := Option.some.inj h
        rfl
    · cases h

/-- A top-level key has the value it had, or is a sub-model's and is empty or accepted by it. -/
def Sound (client : Client V) (d d' : Dict) (k : Key) : Prop :=
  get k d' = get k d ∨
    ((client.subModels.lookup k).isSome = true ∧ ValidSubtree client k (get k d'))

theorem Sound.trans {d₁ d₂ d₃ : Dict} (h : Sound client d₁ d₂ k)
    (h' : Sound client d₂ d₃ k) : Sound client d₁ d₃ k := by
  rcases h' with heq | h'
  · rcases h with heq' | ⟨hmodel, hvalid⟩
    · exact .inl (heq.trans heq')
    · exact .inr ⟨hmodel, heq ▸ hvalid⟩
  · exact .inr h'

section Rules

variable [LinearOrder V] {client : Client V} {rule d d' : Dict} {outcome : Outcome}

/-- A rule is skipped and changes nothing, or it has an operation and a path into a sub-model, and
is committed. -/
theorem applyRule_cases (h : applyRule client rule d = .ok (outcome, d')) :
    (outcome.refused = true ∧ d' = d) ∨
    ∃ op path segments, opOf ((entry "op".toList rule).getD (text "merge")) = .ok (some op) ∧
      entry "id".toList rule = some path ∧ parsePath path = .ok (some segments) ∧
      pathOutcome client op (get "value".toList rule) segments = none ∧
      commit client op segments (get "value".toList rule) d = (outcome, d') := by
  unfold applyRule at h
  obtain ⟨op, hop, h⟩ := StepSystem.bind_eq_ok.1 h
  cases op with
  | none =>
    cases h
    exact .inl ⟨rfl, rfl⟩
  | some op =>
    obtain ⟨gate, hgate, h⟩ := StepSystem.bind_eq_ok.1 h
    cases gate with
    | some o =>
      cases h
      exact .inl ⟨versionGate_refused hgate, rfl⟩
    | none =>
      obtain ⟨miss, hmiss, h⟩ := StepSystem.bind_eq_ok.1 h
      cases miss with
      | some o =>
        cases h
        exact .inl ⟨whenOutcome_refused hmiss, rfl⟩
      | none =>
        cases hid : entry "id".toList rule with
        | none =>
          rw [hid] at h
          cases h
          exact .inl ⟨rfl, rfl⟩
        | some path =>
          rw [hid] at h
          obtain ⟨segments, hsegments, h⟩ := StepSystem.bind_eq_ok.1 h
          cases segments with
          | none =>
            cases h
            exact .inl ⟨rfl, rfl⟩
          | some segments =>
            dsimp only at h
            cases hpath : pathOutcome client op (get "value".toList rule) segments with
            | some o =>
              rw [hpath] at h
              cases h
              exact .inl ⟨pathOutcome_refused hpath, rfl⟩
            | none =>
              rw [hpath] at h
              exact .inr ⟨op, path, segments, hop, rfl, hsegments, hpath, Except.ok.inj h⟩

/-- A rule that was skipped or undone leaves every top-level key with the value it had. -/
theorem applyRule_refused (h : applyRule client rule d = .ok (outcome, d'))
    (hrefused : outcome.refused = true) (k : Key) : get k d' = get k d := by
  rcases applyRule_cases h with ⟨-, rfl⟩ | ⟨op, path, segments, -, -, hpath, -, hcommit⟩
  · rfl
  · rcases commit_cases client op (get "value".toList rule) d
      (parsePath_ne_nil hpath) with ⟨-, hsame⟩ | ⟨hmutate, -⟩
    · rw [hcommit] at hsame
      exact hsame k
    · have hnot := mutate_not_refused op segments (get "value".toList rule) d
      rw [← hmutate, hcommit, hrefused] at hnot
      cases hnot

/-- What stands at the path of a rule before and after it. -/
def Effect (segments : List Key) (value : Value) (d d' : Dict) : Outcome → Prop
  | .noOp => find segments (.dict d) = none ∧ d' = d
  | .applied .remove _ =>
    (find segments (.dict d)).isSome = true ∧ find segments (.dict d') = none
  | .applied .set _ => find segments (.dict d') = some value
  | .applied .merge true => find segments (.dict d') = some value
  | .applied .merge false => ∀ p,
      (∀ v, find p value = some v →
        find (segments ++ p) (.dict d') = some (mergeValue (find (segments ++ p) (.dict d)) v)) ∧
      (Silent p value → find (segments ++ p) (.dict d') = find (segments ++ p) (.dict d))
  | _ => False

theorem mutate_effect (op : Op) (d : Dict) {segments : List Key} {value : Value}
    (hne : segments ≠ []) (hdistinct : Distinct value) :
    Effect segments value d (mutate op segments value d).2 (mutate op segments value d).1 := by
  cases op with
  | set => exact find_setAt hne
  | remove =>
    simp only [mutate]
    split
    · rename_i hnone
      rw [Option.isNone_iff_eq_none] at hnone
      exact ⟨hnone, removeAt_eq_self hnone⟩
    · rename_i hsome
      exact ⟨by simpa [Option.isSome_iff_ne_none] using hsome, find_removeAt hne⟩
  | merge =>
    simp only [mutate]
    split
    · rename_i update base hbase
      have hold : ∀ p, find (segments ++ p) (.dict d) =
          (some (Tree.dict base)).bind (find p) := fun p => by
        rw [find_append, hbase]
      have hnew : ∀ p, find (segments ++ p)
          (.dict (setAt segments (.dict (deepMerge base update)) d)) =
          find p (mergeValue (some (.dict base)) (.dict update)) := fun p => by
        rw [find_append, find_setAt hne]
        rfl
      refine fun p => ⟨fun v hv => ?_, fun hsilent => ?_⟩
      · rw [hnew, hold, find_mergeValue hdistinct hv]
      · rw [hnew, hold, find_mergeValue_of_silent hdistinct hsilent]
    · exact find_setAt hne

/-- A rule that stays does at its path what its operation says, and nothing elsewhere. -/
theorem applyRule_stays (hdistinct : Distinct (get "value".toList rule))
    (h : applyRule client rule d = .ok (outcome, d')) (happlied : outcome.refused = false) :
    ∃ path segments, entry "id".toList rule = some path ∧ parsePath path = .ok (some segments) ∧
      Effect segments (get "value".toList rule) d d' outcome ∧
      ∀ q, Apart segments q → find q (.dict d') = find q (.dict d) := by
  rcases applyRule_cases h with ⟨hrefused, -⟩ | ⟨op, path, segments, -, hid, hpath, -, hcommit⟩
  · rw [hrefused] at happlied
    cases happlied
  · have hne := parsePath_ne_nil hpath
    rcases commit_cases client op (get "value".toList rule) d hne with
      ⟨hinvalid, -⟩ | ⟨hmutate, -⟩
    · rw [hcommit] at hinvalid
      obtain rfl : outcome = .invalid := hinvalid
      cases happlied
    · rw [hcommit] at hmutate
      have heffect := mutate_effect op d hne hdistinct
      rw [← hmutate] at heffect
      refine ⟨path, segments, hid, hpath, heffect, fun q hq => ?_⟩
      have hapart := mutate_of_apart op (get "value".toList rule) d hq
      rw [← hmutate] at hapart
      exact hapart

/-- A rule that is refused leaves every top-level key with the value it had. One that stays does at
its path what its operation says, and nothing elsewhere. -/
theorem applyRule_effect (hdistinct : Distinct (get "value".toList rule))
    (h : applyRule client rule d = .ok (outcome, d')) :
    (outcome.refused = true ∧ ∀ k, get k d' = get k d) ∨
    ∃ path segments, entry "id".toList rule = some path ∧ parsePath path = .ok (some segments) ∧
      Effect segments (get "value".toList rule) d d' outcome ∧
      ∀ q, Apart segments q → find q (.dict d') = find q (.dict d) := by
  cases hrefused : outcome.refused with
  | true => exact .inl ⟨rfl, applyRule_refused h hrefused⟩
  | false => exact .inr (applyRule_stays hdistinct h hrefused)

theorem applyRule_effect_merge :
    ((Outcome.applied .merge false).refused = true ∧ ∀ k, get k withModel = get k withKey) ∨
    ∃ path segments, entry "id".toList mergeRule = some path ∧
      parsePath path = .ok (some segments) ∧
      Effect segments (get "value".toList mergeRule) withKey withModel (.applied .merge false) ∧
      ∀ q, Apart segments q → find q (.dict withModel) = find q (.dict withKey) := by
  have hdistinct : Distinct (get "value".toList mergeRule) :=
    distinct_singleton (distinct_leaf (Scalar.str "m".toList))
  exact applyRule_effect hdistinct applyRule_merge

/-! ## What all rules do -/

theorem applyRule_sound (h : applyRule client rule d = .ok (outcome, d')) (k : Key) :
    Sound client d d' k := by
  rcases applyRule_cases h with ⟨-, rfl⟩ | ⟨op, path, segments, -, -, hpath, hnone, hcommit⟩
  · exact .inl rfl
  · have hne := parsePath_ne_nil hpath
    rcases commit_cases client op (get "value".toList rule) d hne with
      ⟨-, hsame⟩ | ⟨hmutate, hvalid⟩
    · rw [hcommit] at hsame
      exact .inl (hsame k)
    · rw [hcommit] at hmutate hvalid
      by_cases hk : k = segments.headD []
      · subst hk
        refine .inr ⟨?_, hvalid⟩
        unfold pathOutcome at hnone
        split at hnone
        · cases hnone
        · rename_i fields hfields
          rw [hfields]
          rfl
      · have hapart := mutate_of_apart op (get "value".toList rule) d
          (apart_top hne hk)
        rw [← hmutate] at hapart
        exact .inl (get_of_find hapart)

theorem applyRules_sound (k : Key) : ∀ {rules : List Value} {d d' : Dict},
    applyRules client rules d = .ok d' → Sound client d d' k
  | [], d, d', h => by
    cases h
    exact .inl rfl
  | .dict rule :: rest, d, d', h => by
    obtain ⟨⟨outcome, d₁⟩, hrule, hrest⟩ := StepSystem.bind_eq_ok.1 h
    exact (applyRule_sound hrule k).trans (applyRules_sound k hrest)
  | .leaf _ :: rest, d, d', h | .arr _ :: rest, d, d', h => by
    have hrest : applyRules client rest d = .ok d' := h
    exact applyRules_sound k hrest

theorem applyRules_sound_merge : Sound oneModel withKey withModel "embedding".toList :=
  applyRules_sound "embedding".toList
    (show applyRules oneModel [.dict mergeRule] withKey = .ok withModel from rfl)

end Rules

end ChunkHound.RemoteConfig
