import ChunkHound.NativeDiscovery

/-!
# The realtime path filter

`RealtimePathFilter` says which paths to index. It asks an ignore engine, which it builds when it
is first needed, and then the include patterns. What it asks may raise. The filter then rejects the
path and is degraded, and from there on rejects every path.

A filter that is not degraded after a call has answered what the patterns say, and no failure had
a part in it (`shouldIndex_healthy`).
-/

namespace ChunkHound

open Discovery Ignore

/-- What other code is asked for in a call of `should_index`. -/
inductive FilterStep
  | buildEngine
  | engineMatches
  | normalizeIncludes
  | prepareExtensions
  | shouldIncludeFile
  | passesExtensionFilter
  | languageFallback
  deriving DecidableEq, Repr

/-- `RealtimePathFilterSettings`. The other settings go to the ignore engine. -/
structure FilterSettings where
  includePatterns : Option (List (List Char))
  indexUnknownFiles : Bool

/-- What a filter is made with. `engine` is what the ignore engine matches once it is built,
`knownExtensions` and `knownNames` are those of the parsers, and `lower` is `str.lower`. -/
structure PathFilter where
  settings : Option FilterSettings
  root : PurePath
  fs : FileSystem
  engine : PurePath → Bool
  lower : List Char → List Char
  knownExtensions : List Segment
  knownNames : List Segment

/-- The attributes of a `RealtimePathFilter` that change. -/
structure FilterState where
  engine : Option (PurePath → Bool)
  engineInitialized : Bool
  engineInitializationFailed : Bool
  ignoreEngineDegraded : Bool
  includePatterns : Option (List (List Char))
  extensionFilter : Option (List Segment × List Segment)
  includeDegraded : Bool

namespace FilterState

/-- `RealtimePathFilter.__init__`. -/
def new : FilterState where
  engine := none
  engineInitialized := false
  engineInitializationFailed := false
  ignoreEngineDegraded := false
  includePatterns := none
  extensionFilter := none
  includeDegraded := false

def isDegraded (s : FilterState) : Bool :=
  s.engineInitializationFailed || s.ignoreEngineDegraded || s.includeDegraded

end FilterState

namespace PathFilter

variable (f : PathFilter)

/-! ## Files by name -/

/-- `Language.is_known_path`. -/
def isKnownPath (path : PurePath) : Bool :=
  f.lower (suffix (lastPart path)) ∈ f.knownExtensions.map f.lower ||
    f.lower (lastPart path) ∈ f.knownNames

/-- `prepare_extension_filter`. -/
def prepareExtensionFilter (patterns : List (List Char)) : List Segment × List Segment :=
  let (allowedExts, allowedNames, _) := summarizeIncludePatterns patterns
  (allowedExts.map f.lower, allowedNames.map f.lower)

/-- `passes_extension_filter`. -/
def passesExtensionFilter (path : PurePath) (patterns : List (List Char))
    (indexUnknownFiles : Bool) (prepared : Option (List Segment × List Segment)) : Bool :=
  if indexUnknownFiles then true
  else if ['*', '*', '/', '*'] ∈ patterns then true
  else
    let (allowedExts, allowedNames) := prepared.getD (f.prepareExtensionFilter patterns)
    f.lower (suffix (lastPart path)) ∈ allowedExts || f.lower (lastPart path) ∈ allowedNames ||
      f.isKnownPath path

/-! ## should_index -/

section Call

variable (raises : FilterStep → Option String) (path : PurePath)

/-- A call of other code. -/
def ask {α : Type} (step : FilterStep) (answer : α) : Except String α :=
  match raises step with
  | some error => .error error
  | none => .ok answer

/-- The engine is built in the first call. -/
def initializeEngine (s : FilterState) : FilterState :=
  if ¬s.engineInitialized ∧ ¬s.engineInitializationFailed then
    match ask raises .buildEngine f.engine with
    | .ok engine => { s with engine := some engine, engineInitialized := true }
    | .error _ => { s with engine := none, engineInitializationFailed := true }
  else s

/-- The ignore engine is asked. `true` is a rejection. -/
def matchEngine (s : FilterState) : Bool × FilterState :=
  if s.ignoreEngineDegraded then (true, s)
  else
    match s.engine with
    | none => (false, s)
    | some engine =>
      match ask raises .engineMatches (engine path) with
      | .ok matched => (matched, s)
      | .error _ => (true, { s with engine := none, ignoreEngineDegraded := true })

/-- The include patterns, once they are normalized. -/
def matchIncludes (settings : FilterSettings) (patterns : List (List Char))
    (extensionFilter : Option (List Segment × List Segment)) : Except String Bool :=
  if patterns = [] then .ok false
  else do
    let included ← ask raises .shouldIncludeFile (shouldIncludeFile f.fs path f.root patterns)
    if included then
      ask raises .passesExtensionFilter
        (f.passesExtensionFilter path patterns settings.indexUnknownFiles extensionFilter)
    else .ok false

/-- The block whose failure makes the include patterns degraded. -/
def evaluateIncludes (settings : FilterSettings) (s : FilterState) :
    Except String Bool × FilterState :=
  match s.includePatterns with
  | some patterns => (f.matchIncludes raises path settings patterns s.extensionFilter, s)
  | none =>
    match settings.includePatterns with
    | none => (ask raises .languageFallback (f.isKnownPath path), s)
    | some includes =>
      match ask raises .normalizeIncludes (includes.map normalizeIncludePattern) with
      | .error e => (.error e, s)
      | .ok patterns =>
        let s := { s with includePatterns := some patterns }
        match ask raises .prepareExtensions (f.prepareExtensionFilter patterns) with
        | .error e => (.error e, s)
        | .ok prepared =>
          let s := { s with extensionFilter := some prepared }
          (f.matchIncludes raises path settings patterns s.extensionFilter, s)

/-- `should_index`. -/
def shouldIndex (s : FilterState) : Except String Bool × FilterState :=
  match f.settings with
  | none => (ask raises .languageFallback (f.isKnownPath path), s)
  | some settings =>
    let s := f.initializeEngine raises s
    if s.engineInitializationFailed then (.ok false, s)
    else
      let (rejected, s) := matchEngine raises path s
      if rejected ∨ s.includeDegraded then (.ok false, s)
      else
        match f.evaluateIncludes raises path settings s with
        | (.ok answer, s) => (.ok answer, s)
        | (.error _, s) => (.ok false, { s with includeDegraded := true })

end Call

/-! ## The policy -/

/-- What the include patterns say of a path. -/
def acceptsIncludes (settings : FilterSettings) (path : PurePath) : Bool :=
  match settings.includePatterns with
  | none => f.isKnownPath path
  | some includes =>
    let patterns := includes.map normalizeIncludePattern
    patterns ≠ [] && shouldIncludeFile f.fs path f.root patterns &&
      f.passesExtensionFilter path patterns settings.indexUnknownFiles
        (some (f.prepareExtensionFilter patterns))

/-- What the ignore engine and the include patterns say of a path. -/
def accepts (path : PurePath) : Bool :=
  match f.settings with
  | none => f.isKnownPath path
  | some settings => !f.engine path && f.acceptsIncludes settings path

/-- What a healthy filter has in its attributes. -/
structure Healthy (s : FilterState) : Prop where
  degraded : s.isDegraded = false
  engine : s.engineInitialized = true → s.engine = some f.engine
  includes : ∀ patterns, s.includePatterns = some patterns →
    ∃ settings includes, f.settings = some settings ∧ settings.includePatterns = some includes ∧
      patterns = includes.map normalizeIncludePattern ∧
      s.extensionFilter = some (f.prepareExtensionFilter patterns)

/-! ## Healthy and degraded calls -/

variable {f} {raises : FilterStep → Option String} {path : PurePath} {s s' : FilterState}
  {settings : FilterSettings}

theorem healthy_new (f : PathFilter) : f.Healthy FilterState.new where
  degraded := rfl
  engine := nofun
  includes := nofun

theorem ask_ok {α : Type} {step : FilterStep} {a b : α} (h : ask raises step a = .ok b) :
    raises step = none ∧ a = b := by
  unfold ask at h
  split at h
  · cases h
  · exact ⟨‹_›, Except.ok.inj h⟩

variable (f raises) in
theorem initializeEngine_degraded (h : s.isDegraded = true) :
    (f.initializeEngine raises s).isDegraded = true := by
  unfold initializeEngine
  split
  · split
    · exact h
    · rfl
  · exact h

variable (raises path) in
theorem matchEngine_degraded (h : s.isDegraded = true) :
    (matchEngine raises path s).2.isDegraded = true := by
  unfold matchEngine
  split
  · exact h
  · split
    · exact h
    · split
      · exact h
      · simp [FilterState.isDegraded]

variable (f raises path) in
theorem evaluateIncludes_isDegraded (settings : FilterSettings) (s : FilterState) :
    (f.evaluateIncludes raises path settings s).2.isDegraded = s.isDegraded := by
  unfold evaluateIncludes
  repeat' split
  all_goals rfl

/-- A degraded filter stays degraded. -/
theorem shouldIndex_degraded (h : s.isDegraded = true) :
    (f.shouldIndex raises path s).2.isDegraded = true := by
  unfold shouldIndex
  split
  · exact h
  · rename_i settings _
    have hinit := initializeEngine_degraded f raises h
    have hmatch := matchEngine_degraded raises path hinit
    have heval := evaluateIncludes_isDegraded f raises path settings
      (matchEngine raises path (f.initializeEngine raises s)).2
    dsimp only
    split
    · exact hinit
    · split
      · exact hmatch
      · split
        · rename_i heq
          rw [heq] at heval
          exact heval.trans hmatch
        · simp [FilterState.isDegraded]

theorem matchEngine_includeDegraded (s : FilterState) :
    (matchEngine raises path s).2.includeDegraded = s.includeDegraded := by
  unfold matchEngine
  repeat' split
  all_goals rfl

/-- A degraded filter rejects. -/
theorem shouldIndex_of_degraded (hs : f.settings = some settings) (h : s.isDegraded = true) :
    (f.shouldIndex raises path s).1 = .ok false := by
  have hinit := initializeEngine_degraded f raises h
  unfold shouldIndex
  simp only [hs]
  generalize f.initializeEngine raises s = built at *
  cases hfailed : built.engineInitializationFailed with
  | true => rfl
  | false =>
    have hrejected : (matchEngine raises path built).1 = true ∨
        (matchEngine raises path built).2.includeDegraded = true := by
      rw [matchEngine_includeDegraded]
      cases hengine : built.ignoreEngineDegraded with
      | true => simp [matchEngine, hengine]
      | false => simpa [FilterState.isDegraded, hfailed, hengine] using Or.inr hinit
    rw [if_neg (by simp), if_pos hrejected]

/-- The engine of a healthy filter is built, or the filter is degraded. -/
theorem initializeEngine_healthy (h : f.Healthy s)
    (hr : (f.initializeEngine raises s).engineInitializationFailed = false) :
    f.Healthy (f.initializeEngine raises s) ∧
      (f.initializeEngine raises s).engine = some f.engine ∧
      f.initializeEngine raises s = f.initializeEngine (fun _ => none) s := by
  have hfailed : s.engineInitializationFailed = false := by
    have hd := h.degraded
    simp only [FilterState.isDegraded, Bool.or_eq_false_iff] at hd
    exact hd.1.1
  cases hinit : s.engineInitialized with
  | true =>
    have hsame : ∀ raises, f.initializeEngine raises s = s := fun _ => if_neg (by simp [hinit])
    rw [hsame, hsame]
    exact ⟨h, h.engine hinit, rfl⟩
  | false =>
    have hbuilt : ∀ raises : FilterStep → Option String, raises .buildEngine = none →
        f.initializeEngine raises s =
          { s with engine := some f.engine, engineInitialized := true } := by
      intro raises hb
      simp [initializeEngine, hinit, hfailed, ask, hb]
    cases hb : raises .buildEngine with
    | some e => simp [initializeEngine, hinit, hfailed, ask, hb] at hr
    | none =>
      rw [hbuilt raises hb, hbuilt _ rfl]
      exact ⟨⟨h.degraded, fun _ => rfl, h.includes⟩, rfl, rfl⟩

theorem matchEngine_healthy (h : f.Healthy s) (he : s.engine = some f.engine)
    (hr : (matchEngine raises path s).2.isDegraded = false) :
    matchEngine raises path s = (f.engine path, s) ∧
      matchEngine (fun _ => none) path s = (f.engine path, s) := by
  have hnot : s.ignoreEngineDegraded = false := by
    have hd := h.degraded
    simp only [FilterState.isDegraded, Bool.or_eq_false_iff] at hd
    exact hd.1.2
  cases hm : raises .engineMatches with
  | some e => simp [matchEngine, hnot, he, ask, hm, FilterState.isDegraded] at hr
  | none => simp [matchEngine, hnot, he, ask, hm]

variable {answer : Bool}

/-- The answer of the include patterns, where nothing raised. -/
theorem matchIncludes_ok {patterns : List (List Char)}
    {extensionFilter : Option (List Segment × List Segment)}
    (h : f.matchIncludes raises path settings patterns extensionFilter = .ok answer) :
    answer = (decide (patterns ≠ []) && shouldIncludeFile f.fs path f.root patterns &&
        f.passesExtensionFilter path patterns settings.indexUnknownFiles extensionFilter) ∧
      f.matchIncludes (fun _ => none) path settings patterns extensionFilter = .ok answer := by
  unfold matchIncludes at h ⊢
  by_cases hnil : patterns = []
  · rw [if_pos hnil] at h ⊢
    obtain rfl := Except.ok.inj h
    simp [hnil]
  · rw [if_neg hnil] at h ⊢
    cases hinc : ask raises .shouldIncludeFile (shouldIncludeFile f.fs path f.root patterns) with
    | error e =>
      rw [hinc] at h
      cases h
    | ok included =>
      obtain ⟨-, hincluded⟩ := ask_ok hinc
      rw [hinc] at h
      change (if included = true then _ else _) = _ at h
      cases included with
      | false =>
        obtain rfl := Except.ok.inj h
        simp [hnil, hincluded, ask, bind, Except.bind]
      | true =>
        obtain ⟨-, rfl⟩ := ask_ok h
        simp [hnil, hincluded, ask, bind, Except.bind]

/-- The include patterns of a healthy filter answer what they say, where nothing raised. -/
theorem evaluateIncludes_healthy (h : f.Healthy s) (hs : f.settings = some settings)
    (hr : f.evaluateIncludes raises path settings s = (.ok answer, s')) :
    f.Healthy s' ∧ answer = f.acceptsIncludes settings path ∧
      f.evaluateIncludes (fun _ => none) path settings s = (.ok answer, s') := by
  unfold evaluateIncludes at hr ⊢
  cases hp : s.includePatterns with
  | some patterns =>
    obtain ⟨settings', includes, hs', hincludes, rfl, hext⟩ := h.includes patterns hp
    obtain rfl := Option.some.inj (hs.symm.trans hs')
    rw [hp] at hr
    obtain ⟨hmatch, rfl⟩ := Prod.mk.inj hr
    obtain ⟨hanswer, hsame⟩ := matchIncludes_ok hmatch
    rw [acceptsIncludes, hincludes]
    rw [hext] at hanswer
    exact ⟨h, hanswer, Prod.ext hsame rfl⟩
  | none =>
    rw [hp] at hr
    cases hincludes : settings.includePatterns with
    | none =>
      simp only [hincludes] at hr ⊢
      obtain ⟨hask, rfl⟩ := Prod.mk.inj hr
      obtain ⟨-, rfl⟩ := ask_ok hask
      rw [acceptsIncludes, hincludes]
      exact ⟨h, rfl, rfl⟩
    | some includes =>
      simp only [hincludes] at hr ⊢
      cases hn : ask raises .normalizeIncludes (includes.map normalizeIncludePattern) with
      | error e => simp [hn] at hr
      | ok patterns =>
        obtain ⟨-, rfl⟩ := ask_ok hn
        cases hprep : ask raises .prepareExtensions
            (f.prepareExtensionFilter (includes.map normalizeIncludePattern)) with
        | error e => simp [hn, hprep] at hr
        | ok prepared =>
          obtain ⟨-, rfl⟩ := ask_ok hprep
          simp only [hn, hprep] at hr
          obtain ⟨hmatch, rfl⟩ := Prod.mk.inj hr
          obtain ⟨hanswer, hsame⟩ := matchIncludes_ok hmatch
          rw [acceptsIncludes, hincludes]
          refine ⟨⟨h.degraded, h.engine, fun patterns hp => ?_⟩, hanswer, Prod.ext hsame rfl⟩
          obtain rfl := Option.some.inj hp
          exact ⟨settings, includes, hs, hincludes, rfl, rfl⟩

/-- A call that leaves the filter healthy left it so after each of its stages. -/
theorem stages_of_not_degraded (hs : f.settings = some settings)
    (hd : (f.shouldIndex raises path s).2.isDegraded = false) :
    (f.initializeEngine raises s).engineInitializationFailed = false ∧
      (matchEngine raises path (f.initializeEngine raises s)).2.isDegraded = false := by
  unfold shouldIndex at hd
  simp only [hs] at hd
  cases hfailed : (f.initializeEngine raises s).engineInitializationFailed with
  | true =>
    rw [if_pos hfailed] at hd
    simp [FilterState.isDegraded, hfailed] at hd
  | false =>
    refine ⟨rfl, ?_⟩
    rw [if_neg (by simp [hfailed])] at hd
    split at hd
    · exact hd
    · rw [← evaluateIncludes_isDegraded f raises path settings]
      split at hd
      · rename_i answer s' heq
        rw [heq]
        exact hd
      · simp [FilterState.isDegraded] at hd

/-- A healthy filter that is not degraded by a call has answered what its policy says, and the
call was one in which nothing raised. -/
theorem shouldIndex_healthy (h : f.Healthy s)
    (hr : f.shouldIndex raises path s = (.ok answer, s')) (hd : s'.isDegraded = false) :
    f.Healthy s' ∧ answer = f.accepts path ∧
      f.shouldIndex (fun _ => none) path s = (.ok answer, s') := by
  cases hs : f.settings with
  | none =>
    unfold shouldIndex at hr ⊢
    rw [hs] at hr
    obtain ⟨hask, rfl⟩ := Prod.mk.inj hr
    obtain ⟨-, rfl⟩ := ask_ok hask
    rw [accepts, hs]
    exact ⟨h, rfl, rfl⟩
  | some settings =>
    obtain ⟨hfailed, hmatch⟩ := stages_of_not_degraded hs (by rw [hr]; exact hd)
    obtain ⟨hinit, hengine, hsame⟩ := initializeEngine_healthy h hfailed
    unfold shouldIndex at hr ⊢
    simp only [hs] at hr ⊢
    rw [if_neg (by simp [hfailed])] at hr
    rw [← hsame, if_neg (by simp [hfailed])]
    generalize f.initializeEngine raises s = built at *
    obtain ⟨hasked, hnone⟩ := matchEngine_healthy hinit hengine hmatch
    rw [hasked] at hr
    rw [hnone, accepts, hs]
    have hincl : built.includeDegraded = false := by
      have hbuilt := hinit.degraded
      simp only [FilterState.isDegraded, Bool.or_eq_false_iff] at hbuilt
      exact hbuilt.2
    cases hengine' : f.engine path with
    | true =>
      simp only [hengine', true_or, if_true] at hr ⊢
      obtain ⟨h1, rfl⟩ := Prod.mk.inj hr
      exact ⟨hinit, (Except.ok.inj h1).symm, hr⟩
    | false =>
      simp only [hengine', hincl, Bool.false_eq_true, or_self, if_false] at hr ⊢
      cases heval : f.evaluateIncludes raises path settings built with
      | mk result s'' =>
        rw [heval] at hr
        cases result with
        | error e =>
          obtain ⟨-, rfl⟩ := Prod.mk.inj hr
          simp [FilterState.isDegraded] at hd
        | ok answer' =>
          obtain ⟨h1, rfl⟩ := Prod.mk.inj hr
          obtain rfl := Except.ok.inj h1
          obtain ⟨hhealthy, hanswer, heq⟩ := evaluateIncludes_healthy hinit hs heval
          rw [heq]
          exact ⟨hhealthy, by simpa using hanswer, rfl⟩

variable (raises path) in
/-- With settings, `should_index` does not raise. -/
theorem shouldIndex_returns (hs : f.settings = some settings) (s : FilterState) :
    ∃ answer, (f.shouldIndex raises path s).1 = .ok answer := by
  unfold shouldIndex
  simp only [hs]
  split
  · exact ⟨_, rfl⟩
  · split
    · exact ⟨_, rfl⟩
    · split
      · exact ⟨_, rfl⟩
      · exact ⟨_, rfl⟩

/-- A filter that failed is degraded, and one that did not holds what it was made with. -/
theorem shouldIndex_healthy_or_degraded (raises : FilterStep → Option String) (path : PurePath)
    (h : f.Healthy s ∨ s.isDegraded = true) :
    f.Healthy (f.shouldIndex raises path s).2 ∨
      (f.shouldIndex raises path s).2.isDegraded = true := by
  rcases h with h | h
  · cases hd : (f.shouldIndex raises path s).2.isDegraded with
    | true => exact Or.inr rfl
    | false =>
      left
      cases hr : (f.shouldIndex raises path s).1 with
      | ok answer => exact (shouldIndex_healthy h (Prod.ext hr rfl) hd).1
      | error e =>
        cases hs : f.settings with
        | none => simpa only [shouldIndex, hs] using h
        | some settings =>
          obtain ⟨answer, hanswer⟩ := shouldIndex_returns raises path hs s
          rw [hr] at hanswer
          cases hanswer
  · exact Or.inr (shouldIndex_degraded h)

/-! ## Calls in turn -/

variable (f) in
/-- The filter after some calls, each with what raised in it. -/
def calls : FilterState → List ((FilterStep → Option String) × PurePath) → FilterState
  | s, [] => s
  | s, (raises, path) :: rest => calls (f.shouldIndex raises path s).2 rest

theorem calls_of_no_settings (hs : f.settings = none) :
    ∀ (cs : List ((FilterStep → Option String) × PurePath)) (s : FilterState), f.calls s cs = s
  | [], _ => rfl
  | (raises, path) :: cs, s => by
    have hstate : (f.shouldIndex raises path s).2 = s := by
      unfold shouldIndex
      rw [hs]
    rw [calls, hstate, calls_of_no_settings hs cs s]

theorem calls_degraded : ∀ (cs : List ((FilterStep → Option String) × PurePath))
    {s : FilterState}, s.isDegraded = true → (f.calls s cs).isDegraded = true
  | [], _, h => h
  | _ :: cs, _, h => calls_degraded cs (shouldIndex_degraded h)

theorem calls_healthy_or_degraded : ∀ (cs : List ((FilterStep → Option String) × PurePath))
    {s : FilterState}, f.Healthy s ∨ s.isDegraded = true →
      f.Healthy (f.calls s cs) ∨ (f.calls s cs).isDegraded = true
  | [], _, h => h
  | (raises, path) :: cs, _, h =>
    calls_healthy_or_degraded cs (shouldIndex_healthy_or_degraded raises path h)

end PathFilter

end ChunkHound
