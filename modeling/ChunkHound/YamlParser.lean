import ChunkHound.RapidYaml

/-!
# The YAML parser over many calls

`RapidYamlParser.parse_content`, on the one instance that the factory keeps for a process. Between
calls the instance keeps its counters, the tree of the native library, the parser it falls back on,
and a list of paths that are not to be tried again. Of these only the list shows in an answer
(`answers_fresh`).
-/

namespace ChunkHound.Yaml

open Cast (Text)

/-- The parser that is fallen back on. Its calls change counters only, which no answer shows. -/
structure Fallback (χ : Type) where
  State : Type
  initial : State
  parse : State → Text → Option Text → Option ℤ → Except YamlError (List χ) × State
  stateless : ∀ φ φ' content path fileId,
    (parse φ content path fileId).1 = (parse φ' content path fileId).1

/-- A parser that was made. It is not enabled where the library is missing or was opted out of. -/
structure Parser (χ : Type) where
  settings : Settings
  fallback : Fallback χ
  enabled : Bool

structure Counters where
  sanitized : ℕ := 0
  preSkip : ℕ := 0
  complexSkip : ℕ := 0
  rymlOk : ℕ := 0
  rymlFail : ℕ := 0
  fallbackTs : ℕ := 0
  rewriteCounts : List (String × ℕ) := []
  preSkipReasons : List (String × ℕ) := []

structure ParserState {χ : Type} (P : Parser χ) where
  denylist : List Text
  counters : Counters
  tree : P.settings.ryml.Tree
  fallback : P.fallback.State

/-- The arguments of a call, with the path as its string. -/
structure Call where
  content : Text
  path : Option Text
  fileId : Option ℤ
  deriving DecidableEq

/-- `Counter.update`. -/
def countAll (kinds : List String) (counts : List (String × ℕ)) : List (String × ℕ) :=
  kinds.foldl (fun counts kind => OrderedDict.alter (fun n => n.getD 0 + 1) kind counts) counts

/-- `_COMPLEX_KEY_RE.match`. -/
def isComplexKey (line : Text) : Bool :=
  match line.dropWhile isSpace with
  | '?' :: rest => ((rest.dropWhile isSpace).head?).all fun c => c = '\x7b' || c = '['
  | _ => false

/-- `_has_complex_keys`. -/
def hasComplexKeys (content : Text) : Bool := (splitlines content).any isComplexKey

variable {χ : Type} {P : Parser χ}

namespace Counters

/-- What a sanitized text adds. -/
def addSanitized (n : Counters) (sanitized : SanitizedYaml) : Counters :=
  if sanitized.rewrites = [] then n
  else
    { n with
      sanitized := n.sanitized + 1
      rewriteCounts := countAll (sanitized.rewrites.map (·.kind)) n.rewriteCounts }

/-- What a text that is not for the library adds. -/
def addPreSkip (n : Counters) (sanitized : SanitizedYaml) : Counters :=
  { n with
    preSkip := n.preSkip + 1
    preSkipReasons := countAll [sanitized.preSkipReason.getD "unknown"] n.preSkipReasons
    fallbackTs := n.fallbackTs + 1 }

end Counters

namespace ParserState

/-- `__init__`. -/
def start (P : Parser χ) : ParserState P := ⟨[], {}, P.settings.ryml.newTree, P.fallback.initial⟩

def deny (st : ParserState P) (path : Option Text) : ParserState P :=
  { st with denylist := path.toList ++ st.denylist }

end ParserState

/-- The answer to a call, and the parser after it. -/
abbrev Answer (P : Parser χ) :=
  Except YamlError (List (YamlChunk ⊕ χ)) × ParserState P

/-- The fallback on the content, with its errors. -/
def callFallback (st : ParserState P) (call : Call) : Answer P :=
  let (answer, fallback) := P.fallback.parse st.fallback call.content call.path call.fileId
  (answer.map (·.map Sum.inr), { st with fallback := fallback })

/-- The fallback, where an error is no chunks. -/
def lastParse (st : ParserState P) (call : Call) : Answer P :=
  match callFallback st call with
  | (.ok chunks, st) => (.ok chunks, st)
  | (.error _, st) => (.ok [], st)

/-- The native parser on the sanitized text. Where it raises, the path is not tried again. -/
def callRyml (st : ParserState P) (text : Text) (call : Call) : Answer P :=
  match buildChunks P.settings text call.path (call.fileId.getD 0) st.tree with
  | (.ok chunks, tree) =>
    (.ok (chunks.map Sum.inl),
      { st with tree := tree, counters := { st.counters with rymlOk := st.counters.rymlOk + 1 } })
  | (.error _, tree) =>
    (.ok [],
      { st with
        tree := tree
        counters := { st.counters with
          rymlFail := st.counters.rymlFail + 1, fallbackTs := st.counters.fallbackTs + 1 } }.deny
        call.path)

/-- `parse_content`. -/
def parseContent (st : ParserState P) (call : Call) : Answer P :=
  if call.path.any (· ∈ st.denylist) then
    (.ok [], { st with counters := { st.counters with fallbackTs := st.counters.fallbackTs + 1 } })
  else if !P.enabled then callFallback st call
  else
    let sanitized := sanitizeHelmTemplates call.content
    let counters := st.counters.addSanitized sanitized
    if sanitized.preSkip then
      lastParse { st with counters := counters.addPreSkip sanitized } call
    else if hasComplexKeys sanitized.text then
      (.ok [], { st with counters := { counters with
        complexSkip := counters.complexSkip + 1, fallbackTs := counters.fallbackTs + 1 } })
    else if strip sanitized.text = [] then (.ok [], { st with counters := counters })
    else callRyml { st with counters := counters } sanitized.text call

/-- The parser after some calls. -/
def afterCalls (P : Parser χ) (calls : List Call) : ParserState P :=
  calls.foldl (fun st call => (parseContent st call).2) (.start P)

/-- The answer of a parser just made. -/
def freshAnswer (P : Parser χ) (call : Call) : Except YamlError (List (YamlChunk ⊕ χ)) :=
  (parseContent (.start P) call).1

/-- The content reaches the native parser, which raises. -/
def RymlRaises (P : Parser χ) (call : Call) : Prop :=
  let sanitized := sanitizeHelmTemplates call.content
  P.enabled = true ∧ sanitized.preSkip = false ∧ hasComplexKeys sanitized.text = false ∧
    strip sanitized.text ≠ [] ∧
    ∃ e, (buildChunks P.settings sanitized.text call.path (call.fileId.getD 0)
      P.settings.ryml.newTree).1 = .error e

/-! ## One call -/

/-- The native tree is cleared first, so what it held does not show. -/
theorem buildChunks_tree (s : Settings) (content : Text) (filePath : Option Text) (fileId : ℤ)
    (t t' : s.ryml.Tree) :
    buildChunks s content filePath fileId t = buildChunks s content filePath fileId t' := by
  rw [buildChunks, buildChunks, s.ryml.deterministic content t t']

theorem callFallback_fst (st st' : ParserState P) (call : Call) :
    (callFallback st call).1 = (callFallback st' call).1 := by
  have h := P.fallback.stateless st.fallback st'.fallback call.content call.path call.fileId
  exact congrArg (Except.map (List.map Sum.inr)) h

theorem lastParse_fst (st st' : ParserState P) (call : Call) :
    (lastParse st call).1 = (lastParse st' call).1 := by
  have h := callFallback_fst st st' call
  unfold lastParse
  cases hst : callFallback st call with
  | mk answer s =>
    cases hst' : callFallback st' call with
    | mk answer' s' =>
      rw [hst, hst'] at h
      obtain rfl : answer = answer' := h
      cases answer <;> rfl

theorem callRyml_fst (st st' : ParserState P) (text : Text) (call : Call) :
    (callRyml st text call).1 = (callRyml st' text call).1 := by
  unfold callRyml
  rw [buildChunks_tree P.settings text call.path (call.fileId.getD 0) st.tree st'.tree]
  cases buildChunks P.settings text call.path (call.fileId.getD 0) st'.tree with
  | mk answer tree => cases answer <;> rfl

/-- The answer to a call whose path is not denied is that of a parser just made. -/
theorem parseContent_fst (st : ParserState P) (call : Call) :
    (parseContent st call).1 =
      if call.path.any (· ∈ st.denylist) then .ok [] else freshAnswer P call := by
  have hfresh : call.path.any (· ∈ (ParserState.start P).denylist) = false := by
    cases call.path <;> rfl
  unfold freshAnswer parseContent
  rw [hfresh]
  split
  · rfl
  · rw [if_neg Bool.false_ne_true]
    split
    · exact callFallback_fst _ _ call
    · dsimp only
      split
      · exact lastParse_fst _ _ call
      · split
        · rfl
        · split
          · rfl
          · exact callRyml_fst _ _ _ call

theorem denylist_callFallback (st : ParserState P) (call : Call) :
    (callFallback st call).2.denylist = st.denylist := rfl

theorem denylist_lastParse (st : ParserState P) (call : Call) :
    (lastParse st call).2.denylist = st.denylist := by
  unfold lastParse
  have h := denylist_callFallback st call
  cases hst : callFallback st call with
  | mk answer s =>
    rw [hst] at h
    cases answer <;> exact h

variable {st : ParserState P}

/-- The native parser denies the path exactly where it raises. -/
theorem mem_denylist_callRyml {text p : Text} {call : Call} :
    p ∈ (callRyml st text call).2.denylist ↔
      p ∈ st.denylist ∨ call.path = some p ∧
        ∃ e, (buildChunks P.settings text call.path (call.fileId.getD 0)
          P.settings.ryml.newTree).1 = .error e := by
  unfold callRyml
  rw [buildChunks_tree P.settings text call.path (call.fileId.getD 0) P.settings.ryml.newTree
    st.tree]
  cases buildChunks P.settings text call.path (call.fileId.getD 0) st.tree with
  | mk answer tree =>
    cases answer with
    | ok chunks => simp
    | error e => simp [ParserState.deny, or_comm]

/-- A call denies its path exactly where the native parser raises on it. -/
theorem mem_denylist_parseContent {call : Call} {p : Text} :
    p ∈ (parseContent st call).2.denylist ↔
      p ∈ st.denylist ∨ call.path = some p ∧ RymlRaises P call := by
  unfold parseContent RymlRaises
  split
  · rename_i hdenied
    refine ⟨Or.inl, fun h => h.elim id ?_⟩
    rintro ⟨hpath, -⟩
    simpa [hpath] using hdenied
  · split
    · rename_i henabled
      rw [denylist_callFallback]
      exact ⟨Or.inl, fun h => h.elim id fun h => absurd h.2.1 (by simpa using henabled)⟩
    · rename_i henabled
      dsimp only
      split
      · rename_i hskip
        rw [denylist_lastParse]
        exact ⟨Or.inl, fun h => h.elim id fun h => absurd h.2.2.1 (by simp [hskip])⟩
      · rename_i hskip
        split
        · rename_i hcomplex
          exact ⟨Or.inl, fun h => h.elim id fun h => absurd h.2.2.2.1 (by simp [hcomplex])⟩
        · rename_i hcomplex
          split
          · rename_i hblank
            exact ⟨Or.inl, fun h => h.elim id fun h => absurd hblank h.2.2.2.2.1⟩
          · rename_i hblank
            rw [mem_denylist_callRyml]
            refine or_congr_right (and_congr_right fun _ => ⟨fun h => ?_, fun h => h.2.2.2.2⟩)
            exact ⟨by simpa using henabled, by simpa using hskip, by simpa using hcomplex,
              hblank, h⟩

/-! ## Many calls -/

theorem afterCalls_concat (P : Parser χ) (calls : List Call) (call : Call) :
    afterCalls P (calls ++ [call]) = (parseContent (afterCalls P calls) call).2 := by
  rw [afterCalls, List.foldl_append]
  rfl

/-- The paths that are denied after some calls. -/
theorem mem_denylist_afterCalls {calls : List Call} {p : Text} :
    p ∈ (afterCalls P calls).denylist ↔ ∃ c ∈ calls, c.path = some p ∧ RymlRaises P c := by
  induction calls using List.reverseRecOn with
  | nil => exact ⟨fun h => absurd h List.not_mem_nil, fun ⟨_, h, _⟩ => absurd h List.not_mem_nil⟩
  | append_singleton calls call ih =>
    rw [afterCalls_concat, mem_denylist_parseContent, ih]
    simp only [List.mem_append, List.mem_singleton]
    constructor
    · rintro (⟨c, hc, h⟩ | h)
      · exact ⟨c, Or.inl hc, h⟩
      · exact ⟨call, Or.inr rfl, h⟩
    · rintro ⟨c, hc | rfl, h⟩
      · exact Or.inl ⟨c, hc, h⟩
      · exact Or.inr h

/-- After any calls a parser answers as one just made, unless the native parser raised in an earlier
call with the same path. Then it answers with no chunks. -/
theorem answers_fresh (P : Parser χ) (calls : List Call) (call : Call) :
    ((¬∃ c ∈ calls, ∃ p, c.path = some p ∧ call.path = some p ∧ RymlRaises P c) →
      (parseContent (afterCalls P calls) call).1 = freshAnswer P call) ∧
    ((∃ c ∈ calls, ∃ p, c.path = some p ∧ call.path = some p ∧ RymlRaises P c) →
      (parseContent (afterCalls P calls) call).1 = .ok []) := by
  have hdenied : call.path.any (· ∈ (afterCalls P calls).denylist) = true ↔
      ∃ c ∈ calls, ∃ p, c.path = some p ∧ call.path = some p ∧ RymlRaises P c := by
    cases hpath : call.path with
    | none => simp
    | some p => simp [mem_denylist_afterCalls]
  rw [parseContent_fst, ← hdenied]
  exact ⟨fun h => if_neg h, fun h => if_pos h⟩

/-- A library that does not parse an open bracket, and no parser to fall back on. -/
def oneKeyParser : Parser Empty where
  settings := oneKeySettings "[".toList ['k'] ['v'] "k: v\n".toList
  fallback :=
    { State := Unit, initial := (), parse := fun _ _ _ _ => (.ok [], ()),
      stateless := fun _ _ _ _ _ => rfl }
  enabled := true

/-- A file that was broken once is not parsed again. -/
theorem broken_once :
    let broken : Call := ⟨"[".toList, some "a.yaml".toList, none⟩
    let fixed : Call := ⟨"k: v".toList, some "a.yaml".toList, none⟩
    (parseContent (afterCalls oneKeyParser [broken]) fixed).1 ≠ freshAnswer oneKeyParser fixed := by
  decide +kernel

end ChunkHound.Yaml
