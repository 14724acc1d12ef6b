import ChunkHound.ChunkDiff
import Mathlib

/-!
# Expanding a range to natural boundaries

`expand_to_natural_boundaries` looks backward for the start of a construct and forward for its end.
The forward scan of the languages with braces starts at the construct, and not at the end that was
asked for : it may stop at a brace before that end. The limit of 300 lines is counted from the
construct too. The range contains the one that was asked for exactly when neither happens
(`contains_iff`).
-/

namespace ChunkHound.BoundaryExpansion

/-! ## Chunks and lines -/

abbrev Text := List Char

/-- What is read of a chunk. The metadata may be missing, `None` or a dictionary with a kind. -/
structure Chunk where
  metadata : Option (Option (Option String))
  symbolType : Option String

def enableSmartBoundaries : Bool := true

def extraContextTokens : ℕ := 1000

def maxBoundaryExpansionLines : ℕ := 300

/-- The kinds of complete units. -/
def completeKinds : List String :=
  ["function", "method", "class", "interface", "struct", "enum", "program", "function_block",
    "action", "property"]

/-- `metadata.get("kind") or chunk.get("symbol_type", "")`. A `None` for metadata raises. -/
def chunkKind (chunk : Chunk) : Option String :=
  match chunk.metadata with
  | some none => none
  | some (some (some kind)) => if kind ≠ "" then some kind else some (chunk.symbolType.getD "")
  | _ => some (chunk.symbolType.getD "")

def pythonSuffixes : List Text := [".py".toList, ".pyw".toList]

def braceSuffixes : List Text :=
  [".c", ".cpp", ".cc", ".cxx", ".h", ".hpp", ".rs", ".go", ".java", ".js", ".ts", ".tsx", ".jsx",
    ".cs", ".swift", ".kt", ".scala"].map String.toList

/-- `s.endswith(suffixes)`. -/
def endsWith (s : Text) (suffixes : List Text) : Bool := suffixes.any fun suffix => suffix <:+ s

/-- `s.startswith(prefixes)`. -/
def startsWith (s : Text) (prefixes : List Text) : Bool := prefixes.any fun p => p <+: s

def lstrip (s : Text) : Text := s.dropWhile isSpace

def indentOf (line : Text) : ℕ := line.length - (lstrip line).length

/-- The opening braces of a line less its closing ones. -/
def braces (line : Text) : ℤ := (line.count '\x7b' : ℤ) - line.count '\x7d'

/-- `range(hi - 1, lo, -1)`. -/
def rangeDown (hi lo : ℕ) : List ℕ := (List.range' (lo + 1) (hi - (lo + 1))).reverse

/-! ## The backward scan -/

/-- The line starts a definition. -/
def startsDefinition (line : Text) : Bool :=
  startsWith (strip line) ["def ".toList, "class ".toList, "async def ".toList]

/-- An empty line before one that is not indented. -/
def isModuleBoundary (lines : List Text) (i : ℕ) : Bool :=
  let nextLine := if i + 1 < lines.length then lstrip (lines.getD (i + 1) []) else []
  strip (lines.getD i []) = [] ∧ 0 < i ∧ nextLine ≠ [] ∧ ¬ startsWith nextLine [[' '], ['\t']]

def pythonStart (lines : List Text) (startIdx : ℕ) : List ℕ → ℕ
  | [] => startIdx
  | i :: is =>
    if startsDefinition (lines.getD i []) then i
    else if isModuleBoundary lines i then startIdx
    else pythonStart lines startIdx is

/-- The line may be the signature of a construct whose brace is in line `i`. -/
def isSignature (lines : List Text) (i j : ℕ) : Bool :=
  let sigLine := strip (lines.getD j [])
  '(' ∈ sigLine ∧ (')' ∈ sigLine ∨ j < i)

/-- The signature of a construct whose brace is in a line. -/
def signatureOf (lines : List Text) (i : ℕ) : Option ℕ :=
  (rangeDown (i + 1) (i - 10)).find? (isSignature lines i)

/-- The depth counts the closing braces. -/
def braceStart (lines : List Text) (startIdx : ℕ) : ℤ → List ℕ → ℕ
  | _, [] => startIdx
  | depth, i :: is =>
    let line := lines.getD i []
    let depth := depth - braces line
    if 0 < depth ∧ '\x7b' ∈ line then
      match signatureOf lines i with
      | some j => if j ≠ startIdx then j else braceStart lines startIdx depth is
      | none => braceStart lines startIdx depth is
    else braceStart lines startIdx depth is

/-- The languages that are told apart. -/
inductive Language
  | python
  | brace
  | other
  deriving DecidableEq

def languageOf (lower : Text → Text) (filePath : Text) : Language :=
  if endsWith (lower filePath) pythonSuffixes then .python
  else if endsWith (lower filePath) braceSuffixes then .brace
  else .other

def expandedStart (language : Language) (lines : List Text) (startIdx : ℕ) : ℕ :=
  match language with
  | .python => pythonStart lines startIdx (rangeDown startIdx (startIdx - 200))
  | .brace => braceStart lines startIdx 0 (rangeDown (startIdx + 1) (startIdx - 200))
  | .other => startIdx

/-! ## The forward scan -/

/-- The first line from an index on that is not indented deeper. -/
def dedentLine (startIndent : ℕ) : ℕ → List Text → Option ℕ
  | _, [] => none
  | i, line :: rest =>
    if strip line ≠ [] ∧ indentOf line ≤ startIndent then some i
    else dedentLine startIndent (i + 1) rest

/-- The first line after the start in which the braces from the start on are closed. -/
def closingLine (start : ℕ) : ℤ → ℕ → List Text → Option ℕ
  | _, _, [] => none
  | depth, i, line :: rest =>
    if depth + braces line = 0 ∧ start < i ∧ '\x7d' ∈ line then some i
    else closingLine start (depth + braces line) (i + 1) rest

def expandedEnd (language : Language) (lines : List Text) (start endIdx : ℕ) : ℕ :=
  match language with
  | .python =>
    if start < lines.length then
      match dedentLine (indentOf (lines.getD start [])) (endIdx + 1)
        ((lines.take (endIdx + 200)).drop (endIdx + 1)) with
      | some i => i - 1
      | none => min (lines.length - 1) (endIdx + 50)
    else endIdx
  | .brace =>
    (closingLine start 0 start ((lines.take (endIdx + 200)).drop start)).getD endIdx
  | .other => endIdx

/-! ## The expansion -/

/-- The range, or `none` where the code raises. -/
def expandToNaturalBoundaries (lower : Text → Text) (lines : List Text) (startLine endLine : ℕ)
    (chunk : Chunk) (filePath : Text) : Option (ℕ × ℕ) :=
  if startLine < 1 ∨ endLine < startLine ∨ lines.length < endLine then some (0, 0)
  else if ¬ enableSmartBoundaries then
    some (max 1 (startLine - extraContextTokens / 20),
      min lines.length (endLine + extraContextTokens / 20))
  else
    match chunkKind chunk with
    | none => none
    | some kind =>
      if kind ∈ completeKinds then
        some (max 1 (startLine - 3), min lines.length (endLine + 3))
      else
        let language := languageOf lower filePath
        let startIdx := startLine - 1
        let endIdx := min (lines.length - 1) (endLine - 1)
        let start := expandedStart language lines startIdx
        let stop := expandedEnd language lines start endIdx
        -- in the source the difference is an integer, and a negative one is below the limit
        let stop := if maxBoundaryExpansionLines < stop - start then
          start + maxBoundaryExpansionLines else stop
        some (start + 1, stop + 1)

/-- A range of the file that contains the one that was asked for. -/
def Contains (startLine endLine length : ℕ) (result : Option (ℕ × ℕ)) : Prop :=
  ∃ s e, result = some (s, e) ∧ 1 ≤ s ∧ s ≤ startLine ∧ endLine ≤ e ∧ e ≤ length

/-! ## The start -/

theorem mem_rangeDown {hi lo i : ℕ} (h : i ∈ rangeDown hi lo) : lo < i ∧ i < hi := by
  unfold rangeDown at h
  rw [List.mem_reverse, List.mem_range'_1] at h
  omega

variable {lines : List Text}

theorem pythonStart_le {startIdx : ℕ} : ∀ {is : List ℕ},
    (∀ i ∈ is, i ≤ startIdx) → pythonStart lines startIdx is ≤ startIdx
  | [], _ => le_rfl
  | i :: is, h => by
    unfold pythonStart
    split
    · exact h i List.mem_cons_self
    · split
      · exact le_rfl
      · exact pythonStart_le fun i hi => h i (List.mem_cons_of_mem _ hi)

theorem le_of_signatureOf {i j : ℕ} (h : signatureOf lines i = some j) :
    j ≤ i :=
  Nat.le_of_lt_succ (mem_rangeDown (List.mem_of_find?_eq_some h)).2

theorem braceStart_le {startIdx : ℕ} : ∀ {is : List ℕ} {depth : ℤ},
    (∀ i ∈ is, i ≤ startIdx) → braceStart lines startIdx depth is ≤ startIdx
  | [], _, _ => le_rfl
  | i :: is, depth, h => by
    have hrest : ∀ depth, braceStart lines startIdx depth is ≤ startIdx := fun _ =>
      braceStart_le fun i hi => h i (List.mem_cons_of_mem _ hi)
    unfold braceStart
    simp only
    split
    · cases hsig : signatureOf lines i with
      | none => exact hrest _
      | some j =>
        simp only
        split
        · exact (le_of_signatureOf hsig).trans (h i List.mem_cons_self)
        · exact hrest _
    · exact hrest _

/-- The start is never after the one that was asked for. -/
theorem expandedStart_le (language : Language) (lines : List Text) (startIdx : ℕ) :
    expandedStart language lines startIdx ≤ startIdx := by
  cases language with
  | python => exact pythonStart_le fun i hi => (mem_rangeDown hi).2.le
  | brace => exact braceStart_le fun i hi => Nat.le_of_lt_succ (mem_rangeDown hi).2
  | other => exact le_rfl

/-! ## The start of the construct -/

/-- The greatest index between two others with a property. -/
def IsNearest (p : ℕ → Prop) (lo hi i : ℕ) : Prop := IsGreatest {k | lo < k ∧ k < hi ∧ p k} i

/-- The line is a definition or a boundary of the module. -/
def Bounds (lines : List Text) (i : ℕ) : Prop :=
  startsDefinition (lines.getD i []) = true ∨ isModuleBoundary lines i = true

/-- The line of the nearest definition, if no boundary of the module is nearer. Otherwise the line
that was asked for. -/
def IsPythonStart (lines : List Text) (startIdx lo hi start : ℕ) : Prop :=
  (IsNearest (Bounds lines) lo hi start ∧ startsDefinition (lines.getD start []) = true) ∨
    (start = startIdx ∧ ∀ i, IsNearest (Bounds lines) lo hi i →
      startsDefinition (lines.getD i []) = false)

/-- The opening braces of the lines from one index to another less the closing ones. -/
def bracesFrom (lines : List Text) (i startIdx : ℕ) : ℤ :=
  ((List.range' i (startIdx + 1 - i)).map fun k => braces (lines.getD k [])).sum

/-- From a line to the one that was asked for more braces are closed than opened, one is opened in
the line, and the nearest signature of at most ten lines is in line `j`. -/
structure Opens (lines : List Text) (startIdx i j : ℕ) : Prop where
  closed : bracesFrom lines i startIdx < 0
  brace : '\x7b' ∈ lines.getD i []
  signature : IsNearest (fun k => isSignature lines i k = true) (i - 10) (i + 1) j
  other : j ≠ startIdx

/-- The line opens a construct. -/
def Opening (lines : List Text) (startIdx i : ℕ) : Prop := ∃ j, Opens lines startIdx i j

/-- The signature of the nearest line that opens a construct, or the line that was asked for. -/
def IsBraceStart (lines : List Text) (startIdx lo hi start : ℕ) : Prop :=
  (∃ i, IsNearest (Opening lines startIdx) lo hi i ∧ Opens lines startIdx i start) ∨
    (start = startIdx ∧ ∀ i, ¬IsNearest (Opening lines startIdx) lo hi i)

/-- Where the construct around a line starts, within 200 lines. -/
def IsConstructStart (language : Language) (lines : List Text) (startIdx start : ℕ) : Prop :=
  match language with
  | .python => IsPythonStart lines startIdx (startIdx - 200) startIdx start
  | .brace => IsBraceStart lines startIdx (startIdx - 200) (startIdx + 1) start
  | .other => start = startIdx

section Nearest

variable {p : ℕ → Prop} {lo m i : ℕ}

theorem isNearest_of_pos (hlo : lo < m) (hm : p m) : IsNearest p lo (m + 1) i ↔ i = m := by
  have hgreatest : IsNearest p lo (m + 1) m := ⟨⟨hlo, Nat.lt_succ_self m, hm⟩,
    fun k hk => Nat.le_of_lt_succ hk.2.1⟩
  exact ⟨fun h => h.unique hgreatest, fun h => h ▸ hgreatest⟩

theorem isNearest_of_neg (hm : ¬p m) : IsNearest p lo (m + 1) i ↔ IsNearest p lo m i := by
  have hset : {k | lo < k ∧ k < m + 1 ∧ p k} = {k | lo < k ∧ k < m ∧ p k} := by
    refine Set.ext fun k => and_congr_right fun _ => ?_
    refine ⟨fun ⟨hlt, hk⟩ => ⟨?_, hk⟩, fun ⟨hlt, hk⟩ => ⟨Nat.lt_succ_of_lt hlt, hk⟩⟩
    exact lt_of_le_of_ne (Nat.le_of_lt_succ hlt) fun heq => hm (heq ▸ hk)
  unfold IsNearest
  rw [hset]

theorem not_isNearest {hi : ℕ} (h : hi ≤ lo + 1) : ¬IsNearest p lo hi i := fun hi' => by
  have hlo := hi'.1.1
  have hhi := hi'.1.2.1
  omega

theorem rangeDown_succ (h : lo < m) : rangeDown (m + 1) lo = m :: rangeDown m lo := by
  have hlen : m + 1 - (lo + 1) = (m - (lo + 1)) + 1 := by omega
  have hlast : lo + 1 + (m - (lo + 1)) = m := by omega
  unfold rangeDown
  rw [hlen, List.range'_1_concat, List.reverse_append, hlast, List.reverse_singleton,
    List.singleton_append]

theorem rangeDown_of_le {hi : ℕ} (h : hi ≤ lo + 1) : rangeDown hi lo = [] := by
  unfold rangeDown
  rw [Nat.sub_eq_zero_of_le h]
  rfl

/-- A search downwards finds the nearest index. -/
theorem find?_rangeDown {q : ℕ → Bool} : ∀ {hi : ℕ},
    (rangeDown hi lo).find? q = some i ↔ IsNearest (q · = true) lo hi i
  | 0 => by
    rw [rangeDown_of_le (Nat.zero_le _)]
    exact iff_of_false nofun (not_isNearest (Nat.zero_le _))
  | m + 1 => by
    by_cases hlo : lo < m
    · rw [rangeDown_succ hlo]
      cases hq : q m with
      | true => rw [List.find?_cons_of_pos hq, isNearest_of_pos hlo hq, Option.some_inj, eq_comm]
      | false =>
        have hneg : ¬q m = true := by simp [hq]
        rw [List.find?_cons_of_neg hneg, isNearest_of_neg hneg, find?_rangeDown]
    · have hle : m + 1 ≤ lo + 1 := by omega
      rw [rangeDown_of_le hle]
      exact iff_of_false nofun (not_isNearest hle)

end Nearest

section Start

variable {lines : List Text} {startIdx lo m j start : ℕ}

theorem pythonStart_iff : ∀ hi : ℕ,
    start = pythonStart lines startIdx (rangeDown hi lo) ↔
      IsPythonStart lines startIdx lo hi start
  | 0 => by
    have hnone := fun {p : ℕ → Prop} {i : ℕ} => @not_isNearest p lo i 0 (Nat.zero_le _)
    rw [rangeDown_of_le (Nat.zero_le _)]
    simp [pythonStart, IsPythonStart, hnone]
  | m + 1 => by
    by_cases hlo : lo < m
    · have ih := pythonStart_iff m
      rw [rangeDown_succ hlo, pythonStart]
      unfold IsPythonStart at ih ⊢
      by_cases hdef : startsDefinition (lines.getD m []) = true
      · have hm : Bounds lines m := Or.inl hdef
        simp only [isNearest_of_pos hlo hm, if_pos hdef, forall_eq]
        refine ⟨fun h => Or.inl ⟨h, h ▸ hdef⟩, fun h => h.elim And.left fun h => ?_⟩
        exact nomatch hdef.symm.trans h.2
      · by_cases hbound : isModuleBoundary lines m = true
        · have hm : Bounds lines m := Or.inr hbound
          simp only [isNearest_of_pos hlo hm, if_neg hdef, if_pos hbound, forall_eq]
          refine ⟨fun h => Or.inr ⟨h, Bool.eq_false_iff.2 hdef⟩, fun h => h.elim (fun h => ?_)
            And.left⟩
          exact absurd (h.1 ▸ h.2) hdef
        · have hneg : ¬Bounds lines m := not_or.2 ⟨hdef, hbound⟩
          simpa only [isNearest_of_neg hneg, if_neg hdef, if_neg hbound] using ih
    · have hle : m + 1 ≤ lo + 1 := by omega
      have hnone := fun {p : ℕ → Prop} {i : ℕ} => @not_isNearest p lo i (m + 1) hle
      rw [rangeDown_of_le hle]
      simp [pythonStart, IsPythonStart, hnone]

theorem bracesFrom_eq (h : m ≤ startIdx) :
    bracesFrom lines m startIdx = braces (lines.getD m []) + bracesFrom lines (m + 1) startIdx := by
  have hlen : startIdx + 1 - m = (startIdx + 1 - (m + 1)) + 1 := by omega
  unfold bracesFrom
  rw [hlen, List.range'_succ, List.map_cons, List.sum_cons]

theorem opens_iff : Opens lines startIdx m j ↔
    (0 < -bracesFrom lines m startIdx ∧ '\x7b' ∈ lines.getD m []) ∧
      signatureOf lines m = some j ∧ j ≠ startIdx := by
  have hsignature : signatureOf lines m = some j ↔
      IsNearest (fun k => isSignature lines m k = true) (m - 10) (m + 1) j := find?_rangeDown
  rw [hsignature, neg_pos]
  exact ⟨fun h => ⟨⟨h.closed, h.brace⟩, h.signature, h.other⟩,
    fun ⟨⟨hclosed, hbrace⟩, hsig, hother⟩ => ⟨hclosed, hbrace, hsig, hother⟩⟩

/-- The depth of the scan is what the lines behind it close. -/
theorem braceStart_iff : ∀ hi : ℕ, hi ≤ startIdx + 1 →
    (start = braceStart lines startIdx (-bracesFrom lines hi startIdx) (rangeDown hi lo) ↔
      IsBraceStart lines startIdx lo hi start)
  | 0, _ => by
    have hnone := fun {p : ℕ → Prop} {i : ℕ} => @not_isNearest p lo i 0 (Nat.zero_le _)
    rw [rangeDown_of_le (Nat.zero_le _)]
    simp [braceStart, IsBraceStart, hnone]
  | m + 1, hhi => by
    by_cases hlo : lo < m
    · have ih := braceStart_iff m (Nat.le_of_succ_le hhi)
      have hdepth : -bracesFrom lines (m + 1) startIdx - braces (lines.getD m []) =
          -bracesFrom lines m startIdx := by
        rw [bracesFrom_eq (Nat.le_of_succ_le_succ hhi)]
        omega
      have hskip (hneg : ¬Opening lines startIdx m) :
          start = braceStart lines startIdx (-bracesFrom lines m startIdx) (rangeDown m lo) ↔
            IsBraceStart lines startIdx lo (m + 1) start := by
        rw [ih]
        simp only [IsBraceStart, isNearest_of_neg hneg]
      rw [rangeDown_succ hlo, braceStart]
      simp only [hdepth]
      split
      · next hopen =>
        cases hsig : signatureOf lines m with
        | none =>
          exact hskip fun ⟨k, hk⟩ => nomatch hsig.symm.trans (opens_iff.1 hk).2.1
        | some j =>
          simp only
          by_cases hj : j = startIdx
          · rw [if_neg (not_not.2 hj)]
            refine hskip fun ⟨k, hk⟩ => ?_
            obtain ⟨-, hk, hother⟩ := opens_iff.1 hk
            exact hother ((Option.some.inj (hk.symm.trans hsig)).trans hj)
          · have hopens (k : ℕ) : Opens lines startIdx m k ↔ k = j := by
              rw [opens_iff, hsig, Option.some_inj]
              exact ⟨fun h => h.2.1.symm, fun h => ⟨hopen, h.symm, h ▸ hj⟩⟩
            have hm : Opening lines startIdx m := ⟨j, (hopens j).2 rfl⟩
            rw [if_pos hj]
            simp [IsBraceStart, isNearest_of_pos hlo hm, hopens]
      · next hclosed =>
        exact hskip fun ⟨k, hk⟩ => hclosed (opens_iff.1 hk).1
    · have hle : m + 1 ≤ lo + 1 := by omega
      have hnone := fun {p : ℕ → Prop} {i : ℕ} => @not_isNearest p lo i (m + 1) hle
      rw [rangeDown_of_le hle]
      simp [braceStart, IsBraceStart, hnone]

end Start

/-- The scan backward finds the start of the construct. -/
theorem isConstructStart_iff {language : Language} {startIdx start : ℕ} :
    IsConstructStart language lines startIdx start ↔
      start = expandedStart language lines startIdx := by
  cases language with
  | python => exact (pythonStart_iff _).symm
  | brace =>
    have hiff := @braceStart_iff lines startIdx (startIdx - 200) start (startIdx + 1) le_rfl
    have hzero : -bracesFrom lines (startIdx + 1) startIdx = 0 := by simp [bracesFrom]
    rw [hzero] at hiff
    exact hiff.symm
  | other => exact Iff.rfl

/-! ## The end -/

theorem dedentLine_bounds {startIndent : ℕ} : ∀ {lines : List Text} {i k : ℕ},
    dedentLine startIndent i lines = some k → i ≤ k ∧ k < i + lines.length
  | [], _, _, h => nomatch h
  | line :: rest, i, k, h => by
    unfold dedentLine at h
    rw [List.length_cons]
    split at h
    · obtain rfl := Option.some.inj h
      omega
    · have ih := dedentLine_bounds h
      omega

theorem closingLine_bounds {start : ℕ} : ∀ {lines : List Text} {depth : ℤ} {i k : ℕ},
    closingLine start depth i lines = some k → i ≤ k ∧ k < i + lines.length
  | [], _, _, _, h => nomatch h
  | line :: rest, depth, i, k, h => by
    unfold closingLine at h
    rw [List.length_cons]
    split at h
    · obtain rfl := Option.some.inj h
      omega
    · have ih := closingLine_bounds h
      omega

/-- The braces that some lines leave open. -/
def balance (lines : List Text) : ℤ := (lines.map braces).sum

theorem balance_cons (line : Text) (lines : List Text) :
    balance (line :: lines) = braces line + balance lines := by
  unfold balance
  rw [List.map_cons, List.sum_cons]

/-- The scan closes at a line or later, when the braces are not closed before it. -/
theorem le_closingLine_iff (start endIdx : ℕ) : ∀ (lines : List Text) (depth : ℤ) (i : ℕ),
    (∀ k, closingLine start depth i lines = some k → endIdx ≤ k) ↔
      ∀ j line, lines[j]? = some line → start < i + j → i + j < endIdx → '\x7d' ∈ line →
        depth + balance (lines.take (j + 1)) ≠ 0
  | [], _, _ => by simp [closingLine]
  | line :: rest, depth, i => by
    have ih := le_closingLine_iff start endIdx rest (depth + braces line) (i + 1)
    unfold closingLine
    constructor
    · intro h j line' hline hstart hend hmem
      cases j with
      | zero =>
        obtain rfl : line = line' := Option.some.inj hline
        intro hzero
        have hzero' : depth + braces line = 0 := by simpa [balance] using hzero
        have hle := h i (if_pos ⟨hzero', hstart, hmem⟩)
        omega
      | succ j =>
        by_cases hclosed : depth + braces line = 0 ∧ start < i ∧ '\x7d' ∈ line
        · have hle := h i (if_pos hclosed)
          omega
        · simp only [if_neg hclosed] at h
          rw [List.take_succ_cons, balance_cons, ← Int.add_assoc]
          exact ih.1 h j line' hline (by omega) (by omega) hmem
    · intro h k hk
      split at hk
      · next hclosed =>
        obtain rfl := Option.some.inj hk
        by_contra hlt
        exact h 0 line rfl hclosed.2.1 (not_le.1 hlt) hclosed.2.2
          (by simpa [balance] using hclosed.1)
      · refine ih.2 (fun j line' hline hstart hend hmem => ?_) k hk
        have hne := h (j + 1) line' hline (by omega) (by omega) hmem
        rwa [List.take_succ_cons, balance_cons, ← Int.add_assoc] at hne

/-- The braces that are opened from the start on are not closed before a line. -/
def StaysOpen (lines : List Text) (start endIdx : ℕ) : Prop :=
  ∀ j line, lines[start + j]? = some line → 0 < j → start + j < endIdx → '\x7d' ∈ line →
    balance ((lines.drop start).take (j + 1)) ≠ 0

variable {start endIdx : ℕ}

theorem le_expandedEnd_python (hend : endIdx < lines.length) :
    endIdx ≤ expandedEnd .python lines start endIdx ∧
      expandedEnd .python lines start endIdx < lines.length := by
  unfold expandedEnd
  simp only
  split
  · cases hk : dedentLine (indentOf (lines.getD start [])) (endIdx + 1)
        ((lines.take (endIdx + 200)).drop (endIdx + 1)) with
    | none =>
      simp only
      omega
    | some k =>
      have hbounds := dedentLine_bounds hk
      rw [List.length_drop, List.length_take] at hbounds
      simp only
      omega
  · exact ⟨le_rfl, hend⟩

theorem le_expandedEnd_brace_iff :
    endIdx ≤ expandedEnd .brace lines start endIdx ↔ StaysOpen lines start endIdx := by
  have hscan := le_closingLine_iff start endIdx ((lines.take (endIdx + 200)).drop start) 0 start
  have hle : endIdx ≤ expandedEnd .brace lines start endIdx ↔
      ∀ k, closingLine start 0 start ((lines.take (endIdx + 200)).drop start) = some k →
        endIdx ≤ k := by
    unfold expandedEnd
    cases closingLine start 0 start ((lines.take (endIdx + 200)).drop start) <;> simp
  rw [hle, hscan]
  -- before the end the scan sees all lines
  have hline : ∀ j, start + j < endIdx →
      ((lines.take (endIdx + 200)).drop start)[j]? = lines[start + j]? := fun j hj => by
    rw [List.getElem?_drop, List.getElem?_take_of_lt (by omega)]
  have htake : ∀ j, start + j < endIdx →
      ((lines.take (endIdx + 200)).drop start).take (j + 1) = (lines.drop start).take (j + 1) :=
    fun j hj => by
      rw [List.drop_take, List.take_take, min_eq_left (by omega)]
  constructor
  · intro h j line hj hpos hend hmem
    have hne := h j line (by rw [hline j hend, hj]) (by omega) hend hmem
    rwa [htake j hend, Int.zero_add] at hne
  · intro h j line hj hpos hend hmem
    rw [htake j hend, Int.zero_add]
    exact h j line (by rw [← hline j hend, hj]) (by omega) hend hmem

theorem expandedEnd_brace_lt (hstart : start ≤ endIdx) (hend : endIdx < lines.length) :
    expandedEnd .brace lines start endIdx < lines.length := by
  unfold expandedEnd
  cases hk : closingLine start 0 start ((lines.take (endIdx + 200)).drop start) with
  | none => simpa using hend
  | some k =>
    have hbounds := closingLine_bounds hk
    rw [List.length_drop, List.length_take] at hbounds
    simp only [Option.getD_some]
    omega

/-! ## The range -/

/-- The scan forward reaches the end that was asked for, and the limit is not before it. -/
def ReachesEnd (language : Language) (lines : List Text) (start endIdx : ℕ) : Prop :=
  (language = .brace → StaysOpen lines start endIdx) ∧
    endIdx ≤ start + maxBoundaryExpansionLines

/-- The metadata does not raise, and a chunk that is not a complete unit is scanned to its end from
where the construct starts. -/
def IsScanned (lower : Text → Text) (lines : List Text) (startLine endLine : ℕ) (chunk : Chunk)
    (filePath : Text) : Prop :=
  ∃ kind, chunkKind chunk = some kind ∧ (kind ∈ completeKinds ∨
    ∃ start, IsConstructStart (languageOf lower filePath) lines (startLine - 1) start ∧
      ReachesEnd (languageOf lower filePath) lines start (endLine - 1))

theorem expandedEnd_lt (language : Language)
    (hstart : start ≤ endIdx) (hend : endIdx < lines.length) :
    expandedEnd language lines start endIdx < lines.length := by
  cases language with
  | python => exact (le_expandedEnd_python hend).2
  | brace => exact expandedEnd_brace_lt hstart hend
  | other => exact hend

theorem le_expandedEnd_iff (language : Language) (start : ℕ) {endIdx : ℕ}
    (hend : endIdx < lines.length) :
    endIdx ≤ expandedEnd language lines start endIdx ↔
      (language = .brace → StaysOpen lines start endIdx) := by
  cases language with
  | python => exact iff_of_true (le_expandedEnd_python hend).1 nofun
  | brace => exact le_expandedEnd_brace_iff.trans ⟨fun h _ => h, fun h => h rfl⟩
  | other => exact iff_of_true le_rfl nofun

/-- The range contains the one that was asked for exactly when the scan forward does not close
before its end and the limit is not before it. -/
theorem contains_iff (lower : Text → Text) {lines : List Text} {startLine endLine : ℕ}
    (chunk : Chunk) (filePath : Text) (hone : 1 ≤ startLine) (hle : startLine ≤ endLine)
    (hlength : endLine ≤ lines.length) :
    Contains startLine endLine lines.length
        (expandToNaturalBoundaries lower lines startLine endLine chunk filePath) ↔
      IsScanned lower lines startLine endLine chunk filePath := by
  have hvalid : ¬ (startLine < 1 ∨ endLine < startLine ∨ lines.length < endLine) := by omega
  have hidx : min (lines.length - 1) (endLine - 1) = endLine - 1 := by omega
  unfold expandToNaturalBoundaries IsScanned
  rw [if_neg hvalid, if_neg (by decide)]
  cases chunkKind chunk with
  | none => simp [Contains]
  | some kind =>
    simp only [Option.some.injEq, exists_eq_left', hidx, isConstructStart_iff, exists_eq_left]
    by_cases hkind : kind ∈ completeKinds
    · rw [if_pos hkind]
      exact iff_of_true ⟨_, _, rfl, by omega⟩ (Or.inl hkind)
    · have hstart := expandedStart_le (languageOf lower filePath) lines (startLine - 1)
      have hbefore :
          expandedStart (languageOf lower filePath) lines (startLine - 1) ≤ endLine - 1 := by
        omega
      have hend : endLine - 1 < lines.length := by omega
      have hreach := le_expandedEnd_iff (languageOf lower filePath)
        (expandedStart (languageOf lower filePath) lines (startLine - 1)) hend
      have hlt := expandedEnd_lt (languageOf lower filePath) hbefore hend
      rw [if_neg hkind, or_iff_right hkind, ReachesEnd, ← hreach]
      generalize expandedStart (languageOf lower filePath) lines (startLine - 1) = start at *
      generalize expandedEnd (languageOf lower filePath) lines start (endLine - 1) = stop at *
      constructor
      · rintro ⟨s, e, heq, -, -, hend, -⟩
        obtain ⟨rfl, rfl⟩ := Prod.mk.inj (Option.some.inj heq)
        split at hend <;> omega
      · rintro ⟨hend, hlimit⟩
        refine ⟨_, _, rfl, ?_⟩
        split <;> omega

/-- Three functions, each on its line. -/
def threeFunctions : List Text :=
  ["int f() \x7b return 1; \x7d", "int g() \x7b return 2; \x7d",
    "int h() \x7b return 3; \x7d"].map String.toList

theorem contains_complete_unit : Contains 2 2 3
    (expandToNaturalBoundaries id threeFunctions 2 2 ⟨some (some (some "function")), none⟩
      "f.c".toList) :=
  (contains_iff id _ _ (by decide) (by decide) (by decide)).2 ⟨"function", rfl, Or.inl (by decide)⟩

/-- The braces of the first two functions are closed on the second line. -/
theorem not_contains_threeFunctions : ¬ Contains 1 3 3
    (expandToNaturalBoundaries id threeFunctions 1 3 ⟨none, none⟩ "f.c".toList) := by
  have hresult : expandToNaturalBoundaries id threeFunctions 1 3 ⟨none, none⟩ "f.c".toList =
      some (1, 2) := by
    decide
  rw [hresult]
  rintro ⟨s, e, heq, -, -, hend, -⟩
  obtain ⟨rfl, rfl⟩ := Prod.mk.inj (Option.some.inj heq)
  exact absurd hend (by decide)

end ChunkHound.BoundaryExpansion
