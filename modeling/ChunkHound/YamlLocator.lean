import ChunkHound.YamlSanitizer

/-!
# Where a YAML node stands

`_LineLocator` of `rapid_yaml_parser.py`. The parsed tree has no lines, so the lines of a node are
searched by the text it is emitted as : by its first three lines, below the line of its parent, or
by its first line alone. A node is found exactly where a line of the text begins with its first
line, or with its key for an inline array (`search_eq_none`). Where every search fails the answer
is a counter, which has nothing to do with the node (`locate_cases`).
-/

namespace ChunkHound.Yaml

open Cast (Text)
open GitDiff (isLineBreak splitLines)

/-- A line without its end. -/
def withoutBreak (line : Text) : Text :=
  if ['\r', '\n'] <:+ line then line.dropLast.dropLast
  else if line.getLast?.any isLineBreak then line.dropLast
  else line

/-- `str.splitlines`. -/
def splitlines (content : Text) : List Text := (splitLines content).map withoutBreak

/-- The node types that make a chunk. -/
inductive NodeType
  | keyVal | keyMap | keySeq
  deriving DecidableEq, Repr

/-- The lines that are searched. -/
structure Lines where
  lines : List Text
  deriving DecidableEq

/-- What the searches change. -/
structure LocatorState where
  depthPositions : List ℕ
  fallbackLine : ℕ
  deriving DecidableEq, Repr

/-- `_LineLocator.__init__`. -/
def LocatorState.start : LocatorState := ⟨[0], 0⟩

def LocatorState.truncate (st : LocatorState) (depth : ℕ) : LocatorState :=
  if depth + 1 < st.depthPositions.length then
    { st with depthPositions := st.depthPositions.take (depth + 1) }
  else st

def indentLevel (line : Text) : ℕ := (line.takeWhile isIndent).length

/-- `_extract_context_signature`, of three lines. -/
def contextSignature (text : Text) : List Text :=
  (((splitlines text).map strip).filter (· ≠ [])).take 3

/-- The key in front of an inline array. -/
def arrayKey (target : Text) : Text := strip (target.takeWhile (· ≠ '['))

namespace Lines

variable (ls : Lines)

def stripped : List Text := ls.lines.map strip

def strippedAt (idx : ℕ) : Text := ls.stripped.getD idx []

/-- The first place from a start on. The maps of the places of a line, with `bisect_left`, answer
this too. -/
def firstFrom (start : ℕ) (p : ℕ → Bool) : Option ℕ :=
  (List.range ls.lines.length).find? fun idx => start ≤ idx && p idx

/-- `_find_by_context`. The map holds windows of three lines, or fewer at the end of the text. -/
def findByContext (context : List Text) (start : ℕ) : Option ℕ :=
  if context = [] then none
  else
    (ls.firstFrom start fun idx => (ls.stripped.drop idx).take 3 = context).or
      (ls.firstFrom start fun idx => (ls.stripped.drop idx).take context.length = context)

/-- The lines below the parent, as long as they are indented deeper. -/
def scanScope (parentIndent : ℕ) (target : Text) : List Text → ℕ → Option ℕ
  | [], _ => none
  | line :: rest, idx =>
    if strip line = [] then scanScope parentIndent target rest (idx + 1)
    else if indentLevel line ≤ parentIndent then none
    else if strip line = target ∨ target <+: strip line then some idx
    else scanScope parentIndent target rest (idx + 1)

/-- `_find_with_parent_scope`. -/
def findWithParentScope (targetLine : Text) (start : ℕ) (parentKey : Text) : Option ℕ := do
  let parentIdx ← ls.firstFrom start fun idx => ls.strippedAt idx = parentKey ++ [':']
  scanScope (indentLevel (ls.lines.getD parentIdx [])) (strip targetLine)
    (ls.lines.drop (parentIdx + 1)) (parentIdx + 1)

/-- `_find_keyseq_item`. -/
def findKeyseqItem (target : Text) (start : ℕ) : Option ℕ :=
  ls.firstFrom start fun idx =>
    ls.strippedAt idx ≠ [] ∧ (ls.strippedAt idx = target ∨ target <+: ls.strippedAt idx)

/-- `_find_from`. -/
def findFrom (targetLine : Text) (start : ℕ) (nodeType : NodeType) : Option ℕ :=
  let target := strip targetLine
  if target = [] then none
  else if nodeType = .keySeq ∧ startsWith target "- " then ls.findKeyseqItem target start
  else if nodeType = .keySeq ∧ '[' ∈ target then
    let array := fun idx => arrayKey target <+: ls.strippedAt idx ∧ '[' ∈ ls.strippedAt idx
    (ls.firstFrom start array).or (if 0 < start then ls.firstFrom 0 array else none)
  else
    (ls.firstFrom start fun idx => ls.strippedAt idx = target).or
      (ls.firstFrom start fun idx => ls.strippedAt idx ≠ [] ∧ target <+: ls.strippedAt idx)

/-- The loop of `_compute_block_end`, with the place of the next line and the end so far. -/
def blockEnd (baseIndent : ℕ) (nodeType : NodeType) : List Text → ℕ → ℕ → ℕ
  | [], _, stop => stop
  | line :: rest, idx, stop =>
    let item := startsWith (strip line) "- "
    if strip line = [] then blockEnd baseIndent nodeType rest (idx + 1) idx
    else if nodeType = .keySeq ∧ item ∧ baseIndent ≤ indentLevel line then
      blockEnd baseIndent nodeType rest (idx + 1) idx
    else if indentLevel line ≤ baseIndent ∧ !item then stop
    else blockEnd baseIndent nodeType rest (idx + 1) idx

/-- `_compute_block_end`. -/
def computeBlockEnd (start : ℕ) (nodeType : NodeType) : ℕ :=
  if ls.lines.length ≤ start then start
  else
    blockEnd (indentLevel (ls.lines.getD start [])) nodeType (ls.lines.drop (start + 1))
      (start + 1) start

/-- The searches of `locate`, in their order. -/
def search (firstLine : Text) (nodeType : NodeType) (parentKey : Option Text)
    (emittedYaml : Text) (start : ℕ) : Option ℕ :=
  let context := contextSignature emittedYaml
  let byContext :=
    if 2 ≤ context.length then
      (ls.findByContext context start).or
        (if 0 < start then ls.findByContext context 0 else none)
    else none
  let byParent := parentKey.bind fun key => ls.findWithParentScope firstLine start key
  let byLine := (ls.findFrom firstLine start nodeType).or
    (if 0 < start then ls.findFrom firstLine 0 nodeType else none)
  (byContext.or byParent).or byLine

/-- The positions with one for the depth. -/
def padded (positions : List ℕ) (depth : ℕ) : List ℕ :=
  positions ++ List.replicate (depth + 1 - positions.length) (positions.getLastD 0)

/-- The positions after a find. -/
def advanced (positions : List ℕ) (depth idx : ℕ) : List ℕ :=
  positions.take depth ++ [idx + 1] ++ (positions.drop (depth + 1)).map (max · (idx + 1))

/-- `locate` : the first and the last line, from one. -/
def locate (firstLine : Text) (depth : ℕ) (nodeType : NodeType) (parentKey : Option Text)
    (emittedYaml : Text) (st : LocatorState) : (ℕ × ℕ) × LocatorState :=
  if ls.lines = [] then
    ((st.fallbackLine + 1, st.fallbackLine + 1), { st with fallbackLine := st.fallbackLine + 1 })
  else
    let positions := padded st.depthPositions depth
    match ls.search firstLine nodeType parentKey emittedYaml (positions.getD depth 0) with
    | none =>
      ((st.fallbackLine + 1, st.fallbackLine + 1), ⟨positions, st.fallbackLine + 1⟩)
    | some idx =>
      ((idx + 1, ls.computeBlockEnd idx nodeType + 1),
        ⟨advanced positions depth idx, st.fallbackLine⟩)

/-! ## What a search finds -/

/-- An inline array, which is looked for by its key. -/
def InlineArray (nodeType : NodeType) (target : Text) : Prop :=
  nodeType = .keySeq ∧ startsWith target "- " = false ∧ '[' ∈ target

/-- A line the node may begin at : not blank, with the first line that is emitted in front, or an
array of its key. -/
def Begins (firstLine : Text) (nodeType : NodeType) (line : Text) : Prop :=
  line ≠ [] ∧
    (strip firstLine <+: line ∨
      InlineArray nodeType (strip firstLine) ∧ arrayKey (strip firstLine) <+: line ∧ '[' ∈ line)

/-- The lines a block goes on with : blank, an item of a list, or indented deeper. -/
def continues (baseIndent : ℕ) (line : Text) : Bool :=
  strip line = [] ∨ startsWith (strip line) "- " ∨ baseIndent < indentLevel line

/-- The lines of the block that begins at a line. -/
def blockLength (idx : ℕ) : ℕ :=
  ((ls.lines.drop (idx + 1)).takeWhile (continues (indentLevel (ls.lines.getD idx [])))).length

variable {ls : Lines} {start idx : ℕ}

variable {p : ℕ → Bool}

theorem firstFrom_spec (h : ls.firstFrom start p = some idx) :
    idx < ls.lines.length ∧ p idx = true := by
  have hp := List.find?_some h
  exact ⟨List.mem_range.1 (List.mem_of_find?_eq_some h), (Bool.and_eq_true_iff.1 hp).2⟩

/-- A search from the top that fails has seen every line. -/
theorem firstFrom_eq_none (h : ls.firstFrom 0 p = none)
    (hidx : idx < ls.lines.length) : p idx = false := by
  have hp := List.find?_eq_none.1 h idx (List.mem_range.2 hidx)
  simpa using hp

theorem strippedAt_eq (ls : Lines) (idx : ℕ) :
    ls.strippedAt idx = strip (ls.lines.getD idx []) := by
  rw [strippedAt, stripped, List.getD_eq_getElem?_getD, List.getD_eq_getElem?_getD,
    List.getElem?_map]
  cases ls.lines[idx]? <;> rfl

theorem ne_nil_of_mem_contextSignature {text line : Text} (h : line ∈ contextSignature text) :
    line ≠ [] := by
  simpa using (List.mem_filter.1 (List.mem_of_mem_take h)).2

variable {context : List Text}

/-- A window that is the context begins with its first line. -/
theorem head_of_window {k : ℕ} (hne : context ≠ [])
    (h : (ls.stripped.drop idx).take k = context) : context.head? = some (ls.strippedAt idx) := by
  cases hdrop : ls.stripped.drop idx with
  | nil => exact absurd (by rw [← h, hdrop, List.take_nil]) hne
  | cons line rest =>
    have hline : ls.stripped[idx]? = some line := by
      rw [← List.head?_drop, hdrop, List.head?_cons]
    cases k with
    | zero => exact absurd (by rw [← h, List.take_zero]) hne
    | succ k =>
      rw [← h, hdrop, List.take_succ_cons, List.head?_cons, strippedAt,
        List.getD_eq_getElem?_getD, hline, Option.getD_some]

theorem findByContext_spec (h : ls.findByContext context start = some idx) :
    idx < ls.lines.length ∧ context.head? = some (ls.strippedAt idx) := by
  rw [findByContext] at h
  split at h
  · exact absurd h nofun
  · rename_i hne
    rcases Option.or_eq_some_iff.1 h with h | ⟨-, h⟩
    · exact ⟨(firstFrom_spec h).1, head_of_window hne (of_decide_eq_true (firstFrom_spec h).2)⟩
    · exact ⟨(firstFrom_spec h).1, head_of_window hne (of_decide_eq_true (firstFrom_spec h).2)⟩

/-- A line found below the parent begins with the target. -/
theorem scanScope_spec (parentIndent : ℕ) (target : Text) : ∀ {rest : List Text} {at_ found : ℕ},
    scanScope parentIndent target rest at_ = some found →
      ∃ k line, found = at_ + k ∧ rest[k]? = some line ∧ strip line ≠ [] ∧ target <+: strip line
  | [], _, _, h => absurd h nofun
  | line :: rest, at_, found, h => by
    have hlater : scanScope parentIndent target rest (at_ + 1) = some found →
        ∃ k line', found = at_ + k ∧ (line :: rest)[k]? = some line' ∧ strip line' ≠ [] ∧
          target <+: strip line' := by
      intro hrest
      obtain ⟨k, line', rfl, hline, hfound⟩ := scanScope_spec parentIndent target hrest
      exact ⟨k + 1, line', by omega, hline, hfound⟩
    rw [scanScope] at h
    split at h
    · exact hlater h
    · rename_i hblank
      split at h
      · exact absurd h nofun
      · split at h
        · rename_i htarget
          obtain rfl := Option.some.inj h
          refine ⟨0, line, rfl, rfl, hblank, ?_⟩
          rcases htarget with heq | hprefix
          · rw [heq]
          · exact hprefix
        · exact hlater h

theorem findWithParentScope_spec {targetLine parentKey : Text}
    (h : ls.findWithParentScope targetLine start parentKey = some idx) :
    idx < ls.lines.length ∧ ls.strippedAt idx ≠ [] ∧ strip targetLine <+: ls.strippedAt idx := by
  obtain ⟨parentIdx, -, hscan⟩ := Option.bind_eq_some_iff.1 h
  obtain ⟨k, line, rfl, hline, hne, hprefix⟩ := scanScope_spec _ _ hscan
  rw [List.getElem?_drop] at hline
  have hget : ls.lines.getD (parentIdx + 1 + k) [] = line := by
    rw [List.getD_eq_getElem?_getD, hline, Option.getD_some]
  refine ⟨(List.getElem?_eq_some_iff.1 hline).1, ?_, ?_⟩
  · rwa [strippedAt_eq, hget]
  · rwa [strippedAt_eq, hget]

variable {nodeType : NodeType}

variable {targetLine : Text}

theorem findFrom_spec (h : ls.findFrom targetLine start nodeType = some idx) :
    idx < ls.lines.length ∧ Begins targetLine nodeType (ls.strippedAt idx) := by
  rw [findFrom] at h
  split at h
  · exact absurd h nofun
  split at h
  · obtain ⟨hlt, hp⟩ := firstFrom_spec h
    obtain ⟨hne, hmatch⟩ := of_decide_eq_true hp
    refine ⟨hlt, hne, Or.inl ?_⟩
    rcases hmatch with heq | hprefix
    · rw [heq]
    · exact hprefix
  rename_i hitem
  split at h
  · rename_i hseq
    have hinline : InlineArray nodeType (strip targetLine) :=
      ⟨hseq.1, Bool.eq_false_iff.2 fun hstart => hitem ⟨hseq.1, hstart⟩, hseq.2⟩
    have harray : ∀ {from_ : ℕ}, ls.firstFrom from_ (fun idx =>
        arrayKey (strip targetLine) <+: ls.strippedAt idx ∧ '[' ∈ ls.strippedAt idx) = some idx →
        idx < ls.lines.length ∧ Begins targetLine nodeType (ls.strippedAt idx) := by
      intro from_ hfirst
      obtain ⟨hlt, hp⟩ := firstFrom_spec hfirst
      obtain ⟨hkey, hbracket⟩ := of_decide_eq_true hp
      exact ⟨hlt, List.ne_nil_of_mem hbracket, Or.inr ⟨hinline, hkey, hbracket⟩⟩
    rcases Option.or_eq_some_iff.1 h with h | ⟨-, h⟩
    · exact harray h
    · split at h
      · exact harray h
      · exact absurd h nofun
  · rcases Option.or_eq_some_iff.1 h with h | ⟨-, h⟩
    · obtain ⟨hlt, hp⟩ := firstFrom_spec h
      have heq := of_decide_eq_true hp
      rename_i htarget _ _
      refine ⟨hlt, ?_, Or.inl ?_⟩
      · rwa [heq]
      · rw [heq]
    · obtain ⟨hlt, hp⟩ := firstFrom_spec h
      obtain ⟨hne, hprefix⟩ := of_decide_eq_true hp
      exact ⟨hlt, hne, Or.inl hprefix⟩

/-- An array begins with its key. -/
theorem arrayKey_within (targetLine : Text) : arrayKey (strip targetLine) <+: strip targetLine := by
  have htake : (strip targetLine).takeWhile (· ≠ '[') <+: strip targetLine :=
    List.takeWhile_prefix _
  have hfront := dropWhile_isSpace_of_prefix (htake.trans (List.rdropWhile_prefix isSpace _))
  rw [arrayKey, strip, hfront]
  exact (List.rdropWhile_prefix isSpace _).trans htake

/-- A search from the top by the line alone fails only where no line is one the node may begin
at. -/
theorem findFrom_eq_none
    (h : ls.findFrom targetLine 0 nodeType = none) (htarget : strip targetLine ≠ [])
    (hidx : idx < ls.lines.length) : ¬Begins targetLine nodeType (ls.strippedAt idx) := by
  rintro ⟨hne, hmatch⟩
  rw [findFrom, if_neg htarget] at h
  split at h
  · rename_i hitem
    have hfail := of_decide_eq_false (firstFrom_eq_none h hidx)
    rcases hmatch with hprefix | ⟨hinline, -⟩
    · exact hfail ⟨hne, Or.inr hprefix⟩
    · exact absurd hitem.2 (by rw [hinline.2.1]; exact Bool.false_ne_true)
  rename_i hitem
  split at h
  · rename_i hseq
    have hfail := of_decide_eq_false (firstFrom_eq_none (Option.or_eq_none_iff.1 h).1 hidx)
    rcases hmatch with hprefix | ⟨-, hkey, hbracket⟩
    · exact hfail ⟨(arrayKey_within targetLine).trans hprefix, hprefix.mem hseq.2⟩
    · exact hfail ⟨hkey, hbracket⟩
  · rename_i hseq
    have hfail := of_decide_eq_false (firstFrom_eq_none (Option.or_eq_none_iff.1 h).2 hidx)
    rcases hmatch with hprefix | ⟨hinline, -⟩
    · exact hfail ⟨hne, hprefix⟩
    · exact hseq ⟨hinline.1, hinline.2.2⟩

/-- The first place a search answers with, of two. -/
theorem or_ite_spec {P : ℕ → Prop} {a b : Option ℕ} {c : Prop} [Decidable c]
    (h : a.or (if c then b else none) = some idx) (ha : ∀ i, a = some i → P i)
    (hb : ∀ i, b = some i → P i) : P idx := by
  rcases Option.or_eq_some_iff.1 h with h | ⟨-, h⟩
  · exact ha idx h
  · split at h
    · exact hb idx h
    · exact absurd h nofun

variable {firstLine emittedYaml : Text}

variable {parentKey : Option Text}

theorem search_spec
    (hfirst : ∀ line, (contextSignature emittedYaml).head? = some line → strip firstLine <+: line)
    (h : ls.search firstLine nodeType parentKey emittedYaml start = some idx) :
    idx < ls.lines.length ∧ Begins firstLine nodeType (ls.strippedAt idx) := by
  have hcontext : ∀ from_ i, ls.findByContext (contextSignature emittedYaml) from_ = some i →
      i < ls.lines.length ∧ Begins firstLine nodeType (ls.strippedAt i) := by
    intro from_ i hi
    obtain ⟨hlt, hhead⟩ := findByContext_spec hi
    exact ⟨hlt, ne_nil_of_mem_contextSignature (List.mem_of_mem_head? hhead),
      Or.inl (hfirst _ hhead)⟩
  have hline : ∀ from_ i, ls.findFrom firstLine from_ nodeType = some i →
      i < ls.lines.length ∧ Begins firstLine nodeType (ls.strippedAt i) :=
    fun from_ i hi => findFrom_spec hi
  rcases Option.or_eq_some_iff.1 h with h | ⟨-, h⟩
  · rcases Option.or_eq_some_iff.1 h with h | ⟨-, h⟩
    · split at h
      · exact or_ite_spec h (hcontext start) (hcontext 0)
      · exact absurd h nofun
    · obtain ⟨key, -, h⟩ := Option.bind_eq_some_iff.1 h
      obtain ⟨hlt, hne, hprefix⟩ := findWithParentScope_spec h
      exact ⟨hlt, hne, Or.inl hprefix⟩
  · exact or_ite_spec h (hline start) (hline 0)

/-- The searches fail only where no line is one the node may begin at : the last of them goes on
from the top. -/
theorem search_eq_none (htarget : strip firstLine ≠ [])
    (h : ls.search firstLine nodeType parentKey emittedYaml start = none)
    (hidx : idx < ls.lines.length) : ¬Begins firstLine nodeType (ls.strippedAt idx) := by
  obtain ⟨-, hline⟩ := Option.or_eq_none_iff.1 h
  obtain ⟨hfrom, hretry⟩ := Option.or_eq_none_iff.1 hline
  split at hretry
  · exact findFrom_eq_none hretry htarget hidx
  · rename_i hstart
    obtain rfl : start = 0 := by omega
    exact findFrom_eq_none hfrom htarget hidx

theorem blockLength_le (ls : Lines) (idx : ℕ) :
    ls.blockLength idx ≤ ls.lines.length - (idx + 1) := by
  rw [blockLength, ← List.length_drop]
  exact (List.takeWhile_prefix _).length_le

/-- A block ends in front of the first line it does not go on with. -/
theorem blockEnd_eq (baseIndent : ℕ) (nodeType : NodeType) : ∀ (rest : List Text) (stop : ℕ),
    blockEnd baseIndent nodeType rest (stop + 1) stop =
      stop + (rest.takeWhile (continues baseIndent)).length
  | [], stop => rfl
  | line :: rest, stop => by
    have hrest := blockEnd_eq baseIndent nodeType rest (stop + 1)
    rw [blockEnd, List.takeWhile_cons, hrest]
    by_cases hcont : continues baseIndent line = true
    · rw [if_pos hcont, List.length_cons]
      have h := of_decide_eq_true hcont
      split_ifs <;> grind
    · rw [if_neg hcont, List.length_nil]
      have h := fun h => hcont (decide_eq_true h)
      split_ifs <;> grind

theorem computeBlockEnd_eq (h : idx < ls.lines.length) (nodeType : NodeType) :
    ls.computeBlockEnd idx nodeType = idx + ls.blockLength idx := by
  rw [computeBlockEnd, if_neg (by omega), blockEnd_eq, blockLength]

/-- A node is located at a line it may begin at, with the lines of its block, or it is counted. -/
theorem locate_cases (depth : ℕ) (nodeType : NodeType) (parentKey : Option Text) (st : LocatorState)
    (hfirst : ∀ line, (contextSignature emittedYaml).head? = some line → strip firstLine <+: line) :
    (∃ idx st', idx < ls.lines.length ∧ Begins firstLine nodeType (ls.strippedAt idx) ∧
      st'.fallbackLine = st.fallbackLine ∧
      ls.locate firstLine depth nodeType parentKey emittedYaml st =
        ((idx + 1, idx + ls.blockLength idx + 1), st')) ∨
    (strip firstLine ≠ [] → ∀ idx < ls.lines.length,
        ¬Begins firstLine nodeType (ls.strippedAt idx)) ∧
      ∃ st', st'.fallbackLine = st.fallbackLine + 1 ∧
        ls.locate firstLine depth nodeType parentKey emittedYaml st =
          ((st'.fallbackLine, st'.fallbackLine), st') := by
  rw [locate]
  split
  · rename_i hempty
    refine Or.inr ⟨fun _ idx hidx => ?_, { st with fallbackLine := st.fallbackLine + 1 }, rfl, rfl⟩
    rw [hempty] at hidx
    exact absurd hidx (Nat.not_lt_zero _)
  · dsimp only
    split
    · rename_i hsearch
      exact Or.inr ⟨fun htarget idx hidx => search_eq_none htarget hsearch hidx,
        ⟨padded st.depthPositions depth, st.fallbackLine + 1⟩, rfl, rfl⟩
    · rename_i idx hsearch
      obtain ⟨hlt, hbegins⟩ := search_spec hfirst hsearch
      refine Or.inl ⟨idx, ⟨advanced (padded st.depthPositions depth) depth idx, st.fallbackLine⟩,
        hlt, hbegins, rfl, ?_⟩
      rw [computeBlockEnd_eq hlt]

end Lines

end ChunkHound.Yaml
