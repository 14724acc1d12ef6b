import ChunkHound.YamlLocator
import ChunkHound.ContentDedup
import ChunkHound.SplitPieces
import ChunkHound.StepSystem

/-!
# The chunks of a YAML tree

`_RapidYamlChunkBuilder` of `rapid_yaml_parser.py`, over the native library (`Ryml`). A node of the
tree is emitted, its text is looked for in the lines of the sanitized text, and the lines found are
the chunk. So the lines of a chunk are lines of the sanitized text where some line of it begins as
the node does, and a counter where none does (`chunks_of_sanitized`).

The configuration of the splitter has a limit with which it comes to an end, as the one the factory
builds has. Times and numbers of calls are left out.
-/

namespace ChunkHound.Yaml

open Cast (Text CASTConfig ChunkFields ValidationError validateAndSplit Rounding specificityOf
  Accessors)

inductive YamlError
  | native (message : String)
  | invalid (error : ValidationError)
  deriving DecidableEq

/-- The native library. `parseInPlace` leaves a tree behind also where it raises, and on a tree
that was cleared it is a function of the text. -/
structure Ryml where
  Tree : Type
  Bytes : Type
  newTree : Tree
  clear : Tree → Tree
  clearArena : Tree → Tree
  parseInPlace : Text → Tree → Except YamlError Unit × Tree
  /-- The nodes below the root, with their depths. -/
  walk : Tree → List (ℕ × ℕ)
  typeStr : Tree → ℕ → String
  key : Tree → ℕ → Option Bytes
  val : Tree → ℕ → Option Bytes
  u : Bytes → Except YamlError Text
  emitYaml : Tree → ℕ → Except YamlError Text
  deterministic : ∀ text t t',
    parseInPlace text (clearArena (clear t)) = parseInPlace text (clearArena (clear t'))

/-- What a parser is given : the library, the rounding of the machine, the hash of the contents
and the sizes of the chunks. -/
structure Settings where
  ryml : Ryml
  rounding : Rounding
  hash : Text → ℕ
  cast : CASTConfig
  limit_pos : 1 ≤ cast.safeTokenLimit

/-! ## Node types -/

namespace NodeType

/-- `_KEY_NODE_TYPES` -/
def ofTypeStr : String → Option NodeType
  | "KEYVAL" => some .keyVal
  | "KEYMAP" => some .keyMap
  | "KEYSEQ" => some .keySeq
  | _ => none

/-- `_chunk_type_for`, by its value. -/
def chunkType : NodeType → String
  | .keyVal => "key_value"
  | .keySeq => "array"
  | .keyMap => "block"

/-- The name of the chunk type. -/
def typeName : NodeType → String
  | .keyVal => "KEY_VALUE"
  | .keySeq => "ARRAY"
  | .keyMap => "BLOCK"

/-- `_value_kind`. -/
def valueKind : NodeType → String
  | .keyVal => "scalar"
  | .keySeq => "sequence"
  | .keyMap => "mapping"

end NodeType

/-! ## Chunks -/

/-- The metadata of a chunk, beside the parser and the node type. -/
structure YamlMetadata where
  keyPath : Text
  valueKind : String
  scalarValue : Option Text
  deriving DecidableEq

/-- A `Chunk` of a YAML file. The node type tells its chunk type. -/
structure YamlChunk where
  fields : ChunkFields
  nodeType : NodeType
  metadata : YamlMetadata
  fileId : ℤ
  deriving DecidableEq

/-- How the deduplication reads a chunk. -/
def yamlAccessors : Accessors YamlChunk where
  content c := c.fields.code
  specificity c := specificityOf c.nodeType.typeName
  startLine c := c.fields.startLine
  endLine c := c.fields.endLine

/-- `universal_to_chunk` : the fields, which are checked. -/
def chunkFields (filePath : Option Text) (uc : Cast.UniversalChunk) : ChunkFields where
  symbol := some uc.name.toList
  startLine := uc.startLine
  endLine := uc.endLine
  code := uc.content
  filePath := filePath
  startByte := none
  endByte := none

def universalToChunk (filePath : Option Text) (fileId : ℤ) (nodeType : NodeType)
    (metadata : YamlMetadata) (uc : Cast.UniversalChunk) : Except YamlError YamlChunk :=
  match (chunkFields filePath uc).validate with
  | .ok fields => .ok ⟨fields, nodeType, metadata, fileId⟩
  | .error e => .error (.invalid e)

/-- `validate_and_split`, which ends with this limit. -/
def Settings.split (s : Settings) (chunk : Cast.UniversalChunk) : List Cast.UniversalChunk :=
  (validateAndSplit s.rounding.proportion s.cast chunk).getD []

theorem Settings.split_eq (s : Settings) (chunk : Cast.UniversalChunk) :
    validateAndSplit s.rounding.proportion s.cast chunk = some (s.split chunk) := by
  obtain ⟨pieces, hpieces, -⟩ := Cast.validateAndSplit_spec s.rounding.proportion s.limit_pos chunk
  rw [Settings.split, hpieces, Option.getD_some]

/-! ## The builder -/

/-- `_slice_content`. -/
def sliceContent (ls : Lines) (startLine endLine : ℕ) : Text :=
  ['\n'].intercalate ((ls.lines.take endLine).drop (startLine - 1))

/-- `emitted.lstrip("\n")` -/
def normalizedOf (emitted : Text) : Text := emitted.dropWhile (· = '\n')

/-- The line that is looked for. -/
def firstLineOf (normalized symbol : Text) : Text :=
  if normalized = [] then symbol else (splitlines normalized).headD []

/-- The code of a chunk : its lines, or what was emitted where they are blank. -/
def codeOf (ls : Lines) (normalized symbol : Text) (range : ℕ × ℕ) : Text :=
  let snippet := sliceContent ls range.1 range.2
  if strip snippet = [] then
    if normalized = [] then firstLineOf normalized symbol else normalized
  else snippet

/-- The chunk of a node, before it is split. -/
def nodeChunk (ls : Lines) (nodeType : NodeType) (normalized symbol : Text) (range : ℕ × ℕ) :
    Cast.UniversalChunk where
  concept := .block
  name := String.ofList symbol
  content := codeOf ls normalized symbol range
  startLine := range.1
  endLine := max range.1 range.2
  metadata := ⟨false, none, none, none⟩
  languageNodeType := nodeType.chunkType

/-- What a builder works on. -/
structure Builder (s : Settings) where
  tree : s.ryml.Tree
  ls : Lines
  filePath : Option Text
  fileId : ℤ

structure BuildState where
  path : List Text
  locator : LocatorState
  chunks : List YamlChunk

namespace Builder

variable {s : Settings} (b : Builder s)

/-- `_key_text`. -/
def keyText (node : ℕ) : Except YamlError (Option Text) := do
  match s.ryml.key b.tree node with
  | none => return none
  | some key =>
    let text ← s.ryml.u key
    return if strip text = [] then none else some (strip text)

def scalarValue (node : ℕ) : Except YamlError (Option Text) :=
  match s.ryml.val b.tree node with
  | none => .ok none
  | some value => (s.ryml.u value).map some

/-- `_create_chunk` from where its lines are known. -/
def makeChunks (node : ℕ) (nodeType : NodeType) (symbol normalized : Text)
    (located : (ℕ × ℕ) × LocatorState) : Except YamlError (List YamlChunk × LocatorState) := do
  let value ← b.scalarValue node
  let chunks ← (s.split (nodeChunk b.ls nodeType normalized symbol located.1)).mapM
    (universalToChunk b.filePath b.fileId nodeType ⟨symbol, nodeType.valueKind, value⟩)
  return (chunks, located.2)

/-- `_create_chunk`. -/
def createChunk (node : ℕ) (nodeType : NodeType) (symbol : Text) (depth : ℕ)
    (parentKey : Option Text) (locator : LocatorState) :
    Except YamlError (List YamlChunk × LocatorState) := do
  let emitted ← s.ryml.emitYaml b.tree node
  let normalized := normalizedOf emitted
  b.makeChunks node nodeType symbol normalized
    (b.ls.locate (firstLineOf normalized symbol) depth nodeType parentKey normalized locator)

/-- The path of a node : that of its depth, with its key. -/
def pathOf (path : List Text) (depth : ℕ) (key : Option Text) : List Text :=
  let path := if path.length ≠ depth - 1 then path.take (depth - 1) else path
  match key with
  | none => path
  | some key =>
    if path.length = depth - 1 then path ++ [key] else path.take (depth - 1) ++ [key]

def symbolOf (path : List Text) (key : Option Text) (node : ℕ) : Text :=
  if path ≠ [] then ['.'].intercalate path
  else key.getD ("yaml_node_".toList ++ (toString node).toList)

/-- `path[-2]` -/
def parentOf (path : List Text) : Option Text :=
  if 2 ≤ path.length then path[path.length - 2]? else none

/-- The body of the loop of `build_chunks`. -/
def visit (st : BuildState) (node depth : ℕ) : Except YamlError BuildState := do
  let locator := st.locator.truncate depth
  let key ← b.keyText node
  let path := pathOf st.path depth key
  match NodeType.ofTypeStr (s.ryml.typeStr b.tree node) with
  | none => return ⟨path, locator, st.chunks⟩
  | some nodeType =>
    let (chunks, locator) ←
      b.createChunk node nodeType (symbolOf path key node) depth (parentOf path) locator
    return ⟨path, locator, st.chunks ++ chunks⟩

/-- The nodes in order, with their depths. -/
def visitAll : List (ℕ × ℕ) → BuildState → Except YamlError BuildState
  | [], st => .ok st
  | (node, depth) :: nodes, st => do
    let st ← b.visit st node depth
    visitAll nodes st

/-- The walk of `build_chunks`, and its deduplication. -/
def chunks : Except YamlError (List YamlChunk) :=
  (b.visitAll (s.ryml.walk b.tree) ⟨[], .start, []⟩).map
    fun st => yamlAccessors.deduplicateChunks s.hash "yaml" st.chunks

end Builder

/-- `build_chunks`, on the tree of the parser. -/
def buildChunks (s : Settings) (content : Text) (filePath : Option Text) (fileId : ℤ)
    (tree : s.ryml.Tree) : Except YamlError (List YamlChunk) × s.ryml.Tree :=
  let (parsed, tree) := s.ryml.parseInPlace content (s.ryml.clearArena (s.ryml.clear tree))
  (parsed.bind fun _ => (Builder.mk tree ⟨splitlines content⟩ filePath fileId).chunks, tree)

/-! ## Where the chunks stand -/

/-- The lines are a block of the text that begins at a line the node may begin at. -/
def Located (ls : Lines) (nodeType : NodeType) (normalized symbol : Text) (range : ℕ × ℕ) : Prop :=
  ∃ idx < ls.lines.length, range = (idx + 1, idx + ls.blockLength idx + 1) ∧
    Lines.Begins (firstLineOf normalized symbol) nodeType (ls.strippedAt idx)

/-- The lines are one of the numbers up to a bound, and the node may begin at no line of the
text. -/
def Counted (ls : Lines) (nodeType : NodeType) (normalized symbol : Text) (bound : ℕ)
    (range : ℕ × ℕ) : Prop :=
  (∃ k, range = (k, k) ∧ 1 ≤ k ∧ k ≤ bound) ∧
    (strip (firstLineOf normalized symbol) ≠ [] → ∀ line ∈ ls.lines,
      ¬Lines.Begins (firstLineOf normalized symbol) nodeType (strip line))

/-- The chunk is a piece of the chunk of a node, whose lines are located or counted. -/
def Placed {s : Settings} (b : Builder s) (bound : ℕ) (c : YamlChunk) : Prop :=
  ∃ node emitted range,
    node ∈ (s.ryml.walk b.tree).map Prod.fst ∧
    NodeType.ofTypeStr (s.ryml.typeStr b.tree node) = some c.nodeType ∧
    s.ryml.emitYaml b.tree node = .ok emitted ∧
    (Located b.ls c.nodeType (normalizedOf emitted) c.metadata.keyPath range ∨
      Counted b.ls c.nodeType (normalizedOf emitted) c.metadata.keyPath bound range) ∧
    ∃ p ∈ s.split
        (nodeChunk b.ls c.nodeType (normalizedOf emitted) c.metadata.keyPath range),
      (chunkFields b.filePath p).validate = .ok c.fields

theorem Placed.mono {s : Settings} {b : Builder s} {bound bound' : ℕ} {c : YamlChunk}
    (h : Placed b bound c) (hle : bound ≤ bound') : Placed b bound' c := by
  obtain ⟨node, emitted, range, hnode, htype, hemit, hrange, hpiece⟩ := h
  refine ⟨node, emitted, range, hnode, htype, hemit, hrange.imp_right ?_, hpiece⟩
  rintro ⟨⟨k, hk, hpos, hbound⟩, hnone⟩
  exact ⟨⟨k, hk, hpos, hbound.trans hle⟩, hnone⟩

/-- What is looked for in three lines begins with the line that is looked for. -/
theorem firstLineOf_isPrefix {normalized symbol line : Text}
    (h : (contextSignature normalized).head? = some line) :
    strip (firstLineOf normalized symbol) <+: line := by
  have hne : normalized ≠ [] := by
    rintro rfl
    exact absurd h nofun
  rw [firstLineOf, if_neg hne]
  cases hlines : splitlines normalized with
  | nil => exact List.nil_prefix
  | cons first rest =>
    rw [List.headD_cons]
    by_cases hblank : strip first = []
    · rw [hblank]
      exact List.nil_prefix
    · have hkept : decide (strip first ≠ []) = true := decide_eq_true hblank
      rw [contextSignature, hlines, List.map_cons, List.filter_cons, if_pos hkept,
        List.take_succ_cons, List.head?_cons, Option.some_inj] at h
      rw [h]

variable {nodeType : NodeType}

theorem universalToChunk_eq {filePath : Option Text} {fileId : ℤ}
    {metadata : YamlMetadata} {uc : Cast.UniversalChunk} {c : YamlChunk}
    (h : universalToChunk filePath fileId nodeType metadata uc = .ok c) :
    c.nodeType = nodeType ∧ c.metadata = metadata ∧
      (chunkFields filePath uc).validate = .ok c.fields := by
  rw [universalToChunk] at h
  split at h
  · rename_i fields hfields
    obtain rfl := Except.ok.inj h
    exact ⟨rfl, rfl, hfields⟩
  · exact absurd h nofun

namespace Builder

variable {s : Settings} {b : Builder s}

variable {chunks : List YamlChunk}

theorem makeChunks_spec {node : ℕ} {nodeType : NodeType} {symbol emitted : Text} {bound : ℕ}
    {located : (ℕ × ℕ) × LocatorState} {locator' : LocatorState}
    (hnode : node ∈ (s.ryml.walk b.tree).map Prod.fst)
    (htype : NodeType.ofTypeStr (s.ryml.typeStr b.tree node) = some nodeType)
    (hemit : s.ryml.emitYaml b.tree node = .ok emitted)
    (hrange : Located b.ls nodeType (normalizedOf emitted) symbol located.1 ∨
      Counted b.ls nodeType (normalizedOf emitted) symbol bound located.1)
    (h : b.makeChunks node nodeType symbol (normalizedOf emitted) located =
      .ok (chunks, locator')) :
    located.2 = locator' ∧ ∀ c ∈ chunks, Placed b bound c := by
  obtain ⟨value, -, h⟩ := StepSystem.bind_eq_ok.1 h
  obtain ⟨made, hmade, h⟩ := StepSystem.bind_eq_ok.1 h
  obtain ⟨rfl, hlocator⟩ := Prod.mk.inj (Except.ok.inj h)
  refine ⟨hlocator, fun c hc => ?_⟩
  obtain ⟨p, hp, hchunk⟩ :=
    StepSystem.forall₂_mem_left (StepSystem.forall₂_of_mapM hmade).flip c hc
  obtain ⟨rfl, hmetadata, hvalid⟩ := universalToChunk_eq hchunk
  obtain rfl : c.metadata.keyPath = symbol := congrArg YamlMetadata.keyPath hmetadata
  exact ⟨node, emitted, located.1, hnode, htype, hemit, hrange, p, hp, hvalid⟩

variable {node depth : ℕ}

/-- The chunks of one node, which counts at most once. -/
theorem createChunk_spec {nodeType : NodeType} {symbol : Text}
    {parentKey : Option Text} {locator locator' : LocatorState}
    (hnode : node ∈ (s.ryml.walk b.tree).map Prod.fst)
    (htype : NodeType.ofTypeStr (s.ryml.typeStr b.tree node) = some nodeType)
    (h : b.createChunk node nodeType symbol depth parentKey locator = .ok (chunks, locator')) :
    locator.fallbackLine ≤ locator'.fallbackLine ∧
      locator'.fallbackLine ≤ locator.fallbackLine + 1 ∧
      ∀ c ∈ chunks, Placed b locator'.fallbackLine c := by
  obtain ⟨emitted, hemit, h⟩ := StepSystem.bind_eq_ok.1 h
  dsimp only at h
  rcases @Lines.locate_cases b.ls _ _ depth nodeType parentKey locator
      fun _ hline => @firstLineOf_isPrefix _ symbol _ hline with
    ⟨idx, st', hlt, hbegins, hfallback, heq⟩ | ⟨hnone, st', hfallback, heq⟩
  · rw [heq] at h
    obtain ⟨rfl, hplaced⟩ := makeChunks_spec hnode htype hemit
      (Or.inl ⟨idx, hlt, rfl, hbegins⟩) h
    exact ⟨hfallback.ge, hfallback.le.trans (Nat.le_succ _), hplaced⟩
  · have hcounted : Counted b.ls nodeType (normalizedOf emitted) symbol st'.fallbackLine
        (st'.fallbackLine, st'.fallbackLine) := by
      refine ⟨⟨st'.fallbackLine, rfl, by omega, Nat.le_refl _⟩, fun hfirst line hline => ?_⟩
      obtain ⟨idx, hidx, rfl⟩ := List.getElem_of_mem hline
      have hbegins := hnone hfirst idx hidx
      rwa [Lines.strippedAt_eq, List.getD_eq_getElem _ _ hidx] at hbegins
    rw [heq] at h
    obtain ⟨rfl, hplaced⟩ := makeChunks_spec hnode htype hemit (Or.inr hcounted) h
    exact ⟨(Nat.le_succ _).trans hfallback.ge, hfallback.le, hplaced⟩

theorem truncate_fallbackLine (locator : LocatorState) (depth : ℕ) :
    (locator.truncate depth).fallbackLine = locator.fallbackLine := by
  rw [LocatorState.truncate]
  split <;> rfl

theorem visit_spec {st st' : BuildState}
    (hnode : node ∈ (s.ryml.walk b.tree).map Prod.fst) (h : b.visit st node depth = .ok st')
    (hplaced : ∀ c ∈ st.chunks, Placed b st.locator.fallbackLine c) :
    st'.locator.fallbackLine ≤ st.locator.fallbackLine + 1 ∧
      ∀ c ∈ st'.chunks, Placed b st'.locator.fallbackLine c := by
  obtain ⟨key, -, h⟩ := StepSystem.bind_eq_ok.1 h
  have hcount := truncate_fallbackLine st.locator depth
  split at h
  · obtain rfl := Except.ok.inj h
    exact ⟨hcount.le.trans (Nat.le_succ _), fun c hc => (hplaced c hc).mono hcount.ge⟩
  · rename_i nodeType htype
    obtain ⟨made, hmade, h⟩ := StepSystem.bind_eq_ok.1 h
    obtain rfl := Except.ok.inj h
    obtain ⟨hle, hlt, hnew⟩ := createChunk_spec hnode htype hmade
    rw [hcount] at hle hlt
    refine ⟨hlt, fun c hc => ?_⟩
    rcases List.mem_append.1 hc with hc | hc
    · exact (hplaced c hc).mono hle
    · exact hnew c hc

/-- Over a walk each node counts at most once. -/
theorem visitAll_spec : ∀ {nodes : List (ℕ × ℕ)} {st st' : BuildState},
    (∀ nd ∈ nodes, nd ∈ s.ryml.walk b.tree) → b.visitAll nodes st = .ok st' →
      (∀ c ∈ st.chunks, Placed b st.locator.fallbackLine c) →
        st'.locator.fallbackLine ≤ st.locator.fallbackLine + nodes.length ∧
          ∀ c ∈ st'.chunks, Placed b st'.locator.fallbackLine c
  | [], st, st', _, h, hplaced => by
    obtain rfl := Except.ok.inj h
    exact ⟨Nat.le_refl _, hplaced⟩
  | (node, depth) :: nodes, st, st', hnodes, h, hplaced => by
    obtain ⟨next, hnext, h⟩ := StepSystem.bind_eq_ok.1 h
    have hnode := List.mem_map_of_mem (f := Prod.fst) (hnodes _ List.mem_cons_self)
    obtain ⟨hcount, hplaced⟩ := visit_spec hnode hnext hplaced
    obtain ⟨hrest, hplaced⟩ :=
      visitAll_spec (fun nd hnd => hnodes nd (List.mem_cons_of_mem _ hnd)) h hplaced
    rw [List.length_cons]
    exact ⟨by omega, hplaced⟩

theorem chunks_placed (h : b.chunks = .ok chunks) :
    ∀ c ∈ chunks, Placed b (s.ryml.walk b.tree).length c := by
  intro c hc
  obtain ⟨st, hst, rfl⟩ := StepSystem.map_eq_ok.1 h
  obtain ⟨hcount, hplaced⟩ := visitAll_spec (fun nd hnd => hnd) hst
    fun c hc => absurd hc List.not_mem_nil
  refine (hplaced c (Accessors.mem_of_mem_deduplicateChunks hc)).mono ?_
  exact hcount.trans (Nat.zero_add _).le

end Builder

variable {range : ℕ × ℕ}

variable {normalized symbol : Text}

theorem Located.le {ls : Lines} (h : Located ls nodeType normalized symbol range) :
    1 ≤ range.1 ∧ range.1 ≤ range.2 ∧ range.2 ≤ ls.lines.length := by
  obtain ⟨idx, hlt, rfl, -⟩ := h
  have hblock := ls.blockLength_le idx
  exact ⟨Nat.le_add_left 1 idx, by dsimp only; omega, by dsimp only; omega⟩

/-- The code of a located node is its lines, since the first of them is not blank. -/
theorem Located.codeOf {ls : Lines} (h : Located ls nodeType normalized symbol range) :
    codeOf ls normalized symbol range = sliceContent ls range.1 range.2 := by
  obtain ⟨idx, hidx, rfl, hne, -⟩ := h
  have hmem : ls.lines[idx] ∈
      (ls.lines.take (idx + ls.blockLength idx + 1)).drop (idx + 1 - 1) := by
    refine List.mem_iff_getElem?.2 ⟨0, ?_⟩
    rw [Nat.add_sub_cancel, List.getElem?_drop,
      List.getElem?_take_of_lt (show idx + 0 < idx + ls.blockLength idx + 1 by omega)]
    exact List.getElem?_eq_getElem hidx
  have hsome : ∃ c ∈ ls.lines[idx], isSpace c = false := by
    rw [Lines.strippedAt_eq, List.getD_eq_getElem?_getD, List.getElem?_eq_getElem hidx,
      Option.getD_some, Ne, strip_eq_nil, List.all_eq_true] at hne
    simpa using hne
  obtain ⟨c, hc, hspace⟩ := hsome
  rw [Yaml.codeOf, if_neg]
  intro hblank
  have hall := List.all_eq_true.1 (strip_eq_nil.1 hblank) c (Joined.mem_intercalate_of_mem hc hmem)
  rw [hspace] at hall
  exact absurd hall Bool.false_ne_true

/-- The pieces of the chunk of a node have lines of the node. -/
theorem split_lines (s : Settings) (ls : Lines) (nodeType : NodeType) (normalized symbol : Text)
    (h : range.1 ≤ range.2) {p : Cast.UniversalChunk}
    (hp : p ∈ s.split (nodeChunk ls nodeType normalized symbol range)) :
    (range.1 : ℤ) ≤ p.startLine ∧ p.endLine ≤ range.2 := by
  have horder : (nodeChunk ls nodeType normalized symbol range).startLine ≤
      (nodeChunk ls nodeType normalized symbol range).endLine :=
    le_max_left _ _
  obtain ⟨-, hfirst, hlast⟩ :=
    (Cast.validateAndSplit_ranges s.rounding horder (s.split_eq _)).1 p hp
  exact ⟨hfirst, hlast.trans (max_le (Int.ofNat_le.2 h) (le_refl _))⟩

/-- The chunks of a YAML text are chunks of its sanitized text, whose lines are those of the text
where it has no template. Each is a piece of the chunk of a node, with lines of the node. Where
the node may begin at a line of the sanitized text, its lines are the block that begins at such a
line, and its code is these lines. Where it may begin at none, its one line is at most the number
of nodes. -/
theorem chunks_of_sanitized (s : Settings) (content : Text) (filePath : Option Text) (fileId : ℤ)
    (tree : s.ryml.Tree) {chunks : List YamlChunk}
    (h : (buildChunks s (sanitizeHelmTemplates content).text filePath fileId tree).1 =
      .ok chunks) :
    let sanitized := (sanitizeHelmTemplates content).text
    let ls : Lines := ⟨splitlines sanitized⟩
    let parsed :=
      (s.ryml.parseInPlace sanitized (s.ryml.clearArena (s.ryml.clear tree))).2
    (contains content "\x7b\x7b" = false → contains content "\x7d\x7d" = false →
      sanitized = content) ∧
    ∀ c ∈ chunks, 1 ≤ c.fields.startLine ∧ c.fields.startLine ≤ c.fields.endLine ∧
      ∃ node emitted range,
        node ∈ (s.ryml.walk parsed).map Prod.fst ∧
        NodeType.ofTypeStr (s.ryml.typeStr parsed node) = some c.nodeType ∧
        s.ryml.emitYaml parsed node = .ok emitted ∧
        range.1 ≤ c.fields.startLine ∧ c.fields.endLine ≤ range.2 ∧
        (∃ p ∈ s.split (nodeChunk ls c.nodeType (normalizedOf emitted) c.metadata.keyPath range),
          p.content = c.fields.code) ∧
        (Located ls c.nodeType (normalizedOf emitted) c.metadata.keyPath range ∧
            (nodeChunk ls c.nodeType (normalizedOf emitted) c.metadata.keyPath range).content =
              sliceContent ls range.1 range.2 ∨
          Counted ls c.nodeType (normalizedOf emitted) c.metadata.keyPath
            (s.ryml.walk parsed).length range) := by
  intro sanitized ls parsed
  refine ⟨fun hopen hclose => (sanitize_untemplated hopen hclose).1, fun c hc => ?_⟩
  have hbuilt : (Builder.mk (s := s) parsed ls filePath fileId).chunks = .ok chunks := by
    obtain ⟨-, -, hchunks⟩ := StepSystem.bind_eq_ok.1 h
    exact hchunks
  obtain ⟨node, emitted, range, hnode, htype, hemit, hrange, p, hp, hvalid⟩ :=
    Builder.chunks_placed hbuilt c hc
  obtain ⟨hfields, heq⟩ := Cast.ChunkFields.validate_eq_ok_iff.1 hvalid
  have hle : range.1 ≤ range.2 := by
    rcases hrange with hlocated | ⟨⟨k, rfl, -⟩, -⟩
    · exact hlocated.le.2.1
    · exact Nat.le_refl k
  obtain ⟨hfirst, hlast⟩ := split_lines s ls c.nodeType _ _ hle hp
  rw [heq]
  refine ⟨hfields.start_pos, hfields.lines, node, emitted, range, hnode, htype, hemit, hfirst,
    hlast, ⟨p, hp, rfl⟩, hrange.imp_left fun hlocated => ⟨hlocated, hlocated.codeOf⟩⟩

/-- A library for texts of one key with a scalar, and one text it does not parse. -/
def oneKey (bad key value emitted : Text) : Ryml where
  Tree := Unit
  Bytes := Text
  newTree := ()
  clear := id
  clearArena := id
  parseInPlace text _ := (if text = bad then .error (.native "parse error") else .ok (), ())
  walk _ := [(0, 0), (1, 1)]
  typeStr _ node := if node = 0 then "MAP" else "KEYVAL"
  key _ node := if node = 0 then none else some key
  val _ node := if node = 0 then none else some value
  u := .ok
  emitYaml _ _ := .ok emitted
  deterministic _ _ _ := rfl

def oneKeySettings (bad key value emitted : Text) : Settings where
  ryml := oneKey bad key value emitted
  rounding := Rounding.exact
  hash _ := 0
  cast := {}
  limit_pos := by decide

/-- A value that is a template, and what the library makes of it once it is sanitized. -/
def templated : Text := "k: \x7b\x7bx\x7d\x7d".toList

def templatedSettings : Settings :=
  oneKeySettings [] ['k'] placeholderBlock "k: \"__CH_TPL_BLOCK__\"\n".toList

def templatedChunk : YamlChunk where
  fields :=
    { symbol := some ['k'], startLine := 1, endLine := 1, filePath := none
      code := "k: \"__CH_TPL_BLOCK__\"  # CH_TPL_INLINE: \x7b\x7bx\x7d\x7d".toList
      startByte := none, endByte := none }
  nodeType := .keyVal
  metadata := ⟨['k'], "scalar", some placeholderBlock⟩
  fileId := 0

theorem buildChunks_templated :
    (buildChunks templatedSettings (sanitizeHelmTemplates templated).text none 0 ()).1 =
      .ok [templatedChunk] := by
  decide +kernel

theorem chunks_of_sanitized_templated :
    1 ≤ templatedChunk.fields.startLine ∧
      templatedChunk.fields.startLine ≤ templatedChunk.fields.endLine :=
  let h := (chunks_of_sanitized templatedSettings templated none 0 () buildChunks_templated).2
    templatedChunk (List.mem_singleton_self _)
  ⟨h.1, h.2.1⟩

/-- The lines of a chunk are lines of the text, one of them has the key, and its code is made of
them. -/
def OfText (content key : Text) (c : YamlChunk) : Prop :=
  let lines := ((splitlines content).take c.fields.endLine.toNat).drop
    (c.fields.startLine.toNat - 1)
  1 ≤ c.fields.startLine ∧ c.fields.startLine ≤ c.fields.endLine ∧
    c.fields.endLine ≤ (splitlines content).length ∧ (∃ line ∈ lines, key <:+: line) ∧
      ∀ line ∈ splitlines c.fields.code, line ∈ lines

/-- A value with more blanks in front of it than the library emits. -/
def aligned : Text := "# c\nk:    v".toList

def alignedChunk : YamlChunk where
  fields :=
    { symbol := some ['k'], startLine := 1, endLine := 1, filePath := none
      code := "# c".toList, startByte := none, endByte := none }
  nodeType := .keyVal
  metadata := ⟨['k'], "scalar", some ['v']⟩
  fileId := 0

/-- No line begins as the library emits the key, so the chunk gets the first number, and the line
of that number has no key. -/
theorem counted_line_without_key :
    (buildChunks (oneKeySettings [] ['k'] ['v'] "k: v\n".toList)
        (sanitizeHelmTemplates aligned).text none 0 ()).1 = .ok [alignedChunk] ∧
      ¬OfText aligned ['k'] alignedChunk := by
  refine ⟨by decide +kernel, fun h => ?_⟩
  obtain ⟨line, hline, hkey⟩ := h.2.2.2.1
  have hlines : ((splitlines aligned).take 1).drop 0 = ["# c".toList] := by decide +kernel
  obtain rfl := List.mem_singleton.1 (hlines ▸ hline)
  exact absurd hkey (by decide)

end ChunkHound.Yaml
