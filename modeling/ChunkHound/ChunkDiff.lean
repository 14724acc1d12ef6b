import ChunkHound.Grouping
import Mathlib.Data.List.DropRight
import Mathlib.Data.Rat.Defs

/-!
# The chunk diff

The chunks of the Python path (`core/models/chunk.py`), content normalization, the guard
that splits oversized chunks before they are stored, and `ChunkCacheService.diff_chunks`.

A chunk carries what its `__post_init__` checks. The splitter behind the guard places its
cuts with floating-point ratios, so it is a parameter, `Splitter`, with what its loops
guarantee : an oversized chunk becomes at least two pieces, cut from its characters, and every
piece fits.

`diff_chunks` walks sets of contents, whose iteration order Python leaves open.
`IterationOrder` is any such order.
-/

namespace ChunkHound

open Grouping

/-! ## Text -/

instance lawfulBEqText : LawfulBEq (List Char) := inferInstance

/-- `str.isspace` of a character, which is also what `\s` matches. -/
def isSpace (c : Char) : Bool :=
  (9 ≤ c.toNat && c.toNat ≤ 13) || (28 ≤ c.toNat && c.toNat ≤ 32) ||
    (8192 ≤ c.toNat && c.toNat ≤ 8202) ||
    [133, 160, 5760, 8232, 8233, 8239, 8287, 12288].contains c.toNat

/-- `str.strip`. -/
def strip (cs : List Char) : List Char := (cs.dropWhile isSpace).rdropWhile isSpace

/-- `content.replace("\r\n", "\n").replace("\r", "\n")`. -/
def unixLines : List Char → List Char
  | [] => []
  | '\r' :: '\n' :: cs => '\n' :: unixLines cs
  | '\r' :: cs => '\n' :: unixLines cs
  | c :: cs => c :: unixLines cs

def normalizeContent (content : String) : String :=
  String.ofList (strip (unixLines content.toList))

/-- No character but whitespace. -/
def isBlank (s : String) : Bool := s.toList.all isSpace

theorem strip_eq_nil {cs : List Char} : strip cs = [] ↔ cs.all isSpace = true := by
  unfold strip
  rw [List.rdropWhile_eq_nil_iff, List.all_eq_true]
  constructor
  · intro h
    have hnil : cs.dropWhile isSpace = [] := by
      cases hd : cs.dropWhile isSpace with
      | nil => rfl
      | cons c rest =>
        have hnot := List.head?_dropWhile_not isSpace cs
        simp [hd, h c (by simp [hd])] at hnot
    exact List.dropWhile_eq_nil_iff.1 hnil
  · intro h c hc
    rw [List.dropWhile_eq_nil_iff.2 h] at hc
    cases hc

/-- The beginning of a text without leading whitespace has none. -/
theorem dropWhile_isSpace_of_prefix {cs text : List Char} (h : cs <+: text.dropWhile isSpace) :
    cs.dropWhile isSpace = cs := by
  refine List.dropWhile_eq_self_iff.2 fun hpos => ?_
  have hlen : 0 < (text.dropWhile isSpace).length := hpos.trans_le h.length_le
  rw [h.getElem hpos]
  exact List.dropWhile_get_zero_not isSpace text hlen

theorem all_isSpace_unixLines (cs : List Char) :
    (unixLines cs).all isSpace = cs.all isSpace := by
  fun_induction unixLines cs with
  | case1 => rfl
  | case2 cs ih => simp [ih, show isSpace '\r' = true from rfl]
  | case3 cs _ ih =>
    simp [ih, show isSpace '\r' = true from rfl, show isSpace '\n' = true from rfl]
  | case4 c cs _ _ ih => simp [ih]

variable {content : String}

/-- Only whitespace normalizes to nothing. -/
theorem normalizeContent_eq_empty :
    normalizeContent content = "" ↔ isBlank content = true := by
  unfold normalizeContent isBlank
  rw [← all_isSpace_unixLines, ← strip_eq_nil]
  constructor
  · intro h
    simpa using congrArg String.toList h
  · intro h
    rw [h]

/-- `ChunkMetrics.from_content(content).non_whitespace_chars`. -/
def nonWhitespaceChars (content : String) : ℕ := content.toList.countP fun c => !isSpace c

def estimateTokensChunking (text : String) : ℕ :=
  if text.length = 0 then 0 else max 1 (text.length / 3)

/-! ## Chunks -/

inductive ChunkType
  | function | method | class_ | interface | struct | enum | namespace_ | constructor
  | property | field | typeAlias | closure | trait | script | object | companionObject
  | dataClass | extensionFunction | program | functionBlock | action | variable_ | type
  | macro_ | comment | docstring | header1 | header2 | header3 | header4 | header5 | header6
  | paragraph | codeBlock | table | keyValue | array | import_ | embeddedSql | block | unknown
  deriving DecidableEq, Repr

/-- What the embedding text reads of a chunk's metadata. -/
structure Metadata where
  constants : List (String × String)
  ruleTarget : Option String
  deriving DecidableEq, Repr

/-- A chunk model. The last three fields are what `__post_init__` establishes. -/
structure Chunk where
  id : Option ℕ
  fileId : ℕ
  filePath : Option String
  symbol : Option String
  startLine : ℤ
  endLine : ℤ
  code : String
  chunkType : ChunkType
  language : String
  startByte : Option ℤ
  endByte : Option ℤ
  metadata : Option Metadata
  symbol_ok : symbol.all (fun s => !isBlank s) = true := by decide
  lines_ok : 1 ≤ startLine ∧ startLine ≤ endLine := by decide
  code_ok : code ≠ "" := by decide
  deriving DecidableEq

/-- `CASTConfig.max_chunk_size`. -/
def maxChunkSize : ℕ := 1200

/-- `CASTConfig.safe_token_limit`. -/
def safeTokenLimit : ℕ := 6000

/-- The content exceeds the character or the token limit. -/
def oversized (content : String) : Bool :=
  maxChunkSize < nonWhitespaceChars content || safeTokenLimit < estimateTokensChunking content

/-! ## Splitting -/

/-- What the splitter reads and changes of a chunk. It copies the rest to every piece. -/
structure UniversalChunk where
  name : String
  content : String
  startLine : ℤ
  endLine : ℤ
  lines_ok : 1 ≤ startLine ∧ startLine ≤ endLine := by decide
  content_ok : content ≠ "" := by decide

/-- `ChunkSplitter.validate_and_split`. -/
structure Splitter where
  validateAndSplit : UniversalChunk → List UniversalChunk
  two_le : ∀ uc, oversized uc.content = true → 2 ≤ (validateAndSplit uc).length
  fits : ∀ uc, ∀ piece ∈ validateAndSplit uc, oversized piece.content = false
  chars : ∀ uc, ∀ piece ∈ validateAndSplit uc, piece.content.toList ⊆ uc.content.toList

theorem nonWhitespaceChars_le (content : String) :
    nonWhitespaceChars content ≤ content.toList.length := List.countP_le_length

theorem estimateTokensChunking_le (text : String) :
    estimateTokensChunking text ≤ max 1 text.toList.length := by
  unfold estimateTokensChunking
  rw [String.length_toList]
  split <;> omega

theorem oversized_iff : oversized content = true ↔
    1200 < nonWhitespaceChars content ∨ 6000 < estimateTokensChunking content := by
  unfold oversized
  rw [Bool.or_eq_true, decide_eq_true_iff, decide_eq_true_iff]
  rfl

theorem length_of_oversized (h : oversized content = true) :
    2 ≤ content.toList.length := by
  have hchars := nonWhitespaceChars_le content
  have htokens := estimateTokensChunking_le content
  rcases oversized_iff.1 h with h | h <;> omega

theorem oversized_of_length_le (h : content.toList.length ≤ 1200) :
    oversized content = false := by
  have hchars := nonWhitespaceChars_le content
  have htokens := estimateTokensChunking_le content
  rw [Bool.eq_false_iff, ne_eq, oversized_iff]
  omega

/-- A splitter that cuts an oversized chunk into its characters. -/
def charSplitter : Splitter where
  validateAndSplit uc :=
    if oversized uc.content then
      uc.content.toList.map fun c =>
        { uc with
          content := String.singleton c
          content_ok := by simp }
    else [uc]
  two_le := by
    intro uc h
    rw [if_pos h, List.length_map]
    exact length_of_oversized h
  fits := by
    intro uc piece h
    split at h
    · obtain ⟨c, -, rfl⟩ := List.mem_map.1 h
      exact oversized_of_length_le (by simp)
    · rename_i hfits
      rw [List.mem_singleton.1 h]
      simpa using hfits
  chars := by
    intro uc piece h
    split at h
    · obtain ⟨c, hc, rfl⟩ := List.mem_map.1 h
      simpa using hc
    · rw [List.mem_singleton.1 h]
      exact List.Subset.refl _

def chunkToUniversal (chunk : Chunk) : UniversalChunk where
  name := chunk.symbol.getD ""
  content := chunk.code
  startLine := chunk.startLine
  endLine := chunk.endLine
  lines_ok := chunk.lines_ok
  content_ok := chunk.code_ok

/-- The chunk type read back from `language_node_type`. `unknown` falls back to the type of
the concept it was given, `block`. -/
def restoredType : ChunkType → ChunkType
  | .unknown => .block
  | t => t

/-- A blank name becomes no symbol. -/
def symbolOf (name : String) : Option String := if isBlank name then none else some name

theorem symbolOf_ok (name : String) : (symbolOf name).all (fun s => !isBlank s) = true := by
  unfold symbolOf
  split
  · rfl
  · rename_i h
    simpa using h

/-- A piece of `chunk`. -/
def universalToChunk (chunk : Chunk) (uc : UniversalChunk) : Chunk where
  id := none
  fileId := chunk.fileId
  filePath := chunk.filePath
  symbol := symbolOf uc.name
  startLine := uc.startLine
  endLine := uc.endLine
  code := uc.content
  chunkType := restoredType chunk.chunkType
  language := chunk.language
  startByte := none
  endByte := none
  metadata := some (chunk.metadata.getD ⟨[], none⟩)
  symbol_ok := symbolOf_ok uc.name
  lines_ok := uc.lines_ok
  code_ok := uc.content_ok

/-- What the guard stores for one chunk. -/
def Splitter.validated (splitter : Splitter) (chunk : Chunk) : List Chunk :=
  if oversized chunk.code then
    (splitter.validateAndSplit (chunkToUniversal chunk)).map (universalToChunk chunk)
  else [chunk]

/-- `_validate_chunk_sizes`. -/
def validateChunkSizes (splitter : Splitter) (chunks : List Chunk) : List Chunk :=
  chunks.flatMap splitter.validated

theorem Splitter.validated_of_fits (splitter : Splitter) {chunk : Chunk}
    (h : oversized chunk.code = false) : splitter.validated chunk = [chunk] := by
  simp [Splitter.validated, h]

variable {splitter : Splitter}

/-- Nothing oversized is stored. -/
theorem oversized_of_mem_validated {chunk c : Chunk}
    (h : c ∈ splitter.validated chunk) : oversized c.code = false := by
  unfold Splitter.validated at h
  split at h
  · obtain ⟨uc, huc, rfl⟩ := List.mem_map.1 h
    exact splitter.fits _ uc huc
  · rename_i hfits
    rw [List.mem_singleton.1 h]
    simpa using hfits

variable {chunks : List Chunk}

theorem oversized_of_mem_validateChunkSizes
    {c : Chunk} (h : c ∈ validateChunkSizes splitter chunks) : oversized c.code = false := by
  obtain ⟨chunk, -, hc⟩ := List.mem_flatMap.1 h
  exact oversized_of_mem_validated hc

/-- Chunks that fit are stored as they are. -/
theorem validateChunkSizes_of_fits (splitter : Splitter) :
    ∀ {chunks : List Chunk}, (∀ c ∈ chunks, oversized c.code = false) →
      validateChunkSizes splitter chunks = chunks
  | [], _ => rfl
  | c :: cs, h => by
    obtain ⟨hc, hcs⟩ := List.forall_mem_cons.1 h
    have ih : validateChunkSizes splitter cs = cs := validateChunkSizes_of_fits splitter hcs
    unfold validateChunkSizes at ih ⊢
    rw [List.flatMap_cons, splitter.validated_of_fits hc, ih, List.singleton_append]

theorem Splitter.length_validated (splitter : Splitter) (chunk : Chunk) :
    1 ≤ (splitter.validated chunk).length ∧
      (oversized chunk.code = true → 2 ≤ (splitter.validated chunk).length) := by
  unfold Splitter.validated
  split
  · rename_i h
    have h2 := splitter.two_le (chunkToUniversal chunk) h
    rw [List.length_map]
    exact ⟨by omega, fun _ => h2⟩
  · rename_i h
    exact ⟨by simp, fun ho => absurd ho h⟩

/-- Splitting makes the list longer, exactly when something is oversized. -/
theorem length_validateChunkSizes (splitter : Splitter) :
    ∀ chunks : List Chunk, chunks.length ≤ (validateChunkSizes splitter chunks).length ∧
      ((∃ c ∈ chunks, oversized c.code = true) →
        chunks.length < (validateChunkSizes splitter chunks).length)
  | [] => ⟨Nat.zero_le _, fun ⟨_, h, _⟩ => nomatch h⟩
  | c :: cs => by
    obtain ⟨hle, hlt⟩ := length_validateChunkSizes splitter cs
    obtain ⟨h1, h2⟩ := splitter.length_validated c
    have hlen : (validateChunkSizes splitter (c :: cs)).length =
        (splitter.validated c).length + (validateChunkSizes splitter cs).length := by
      simp [validateChunkSizes]
    rw [hlen, List.length_cons]
    refine ⟨by omega, ?_⟩
    rintro ⟨c', hc', ho⟩
    rcases List.mem_cons.1 hc' with rfl | hc'
    · have := h2 ho
      omega
    · have := hlt ⟨c', hc', ho⟩
      omega

/-! ## The diff -/

/-- An order in which a set of strings is iterated. -/
structure IterationOrder where
  iter : List String → List String
  perm : ∀ keys, (iter keys).Perm keys

structure ChunkDiff where
  unchanged : List Chunk
  modified : List Chunk
  added : List Chunk
  deleted : List Chunk

/-- The key chunks are compared by. -/
def normalizedCode (chunk : Chunk) : String := normalizeContent chunk.code

/-- The chunks of some contents, content by content. -/
def chunksOf (order : IterationOrder) (chunks : List Chunk) (contents : List String) :
    List Chunk :=
  (order.iter contents).flatMap (valuesOf (groupBy normalizedCode chunks))

def diffChunks (order : IterationOrder) (newChunks existingChunks : List Chunk) : ChunkDiff :=
  let existingContent := keysOf (groupBy normalizedCode existingChunks)
  let newContent := keysOf (groupBy normalizedCode newChunks)
  let unchangedContent := existingContent.filter (· ∈ newContent)
  let deletedContent := existingContent.filter (· ∉ newContent)
  let addedContent := newContent.filter (· ∉ existingContent)
  { unchanged := chunksOf order existingChunks unchangedContent
    modified := []
    added := chunksOf order newChunks addedContent
    deleted := chunksOf order existingChunks deletedContent }

/-- Some chunk of the list has the content. -/
def hasContent (chunks : List Chunk) (content : String) : Bool :=
  chunks.any (normalizedCode · = content)

theorem hasContent_iff :
    hasContent chunks content = true ↔ ∃ c ∈ chunks, normalizedCode c = content := by
  simp [hasContent]

theorem mem_keysOf_iff :
    content ∈ keysOf (groupBy normalizedCode chunks) ↔ hasContent chunks content = true := by
  rw [mem_keysOf_groupBy, hasContent_iff]

/-- The parsed contents that no stored chunk has. -/
def addedKeys (newChunks existingChunks : List Chunk) : List String :=
  (keysOf (groupBy normalizedCode newChunks)).filter
    (· ∉ keysOf (groupBy normalizedCode existingChunks))

theorem diffChunks_added (order : IterationOrder) (new existing : List Chunk) :
    (diffChunks order new existing).added = chunksOf order new (addedKeys new existing) := rfl

theorem nodup_addedKeys (new existing : List Chunk) : (addedKeys new existing).Nodup :=
  (nodup_keysOf_groupBy _ _).filter _

variable {new existing : List Chunk}

theorem mem_addedKeys :
    content ∈ addedKeys new existing ↔
      hasContent new content = true ∧ hasContent existing content = false := by
  simp [addedKeys, mem_keysOf_iff]

theorem chunksOf_perm (order : IterationOrder) (chunks : List Chunk) {contents : List String}
    (h : contents.Nodup) :
    (chunksOf order chunks contents).Perm (chunks.filter (normalizedCode · ∈ contents)) := by
  have hperm := flatMap_valuesOf_perm normalizedCode chunks
    ((order.perm contents).nodup_iff.2 h)
  refine hperm.trans (List.Perm.of_eq (List.filter_congr fun c _ => ?_))
  simp [(order.perm contents).mem_iff]

/-- The diff only adds and deletes. -/
theorem diffChunks_modified (order : IterationOrder) (new existing : List Chunk) :
    (diffChunks order new existing).modified = [] := rfl

/-- The added chunks are the new ones whose content no stored chunk has, in some order. -/
theorem added_perm (order : IterationOrder) (new existing : List Chunk) :
    (diffChunks order new existing).added.Perm
      (new.filter fun c => !hasContent existing (normalizedCode c)) := by
  refine (chunksOf_perm order new (nodup_addedKeys _ _)).trans
    (List.Perm.of_eq (List.filter_congr fun c hc => ?_))
  have hnew : hasContent new (normalizedCode c) = true :=
    hasContent_iff.2 ⟨c, hc, rfl⟩
  simp [mem_addedKeys, hnew]

/-- The deleted chunks are the stored ones whose content no new chunk has. -/
theorem mem_deleted {order : IterationOrder} {c : Chunk} :
    c ∈ (diffChunks order new existing).deleted ↔
      c ∈ existing ∧ hasContent new (normalizedCode c) = false := by
  have hperm := chunksOf_perm order existing
    ((nodup_keysOf_groupBy normalizedCode existing).filter
      (· ∉ keysOf (groupBy normalizedCode new)))
  refine hperm.mem_iff.trans ?_
  rw [List.mem_filter]
  refine and_congr_right fun hc => ?_
  have hex : hasContent existing (normalizedCode c) = true :=
    hasContent_iff.2 ⟨c, hc, rfl⟩
  simp [mem_keysOf_iff, hex]

end ChunkHound
