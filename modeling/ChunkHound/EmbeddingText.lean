import ChunkHound.FileEmbeddings

/-!
# One text for a chunk

The text of a chunk goes to the embedding provider along three paths. `_generate_embeddings`
normalizes the code and puts a header above it (`embeddingText`). `generate_missing_embeddings`
reads the `code` column. The native pipeline takes `embed_text` of the parsed chunk, or its code,
and `Chunk.to_dict` has no `embed_text`.

A header shows : normalizing keeps the characters that are not whitespace, and a header adds a
`#`. So the paths agree on a chunk exactly when there is nothing to put in a header and its code
is normalized already (`sameText_iff`). A parsed chunk has a language.
-/

namespace ChunkHound

/-! ## The three paths -/

/-- `_generate_embeddings` : a chunk with nothing but whitespace is left out. -/
def singleFileText (chunk : Chunk) : Option String :=
  if normalizeContent chunk.code = "" then none else some (embeddingText chunk)

/-- `generate_missing_embeddings` : the stored code, unless `text.strip()` is empty. -/
def missingEmbeddingsText (code : String) : Option String :=
  if isBlank code then none else some code

/-- The values of the enumeration. -/
def ChunkType.value : ChunkType → String
  | .function => "function"
  | .method => "method"
  | .class_ => "class"
  | .interface => "interface"
  | .struct => "struct"
  | .enum => "enum"
  | .namespace_ => "namespace"
  | .constructor => "constructor"
  | .property => "property"
  | .field => "field"
  | .typeAlias => "type_alias"
  | .closure => "closure"
  | .trait => "trait"
  | .script => "script"
  | .object => "object"
  | .companionObject => "companion_object"
  | .dataClass => "data_class"
  | .extensionFunction => "extension_function"
  | .program => "program"
  | .functionBlock => "function_block"
  | .action => "action"
  | .variable_ => "variable"
  | .type => "type"
  | .macro_ => "macro"
  | .comment => "comment"
  | .docstring => "docstring"
  | .header1 => "header_1"
  | .header2 => "header_2"
  | .header3 => "header_3"
  | .header4 => "header_4"
  | .header5 => "header_5"
  | .header6 => "header_6"
  | .paragraph => "paragraph"
  | .codeBlock => "code_block"
  | .table => "table"
  | .keyValue => "key_value"
  | .array => "array"
  | .import_ => "import"
  | .embeddedSql => "embedded_sql"
  | .block => "block"
  | .unknown => "unknown"

inductive DictValue
  | int (n : ℤ)
  | str (s : String)
  | none
  | dict (metadata : Metadata)
  deriving DecidableEq

/-- `Chunk.to_dict`. A value that is missing has no key. -/
def Chunk.toDict (chunk : Chunk) : List (String × DictValue) :=
  [("symbol", chunk.symbol.elim .none .str),
    ("start_line", .int chunk.startLine),
    ("end_line", .int chunk.endLine),
    ("code", .str chunk.code),
    ("chunk_type", .str chunk.chunkType.value),
    ("file_id", .int chunk.fileId),
    ("language", .str chunk.language)] ++
  (chunk.id.map fun n => ("id", DictValue.int n)).toList ++
  (chunk.filePath.map fun path => ("file_path", DictValue.str path)).toList ++
  (chunk.startByte.map fun n => ("start_byte", DictValue.int n)).toList ++
  (chunk.endByte.map fun n => ("end_byte", DictValue.int n)).toList ++
  (chunk.metadata.map fun m => ("metadata", DictValue.dict m)).toList

/-- `opt_str_from_dict` : what is no string counts as absent. -/
def optStrFromDict (dict : List (String × DictValue)) (key : String) : Option String :=
  match dict.lookup key with
  | some (.str s) => some s
  | _ => none

/-- `str_from_dict`. -/
def strFromDict (dict : List (String × DictValue)) (key : String) : String :=
  (optStrFromDict dict key).getD ""

/-- `embed_text.unwrap_or(code)`, of the chunk the native pipeline reads from the dictionary. -/
def nativeText (dict : List (String × DictValue)) : String :=
  (optStrFromDict dict "embed_text").getD (strFromDict dict "code")

/-- The three paths send one text for the chunk, the one whose code is stored. -/
def SameText (chunk : Chunk) : Prop :=
  singleFileText chunk = missingEmbeddingsText chunk.code ∧
    missingEmbeddingsText chunk.code = some (nativeText chunk.toDict)

/-- Nothing to put in a header. -/
def NoContext (chunk : Chunk) : Prop :=
  present chunk.filePath = none ∧ chunk.language = "" ∧
    (chunk.metadata.getD ⟨[], none⟩).constants = [] ∧
    present (chunk.metadata.getD ⟨[], none⟩).ruleTarget = none

/-! ## The native text is the code -/

/-- A value under another key does not answer the look-up. -/
theorem lookup_optional {α : Type} {key k : String} (f : α → DictValue) (hk : key ≠ k)
    (value : Option α) : (value.map fun x => (k, f x)).toList.lookup key = none := by
  cases value with
  | none => rfl
  | some x =>
    have hne : (key == k) = false := beq_eq_false_iff_ne.2 hk
    simp only [Option.map_some, Option.toList_some, List.lookup_cons, hne, List.lookup_nil]

theorem nativeText_toDict (chunk : Chunk) : nativeText chunk.toDict = chunk.code := by
  have hembed : chunk.toDict.lookup "embed_text" = none := by
    unfold Chunk.toDict
    simp only [List.lookup_append, lookup_optional, ne_eq, String.reduceEq, not_false_eq_true,
      Option.or_none]
    rfl
  have hcode : chunk.toDict.lookup "code" = some (.str chunk.code) := rfl
  simp only [nativeText, optStrFromDict, strFromDict, hembed, hcode, Option.getD_none,
    Option.getD_some]

/-! ## A header shows -/

theorem filter_dropWhile_not (p : Char → Bool) : ∀ cs : List Char,
    (cs.dropWhile p).filter (!p ·) = cs.filter (!p ·)
  | [] => rfl
  | c :: cs => by
    by_cases hc : p c = true
    · rw [List.dropWhile_cons_of_pos hc, filter_dropWhile_not p cs,
        List.filter_cons_of_neg (by simp [hc])]
    · rw [List.dropWhile_cons_of_neg hc]

theorem filter_strip (cs : List Char) :
    (strip cs).filter (!isSpace ·) = cs.filter (!isSpace ·) := by
  unfold strip List.rdropWhile
  rw [List.filter_reverse, filter_dropWhile_not, List.filter_reverse, List.reverse_reverse,
    filter_dropWhile_not]

theorem filter_unixLines (cs : List Char) :
    (unixLines cs).filter (!isSpace ·) = cs.filter (!isSpace ·) := by
  have hr : isSpace '\r' = true := rfl
  have hn : isSpace '\n' = true := rfl
  fun_induction unixLines cs with
  | case1 => rfl
  | case2 cs ih => simp [ih, hr, hn]
  | case3 cs _ ih => simp [ih, hr, hn]
  | case4 c cs _ _ ih => simp [List.filter_cons, ih]

/-- Normalizing drops and adds whitespace only. -/
theorem nonWhitespaceChars_normalizeContent (content : String) :
    nonWhitespaceChars (normalizeContent content) = nonWhitespaceChars content := by
  unfold nonWhitespaceChars normalizeContent
  rw [String.toList_ofList, List.countP_eq_length_filter, List.countP_eq_length_filter,
    filter_strip, filter_unixLines]

theorem nonWhitespaceChars_append (s t : String) :
    nonWhitespaceChars (s ++ t) = nonWhitespaceChars s + nonWhitespaceChars t := by
  simp [nonWhitespaceChars]

/-- The header starts with a `#`. -/
theorem lt_nonWhitespaceChars_format (code : String) {filePath language : Option String}
    {constants : List (String × String)} {ruleTarget : Option String}
    (h : ¬((present filePath).isNone ∧ (present language).isNone ∧ constants = [] ∧
      (present ruleTarget).isNone)) :
    nonWhitespaceChars code < nonWhitespaceChars
      (formatChunkForEmbedding code filePath language constants ruleTarget) := by
  have hhash : nonWhitespaceChars "# " = 1 := by decide
  have hbare : nonWhitespaceChars "#" = 1 := by decide
  have hparen : nonWhitespaceChars "# (" = 2 := by decide
  rw [formatChunkForEmbedding, if_neg h]
  by_cases hc : constants = []
  · simp only [if_pos hc]
    cases present filePath <;> cases present language <;> cases present ruleTarget <;>
      simp only [nonWhitespaceChars_append, toString, hhash, hbare, hparen] <;> omega
  · simp only [if_neg hc]
    cases present filePath <;> cases present language <;> cases present ruleTarget <;>
      simp only [nonWhitespaceChars_append, toString, hhash, hbare, hparen] <;> omega

theorem noContext_iff (chunk : Chunk) :
    ((present chunk.filePath).isNone ∧ (present (some chunk.language)).isNone ∧
      (chunk.metadata.getD ⟨[], none⟩).constants = [] ∧
      (present (chunk.metadata.getD ⟨[], none⟩).ruleTarget).isNone) ↔ NoContext chunk := by
  have hlanguage : present (some chunk.language) = none ↔ chunk.language = "" := by
    simp [present]
  simp only [NoContext, Option.isNone_iff_eq_none, hlanguage]

theorem embeddingText_of_noContext {chunk : Chunk} (h : NoContext chunk) :
    embeddingText chunk = normalizeContent chunk.code :=
  if_pos ((noContext_iff chunk).2 h)

theorem lt_nonWhitespaceChars_embeddingText {chunk : Chunk} (h : ¬NoContext chunk) :
    nonWhitespaceChars chunk.code < nonWhitespaceChars (embeddingText chunk) := by
  rw [← nonWhitespaceChars_normalizeContent chunk.code]
  exact lt_nonWhitespaceChars_format _ fun hempty => h ((noContext_iff chunk).1 hempty)

/-- The paths agree when there is no header and nothing to normalize. -/
theorem sameText_iff (chunk : Chunk) :
    SameText chunk ↔ NoContext chunk ∧ normalizeContent chunk.code = chunk.code := by
  unfold SameText
  rw [nativeText_toDict, missingEmbeddingsText, singleFileText]
  by_cases hblank : isBlank chunk.code = true
  · -- only the native pipeline sends a blank chunk
    have hcode := normalizeContent_eq_empty.2 hblank
    rw [if_pos hblank, hcode]
    exact ⟨fun h => (nomatch h.2), fun h => absurd h.2.symm chunk.code_ok⟩
  · have hcode : normalizeContent chunk.code ≠ "" := fun h =>
      hblank (normalizeContent_eq_empty.1 h)
    rw [if_neg hblank, if_neg hcode]
    constructor
    · rintro ⟨htext, -⟩
      have htext := Option.some.inj htext
      have hempty : NoContext chunk := by
        by_contra h
        have hlt := lt_nonWhitespaceChars_embeddingText h
        rw [htext] at hlt
        exact Nat.lt_irrefl _ hlt
      exact ⟨hempty, embeddingText_of_noContext hempty ▸ htext⟩
    · rintro ⟨hempty, htext⟩
      rw [embeddingText_of_noContext hempty, htext]
      exact ⟨rfl, rfl⟩

/-- `x = 1` of a Python file. -/
theorem header_shows : ¬SameText
    { id := none, fileId := 1, filePath := some "a.py", symbol := some "x", startLine := 1,
      endLine := 1, code := "x = 1", chunkType := .variable_, language := "python",
      startByte := none, endByte := none, metadata := none } := by
  have hlen : nonWhitespaceChars "# a.py (python)\nx = 1" ≠ nonWhitespaceChars "x = 1" := by decide
  rintro ⟨htext, -⟩
  exact hlen (congrArg nonWhitespaceChars (Option.some.inj htext))
end ChunkHound
