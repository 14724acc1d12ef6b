import ChunkHound.GitDiffParser

/-!
# Templated YAML made parseable

`sanitize_helm_templates` of `yaml_template_sanitizer.py`. Template lines become comments, templated
values become placeholders, and complex keys become one quoted key. A text with no template in it
is returned as it is (`sanitize_untemplated`), and any other has its lines moved : a region of a
complex key becomes one line, and a templated value two or three.

The patterns are written out as the searches they make. `.` does not match a newline, which no line
has in it once its end is split off.
-/

namespace ChunkHound.Yaml

open Cast (Text)
open GitDiff (splitLines afterText)

/-! ## Lines -/

def isIndent (c : Char) : Bool := c = ' ' || c = '\t'

/-- `_split_indent`. -/
def splitIndent (text : Text) : Text × Text := (text.takeWhile isIndent, text.dropWhile isIndent)

/-- `_split_newline`. -/
def splitNewline (line : Text) : Text × Text :=
  if ['\r', '\n'] <:+ line then (line.dropLast.dropLast, ['\r', '\n'])
  else if ['\n'] <:+ line then (line.dropLast, ['\n'])
  else if ['\r'] <:+ line then (line.dropLast, ['\r'])
  else (line, [])

/-- `str.rstrip`. -/
def rstrip (s : Text) : Text := s.rdropWhile isSpace

/-- `s.split(":", 1)[0]` -/
def beforeColon (s : Text) : Text := s.takeWhile (· ≠ ':')

/-- `s.split(":", 1)[1]`, where there is a colon. -/
def afterColon (s : Text) : Text := (s.dropWhile (· ≠ ':')).tail

def contains (text : Text) (part : String) : Bool := part.toList <:+: text

def startsWith (text : Text) (part : String) : Bool := part.toList <+: text

def endsWith (text : Text) (part : String) : Bool := part.toList <:+ text

/-! ## Rewrites -/

/-- A line that was rewritten. -/
structure TemplateRewrite where
  line : ℕ
  indent : ℕ
  kind : String
  snippet : Text
  deriving DecidableEq, Repr

/-- The sanitized text and what was done. -/
structure SanitizedYaml where
  text : Text
  rewrites : List TemplateRewrite := []
  preSkip : Bool := false
  preSkipReason : Option String := none
  deriving DecidableEq, Repr

/-- `_shorten`. -/
def shorten (snippet : Text) : Text :=
  let snippet := strip snippet
  if snippet.length ≤ 60 then snippet else snippet.take 57 ++ "...".toList

/-- `_extract_template_body`. The second ending is never met, since it ends with the first. -/
def extractTemplateBody (stripped : Text) : Text :=
  let body := stripped.drop 2
  let body := strip (if startsWith body "-" then body.drop 1 else body)
  if endsWith body "\x7d\x7d" then rstrip (body.take (body.length - 2))
  else if endsWith body "-\x7d\x7d" then rstrip (body.take (body.length - 3))
  else body

def placeholderBlock : Text := "__CH_TPL_BLOCK__".toList
def placeholderItem : Text := "__CH_TPL_ITEM__".toList
def placeholderMapKey : Text := "__CH_TPL_MAP__".toList

/-- `_BLOCK_TEMPLATE_HINTS`. -/
def blockTemplateHints : List String :=
  ["nindent", "toyaml", "toYaml", " indent", "indent(", "tplvalues.render"]

/-- `_CTRL_KEYWORDS`. -/
def ctrlKeywords : List String :=
  ["if", "else if", "else", "with", "range", "end", "block", "define"]

/-- `str.lower`, as far as an English word can tell. The Kelvin sign is the one other character
that has a lower case within them. -/
def lowerChar (c : Char) : Char := if c.toNat = 0x212A then 'k' else c.toLower

/-- `_rewrite_template_only_line` : what it records, and the line without its indent. -/
def rewriteTemplateOnlyLine (stripped newline : Text) : String × Text :=
  let body := extractTemplateBody stripped
  if ctrlKeywords.any (startsWith (body.map lowerChar)) then
    ("control", "# CH_TPL_CTRL: ".toList ++ body ++ newline)
  else if contains body ":=" then
    ("assignment", "# CH_TPL_SET: ".toList ++ body ++ newline)
  else
    ("template", "# CH_TPL_INCLUDE: ".toList ++ body ++ newline)

/-- `nl.join(lines) + newline` for a templated value that expands to a block. -/
def inlineBlock (indent key note newline : Text) : Text :=
  let nl := if newline = [] then ['\n'] else newline
  let childIndent := indent ++ "  ".toList
  nl.intercalate
    ([indent ++ key ++ [':'],
      childIndent ++ placeholderMapKey ++ ": \"".toList ++ placeholderBlock ++ ['"']] ++
    if note = [] then [] else [childIndent ++ "# CH_TPL_INLINE: ".toList ++ note]) ++ newline

/-- The line of a templated value, and its note on the next line. -/
def inlineValue (indent key note newline : Text) : Text :=
  let spacing := if endsWith key " " then [] else [' ']
  let result := indent ++ key ++ [':'] ++ spacing ++ ['"'] ++ placeholderBlock ++ ['"'] ++ newline
  if note = [] then result
  else result ++ indent ++ "  ".toList ++ "# CH_TPL_INLINE: ".toList ++ note ++ newline

/-- `_rewrite_line` from its test for a sequence item on. -/
def rewriteItem (stripped indent newline : Text) : Option String × Text :=
  match stripped.dropWhile isSpace with
  | '-' :: remainder =>
    if startsWith (remainder.dropWhile isSpace) "\x7b\x7b" then
      (some "seq_item", indent ++ "- \"".toList ++ placeholderItem ++ ['"'] ++ newline)
    else (none, indent ++ stripped ++ newline)
  | _ => (none, indent ++ stripped ++ newline)

/-- `_rewrite_line` : the kind it records, with the stripped line, and the new line. -/
def rewriteLine (stripped indent newline : Text) : Option String × Text :=
  if stripped = [] then (none, indent ++ newline)
  else if startsWith stripped "\x7b\x7b" then
    let (kind, line) := rewriteTemplateOnlyLine stripped newline
    (some kind, indent ++ line)
  else if ':' ∈ stripped ∧ contains (afterColon stripped) "\x7b\x7b" then
    let key := rstrip (beforeColon stripped)
    let note := strip (afterColon stripped)
    if blockTemplateHints.any (contains note) then
      (some "inline_map", inlineBlock indent key note newline)
    else (some "inline_map", inlineValue indent key note newline)
  else rewriteItem stripped indent newline

/-- `_starts_block_scalar`. -/
def startsBlockScalar (line indent : Text) : Bool :=
  let stripped := line.drop indent.length
  if ':' ∈ stripped then
    let suffix := strip (afterColon stripped)
    startsWith suffix "|" || startsWith suffix ">"
  else false

/-! ## Complex and templated keys -/

/-- What `^\s*\?\s*.+?:\s*(.*)$` captures behind the question mark. The key is one character at
least, a space where there is nothing else. -/
def complexKeyRest (text : Text) : Option Text :=
  match text.dropWhile isSpace with
  | [] => none
  | c :: rest =>
    if ':' ∈ rest then some ((afterColon rest).dropWhile isSpace)
    else if c = ':' ∧ rest.length + 1 < text.length then some (rest.dropWhile isSpace)
    else none

/-- `_COMPLEX_KEY_SINGLE_RE.match` : the indent and the rest. -/
def complexKeySingle (core : Text) : Option (Text × Text) :=
  match core.dropWhile isSpace with
  | '?' :: text => (complexKeyRest text).map fun rest => (core.takeWhile isSpace, rest)
  | _ => none

/-- The lines below a lone question mark : what the colon line has behind its colon, its end, and
the lines after it. -/
def complexKeyLines (baseIndent : ℕ) : List Text → Option (Text × Text × List Text)
  | [] => none
  | line :: lines =>
    let (core, newline) := splitNewline line
    let (indent, stripped) := splitIndent core
    if indent.length ≤ baseIndent then
      if ':' ∈ stripped then some (afterColon core, newline, lines) else none
    else complexKeyLines baseIndent lines

/-- What follows the first quote behind which there are spaces and a colon, of a key that begins
with a template. -/
def afterQuotedKey : Text → Option Text
  | [] => none
  | c :: s =>
    match (afterText "\x7d\x7d\"".toList (c :: s)).map (·.dropWhile isSpace) with
    | some (':' :: rest) => some rest
    | _ => afterQuotedKey s

def quotedKeyAt (s : Text) : Option Text := (afterText "\"\x7b\x7b".toList s).bind afterQuotedKey

/-- `_TPL_QUOTED_KEY_RE.search`. -/
def hasQuotedKey (core : Text) : Bool := core.tails.any fun s => (quotedKeyAt s).isSome

/-- `_TPL_QUOTED_KEY_RE.sub`, over a text of at most this length. -/
def subQuotedKeys : ℕ → Text → Text
  | 0, s => s
  | _, [] => []
  | n + 1, c :: s =>
    match quotedKeyAt (c :: s) with
    | some rest => "\"__CH_TPL_KEY__\":".toList ++ subQuotedKeys n rest
    | none => c :: subQuotedKeys n s

/-- The line with its templated keys replaced. -/
def salvageLine (line : Text) : Text :=
  let (core, newline) := splitNewline line
  if hasQuotedKey core then
    let newCore := subQuotedKeys core.length core
    if newline <:+ core then newCore else newCore ++ newline
  else line

/-- The loop over the lines that replaces complex and templated keys, over at most this many. -/
def salvage : ℕ → List Text → List Text
  | 0, lines => lines
  | _, [] => []
  | n + 1, line :: lines =>
    let (core, newline) := splitNewline line
    let (indent, stripped) := splitIndent core
    match complexKeySingle core with
    | some (indent, rest) =>
      (indent ++ "\"__CH_TPL_CKEY__\": ".toList ++ rest ++ newline) :: salvage n lines
    | none =>
      match if stripped = ['?'] then complexKeyLines indent.length lines else none with
      | some (after, newline, lines) =>
        (indent ++ "\"__CH_TPL_CKEY__\":".toList ++ after ++ newline) :: salvage n lines
      | none => salvageLine line :: salvage n lines

/-! ## The scan -/

/-- What the scan keeps between lines. -/
structure ScanState where
  sanitized : List Text := []
  rewrites : List TemplateRewrite := []
  inBlockScalar : Bool := false
  blockScalarIndent : ℕ := 0
  inTemplateComment : Bool := false
  templatedLinesInBlock : ℕ := 0

namespace ScanState

/-- `rewrites.append`. -/
def record (st : ScanState) (line indent : ℕ) (kind : String) (snippet : Text) : ScanState :=
  { st with rewrites := st.rewrites ++ [⟨line, indent, kind, shorten snippet⟩] }

def emit (st : ScanState) (line : Text) : ScanState :=
  { st with sanitized := st.sanitized ++ [line] }

/-- A line inside a template comment. -/
def commentLine (st : ScanState) (idx : ℕ) (indent stripped newline : Text) : ScanState :=
  let st :=
    if stripped = [] then st.emit (indent ++ newline)
    else (st.record idx indent.length "comment_block" stripped).emit
      (indent ++ "# ".toList ++ stripped ++ newline)
  if contains stripped "*/" then { st with inTemplateComment := false } else st

/-- A template line inside a block scalar. -/
def blockDirective (st : ScanState) (idx : ℕ) (indent stripped newline : Text) : ScanState :=
  let body := extractTemplateBody stripped
  let st := (st.record idx (indent.length + 2) "block_directive" body).emit
    (indent ++ "  # CH_TPL_BLOCK: ".toList ++ body ++ newline)
  { st with templatedLinesInBlock := st.templatedLinesInBlock + 1 }

/-- Any other line. -/
def plainLine (st : ScanState) (idx : ℕ) (indent stripped newline : Text) : ScanState :=
  let templateBody := if startsWith stripped "\x7b\x7b" then extractTemplateBody stripped else []
  let (kind, rewritten) := rewriteLine stripped indent newline
  let st := (match kind with
    | some kind => st.record idx indent.length kind stripped
    | none => st).emit rewritten
  let st :=
    if startsWith templateBody "/*" && !contains templateBody "*/" then
      { st with inTemplateComment := true }
    else st
  if startsBlockScalar rewritten indent then
    { st with inBlockScalar := true, blockScalarIndent := indent.length }
  else st

/-- The body of the loop. -/
def scanLine (st : ScanState) (idx : ℕ) (original : Text) : ScanState :=
  let (core, newline) := splitNewline original
  let (indent, stripped) := splitIndent core
  if st.inTemplateComment && !startsWith stripped "\x7b\x7b" then
    st.commentLine idx indent stripped newline
  else if st.inBlockScalar && startsWith stripped "\x7b\x7b" then
    st.blockDirective idx indent stripped newline
  else if st.inBlockScalar && stripped ≠ [] && st.blockScalarIndent < indent.length then
    st.emit original
  else
    { st with inBlockScalar := false }.plainLine idx indent stripped newline

end ScanState

/-- A line whose key is quoted and holds a template. -/
def templatedKey (line : Text) : Bool :=
  let s := strip line
  let keyPart := strip (beforeColon s)
  let quote := fun c : Option Char => c = some '\'' || c = some '"'
  ':' ∈ s && quote keyPart.head? && quote keyPart.getLast? &&
    contains keyPart "\x7b\x7b" && contains keyPart "\x7d\x7d"

/-- `_NON_YAML_MARKERS`. -/
def nonYamlMarkers : List String := ["<?xml", "server \x7b", "%%httpGet"]

/-- The passes over a text with a template in it. -/
def sanitizeLines (lines : List Text) : SanitizedYaml :=
  let lines := salvage lines.length lines
  let start : ScanState := {}
  let st := (lines.zipIdx 1).foldl (fun st line => st.scanLine line.2 line.1) start
  if 12 < st.templatedLinesInBlock then
    { text := st.sanitized.flatten, rewrites := st.rewrites, preSkip := true,
      preSkipReason := some "block_scalar_template_heavy" }
  else { text := st.sanitized.flatten, rewrites := st.rewrites }

/-- Texts without templates, and fragments, stay. -/
def sanitizeHelmTemplates (content : Text) : SanitizedYaml :=
  if content = [] then { text := content }
  else if nonYamlMarkers.any (contains content) then
    { text := content, preSkip := true, preSkipReason := some "non_yaml_fragment" }
  else if !contains content "\x7b\x7b" && !contains content "\x7d\x7d" then { text := content }
  else if (splitLines content).any templatedKey then
    { text := content, preSkip := true, preSkipReason := some "templated_key" }
  else sanitizeLines (splitLines content)

/-- A text without a template keeps its lines. -/
theorem sanitize_untemplated {content : Text} (hopen : contains content "\x7b\x7b" = false)
    (hclose : contains content "\x7d\x7d" = false) :
    (sanitizeHelmTemplates content).text = content ∧
      (sanitizeHelmTemplates content).rewrites = [] := by
  rw [sanitizeHelmTemplates, hopen, hclose]
  split
  · exact ⟨rfl, rfl⟩
  · split <;> exact ⟨rfl, rfl⟩

end ChunkHound.Yaml
