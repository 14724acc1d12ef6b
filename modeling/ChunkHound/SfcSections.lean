import ChunkHound.ByteOffsets
import ChunkHound.SplitPieces

/-!
# The sections of single-file components

`SvelteMapping.extract_sections` and `VueMapping.extract_sections_ts`, and the lines that the
Svelte and the Vue parser give the chunks of a section. Svelte sections are found by regular
expressions, from an opening tag to the first closing tag behind it, and the template is what is
left. Vue sections are nodes of a tree, whose offsets count bytes and are used for characters.

`sections_exact_iff` says when sections and the lines of their chunks are exact : for every Svelte
text, and for the Vue sections with no character before their end that takes more than a byte.
-/

namespace ChunkHound.Sfc

open Cast (Text CASTConfig Rounding encode validateAndSplit)

/-! ## Places -/

/-- The line of a place, from one. -/
def lineAt (text : Text) (place : ℕ) : ℕ := (text.take place).count '\n' + 1

/-- `text[start:stop]` -/
def slice (text : Text) (start stop : ℕ) : Text := (text.take stop).drop start

theorem lineAt_append_right (pre text : Text) (place : ℕ) :
    lineAt (pre ++ text) (pre.length + place) + 1 = lineAt pre pre.length + lineAt text place := by
  rw [lineAt, lineAt, lineAt, List.take_length_add_append, List.count_append, List.take_length]
  omega

theorem lineAt_append_left {text : Text} {place : ℕ} (h : place ≤ text.length) (post : Text) :
    lineAt (text ++ post) place = lineAt text place := by
  rw [lineAt, lineAt, List.take_append_of_le_length h]

/-- A line of a part, and the line of its place in the whole. -/
theorem lineAt_part (pre : Text) {text : Text} (post : Text) {place : ℕ}
    (h : place ≤ text.length) :
    lineAt (pre ++ text ++ post) (pre.length + place) + 1 =
      lineAt (pre ++ text ++ post) pre.length + lineAt text place := by
  rw [List.append_assoc, lineAt_append_right, lineAt_append_left h,
    lineAt_append_left (Nat.le_refl _)]

/-! ## Tags -/

/-- The lower case of a character as far as tag names can tell. The long s and the i with and
without a dot match too. -/
def foldCase (c : Char) : Char :=
  if c.toNat = 0x17F then 's' else if c.toNat = 0x130 ∨ c.toNat = 0x131 then 'i' else c.toLower

/-- The text is this one without regard to case. -/
def matchesTag (pattern text : Text) : Bool := text.map foldCase = pattern

/-- A match of `<name\s*([^>]*)>(.*?)</name>`. -/
structure Match where
  start : ℕ
  opening : Text
  attrs : Text
  text : Text
  closing : Text
  deriving DecidableEq

/-- The end of the match. -/
def Match.stop (m : Match) : ℕ :=
  m.start + m.opening.length + m.text.length + m.closing.length

/-- The text in front of the first closing tag, and the tag. -/
def splitClosing (closing : Text) : Text → Option (Text × Text)
  | [] => none
  | c :: s =>
    if matchesTag closing ((c :: s).take closing.length) then
      some ([], (c :: s).take closing.length)
    else (splitClosing closing s).map fun split => (c :: split.1, split.2)

/-- The match at a place, if there is one. -/
def matchAt (name : Text) (place : ℕ) (s : Text) : Option Match :=
  let head := s.take (name.length + 1)
  let inner := (s.drop (name.length + 1)).takeWhile (· ≠ '>')
  if matchesTag ('<' :: name) head then
    match (s.drop (name.length + 1)).dropWhile (· ≠ '>') with
    | [] => none
    | _ :: body =>
      (splitClosing ("</".toList ++ name ++ ['>']) body).map fun split =>
        ⟨place, head ++ inner ++ ['>'], strip inner, split.1, split.2⟩
  else none

/-- `finditer`, over a text of at most this length. -/
def findMatches (name : Text) : ℕ → ℕ → Text → List Match
  | 0, _, _ => []
  | _, _, [] => []
  | n + 1, place, c :: s =>
    match matchAt name place (c :: s) with
    | some m => m :: findMatches name n m.stop ((c :: s).drop (m.stop - place))
    | none => findMatches name n (place + 1) s

def scriptName : Text := "script".toList
def styleName : Text := "style".toList

/-! ## Svelte sections -/

/-- A section : its attributes, its text and its line. -/
structure Part where
  attrs : Text
  text : Text
  startLine : ℕ
  deriving DecidableEq

/-- The parts of a file, by kind. -/
structure Sections where
  script : List Part
  template : List Part
  style : List Part
  deriving DecidableEq

def Match.part (content : Text) (m : Match) : Part := ⟨m.attrs, m.text, lineAt content m.start⟩

def matchesOf (name content : Text) : List Match := findMatches name content.length 0 content

/-- The order of pairs. -/
def RangeLe (a b : ℕ × ℕ) : Prop := a.1 < b.1 ∨ a.1 = b.1 ∧ a.2 ≤ b.2

instance : DecidableRel RangeLe := fun a b =>
  inferInstanceAs (Decidable (a.1 < b.1 ∨ a.1 = b.1 ∧ a.2 ≤ b.2))

instance : Std.Total RangeLe := ⟨fun a b => by unfold RangeLe; omega⟩

instance : IsTrans (ℕ × ℕ) RangeLe := ⟨fun a b c hab hbc => by unfold RangeLe at *; omega⟩

/-- The ranges to exclude from the template, sorted. -/
def excludedRanges (content : Text) : List (ℕ × ℕ) :=
  ((matchesOf scriptName content ++ matchesOf styleName content).map fun m =>
    (m.start, m.stop)).insertionSort RangeLe

/-- The spans between the ranges, from `last_end` on. -/
def templateSpans (length : ℕ) : ℕ → List (ℕ × ℕ) → List (ℕ × ℕ)
  | last, [] => if last < length then [(last, length)] else []
  | last, range :: ranges =>
    (if last < range.1 then [(last, range.1)] else []) ++ templateSpans length range.2 ranges

/-- The template part of a span. -/
def spanPart (content : Text) (span : ℕ × ℕ) : Part :=
  ⟨[], slice content span.1 span.2, lineAt content span.1⟩

/-- The spans that are not blank, or the whole text if nothing is excluded. -/
def templateParts (content : Text) (ranges : List (ℕ × ℕ)) : List Part :=
  if ranges = [] then if strip content = [] then [] else [⟨[], content, 1⟩]
  else ((templateSpans content.length 0 ranges).map (spanPart content)).filter
    fun part => strip part.text ≠ []

/-- `SvelteMapping.extract_sections`. -/
def extractSections (content : Text) : Sections where
  script := (matchesOf scriptName content).map (Match.part content)
  template := templateParts content (excludedRanges content)
  style := (matchesOf styleName content).map (Match.part content)

/-! ## Vue sections -/

/-- A node of the tree, by the places of its first character and behind its last. -/
structure Node where
  start : ℕ
  stop : ℕ

namespace Node

variable (content : Text) (node : Node)

def startByte : ℕ := (encode (content.take node.start)).length
def endByte : ℕ := (encode (content.take node.stop)).length
def startRow : ℕ := (content.take node.start).count '\n'
def endRow : ℕ := (content.take node.stop).count '\n'

end Node

structure StartTag where
  node : Node
  attributes : List Node

/-- The children of the root that are sections, with the children they are read by. -/
inductive Element
  | script (startTag : Option StartTag) (rawText : Option Node)
  | template (startTag : Option StartTag) (endTag : Option Node)
  | style (startTag : Option StartTag) (rawText : Option Node)

/-- `source[node.start_byte : node.end_byte]` -/
def byteSlice (content : Text) (node : Node) : Text :=
  slice content (node.startByte content) (node.endByte content)

/-- `_extract_attributes`. -/
def extractAttributes (content : Text) : Option StartTag → Text
  | none => []
  | some tag => [' '].intercalate (tag.attributes.map (byteSlice content))

/-- The section of a raw text. -/
def rawPart (content : Text) (startTag : Option StartTag) (rawText : Option Node) : Option Part :=
  rawText.map fun raw =>
    ⟨extractAttributes content startTag, byteSlice content raw, raw.startRow content + 1⟩

/-- The section between two tags. -/
def templatePart (content : Text) : Option StartTag → Option Node → Option Part
  | some tag, some endTag =>
    some ⟨extractAttributes content (some tag),
      slice content (tag.node.endByte content) (endTag.startByte content),
      tag.node.endRow content + 1⟩
  | _, _ => none

/-- The places between which the text of an element stands. -/
def Element.inner : Element → Option (ℕ × ℕ)
  | .script _ rawText => rawText.map fun raw => (raw.start, raw.stop)
  | .template (some tag) (some endTag) => some (tag.node.stop, endTag.start)
  | .template _ _ => none
  | .style _ rawText => rawText.map fun raw => (raw.start, raw.stop)

/-- The section of an element. -/
def Element.part (content : Text) : Element → Option Part
  | .script startTag rawText => rawPart content startTag rawText
  | .template startTag endTag => templatePart content startTag endTag
  | .style startTag rawText => rawPart content startTag rawText

/-- `extract_sections_ts`, of the children of the root. -/
def extractSectionsTs (content : Text) (children : List Element) : Sections where
  script := children.filterMap fun e => match e with
    | .script .. => e.part content
    | _ => none
  template := children.filterMap fun e => match e with
    | .template .. => e.part content
    | _ => none
  style := children.filterMap fun e => match e with
    | .style .. => e.part content
    | _ => none

/-! ## Chunks -/

/-- A chunk of a section, with its lines. -/
structure Chunk where
  startLine : ℤ
  endLine : ℤ
  code : Text
  deriving DecidableEq

/-- Moves a chunk to the lines of the file. -/
def Chunk.shift (c : Chunk) (lines : ℤ) : Chunk :=
  { c with startLine := c.startLine + lines, endLine := c.endLine + lines }

/-- A last line break starts no line. -/
def computeEndLine (content : Text) (startLine : ℤ) : ℤ :=
  let newlines : ℤ := content.count '\n'
  max startLine (if content.getLast? = some '\n' then startLine + newlines - 1
    else startLine + newlines)

/-- What the parsers are given : the parser of scripts, the one of templates, which may be missing
and may raise, and the sizes of chunks. -/
structure SfcParser where
  parseScript : Text → List Chunk
  parseTemplate : Text → Option (List Chunk)
  rounding : Rounding
  cast : CASTConfig
  limit_pos : 1 ≤ cast.safeTokenLimit
  size_nonneg : 0 ≤ cast.maxChunkSize

namespace SfcParser

variable (parser : SfcParser)

/-- A section as one block of text. -/
def textBlock (name : String) (part : Part) : Cast.UniversalChunk where
  concept := .block
  name := name
  content := part.text
  startLine := part.startLine
  endLine := computeEndLine part.text part.startLine
  metadata := ⟨false, none, none, none⟩
  languageNodeType := name

/-- The pieces of a block of text, none if it is blank. -/
def blockChunks (name : String) (part : Part) : List Chunk :=
  if strip part.text = [] then []
  else ((validateAndSplit parser.rounding.proportion parser.cast (textBlock name part)).getD []).map
    fun uc => ⟨uc.startLine, uc.endLine, uc.content⟩

/-- Svelte counts the lines of a script from its tag. -/
def svelteScript (part : Part) : List Chunk :=
  (parser.parseScript part.text).map (·.shift (part.startLine - 1))

/-- `SvelteParser.parse_content`. -/
def parseSvelte (content : Text) : List Chunk :=
  let sections := extractSections content
  sections.script.flatMap parser.svelteScript ++
    sections.template.flatMap (parser.blockChunks "svelte_template") ++
      sections.style.flatMap (parser.blockChunks "svelte_style")

/-- Vue shifts by one line more. -/
def vueScript (part : Part) : List Chunk :=
  (parser.parseScript part.text).map (·.shift part.startLine)

/-- The template inside the tags it is parsed with. -/
def wrapped (text : Text) : Text := "<template>\n".toList ++ text ++ "\n</template>".toList

/-- `_parse_template_content`. -/
def parseTemplateContent (part : Part) : List Chunk :=
  ((parser.parseTemplate (wrapped part.text)).getD []).map (·.shift (part.startLine - 2))

/-- A template without chunks is one block. -/
def vueTemplate (part : Part) : List Chunk :=
  if strip part.text = [] then []
  else
    let chunks := parser.parseTemplateContent part
    if chunks ≠ [] then chunks else parser.blockChunks "vue_template" part

/-- `VueParser.parse_content`. The cross references change no line. -/
def parseVue (content : Text) (children : List Element) : List Chunk :=
  let sections := extractSectionsTs content children
  sections.style.flatMap (parser.blockChunks "vue_style") ++
    sections.script.flatMap parser.vueScript ++ sections.template.flatMap parser.vueTemplate

end SfcParser

/-! ## What a match is -/

/-- The match is a text from an opening tag, which ends with its first `>`, to the first closing
tag. -/
structure Match.Tagged (name : Text) (m : Match) : Prop where
  opening : ∃ head inner, m.opening = head ++ inner ++ ['>'] ∧
    matchesTag ('<' :: name) head = true ∧ '>' ∉ inner
  closing : matchesTag ("</".toList ++ name ++ ['>']) m.closing = true
  first : ∀ k < m.text.length, matchesTag ("</".toList ++ name ++ ['>'])
    (((m.text ++ m.closing).drop k).take ("</".toList ++ name ++ ['>']).length) = false

/-- All of a match. -/
def Match.whole (m : Match) : Text := m.opening ++ m.text ++ m.closing

theorem Match.length_whole (m : Match) : m.start + m.whole.length = m.stop := by
  rw [Match.whole, Match.stop, List.length_append, List.length_append]
  omega

theorem Match.Tagged.length_pos {name : Text} {m : Match} (h : m.Tagged name) :
    0 < m.whole.length := by
  obtain ⟨head, inner, hopening, -⟩ := h.opening
  rw [Match.whole, hopening]
  simp only [List.length_append, List.length_singleton]
  omega

/-- The text in front of a closing tag has none of its own. -/
theorem splitClosing_spec {closing : Text} : ∀ {s text tag : Text},
    splitClosing closing s = some (text, tag) →
      ∃ post, s = text ++ tag ++ post ∧ matchesTag closing tag = true ∧
        tag.length = closing.length ∧ ∀ k < text.length,
          matchesTag closing (((text ++ tag).drop k).take closing.length) = false
  | [], _, _, h => absurd h nofun
  | c :: s, text, tag, h => by
    rw [splitClosing] at h
    split at h
    · rename_i hmatch
      obtain ⟨rfl, rfl⟩ := Prod.mk.inj (Option.some.inj h)
      refine ⟨(c :: s).drop closing.length, (List.take_append_drop _ _).symm, hmatch, ?_, ?_⟩
      · have hlength := congrArg List.length (of_decide_eq_true hmatch)
        rwa [List.length_map] at hlength
      · exact fun k hk => absurd hk (Nat.not_lt_zero k)
    · rename_i hmatch
      obtain ⟨⟨text', tag'⟩, hsplit, heq⟩ := Option.map_eq_some_iff.1 h
      obtain ⟨rfl, rfl⟩ := Prod.mk.inj heq
      obtain ⟨post, rfl, htag, hlength, hfirst⟩ := splitClosing_spec hsplit
      refine ⟨post, rfl, htag, hlength, fun k hk => ?_⟩
      cases k with
      | zero =>
        have hlong : closing.length ≤ (c :: (text' ++ tag')).length := by
          rw [List.length_cons, List.length_append, hlength]
          omega
        rw [← List.cons_append, List.take_append_of_le_length hlong] at hmatch
        exact Bool.eq_false_iff.2 hmatch
      | succ k => exact hfirst k (Nat.lt_of_succ_lt_succ hk)

theorem matchAt_spec {name s : Text} {place : ℕ} {m : Match} (h : matchAt name place s = some m) :
    m.start = place ∧ m.Tagged name ∧ ∃ post, s = m.whole ++ post := by
  rw [matchAt] at h
  split at h
  · rename_i hhead
    split at h
    · exact absurd h nofun
    · rename_i c body hbody
      obtain ⟨⟨text, closing⟩, hsplit, rfl⟩ := Option.map_eq_some_iff.1 h
      obtain ⟨post, hsplitEq, htag, hlength, hfirst⟩ := splitClosing_spec hsplit
      have hc : c = '>' := by
        have hhead? := List.head?_dropWhile_not (fun c : Char => decide (c ≠ '>'))
          (s.drop (name.length + 1))
        rw [hbody] at hhead?
        simpa using hhead?
      have hinner : '>' ∉ (s.drop (name.length + 1)).takeWhile (· ≠ '>') := by
        intro hmem
        simpa using List.mem_takeWhile_imp hmem
      refine ⟨rfl, ⟨⟨_, _, rfl, hhead, hinner⟩, htag, hfirst⟩, post, ?_⟩
      calc s = s.take (name.length + 1) ++ ((s.drop (name.length + 1)).takeWhile (· ≠ '>') ++
              (s.drop (name.length + 1)).dropWhile (· ≠ '>')) := by
            rw [List.takeWhile_append_dropWhile, List.take_append_drop]
        _ = _ := by
            rw [hbody, hc, hsplitEq, Match.whole]
            simp only [List.append_assoc, List.cons_append, List.nil_append]
  · exact absurd h nofun

/-- Where a match stands in a text. -/
def Match.StandsIn (name content : Text) (m : Match) : Prop :=
  m.Tagged name ∧ ∃ pre post, content = pre ++ m.whole ++ post ∧ pre.length = m.start

/-- The matches stand one behind the other. -/
theorem findMatches_spec (name : Text) : ∀ (n : ℕ) (pre s : Text),
    (∀ m ∈ findMatches name n pre.length s, pre.length ≤ m.start ∧ m.StandsIn name (pre ++ s)) ∧
      (findMatches name n pre.length s).Pairwise fun a b => a.stop ≤ b.start
  | 0, _, _ => ⟨fun _ h => absurd h List.not_mem_nil, List.Pairwise.nil⟩
  | _ + 1, _, [] => ⟨fun _ h => absurd h List.not_mem_nil, List.Pairwise.nil⟩
  | n + 1, pre, c :: s => by
    rw [findMatches]
    split
    · rename_i m hmatch
      obtain ⟨hstart, htagged, post, hpost⟩ := matchAt_spec hmatch
      have hstop : (pre ++ m.whole).length = m.stop := by
        rw [List.length_append, ← hstart, m.length_whole]
      have hrest : (c :: s).drop (m.stop - pre.length) = post := by
        rw [← hstop, List.length_append, Nat.add_sub_cancel_left, hpost, List.drop_left]
      obtain ⟨hlater, hordered⟩ := findMatches_spec name n (pre ++ m.whole) post
      rw [hstop] at hlater hordered
      rw [hrest]
      refine ⟨fun m' hm' => ?_, List.pairwise_cons.2 ⟨fun b hb => (hlater b hb).1, hordered⟩⟩
      rcases List.mem_cons.1 hm' with rfl | hm'
      · exact ⟨hstart.ge, htagged, pre, post, by rw [hpost, List.append_assoc], hstart.symm⟩
      · obtain ⟨hle, hstands⟩ := hlater m' hm'
        rw [List.append_assoc, ← hpost] at hstands
        refine ⟨?_, hstands⟩
        rw [← hstop, List.length_append] at hle
        omega
    · have hnext := findMatches_spec name n (pre ++ [c]) s
      rw [List.length_append, List.length_singleton, List.append_assoc, List.singleton_append]
        at hnext
      exact ⟨fun m hm => ⟨Nat.le_of_succ_le (hnext.1 m hm).1, (hnext.1 m hm).2⟩, hnext.2⟩

theorem mem_matchesOf {name content : Text} {m : Match} (h : m ∈ matchesOf name content) :
    m.StandsIn name content :=
  ((findMatches_spec name content.length [] content).1 m h).2

theorem matchesOf_ordered (name content : Text) :
    (matchesOf name content).Pairwise fun a b => a.stop ≤ b.start :=
  (findMatches_spec name content.length [] content).2

theorem Match.StandsIn.bounds {name content : Text} {m : Match} (h : m.StandsIn name content) :
    m.start < m.stop ∧ m.stop ≤ content.length := by
  obtain ⟨htagged, pre, post, rfl, hpre⟩ := h
  have hpos := htagged.length_pos
  have hlength := m.length_whole
  rw [List.length_append, List.length_append, hpre]
  omega

/-! ## Ranges and spans -/

/-- The ranges and the spans between them, in their order. -/
def tiles (length : ℕ) : ℕ → List (ℕ × ℕ) → List (ℕ × ℕ)
  | last, [] => if last < length then [(last, length)] else []
  | last, range :: ranges =>
    (if last < range.1 then [(last, range.1)] else []) ++ range :: tiles length range.2 ranges

theorem tiles_perm (length : ℕ) : ∀ (last : ℕ) (ranges : List (ℕ × ℕ)),
    (tiles length last ranges).Perm (ranges ++ templateSpans length last ranges)
  | _, [] => List.Perm.refl _
  | last, range :: ranges => by
    rw [tiles, templateSpans]
    have ih := tiles_perm length range.2 ranges
    have hfront := (ih.cons range).append_left (if last < range.1 then [(last, range.1)] else [])
    exact hfront.trans (List.perm_append_comm_assoc _ (range :: ranges) _)

/-- Ranges that stand one behind the other, from a place on. -/
def Chained (length : ℕ) : ℕ → List (ℕ × ℕ) → Prop
  | last, [] => last ≤ length
  | last, range :: ranges => last ≤ range.1 ∧ range.1 ≤ range.2 ∧ Chained length range.2 ranges

variable {content : Text}

theorem slice_append {a b c : ℕ} (hab : a ≤ b) (hbc : b ≤ c) :
    slice content a b ++ slice content b c = slice content a c := by
  have htake : content.take b = (content.take c).take b := by rw [List.take_take, min_eq_left hbc]
  have hrest : ((content.take c).drop b).drop (a - ((content.take c).take b).length) =
      (content.take c).drop b := by
    rcases Nat.le_total b (content.take c).length with hle | hle
    · rw [List.length_take_of_le hle, Nat.sub_eq_zero_of_le hab, List.drop_zero]
    · rw [List.drop_eq_nil_of_le hle, List.drop_nil]
  calc slice content a b ++ slice content b c
      = ((content.take c).take b).drop a ++ (content.take c).drop b := by
        rw [slice, slice, htake]
    _ = ((content.take c).take b ++ (content.take c).drop b).drop a := by
        rw [List.drop_append, hrest]
    _ = slice content a c := by rw [List.take_append_drop, slice]

theorem slice_self (content : Text) (a : ℕ) : slice content a a = [] :=
  List.drop_eq_nil_of_le (List.length_take_le _ _)

theorem slice_length (content : Text) (a : ℕ) :
    slice content a content.length = content.drop a := by
  rw [slice, List.take_length]

theorem Chained.le {length : ℕ} : ∀ {last : ℕ} {ranges : List (ℕ × ℕ)},
    Chained length last ranges → last ≤ length
  | _, [], h => h
  | _, _ :: _, h => (h.1.trans h.2.1).trans (Chained.le h.2.2)

/-- The gap in front of a range, or nothing where there is none. -/
theorem flatten_gap {last start : ℕ} (h : last ≤ start) :
    (((if last < start then [(last, start)] else []) : List (ℕ × ℕ)).map fun t =>
      slice content t.1 t.2).flatten = slice content last start := by
  split
  · rw [List.map_singleton, List.flatten_singleton]
  · rw [show last = start by omega, slice_self]
    rfl

/-- The tiles make up the text. -/
theorem flatten_tiles (content : Text) : ∀ (last : ℕ) (ranges : List (ℕ × ℕ)),
    Chained content.length last ranges →
      ((tiles content.length last ranges).map fun t => slice content t.1 t.2).flatten =
        slice content last content.length
  | last, [], h => by rw [tiles, flatten_gap h]
  | last, range :: ranges, h => by
    obtain ⟨hgap, hrange, hrest⟩ := h
    rw [tiles, List.map_append, List.flatten_append, flatten_gap hgap, List.map_cons,
      List.flatten_cons, flatten_tiles content range.2 ranges hrest,
      slice_append hrange (Chained.le hrest), slice_append hgap (hrange.trans (Chained.le hrest))]

/-- How long the ranges are, all together. -/
def extent (ranges : List (ℕ × ℕ)) : ℕ := (ranges.map fun t => t.2 - t.1).sum

theorem extent_cons (range : ℕ × ℕ) (ranges : List (ℕ × ℕ)) :
    extent (range :: ranges) = range.2 - range.1 + extent ranges := rfl

/-- The tiles reach over all that is left, and further where a range starts before the last one
ends. -/
theorem extent_tiles {length : ℕ} : ∀ {last : ℕ} {ranges : List (ℕ × ℕ)}, last ≤ length →
    (∀ r ∈ ranges, r.1 < r.2 ∧ r.2 ≤ length) →
      length ≤ last + extent (tiles length last ranges) ∧
        (last + extent (tiles length last ranges) = length → Chained length last ranges)
  | last, [], h, _ => by
    rw [tiles]
    split
    · refine ⟨?_, fun _ => h⟩
      rw [extent_cons]
      omega
    · exact ⟨Nat.le_add_right_of_le (by omega), fun _ => h⟩
  | last, range :: ranges, h, hbounds => by
    obtain ⟨hrange, hstop⟩ := hbounds range List.mem_cons_self
    obtain ⟨hle, hchained⟩ := extent_tiles hstop fun r hr => hbounds r (List.mem_cons_of_mem _ hr)
    rw [tiles]
    split
    · rename_i hgap
      rw [List.singleton_append, extent_cons, extent_cons]
      refine ⟨by omega, fun heq => ⟨hgap.le, hrange.le, hchained (by omega)⟩⟩
    · rename_i hgap
      rw [List.nil_append, extent_cons]
      refine ⟨by omega, fun heq => ⟨by omega, hrange.le, hchained (by omega)⟩⟩

theorem Chained.pairwise {length : ℕ} : ∀ {last : ℕ} {ranges : List (ℕ × ℕ)},
    Chained length last ranges →
      (∀ r ∈ ranges, last ≤ r.1) ∧ ranges.Pairwise fun a b => a.2 ≤ b.1
  | _, [], _ => ⟨List.forall_mem_nil _, List.Pairwise.nil⟩
  | _, range :: ranges, h => by
    obtain ⟨hgap, hrange, hrest⟩ := h
    obtain ⟨hfirst, hpairs⟩ := Chained.pairwise hrest
    refine ⟨List.forall_mem_cons.2 ⟨hgap, fun r hr => ?_⟩, List.pairwise_cons.2 ⟨hfirst, hpairs⟩⟩
    exact (hgap.trans hrange).trans (hfirst r hr)

/-- Sorted ranges that are not empty and do not overlap stand one behind the other. -/
theorem chained_of_pairwise {length : ℕ} : ∀ {last : ℕ} {ranges : List (ℕ × ℕ)},
    last ≤ length → (∀ r ∈ ranges, last ≤ r.1 ∧ r.1 < r.2 ∧ r.2 ≤ length) →
      ranges.Pairwise (fun a b => a.2 ≤ b.1) → Chained length last ranges
  | _, [], h, _, _ => h
  | _, range :: ranges, _, hbounds, hpairs => by
    obtain ⟨hstart, hrange, hstop⟩ := hbounds range List.mem_cons_self
    obtain ⟨hfirst, hrest⟩ := List.pairwise_cons.1 hpairs
    refine ⟨hstart, hrange.le, chained_of_pairwise hstop (fun r hr => ?_) hrest⟩
    exact ⟨hfirst r hr, (hbounds r (List.mem_cons_of_mem _ hr)).2⟩

/-- No script and style overlap. -/
def Apart (content : Text) : Prop :=
  ∀ a ∈ matchesOf scriptName content, ∀ b ∈ matchesOf styleName content,
    a.stop ≤ b.start ∨ b.stop ≤ a.start

theorem mem_excludedRanges {range : ℕ × ℕ}
    (h : range ∈ excludedRanges content) : range.1 < range.2 ∧ range.2 ≤ content.length := by
  rw [excludedRanges, List.mem_insertionSort, List.mem_map] at h
  obtain ⟨m, hm, rfl⟩ := h
  rcases List.mem_append.1 hm with hm | hm
  · exact (mem_matchesOf hm).bounds
  · exact (mem_matchesOf hm).bounds

/-- Two ranges that do not overlap. -/
def RangesApart (a b : ℕ × ℕ) : Prop := a.2 ≤ b.1 ∨ b.2 ≤ a.1

theorem excludedRanges_apart :
    (excludedRanges content).Pairwise RangesApart ↔ Apart content := by
  have hperm : (excludedRanges content).Perm
      ((matchesOf scriptName content ++ matchesOf styleName content).map fun m =>
        (m.start, m.stop)) := List.perm_insertionSort _ _
  have hsymm : ∀ {a b : ℕ × ℕ}, RangesApart a b → RangesApart b a := Or.symm
  rw [hperm.pairwise_iff hsymm, List.pairwise_map, List.pairwise_append]
  refine ⟨fun h => h.2.2, fun h => ⟨?_, ?_, h⟩⟩
  · exact (matchesOf_ordered scriptName content).imp Or.inl
  · exact (matchesOf_ordered styleName content).imp Or.inl

theorem excludedRanges_pairwise (h : Apart content) :
    (excludedRanges content).Pairwise fun a b => a.2 ≤ b.1 := by
  have hapart := excludedRanges_apart.2 h
  have hsorted : (excludedRanges content).Pairwise RangeLe := List.pairwise_insertionSort _ _
  refine (hapart.and hsorted).imp_of_mem fun {a b} ha hb hab => ?_
  have hpos := mem_excludedRanges hb
  obtain ⟨hdisjoint, horder⟩ := hab
  unfold RangesApart at hdisjoint
  unfold RangeLe at horder
  omega

/-! ## Lines -/

/-- The chunk has the lines of these places. -/
def Chunk.LinesAt (text : Text) (first last : ℕ) (c : Chunk) : Prop :=
  c.startLine = lineAt text first ∧ c.endLine = lineAt text last

/-- A chunk of a part keeps its place when it is moved to the line of the part. -/
theorem Chunk.LinesAt.shift {text : Text} {first last : ℕ} {c : Chunk}
    (h : c.LinesAt text first last) (pre post : Text) (hfirst : first ≤ text.length)
    (hlast : last ≤ text.length) :
    (c.shift (lineAt (pre ++ text ++ post) pre.length - 1)).LinesAt (pre ++ text ++ post)
      (pre.length + first) (pre.length + last) := by
  have hf := lineAt_part pre post hfirst
  have hl := lineAt_part pre post hlast
  obtain ⟨hstart, hend⟩ := h
  constructor
  · show c.startLine + _ = _
    omega
  · show c.endLine + _ = _
    omega

theorem count_dropLast {text : Text} (h : text ≠ []) :
    text.count '\n' = (text.take (text.length - 1)).count '\n' +
      if text.getLast? = some '\n' then 1 else 0 := by
  obtain ⟨init, c, rfl⟩ := (List.eq_nil_or_concat text).resolve_left h
  rw [List.concat_eq_append, List.length_append, List.length_singleton, Nat.add_sub_cancel,
    List.take_left, List.count_append, List.getLast?_concat, List.count_singleton]
  by_cases hc : c = '\n' <;> simp [hc]

/-- The end line of a block is that of its last character. -/
theorem computeEndLine_eq (pre : Text) {text : Text} (post : Text) (h : text ≠ []) :
    computeEndLine text (lineAt (pre ++ text ++ post) pre.length) =
      lineAt (pre ++ text ++ post) (pre.length + (text.length - 1)) := by
  have hline := lineAt_part pre post (Nat.sub_le text.length 1)
  have hcount := count_dropLast h
  have hlast : lineAt text (text.length - 1) = (text.take (text.length - 1)).count '\n' + 1 := rfl
  rw [computeEndLine]
  split at hcount
  · rename_i hnewline
    rw [if_pos hnewline]
    omega
  · rename_i hnewline
    rw [if_neg hnewline]
    omega

namespace SfcParser

variable (parser : SfcParser)

/-- The chunks of a block have lines between two places. A block that is not split has all the
lines. -/
def BlockAt (name : String) (content : Text) (part : Part) (first last : ℕ) : Prop :=
  ∀ c ∈ parser.blockChunks name part,
    ((lineAt content first : ℤ) ≤ c.startLine ∧ c.startLine ≤ c.endLine ∧
      c.endLine ≤ lineAt content last) ∧
    (parser.cast.fits part.text = true → c.LinesAt content first last)

theorem blockAt (name : String) (pre text post : Text) {part : Part} (htext : part.text = text)
    (hline : part.startLine = lineAt (pre ++ text ++ post) pre.length) :
    parser.BlockAt name (pre ++ text ++ post) part pre.length
      (pre.length + (text.length - 1)) := by
  subst htext
  intro c hc
  rw [blockChunks] at hc
  split at hc
  · exact absurd hc List.not_mem_nil
  · rename_i hblank
    have hne : part.text ≠ [] := by
      intro hnil
      exact hblank (by rw [hnil]; rfl)
    obtain ⟨uc, huc, rfl⟩ := List.mem_map.1 hc
    obtain ⟨pieces, hpieces, -⟩ := Cast.validateAndSplit_spec parser.rounding.proportion
      parser.limit_pos (textBlock name part)
    rw [hpieces, Option.getD_some] at huc
    have horder : (textBlock name part).startLine ≤ (textBlock name part).endLine :=
      le_max_left _ _
    obtain ⟨hle, hfirst, hlast⟩ :=
      (Cast.validateAndSplit_ranges parser.rounding horder hpieces).1 uc huc
    have hend := computeEndLine_eq pre post hne
    rw [← hline] at hend
    refine ⟨⟨hline ▸ hfirst, hle, hlast.trans hend.le⟩, fun hfits => ?_⟩
    have hwhole : parser.cast.fits (textBlock name part).content = true := hfits
    rw [Cast.validateAndSplit, if_pos hwhole] at hpieces
    obtain rfl := Option.some.inj hpieces
    obtain rfl := List.mem_singleton.1 huc
    exact ⟨congrArg Nat.cast hline, hend⟩

end SfcParser

/-- The place of the text of a match. -/
def Match.textStart (m : Match) : ℕ := m.start + m.opening.length

/-- The text of a match in the whole, as many lines below its tag as that has line breaks. -/
theorem Match.StandsIn.text {name content : Text} {m : Match} (h : m.StandsIn name content) :
    ∃ pre post, content = pre ++ m.text ++ post ∧ pre.length = m.textStart ∧
      lineAt content m.textStart = lineAt content m.start + m.opening.count '\n' := by
  obtain ⟨-, pre, post, rfl, hpre⟩ := h
  refine ⟨pre ++ m.opening, m.closing ++ post, ?_, ?_, ?_⟩
  · simp only [Match.whole, List.append_assoc]
  · rw [List.length_append, hpre, Match.textStart]
  · have hline := lineAt_part pre (m.text ++ m.closing ++ post) (Nat.le_refl m.opening.length)
    have hcount : lineAt m.opening m.opening.length = m.opening.count '\n' + 1 := by
      rw [lineAt, List.take_length]
    have heq : pre ++ m.whole ++ post = pre ++ m.opening ++ (m.text ++ m.closing ++ post) := by
      simp only [Match.whole, List.append_assoc]
    rw [heq, Match.textStart, ← hpre]
    omega

/-- A chunk of a template that is parsed inside tags of its own. -/
theorem wrapped_lines (pre : Text) {text : Text} (post : Text) {first last : ℕ} {c : Chunk}
    (h : c.LinesAt (SfcParser.wrapped text) (first + 11) (last + 11))
    (hfirst : first ≤ text.length) (hlast : last ≤ text.length) :
    (c.shift (lineAt (pre ++ text ++ post) pre.length - 2)).LinesAt (pre ++ text ++ post)
      (pre.length + first) (pre.length + last) := by
  have hline : ∀ place ≤ text.length,
      lineAt (SfcParser.wrapped text) (place + 11) = lineAt text place + 1 := by
    intro place hplace
    have hpart := lineAt_part "<template>\n".toList "\n</template>".toList hplace
    have hwrapper : lineAt ("<template>\n".toList ++ text ++ "\n</template>".toList)
        ("<template>\n".toList).length = 2 := by
      rw [List.append_assoc, lineAt_append_left (Nat.le_refl _)]
      decide
    rw [hwrapper, Nat.add_comm ("<template>\n".toList).length] at hpart
    have hlength : ("<template>\n".toList).length = 11 := by decide
    rw [hlength] at hpart
    show lineAt ("<template>\n".toList ++ text ++ "\n</template>".toList) (place + 11) = _
    omega
  have hf := lineAt_part pre post hfirst
  have hl := lineAt_part pre post hlast
  obtain ⟨hstart, hend⟩ := h
  rw [hline first hfirst] at hstart
  rw [hline last hlast] at hend
  constructor
  · show c.startLine + _ = _
    push_cast at hstart
    omega
  · show c.endLine + _ = _
    push_cast at hend
    omega

/-! ## Bytes -/

/-- Where every character takes a byte, the places in bytes are the places in characters. -/
theorem length_encode_take {a b : ℕ} (hab : a ≤ b) (hb : b ≤ content.length)
    (h : ∀ c ∈ content.take b, c.val ≤ 127) : (encode (content.take a)).length = a := by
  have hascii : ∀ c ∈ content.take a, c.val ≤ 127 := by
    intro c hc
    refine h c ?_
    rw [← min_eq_left hab, ← List.take_take] at hc
    exact List.mem_of_mem_take hc
  rw [← Cast.length_encode_eq_iff.2 hascii, List.length_take_of_le (hab.trans hb)]

/-- A section of a tree whose characters take a byte each. -/
theorem Element.part_spec {e : Element} {part : Part} {a b : ℕ}
    (hpart : e.part content = some part) (hinner : e.inner = some (a, b)) (hab : a ≤ b)
    (hb : b ≤ content.length) (h : ∀ c ∈ content.take b, c.val ≤ 127) :
    part.text = slice content a b ∧ part.startLine = lineAt content a := by
  have hraw : ∀ {startTag rawText}, rawPart content startTag rawText = some part →
      rawText.map (fun raw : Node => (raw.start, raw.stop)) = some (a, b) →
        part.text = slice content a b ∧ part.startLine = lineAt content a := by
    intro startTag rawText hpart hinner
    obtain ⟨raw, rfl, heq⟩ := Option.map_eq_some_iff.1 hinner
    obtain ⟨rfl, rfl⟩ := Prod.mk.inj heq
    obtain rfl := Option.some.inj hpart
    refine ⟨?_, rfl⟩
    show slice content (encode _).length (encode _).length = _
    rw [length_encode_take hab hb h, length_encode_take (Nat.le_refl _) hb h]
  cases e with
  | script startTag rawText => exact hraw hpart hinner
  | style startTag rawText => exact hraw hpart hinner
  | template startTag endTag =>
    cases startTag with
    | none => exact absurd hinner nofun
    | some tag =>
      cases endTag with
      | none => exact absurd hinner nofun
      | some endTag =>
        obtain ⟨rfl, rfl⟩ := Prod.mk.inj (Option.some.inj hinner)
        obtain rfl := Option.some.inj hpart
        refine ⟨?_, rfl⟩
        show slice content (encode _).length (encode _).length = _
        rw [length_encode_take hab hb h, length_encode_take (Nat.le_refl _) hb h]

/-! ## Sections in place -/

/-- The ranges of the scripts and styles, and the spans between them, make up the text. -/
def Partition (content : Text) : Prop :=
  ∃ tiles : List (ℕ × ℕ), tiles.Perm
      (excludedRanges content ++ templateSpans content.length 0 (excludedRanges content)) ∧
    (tiles.map fun t => slice content t.1 t.2).flatten = content

theorem partition_of_apart (h : Apart content) : Partition content := by
  refine ⟨tiles content.length 0 (excludedRanges content), tiles_perm _ _ _, ?_⟩
  have hchained : Chained content.length 0 (excludedRanges content) :=
    chained_of_pairwise (Nat.zero_le _)
      (fun r hr => ⟨Nat.zero_le _, mem_excludedRanges hr⟩) (excludedRanges_pairwise h)
  rw [flatten_tiles content 0 _ hchained, slice_length, List.drop_zero]

/-- Also where nothing is excluded, the template parts are the spans that are not blank. -/
theorem templateParts_eq (content : Text) (ranges : List (ℕ × ℕ)) :
    templateParts content ranges =
      ((templateSpans content.length 0 ranges).map (spanPart content)).filter
        fun part => strip part.text ≠ [] := by
  rw [templateParts]
  split
  · rename_i hnil
    rw [hnil, templateSpans]
    have hwhole : slice content 0 content.length = content := slice_length content 0
    cases content with
    | nil => rfl
    | cons c rest =>
      rw [if_pos (show 0 < (c :: rest).length from Nat.zero_lt_succ _), List.map_singleton,
        List.filter_singleton, spanPart, hwhole]
      by_cases hblank : strip (c :: rest) = []
      · simp [hblank]
      · simp [hblank, lineAt]
  · rfl

/-- A span that is not empty, in its text. -/
theorem templateSpans_bounds {length : ℕ} : ∀ {last : ℕ} {ranges : List (ℕ × ℕ)},
    (∀ r ∈ ranges, r.1 ≤ length) → ∀ span ∈ templateSpans length last ranges,
      span.1 < span.2 ∧ span.2 ≤ length
  | last, [], _, span, hspan => by
    rw [templateSpans] at hspan
    split at hspan
    · rename_i hlt
      obtain rfl := List.mem_singleton.1 hspan
      exact ⟨hlt, Nat.le_refl _⟩
    · exact absurd hspan List.not_mem_nil
  | last, range :: ranges, h, span, hspan => by
    rw [templateSpans] at hspan
    rcases List.mem_append.1 hspan with hspan | hspan
    · split at hspan
      · rename_i hlt
        obtain rfl := List.mem_singleton.1 hspan
        exact ⟨hlt, h range List.mem_cons_self⟩
      · exact absurd hspan List.not_mem_nil
    · exact templateSpans_bounds (fun r hr => h r (List.mem_cons_of_mem _ hr)) span hspan

/-- A slice in its text. -/
theorem slice_decompose {a b : ℕ} (hab : a ≤ b) (hb : b ≤ content.length) :
    content = content.take a ++ slice content a b ++ content.drop b ∧
      (content.take a).length = a ∧ (slice content a b).length = b - a := by
  have hfront : content.take a ++ slice content a b = content.take b := by
    rw [slice, ← min_eq_left hab, ← List.take_take, min_eq_left hab, List.take_append_drop]
  refine ⟨by rw [hfront, List.take_append_drop], List.length_take_of_le (hab.trans hb), ?_⟩
  rw [slice, List.length_drop, List.length_take_of_le hb]

/-- The chunks of a span have lines of the span. -/
theorem SfcParser.blockAt_slice (parser : SfcParser) (name : String) {a b : ℕ}
    (hab : a < b) (hb : b ≤ content.length) {part : Part} (htext : part.text = slice content a b)
    (hline : part.startLine = lineAt content a) :
    parser.BlockAt name content part a (b - 1) := by
  obtain ⟨hcontent, hpre, hlength⟩ := slice_decompose hab.le hb
  have hplace : (content.take a).length + ((slice content a b).length - 1) = b - 1 := by omega
  have hlines := parser.blockAt name (content.take a) _ (content.drop b) htext
    (by rw [← hcontent, hpre, hline])
  rwa [← hcontent, hplace, hpre] at hlines

/-- Nothing is cut out twice exactly where no script overlaps a style. -/
theorem partition_iff : Partition content ↔ Apart content := by
  refine ⟨fun ⟨parts, hperm, hflatten⟩ => ?_, partition_of_apart⟩
  have hbounds : ∀ r ∈ excludedRanges content, r.1 < r.2 ∧ r.2 ≤ content.length :=
    fun r hr => mem_excludedRanges hr
  have hperm' := hperm.trans (tiles_perm content.length 0 (excludedRanges content)).symm
  have hinside : ∀ t ∈ parts, t.1 ≤ t.2 ∧ t.2 ≤ content.length := by
    intro t ht
    rcases List.mem_append.1 (hperm.mem_iff.1 ht) with hr | hspan
    · exact ⟨(hbounds t hr).1.le, (hbounds t hr).2⟩
    · obtain ⟨hlt, hle⟩ := templateSpans_bounds
        (fun r hr => (hbounds r hr).1.le.trans (hbounds r hr).2) t hspan
      exact ⟨hlt.le, hle⟩
  have hextent : extent parts = content.length := by
    have hlength := congrArg List.length hflatten
    rw [List.length_flatten, List.map_map] at hlength
    refine Eq.trans (congrArg List.sum (List.map_congr_left fun t ht => ?_)) hlength
    exact ((slice_decompose (hinside t ht).1 (hinside t ht).2).2.2).symm
  have htiles : extent (tiles content.length 0 (excludedRanges content)) = content.length :=
    ((hperm'.map fun t : ℕ × ℕ => t.2 - t.1).sum_eq).symm.trans hextent
  have hchained := (extent_tiles (Nat.zero_le _) hbounds).2 (by rw [Nat.zero_add, htiles])
  exact excludedRanges_apart.1 (hchained.pairwise.2.imp Or.inl)

namespace SfcParser

variable (parser : SfcParser)

/-- Every chunk that the script parser places in a text is at its place in the whole, moved by so
many lines. -/
def ScriptAt (content text : Text) (start : ℕ) (lines : ℤ) : Prop :=
  ∀ c ∈ parser.parseScript text, ∀ first ≤ text.length, ∀ last ≤ text.length,
    c.LinesAt text first last → (c.shift lines).LinesAt content (start + first) (start + last)

/-- The script parser finds nothing in a text. -/
def NoScript (text : Text) : Prop :=
  ∀ c ∈ parser.parseScript text, ∀ first ≤ text.length, ∀ last ≤ text.length,
    ¬c.LinesAt text first last

/-- Scripts are in place when they are moved to the line where their text starts. -/
theorem scriptAt_iff (pre text post : Text) (lines : ℤ) :
    parser.ScriptAt (pre ++ text ++ post) text pre.length lines ↔
      lines = lineAt (pre ++ text ++ post) pre.length - 1 ∨ parser.NoScript text := by
  refine ⟨fun h => ?_, ?_⟩
  · by_cases hnone : parser.NoScript text
    · exact Or.inr hnone
    · unfold NoScript at hnone
      push Not at hnone
      obtain ⟨c, hc, first, hfirst, last, hlast, hplace⟩ := hnone
      have hmoved := (h c hc first hfirst last hlast hplace).1
      have hright := (hplace.shift pre post hfirst hlast).1
      left
      simp only [Chunk.shift] at hmoved hright
      omega
  · rintro (rfl | hnone) c hc first hfirst last hlast hplace
    · exact hplace.shift pre post hfirst hlast
    · exact absurd hplace (hnone c hc first hfirst last hlast)

/-- Blocks have lines of their text when their section starts on its first line. -/
theorem blockAt_iff (name : String) (pre text post : Text) {part : Part} (htext : part.text = text)
    (hline : part.startLine ≤ lineAt (pre ++ text ++ post) pre.length) :
    parser.BlockAt name (pre ++ text ++ post) part pre.length (pre.length + (text.length - 1)) ↔
      part.startLine = lineAt (pre ++ text ++ post) pre.length ∨ strip text = [] := by
  refine ⟨fun h => ?_, ?_⟩
  · by_cases hblank : strip text = []
    · exact Or.inr hblank
    · left
      obtain ⟨pieces, hpieces, -⟩ := Cast.validateAndSplit_spec parser.rounding.proportion
        parser.limit_pos (textBlock name part)
      obtain ⟨p, hp, hstart⟩ := Cast.validateAndSplit_start parser.rounding parser.size_nonneg
        (show (textBlock name part).startLine ≤ (textBlock name part).endLine from le_max_left _ _)
        hpieces
      have hmem : (⟨p.startLine, p.endLine, p.content⟩ : Chunk) ∈ parser.blockChunks name part := by
        rw [blockChunks, htext, if_neg hblank, hpieces, Option.getD_some]
        exact List.mem_map.2 ⟨p, hp, rfl⟩
      have hle := (h _ hmem).1.1
      have hsection : p.startLine = part.startLine := hstart
      simp only [hsection] at hle
      omega
  · rintro (hstart | hblank)
    · exact parser.blockAt name pre text post htext hstart
    · intro c hc
      rw [blockChunks, htext, if_pos hblank] at hc
      exact absurd hc List.not_mem_nil

/-- A Svelte text is cut into exact sections. The scripts and styles run from an opening tag, which
ends with its first `>`, to the first closing tag, their chunks have the lines of their code, those
of the template have lines of their span, and together they make up the text. -/
structure SvelteExact (content : Text) : Prop where
  scripts : ∀ m ∈ matchesOf scriptName content, m.StandsIn scriptName content ∧
    parser.ScriptAt content m.text m.textStart ((m.part content).startLine - 1)
  styles : ∀ m ∈ matchesOf styleName content, m.StandsIn styleName content ∧
    parser.BlockAt "svelte_style" content (m.part content) m.textStart
      (m.textStart + (m.text.length - 1))
  template : (extractSections content).template =
    ((templateSpans content.length 0 (excludedRanges content)).map (spanPart content)).filter
      fun part => strip part.text ≠ []
  spans : ∀ span ∈ templateSpans content.length 0 (excludedRanges content),
    parser.BlockAt "svelte_template" content (spanPart content span) span.1 (span.2 - 1)
  whole : Partition content

/-- The chunks of a script are in place where its opening tag has one line, or it has none. -/
theorem script_iff {content : Text} {m : Match} (h : m.StandsIn scriptName content) :
    parser.ScriptAt content m.text m.textStart ((m.part content).startLine - 1) ↔
      ('\n' ∈ m.opening → parser.NoScript m.text) := by
  obtain ⟨pre, post, hcontent, hpre, hline⟩ := h.text
  have hiff := parser.scriptAt_iff pre m.text post ((m.part content).startLine - 1)
  rw [← hcontent, hpre, hline] at hiff
  rw [hiff, ← List.count_pos_iff]
  have hstart : (m.part content).startLine = lineAt content m.start := rfl
  rw [hstart, ← or_iff_not_imp_left.trans (imp_congr_left Nat.pos_iff_ne_zero.symm)]
  refine or_congr_left ?_
  omega

theorem style_iff {content : Text} {m : Match} (h : m.StandsIn styleName content) :
    parser.BlockAt "svelte_style" content (m.part content) m.textStart
        (m.textStart + (m.text.length - 1)) ↔ ('\n' ∈ m.opening → strip m.text = []) := by
  obtain ⟨pre, post, hcontent, hpre, hline⟩ := h.text
  have hstart : (m.part content).startLine = lineAt content m.start := rfl
  have hiff := parser.blockAt_iff "svelte_style" pre m.text post
    (show (m.part content).text = m.text from rfl)
    (by rw [← hcontent, hpre, hstart]; omega)
  rw [← hcontent, hpre, hline, hstart] at hiff
  rw [hiff, ← List.count_pos_iff,
    ← or_iff_not_imp_left.trans (imp_congr_left Nat.pos_iff_ne_zero.symm)]
  refine or_congr_left ?_
  omega

/-- Sections are exact where no script overlaps a style, and no opening tag of several lines is
that of a script with chunks or of a style with text. -/
theorem svelteExact_iff (content : Text) : parser.SvelteExact content ↔ Apart content ∧
    (∀ m ∈ matchesOf scriptName content, '\n' ∈ m.opening → parser.NoScript m.text) ∧
    ∀ m ∈ matchesOf styleName content, '\n' ∈ m.opening → strip m.text = [] := by
  refine ⟨fun h => ⟨partition_iff.1 h.whole, fun m hm => ?_, fun m hm => ?_⟩,
    fun ⟨hapart, hscripts, hstyles⟩ => ⟨fun m hm => ?_, fun m hm => ?_, templateParts_eq content _,
      fun span hspan => ?_, partition_iff.2 hapart⟩⟩
  · exact (parser.script_iff (mem_matchesOf hm)).1 (h.scripts m hm).2
  · exact (parser.style_iff (mem_matchesOf hm)).1 (h.styles m hm).2
  · exact ⟨mem_matchesOf hm, (parser.script_iff (mem_matchesOf hm)).2 (hscripts m hm)⟩
  · exact ⟨mem_matchesOf hm, (parser.style_iff (mem_matchesOf hm)).2 (hstyles m hm)⟩
  · obtain ⟨hlt, hle⟩ := templateSpans_bounds
      (fun r hr => (mem_excludedRanges hr).1.le.trans (mem_excludedRanges hr).2) span hspan
    exact parser.blockAt_slice _ hlt hle rfl rfl

/-- A Vue section is the text between its places, and its chunks have the lines of their code. The
places of a template are counted from behind the tag it is parsed with. -/
structure VueExact (content : Text) (e : Element) (part : Part) (a b : ℕ) : Prop where
  text : part.text = slice content a b
  line : part.startLine = lineAt content a
  script : ∀ startTag rawText, e = .script startTag rawText →
    parser.ScriptAt content part.text a part.startLine
  template : ∀ startTag endTag, e = .template startTag endTag →
    ∀ c : Chunk, ∀ first ≤ b - a, ∀ last ≤ b - a,
      c.LinesAt (wrapped part.text) (first + 11) (last + 11) →
        (c.shift (part.startLine - 2)).LinesAt content (a + first) (a + last)
  block : a < b → ∀ name, parser.BlockAt name content part a (b - 1)

/-- A Vue section whose text up to its end takes one byte a character is exact, but for a script
with chunks. -/
theorem vueExact_iff {content : Text} {e : Element} {part : Part} {a b : ℕ}
    (hpart : e.part content = some part) (hinner : e.inner = some (a, b)) (hab : a ≤ b)
    (hb : b ≤ content.length) (hascii : ∀ c ∈ content.take b, c.val ≤ 127) :
    parser.VueExact content e part a b ↔
      ∀ startTag rawText, e = .script startTag rawText → parser.NoScript (slice content a b) := by
  obtain ⟨htext, hline⟩ := e.part_spec hpart hinner hab hb hascii
  obtain ⟨hcontent, hpre, hlength⟩ := slice_decompose hab hb
  have hscript := parser.scriptAt_iff (content.take a) (slice content a b) (content.drop b)
    part.startLine
  rw [← hcontent, hpre, ← htext, or_iff_right (by omega)] at hscript
  refine ⟨fun h startTag rawText he => htext ▸ hscript.1 (h.script startTag rawText he),
    fun h => ⟨htext, hline, fun startTag rawText he => ?_, fun _ _ _ c first hfirst last hlast hc =>
      ?_, fun hlt name => parser.blockAt_slice name hlt hb htext hline⟩⟩
  · exact hscript.2 (htext ▸ h startTag rawText he)
  · rw [htext] at hc
    have hlines := wrapped_lines (content.take a) (content.drop b) hc
      (hfirst.trans hlength.ge) (hlast.trans hlength.ge)
    rw [← hcontent, hpre, ← hline] at hlines
    exact hlines

end SfcParser

example : (extractSections "<script>s = '<style>a</style>'</script>".toList).template =
    [⟨[], "'</script>".toList, 1⟩] := by decide +kernel

end ChunkHound.Sfc
