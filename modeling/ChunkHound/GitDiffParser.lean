import ChunkHound.ChunkValidation

/-!
# The git diff parser

`parse_diff_to_chunks` of `core/git_diff/parser.py`. It reads a diff line by line, as
`str.splitlines` breaks it, and makes a chunk of every hunk that has lines in the new file. A hunk
over the limit is split at line boundaries. A part is only cut when it has a line of the new file,
so that no two parts of short lines start at the same line.

Hence a part may be over the limit when only its last line is one of the new file
(`parse_code_bounded`).

Texts are lists of characters. `\d` matches every decimal digit of Unicode, so the digits are a
parameter. `int` takes any number of them.
-/

namespace ChunkHound.GitDiff

open Cast (ChunkFields)

abbrev Line := List Char

/-! ## Lines -/

/-- Where `str.splitlines` breaks. -/
def isLineBreak (c : Char) : Bool :=
  [10, 11, 12, 13, 28, 29, 30, 0x85, 0x2028, 0x2029].contains c.toNat

/-- `splitlines(keepends=True)` -/
def splitLines : List Char → List Line
  | [] => []
  | '\r' :: '\n' :: rest => ['\r', '\n'] :: splitLines rest
  | c :: rest =>
    if isLineBreak c then [c] :: splitLines rest
    else
      match splitLines rest with
      | [] => [[c]]
      | line :: lines => (c :: line) :: lines

/-- `line.rstrip('\n').rstrip('\r')` -/
def strippedLine (line : Line) : Line := (line.rdropWhile (· = '\n')).rdropWhile (· = '\r')

/-! ## Hunk headers -/

/-- The decimal digits. Among the ASCII characters they are the usual ones. -/
structure Digits where
  value : Char → Option ℕ
  ascii : ∀ c : Char, c.toNat < 128 →
    value c = if c.isDigit then some (c.toNat - '0'.toNat) else none

/-- What follows a text in front. -/
def afterText : List Char → List Char → Option (List Char)
  | [], s => some s
  | _ :: _, [] => none
  | c :: p, d :: s => if c = d then afterText p s else none

namespace Digits

variable (digits : Digits)

def isDigit (c : Char) : Bool := (digits.value c).isSome

/-- `int(s)` -/
def int (s : List Char) : ℕ := s.foldl (fun n c => 10 * n + (digits.value c).getD 0) 0

/-- `(\d+)`, and what follows. -/
def number (s : List Char) : Option (ℕ × List Char) :=
  let ds := s.takeWhile digits.isDigit
  if ds = [] then none else some (digits.int ds, s.dropWhile digits.isDigit)

/-- `(?:,(\d+))?`, and what follows. -/
def count (s : List Char) : Option ℕ × List Char :=
  match (afterText [','] s).bind digits.number with
  | some (n, rest) => (some n, rest)
  | none => (none, s)

end Digits

/-- The groups of `_HUNK_HEADER`. -/
structure HunkHeader where
  newStart : ℕ
  newCount : Option ℕ
  context : List Char
  deriving DecidableEq, Repr

/-- `_HUNK_HEADER.match`. A digit is none of the characters around the numbers, so that nothing is
tried twice. -/
def hunkHeader (digits : Digits) (s : List Char) : Option HunkHeader := do
  let s ← afterText ['@', '@', ' ', '-'] s
  let (_, s) ← digits.number s
  let (_, s) := digits.count s
  let s ← afterText [' ', '+'] s
  let (newStart, s) ← digits.number s
  let (newCount, s) := digits.count s
  let s ← afterText [' ', '@', '@'] s
  some ⟨newStart, newCount, s.takeWhile (· ≠ '\n')⟩

/-! ## The parts of a hunk -/

/-- An added line or a line of context. -/
def advances (ln : Line) : Bool := ln.head? = some '+' || ln.head? = some ' '

/-- A part, and the lines of the new file in front of it. -/
structure Part where
  code : List Char
  lineStart : ℕ
  deriving DecidableEq, Repr

/-- The variables of the loop. -/
structure SplitState where
  parts : List Part
  runningLine : ℕ
  partLineOffset : ℕ
  currentPart : List Line
  currentLen : ℕ
  deriving DecidableEq, Repr

namespace SplitState

def initial : SplitState := ⟨[], 0, 0, [], 0⟩

/-- The current part is done. -/
def flush (s : SplitState) : SplitState where
  parts := s.parts ++ [⟨s.currentPart.flatten, s.partLineOffset⟩]
  runningLine := s.runningLine
  partLineOffset := s.runningLine
  currentPart := []
  currentLen := 0

def countLine (s : SplitState) (ln : Line) : SplitState :=
  if advances ln then { s with runningLine := s.runningLine + 1 } else s

end SplitState

/-- `ln[i : i + max_chunk_chars]` for every `i` of `range(0, len(ln), max_chunk_chars)`, which
raises for 0 and is empty for less. -/
def slices (limit : ℤ) (ln : Line) : Option (List (List Char)) :=
  if limit = 0 then none
  else
    let size := limit.toNat
    some ((List.range ((ln.length + size - 1) / size)).map fun k => (ln.drop (k * size)).take size)

namespace SplitState

/-- The pieces of a line, as parts of their own. -/
def addPieces (s : SplitState) (pieces : List (List Char)) (ln : Line) : SplitState :=
  countLine { s with parts := s.parts ++ pieces.map (Part.mk · s.runningLine) } ln

/-- A line, in the current part. -/
def push (s : SplitState) (ln : Line) : SplitState :=
  countLine { s with
    currentPart := s.currentPart ++ [ln]
    currentLen := s.currentLen + ln.length } ln

/-- A line that is over the limit itself. -/
def addSlices (limit : ℤ) (s : SplitState) (ln : Line) : Option SplitState :=
  let s := if s.currentPart = [] then s else s.flush
  (slices limit ln).map fun pieces => s.addPieces pieces ln

/-- Another line. The current part is cut when it has a line of the new file. -/
def addShort (limit : ℤ) (s : SplitState) (ln : Line) : SplitState :=
  let s :=
    if limit < s.currentLen + ln.length ∧ s.currentPart ≠ [] ∧ s.partLineOffset < s.runningLine
    then s.flush else s
  s.push ln

def addLine (limit : ℤ) (s : SplitState) (ln : Line) : Option SplitState :=
  if limit < ln.length then s.addSlices limit ln else some (s.addShort limit ln)

end SplitState

/-- The parts of a hunk, and its lines in the new file. -/
def splitHunk (limit : ℤ) (hunkLines : List Line) : Option (List Part × ℕ) :=
  (hunkLines.foldlM (SplitState.addLine limit) .initial).map fun s =>
    (if s.currentPart = [] then s.parts else s.flush.parts, s.runningLine)

/-! ## Chunks -/

/-- The variables of `parse_diff_to_chunks`. -/
structure ParserState where
  chunks : List ChunkFields
  currentFile : Option (List Char)
  hunkStart : ℕ
  hunkEnd : ℕ
  hunkLines : List Line
  symbol : List Char
  inHunk : Bool
  deriving DecidableEq

namespace ParserState

def initial : ParserState := ⟨[], none, 0, 0, [], [], false⟩

/-- The chunk of a hunk that is not split. -/
def wholeChunk (s : ParserState) (file : List Char) : ChunkFields where
  symbol := some s.symbol
  startLine := max 1 s.hunkStart
  endLine := max s.hunkStart s.hunkEnd
  code := s.hunkLines.flatten
  filePath := some file
  startByte := none
  endByte := none

/-- The chunk of a part. `lineEndOffset` is where the next part starts. -/
def partChunk (s : ParserState) (file : List Char) (parts n : ℕ) (part : Part)
    (lineEndOffset : ℕ) : ChunkFields :=
  let partStart : ℤ := max 1 (s.hunkStart + part.lineStart)
  let rawEnd : ℤ := s.hunkStart + lineEndOffset - 1
  { symbol := some (if 1 < parts then s.symbol ++ s!" (part {n})".toList else s.symbol)
    startLine := partStart
    endLine := min s.hunkEnd (max partStart rawEnd)
    code := part.code
    filePath := some file
    startByte := none
    endByte := none }

/-- The chunks that `flush_hunk` goes on to construct. -/
def hunkChunks (limit : ℤ) (s : ParserState) (file : List Char) : List ChunkFields :=
  if (s.hunkLines.flatten.length : ℤ) ≤ limit then [s.wholeChunk file]
  else
    match splitHunk limit s.hunkLines with
    | none => []
    | some (parts, runningLine) =>
      ((parts.zip ((parts.map (·.lineStart)).tail ++ [runningLine])).zipIdx 1).map
        fun ((part, lineEndOffset), n) => s.partChunk file parts.length n part lineEndOffset

end ParserState

/-- The chunks up to the first that raises. -/
def construct : List ChunkFields → List ChunkFields
  | [] => []
  | c :: cs =>
    match c.validate with
    | .ok chunk => chunk :: construct cs
    | .error _ => []

/-- `Path(path).name` -/
def pathName (path : List Char) : List Char :=
  ((path.splitOn '/').filter fun part => part ≠ [] ∧ part ≠ ['.']).getLast?.getD []

/-- `+++ ` -/
def plusMark : List Char := ['+', '+', '+', ' ']

/-- `diff --git ` -/
def diffMark : List Char := ['d', 'i', 'f', 'f', ' ', '-', '-', 'g', 'i', 't', ' ']

def devNull : List Char := ['/', 'd', 'e', 'v', '/', 'n', 'u', 'l', 'l']

/-- The file that a `+++` line names. -/
def newFile (rawPath : List Char) : Option (List Char) :=
  if rawPath = devNull then none
  else some ((afterText ['b', '/'] rawPath).getD rawPath)

namespace ParserState

/-- `flush_hunk` -/
def flushHunk (limit : ℤ) (s : ParserState) : ParserState :=
  match s.inHunk, s.currentFile with
  | true, some file =>
    { s with chunks := s.chunks ++ construct (s.hunkChunks limit file), inHunk := false }
  | _, _ => { s with inHunk := false }

/-- A hunk begins. -/
def startHunk (limit : ℤ) (s : ParserState) (line : Line) (m : HunkHeader) : ParserState :=
  let s := s.flushHunk limit
  let newCount := m.newCount.getD 1
  let contextText := strip m.context
  if newCount = 0 then { s with inHunk := false, hunkLines := [] }
  else
    { s with
      hunkStart := m.newStart
      hunkEnd := m.newStart + newCount - 1
      symbol :=
        if contextText ≠ [] then contextText
        else (s.currentFile.elim [] pathName) ++ s!":{m.newStart}".toList
      hunkLines := [line]
      inHunk := true }

/-- The body of the loop over the lines. -/
def parseLine (digits : Digits) (limit : ℤ) (s : ParserState) (line : Line) : ParserState :=
  match afterText diffMark (strippedLine line) with
  | some _ => { s.flushHunk limit with currentFile := none, hunkLines := [] }
  | none =>
    match afterText plusMark (strippedLine line) with
    | some rawPath => { s with currentFile := newFile rawPath }
    | none =>
      match hunkHeader digits (strippedLine line) with
      | some m => s.startHunk limit line m
      | none => if s.inHunk then { s with hunkLines := s.hunkLines ++ [line] } else s

end ParserState

/-- `parse_diff_to_chunks` -/
def parseDiffToChunks (digits : Digits) (limit : ℤ) (rawDiff : List Char) : List ChunkFields :=
  let s := (splitLines rawDiff).foldl (ParserState.parseLine digits limit) .initial
  (s.flushHunk limit).chunks

/-! ## Splitting -/

/-- A text within the limit, or lines of which only the last may be one of the new file. -/
def Capped (limit : ℤ) (seen : List Line) (code : List Char) : Prop :=
  (code.length : ℤ) ≤ limit ∨ ∃ lines : List Line, lines.Sublist seen ∧ code = lines.flatten ∧
    ∀ line ∈ lines.dropLast, advances line = false

theorem Capped.mono {limit : ℤ} {seen seen' : List Line} (h : seen.Sublist seen')
    {code : List Char} (hcode : Capped limit seen code) : Capped limit seen' code :=
  hcode.imp_right fun ⟨lines, hlines, hlast⟩ => ⟨lines, hlines.trans h, hlast⟩

theorem length_slice_le {limit : ℤ} {ln : Line} {pieces : List (List Char)}
    (h : slices limit ln = some pieces) : ∀ piece ∈ pieces, (piece.length : ℤ) ≤ limit := by
  unfold slices at h
  split at h
  · cases h
  · obtain rfl := Option.some.inj h
    intro piece hpiece
    obtain ⟨k, hk, rfl⟩ := List.mem_map.1 hpiece
    -- there is no piece unless the limit is positive
    have hlimit : 0 < limit := by
      by_contra hneg
      have hzero : limit.toNat = 0 := by omega
      rw [hzero] at hk
      simp at hk
    rw [List.length_take]
    omega

namespace SplitState

variable {limit : ℤ} {s s' : SplitState}

/-- What holds of every line that is added holds of all of them. -/
theorem foldlM_addLine {P : List Line → SplitState → Prop}
    (hstep : ∀ seen s ln s', P seen s → s.addLine limit ln = some s' → P (seen ++ [ln]) s') :
    ∀ (lines seen : List Line) {s s' : SplitState}, P seen s →
      lines.foldlM (addLine limit) s = some s' → P (seen ++ lines) s'
  | [], seen, s, s', h, hrun => by
    obtain rfl := Option.some.inj hrun
    rwa [List.append_nil]
  | ln :: lines, seen, s, s', h, hrun => by
    rw [List.foldlM_cons] at hrun
    obtain ⟨next, hnext, hrun⟩ := Option.bind_eq_some_iff.1 hrun
    have hrest := foldlM_addLine hstep lines (seen ++ [ln]) (hstep seen s ln next h hnext) hrun
    rwa [List.append_assoc, List.singleton_append] at hrest

/-- The parts are capped, and the current part will be. -/
structure Inv (limit : ℤ) (seen : List Line) (s : SplitState) : Prop where
  len : s.currentLen = s.currentPart.flatten.length
  current : s.currentPart.Sublist seen
  offset : s.partLineOffset ≤ s.runningLine
  fresh : ∀ ln ∈ s.currentPart, advances ln = true → s.partLineOffset < s.runningLine
  capped : (s.currentPart.flatten.length : ℤ) ≤ limit ∨
    ∀ line ∈ s.currentPart.dropLast, advances line = false
  parts : ∀ p ∈ s.parts, Capped limit seen p.code

theorem inv_initial : Inv limit [] initial where
  len := rfl
  current := List.Sublist.refl _
  offset := Nat.le_refl _
  fresh := List.forall_mem_nil _
  capped := Or.inr (List.forall_mem_nil _)
  parts := List.forall_mem_nil _

variable {seen : List Line}

theorem Inv.flush (h : s.Inv limit seen) : s.flush.Inv limit seen where
  len := rfl
  current := List.nil_sublist _
  offset := Nat.le_refl _
  fresh := List.forall_mem_nil _
  capped := Or.inr (List.forall_mem_nil _)
  parts := List.forall_mem_append.2 ⟨h.parts, List.forall_mem_singleton.2
    (h.capped.imp_right fun hlast => ⟨_, h.current, rfl, hlast⟩)⟩

@[simp] theorem countLine_parts (ln : Line) : (s.countLine ln).parts = s.parts := by
  unfold countLine
  split <;> rfl

@[simp] theorem countLine_currentPart (ln : Line) :
    (s.countLine ln).currentPart = s.currentPart := by
  unfold countLine
  split <;> rfl

@[simp] theorem countLine_currentLen (ln : Line) : (s.countLine ln).currentLen = s.currentLen := by
  unfold countLine
  split <;> rfl

@[simp] theorem countLine_partLineOffset (ln : Line) :
    (s.countLine ln).partLineOffset = s.partLineOffset := by
  unfold countLine
  split <;> rfl

theorem countLine_runningLine (ln : Line) :
    (s.countLine ln).runningLine = s.runningLine + if advances ln then 1 else 0 := by
  unfold countLine
  split <;> rfl

/-- The current part may be done before a line is added. -/
def Follows (s t : SplitState) : Prop := t = s ∨ s.currentPart ≠ [] ∧ t = s.flush

variable {ln : Line}

/-- What becomes of a line. -/
theorem addLine_cases (h : s.addLine limit ln = some s') :
    (∃ t pieces, s.Follows t ∧ t.currentPart = [] ∧ slices limit ln = some pieces ∧
      s' = t.addPieces pieces ln) ∨
    (∃ t, s.Follows t ∧ s' = t.push ln ∧ (ln.length : ℤ) ≤ limit ∧ (t.currentPart = [] ∨
      t.runningLine ≤ t.partLineOffset ∨ (t.currentLen + ln.length : ℤ) ≤ limit)) := by
  unfold addLine at h
  split at h
  · left
    unfold addSlices at h
    obtain ⟨pieces, hpieces, rfl⟩ := Option.map_eq_some_iff.1 h
    by_cases hnil : s.currentPart = []
    · exact ⟨s, pieces, Or.inl rfl, hnil, hpieces, by rw [if_pos hnil]⟩
    · exact ⟨s.flush, pieces, Or.inr ⟨hnil, rfl⟩, rfl, hpieces, by rw [if_neg hnil]⟩
  · right
    rename_i hshort
    obtain rfl := Option.some.inj h
    unfold addShort
    by_cases hcut : limit < s.currentLen + ln.length ∧ s.currentPart ≠ [] ∧
        s.partLineOffset < s.runningLine
    · exact ⟨s.flush, Or.inr ⟨hcut.2.1, rfl⟩, by rw [if_pos hcut], by omega, Or.inl rfl⟩
    · refine ⟨s, Or.inl rfl, by rw [if_neg hcut], by omega, ?_⟩
      rw [not_and_or, not_and_or, not_not] at hcut
      rcases hcut with hroom | hnil | hstale
      · exact Or.inr (Or.inr (by omega))
      · exact Or.inl hnil
      · exact Or.inr (Or.inl (by omega))

theorem Inv.follows {t : SplitState} (h : s.Inv limit seen)
    (ht : s.Follows t) : t.Inv limit seen := by
  rcases ht with rfl | ⟨-, rfl⟩
  · exact h
  · exact h.flush

theorem Inv.addPieces {pieces : List (List Char)}
    (h : s.Inv limit seen) (hnil : s.currentPart = []) (hpieces : slices limit ln = some pieces) :
    (s.addPieces pieces ln).Inv limit (seen ++ [ln]) where
  len := by simpa [SplitState.addPieces] using h.len
  current := by simp [SplitState.addPieces, hnil]
  offset := by
    simp only [SplitState.addPieces, countLine_partLineOffset, countLine_runningLine]
    exact h.offset.trans (Nat.le_add_right _ _)
  fresh := by simp [SplitState.addPieces, hnil]
  capped := by simp [SplitState.addPieces, hnil]
  parts := by
    simp only [SplitState.addPieces, countLine_parts]
    refine List.forall_mem_append.2 ⟨fun p hp => ?_, List.forall_mem_map.2 fun piece hp => ?_⟩
    · exact (h.parts p hp).mono (List.sublist_append_left _ _)
    · exact Or.inl (length_slice_le hpieces piece hp)

/-- A part grows over the limit only while it has no line of the new file. -/
theorem Inv.push (h : s.Inv limit seen)
    (hroom : s.currentPart = [] ∨ s.runningLine ≤ s.partLineOffset ∨
      (s.currentLen + ln.length : ℤ) ≤ limit) : (s.push ln).Inv limit (seen ++ [ln]) where
  len := by simp [SplitState.push, h.len]
  current := by
    simp only [SplitState.push, countLine_currentPart]
    exact h.current.append (List.Sublist.refl _)
  offset := by
    simp only [SplitState.push, countLine_partLineOffset, countLine_runningLine]
    exact h.offset.trans (Nat.le_add_right _ _)
  fresh := by
    simp only [SplitState.push, countLine_currentPart, countLine_partLineOffset,
      countLine_runningLine]
    refine List.forall_mem_append.2 ⟨fun line hline hadv => ?_, List.forall_mem_singleton.2 ?_⟩
    · exact (h.fresh line hline hadv).trans_le (Nat.le_add_right _ _)
    · intro hadv
      rw [if_pos hadv]
      exact Nat.lt_succ_of_le h.offset
  capped := by
    simp only [SplitState.push, countLine_currentPart, List.dropLast_concat]
    rcases hroom with hnil | hstale | hroom
    · exact Or.inr (by simp [hnil])
    · refine Or.inr fun line hline => ?_
      by_contra hadv
      have hfresh := h.fresh line hline (by simpa using hadv)
      omega
    · left
      rw [h.len] at hroom
      simpa using hroom
  parts := by
    simp only [SplitState.push, countLine_parts]
    exact fun p hp => (h.parts p hp).mono (List.sublist_append_left _ _)

theorem Inv.addLine (seen : List Line) (s : SplitState) (ln : Line) (s' : SplitState)
    (h : s.Inv limit seen) (hrun : s.addLine limit ln = some s') : s'.Inv limit (seen ++ [ln]) := by
  rcases addLine_cases hrun with
    ⟨t, pieces, ht, hnil, hpieces, rfl⟩ | ⟨t, ht, rfl, -, hroom⟩
  · exact (h.follows ht).addPieces hnil hpieces
  · exact (h.follows ht).push hroom

end SplitState

theorem splitHunk_capped {limit : ℤ} {hunkLines : List Line} {parts : List Part} {running : ℕ}
    (h : splitHunk limit hunkLines = some (parts, running)) :
    ∀ p ∈ parts, Capped limit hunkLines p.code := by
  unfold splitHunk at h
  obtain ⟨s, hrun, hs⟩ := Option.map_eq_some_iff.1 h
  have hinv : s.Inv limit hunkLines :=
    SplitState.foldlM_addLine SplitState.Inv.addLine hunkLines [] SplitState.inv_initial hrun
  obtain ⟨rfl, -⟩ := Prod.mk.inj hs
  split
  · exact hinv.parts
  · exact hinv.flush.parts

/-! ## The chunks of a diff -/

theorem mem_construct {c : ChunkFields} : ∀ {cs : List ChunkFields}, c ∈ construct cs →
    ∃ c' ∈ cs, c.code = c'.code
  | [], hc => absurd hc List.not_mem_nil
  | c' :: cs, hc => by
    unfold construct at hc
    split at hc
    · rename_i chunk hchunk
      rcases List.mem_cons.1 hc with rfl | hc
      · obtain ⟨-, rfl⟩ := ChunkFields.validate_eq_ok_iff.1 hchunk
        exact ⟨c', List.mem_cons_self, rfl⟩
      · obtain ⟨c'', hc'', hcode⟩ := mem_construct hc
        exact ⟨c'', List.mem_cons_of_mem _ hc'', hcode⟩
    · exact absurd hc List.not_mem_nil

namespace ParserState

variable {digits : Digits} {limit : ℤ} {s : ParserState}

theorem hunkChunks_capped (file : List Char) :
    ∀ c ∈ s.hunkChunks limit file, Capped limit s.hunkLines c.code := by
  intro c hc
  unfold hunkChunks at hc
  split at hc
  · rename_i hwhole
    rw [List.mem_singleton.1 hc]
    exact Or.inl hwhole
  · split at hc
    · exact absurd hc List.not_mem_nil
    · rename_i parts running hsplit
      obtain ⟨⟨⟨part, lineEndOffset⟩, n⟩, hpart, rfl⟩ := List.mem_map.1 hc
      have hmem : part ∈ parts := (List.of_mem_zip (List.fst_mem_of_mem_zipIdx hpart)).1
      exact splitHunk_capped hsplit part hmem

/-- The lines of the current hunk are lines of the diff, and every chunk is capped. -/
structure Inv (limit : ℤ) (seen : List Line) (s : ParserState) : Prop where
  lines : s.hunkLines.Sublist seen
  chunks : ∀ c ∈ s.chunks, Capped limit seen c.code

theorem inv_initial : Inv limit [] initial := ⟨List.Sublist.refl _, List.forall_mem_nil _⟩

theorem Inv.mono {seen seen' : List Line} (hsub : seen.Sublist seen') (h : s.Inv limit seen) :
    s.Inv limit seen' :=
  ⟨h.lines.trans hsub, fun c hc => (h.chunks c hc).mono hsub⟩

theorem Inv.flushHunk {seen : List Line} (h : s.Inv limit seen) :
    (s.flushHunk limit).Inv limit seen := by
  unfold ParserState.flushHunk
  split
  · refine ⟨h.lines, List.forall_mem_append.2 ⟨h.chunks, fun c hc => ?_⟩⟩
    obtain ⟨c', hc', hcode⟩ := mem_construct hc
    rw [hcode]
    exact (hunkChunks_capped _ c' hc').mono h.lines
  · exact ⟨h.lines, h.chunks⟩

theorem Inv.parseLine (digits : Digits) {seen : List Line} (h : s.Inv limit seen) (line : Line) :
    (s.parseLine digits limit line).Inv limit (seen ++ [line]) := by
  have hsub : seen.Sublist (seen ++ [line]) := List.sublist_append_left _ _
  have hflush := h.flushHunk.mono hsub
  unfold ParserState.parseLine
  split
  · exact ⟨List.nil_sublist _, hflush.chunks⟩
  · split
    · exact ⟨(h.mono hsub).lines, (h.mono hsub).chunks⟩
    · split
      · unfold startHunk
        dsimp only
        split
        · exact ⟨List.nil_sublist _, hflush.chunks⟩
        · exact ⟨List.sublist_append_right _ _, hflush.chunks⟩
      · split
        · exact ⟨h.lines.append (List.Sublist.refl _), (h.mono hsub).chunks⟩
        · exact h.mono hsub

theorem Inv.foldl : ∀ (lines seen : List Line) {s : ParserState}, s.Inv limit seen →
    (lines.foldl (ParserState.parseLine digits limit) s).Inv limit (seen ++ lines)
  | [], seen, s, h => by rwa [List.append_nil]
  | line :: lines, seen, s, h => by
    have hrest := Inv.foldl lines (seen ++ [line]) (h.parseLine digits line)
    rwa [List.append_assoc, List.singleton_append] at hrest

end ParserState

/-- A chunk has at most as many characters as the limit says, unless it is made of lines of which
none but the last is an added line or a line of context. -/
theorem parse_code_bounded (digits : Digits) (limit : ℤ) (rawDiff : List Char) :
    ∀ c ∈ parseDiffToChunks digits limit rawDiff, (c.code.length : ℤ) ≤ limit ∨
      ∃ lines : List Line, lines.Sublist (splitLines rawDiff) ∧ c.code = lines.flatten ∧
        ∀ line ∈ lines.dropLast, advances line = false :=
  (ParserState.Inv.foldl (splitLines rawDiff) [] ParserState.inv_initial).flushHunk.chunks

/-- The digits of ASCII only. -/
def asciiDigits : Digits where
  value c := if c.isDigit then some (c.toNat - '0'.toNat) else none
  ascii _ _ := rfl

/-- Two lines are deleted in front of a line of context. -/
def twoDeletions : List Char :=
  "diff --git a/f b/f\n+++ b/f\n@@ -1,3 +1 @@\n-aaaaaaaa\n-bbbbbbbb\n c\n".toList

/-- The chunk of the deletions is longer, and made of lines of the diff. -/
theorem parse_code_bounded_twoDeletions : ∃ c ∈ parseDiffToChunks asciiDigits 19 twoDeletions,
    19 < c.code.length ∧ ∃ lines : List Line, lines.Sublist (splitLines twoDeletions) ∧
      c.code = lines.flatten ∧ ∀ line ∈ lines.dropLast, advances line = false := by
  have hlong : ∃ c ∈ parseDiffToChunks asciiDigits 19 twoDeletions, 19 < c.code.length := by
    decide +kernel
  obtain ⟨c, hc, hlen⟩ := hlong
  refine ⟨c, hc, hlen, ?_⟩
  exact (parse_code_bounded asciiDigits 19 twoDeletions c hc).resolve_left (by omega)

/-- The deletions are not cut off. -/
theorem deletions_over_limit : (∀ line ∈ splitLines twoDeletions, line.length ≤ 19) ∧
    (parseDiffToChunks asciiDigits 19 twoDeletions).map (·.code.length) = [37] := by
  decide +kernel

end ChunkHound.GitDiff
