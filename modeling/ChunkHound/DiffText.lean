import ChunkHound.GitDiffParser

/-!
# The text of a diff

A unified diff as git writes it, by files and hunks, and how `parse_diff_to_chunks` reads it. The
parser breaks lines where `str.splitlines` does, which is more often than git does, and looks for
the beginning of a file or of a hunk at every line, also inside a hunk. When no line of a hunk is
taken for one, the chunks of the diff are those of its hunks (`parse_diffText`).
-/

namespace ChunkHound.GitDiff

open Cast (ChunkFields)

/-! ## Lines -/

/-- Nothing is lost between the lines. -/
theorem flatten_splitLines (s : List Char) : (splitLines s).flatten = s := by
  fun_induction splitLines s with
  | case1 => rfl
  | case2 rest ih => rw [List.flatten_cons, ih]; rfl
  | case3 c rest h hbreak ih => rw [List.flatten_cons, ih, List.singleton_append]
  | case4 c rest h hbreak hnil ih =>
    rw [hnil] at ih
    rw [← ih]
    rfl
  | case5 c rest h hbreak line lines hlines ih =>
    rw [hlines, List.flatten_cons] at ih
    rw [List.flatten_cons, List.cons_append, ih]

theorem ne_nil_of_mem_splitLines {s : List Char} : ∀ line ∈ splitLines s, line ≠ [] := by
  fun_induction splitLines s with
  | case1 => exact List.forall_mem_nil _
  | case2 rest ih => exact List.forall_mem_cons.2 ⟨List.cons_ne_nil _ _, ih⟩
  | case3 c rest h hbreak ih => exact List.forall_mem_cons.2 ⟨List.cons_ne_nil _ _, ih⟩
  | case4 c rest h hbreak hnil ih => exact List.forall_mem_singleton.2 (List.cons_ne_nil _ _)
  | case5 c rest h hbreak line lines hlines ih =>
    rw [hlines] at ih
    exact List.forall_mem_cons.2 ⟨List.cons_ne_nil _ _, (List.forall_mem_cons.1 ih).2⟩

variable {c : Char}

theorem splitLines_cons {rest : List Char} (h : c = '\r' → rest.head? ≠ some '\n') :
    splitLines (c :: rest) =
      if isLineBreak c then [c] :: splitLines rest
      else match splitLines rest with
        | [] => [[c]]
        | line :: lines => (c :: line) :: lines := by
  rw [splitLines.eq_def]
  split
  · rename_i heq
    cases heq
  · rename_i rest' heq
    obtain ⟨rfl, rfl⟩ := List.cons.inj heq
    exact absurd rfl (h rfl)
  · rename_i heq
    obtain ⟨rfl, rfl⟩ := List.cons.inj heq
    rfl

theorem splitLines_eq_nil_iff {s : List Char} : splitLines s = [] ↔ s = [] := by
  constructor
  · intro h
    have hflat := flatten_splitLines s
    rw [h] at hflat
    exact hflat.symm
  · rintro rfl
    rfl

/-- A line is done at its `\n`, whatever follows. -/
theorem splitLines_newline (b : List Char) : ∀ a : List Char,
    splitLines (a ++ '\n' :: b) = splitLines (a ++ ['\n']) ++ splitLines b
  | [] => by simp [splitLines, isLineBreak]
  | '\r' :: '\n' :: a => by simp [splitLines, splitLines_newline b a]
  | ['\r'] => by simp [splitLines]
  | c :: a => by
    by_cases hcr : c = '\r' → (a ++ ['\n']).head? ≠ some '\n'
    · have hcr' : c = '\r' → (a ++ '\n' :: b).head? ≠ some '\n' := by
        intro hc
        have hhead := hcr hc
        cases a with
        | nil => simp at hhead
        | cons d a => simpa using hhead
      rw [List.cons_append, List.cons_append, splitLines_cons hcr, splitLines_cons hcr',
        splitLines_newline b a]
      split
      · rfl
      · cases hlines : splitLines (a ++ ['\n']) with
        | nil => simp [splitLines_eq_nil_iff] at hlines
        | cons line lines => rfl
    · push Not at hcr
      obtain ⟨rfl, hhead⟩ := hcr
      cases a with
      | nil => simp [splitLines]
      | cons d a =>
        obtain rfl : d = '\n' := by simpa using hhead
        simp [splitLines, splitLines_newline b a]

/-- The text ends with a `\n`. -/
def EndsLine (a : List Char) : Prop := ∃ a', a = a' ++ ['\n']

theorem EndsLine.splitLines_append {a : List Char} (h : EndsLine a) (b : List Char) :
    splitLines (a ++ b) = splitLines a ++ splitLines b := by
  obtain ⟨a', rfl⟩ := h
  rw [List.append_assoc, List.singleton_append, splitLines_newline]

variable {line : Line}

/-- A text without breaks stands in front of the first line. -/
theorem splitLines_prefix {rest : List Char} {lines : List Line}
    (hrest : splitLines rest = line :: lines) : ∀ {front : List Char},
    (∀ c ∈ front, isLineBreak c = false) →
      splitLines (front ++ rest) = (front ++ line) :: lines
  | [], _ => hrest
  | c :: front, hfront => by
    obtain ⟨hc, hfront⟩ := List.forall_mem_cons.1 hfront
    have hcr : c = '\r' → (front ++ rest).head? ≠ some '\n' := by
      rintro rfl
      exact absurd hc (by decide)
    rw [List.cons_append, splitLines_cons hcr, if_neg (by simp [hc]),
      splitLines_prefix hrest hfront]
    rfl

theorem splitLines_line (h : ∀ c ∈ line, isLineBreak c = false) :
    splitLines (line ++ ['\n']) = [line ++ ['\n']] :=
  splitLines_prefix rfl h

theorem rdropWhile_append_cons (p : Char → Bool) (front : List Char) (hc : p c = false)
    (s : List Char) : (front ++ c :: s).rdropWhile p = front ++ c :: s.rdropWhile p := by
  induction s using List.reverseRecOn with
  | nil => rw [List.rdropWhile_concat_neg _ _ _ (by simp [hc]), List.rdropWhile_nil]
  | append_singleton s d ih =>
    rw [← List.cons_append, ← List.append_assoc, List.rdropWhile_concat, List.rdropWhile_concat]
    split
    · exact ih
    · simp

/-- Only what comes after a character that ends no line is stripped. -/
theorem strippedLine_append (front : List Char) (hn : c ≠ '\n') (hr : c ≠ '\r')
    (s : List Char) : strippedLine (front ++ c :: s) = front ++ c :: strippedLine s := by
  unfold strippedLine
  rw [rdropWhile_append_cons _ front (by simpa using hn),
    rdropWhile_append_cons _ front (by simpa using hr)]

theorem strippedLine_line (h : ∀ c ∈ line, isLineBreak c = false) :
    strippedLine (line ++ ['\n']) = line := by
  rcases List.eq_nil_or_concat line with rfl | ⟨front, c, rfl⟩
  · rfl
  · have hc : isLineBreak c = false := h c (by simp)
    have hn : c ≠ '\n' := by
      rintro rfl
      exact absurd hc (by decide)
    have hr : c ≠ '\r' := by
      rintro rfl
      exact absurd hc (by decide)
    rw [List.concat_eq_append, List.append_assoc, List.singleton_append,
      strippedLine_append front hn hr]
    rfl

theorem afterText_append : ∀ (p s : List Char), afterText p (p ++ s) = some s
  | [], _ => rfl
  | c :: p, s => by
    rw [List.cons_append, afterText, if_pos rfl]
    exact afterText_append p s

/-! ## Numbers -/

namespace Digits

variable (digits : Digits)

theorem isDigit_eq {c : Char} (h : c.toNat < 128) : digits.isDigit c = c.isDigit := by
  unfold isDigit
  rw [digits.ascii c h]
  cases c.isDigit <;> rfl

theorem toNat_lt_of_isDigit {c : Char} (h : c.isDigit = true) : c.toNat < 128 := by
  simp only [Char.isDigit, Bool.and_eq_true, decide_eq_true_eq] at h
  have := UInt32.le_iff_toNat_le.1 h.2
  change c.toNat ≤ 57 at this
  omega

theorem int_toDigits (n : ℕ) : digits.int (Nat.toDigits 10 n) = n := by
  have hint : digits.int (Nat.toDigits 10 n) = Nat.ofDigitChars 10 (Nat.toDigits 10 n) 0 := by
    rw [Nat.ofDigitChars_eq_foldl]
    refine List.foldl_ext _ _ _ fun k c hc => ?_
    have hdigit := Nat.isDigit_of_mem_toDigits (by decide) (by decide) hc
    rw [digits.ascii c (toNat_lt_of_isDigit hdigit), if_pos hdigit, Option.getD_some]
  rw [hint, Nat.ofDigitChars_ten_toDigits]

/-- A number in front of a character that is no digit. -/
theorem number_toDigits (n : ℕ) {c : Char} (hc : digits.isDigit c = false) (rest : List Char) :
    digits.number (Nat.toDigits 10 n ++ c :: rest) = some (n, c :: rest) := by
  have hdigits : ∀ d ∈ Nat.toDigits 10 n, digits.isDigit d = true := by
    intro d hd
    have hdigit := Nat.isDigit_of_mem_toDigits (by decide) (by decide) hd
    rwa [digits.isDigit_eq (toNat_lt_of_isDigit hdigit)]
  have hhead : ¬ digits.isDigit c = true := by simp [hc]
  unfold number
  rw [List.takeWhile_append_of_pos hdigits, List.takeWhile_cons_of_neg hhead, List.append_nil,
    List.dropWhile_append_of_pos hdigits, List.dropWhile_cons_of_neg hhead,
    if_neg Nat.toDigits_ne_nil, digits.int_toDigits]

end Digits

/-! ## Hunks -/

/-- The lines of a hunk in one of the files. A count of 1 may be left out. -/
structure Range where
  start : ℕ
  count : Option ℕ

namespace Range

def lines (r : Range) : ℕ := r.count.getD 1

def countText (r : Range) : List Char := r.count.elim [] fun n => ',' :: Nat.toDigits 10 n

def text (r : Range) : List Char := Nat.toDigits 10 r.start ++ r.countText

end Range

/-- A hunk of a unified diff. Its lines come without their `\n`. -/
structure Hunk where
  old : Range
  new : Range
  heading : List Char
  body : List Line
  start_pos : new.lines ≠ 0 → 0 < new.start

namespace Hunk

/-- The header, up to the heading. -/
def mark (h : Hunk) : List Char :=
  ['@', '@', ' ', '-'] ++ (h.old.text ++ ([' ', '+'] ++ (h.new.text ++ [' ', '@', '@'])))

/-- What follows the mark. -/
def rest (h : Hunk) : List Char := h.heading ++ '\n' :: h.body.flatMap (· ++ ['\n'])

def text (h : Hunk) : List Char := h.mark ++ h.rest

end Hunk

section Header

variable (digits : Digits)

theorem isDigit_space : digits.isDigit ' ' = false := digits.isDigit_eq (by decide)

theorem isDigit_comma : digits.isDigit ',' = false := digits.isDigit_eq (by decide)

theorem count_countText (r : Range) (s : List Char) :
    digits.count (r.countText ++ ' ' :: s) = (r.count, ' ' :: s) := by
  unfold Digits.count Range.countText
  cases hcount : r.count with
  | none => rfl
  | some n =>
    have hnumber := digits.number_toDigits n (isDigit_space digits) s
    simp [afterText, hnumber]

theorem number_text (r : Range) (s : List Char) :
    digits.number (r.text ++ ' ' :: s) = some (r.start, r.countText ++ ' ' :: s) := by
  unfold Range.text Range.countText
  cases r.count with
  | none =>
    simpa using digits.number_toDigits r.start (isDigit_space digits) s
  | some n =>
    simpa using digits.number_toDigits r.start (isDigit_comma digits)
      (Nat.toDigits 10 n ++ ' ' :: s)

/-- The header is read back. -/
theorem hunkHeader_mark (h : Hunk) (s : List Char) : hunkHeader digits (h.mark ++ s) =
    some ⟨h.new.start, h.new.count, s.takeWhile (· ≠ '\n')⟩ := by
  unfold hunkHeader Hunk.mark
  simp only [List.append_assoc, List.cons_append, List.nil_append, afterText, if_true,
    Option.bind_eq_bind, Option.bind_some, number_text, count_countText]

end Header

/-- The line is read as the beginning of a file or of a hunk. -/
def isMarked (digits : Digits) (line : Line) : Bool :=
  (afterText diffMark (strippedLine line)).isSome ||
    (afterText plusMark (strippedLine line)).isSome ||
    (hunkHeader digits (strippedLine line)).isSome

/-- No line of the hunk, as `splitlines` breaks it, is read as the beginning of something else. -/
def Hunk.Plain (digits : Digits) (h : Hunk) : Prop :=
  ∀ line ∈ (splitLines h.text).tail, isMarked digits line = false

instance (digits : Digits) (h : Hunk) : Decidable (h.Plain digits) :=
  inferInstanceAs (Decidable (∀ line ∈ (splitLines h.text).tail, isMarked digits line = false))

/-- The differences of a file. The lines come without their `\n`. Git quotes line breaks in a name,
and a file that is not there any more has no lines. -/
structure FileDiff where
  names : Line
  extended : List Line
  path : Option Line
  hunks : List Hunk
  names_line : ∀ c ∈ names, isLineBreak c = false
  extended_line : ∀ line ∈ extended, ∀ c ∈ line, isLineBreak c = false
  extended_plain : ∀ line ∈ extended, ∀ mark ∈ [diffMark, plusMark, ['@', '@', ' ', '-']],
    afterText mark line = none
  path_line : ∀ p ∈ path, ∀ c ∈ p, isLineBreak c = false
  deleted : path.bind newFile = none → ∀ h ∈ hunks, h.new.lines = 0

/-- The lines in front of the hunks. -/
def FileDiff.preamble (f : FileDiff) : List Line :=
  (diffMark ++ f.names) :: f.extended ++ (f.path.map (plusMark ++ ·)).toList

def FileDiff.text (f : FileDiff) : List Char :=
  f.preamble.flatMap (· ++ ['\n']) ++ f.hunks.flatMap Hunk.text

/-! ## Reading a diff -/

theorem EndsLine.append {b : List Char} (h : EndsLine b) (a : List Char) : EndsLine (a ++ b) := by
  obtain ⟨b', rfl⟩ := h
  exact ⟨a ++ b', (List.append_assoc ..).symm⟩

theorem endsLine_line (line : Line) : EndsLine (line ++ ['\n']) := ⟨line, rfl⟩

theorem endsLine_flatMap {α : Type*} {f : α → List Char} (hf : ∀ x, EndsLine (f x)) {l : List α}
    (hl : l ≠ []) : EndsLine (l.flatMap f) := by
  rw [← List.dropLast_concat_getLast hl, List.flatMap_append, List.flatMap_singleton]
  exact (hf _).append _

theorem Hunk.text_endsLine (h : Hunk) : EndsLine h.text := by
  unfold Hunk.text Hunk.rest
  cases hbody : h.body with
  | nil => exact ((endsLine_line []).append h.heading).append h.mark
  | cons line body =>
    have hlines := endsLine_flatMap endsLine_line (List.cons_ne_nil line body)
    exact ((hlines.append ['\n']).append h.heading).append h.mark

theorem splitLines_flatMap {α : Type*} {f : α → List Char} (hf : ∀ x, EndsLine (f x))
    (b : List Char) : ∀ l : List α,
    splitLines (l.flatMap f ++ b) = l.flatMap (fun x => splitLines (f x)) ++ splitLines b
  | [] => rfl
  | x :: l => by
    rw [List.flatMap_cons, List.append_assoc, (hf x).splitLines_append, splitLines_flatMap hf b l,
      List.flatMap_cons, List.append_assoc]

/-- To look for line breaks in a text. -/
theorem isLineBreak_of_any (h : line.any isLineBreak = false) :
    ∀ c ∈ line, isLineBreak c = false :=
  fun c hc => eq_false_of_ne_true (List.any_eq_false.1 h c hc)

theorem isLineBreak_of_isDigit (h : c.isDigit = true) : isLineBreak c = false := by
  simp only [Char.isDigit, Bool.and_eq_true, decide_eq_true_eq] at h
  have hlow := UInt32.le_iff_toNat_le.1 h.1
  have hhigh := UInt32.le_iff_toNat_le.1 h.2
  change 48 ≤ c.toNat at hlow
  change c.toNat ≤ 57 at hhigh
  simp only [isLineBreak, List.contains_eq_mem, List.mem_cons, List.not_mem_nil, or_false,
    decide_eq_false_iff_not]
  omega

theorem isLineBreak_toDigits {n : ℕ} (h : c ∈ Nat.toDigits 10 n) :
    isLineBreak c = false :=
  isLineBreak_of_isDigit (Nat.isDigit_of_mem_toDigits (by decide) (by decide) h)

theorem Range.isLineBreak_text (r : Range) : ∀ c ∈ r.text, isLineBreak c = false := by
  unfold Range.text Range.countText
  refine List.forall_mem_append.2 ⟨fun c => isLineBreak_toDigits, ?_⟩
  cases r.count with
  | none => exact List.forall_mem_nil _
  | some n => exact List.forall_mem_cons.2 ⟨by decide, fun c => isLineBreak_toDigits⟩

theorem Hunk.isLineBreak_mark (h : Hunk) : ∀ c ∈ h.mark, isLineBreak c = false := by
  unfold Hunk.mark
  refine List.forall_mem_append.2 ⟨isLineBreak_of_any (by decide), List.forall_mem_append.2
    ⟨h.old.isLineBreak_text, List.forall_mem_append.2 ⟨isLineBreak_of_any (by decide),
      List.forall_mem_append.2 ⟨h.new.isLineBreak_text, isLineBreak_of_any (by decide)⟩⟩⟩⟩

/-- The mark ends with a character that is not stripped. -/
theorem Hunk.strippedLine_mark (h : Hunk) (s : List Char) :
    strippedLine (h.mark ++ s) = h.mark ++ strippedLine s := by
  obtain ⟨front, hfront⟩ : ∃ front, h.mark = front ++ ['@'] :=
    ⟨['@', '@', ' ', '-'] ++ (h.old.text ++ ([' ', '+'] ++ (h.new.text ++ [' ', '@']))),
      by simp [Hunk.mark]⟩
  rw [hfront, List.append_assoc, List.append_assoc, List.singleton_append, List.singleton_append,
    strippedLine_append front (by decide) (by decide)]

/-- The first line of a hunk is its header. -/
theorem Hunk.splitLines_text (h : Hunk) (digits : Digits) : ∃ line lines context,
    splitLines h.text = line :: lines ∧ afterText diffMark (strippedLine line) = none ∧
      afterText plusMark (strippedLine line) = none ∧
      hunkHeader digits (strippedLine line) = some ⟨h.new.start, h.new.count, context⟩ := by
  cases hrest : splitLines h.rest with
  | nil =>
    have hnil := splitLines_eq_nil_iff.1 hrest
    simp [Hunk.rest] at hnil
  | cons first lines =>
    refine ⟨h.mark ++ first, lines, (strippedLine first).takeWhile (· ≠ '\n'),
      splitLines_prefix hrest h.isLineBreak_mark, ?_, ?_, ?_⟩
    · rw [h.strippedLine_mark]
      simp [Hunk.mark, diffMark, afterText]
    · rw [h.strippedLine_mark]
      simp [Hunk.mark, plusMark, afterText]
    · rw [h.strippedLine_mark]
      exact hunkHeader_mark digits h _

namespace ParserState

variable {digits : Digits} {limit : ℤ} {s : ParserState}

theorem parseLine_plain {line : Line} (h : isMarked digits line = false) :
    s.parseLine digits limit line =
      if s.inHunk then { s with hunkLines := s.hunkLines ++ [line] } else s := by
  unfold isMarked at h
  simp only [Bool.or_eq_false_iff, Option.isSome_eq_false_iff, Option.isNone_iff_eq_none] at h
  obtain ⟨⟨hdiff, hplus⟩, hheader⟩ := h
  unfold parseLine
  rw [hdiff, hplus, hheader]

theorem foldl_plain : ∀ {lines : List Line} {s : ParserState},
    (∀ line ∈ lines, isMarked digits line = false) →
    lines.foldl (parseLine digits limit) s =
      if s.inHunk then { s with hunkLines := s.hunkLines ++ lines } else s
  | [], s, _ => by simp
  | line :: lines, s, h => by
    obtain ⟨hline, hlines⟩ := List.forall_mem_cons.1 h
    rw [List.foldl_cons, parseLine_plain hline]
    cases hin : s.inHunk with
    | true => simp [foldl_plain hlines]
    | false => simp [foldl_plain hlines, hin]

@[simp] theorem flushHunk_currentFile : (s.flushHunk limit).currentFile = s.currentFile := by
  unfold flushHunk
  split <;> rfl

@[simp] theorem flushHunk_inHunk : (s.flushHunk limit).inHunk = false := by
  unfold flushHunk
  split <;> rfl

theorem flushHunk_done (h : s.inHunk = false) : (s.flushHunk limit).chunks = s.chunks := by
  unfold flushHunk
  rw [h]

theorem flushHunk_pending {file : List Char} (h : s.inHunk = true)
    (hfile : s.currentFile = some file) :
    (s.flushHunk limit).chunks = s.chunks ++ construct (s.hunkChunks limit file) := by
  unfold flushHunk
  rw [h, hfile]

end ParserState

/-- The parser when it has read a hunk, as far as the chunks of the hunk depend on it. -/
def Hunk.state (h : Hunk) (symbol : List Char) : ParserState :=
  { ParserState.initial with
    hunkStart := h.new.start
    hunkEnd := h.new.start + h.new.lines - 1
    hunkLines := splitLines h.text
    symbol := symbol }

/-- The chunks that come of a hunk. -/
def Emits (limit : ℤ) (h : Hunk) (cs : List ChunkFields) : Prop :=
  (h.new.lines = 0 ∧ cs = []) ∨
    (h.new.lines ≠ 0 ∧ ∃ file symbol, cs = construct ((h.state symbol).hunkChunks limit file))

section Reading

variable {digits : Digits} {limit : ℤ}

theorem hunkChunks_state {s : ParserState} {h : Hunk} (hstart : s.hunkStart = h.new.start)
    (hend : s.hunkEnd = h.new.start + h.new.lines - 1) (hlines : s.hunkLines = splitLines h.text)
    (file : List Char) :
    s.hunkChunks limit file = (h.state s.symbol).hunkChunks limit file := by
  obtain ⟨chunks, currentFile, hunkStart, hunkEnd, hunkLines, symbol, inHunk⟩ := s
  dsimp only at hstart hend hlines
  rw [hstart, hend, hlines]
  rfl

variable (digits limit)

variable {s' : ParserState}

/-- The chunks of a hunk come after those of the hunks before. -/
theorem parse_hunk (s : ParserState) {h : Hunk} (hplain : h.Plain digits)
    (hfile : s.currentFile = none → h.new.lines = 0)
    (hs' : (splitLines h.text).foldl (ParserState.parseLine digits limit) s = s') :
    s'.currentFile = s.currentFile ∧ ∃ cs, Emits limit h cs ∧
      (s'.flushHunk limit).chunks = (s.flushHunk limit).chunks ++ cs := by
  obtain ⟨line, lines, context, hlines, hdiff, hplus, hheader⟩ := h.splitLines_text digits
  unfold Hunk.Plain at hplain
  rw [hlines, List.tail_cons] at hplain
  have hstart : s.parseLine digits limit line =
      s.startHunk limit line ⟨h.new.start, h.new.count, context⟩ := by
    unfold ParserState.parseLine
    rw [hdiff, hplus, hheader]
  rw [hlines, List.foldl_cons, hstart, ParserState.foldl_plain hplain] at hs'
  unfold ParserState.startHunk at hs'
  by_cases hzero : h.new.lines = 0
  · have hcount : h.new.count.getD 1 = 0 := hzero
    simp only [hcount, if_true, Bool.false_eq_true, if_false] at hs'
    subst hs'
    exact ⟨ParserState.flushHunk_currentFile, [], Or.inl ⟨hzero, rfl⟩,
      (ParserState.flushHunk_done rfl).trans (List.append_nil _).symm⟩
  · have hcount : h.new.count.getD 1 ≠ 0 := hzero
    simp only [hcount, if_false, if_true] at hs'
    obtain ⟨file, hsome⟩ := Option.ne_none_iff_exists'.1 (mt hfile hzero)
    have hcurrent : s'.currentFile = s.currentFile := by
      rw [← hs']
      exact ParserState.flushHunk_currentFile
    have hchunks : s'.chunks = (s.flushHunk limit).chunks := by rw [← hs']
    have hstate : s'.hunkChunks limit file = (h.state s'.symbol).hunkChunks limit file :=
      hunkChunks_state (by rw [← hs']) (by rw [← hs']; rfl) (by rw [← hs', hlines]; rfl) file
    refine ⟨hcurrent, _, Or.inr ⟨hzero, file, s'.symbol, rfl⟩, ?_⟩
    rw [ParserState.flushHunk_pending (by rw [← hs']) (hcurrent.trans hsome), hchunks, hstate]

/-- The hunks of a file, one after another. -/
theorem parse_hunks : ∀ {hunks : List Hunk} (s : ParserState) {s' : ParserState},
    (∀ h ∈ hunks, h.Plain digits) → (s.currentFile = none → ∀ h ∈ hunks, h.new.lines = 0) →
    (hunks.flatMap fun h => splitLines h.text).foldl (ParserState.parseLine digits limit) s = s' →
    ∃ groups, List.Forall₂ (Emits limit) hunks groups ∧
      (s'.flushHunk limit).chunks = (s.flushHunk limit).chunks ++ groups.flatten
  | [], s, s', _, _, hs' => by
    obtain rfl : s = s' := hs'
    exact ⟨[], .nil, (List.append_nil _).symm⟩
  | h :: hunks, s, s', hplain, hfile, hs' => by
    obtain ⟨hplain, hplains⟩ := List.forall_mem_cons.1 hplain
    rw [List.flatMap_cons, List.foldl_append] at hs'
    obtain ⟨hcurrent, cs, hemits, hchunks⟩ :=
      parse_hunk digits limit s hplain (fun hnone => hfile hnone h List.mem_cons_self) rfl
    obtain ⟨groups, hgroups, hrest⟩ := parse_hunks _ hplains
      (fun hnone => (List.forall_mem_cons.1 (hfile (hcurrent ▸ hnone))).2) hs'
    refine ⟨cs :: groups, .cons hemits hgroups, ?_⟩
    rw [hrest, hchunks, List.flatten_cons, List.append_assoc]

theorem FileDiff.isLineBreak_preamble (f : FileDiff) :
    ∀ line ∈ f.preamble, ∀ c ∈ line, isLineBreak c = false := by
  unfold FileDiff.preamble
  refine List.forall_mem_append.2 ⟨List.forall_mem_cons.2 ⟨?_, f.extended_line⟩, ?_⟩
  · exact List.forall_mem_append.2 ⟨isLineBreak_of_any (by decide), f.names_line⟩
  · intro line hline
    obtain ⟨p, hp, rfl⟩ := Option.map_eq_some_iff.1 (Option.mem_toList.1 hline)
    exact List.forall_mem_append.2 ⟨isLineBreak_of_any (by decide), f.path_line p hp⟩

/-- The lines in front of the hunks, as `splitlines` breaks them. -/
theorem FileDiff.splitLines_text (f : FileDiff) :
    splitLines f.text = f.preamble.map (· ++ ['\n']) ++
      f.hunks.flatMap fun h => splitLines h.text := by
  have hhunks := splitLines_flatMap Hunk.text_endsLine [] f.hunks
  rw [List.append_nil, splitLines, List.append_nil] at hhunks
  unfold FileDiff.text
  rw [splitLines_flatMap endsLine_line, hhunks]
  refine congrArg (· ++ _) ?_
  rw [List.flatMap_congr fun line hline => splitLines_line (f.isLineBreak_preamble line hline)]
  exact (List.map_eq_flatMap).symm

theorem hunkHeader_eq_none {text : List Char} (h : afterText ['@', '@', ' ', '-'] text = none) :
    hunkHeader digits text = none := by
  unfold hunkHeader
  rw [h]
  rfl

theorem isMarked_extended (f : FileDiff) : ∀ line ∈ f.extended.map (· ++ ['\n']),
    isMarked digits line = false := by
  refine List.forall_mem_map.2 fun line hline => ?_
  have hplain := f.extended_plain line hline
  have hdiff := hplain diffMark (by simp)
  have hplus := hplain plusMark (by simp)
  have hheader := hunkHeader_eq_none digits (hplain _ (by simp))
  unfold isMarked
  rw [strippedLine_line (f.extended_line line hline), hdiff, hplus, hheader]
  rfl

theorem parse_path (p : Line) (hp : ∀ c ∈ p, isLineBreak c = false) (s : ParserState) :
    s.parseLine digits limit (plusMark ++ p ++ ['\n']) = { s with currentFile := newFile p } := by
  have hline : ∀ c ∈ plusMark ++ p, isLineBreak c = false :=
    List.forall_mem_append.2 ⟨isLineBreak_of_any (by decide), hp⟩
  have hdiff : afterText diffMark (plusMark ++ p) = none := by
    simp [diffMark, plusMark, afterText]
  unfold ParserState.parseLine
  rw [strippedLine_line hline, hdiff, afterText_append]

theorem parse_names (f : FileDiff) (s : ParserState) :
    s.parseLine digits limit (diffMark ++ f.names ++ ['\n']) =
      { s.flushHunk limit with currentFile := none, hunkLines := [] } := by
  have hline : ∀ c ∈ diffMark ++ f.names, isLineBreak c = false :=
    List.forall_mem_append.2 ⟨isLineBreak_of_any (by decide), f.names_line⟩
  unfold ParserState.parseLine
  rw [strippedLine_line hline, afterText_append]

/-- What is read in front of the hunks ends the hunk before, and names the file. -/
theorem parse_preamble (f : FileDiff) (s : ParserState)
    (hs' : (f.preamble.map (· ++ ['\n'])).foldl (ParserState.parseLine digits limit) s = s') :
    s'.currentFile = f.path.bind newFile ∧
      (s'.flushHunk limit).chunks = (s.flushHunk limit).chunks := by
  unfold FileDiff.preamble at hs'
  rw [List.map_append, List.map_cons, List.cons_append, List.foldl_cons, List.foldl_append,
    parse_names, ParserState.foldl_plain (isMarked_extended digits f), if_neg (by simp)] at hs'
  cases hpath : f.path with
  | none =>
    rw [hpath] at hs'
    subst hs'
    exact ⟨rfl, ParserState.flushHunk_done (by simp)⟩
  | some p =>
    rw [hpath] at hs'
    simp only [Option.map_some, Option.toList_some, List.map_cons, List.map_nil, List.foldl_cons,
      List.foldl_nil, parse_path digits limit p (f.path_line p hpath)] at hs'
    subst hs'
    exact ⟨rfl, ParserState.flushHunk_done (by simp)⟩

/-- The chunks of a diff are those of its hunks. -/
theorem parse_files : ∀ {d : List FileDiff} (s : ParserState) {s' : ParserState},
    (∀ f ∈ d, ∀ h ∈ f.hunks, h.Plain digits) →
    (d.flatMap fun f => splitLines f.text).foldl (ParserState.parseLine digits limit) s = s' →
    ∃ groups, List.Forall₂ (Emits limit) (d.flatMap (·.hunks)) groups ∧
      (s'.flushHunk limit).chunks = (s.flushHunk limit).chunks ++ groups.flatten
  | [], s, s', _, hs' => by
    obtain rfl : s = s' := hs'
    exact ⟨[], .nil, (List.append_nil _).symm⟩
  | f :: d, s, s', hplain, hs' => by
    obtain ⟨hplain, hplains⟩ := List.forall_mem_cons.1 hplain
    rw [List.flatMap_cons, List.foldl_append, f.splitLines_text, List.foldl_append] at hs'
    obtain ⟨hfile, hchunks⟩ := parse_preamble digits limit f s rfl
    obtain ⟨groups, hgroups, hhunks⟩ := parse_hunks digits limit _ hplain
      (fun hnone => f.deleted (hfile ▸ hnone)) rfl
    obtain ⟨groups', hgroups', hrest⟩ := parse_files _ hplains hs'
    refine ⟨groups ++ groups', List.rel_append hgroups hgroups', ?_⟩
    rw [hrest, hhunks, hchunks, List.flatten_append, List.append_assoc]

/-- The text of a diff. -/
def diffText (d : List FileDiff) : List Char := d.flatMap FileDiff.text

theorem FileDiff.text_endsLine (f : FileDiff) : EndsLine f.text := by
  have hpreamble : EndsLine (f.preamble.flatMap (· ++ ['\n'])) :=
    endsLine_flatMap endsLine_line (by simp [FileDiff.preamble])
  unfold FileDiff.text
  by_cases hhunks : f.hunks = []
  · rwa [hhunks, List.flatMap_nil, List.append_nil]
  · exact (endsLine_flatMap Hunk.text_endsLine hhunks).append _

theorem parse_diffText {d : List FileDiff} (hplain : ∀ f ∈ d, ∀ h ∈ f.hunks, h.Plain digits) :
    ∃ groups, List.Forall₂ (Emits limit) (d.flatMap (·.hunks)) groups ∧
      parseDiffToChunks digits limit (diffText d) = groups.flatten := by
  have hlines := splitLines_flatMap FileDiff.text_endsLine [] d
  rw [List.append_nil, splitLines, List.append_nil] at hlines
  obtain ⟨groups, hgroups, hchunks⟩ := parse_files digits limit ParserState.initial hplain rfl
  refine ⟨groups, hgroups, ?_⟩
  unfold parseDiffToChunks diffText
  rw [hlines, hchunks]
  rfl

end Reading

end ChunkHound.GitDiff
