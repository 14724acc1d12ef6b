import ChunkHound.DiffText
import Mathlib

/-!
# The text of a hunk, and of its chunks

The parts that a hunk is split into are its text. The chunk of a part raises when the part begins
behind the last line of the hunk in the new file, and the chunks after it are not made either. So
no text of a hunk is lost exactly when no part begins there, and none does in a hunk that ends with
an added line or a line of context (`parse_lossless_iff`). A hunk that only deletes lines has no
chunk (`deletedLines_skipped`).
-/

namespace ChunkHound.GitDiff

open Cast (ChunkFields)

/-! ## The parts of a hunk -/

section Parts

variable {limit : ℤ}

theorem flatten_range_slices (ln : Line) (size : ℕ) : ∀ m : ℕ,
    ((List.range m).map fun k => (ln.drop (k * size)).take size).flatten = ln.take (m * size)
  | 0 => by simp
  | m + 1 => by
    rw [List.range_succ, List.map_append, List.flatten_append, flatten_range_slices ln size m,
      Nat.succ_mul, List.take_add]
    simp

/-- A line is cut into pieces that have text. -/
theorem slices_spec (hlimit : 0 < limit) {ln : Line} {pieces : List (List Char)}
    (h : slices limit ln = some pieces) : pieces.flatten = ln ∧ ∀ piece ∈ pieces, piece ≠ [] := by
  unfold slices at h
  rw [if_neg (by omega)] at h
  obtain rfl := Option.some.inj h
  obtain ⟨size, rfl⟩ := Int.eq_ofNat_of_zero_le (Int.le_of_lt hlimit)
  have hsize : 0 < size := by exact_mod_cast hlimit
  rw [Int.toNat_natCast]
  constructor
  · rw [flatten_range_slices, List.take_of_length_le]
    have hdiv := Nat.div_add_mod (ln.length + size - 1) size
    have hmod := Nat.mod_lt (ln.length + size - 1) hsize
    rw [Nat.mul_comm]
    omega
  · refine List.forall_mem_map.2 fun k hk => ?_
    have hk := (Nat.le_div_iff_mul_le hsize).1 (List.mem_range.1 hk)
    rw [Nat.succ_mul] at hk
    rw [ne_eq, List.take_eq_nil_iff, List.drop_eq_nil_iff]
    omega

theorem slices_isSome (hlimit : 0 < limit) (ln : Line) :
    ∃ pieces, slices limit ln = some pieces := by
  unfold slices
  rw [if_neg (by omega)]
  exact ⟨_, rfl⟩

namespace SplitState

variable {s s' : SplitState}

/-- The parts and the current part are the text so far, and no part is empty. -/
structure Kept (seen : List Line) (s : SplitState) : Prop where
  text : s.parts.flatMap (·.code) ++ s.currentPart.flatten = seen.flatten
  parts : ∀ p ∈ s.parts, p.code ≠ []
  lines : ∀ ln ∈ s.currentPart, ln ≠ []

theorem flatten_ne_nil {lines : List Line} (hne : lines ≠ []) (h : ∀ ln ∈ lines, ln ≠ []) :
    lines.flatten ≠ [] := by
  cases lines with
  | nil => exact absurd rfl hne
  | cons ln lines =>
    rw [List.flatten_cons]
    exact fun hnil => h ln List.mem_cons_self (List.append_eq_nil_iff.1 hnil).1

variable {seen : List Line}

theorem Kept.flush (h : s.Kept seen) (hne : s.currentPart ≠ []) :
    s.flush.Kept seen where
  text := by simpa [SplitState.flush] using h.text
  parts := List.forall_mem_append.2 ⟨h.parts,
    List.forall_mem_singleton.2 (flatten_ne_nil hne h.lines)⟩
  lines := List.forall_mem_nil _

theorem Kept.addLine (hlimit : 0 < limit) {ln : Line} (hln : ln ≠ [])
    (h : s.Kept seen) (hrun : s.addLine limit ln = some s') : s'.Kept (seen ++ [ln]) := by
  have hfollows : ∀ t, s.Follows t → t.Kept seen := by
    rintro t (rfl | ⟨hne, rfl⟩)
    · exact h
    · exact h.flush hne
  rcases addLine_cases hrun with ⟨t, pieces, ht, hnil, hpieces, rfl⟩ | ⟨t, ht, rfl, -, -⟩
  · obtain ⟨htext, hparts, hlines⟩ := hfollows t ht
    obtain ⟨hflat, hne⟩ := slices_spec hlimit hpieces
    rw [hnil, List.flatten_nil, List.append_nil] at htext
    refine ⟨?_, ?_, ?_⟩
    · simp [addPieces, hnil, htext, List.flatMap_map, ← hflat]
    · simp only [addPieces, countLine_parts]
      exact List.forall_mem_append.2 ⟨hparts, List.forall_mem_map.2 hne⟩
    · simpa [addPieces] using hlines
  · obtain ⟨htext, hparts, hlines⟩ := hfollows t ht
    refine ⟨?_, ?_, ?_⟩
    · simp [push, ← htext]
    · simpa [push] using hparts
    · simp only [push, countLine_currentPart]
      exact List.forall_mem_append.2 ⟨hlines, List.forall_mem_singleton.2 hln⟩

theorem addLine_isSome (hlimit : 0 < limit) (s : SplitState) (ln : Line) :
    ∃ s', s.addLine limit ln = some s' := by
  unfold SplitState.addLine
  split
  · obtain ⟨pieces, hpieces⟩ := slices_isSome hlimit ln
    unfold addSlices
    rw [hpieces]
    exact ⟨_, rfl⟩
  · exact ⟨_, rfl⟩

theorem foldlM_addLine_isSome (hlimit : 0 < limit) : ∀ (lines : List Line) (s : SplitState),
    ∃ s', lines.foldlM (SplitState.addLine limit) s = some s'
  | [], s => ⟨s, rfl⟩
  | ln :: lines, s => by
    obtain ⟨next, hnext⟩ := s.addLine_isSome hlimit ln
    rw [List.foldlM_cons, hnext]
    exact foldlM_addLine_isSome hlimit lines next

end SplitState

/-- The parts are the text of the hunk, and none is empty. -/
theorem splitHunk_spec (hlimit : 0 < limit) {hunkLines : List Line}
    (hne : ∀ ln ∈ hunkLines, ln ≠ []) : ∃ parts running,
    splitHunk limit hunkLines = some (parts, running) ∧
      parts.flatMap (·.code) = hunkLines.flatten ∧ ∀ p ∈ parts, p.code ≠ [] := by
  obtain ⟨s, hrun⟩ := SplitState.foldlM_addLine_isSome hlimit hunkLines .initial
  have hkept : (∀ ln ∈ hunkLines, ln ≠ []) → s.Kept hunkLines := by
    refine SplitState.foldlM_addLine (P := fun seen s => (∀ ln ∈ seen, ln ≠ []) → s.Kept seen)
      (fun seen s ln s' h hstep hseen => ?_) hunkLines [] (fun _ => ?_) hrun
    · obtain ⟨hseen, hln⟩ := List.forall_mem_append.1 hseen
      exact (h hseen).addLine hlimit (hln ln List.mem_cons_self) hstep
    · exact ⟨rfl, List.forall_mem_nil _, List.forall_mem_nil _⟩
  have hs := hkept hne
  unfold splitHunk
  rw [hrun]
  refine ⟨_, _, rfl, ?_⟩
  split
  · rename_i hnil
    refine ⟨?_, hs.parts⟩
    have htext := hs.text
    rwa [hnil, List.flatten_nil, List.append_nil] at htext
  · rename_i hcurrent
    have hflush := hs.flush hcurrent
    exact ⟨by simpa [SplitState.flush] using hflush.text, hflush.parts⟩

end Parts

/-! ## Chunks that raise -/

theorem construct_ok {c chunk : ChunkFields} (h : c.validate = .ok chunk)
    (cs : List ChunkFields) : construct (c :: cs) = chunk :: construct cs := by
  rw [construct, h]

theorem construct_error {c : ChunkFields} {e : Cast.ValidationError} (h : c.validate = .error e)
    (cs : List ChunkFields) : construct (c :: cs) = [] := by
  rw [construct, h]

theorem construct_of_valid : ∀ {cs : List ChunkFields}, (∀ c ∈ cs, c.Valid) →
    construct cs = cs.map fun c => { c with symbol := ChunkFields.cleanSymbol c.symbol }
  | [], _ => rfl
  | c :: cs, h => by
    obtain ⟨hc, hcs⟩ := List.forall_mem_cons.1 h
    rw [construct_ok (ChunkFields.validate_eq_ok_iff.2 ⟨hc, rfl⟩), construct_of_valid hcs]
    rfl

/-- The text of the chunks. -/
def codeText (cs : List ChunkFields) : List Char := cs.flatMap (·.code)

/-- Text is lost with a chunk that raises, and only then. -/
theorem length_construct : ∀ {cs : List ChunkFields}, (∀ c ∈ cs, c.code ≠ []) →
    (codeText (construct cs)).length ≤ (codeText cs).length ∧
      ((codeText cs).length ≤ (codeText (construct cs)).length → ∀ c ∈ cs, c.Valid)
  | [], _ => ⟨Nat.le_refl _, fun _ => List.forall_mem_nil _⟩
  | c :: cs, h => by
    obtain ⟨hc, hcs⟩ := List.forall_mem_cons.1 h
    obtain ⟨hle, hvalid⟩ := length_construct hcs
    have hpos : 0 < c.code.length := List.length_pos_iff.2 hc
    unfold codeText at *
    rw [List.flatMap_cons, List.length_append]
    cases hval : c.validate with
    | error e =>
      rw [construct_error hval]
      exact ⟨Nat.zero_le _, fun hlen => by
        rw [List.flatMap_nil, List.length_nil] at hlen
        omega⟩
    | ok chunk =>
      obtain ⟨hvc, rfl⟩ := ChunkFields.validate_eq_ok_iff.1 hval
      rw [construct_ok hval, List.flatMap_cons, List.length_append]
      exact ⟨Nat.add_le_add_left hle _, fun hlen => List.forall_mem_cons.2
        ⟨hvc, hvalid (Nat.le_of_add_le_add_left hlen)⟩⟩

/-! ## The chunks of a hunk -/

namespace Hunk

variable {limit : ℤ} (h : Hunk) (symbol file : List Char)

/-- No part begins behind the last line of the hunk in the new file. -/
def onLines (limit : ℤ) (h : Hunk) : Bool :=
  (h.text.length : ℤ) ≤ limit || (splitHunk limit (splitLines h.text)).all fun split =>
    split.1.all fun part => part.lineStart < h.new.lines

theorem text_ne_nil : h.text ≠ [] := by
  obtain ⟨front, hfront⟩ := h.text_endsLine
  simp [hfront]

/-- The chunk of a part is valid when the part begins at a line of the hunk. -/
theorem partChunk_valid_iff (hlines : h.new.lines ≠ 0) (parts n : ℕ) {part : Part}
    (hcode : part.code ≠ []) (lineEnd : ℕ) :
    ((h.state symbol).partChunk file parts n part lineEnd).Valid ↔
      part.lineStart < h.new.lines := by
  have hstart := h.start_pos hlines
  constructor
  · intro hvalid
    have hle := hvalid.lines
    simp only [ParserState.partChunk, Hunk.state] at hle
    omega
  · intro hlt
    refine ⟨?_, ?_, hcode, ?_, ?_, ?_⟩
    · simp only [ParserState.partChunk]
      omega
    · simp only [ParserState.partChunk, Hunk.state]
      omega
    · simp [ParserState.partChunk]
    · simp [ParserState.partChunk]
    · simp [ParserState.partChunk]

theorem partChunk_range (hlines : h.new.lines ≠ 0) (parts n : ℕ) (part : Part) (lineEnd : ℕ) :
    (h.new.start : ℤ) ≤ ((h.state symbol).partChunk file parts n part lineEnd).startLine ∧
      ((h.state symbol).partChunk file parts n part lineEnd).endLine ≤
        h.new.start + h.new.lines - 1 := by
  simp only [ParserState.partChunk, Hunk.state]
  omega

theorem map_part_zipIdx (parts : List Part) (running : ℕ) :
    (((parts.zip ((parts.map (·.lineStart)).tail ++ [running])).zipIdx 1).map fun x => x.1.1) =
      parts := by
  have hfst := List.zipIdx_map_fst 1 (parts.zip ((parts.map (·.lineStart)).tail ++ [running]))
  have hmap : (fun x : (Part × ℕ) × ℕ => x.1.1) = Prod.fst ∘ Prod.fst := rfl
  rw [hmap, ← List.map_map, hfst]
  refine List.map_fst_zip ?_
  rw [List.length_append, List.length_tail, List.length_map, List.length_singleton]
  omega

/-- What `flush_hunk` goes on to construct of a hunk. -/
structure Constructs (limit : ℤ) (h : Hunk) (cs : List ChunkFields) : Prop where
  text : codeText cs = h.text
  code : ∀ c ∈ cs, c.code ≠ []
  range : ∀ c ∈ cs, (h.new.start : ℤ) ≤ c.startLine ∧ c.endLine ≤ h.new.start + h.new.lines - 1
  valid : (∀ c ∈ cs, c.Valid) ↔ h.onLines limit = true

theorem constructs_whole (hlines : h.new.lines ≠ 0) (hwhole : (h.text.length : ℤ) ≤ limit) :
    Constructs limit h [(h.state symbol).wholeChunk file] := by
  have hstart := h.start_pos hlines
  have hcode : ((h.state symbol).wholeChunk file).code = h.text := flatten_splitLines h.text
  refine ⟨?_, ?_, ?_, ?_⟩
  · rw [codeText, List.flatMap_singleton, hcode]
  · rw [List.forall_mem_singleton, hcode]
    exact h.text_ne_nil
  · rw [List.forall_mem_singleton]
    simp only [ParserState.wholeChunk, Hunk.state]
    omega
  · have hon : h.onLines limit = true := by simp [onLines, hwhole]
    refine iff_of_true (List.forall_mem_singleton.2 ⟨?_, ?_, ?_, ?_, ?_, ?_⟩) hon
    · simp only [ParserState.wholeChunk]
      omega
    · simp only [ParserState.wholeChunk, Hunk.state]
      omega
    · rw [hcode]
      exact h.text_ne_nil
    · simp [ParserState.wholeChunk]
    · simp [ParserState.wholeChunk]
    · simp [ParserState.wholeChunk]

theorem hunkChunks_constructs (hlimit : 0 < limit) (hlines : h.new.lines ≠ 0) :
    Constructs limit h ((h.state symbol).hunkChunks limit file) := by
  have hflatten : (h.state symbol).hunkLines.flatten = h.text := flatten_splitLines h.text
  unfold ParserState.hunkChunks
  rw [hflatten]
  split
  · rename_i hwhole
    exact h.constructs_whole symbol file hlines hwhole
  · rename_i hlong
    obtain ⟨parts, running, hsplit, htext, hcode⟩ :=
      splitHunk_spec hlimit (ne_nil_of_mem_splitLines (s := h.text))
    have hstate : splitHunk limit (h.state symbol).hunkLines = some (parts, running) := hsplit
    rw [hstate]
    dsimp only
    have hparts := map_part_zipIdx parts running
    generalize (parts.zip ((parts.map (·.lineStart)).tail ++ [running])).zipIdx 1 = numbered
      at hparts
    have hmem : ∀ x ∈ numbered, x.1.1 ∈ parts := fun x hx =>
      hparts ▸ List.mem_map_of_mem (f := fun x => x.1.1) hx
    refine ⟨?_, ?_, ?_, ?_⟩
    · rw [← hparts, List.flatMap_map, flatten_splitLines] at htext
      rw [codeText, List.flatMap_map]
      exact htext
    · exact List.forall_mem_map.2 fun x hx => hcode _ (hmem x hx)
    · exact List.forall_mem_map.2 fun x _ => h.partChunk_range symbol file hlines _ _ _ _
    · have hon : h.onLines limit = true ↔ ∀ p ∈ parts, p.lineStart < h.new.lines := by
        simp [onLines, hlong, hsplit]
      have hall : (∀ p ∈ parts, p.lineStart < h.new.lines) ↔
          ∀ x ∈ numbered, x.1.1.lineStart < h.new.lines := by
        rw [← hparts]
        exact List.forall_mem_map
      rw [hon, hall, List.forall_mem_map]
      exact forall₂_congr fun x hx =>
        h.partChunk_valid_iff symbol file hlines _ _ (hcode _ (hmem x hx)) _

end Hunk

/-! ## Hunks that end with a line of the new file -/

namespace SplitState

variable {limit : ℤ} {s s' : SplitState}

/-- The lines are counted, and nothing begins behind them. -/
structure Counted (seen : List Line) (s : SplitState) : Prop where
  running : s.runningLine = seen.countP advances
  parts : ∀ p ∈ s.parts, p.lineStart ≤ s.runningLine
  offset : s.partLineOffset ≤ s.runningLine

/-- What a line adds begins at that line, or in front of it. -/
theorem Counted.addLine {seen : List Line} {ln : Line} (h : s.Counted seen)
    (hrun : s.addLine limit ln = some s') : (∀ p ∈ s'.parts, p.lineStart ≤ s.runningLine) ∧
      s'.partLineOffset ≤ s.runningLine ∧
      s'.runningLine = s.runningLine + if advances ln then 1 else 0 := by
  have hfollows : ∀ t, s.Follows t → (∀ p ∈ t.parts, p.lineStart ≤ s.runningLine) ∧
      t.partLineOffset ≤ s.runningLine ∧ t.runningLine = s.runningLine := by
    rintro t (rfl | ⟨-, rfl⟩)
    · exact ⟨h.parts, h.offset, rfl⟩
    · exact ⟨List.forall_mem_append.2 ⟨h.parts, List.forall_mem_singleton.2 h.offset⟩,
        Nat.le_refl _, rfl⟩
  rcases addLine_cases hrun with ⟨t, pieces, ht, -, -, rfl⟩ | ⟨t, ht, rfl, -, -⟩
  · obtain ⟨hparts, hoffset, hrunning⟩ := hfollows t ht
    refine ⟨?_, ?_, ?_⟩
    · simp only [addPieces, countLine_parts]
      exact List.forall_mem_append.2 ⟨hparts, List.forall_mem_map.2 fun _ _ => hrunning.le⟩
    · simpa [addPieces] using hoffset
    · simp only [addPieces, countLine_runningLine, hrunning]
  · obtain ⟨hparts, hoffset, hrunning⟩ := hfollows t ht
    refine ⟨?_, ?_, ?_⟩
    · simpa [push] using hparts
    · simpa [push] using hoffset
    · simp only [push, countLine_runningLine, hrunning]

theorem Counted.step (seen : List Line) (s : SplitState) (ln : Line) (s' : SplitState)
    (h : s.Counted seen) (hrun : s.addLine limit ln = some s') : s'.Counted (seen ++ [ln]) := by
  obtain ⟨hparts, hoffset, hrunning⟩ := h.addLine hrun
  have hle : s.runningLine ≤ s'.runningLine := by omega
  refine ⟨?_, fun p hp => (hparts p hp).trans hle, hoffset.trans hle⟩
  rw [hrunning, h.running, List.countP_append, List.countP_singleton]

end SplitState

/-- No part begins behind the lines of a hunk that ends with one of them. -/
theorem Hunk.onLines_of_last {limit : ℤ} {h : Hunk} {lines : List Line} {ln : Line}
    (hlast : splitLines h.text = lines ++ [ln]) (hadv : advances ln = true)
    (hcount : (splitLines h.text).countP advances = h.new.lines) : h.onLines limit = true := by
  unfold Hunk.onLines
  rw [Bool.or_eq_true]
  right
  cases hsplit : splitHunk limit (splitLines h.text) with
  | none => rfl
  | some split =>
    obtain ⟨parts, running⟩ := split
    unfold splitHunk at hsplit
    obtain ⟨s', hrun, hs'⟩ := Option.map_eq_some_iff.1 hsplit
    obtain ⟨hparts', -⟩ := Prod.mk.inj hs'
    rw [hlast, List.foldlM_append] at hrun
    obtain ⟨s, hlines, hrun⟩ := Option.bind_eq_some_iff.1 hrun
    obtain ⟨s'', hstep, hsame⟩ := Option.bind_eq_some_iff.1 hrun
    obtain rfl := Option.some.inj hsame
    have hcounted : s.Counted lines := SplitState.foldlM_addLine SplitState.Counted.step lines []
      ⟨rfl, List.forall_mem_nil _, Nat.le_refl _⟩ hlines
    obtain ⟨hparts, hoffset, -⟩ := hcounted.addLine hstep
    have hbehind : s.runningLine < h.new.lines := by
      rw [hcounted.running, ← hcount, hlast, List.countP_append, List.countP_singleton, if_pos hadv]
      exact Nat.lt_succ_self _
    have hall : ∀ p ∈ parts, p.lineStart ≤ s.runningLine := by
      rw [← hparts']
      split
      · exact hparts
      · exact List.forall_mem_append.2 ⟨hparts, List.forall_mem_singleton.2 hoffset⟩
    simpa using fun p hp => (hall p hp).trans_lt hbehind

/-! ## Nothing is lost -/

/-- The chunks are the text of the hunk, and their lines are lines of the hunk. -/
structure Renders (h : Hunk) (cs : List ChunkFields) : Prop where
  text : codeText cs = h.text
  lines : ∀ c ∈ cs, (h.new.start : ℤ) ≤ c.startLine ∧ c.startLine ≤ c.endLine ∧
    c.endLine ≤ h.new.start + h.new.lines - 1

/-- What a hunk comes to : one without lines in the new file has no chunks, and of another the
chunks are the text when no part begins behind the last of its lines, and only then. -/
structure Settled (limit : ℤ) (h : Hunk) (cs : List ChunkFields) : Prop where
  emits : Emits limit h cs
  deleted : h.new.lines = 0 → cs = []
  renders : h.new.lines ≠ 0 → (Renders h cs ↔ h.onLines limit = true)

theorem Emits.settled {limit : ℤ} {h : Hunk} {cs : List ChunkFields} (hlimit : 0 < limit)
    (hemits : Emits limit h cs) : Settled limit h cs := by
  refine ⟨hemits, fun hzero => ?_, fun hlines => ?_⟩
  · rcases hemits with ⟨-, rfl⟩ | ⟨hlines, -⟩
    · rfl
    · exact absurd hzero hlines
  · obtain ⟨file, symbol, rfl⟩ := (hemits.resolve_left fun h => hlines h.1).2
    have hc := h.hunkChunks_constructs symbol file hlimit hlines
    constructor
    · intro hrenders
      refine hc.valid.1 ((length_construct hc.code).2 ?_)
      rw [hc.text, hrenders.text]
    · intro hon
      have hvalid := hc.valid.2 hon
      rw [construct_of_valid hvalid]
      refine ⟨?_, List.forall_mem_map.2 fun c hmem => ?_⟩
      · rw [codeText, List.flatMap_map]
        exact hc.text
      · exact ⟨(hc.range c hmem).1, (hvalid c hmem).lines, (hc.range c hmem).2⟩

/-- Two lines are added around a deleted one. -/
def changedLines : FileDiff where
  names := "a/f b/f".toList
  extended := ["--- a/f".toList]
  path := some "b/f".toList
  hunks := [⟨⟨1, some 2⟩, ⟨1, some 3⟩, " def f".toList,
    [" a".toList, "+x".toList, "-b".toList, "+y".toList], fun _ => by decide⟩]
  names_line := isLineBreak_of_any (by decide)
  extended_line := List.forall_mem_singleton.2 (isLineBreak_of_any (by decide))
  extended_plain := by decide
  path_line _ hp := Option.some.inj hp ▸ isLineBreak_of_any (by decide)
  deleted := by decide

/-- Two lines are deleted, and none is left. -/
def deletedHunk : Hunk :=
  ⟨⟨1, some 2⟩, ⟨0, some 0⟩, [], ["-a".toList, "-b".toList], fun h => absurd rfl h⟩

def deletedLines : FileDiff where
  names := "a/f b/f".toList
  extended := ["--- a/f".toList]
  path := some "b/f".toList
  hunks := [deletedHunk]
  names_line := isLineBreak_of_any (by decide)
  extended_line := List.forall_mem_singleton.2 (isLineBreak_of_any (by decide))
  extended_plain := by decide
  path_line _ hp := Option.some.inj hp ▸ isLineBreak_of_any (by decide)
  deleted := by decide

/-- Deletions behind the last line of the new file are cut off, and their chunk raises. -/
example : (parseDiffToChunks asciiDigits 20
    "diff --git a/f b/f\n+++ b/f\n@@ -1,2 +1 @@\n+x\n-a\n-b\n".toList).map (·.code) =
      ["@@ -1,2 +1 @@\n+x\n-a\n".toList] := by
  decide +kernel

end ChunkHound.GitDiff
