import ChunkHound.ChunkDiff
import ChunkHound.Joined

/-!
# The chunk splitter

`ChunkSplitter` of `chunk_splitter.py`. A chunk over a size limit is halved by lines while
its lines are short, and otherwise cut at punctuation, or at a raw position when no
punctuation helps.

The Python integers of a configuration that may be negative are integers here. A loop that
would not end is `none`. The line numbers of a piece come from ratios in floating point, so
`proportion part total span` stands for `int(part / total * span)`.

Nothing but whitespace is lost (`validateAndSplit_kept`), and the pieces keep the limits when
a text of `min_chunk_size` characters does (`validateAndSplit_fits`).
-/

namespace ChunkHound.Cast

/-- A string, as its characters. -/
abbrev Text := List Char

/-- `UniversalConcept`. -/
inductive Concept
  | definition | block | comment | import_ | structure_
  deriving DecidableEq, Repr

/-- What the merge passes read and write of a chunk's metadata. -/
structure Metadata where
  preventMerge : Bool
  kind : Option String
  mergedFrom : Option (List String)
  chunkCount : Option ℕ
  deriving DecidableEq, Repr

structure UniversalChunk where
  concept : Concept
  name : String
  content : Text
  startLine : ℤ
  endLine : ℤ
  metadata : Metadata
  languageNodeType : String
  deriving DecidableEq, Repr

/-- `CASTConfig`, with what its `__post_init__` checks. -/
structure CASTConfig where
  maxChunkSize : ℤ := 1200
  minChunkSize : ℕ := 50
  mergeThreshold : ℚ := 4 / 5
  greedyMerge : Bool := true
  safeTokenLimit : ℕ := 6000
  min_ok : 1 ≤ minChunkSize := by decide

/-- `ChunkMetrics.from_content(content).non_whitespace_chars`. -/
def nonWhitespaceChars (content : Text) : ℕ := content.countP fun c => !isSpace c

def estimateTokensChunking (text : Text) : ℕ :=
  if text = [] then 0 else max 1 (text.length / 3)

/-- The content is within both limits. -/
def CASTConfig.fits (cfg : CASTConfig) (content : Text) : Bool :=
  nonWhitespaceChars content ≤ cfg.maxChunkSize &&
    estimateTokensChunking content ≤ cfg.safeTokenLimit

/-- `_analyze_lines` : some line exceeds a fifth of the chunk size. -/
def CASTConfig.analyzeLines (cfg : CASTConfig) (lines : List Text) : Bool :=
  lines.any fun line => cfg.maxChunkSize < 5 * line.length

/-- `split_chars`, in the order of preference. -/
def splitChars : List Char := ['\n', ';', '}', '{', ',', ' ']

/-- `remaining.rfind(c, 0, stop)`. -/
def rfind (c : Char) (remaining : Text) (stop : ℕ) : Option ℕ :=
  (List.range (min stop remaining.length)).reverse.find? fun i => remaining[i]? = some c

/-- `raw_search_window`. -/
def CASTConfig.window (cfg : CASTConfig) : ℕ := cfg.safeTokenLimit * 3

/-- The end of the piece up to the last `c`, when that is a valid split point. -/
def CASTConfig.splitAt (cfg : CASTConfig) (remaining : Text) (c : Char) : Option ℕ :=
  match rfind c remaining (min cfg.window remaining.length) with
  | some pos => if 0 < pos ∧ cfg.fits (remaining.take (pos + 1)) then some (pos + 1) else none
  | none => none

/-- The shrinking loop of a forced split. `n` passes are enough when `best` is at most `n`. -/
def CASTConfig.shrink (cfg : CASTConfig) (remaining : Text) : ℕ → ℕ → ℕ
  | 0, best => best
  | n + 1, best =>
    if !cfg.fits (remaining.take best) && cfg.minChunkSize < best then
      cfg.shrink remaining n (best / 2)
    else best

/-- `best_split`. -/
def CASTConfig.bestSplit (cfg : CASTConfig) (remaining : Text) : ℕ :=
  match splitChars.findSome? (cfg.splitAt remaining) with
  | some best => best
  | none =>
    let best := min cfg.window remaining.length
    cfg.shrink remaining best best

section Pieces

variable (proportion : ℕ → ℕ → ℤ → ℤ)

/-- `_create_split_chunk`. -/
def createSplitChunk (original : UniversalChunk) (content : Text)
    (partNum contentStartPos totalContentLength : ℕ) : UniversalChunk :=
  let span := original.endLine - original.startLine + 1
  let lines :=
    if 0 < totalContentLength then
      let lineSpan := max 1 (proportion content.length totalContentLength span)
      let start := original.startLine + proportion contentStartPos totalContentLength span
      let stop := min original.endLine (start + lineSpan - 1)
      let start := min start original.endLine
      (start, max stop start)
    else (original.startLine, original.endLine)
  { original with
    name := s!"{original.name}_part{partNum}"
    content := content
    startLine := lines.1
    endLine := lines.2 }

/-- The loop of `_emergency_split`, with the part number and the position of what remains.
Each pass consumes one of the `n` when it removes something. -/
def emergencyLoop (cfg : CASTConfig) (chunk : UniversalChunk) :
    ℕ → Text → ℕ → ℕ → Option (List UniversalChunk)
  | _, [], _, _ => some []
  | n, c :: cs, partNum, pos =>
    let remaining := c :: cs
    if cfg.fits remaining then
      some [createSplitChunk proportion chunk remaining partNum pos chunk.content.length]
    else
      let best := cfg.bestSplit remaining
      match n, best with
      | _, 0 => none
      | 0, _ => none
      | n + 1, best => do
        let rest ← emergencyLoop cfg chunk n (remaining.drop best) (partNum + 1) (pos + best)
        some (createSplitChunk proportion chunk (remaining.take best) partNum pos
          chunk.content.length :: rest)

/-- `_emergency_split`. -/
def emergencySplit (cfg : CASTConfig) (chunk : UniversalChunk) : Option (List UniversalChunk) :=
  if cfg.fits chunk.content then some [chunk]
  else emergencyLoop proportion cfg chunk chunk.content.length chunk.content 1 0

/-- The two halves of `_split_by_lines_simple`, or `none` when the lines of the chunk are too
few for two ranges. -/
def lineHalves (chunk : UniversalChunk) (lines : List Text) :
    Option (UniversalChunk × UniversalChunk) :=
  let mid := lines.length / 2
  let chunk1End := chunk.startLine + (lines.take mid).length - 1
  let chunk2Start := chunk1End + 1
  let chunk1End := max chunk.startLine (min chunk1End chunk.endLine)
  let chunk2Start := max (chunk1End + 1) (min chunk2Start chunk.endLine)
  if chunk.endLine ≤ chunk2Start then none
  else some
    ({ chunk with
        name := s!"{chunk.name}_part1"
        content := ['\n'].intercalate (lines.take mid)
        endLine := chunk1End },
      { chunk with
        name := s!"{chunk.name}_part2"
        content := ['\n'].intercalate (lines.drop mid)
        startLine := chunk2Start })

/-- `_recursive_split`. The halves are shorter, so more calls than characters are enough. -/
def recursiveSplit (cfg : CASTConfig) : ℕ → UniversalChunk → Option (List UniversalChunk)
  | 0, _ => none
  | n + 1, chunk =>
    if cfg.fits chunk.content then some [chunk]
    else
      let lines := chunk.content.splitOn '\n'
      if lines.length ≤ 2 || cfg.analyzeLines lines || chunk.endLine - chunk.startLine < 2 then
        emergencySplit proportion cfg chunk
      else
        match lineHalves chunk lines with
        | none => emergencySplit proportion cfg chunk
        | some (chunk1, chunk2) => do
          let pieces1 ← recursiveSplit cfg n chunk1
          let pieces2 ← recursiveSplit cfg n chunk2
          some (pieces1 ++ pieces2)

/-- `validate_and_split`. -/
def validateAndSplit (cfg : CASTConfig) (chunk : UniversalChunk) :
    Option (List UniversalChunk) :=
  if cfg.fits chunk.content then some [chunk]
  else recursiveSplit proportion cfg (chunk.content.length + 1) chunk

end Pieces

/-! ## One cut -/

/-- The characters that are not whitespace. -/
def kept (content : Text) : Text := content.filter fun c => !isSpace c

theorem kept_append (a b : Text) : kept (a ++ b) = kept a ++ kept b := List.filter_append ..

theorem rfind_lt {c : Char} {remaining : Text} {stop pos : ℕ}
    (h : rfind c remaining stop = some pos) : pos < remaining.length := by
  have hmem := List.mem_of_find?_eq_some h
  rw [List.mem_reverse, List.mem_range] at hmem
  omega

section Cut

variable {cfg : CASTConfig} {remaining : Text} {best : ℕ}

theorem CASTConfig.splitAt_spec {c : Char} (h : cfg.splitAt remaining c = some best) :
    0 < best ∧ best ≤ remaining.length ∧ cfg.fits (remaining.take best) = true := by
  unfold CASTConfig.splitAt at h
  split at h
  · rename_i pos hpos
    split at h
    · rename_i hfits
      obtain rfl := Option.some.inj h
      exact ⟨Nat.succ_pos pos, rfind_lt hpos, hfits.2⟩
    · cases h
  · cases h

/-- Halving ends at a piece that fits, or at the minimum size. -/
theorem CASTConfig.shrink_spec (cfg : CASTConfig) (remaining : Text) :
    ∀ {n best : ℕ}, 0 < best → best ≤ n →
    0 < cfg.shrink remaining n best ∧ cfg.shrink remaining n best ≤ best ∧
      (cfg.fits (remaining.take (cfg.shrink remaining n best)) = true ∨
        cfg.shrink remaining n best ≤ cfg.minChunkSize)
  | 0, best, hpos, hle => absurd hpos (by omega)
  | n + 1, best, hpos, hle => by
    unfold CASTConfig.shrink
    split
    · rename_i hgo
      rw [Bool.and_eq_true, decide_eq_true_eq] at hgo
      have hmin := cfg.min_ok
      have hhalf : 0 < best / 2 := by omega
      obtain ⟨hpos', hle', hdone⟩ := shrink_spec cfg remaining (n := n) hhalf (by omega)
      exact ⟨hpos', by omega, hdone⟩
    · rename_i hstop
      refine ⟨hpos, Nat.le_refl best, ?_⟩
      rw [Bool.and_eq_true, decide_eq_true_eq, not_and, Bool.not_eq_true',
        Nat.not_lt] at hstop
      cases hfits : cfg.fits (remaining.take best) with
      | true => exact Or.inl rfl
      | false => exact Or.inr (hstop hfits)

theorem CASTConfig.bestSplit_spec (hlimit : 1 ≤ cfg.safeTokenLimit) (hne : remaining ≠ []) :
    0 < cfg.bestSplit remaining ∧ cfg.bestSplit remaining ≤ remaining.length ∧
      (cfg.fits (remaining.take (cfg.bestSplit remaining)) = true ∨
        cfg.bestSplit remaining ≤ cfg.minChunkSize) := by
  unfold CASTConfig.bestSplit
  split
  · rename_i best hbest
    obtain ⟨c, -, hc⟩ := List.exists_of_findSome?_eq_some hbest
    obtain ⟨hpos, hle, hfits⟩ := cfg.splitAt_spec hc
    exact ⟨hpos, hle, Or.inl hfits⟩
  · have hlen : 0 < remaining.length := List.length_pos_iff.2 hne
    have hstart : 0 < min cfg.window remaining.length := by
      unfold CASTConfig.window
      omega
    obtain ⟨hpos, hle, hdone⟩ := cfg.shrink_spec remaining hstart (Nat.le_refl _)
    exact ⟨hpos, hle.trans (Nat.min_le_right _ _), hdone⟩

end Cut

/-! ## The pieces of a chunk -/

/-- What a split guarantees of its pieces : nothing but whitespace is lost, every piece is cut
from the content, and it fits or is of the minimum size. -/
structure Pieces (cfg : CASTConfig) (content : Text) (pieces : List UniversalChunk) : Prop where
  kept : kept (pieces.flatMap (·.content)) = kept content
  cut : ∀ piece ∈ pieces, piece.content <:+: content
  size : ∀ piece ∈ pieces, cfg.fits piece.content = true ∨
    piece.content.length ≤ cfg.minChunkSize

section Pieces

variable {cfg : CASTConfig} {chunk : UniversalChunk} (proportion : ℕ → ℕ → ℤ → ℤ)

theorem Pieces.self {chunk : UniversalChunk} (h : cfg.fits chunk.content = true) :
    Pieces cfg chunk.content [chunk] where
  kept := by rw [List.flatMap_singleton]
  cut piece hp := by
    obtain rfl := List.mem_singleton.1 hp
    exact List.infix_rfl
  size piece hp := by
    rw [List.mem_singleton.1 hp]
    exact Or.inl h

/-- The pieces of two halves of the lines. -/
theorem Pieces.append {a b : Text} {pieces1 pieces2 : List UniversalChunk}
    (h1 : Pieces cfg a pieces1) (h2 : Pieces cfg b pieces2) :
    Pieces cfg (a ++ '\n' :: b) (pieces1 ++ pieces2) where
  kept := by
    have hbreak : Cast.kept ('\n' :: b) = Cast.kept b := rfl
    rw [List.flatMap_append, kept_append, kept_append, hbreak, h1.kept, h2.kept]
  cut piece hp := by
    rcases List.mem_append.1 hp with hp | hp
    · exact (h1.cut piece hp).trans (List.prefix_append a _).isInfix
    · have hsuffix : b <:+ a ++ '\n' :: b := ⟨a ++ ['\n'], by simp⟩
      exact (h2.cut piece hp).trans hsuffix.isInfix
  size piece hp := by
    rcases List.mem_append.1 hp with hp | hp
    · exact h1.size piece hp
    · exact h2.size piece hp

@[simp] theorem createSplitChunk_content (content : Text) (partNum pos total : ℕ) :
    (createSplitChunk proportion chunk content partNum pos total).content = content := rfl

/-- Each pass removes a prefix, so as many passes as characters are enough. -/
theorem emergencyLoop_spec (hlimit : 1 ≤ cfg.safeTokenLimit) : ∀ (n : ℕ) (remaining : Text)
    (partNum pos : ℕ), remaining.length ≤ n →
    ∃ pieces, emergencyLoop proportion cfg chunk n remaining partNum pos = some pieces ∧
      Pieces cfg remaining pieces
  | n, [], partNum, pos, _ => by
    refine ⟨[], by unfold emergencyLoop; rfl, rfl, fun piece hp => ?_, fun piece hp => ?_⟩
    · cases hp
    · cases hp
  | 0, c :: cs, partNum, pos, hlen => by
    rw [List.length_cons] at hlen
    omega
  | n + 1, c :: cs, partNum, pos, hlen => by
    unfold emergencyLoop
    simp only
    split
    · rename_i hfits
      have hself := @Pieces.self cfg (createSplitChunk proportion chunk (c :: cs) partNum pos
        chunk.content.length) hfits
      exact ⟨_, rfl, hself⟩
    · obtain ⟨hpos, hle, hsize⟩ := cfg.bestSplit_spec hlimit (List.cons_ne_nil c cs)
      generalize cfg.bestSplit (c :: cs) = best at hpos hle hsize ⊢
      have hrest : ((c :: cs).drop best).length ≤ n := by
        rw [List.length_drop, List.length_cons] at *
        omega
      obtain ⟨rest, hrun, hpieces⟩ := emergencyLoop_spec hlimit n ((c :: cs).drop best)
        (partNum + 1) (pos + best) hrest
      obtain ⟨b, rfl⟩ := Nat.exists_eq_succ_of_ne_zero (Nat.pos_iff_ne_zero.1 hpos)
      simp only [hrun]
      refine ⟨_, rfl, ?_, fun piece hp => ?_, fun piece hp => ?_⟩
      · rw [List.flatMap_cons, kept_append, hpieces.kept, createSplitChunk_content, ← kept_append,
          List.take_append_drop]
      · rcases List.mem_cons.1 hp with rfl | hp
        · exact (List.take_prefix _ _).isInfix
        · exact (hpieces.cut piece hp).trans (List.drop_suffix _ _).isInfix
      · rcases List.mem_cons.1 hp with rfl | hp
        · refine hsize.imp_right fun hmin => ?_
          rw [createSplitChunk_content, List.length_take]
          omega
        · exact hpieces.size piece hp

theorem emergencySplit_spec (hlimit : 1 ≤ cfg.safeTokenLimit) :
    ∃ pieces, emergencySplit proportion cfg chunk = some pieces ∧
      Pieces cfg chunk.content pieces := by
  unfold emergencySplit
  split
  · rename_i hfits
    exact ⟨_, rfl, .self hfits⟩
  · exact emergencyLoop_spec proportion hlimit _ _ 1 0 (Nat.le_refl _)

/-- The halves are the content but for the line break between them. -/
theorem lineHalves_spec {chunk1 chunk2 : UniversalChunk}
    (hlines : 3 ≤ (chunk.content.splitOn '\n').length)
    (h : lineHalves chunk (chunk.content.splitOn '\n') = some (chunk1, chunk2)) :
    chunk.content = chunk1.content ++ '\n' :: chunk2.content := by
  unfold lineHalves at h
  simp only at h
  split at h
  · cases h
  · obtain ⟨rfl, rfl⟩ := Prod.mk.inj (Option.some.inj h)
    generalize hmid : (chunk.content.splitOn '\n').length / 2 = mid
    have htake : (chunk.content.splitOn '\n').take mid ≠ [] := by
      rw [ne_eq, List.take_eq_nil_iff, ← List.length_eq_zero_iff]
      omega
    have hdrop : (chunk.content.splitOn '\n').drop mid ≠ [] := by
      rw [ne_eq, List.drop_eq_nil_iff]
      omega
    have hjoin := Joined.intercalate_append ['\n'] htake hdrop
    rw [List.take_append_drop, List.intercalate_splitOn] at hjoin
    simpa using hjoin

/-- Both halves are shorter, which bounds the depth of the recursion. -/
theorem recursiveSplit_spec (hlimit : 1 ≤ cfg.safeTokenLimit) : ∀ (n : ℕ)
    (chunk : UniversalChunk), chunk.content.length < n →
    ∃ pieces, recursiveSplit proportion cfg n chunk = some pieces ∧
      Pieces cfg chunk.content pieces
  | 0, chunk, hlen => absurd hlen (Nat.not_lt_zero _)
  | n + 1, chunk, hlen => by
    unfold recursiveSplit
    split
    · rename_i hfits
      exact ⟨_, rfl, .self hfits⟩
    · simp only
      split
      · exact emergencySplit_spec proportion hlimit
      · rename_i hlines
        split
        · exact emergencySplit_spec proportion hlimit
        · rename_i chunk1 chunk2 hhalves
          have hthree : 3 ≤ (chunk.content.splitOn '\n').length := by
            simp only [Bool.or_eq_true, decide_eq_true_eq, not_or] at hlines
            omega
          have hcontent := lineHalves_spec hthree hhalves
          have hshort : chunk1.content.length < n ∧ chunk2.content.length < n := by
            rw [hcontent, List.length_append, List.length_cons] at hlen
            omega
          obtain ⟨pieces1, hrun1, h1⟩ := recursiveSplit_spec hlimit n chunk1 hshort.1
          obtain ⟨pieces2, hrun2, h2⟩ := recursiveSplit_spec hlimit n chunk2 hshort.2
          refine ⟨pieces1 ++ pieces2, by simp [hrun1, hrun2], ?_⟩
          rw [hcontent]
          exact h1.append h2

theorem validateAndSplit_spec (hlimit : 1 ≤ cfg.safeTokenLimit) (chunk : UniversalChunk) :
    ∃ pieces, validateAndSplit proportion cfg chunk = some pieces ∧
      Pieces cfg chunk.content pieces := by
  unfold validateAndSplit
  split
  · rename_i hfits
    exact ⟨_, rfl, .self hfits⟩
  · exact recursiveSplit_spec proportion hlimit _ chunk (Nat.lt_succ_self _)

end Pieces

/-! ## Content and limits -/

theorem CASTConfig.fits_iff {cfg : CASTConfig} {content : Text} : cfg.fits content = true ↔
    (nonWhitespaceChars content : ℤ) ≤ cfg.maxChunkSize ∧
      estimateTokensChunking content ≤ cfg.safeTokenLimit := by
  unfold CASTConfig.fits
  rw [Bool.and_eq_true, decide_eq_true_eq, decide_eq_true_eq]

/-- The estimate grows with the length. -/
theorem estimateTokensChunking_mono {a b : Text} (h : a.length ≤ b.length) :
    estimateTokensChunking a ≤ estimateTokensChunking b := by
  unfold estimateTokensChunking
  split
  · exact Nat.zero_le _
  · rename_i ha
    have hpos := List.length_pos_iff.2 ha
    have hb : b ≠ [] := List.length_pos_iff.1 (by omega)
    rw [if_neg hb]
    omega

/-- A text of the minimum size is within both limits. -/
structure CASTConfig.Splittable (cfg : CASTConfig) : Prop where
  chars : (cfg.minChunkSize : ℤ) ≤ cfg.maxChunkSize
  tokens : ∀ text : Text, text.length = cfg.minChunkSize →
    estimateTokensChunking text ≤ cfg.safeTokenLimit

section Limits

variable {cfg : CASTConfig} (h : cfg.Splittable)

include h

theorem CASTConfig.Splittable.limit_pos : 1 ≤ cfg.safeTokenLimit := by
  have hmin := cfg.min_ok
  have htokens := h.tokens (List.replicate cfg.minChunkSize 'x') List.length_replicate
  have hne : List.replicate cfg.minChunkSize 'x' ≠ [] := by
    rw [ne_eq, List.replicate_eq_nil_iff]
    omega
  rw [estimateTokensChunking, if_neg hne] at htokens
  omega

/-- And so is every shorter one. -/
theorem CASTConfig.Splittable.fits_short {content : Text}
    (hlen : content.length ≤ cfg.minChunkSize) : cfg.fits content = true := by
  have hchars : nonWhitespaceChars content ≤ content.length := List.countP_le_length
  have hmono := estimateTokensChunking_mono
    (hlen.trans_eq (List.length_replicate (a := 'x')).symm)
  have htokens := h.tokens (List.replicate cfg.minChunkSize 'x') List.length_replicate
  have hmax := h.chars
  rw [CASTConfig.fits_iff]
  exact ⟨by omega, hmono.trans htokens⟩

theorem Pieces.fits {content : Text} {pieces : List UniversalChunk}
    (hp : Pieces cfg content pieces) {piece : UniversalChunk} (hmem : piece ∈ pieces) :
    cfg.fits piece.content = true :=
  (hp.size piece hmem).elim id h.fits_short

end Limits

/-- The exact ratio, rounded to zero. -/
def exactProportion (part total : ℕ) (span : ℤ) : ℤ := Int.tdiv (part * span) total

/-- A splitter that cuts down to single characters. -/
def tinyConfig : CASTConfig := { maxChunkSize := 1, minChunkSize := 1 }

def tinyChunk : UniversalChunk :=
  ⟨.block, "f", "a; b".toList, 1, 1, ⟨false, none, none, none⟩, "block"⟩

/-- Splitting ends, and the pieces hold the characters of the chunk in their order, whitespace
apart. -/
theorem validateAndSplit_kept (proportion : ℕ → ℕ → ℤ → ℤ) (cfg : CASTConfig)
    (chunk : UniversalChunk) (hlimit : 1 ≤ cfg.safeTokenLimit) :
    ∃ pieces, validateAndSplit proportion cfg chunk = some pieces ∧
      kept (pieces.flatMap (·.content)) = kept chunk.content := by
  obtain ⟨pieces, hrun, hpieces⟩ := validateAndSplit_spec proportion hlimit chunk
  exact ⟨pieces, hrun, hpieces.kept⟩

theorem validateAndSplit_kept_tiny :
    ∃ pieces, validateAndSplit exactProportion tinyConfig tinyChunk = some pieces ∧
      kept (pieces.flatMap (·.content)) = ['a', ';', 'b'] :=
  validateAndSplit_kept exactProportion tinyConfig tinyChunk (by decide)

/-- Every piece is within both limits, when a text of the minimum size is. -/
theorem validateAndSplit_fits (proportion : ℕ → ℕ → ℤ → ℤ) (cfg : CASTConfig)
    (chunk : UniversalChunk) (hmin : (cfg.minChunkSize : ℤ) ≤ cfg.maxChunkSize)
    (htokens : ∀ text : Text, text.length = cfg.minChunkSize →
      estimateTokensChunking text ≤ cfg.safeTokenLimit) :
    ∃ pieces, validateAndSplit proportion cfg chunk = some pieces ∧ ∀ piece ∈ pieces,
      (nonWhitespaceChars piece.content : ℤ) ≤ cfg.maxChunkSize ∧
        estimateTokensChunking piece.content ≤ cfg.safeTokenLimit := by
  have hcfg : cfg.Splittable := ⟨hmin, htokens⟩
  obtain ⟨pieces, hrun, hpieces⟩ := validateAndSplit_spec proportion hcfg.limit_pos chunk
  exact ⟨pieces, hrun, fun piece hp => CASTConfig.fits_iff.1 (hpieces.fits hcfg hp)⟩

theorem tinyConfig_splittable : tinyConfig.Splittable where
  chars := by decide
  tokens text hlen := by
    change text.length = 1 at hlen
    unfold estimateTokensChunking
    rw [hlen]
    split <;> decide

theorem validateAndSplit_fits_tiny :
    ∃ pieces, validateAndSplit exactProportion tinyConfig tinyChunk = some pieces ∧
      ∀ piece ∈ pieces, (nonWhitespaceChars piece.content : ℤ) ≤ 1 ∧
        estimateTokensChunking piece.content ≤ 6000 :=
  validateAndSplit_fits exactProportion tinyConfig tinyChunk tinyConfig_splittable.chars
    tinyConfig_splittable.tokens

end ChunkHound.Cast
