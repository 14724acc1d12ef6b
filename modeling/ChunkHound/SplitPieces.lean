import ChunkHound.ChunkSplitter
import Mathlib

/-!
# The pieces of a split chunk

What `validate_and_split` returns for a chunk that is too large, and the lines of the pieces.

The lines of a piece of an emergency split come from ratios in floating point, which are computed
exactly and then rounded. A `Rounding` is any such rounding that keeps the order and zero. The
pieces then have lines of the chunk, and start in order (`validateAndSplit_ranges`).
-/

namespace ChunkHound.Cast

/-! ## Proportions in floating point -/

/-- How a number that is no float is rounded to one. -/
structure Rounding where
  round : ℚ → ℚ
  monotone : Monotone round
  zero : round 0 = 0

namespace Rounding

/-- The rounding of a machine that computes exactly. -/
def exact : Rounding := ⟨id, monotone_id, rfl⟩

/-- `int(part / total * span)`. -/
def proportion (r : Rounding) (part total : ℕ) (span : ℤ) : ℤ :=
  let product := r.round (r.round (part / total) * r.round span)
  product.num.tdiv product.den

theorem round_nonneg (r : Rounding) {q : ℚ} (h : 0 ≤ q) : 0 ≤ r.round q :=
  r.zero ▸ r.monotone h

variable {span : ℤ}

/-- Truncation is rounding down. -/
theorem proportion_eq_floor (r : Rounding) (part total : ℕ) (hspan : 0 ≤ span) :
    r.proportion part total span = ⌊r.round (r.round (part / total) * r.round span)⌋ := by
  have hratio : 0 ≤ r.round (part / total) := r.round_nonneg (by positivity)
  have hfloat : 0 ≤ r.round span := r.round_nonneg (by exact_mod_cast hspan)
  have hproduct := r.round_nonneg (mul_nonneg hratio hfloat)
  unfold proportion
  rw [Rat.floor_def', Int.tdiv_eq_ediv_of_nonneg (Rat.num_nonneg.2 hproduct)]

theorem proportion_nonneg (r : Rounding) (part total : ℕ) (hspan : 0 ≤ span) :
    0 ≤ r.proportion part total span := by
  have hratio : 0 ≤ r.round (part / total) := r.round_nonneg (by positivity)
  have hfloat : 0 ≤ r.round span := r.round_nonneg (by exact_mod_cast hspan)
  rw [r.proportion_eq_floor part total hspan]
  exact Int.floor_nonneg.2 (r.round_nonneg (mul_nonneg hratio hfloat))

/-- A larger part has no smaller share. -/
theorem proportion_mono (r : Rounding) {part part' : ℕ} (h : part ≤ part') (total : ℕ)
    (hspan : 0 ≤ span) : r.proportion part total span ≤ r.proportion part' total span := by
  have hfloat : 0 ≤ r.round span := r.round_nonneg (by exact_mod_cast hspan)
  have hpart : (part / total : ℚ) ≤ part' / total := by gcongr
  rw [r.proportion_eq_floor part total hspan, r.proportion_eq_floor part' total hspan]
  exact Int.floor_mono (r.monotone (mul_le_mul_of_nonneg_right (r.monotone hpart) hfloat))

end Rounding

/-! ## What one call does -/

section Steps

variable {cfg : CASTConfig} {chunk chunk1 chunk2 : UniversalChunk} {pieces : List UniversalChunk}
  {proportion : ℕ → ℕ → ℤ → ℤ}

variable {n : ℕ} {partNum pos : ℕ} {remaining : Text}

/-- One pass of an emergency split. -/
theorem emergencyLoop_succ (hne : remaining ≠ []) (hfits : cfg.fits remaining = false)
    (hrun : emergencyLoop proportion cfg chunk n remaining partNum pos = some pieces) :
    ∃ n' rest, n = n' + 1 ∧ emergencyLoop proportion cfg chunk n'
        (remaining.drop (cfg.bestSplit remaining)) (partNum + 1)
        (pos + cfg.bestSplit remaining) = some rest ∧
      pieces = createSplitChunk proportion chunk (remaining.take (cfg.bestSplit remaining)) partNum
        pos chunk.content.length :: rest := by
  cases remaining with
  | nil => exact absurd rfl hne
  | cons c cs =>
    unfold emergencyLoop at hrun
    simp only [hfits, Bool.false_eq_true, if_false] at hrun
    split at hrun
    · cases hrun
    · cases hrun
    · obtain ⟨rest, hrest, hpieces⟩ := Option.bind_eq_some_iff.1 hrun
      exact ⟨_, rest, rfl, hrest, (Option.some.inj hpieces).symm⟩

theorem emergencyLoop_fits (hne : remaining ≠ []) (hfits : cfg.fits remaining = true)
    (hrun : emergencyLoop proportion cfg chunk n remaining partNum pos = some pieces) :
    pieces = [createSplitChunk proportion chunk remaining partNum pos chunk.content.length] := by
  cases remaining with
  | nil => exact absurd rfl hne
  | cons c cs =>
    unfold emergencyLoop at hrun
    simp only [hfits, if_true] at hrun
    exact (Option.some.inj hrun).symm

/-- The halves of a chunk that is split by its lines. The others are split by force. -/
def halves (cfg : CASTConfig) (chunk : UniversalChunk) : Option (UniversalChunk × UniversalChunk) :=
  let lines := chunk.content.splitOn '\n'
  if lines.length ≤ 2 || cfg.analyzeLines lines || chunk.endLine - chunk.startLine < 2 then none
  else lineHalves chunk lines

/-- A chunk that is split by its lines has three of them. -/
theorem lineHalves_of_halves (h : halves cfg chunk = some (chunk1, chunk2)) :
    3 ≤ (chunk.content.splitOn '\n').length ∧
      lineHalves chunk (chunk.content.splitOn '\n') = some (chunk1, chunk2) := by
  unfold halves at h
  dsimp only at h
  split at h
  · cases h
  · rename_i hlines
    simp only [Bool.or_eq_true, decide_eq_true_eq, not_or] at hlines
    exact ⟨by omega, h⟩

/-- What `_recursive_split` returns : the chunk, the pieces it is split into by force, or those of
its halves. -/
inductive SplitBy (proportion : ℕ → ℕ → ℤ → ℤ) (cfg : CASTConfig) (n : ℕ) (chunk : UniversalChunk) :
    List UniversalChunk → Prop
  | whole (hfits : cfg.fits chunk.content = true) : SplitBy proportion cfg n chunk [chunk]
  | force {pieces : List UniversalChunk} (hfits : cfg.fits chunk.content = false)
      (hhalves : halves cfg chunk = none)
      (hrun : emergencySplit proportion cfg chunk = some pieces) :
      SplitBy proportion cfg n chunk pieces
  | lines {chunk1 chunk2 : UniversalChunk} {pieces1 pieces2 : List UniversalChunk}
      (hfits : cfg.fits chunk.content = false) (hhalves : halves cfg chunk = some (chunk1, chunk2))
      (hrun1 : recursiveSplit proportion cfg n chunk1 = some pieces1)
      (hrun2 : recursiveSplit proportion cfg n chunk2 = some pieces2) :
      SplitBy proportion cfg n chunk (pieces1 ++ pieces2)

theorem recursiveSplit_succ (hrun : recursiveSplit proportion cfg (n + 1) chunk =
    some pieces) : SplitBy proportion cfg n chunk pieces := by
  unfold recursiveSplit at hrun
  dsimp only at hrun
  cases hfits : cfg.fits chunk.content with
  | true =>
    rw [hfits, if_pos rfl] at hrun
    obtain rfl := Option.some.inj hrun
    exact .whole hfits
  | false =>
    rw [hfits, if_neg Bool.false_ne_true] at hrun
    split at hrun
    · rename_i hlines
      exact .force hfits (if_pos hlines) hrun
    · rename_i hlines
      have hhalves : halves cfg chunk = lineHalves chunk (chunk.content.splitOn '\n') :=
        if_neg hlines
      split at hrun
      · rename_i hnone
        exact .force hfits (hhalves.trans hnone) hrun
      · rename_i chunk1 chunk2 hsome
        obtain ⟨pieces1, hrun1, hrun⟩ := Option.bind_eq_some_iff.1 hrun
        obtain ⟨pieces2, hrun2, hrun⟩ := Option.bind_eq_some_iff.1 hrun
        obtain rfl := Option.some.inj hrun
        exact .lines hfits (hhalves.trans hsome) hrun1 hrun2

end Steps

/-! ## Lines -/

/-- The pieces have lines of the chunk, and start in order. -/
structure Ranges (chunk : UniversalChunk) (pieces : List UniversalChunk) : Prop where
  valid : ∀ p ∈ pieces, p.startLine ≤ p.endLine
  first : ∀ p ∈ pieces, chunk.startLine ≤ p.startLine
  last : ∀ p ∈ pieces, p.endLine ≤ chunk.endLine
  ordered : pieces.Pairwise fun a b => a.startLine ≤ b.startLine

theorem ranges_self {chunk : UniversalChunk} (h : chunk.startLine ≤ chunk.endLine) :
    Ranges chunk [chunk] where
  valid p hp := by rwa [List.mem_singleton.1 hp]
  first p hp := by rw [List.mem_singleton.1 hp]
  last p hp := by rw [List.mem_singleton.1 hp]
  ordered := List.pairwise_singleton _ _

section Ranges

variable {cfg : CASTConfig} {chunk chunk1 chunk2 : UniversalChunk} (r : Rounding)

/-- Where the piece at a position starts. -/
def pieceStart (chunk : UniversalChunk) (pos : ℕ) : ℤ :=
  if 0 < chunk.content.length then
    min (chunk.startLine +
      r.proportion pos chunk.content.length (chunk.endLine - chunk.startLine + 1)) chunk.endLine
  else chunk.startLine

theorem createSplitChunk_startLine (content : Text) (partNum pos : ℕ) :
    (createSplitChunk r.proportion chunk content partNum pos chunk.content.length).startLine =
      pieceStart r chunk pos := by
  unfold createSplitChunk pieceStart
  dsimp only
  split
  · rfl
  · rfl

theorem createSplitChunk_endLine (h : chunk.startLine ≤ chunk.endLine) (content : Text)
    (partNum pos : ℕ) : pieceStart r chunk pos ≤
      (createSplitChunk r.proportion chunk content partNum pos chunk.content.length).endLine ∧
      (createSplitChunk r.proportion chunk content partNum pos chunk.content.length).endLine ≤
        chunk.endLine := by
  unfold createSplitChunk pieceStart
  dsimp only
  split
  · exact ⟨le_max_right _ _, max_le (min_le_left _ _) (min_le_right _ _)⟩
  · exact ⟨h, le_refl _⟩

theorem le_pieceStart (h : chunk.startLine ≤ chunk.endLine) (pos : ℕ) :
    chunk.startLine ≤ pieceStart r chunk pos := by
  unfold pieceStart
  split
  · have hspan : 0 ≤ chunk.endLine - chunk.startLine + 1 := by omega
    have hoffset := r.proportion_nonneg pos chunk.content.length hspan
    exact le_min (by omega) h
  · exact le_refl _

theorem pieceStart_mono (h : chunk.startLine ≤ chunk.endLine) {pos pos' : ℕ} (hpos : pos ≤ pos') :
    pieceStart r chunk pos ≤ pieceStart r chunk pos' := by
  unfold pieceStart
  split
  · have hspan : 0 ≤ chunk.endLine - chunk.startLine + 1 := by omega
    have hoffset := r.proportion_mono hpos chunk.content.length hspan
    exact min_le_min_right _ (by omega)
  · exact le_refl _

/-- A piece in front of pieces that come after it. -/
theorem Ranges.cons (h : chunk.startLine ≤ chunk.endLine) {rest : List UniversalChunk}
    {pos pos' : ℕ} (hpos : pos ≤ pos') (hrest : Ranges chunk rest)
    (hafter : ∀ p ∈ rest, pieceStart r chunk pos' ≤ p.startLine) (content : Text) (partNum : ℕ) :
    Ranges chunk (createSplitChunk r.proportion chunk content partNum pos chunk.content.length ::
      rest) := by
  have hstart : (createSplitChunk r.proportion chunk content partNum pos
      chunk.content.length).startLine = pieceStart r chunk pos :=
    createSplitChunk_startLine r content partNum pos
  obtain ⟨hvalid, hlast⟩ := createSplitChunk_endLine r h content partNum pos
  refine ⟨?_, ?_, ?_, ?_⟩
  · exact List.forall_mem_cons.2 ⟨hstart.trans_le hvalid, hrest.valid⟩
  · exact List.forall_mem_cons.2 ⟨(le_pieceStart r h pos).trans_eq hstart.symm, hrest.first⟩
  · exact List.forall_mem_cons.2 ⟨hlast, hrest.last⟩
  · exact List.pairwise_cons.2 ⟨fun p hp => hstart.trans_le
      ((pieceStart_mono r h hpos).trans (hafter p hp)), hrest.ordered⟩

theorem Ranges.nil : Ranges chunk [] :=
  ⟨List.forall_mem_nil _, List.forall_mem_nil _, List.forall_mem_nil _, List.Pairwise.nil⟩

/-- Each piece starts where its position is, and the positions grow. -/
theorem emergencyLoop_ranges (h : chunk.startLine ≤ chunk.endLine) : ∀ (n : ℕ) {remaining : Text}
    {partNum pos : ℕ} {pieces : List UniversalChunk},
    emergencyLoop r.proportion cfg chunk n remaining partNum pos = some pieces →
      Ranges chunk pieces ∧ ∀ p ∈ pieces, pieceStart r chunk pos ≤ p.startLine
  | n, remaining, partNum, pos, pieces, hrun => by
    by_cases hne : remaining = []
    · subst hne
      unfold emergencyLoop at hrun
      obtain rfl := Option.some.inj hrun
      exact ⟨.nil, List.forall_mem_nil _⟩
    · cases hfits : cfg.fits remaining with
      | true =>
        obtain rfl := emergencyLoop_fits hne hfits hrun
        refine ⟨Ranges.cons r h (Nat.le_refl pos) .nil (List.forall_mem_nil _) _ _, fun p hp => ?_⟩
        rw [List.mem_singleton.1 hp, createSplitChunk_startLine]
      | false =>
        obtain ⟨n', rest, rfl, hrest, rfl⟩ := emergencyLoop_succ hne hfits hrun
        obtain ⟨hranges, hafter⟩ := emergencyLoop_ranges h n' hrest
        refine ⟨Ranges.cons r h (Nat.le_add_right pos _) hranges hafter _ _, fun p hp => ?_⟩
        rcases List.mem_cons.1 hp with rfl | hp
        · rw [createSplitChunk_startLine]
        · exact (pieceStart_mono r h (Nat.le_add_right pos _)).trans (hafter p hp)

variable {pieces : List UniversalChunk}

theorem emergencySplit_ranges (h : chunk.startLine ≤ chunk.endLine)
    (hrun : emergencySplit r.proportion cfg chunk = some pieces) : Ranges chunk pieces := by
  unfold emergencySplit at hrun
  split at hrun
  · obtain rfl := Option.some.inj hrun
    exact ranges_self h
  · exact (emergencyLoop_ranges r h _ hrun).1

/-- The halves share out the lines of the chunk. -/
theorem lineHalves_lines {lines : List Text}
    (hhalves : lineHalves chunk lines = some (chunk1, chunk2)) :
    chunk1.startLine = chunk.startLine ∧ chunk1.startLine ≤ chunk1.endLine ∧
      chunk1.endLine < chunk2.startLine ∧ chunk2.startLine ≤ chunk2.endLine ∧
      chunk2.endLine = chunk.endLine := by
  unfold lineHalves at hhalves
  dsimp only at hhalves
  split at hhalves
  · cases hhalves
  · rename_i hroom
    obtain ⟨rfl, rfl⟩ := Prod.mk.inj (Option.some.inj hhalves)
    dsimp only
    exact ⟨rfl, le_max_left _ _, by omega, by omega, rfl⟩

/-- The pieces of the halves, those of the first before those of the second. -/
theorem Ranges.append {pieces1 pieces2 : List UniversalChunk} (h1 : Ranges chunk1 pieces1)
    (h2 : Ranges chunk2 pieces2) (hfirst : chunk1.startLine = chunk.startLine)
    (hvalid : chunk1.startLine ≤ chunk1.endLine) (hapart : chunk1.endLine < chunk2.startLine)
    (hvalid' : chunk2.startLine ≤ chunk2.endLine) (hlast : chunk2.endLine = chunk.endLine) :
    Ranges chunk (pieces1 ++ pieces2) where
  valid p hp := (List.mem_append.1 hp).elim (h1.valid p) (h2.valid p)
  first p hp := by
    rcases List.mem_append.1 hp with hp | hp
    · have := h1.first p hp
      omega
    · have := h2.first p hp
      omega
  last p hp := by
    rcases List.mem_append.1 hp with hp | hp
    · have := h1.last p hp
      omega
    · have := h2.last p hp
      omega
  ordered := by
    refine List.pairwise_append.2 ⟨h1.ordered, h2.ordered, fun a ha b hb => ?_⟩
    have hend := h1.last a ha
    have hrange := h1.valid a ha
    have hstart := h2.first b hb
    omega

theorem recursiveSplit_ranges : ∀ (n : ℕ) {chunk : UniversalChunk} {pieces : List UniversalChunk},
    chunk.startLine ≤ chunk.endLine → recursiveSplit r.proportion cfg n chunk = some pieces →
      Ranges chunk pieces
  | 0, chunk, pieces, h, hrun => by cases hrun
  | n + 1, chunk, pieces, h, hrun => by
    cases recursiveSplit_succ hrun with
    | whole => exact ranges_self h
    | force _ _ hrun => exact emergencySplit_ranges r h hrun
    | lines _ hhalves hrun1 hrun2 =>
      obtain ⟨hfirst, hvalid, hapart, hvalid', hlast⟩ :=
        lineHalves_lines (lineHalves_of_halves hhalves).2
      exact (recursiveSplit_ranges n hvalid hrun1).append
        (recursiveSplit_ranges n hvalid' hrun2) hfirst hvalid hapart hvalid' hlast

/-- Every piece has lines of the chunk, the pieces start in order, and the two halves of a chunk
that is split by lines share no line. -/
theorem validateAndSplit_ranges {pieces : List UniversalChunk}
    (h : chunk.startLine ≤ chunk.endLine)
    (hrun : validateAndSplit r.proportion cfg chunk = some pieces) :
    (∀ p ∈ pieces, p.startLine ≤ p.endLine ∧ chunk.startLine ≤ p.startLine ∧
        p.endLine ≤ chunk.endLine) ∧
      (pieces.map (·.startLine)).Pairwise (· ≤ ·) ∧
      ∀ c lines c1 c2, lineHalves c lines = some (c1, c2) →
        Disjoint (Set.Icc c1.startLine c1.endLine) (Set.Icc c2.startLine c2.endLine) := by
  have hranges : Ranges chunk pieces := by
    unfold validateAndSplit at hrun
    split at hrun
    · obtain rfl := Option.some.inj hrun
      exact ranges_self h
    · exact recursiveSplit_ranges r _ h hrun
  refine ⟨fun p hp => ⟨hranges.valid p hp, hranges.first p hp, hranges.last p hp⟩,
    List.pairwise_map.2 hranges.ordered, fun c lines c1 c2 hhalves => ?_⟩
  obtain ⟨-, -, hapart, -, -⟩ := lineHalves_lines hhalves
  rw [Set.disjoint_left]
  rintro line ⟨-, hle⟩ ⟨hge, -⟩
  omega

/-- The first piece starts where the chunk does. -/
theorem pieceStart_zero (h : chunk.startLine ≤ chunk.endLine) :
    pieceStart r chunk 0 = chunk.startLine := by
  have hnone : r.proportion 0 chunk.content.length (chunk.endLine - chunk.startLine + 1) = 0 := by
    simp [Rounding.proportion, r.zero]
  unfold pieceStart
  split
  · rw [hnone, add_zero, min_eq_left h]
  · rfl

theorem emergencySplit_start (h : chunk.startLine ≤ chunk.endLine) (hne : chunk.content ≠ [])
    (hrun : emergencySplit r.proportion cfg chunk = some pieces) :
    ∃ p ∈ pieces, p.startLine = chunk.startLine := by
  unfold emergencySplit at hrun
  split at hrun
  · obtain rfl := Option.some.inj hrun
    exact ⟨chunk, List.mem_singleton_self _, rfl⟩
  · rename_i hfits
    obtain ⟨n, rest, -, -, rfl⟩ := emergencyLoop_succ hne (by simpa using hfits) hrun
    exact ⟨_, List.mem_cons_self,
      (createSplitChunk_startLine r _ _ _).trans (pieceStart_zero r h)⟩

theorem recursiveSplit_start (hsize : 0 ≤ cfg.maxChunkSize) : ∀ (n : ℕ)
    {chunk : UniversalChunk} {pieces : List UniversalChunk}, chunk.startLine ≤ chunk.endLine →
    recursiveSplit r.proportion cfg n chunk = some pieces →
      ∃ p ∈ pieces, p.startLine = chunk.startLine
  | 0, chunk, pieces, h, hrun => by cases hrun
  | n + 1, chunk, pieces, h, hrun => by
    cases recursiveSplit_succ hrun with
    | whole => exact ⟨chunk, List.mem_singleton_self _, rfl⟩
    | force hfits _ hrun =>
      have hne : chunk.content ≠ [] := by
        intro hnil
        simp [CASTConfig.fits, hnil, nonWhitespaceChars, estimateTokensChunking, hsize.not_gt]
          at hfits
      exact emergencySplit_start r h hne hrun
    | lines _ hhalves hrun1 _ =>
      obtain ⟨hfirst, hvalid, -⟩ := lineHalves_lines (lineHalves_of_halves hhalves).2
      obtain ⟨p, hp, hstart⟩ := recursiveSplit_start hsize n hvalid hrun1
      exact ⟨p, List.mem_append_left _ hp, hstart.trans hfirst⟩

/-- One of the pieces starts where the chunk does. -/
theorem validateAndSplit_start (hsize : 0 ≤ cfg.maxChunkSize) (h : chunk.startLine ≤ chunk.endLine)
    (hrun : validateAndSplit r.proportion cfg chunk = some pieces) :
    ∃ p ∈ pieces, p.startLine = chunk.startLine := by
  unfold validateAndSplit at hrun
  split at hrun
  · obtain rfl := Option.some.inj hrun
    exact ⟨chunk, List.mem_singleton_self _, rfl⟩
  · exact recursiveSplit_start r hsize _ h hrun

end Ranges

/-- A splitter of short lines. -/
theorem shortLines_min_ok : 1 ≤ 1 := Nat.le_refl 1

def shortLines : CASTConfig :=
  { maxChunkSize := 5, minChunkSize := 1, min_ok := shortLines_min_ok }

/-- Six lines with a letter, and six empty ones. -/
def blankTail : UniversalChunk :=
  ⟨.block, "f", "a\na\na\na\na\na\n\n\n\n\n\n".toList, 1, 12, ⟨false, none, none, none⟩, "block"⟩

theorem validateAndSplit_ranges_blankTail : ∃ pieces,
    validateAndSplit Rounding.exact.proportion shortLines blankTail = some pieces ∧
      (pieces.map (·.startLine)).Pairwise (· ≤ ·) := by
  obtain ⟨pieces, hrun, -⟩ := validateAndSplit_spec Rounding.exact.proportion
    (show 1 ≤ shortLines.safeTokenLimit by decide) blankTail
  exact ⟨pieces, hrun, (validateAndSplit_ranges Rounding.exact (by decide) hrun).2.1⟩

end ChunkHound.Cast
