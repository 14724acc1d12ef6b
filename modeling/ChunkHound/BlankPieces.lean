import ChunkHound.SplitPieces

/-!
# Blank pieces

A piece of a split chunk may be blank although the chunk is not. None is where the code and the
configuration leave no room for it (`Spread`) : the lines are short and no three in a row are blank,
or the text is cut at punctuation and has no long whitespace, and no line breaks or spaces in front
only. Beyond that it is as the cuts fall : none is blank exactly when every cut leaves text on both
sides (`blank_free_iff`).
-/

namespace ChunkHound.Cast

/-- The text has whitespace only. -/
def blank (text : Text) : Bool := text.all isSpace

/-- No piece is blank. -/
def NoBlank (pieces : List UniversalChunk) : Prop := ∀ p ∈ pieces, blank p.content = false

/-! ## Code that leaves no blank piece -/

/-- A text in which no cut at punctuation takes whitespace only : it fits the window, no whitespace
in it is as long as the limit, and where an end of it that is over the limit begins with whitespace,
the line breaks and spaces in there, but for the first character, are not the last. -/
structure SpreadText (cfg : CASTConfig) (text : Text) : Prop where
  window : text.length ≤ cfg.window
  runs : ∀ run, run <:+: text → blank run = true → (run.length : ℤ) < cfg.maxChunkSize
  ends : ∀ t, t <:+ text → cfg.maxChunkSize < nonWhitespaceChars t → ∀ c ∈ ['\n', ' '],
    c ∈ (t.takeWhile isSpace).tail → c ∈ t.dropWhile isSpace

/-- A chunk of short lines, one for each line number, of which no three in a row are blank. -/
structure SpreadLines (cfg : CASTConfig) (chunk : UniversalChunk) : Prop where
  tokens : cfg.maxChunkSize + 1 < cfg.window
  short : cfg.analyzeLines (chunk.content.splitOn '\n') = false
  range : chunk.endLine - chunk.startLine + 1 = (chunk.content.splitOn '\n').length
  text : ∀ three, three <:+: chunk.content.splitOn '\n' → three.length = 3 →
    ∃ line ∈ three, blank line = false

/-- The chunk has short lines that are spread, or is split by force and its text is. -/
def Spread (cfg : CASTConfig) (chunk : UniversalChunk) : Prop :=
  SpreadLines cfg chunk ∨
    ((chunk.content.splitOn '\n').length ≤ 2 ∨
      cfg.analyzeLines (chunk.content.splitOn '\n') = true ∨
        chunk.endLine - chunk.startLine < 2) ∧ SpreadText cfg chunk.content

section Spread

variable {cfg : CASTConfig} {chunk : UniversalChunk} {proportion : ℕ → ℕ → ℤ → ℤ}
  {remaining : Text}

theorem blank_append {a b : Text} : blank (a ++ b) = (blank a && blank b) := List.all_append

theorem nonWhitespaceChars_append (a b : Text) :
    nonWhitespaceChars (a ++ b) = nonWhitespaceChars a + nonWhitespaceChars b :=
  List.countP_append

theorem nonWhitespaceChars_eq_zero {t : Text} : nonWhitespaceChars t = 0 ↔ blank t = true := by
  rw [nonWhitespaceChars, List.countP_eq_zero, blank, List.all_eq_true]
  exact forall₂_congr fun c _ => by simp

theorem nonWhitespaceChars_le (t : Text) : nonWhitespaceChars t ≤ t.length :=
  List.countP_le_length

theorem SpreadText.drop {n : ℕ} (h : SpreadText cfg remaining) :
    SpreadText cfg (remaining.drop n) where
  window := by
    have := h.window
    rw [List.length_drop]
    omega
  runs run hrun := h.runs run (hrun.trans (List.drop_suffix n remaining).isInfix)
  ends t ht := h.ends t (ht.trans (List.drop_suffix n remaining))

/-- Within the window, a text is only over the limit of characters. -/
theorem fits_iff_of_window {t : Text} (h : t.length ≤ cfg.window) :
    cfg.fits t = true ↔ (nonWhitespaceChars t : ℤ) ≤ cfg.maxChunkSize := by
  have htokens : estimateTokensChunking t ≤ cfg.safeTokenLimit := by
    unfold estimateTokensChunking
    split
    · exact Nat.zero_le _
    · rename_i hne
      have hpos : 0 < t.length := List.length_pos_iff.2 hne
      unfold CASTConfig.window at h
      omega
  simp [CASTConfig.fits, htokens]

/-- The last place of a character is behind every other one. -/
theorem le_rfind {c : Char} {stop pos i : ℕ} (h : rfind c remaining stop = some pos)
    (hi : remaining[i]? = some c) (hstop : i < stop) : i ≤ pos := by
  have hlen : i < remaining.length := (List.getElem?_eq_some_iff.1 hi).1
  obtain ⟨-, before, after, hsplit, hnot⟩ := List.find?_eq_some_iff_append.1 h
  have hmem : i ∈ (List.range (min stop remaining.length)).reverse := by
    rw [List.mem_reverse, List.mem_range]
    omega
  have hsorted : (List.range (min stop remaining.length)).reverse.Pairwise (· > ·) :=
    List.pairwise_reverse.2 List.pairwise_lt_range
  rw [hsplit] at hmem hsorted
  rcases List.mem_append.1 hmem with hbefore | hafter
  · exact absurd (decide_eq_true hi) (by simpa using hnot i hbefore)
  · rcases List.mem_cons.1 hafter with rfl | hafter
    · exact Nat.le_refl i
    · exact Nat.le_of_lt ((List.pairwise_cons.1 (List.pairwise_append.1 hsorted).2.1).1 i hafter)

/-- What begins a text and is longer than its leading whitespace has text. -/
theorem blank_take_of_lt {n : ℕ} (htext : blank remaining = false)
    (hn : (remaining.takeWhile isSpace).length < n) : blank (remaining.take n) = false := by
  rw [Bool.eq_false_iff] at htext ⊢
  intro hblank
  refine htext ?_
  have hsplit := List.takeWhile_append_dropWhile (p := isSpace) (l := remaining)
  cases hbody : remaining.dropWhile isSpace with
  | nil =>
    rw [hbody, List.append_nil] at hsplit
    rw [← hsplit]
    exact List.all_eq_true.2 fun c hc => List.mem_takeWhile_imp hc
  | cons x body =>
    have hx := List.head?_dropWhile_not isSpace remaining
    have hmem : x ∈ remaining.take n := by
      obtain ⟨k, hk⟩ := Nat.exists_eq_add_one.2
        (show 0 < n - (remaining.takeWhile isSpace).length by omega)
      rw [← hsplit, List.take_append, hbody, hk, List.take_succ_cons]
      exact List.mem_append_right _ List.mem_cons_self
    have hspace := List.all_eq_true.1 hblank x hmem
    rw [hbody] at hx
    simp [hspace] at hx

/-- A cut at a separator has text in front of it. -/
theorem SpreadText.blank_splitAt (h : SpreadText cfg remaining) (htext : blank remaining = false)
    (hover : cfg.maxChunkSize < nonWhitespaceChars remaining) {c : Char} {best : ℕ}
    (hc : c ∈ splitChars) (hbest : cfg.splitAt remaining c = some best) :
    blank (remaining.take best) = false := by
  unfold CASTConfig.splitAt at hbest
  split at hbest
  · rename_i pos hpos
    split at hbest
    · rename_i hvalid
      obtain rfl := Option.some.inj hbest
      have hat : remaining[pos]? = some c := by simpa using List.find?_some hpos
      have hsplit := List.takeWhile_append_dropWhile (p := isSpace) (l := remaining)
      by_cases hlead : (remaining.takeWhile isSpace).length ≤ pos
      · exact blank_take_of_lt htext (Nat.lt_succ_of_le hlead)
      · -- the separator is in the whitespace that the text begins with
        have hfront : (remaining.takeWhile isSpace)[pos]? = some c := by
          rw [← hat]
          conv_rhs => rw [← hsplit]
          exact (List.getElem?_append_left (not_le.1 hlead)).symm
        have htail : c ∈ (remaining.takeWhile isSpace).tail := by
          obtain ⟨k, rfl⟩ := Nat.exists_eq_add_one.2 hvalid.1
          exact List.mem_of_getElem? (List.getElem?_tail.trans hfront)
        have hspace : isSpace c = true := List.mem_takeWhile_imp (List.mem_of_getElem? hfront)
        have hlayout : c ∈ ['\n', ' '] := by
          simp only [splitChars, List.mem_cons, List.not_mem_nil, or_false] at hc ⊢
          rcases hc with rfl | rfl | rfl | rfl | rfl | rfl <;>
            first | exact Or.inl rfl | exact Or.inr rfl | exact absurd hspace (by decide)
        obtain ⟨i, hi⟩ := List.mem_iff_getElem?.1
          (h.ends remaining List.suffix_rfl hover c hlayout htail)
        have hplace : remaining[(remaining.takeWhile isSpace).length + i]? = some c := by
          rw [← hi, ← Nat.add_sub_cancel_left (remaining.takeWhile isSpace).length i,
            ← List.getElem?_append_right (Nat.le_add_right _ i), hsplit, Nat.add_sub_cancel_left]
        have hlt := (List.getElem?_eq_some_iff.1 hplace).1
        have hwindow := h.window
        have hle := le_rfind hpos hplace (by omega)
        omega
    · cases hbest
  · cases hbest

/-- A forced split ends where it begins, or at half of a text that is over the limits. -/
theorem shrink_cases (cfg : CASTConfig) (remaining : Text) : ∀ {n best : ℕ}, best ≤ n →
    cfg.shrink remaining n best = best ∨ ∃ whole ≤ best, cfg.fits (remaining.take whole) = false ∧
      cfg.shrink remaining n best = whole / 2
  | 0, best, _ => Or.inl rfl
  | n + 1, best, hle => by
    unfold CASTConfig.shrink
    split
    · rename_i hgo
      rw [Bool.and_eq_true, Bool.not_eq_true', decide_eq_true_eq] at hgo
      have hmin := cfg.min_ok
      right
      rcases shrink_cases cfg remaining (show best / 2 ≤ n by omega) with
        heq | ⟨whole, hwhole, hfits, heq⟩
      · exact ⟨best, Nat.le_refl best, hgo.1, heq⟩
      · exact ⟨whole, by omega, hfits, heq⟩
    · exact Or.inl rfl

/-- What is left of a text that is over the limit, behind a piece that is not. -/
theorem blank_drop_of_fits {best : ℕ}
    (hover : cfg.maxChunkSize < nonWhitespaceChars remaining)
    (hfits : cfg.fits (remaining.take best) = true) : blank (remaining.drop best) = false := by
  rw [Bool.eq_false_iff]
  intro hblank
  have hsum := nonWhitespaceChars_append (remaining.take best) (remaining.drop best)
  rw [List.take_append_drop, nonWhitespaceChars_eq_zero.2 hblank, Nat.add_zero] at hsum
  simp only [CASTConfig.fits, Bool.and_eq_true, decide_eq_true_eq] at hfits
  omega

/-- A cut of a spread text that is over the limits leaves text on both sides. -/
theorem SpreadText.blank_cut (h : SpreadText cfg remaining) (htext : blank remaining = false)
    (hfits : cfg.fits remaining = false) :
    blank (remaining.take (cfg.bestSplit remaining)) = false ∧
      (remaining.drop (cfg.bestSplit remaining) = [] ∨
        blank (remaining.drop (cfg.bestSplit remaining)) = false) := by
  have hover : cfg.maxChunkSize < nonWhitespaceChars remaining := by
    by_contra hle
    rw [(fits_iff_of_window h.window).2 (not_lt.1 hle)] at hfits
    cases hfits
  unfold CASTConfig.bestSplit
  split
  · rename_i best hbest
    obtain ⟨c, hc, hat⟩ := List.exists_of_findSome?_eq_some hbest
    exact ⟨h.blank_splitAt htext hover hc hat,
      Or.inr (blank_drop_of_fits hover (cfg.splitAt_spec hat).2.2)⟩
  · have hwindow : min cfg.window remaining.length = remaining.length := Nat.min_eq_right h.window
    rw [hwindow]
    rcases shrink_cases cfg remaining (Nat.le_refl remaining.length) with
      hwhole | ⟨whole, hwhole, hnot, hhalf⟩
    · rw [hwhole, List.take_length, List.drop_length]
      exact ⟨htext, Or.inl rfl⟩
    · rw [hhalf]
      -- the half is over the limit twice, or is text itself
      have htwice : cfg.maxChunkSize < nonWhitespaceChars (remaining.take whole) := by
        by_contra hle
        have hlen : (remaining.take whole).length ≤ cfg.window :=
          (List.length_take_le' whole remaining).trans h.window
        rw [(fits_iff_of_window hlen).2 (not_lt.1 hle)] at hnot
        cases hnot
      have hsplit : remaining.take whole =
          remaining.take (whole / 2) ++ (remaining.take whole).drop (whole / 2) := by
        conv_lhs => rw [← List.take_append_drop (whole / 2) (remaining.take whole)]
        rw [List.take_take, Nat.min_eq_left (Nat.div_le_self whole 2)]
      have hsum := congrArg nonWhitespaceChars hsplit
      rw [nonWhitespaceChars_append] at hsum
      have hrest := nonWhitespaceChars_le ((remaining.take whole).drop (whole / 2))
      have hfront := nonWhitespaceChars_le (remaining.take (whole / 2))
      rw [List.length_drop, List.length_take] at hrest
      rw [List.length_take] at hfront
      refine ⟨?_, ?_⟩
      · rw [Bool.eq_false_iff]
        intro hblank
        have hrun := h.runs _ (List.take_prefix _ _).isInfix hblank
        rw [nonWhitespaceChars_eq_zero.2 hblank] at hsum
        rw [List.length_take] at hrun
        omega
      · cases hdone : cfg.fits (remaining.take (whole / 2)) with
        | true => exact Or.inr (blank_drop_of_fits hover hdone)
        | false =>
          right
          rw [Bool.eq_false_iff]
          intro hblank
          have hrun := h.runs _ (List.drop_suffix _ _).isInfix hblank
          have hlen : (remaining.take (whole / 2)).length ≤ cfg.window :=
            (List.length_take_le' _ remaining).trans h.window
          have hmuch : cfg.maxChunkSize < nonWhitespaceChars (remaining.take (whole / 2)) := by
            by_contra hle
            rw [(fits_iff_of_window hlen).2 (not_lt.1 hle)] at hdone
            cases hdone
          rw [List.length_drop] at hrun
          omega

theorem emergencyLoop_spread : ∀ (n : ℕ) {remaining : Text} {partNum pos : ℕ}
    {pieces : List UniversalChunk}, SpreadText cfg remaining →
    remaining = [] ∨ blank remaining = false →
    emergencyLoop proportion cfg chunk n remaining partNum pos = some pieces → NoBlank pieces
  | n, remaining, partNum, pos, pieces, h, htext, hrun => by
    by_cases hne : remaining = []
    · subst hne
      unfold emergencyLoop at hrun
      obtain rfl := Option.some.inj hrun
      exact List.forall_mem_nil _
    · have htext := htext.resolve_left hne
      cases hfits : cfg.fits remaining with
      | true =>
        obtain rfl := emergencyLoop_fits hne hfits hrun
        exact List.forall_mem_singleton.2 htext
      | false =>
        obtain ⟨n', rest, rfl, hrest, rfl⟩ := emergencyLoop_succ hne hfits hrun
        obtain ⟨hpiece, hleft⟩ := h.blank_cut htext hfits
        exact List.forall_mem_cons.2 ⟨hpiece, emergencyLoop_spread n' h.drop hleft hrest⟩

end Spread

/-! ## Short lines -/

section Lines

variable {cfg : CASTConfig} {chunk chunk1 chunk2 : UniversalChunk} {proportion : ℕ → ℕ → ℤ → ℤ}

/-- A few short lines are not over the limit. -/
theorem joined_size {m : ℤ} : ∀ {lines : List Text}, lines ≠ [] →
    (∀ line ∈ lines, 5 * (line.length : ℤ) ≤ m) →
    5 * (nonWhitespaceChars (['\n'].intercalate lines) : ℤ) ≤ lines.length * m ∧
      5 * ((['\n'].intercalate lines).length + 1 : ℤ) ≤ lines.length * (m + 5)
  | [], hne, _ => absurd rfl hne
  | [line], _, hshort => by
    have hline := hshort line (List.mem_singleton_self line)
    have hkept := nonWhitespaceChars_le line
    rw [List.intercalate_singleton, List.length_singleton]
    constructor <;> push_cast <;> omega
  | line :: line' :: rest, _, hshort => by
    obtain ⟨hkept', hlen'⟩ := joined_size (List.cons_ne_nil line' rest)
      fun l hl => hshort l (List.mem_cons_of_mem line hl)
    have hline := hshort line List.mem_cons_self
    have hkept := nonWhitespaceChars_le line
    have hbreak : nonWhitespaceChars ['\n'] = 0 := by decide
    rw [List.intercalate_cons_cons, nonWhitespaceChars_append, nonWhitespaceChars_append, hbreak,
      List.length_append, List.length_append, List.length_cons (a := line)]
    push_cast at hkept' hlen' ⊢
    constructor <;> simp only [List.length_cons, List.length_nil, add_mul] at * <;> omega

theorem SpreadLines.lines_short (h : SpreadLines cfg chunk) :
    ∀ line ∈ chunk.content.splitOn '\n', 5 * (line.length : ℤ) ≤ cfg.maxChunkSize := by
  intro line hline
  have hshort := List.any_eq_false.1 h.short line hline
  simpa using hshort

/-- A chunk of short lines that is over the limits has six of them. -/
theorem SpreadLines.six (h : SpreadLines cfg chunk) (hfits : cfg.fits chunk.content = false) :
    6 ≤ (chunk.content.splitOn '\n').length := by
  by_contra hfew
  obtain ⟨hkept, hlen⟩ := joined_size (List.splitOn_ne_nil '\n' chunk.content) h.lines_short
  rw [List.intercalate_splitOn] at hkept hlen
  have htokens := h.tokens
  obtain ⟨line, hline⟩ := List.exists_mem_of_ne_nil _ (List.splitOn_ne_nil '\n' chunk.content)
  have hmax : 0 ≤ cfg.maxChunkSize := by
    have := h.lines_short line hline
    omega
  have hcount : ((chunk.content.splitOn '\n').length : ℤ) ≤ 5 := by omega
  have hchars : (nonWhitespaceChars chunk.content : ℤ) ≤ cfg.maxChunkSize := by nlinarith
  have hlength : (chunk.content.length + 1 : ℤ) ≤ cfg.maxChunkSize + 5 := by nlinarith
  have hestimate : estimateTokensChunking chunk.content ≤ cfg.safeTokenLimit := by
    unfold estimateTokensChunking
    unfold CASTConfig.window at htokens
    split
    · exact Nat.zero_le _
    · omega
  simp [CASTConfig.fits, hchars, hestimate] at hfits

/-- Three lines of such a chunk have text. -/
theorem blank_of_three {lines : List Text} (hlen : 3 ≤ lines.length)
    (htext : ∀ three, three <:+: lines → three.length = 3 → ∃ line ∈ three, blank line = false) :
    blank (['\n'].intercalate lines) = false := by
  obtain ⟨line, hline, hblank⟩ := htext (lines.take 3) (List.take_prefix 3 lines).isInfix
    (by rw [List.length_take]; omega)
  rw [Bool.eq_false_iff] at hblank ⊢
  intro hall
  refine hblank (List.all_eq_true.2 fun c hc => List.all_eq_true.1 hall c ?_)
  exact Joined.mem_intercalate_of_mem hc (List.mem_of_mem_take hline)

/-- Both halves of a chunk of short lines are such chunks, and have text. -/
theorem SpreadLines.halved (h : SpreadLines cfg chunk) (hfits : cfg.fits chunk.content = false) :
    ∃ chunk1 chunk2, halves cfg chunk = some (chunk1, chunk2) ∧
      (SpreadLines cfg chunk1 ∧ blank chunk1.content = false) ∧
        SpreadLines cfg chunk2 ∧ blank chunk2.content = false := by
  have hsix := h.six hfits
  have hrange := h.range
  generalize hlines : chunk.content.splitOn '\n' = lines at hsix hrange
  have hbreak : ∀ line ∈ lines, '\n' ∉ line := fun line hline =>
    Joined.notMem_of_mem_splitOn (hlines ▸ hline)
  have hpart : ∀ part : List Text, part <:+: lines → 3 ≤ part.length →
      ∀ c : UniversalChunk, c.content = ['\n'].intercalate part →
        c.endLine - c.startLine + 1 = part.length →
          SpreadLines cfg c ∧ blank c.content = false := by
    intro part hsub hthree c hcontent hlen
    have hne : part ≠ [] := List.ne_nil_of_length_pos (by omega)
    have hsplit : c.content.splitOn '\n' = part := by
      rw [hcontent]
      exact List.splitOn_intercalate '\n' (fun line hline => hbreak line (hsub.subset hline)) hne
    have htext : ∀ three, three <:+: part → three.length = 3 → ∃ line ∈ three, blank line = false :=
      fun three h3 => h.text three (hlines ▸ h3.trans hsub)
    refine ⟨⟨h.tokens, ?_, by rw [hsplit, hlen], by rwa [hsplit]⟩, ?_⟩
    · rw [hsplit]
      refine List.any_eq_false.2 fun line hline => ?_
      exact List.any_eq_false.1 h.short line (hlines ▸ hsub.subset hline)
    · rw [hcontent]
      exact blank_of_three hthree htext
  have htake : (lines.take (lines.length / 2)).length = lines.length / 2 := by
    rw [List.length_take]
    omega
  have hdrop : (lines.drop (lines.length / 2)).length = lines.length - lines.length / 2 :=
    List.length_drop
  have hshort : cfg.analyzeLines lines = false := hlines ▸ h.short
  unfold halves
  rw [hlines]
  dsimp only
  rw [if_neg (by simp [hshort]; omega), lineHalves]
  rw [if_neg (by rw [htake]; omega)]
  refine ⟨_, _, rfl, hpart _ (List.take_prefix _ _).isInfix (by omega) _ rfl ?_,
    hpart _ (List.drop_suffix _ _).isInfix (by omega) _ rfl ?_⟩
  · dsimp only
    rw [htake]
    omega
  · dsimp only
    rw [htake, hdrop]
    omega

theorem recursiveSplit_spread : ∀ (n : ℕ) {chunk : UniversalChunk} {pieces : List UniversalChunk},
    SpreadLines cfg chunk → blank chunk.content = false →
    recursiveSplit proportion cfg n chunk = some pieces → NoBlank pieces
  | 0, chunk, pieces, _, _, hrun => by cases hrun
  | n + 1, chunk, pieces, h, htext, hrun => by
    cases recursiveSplit_succ hrun with
    | whole => exact List.forall_mem_singleton.2 htext
    | force hfits hhalves _ =>
      obtain ⟨chunk1, chunk2, hsome, -⟩ := h.halved hfits
      rw [hhalves] at hsome
      cases hsome
    | @lines chunk1 chunk2 _ _ hfits hhalves hrun1 hrun2 =>
      obtain ⟨c1, c2, hsome, ⟨h1, htext1⟩, h2, htext2⟩ := h.halved hfits
      obtain ⟨rfl, rfl⟩ := Prod.mk.inj (Option.some.inj (hhalves.symm.trans hsome))
      exact List.forall_mem_append.2
        ⟨recursiveSplit_spread n h1 htext1 hrun1, recursiveSplit_spread n h2 htext2 hrun2⟩

/-- A spread chunk leaves no blank piece. -/
theorem Spread.noBlank (h : Spread cfg chunk) (htext : blank chunk.content = false) {n : ℕ}
    {pieces : List UniversalChunk}
    (hrun : recursiveSplit proportion cfg (n + 1) chunk = some pieces) : NoBlank pieces := by
  rcases h with h | ⟨hforce, h⟩
  · exact recursiveSplit_spread _ h htext hrun
  · have hnone : halves cfg chunk = none := by
      refine if_pos ?_
      simpa [Bool.or_eq_true, or_assoc] using hforce
    cases recursiveSplit_succ hrun with
    | whole => exact List.forall_mem_singleton.2 htext
    | force hfits _ hrun =>
      unfold emergencySplit at hrun
      rw [hfits, if_neg Bool.false_ne_true] at hrun
      exact emergencyLoop_spread _ h (Or.inr htext) hrun
    | lines _ hhalves =>
      rw [hnone] at hhalves
      cases hhalves

end Lines

/-! ## Clean cuts -/

/-- Every cut of an emergency split leaves text in the piece, and in what remains if anything
does. -/
def cleanEmergency (cfg : CASTConfig) : ℕ → Text → Bool
  | 0, _ => true
  | n + 1, remaining =>
    if remaining = [] ∨ cfg.fits remaining then true
    else
      let best := cfg.bestSplit remaining
      !blank (remaining.take best) &&
        (remaining.drop best = [] || !blank (remaining.drop best)) &&
        cleanEmergency cfg n (remaining.drop best)

/-- A half that is blank, and is returned. No text at all is, when it is within the limits. -/
def blankHalf (cfg : CASTConfig) (text : Text) : Bool :=
  blank text && (text ≠ [] || cfg.fits text)

/-- Every cut leaves text on both sides. -/
def cleanCuts (cfg : CASTConfig) : ℕ → UniversalChunk → Bool
  | 0, _ => true
  | n + 1, chunk =>
    if cfg.fits chunk.content then true
    else
      let lines := chunk.content.splitOn '\n'
      if lines.length ≤ 2 || cfg.analyzeLines lines || chunk.endLine - chunk.startLine < 2 then
        cleanEmergency cfg chunk.content.length chunk.content
      else
        match lineHalves chunk lines with
        | none => cleanEmergency cfg chunk.content.length chunk.content
        | some (chunk1, chunk2) =>
          !blankHalf cfg chunk1.content && !blankHalf cfg chunk2.content &&
            cleanCuts cfg n chunk1 && cleanCuts cfg n chunk2

section Blank

variable {cfg : CASTConfig} {chunk : UniversalChunk} {proportion : ℕ → ℕ → ℤ → ℤ}

theorem blank_take {text : Text} (h : blank text = true) (n : ℕ) : blank (text.take n) = true := by
  unfold blank at *
  rw [List.all_eq_true] at h ⊢
  exact fun c hc => h c (List.mem_of_mem_take hc)

variable {pieces : List UniversalChunk}

/-- Blank text is cut into blank pieces, and there is one. -/
theorem emergencyLoop_blank {n : ℕ} {remaining : Text} {partNum pos : ℕ}
    (hne : remaining ≠ []) (hblank : blank remaining = true)
    (hrun : emergencyLoop proportion cfg chunk n remaining partNum pos = some pieces) :
    ¬ NoBlank pieces := by
  intro h
  cases hfits : cfg.fits remaining with
  | true =>
    obtain rfl := emergencyLoop_fits hne hfits hrun
    have hpiece := h _ List.mem_cons_self
    rw [createSplitChunk_content, hblank] at hpiece
    cases hpiece
  | false =>
    obtain ⟨n', rest, -, -, rfl⟩ := emergencyLoop_succ hne hfits hrun
    have hpiece := h _ List.mem_cons_self
    rw [createSplitChunk_content, blank_take hblank] at hpiece
    cases hpiece

/-- An emergency split leaves no blank piece when its cuts are clean. -/
theorem emergencyLoop_noBlank_iff : ∀ (n : ℕ) {remaining : Text} {partNum pos : ℕ}
    {pieces : List UniversalChunk}, remaining = [] ∨ blank remaining = false →
    emergencyLoop proportion cfg chunk n remaining partNum pos = some pieces →
      (NoBlank pieces ↔ cleanEmergency cfg n remaining = true)
  | n, remaining, partNum, pos, pieces, htext, hrun => by
    by_cases hne : remaining = []
    · subst hne
      unfold emergencyLoop at hrun
      obtain rfl := Option.some.inj hrun
      have hclean : cleanEmergency cfg n [] = true := by cases n <;> simp [cleanEmergency]
      simp [NoBlank, hclean]
    · cases hfits : cfg.fits remaining with
      | true =>
        obtain rfl := emergencyLoop_fits hne hfits hrun
        have hclean : cleanEmergency cfg n remaining = true := by
          cases n <;> simp [cleanEmergency, hfits]
        simp [NoBlank, hclean, htext.resolve_left hne]
      | false =>
        obtain ⟨n', rest, rfl, hrest, rfl⟩ := emergencyLoop_succ hne hfits hrun
        unfold cleanEmergency NoBlank
        rw [if_neg (by simp [hne, hfits]), List.forall_mem_cons, createSplitChunk_content]
        simp only [Bool.and_eq_true, Bool.not_eq_true', Bool.or_eq_true, decide_eq_true_eq,
          and_assoc]
        refine and_congr_right fun _ => ?_
        by_cases hdrop : remaining.drop (cfg.bestSplit remaining) = [] ∨
            blank (remaining.drop (cfg.bestSplit remaining)) = false
        · rw [and_iff_right hdrop]
          exact emergencyLoop_noBlank_iff n' hdrop hrest
        · rw [not_or, Bool.not_eq_false] at hdrop
          refine iff_of_false (emergencyLoop_blank hdrop.1 hdrop.2 hrest) fun h => ?_
          rcases h.1 with hnil | hblank
          · exact hdrop.1 hnil
          · rw [hdrop.2] at hblank
            cases hblank

theorem emergencySplit_noBlank_iff (hfits : cfg.fits chunk.content = false)
    (htext : chunk.content = [] ∨ blank chunk.content = false)
    (hrun : emergencySplit proportion cfg chunk = some pieces) :
    NoBlank pieces ↔ cleanEmergency cfg chunk.content.length chunk.content = true := by
  unfold emergencySplit at hrun
  rw [hfits, if_neg Bool.false_ne_true] at hrun
  exact emergencyLoop_noBlank_iff _ htext hrun

theorem emergencySplit_blank (hfits : cfg.fits chunk.content = false)
    (hne : chunk.content ≠ []) (hblank : blank chunk.content = true)
    (hrun : emergencySplit proportion cfg chunk = some pieces) : ¬ NoBlank pieces := by
  unfold emergencySplit at hrun
  rw [hfits, if_neg Bool.false_ne_true] at hrun
  exact emergencyLoop_blank hne hblank hrun

theorem intercalate_ne_nil {lines : List Text} (h : 2 ≤ lines.length) :
    ['\n'].intercalate lines ≠ [] := by
  match lines, h with
  | line :: line' :: rest, _ => simp [List.intercalate, List.intersperse]

/-- The second half of blank lines is blank, and has a line break. -/
theorem halves_blank {chunk1 chunk2 : UniversalChunk}
    (hhalves : halves cfg chunk = some (chunk1, chunk2)) (hblank : blank chunk.content = true) :
    blankHalf cfg chunk2.content = true := by
  obtain ⟨hlines, hhalves⟩ := lineHalves_of_halves hhalves
  have hcontent := lineHalves_spec hlines hhalves
  have hne : chunk2.content ≠ [] := by
    unfold lineHalves at hhalves
    dsimp only at hhalves
    split at hhalves
    · cases hhalves
    · obtain ⟨rfl, rfl⟩ := Prod.mk.inj (Option.some.inj hhalves)
      exact intercalate_ne_nil (by rw [List.length_drop]; omega)
  have hblank2 : blank chunk2.content = true := by
    unfold blank at hblank ⊢
    rw [hcontent, List.all_append, List.all_cons] at hblank
    simp only [Bool.and_eq_true] at hblank
    exact hblank.2.2
  simp [blankHalf, hblank2, hne]

/-- A half that is blank gives a blank piece : at every depth, the second half of it is blank. -/
theorem recursiveSplit_blankHalf : ∀ (n : ℕ) {chunk : UniversalChunk}
    {pieces : List UniversalChunk}, blankHalf cfg chunk.content = true →
    recursiveSplit proportion cfg n chunk = some pieces → ¬ NoBlank pieces
  | 0, chunk, pieces, _, hrun => by cases hrun
  | n + 1, chunk, pieces, htext, hrun => by
    have hblank : blank chunk.content = true := (Bool.and_eq_true_iff.1 htext).1
    cases recursiveSplit_succ hrun with
    | whole => simp [NoBlank, hblank]
    | force hfits _ hrun =>
      have hne : chunk.content ≠ [] := by simpa [blankHalf, hblank, hfits] using htext
      exact emergencySplit_blank hfits hne hblank hrun
    | lines _ hhalves _ hrun2 =>
      intro h
      exact recursiveSplit_blankHalf n (halves_blank hhalves hblank) hrun2
        fun p hp => h p (List.mem_append_right _ hp)

theorem cleanCuts_succ (n : ℕ) (hfits : cfg.fits chunk.content = false) :
    cleanCuts cfg (n + 1) chunk = match halves cfg chunk with
      | none => cleanEmergency cfg chunk.content.length chunk.content
      | some (chunk1, chunk2) =>
        !blankHalf cfg chunk1.content && !blankHalf cfg chunk2.content &&
          cleanCuts cfg n chunk1 && cleanCuts cfg n chunk2 := by
  rw [cleanCuts, hfits, if_neg Bool.false_ne_true]
  dsimp only [halves]
  split
  · rfl
  · rfl

/-- The pieces are not blank when the cuts are clean, of a chunk that has text or gives no
piece. -/
theorem recursiveSplit_noBlank_iff : ∀ (n : ℕ) {chunk : UniversalChunk}
    {pieces : List UniversalChunk}, blankHalf cfg chunk.content = false →
    recursiveSplit proportion cfg n chunk = some pieces →
      (NoBlank pieces ↔ cleanCuts cfg n chunk = true)
  | 0, chunk, pieces, _, hrun => by cases hrun
  | n + 1, chunk, pieces, htext, hrun => by
    cases recursiveSplit_succ hrun with
    | whole hfits =>
      have hblank : blank chunk.content = false := by simpa [blankHalf, hfits] using htext
      simp [NoBlank, cleanCuts, hfits, hblank]
    | force hfits hhalves hrun =>
      have hne : chunk.content = [] ∨ blank chunk.content = false := by
        simp only [blankHalf, hfits, Bool.or_false, Bool.and_eq_false_iff, decide_eq_false_iff_not,
          not_not] at htext
        exact htext.symm
      rw [cleanCuts_succ n hfits, hhalves]
      exact emergencySplit_noBlank_iff hfits hne hrun
    | @lines chunk1 chunk2 pieces1 pieces2 hfits hhalves hrun1 hrun2 =>
      have happend : NoBlank (pieces1 ++ pieces2) ↔ NoBlank pieces1 ∧ NoBlank pieces2 :=
        List.forall_mem_append
      rw [happend, cleanCuts_succ n hfits, hhalves]
      simp only [Bool.and_eq_true, Bool.not_eq_true']
      cases h1 : blankHalf cfg chunk1.content with
      | true => simp [recursiveSplit_blankHalf n h1 hrun1]
      | false =>
        cases h2 : blankHalf cfg chunk2.content with
        | true => simp [recursiveSplit_blankHalf n h2 hrun2]
        | false =>
          simp [recursiveSplit_noBlank_iff n h1 hrun1, recursiveSplit_noBlank_iff n h2 hrun2]

/-- The recursion checks the limits first, too. -/
theorem validateAndSplit_eq (proportion : ℕ → ℕ → ℤ → ℤ) (cfg : CASTConfig)
    (chunk : UniversalChunk) : validateAndSplit proportion cfg chunk =
      recursiveSplit proportion cfg (chunk.content.length + 1) chunk := by
  unfold validateAndSplit
  split
  · rename_i hfits
    unfold recursiveSplit
    rw [if_pos hfits]
  · rfl

/-- Six lines with a letter. -/
def sixLetters : UniversalChunk :=
  ⟨.block, "f", "a\na\na\na\na\na".toList, 1, 6, ⟨false, none, none, none⟩, "block"⟩

end Blank

end ChunkHound.Cast
