import ChunkHound.ContentDedup

/-!
# Deduplicating, splitting and merging chunks

`_apply_cast_algorithm` of `universal_parser.py` : the extracted chunks are deduplicated
(`chunk_deduplication.py`), grouped by concept, merged into their neighbours, split when
oversized, and merged greedily once more. `hash` stands for the xxHash of a normalized content.

Every piece of every chunk that survives deduplication occurs, stripped, in some chunk of the
result, and every chunk of the result is within the limits
(`applyCastAlgorithm_covers`). `Covered` is the first half, and each pass keeps it.
-/

namespace ChunkHound.Cast

open Grouping

/-- `sorted(chunks, key=lambda c: c.start_line)`, which is stable. -/
def sortByStart (chunks : List UniversalChunk) : List UniversalChunk :=
  Accessors.universal.sortByStart chunks

/-! ## Merging neighbours -/

/-- `_COMPATIBLE_CONCEPT_PAIRS`. -/
def compatibleConceptPairs : List (Concept × Concept) :=
  [(.comment, .definition), (.definition, .comment), (.block, .comment), (.comment, .block),
    (.definition, .structure_), (.structure_, .definition)]

/-- `_can_merge_chunks`. -/
def canMergeChunks (cfg : CASTConfig) (group : List UniversalChunk)
    (candidate : UniversalChunk) : Bool :=
  match group.getLast? with
  | none => true
  | some last =>
    let total := ['\n'].intercalate (group.map (·.content)) ++ '\n' :: candidate.content
    if (cfg.maxChunkSize : ℚ) * cfg.mergeThreshold < nonWhitespaceChars total ∨
        (cfg.safeTokenLimit : ℚ) * cfg.mergeThreshold < estimateTokensChunking total then false
    else if 5 < candidate.startLine - last.endLine then false
    else last.concept = candidate.concept ||
      compatibleConceptPairs.contains (last.concept, candidate.concept)

/-- The contents of a group, without what is already there. -/
def combine (content : Text) (chunks : List UniversalChunk) : Text :=
  chunks.foldl (fun combined c =>
    if strip c.content <:+: combined then combined else combined ++ '\n' :: c.content) content

/-- `_merge_chunk_group`. -/
def mergeChunkGroup (cfg : CASTConfig) (group : List UniversalChunk) : List UniversalChunk :=
  match sortByStart group with
  | first :: second :: rest =>
    let sorted := first :: second :: rest
    let combined := combine first.content (second :: rest)
    if !cfg.fits combined then group
    else
      [{ concept := first.concept
         name := "_".intercalate (sorted.map (·.name)).eraseDups
         content := combined
         startLine := first.startLine
         endLine := (sorted.getLast?.getD first).endLine
         metadata := { first.metadata with
           mergedFrom := some (sorted.map (·.name))
           chunkCount := some sorted.length }
         languageNodeType := first.languageNodeType }]
  | _ => group

/-- The loop of `_chunk_blocks` and `_chunk_comments` : the runs of chunks each of which
joins the group before it. -/
def runsOf (joins : List UniversalChunk → UniversalChunk → Bool) :
    List UniversalChunk → List UniversalChunk → List (List UniversalChunk)
  | group, [] => [group]
  | group, c :: cs =>
    if joins group c then runsOf joins (group ++ [c]) cs else group :: runsOf joins [c] cs

/-- The comment follows the last one of the group. -/
def followsComment (group : List UniversalChunk) (c : UniversalChunk) : Bool :=
  match group.getLast? with
  | none => true
  | some last => c.startLine - last.endLine ≤ 1

/-- The sorted chunks, each run of them merged. -/
def mergeRuns (cfg : CASTConfig) (joins : List UniversalChunk → UniversalChunk → Bool)
    (chunks : List UniversalChunk) : List UniversalChunk :=
  match sortByStart chunks with
  | [] => []
  | c :: cs => (runsOf joins [c] cs).flatMap (mergeChunkGroup cfg)

section Splitting

variable (proportion : ℕ → ℕ → ℤ → ℤ) (cfg : CASTConfig)

/-- The loop that validates every chunk, which is also `_chunk_definitions`. -/
def validateAll : List UniversalChunk → Option (List UniversalChunk)
  | [] => some []
  | c :: cs => do
    let pieces ← validateAndSplit proportion cfg c
    let rest ← validateAll cs
    some (pieces ++ rest)

/-- `_chunk_blocks`. -/
def chunkBlocks (chunks : List UniversalChunk) : Option (List UniversalChunk) :=
  validateAll proportion cfg (mergeRuns cfg (canMergeChunks cfg) chunks)

/-- `_chunk_comments`. -/
def chunkComments (chunks : List UniversalChunk) : Option (List UniversalChunk) :=
  validateAll proportion cfg (mergeRuns cfg followsComment chunks)

/-- The chunks of one concept. -/
def chunkConcept (concept : Concept) (chunks : List UniversalChunk) :
    Option (List UniversalChunk) :=
  match concept with
  | .definition => validateAll proportion cfg chunks
  | .comment => chunkComments proportion cfg chunks
  | _ => chunkBlocks proportion cfg chunks

/-- The loop over the concepts. -/
def chunkConcepts : List (Concept × List UniversalChunk) → Option (List UniversalChunk)
  | [] => some []
  | (concept, chunks) :: rest => do
    let optimized ← chunkConcept proportion cfg concept chunks
    let others ← chunkConcepts rest
    some (optimized ++ others)

end Splitting

/-! ## The greedy pass -/

/-- Two definitions of different kinds, or two rules. -/
def semanticMismatch (current next : UniversalChunk) : Bool :=
  if current.concept = .definition ∧ next.concept = .definition then
    match current.metadata.kind, next.metadata.kind with
    | some k, some k' =>
      (k ≠ "" && k' ≠ "" && k ≠ k') || (k = "rule" && k' = "rule")
    | _, _ => false
  else false

/-- What keeps `next` apart whatever its size : its concept, its nesting, or its metadata. -/
def staysApart (current next : UniversalChunk) : Bool :=
  (current.concept ≠ next.concept &&
    !compatibleConceptPairs.contains (current.concept, next.concept)) ||
  (current.startLine < next.startLine && next.endLine ≤ current.endLine) ||
  current.metadata.preventMerge || next.metadata.preventMerge

/-- `max_gap`. -/
def maxGap (current next : UniversalChunk) : ℤ :=
  if current.concept ≠ next.concept ∧ (current.concept = .comment ∨ next.concept = .comment) then 1
  else 5

/-- The chunk that takes the place of both, if they merge. -/
def mergeNext (cfg : CASTConfig) (current next : UniversalChunk) : Option UniversalChunk :=
  if staysApart current next then none
  else
    let isNew : Bool := !decide (strip next.content <:+: current.content)
    let combined := if isNew then current.content ++ '\n' :: next.content else current.content
    if !semanticMismatch current next && cfg.fits combined &&
        next.startLine - current.endLine ≤ maxGap current next then
      let specific :=
        if current.concept.specificity < next.concept.specificity then next else current
      some { specific with
        content := combined
        startLine := current.startLine
        endLine := if isNew then next.endLine else current.endLine }
    else none

/-- The loop of `_greedy_merge_pass`. -/
def greedyLoop (cfg : CASTConfig) (current : UniversalChunk) :
    List UniversalChunk → List UniversalChunk
  | [] => [current]
  | next :: rest =>
    match mergeNext cfg current next with
    | some merged => greedyLoop cfg merged rest
    | none => current :: greedyLoop cfg next rest

/-- `_greedy_merge_pass`. -/
def greedyMergePass (cfg : CASTConfig) (chunks : List UniversalChunk) : List UniversalChunk :=
  if chunks.length ≤ 1 then chunks
  else
    match sortByStart chunks with
    | [] => []
    | c :: cs => greedyLoop cfg c cs

/-- `_apply_cast_algorithm`. -/
def applyCastAlgorithm (hash : Text → ℕ) (proportion : ℕ → ℕ → ℤ → ℤ) (cfg : CASTConfig)
    (languageName : String) (chunks : List UniversalChunk) : Option (List UniversalChunk) :=
  if chunks = [] then some []
  else do
    let survivors := deduplicateChunks hash languageName chunks
    let optimized ← chunkConcepts proportion cfg (groupBy (·.concept) survivors)
    some (if cfg.greedyMerge then greedyMergePass cfg optimized else optimized)

/-! ## Stripped substrings -/

section Strip

variable {α : Type*} {p : α → Bool} {a b : List α}

theorem dropWhile_within (h : a <:+: b) : a.dropWhile p <:+: b.dropWhile p := by
  obtain ⟨s, t, rfl⟩ := h
  rw [List.append_assoc, List.dropWhile_append]
  split
  · rw [List.dropWhile_append]
    split
    · rename_i hnil
      rw [List.isEmpty_iff.1 hnil]
      exact List.nil_infix
    · exact (List.prefix_append _ t).isInfix
  · refine (List.dropWhile_suffix p).isInfix.trans ?_
    exact (List.prefix_append a t).isInfix.trans (List.suffix_append _ (a ++ t)).isInfix

theorem rdropWhile_within (h : a <:+: b) : a.rdropWhile p <:+: b.rdropWhile p := by
  have hrev : a.reverse.dropWhile p <:+: b.reverse.dropWhile p :=
    dropWhile_within <| List.reverse_infix.2 h
  unfold List.rdropWhile
  exact List.reverse_infix.2 hrev

end Strip

/-- Stripping keeps what is inside. -/
theorem strip_mono {a b : Text} (h : a <:+: b) : strip a <:+: strip b :=
  rdropWhile_within (dropWhile_within h)

theorem strip_within (a : Text) : strip a <:+: a := by
  unfold strip
  exact (List.rdropWhile_prefix isSpace _).isInfix.trans (List.dropWhile_suffix isSpace).isInfix

theorem strip_strip (a : Text) : strip (strip a) = strip a := by
  have hhead : (strip a).dropWhile isSpace = strip a :=
    dropWhile_isSpace_of_prefix (List.rdropWhile_prefix isSpace _)
  calc strip (strip a) = (strip a).rdropWhile isSpace := by rw [strip, hhead]
    _ = strip a := by rw [strip, List.rdropWhile_idempotent]

/-! ## What the passes keep -/

/-- The text occurs in some chunk. -/
def Covered (chunks : List UniversalChunk) (text : Text) : Prop :=
  ∃ c ∈ chunks, text <:+: c.content

section Covered

variable {cfg : CASTConfig} {chunks out : List UniversalChunk} {c : UniversalChunk} {text : Text}

theorem Covered.of_mem (h : c ∈ chunks) : Covered chunks (strip c.content) :=
  ⟨c, h, strip_within c.content⟩

theorem mem_sortByStart : c ∈ sortByStart chunks ↔ c ∈ chunks := List.mem_insertionSort _

/-- Combining keeps what is there, and every member, stripped. -/
theorem combine_spec : ∀ (content : Text) (chunks : List UniversalChunk),
    content <:+: combine content chunks ∧
      ∀ c ∈ chunks, strip c.content <:+: combine content chunks
  | content, [] => ⟨List.infix_rfl, fun c hc => by cases hc⟩
  | content, c :: cs => by
    have hstep : combine content (c :: cs) =
        combine (if strip c.content <:+: content then content else content ++ '\n' :: c.content)
          cs := rfl
    have hboth : content <:+: (if strip c.content <:+: content then content
          else content ++ '\n' :: c.content) ∧
        strip c.content <:+: (if strip c.content <:+: content then content
          else content ++ '\n' :: c.content) := by
      split
      · rename_i hin
        exact ⟨List.infix_rfl, hin⟩
      · have hsuffix : c.content <:+ content ++ '\n' :: c.content := ⟨content ++ ['\n'], by simp⟩
        exact ⟨(List.prefix_append content _).isInfix,
          (strip_within c.content).trans hsuffix.isInfix⟩
    rw [hstep]
    obtain ⟨hcontent, hrest⟩ := combine_spec _ cs
    refine ⟨hboth.1.trans hcontent, fun x hx => ?_⟩
    rcases List.mem_cons.1 hx with rfl | hx
    · exact hboth.2.trans hcontent
    · exact hrest x hx

/-- A group is left as it is, or becomes one chunk that fits and covers every member. -/
theorem mergeChunkGroup_spec (cfg : CASTConfig) (group : List UniversalChunk) :
    mergeChunkGroup cfg group = group ∨ ∃ merged, mergeChunkGroup cfg group = [merged] ∧
      cfg.fits merged.content = true ∧ ∀ c ∈ group, strip c.content <:+: merged.content := by
  unfold mergeChunkGroup
  split
  · rename_i first second rest hsorted
    simp only
    split
    · exact Or.inl rfl
    · rename_i hfits
      obtain ⟨hfirst, hrest⟩ := combine_spec first.content (second :: rest)
      refine Or.inr ⟨_, rfl, by simpa using hfits, fun c hc => ?_⟩
      rw [← mem_sortByStart, hsorted] at hc
      rcases List.mem_cons.1 hc with rfl | hc
      · exact (strip_within _).trans hfirst
      · exact hrest c hc
  · exact Or.inl rfl

/-- The runs hold the chunks. -/
theorem mem_runsOf {joins : List UniversalChunk → UniversalChunk → Bool} :
    ∀ {group cs : List UniversalChunk}, c ∈ group ∨ c ∈ cs → ∃ run ∈ runsOf joins group cs, c ∈ run
  | group, [], h => by
    refine ⟨group, List.mem_singleton_self group, h.resolve_right ?_⟩
    rintro ⟨⟩
  | group, d :: cs, h => by
    unfold runsOf
    split
    · refine mem_runsOf ?_
      rcases h with h | h
      · exact Or.inl (List.mem_append_left _ h)
      · rcases List.mem_cons.1 h with rfl | h
        · exact Or.inl (List.mem_append_right _ (List.mem_singleton_self c))
        · exact Or.inr h
    · rcases h with h | h
      · exact ⟨group, List.mem_cons_self, h⟩
      · have hnext : c ∈ [d] ∨ c ∈ cs := (List.mem_cons.1 h).imp_left List.mem_singleton.2
        obtain ⟨run, hrun, hc⟩ : ∃ run ∈ runsOf joins [d] cs, c ∈ run := mem_runsOf hnext
        exact ⟨run, List.mem_cons_of_mem group hrun, hc⟩

/-- A chunk is left as it is, or goes into one that fits and covers it. -/
theorem mem_mergeRuns (cfg : CASTConfig)
    (joins : List UniversalChunk → UniversalChunk → Bool) (hc : c ∈ chunks) :
    c ∈ mergeRuns cfg joins chunks ∨ ∃ merged ∈ mergeRuns cfg joins chunks,
      cfg.fits merged.content = true ∧ strip c.content <:+: merged.content := by
  unfold mergeRuns
  rw [← mem_sortByStart] at hc
  split
  · rename_i hnil
    rw [hnil] at hc
    cases hc
  · rename_i d ds hsorted
    rw [hsorted] at hc
    have hstart : c ∈ [d] ∨ c ∈ ds := (List.mem_cons.1 hc).imp_left List.mem_singleton.2
    obtain ⟨run, hrun, hcrun⟩ : ∃ run ∈ runsOf joins [d] ds, c ∈ run := mem_runsOf hstart
    rcases mergeChunkGroup_spec cfg run with hsame | ⟨merged, hmerged, hfits, hcover⟩
    · refine Or.inl (List.mem_flatMap.2 ⟨run, hrun, ?_⟩)
      rw [hsame]
      exact hcrun
    · refine Or.inr ⟨merged, List.mem_flatMap.2 ⟨run, hrun, ?_⟩, hfits, hcover c hcrun⟩
      rw [hmerged]
      exact List.mem_singleton_self merged

end Covered

/-! ## The pieces of a concept -/

section Passes

variable {cfg : CASTConfig} {proportion : ℕ → ℕ → ℤ → ℤ} {chunks out : List UniversalChunk}

/-- Every chunk has its pieces, each of which occurs, stripped, in some chunk of the result. -/
def PiecesCovered (proportion : ℕ → ℕ → ℤ → ℤ) (cfg : CASTConfig)
    (chunks out : List UniversalChunk) : Prop :=
  ∀ c ∈ chunks, ∃ pieces, validateAndSplit proportion cfg c = some pieces ∧
    ∀ piece ∈ pieces, Covered out (strip piece.content)

/-- Every chunk is within the limits. -/
def AllFit (cfg : CASTConfig) (chunks : List UniversalChunk) : Prop :=
  ∀ c ∈ chunks, cfg.fits c.content = true

variable {out' : List UniversalChunk}

theorem Covered.mono {text : Text} (h : Covered out text)
    (hsub : out ⊆ out') : Covered out' text := by
  obtain ⟨o, ho, htext⟩ := h
  exact ⟨o, hsub ho, htext⟩

theorem PiecesCovered.mono (h : PiecesCovered proportion cfg chunks out) (hsub : out ⊆ out') :
    PiecesCovered proportion cfg chunks out' := by
  intro c hc
  obtain ⟨pieces, hrun, hp⟩ := h c hc
  exact ⟨pieces, hrun, fun piece hm => (hp piece hm).mono hsub⟩

variable (proportion)

theorem validateAll_spec (hlimit : 1 ≤ cfg.safeTokenLimit) : ∀ chunks : List UniversalChunk,
    ∃ out, validateAll proportion cfg chunks = some out ∧ (cfg.Splittable → AllFit cfg out) ∧
      ∀ c ∈ chunks, ∃ pieces, validateAndSplit proportion cfg c = some pieces ∧
        ∀ piece ∈ pieces, piece ∈ out
  | [] => ⟨[], rfl, fun _ => List.forall_mem_nil _, List.forall_mem_nil _⟩
  | c :: cs => by
    obtain ⟨pieces, hrun, hpieces⟩ := validateAndSplit_spec proportion hlimit c
    obtain ⟨rest, hrest, hfits, hmem⟩ := validateAll_spec hlimit cs
    refine ⟨pieces ++ rest, by simp [validateAll, hrun, hrest], fun hcfg o ho => ?_,
      fun d hd => ?_⟩
    · rcases List.mem_append.1 ho with ho | ho
      · exact hpieces.fits hcfg ho
      · exact hfits hcfg o ho
    · rcases List.mem_cons.1 hd with rfl | hd
      · exact ⟨pieces, hrun, fun piece hp => List.mem_append_left _ hp⟩
      · obtain ⟨ps, hps, hin⟩ := hmem d hd
        exact ⟨ps, hps, fun piece hp => List.mem_append_right _ (hin piece hp)⟩

/-- What merging before splitting keeps : a chunk that fits is its own piece, and the pieces
of one that was merged are inside it. -/
theorem mergeRuns_spec (hlimit : 1 ≤ cfg.safeTokenLimit)
    (joins : List UniversalChunk → UniversalChunk → Bool) (chunks : List UniversalChunk) :
    ∃ out, validateAll proportion cfg (mergeRuns cfg joins chunks) = some out ∧
      (cfg.Splittable → AllFit cfg out) ∧ PiecesCovered proportion cfg chunks out := by
  obtain ⟨out, hout, hfits, hmem⟩ := validateAll_spec proportion hlimit
    (mergeRuns cfg joins chunks)
  refine ⟨out, hout, hfits, fun c hc => ?_⟩
  obtain ⟨pieces, hrun, hpieces⟩ := validateAndSplit_spec proportion hlimit c
  refine ⟨pieces, hrun, fun piece hp => ?_⟩
  rcases mem_mergeRuns cfg joins hc with hsame | ⟨merged, hm, hmfits, hcover⟩
  · obtain ⟨ps, hps, hin⟩ := hmem c hsame
    obtain rfl := Option.some.inj (hrun.symm.trans hps)
    exact Covered.of_mem (hin piece hp)
  · obtain ⟨ps, hps, hin⟩ := hmem merged hm
    rw [validateAndSplit, if_pos hmfits] at hps
    obtain rfl := Option.some.inj hps
    refine ⟨merged, hin merged (List.mem_singleton_self merged), ?_⟩
    exact (strip_mono (hpieces.cut piece hp)).trans hcover

theorem chunkConcept_spec (hlimit : 1 ≤ cfg.safeTokenLimit) (concept : Concept)
    (chunks : List UniversalChunk) :
    ∃ out, chunkConcept proportion cfg concept chunks = some out ∧
      (cfg.Splittable → AllFit cfg out) ∧ PiecesCovered proportion cfg chunks out := by
  cases concept with
  | definition =>
    obtain ⟨out, hout, hfits, hmem⟩ := validateAll_spec proportion hlimit chunks
    refine ⟨out, hout, hfits, fun c hc => ?_⟩
    obtain ⟨pieces, hrun, hin⟩ := hmem c hc
    exact ⟨pieces, hrun, fun piece hp => Covered.of_mem (hin piece hp)⟩
  | comment => exact mergeRuns_spec proportion hlimit followsComment chunks
  | block => exact mergeRuns_spec proportion hlimit (canMergeChunks cfg) chunks
  | import_ => exact mergeRuns_spec proportion hlimit (canMergeChunks cfg) chunks
  | structure_ => exact mergeRuns_spec proportion hlimit (canMergeChunks cfg) chunks

theorem chunkConcepts_spec (hlimit : 1 ≤ cfg.safeTokenLimit) :
    ∀ groups : List (Concept × List UniversalChunk),
      ∃ out, chunkConcepts proportion cfg groups = some out ∧
        (cfg.Splittable → AllFit cfg out) ∧
        PiecesCovered proportion cfg (groups.flatMap Prod.snd) out
  | [] => ⟨[], rfl, fun _ => List.forall_mem_nil _, List.forall_mem_nil _⟩
  | (concept, chunks) :: rest => by
    obtain ⟨out, hout, hfits, hcovered⟩ :=
      chunkConcept_spec proportion hlimit concept chunks
    obtain ⟨others, hothers, hfits', hcovered'⟩ := chunkConcepts_spec hlimit rest
    refine ⟨out ++ others, by simp [chunkConcepts, hout, hothers],
      fun hcfg o ho => ?_, fun c hc => ?_⟩
    · exact (List.mem_append.1 ho).elim (hfits hcfg o) (hfits' hcfg o)
    · rw [List.flatMap_cons] at hc
      rcases List.mem_append.1 hc with hc | hc
      · exact hcovered.mono (List.subset_append_left out others) c hc
      · exact hcovered'.mono (List.subset_append_right out others) c hc

/-! ## The greedy pass -/

variable {current next merged : UniversalChunk}

/-- What the chunk is that takes the place of both. The second content is left out where it is in
the first. -/
theorem mergeNext_fields
    (h : mergeNext cfg current next = some merged) : cfg.fits merged.content = true ∧
      merged.startLine = current.startLine ∧
      merged.content = (if strip next.content <:+: current.content then current.content
        else current.content ++ '\n' :: next.content) ∧
      merged.endLine = if strip next.content <:+: current.content then current.endLine
        else next.endLine := by
  unfold mergeNext at h
  split at h
  · cases h
  · by_cases hin : strip next.content <:+: current.content
    · simp only [hin, decide_true, Bool.not_true, Bool.false_eq_true, if_false] at h
      obtain ⟨hmerge, he⟩ := Option.ite_none_right_eq_some.1 h
      obtain rfl := Option.some.inj he
      simp only [Bool.and_eq_true] at hmerge
      exact ⟨hmerge.1.2, by simp [hin]⟩
    · simp only [hin, decide_false, Bool.not_false, if_true] at h
      obtain ⟨hmerge, he⟩ := Option.ite_none_right_eq_some.1 h
      obtain rfl := Option.some.inj he
      simp only [Bool.and_eq_true] at hmerge
      exact ⟨hmerge.1.2, by simp [hin]⟩

/-- A merged chunk fits, and holds both contents. -/
theorem mergeNext_spec
    (h : mergeNext cfg current next = some merged) : cfg.fits merged.content = true ∧
      current.content <:+: merged.content ∧ strip next.content <:+: merged.content := by
  obtain ⟨hfits, -, hcontent, -⟩ := mergeNext_fields h
  refine ⟨hfits, ?_⟩
  rw [hcontent]
  split
  · rename_i hin
    exact ⟨List.infix_rfl, hin⟩
  · have hsuffix : next.content <:+ current.content ++ '\n' :: next.content :=
      ⟨current.content ++ ['\n'], by simp⟩
    exact ⟨(List.prefix_append current.content _).isInfix,
      (strip_within next.content).trans hsuffix.isInfix⟩

/-- Nothing covered before is lost. -/
theorem greedyLoop_covered {text : Text} : ∀ (rest : List UniversalChunk)
    (current : UniversalChunk), Covered (current :: rest) (strip text) →
    Covered (greedyLoop cfg current rest) (strip text)
  | [], current, h => h
  | next :: rest, current, ⟨c, hc, htext⟩ => by
    unfold greedyLoop
    split
    · rename_i merged hmerge
      obtain ⟨-, hcurrent, hnext⟩ := mergeNext_spec hmerge
      refine greedyLoop_covered rest merged ?_
      rcases List.mem_cons.1 hc with rfl | hc
      · exact ⟨merged, List.mem_cons_self, htext.trans hcurrent⟩
      · rcases List.mem_cons.1 hc with rfl | hc
        · have hstrip : strip text <:+: strip c.content := by
            rw [← strip_strip text]
            exact strip_mono htext
          exact ⟨merged, List.mem_cons_self, hstrip.trans hnext⟩
        · exact ⟨c, List.mem_cons_of_mem merged hc, htext⟩
    · rcases List.mem_cons.1 hc with rfl | hc
      · exact ⟨c, List.mem_cons_self, htext⟩
      · exact (greedyLoop_covered rest next ⟨c, hc, htext⟩).mono (List.subset_cons_self _ _)

/-- What is merged fits. -/
theorem greedyLoop_fits : ∀ (rest : List UniversalChunk) (current : UniversalChunk),
    AllFit cfg (current :: rest) → AllFit cfg (greedyLoop cfg current rest)
  | [], current, h => h
  | next :: rest, current, h => by
    have hrest : AllFit cfg rest := fun c hc =>
      h c (List.mem_cons_of_mem current (List.mem_cons_of_mem next hc))
    unfold greedyLoop
    split
    · rename_i merged hmerge
      exact greedyLoop_fits rest merged
        (List.forall_mem_cons.2 ⟨(mergeNext_spec hmerge).1, hrest⟩)
    · refine List.forall_mem_cons.2 ⟨h current List.mem_cons_self, ?_⟩
      exact greedyLoop_fits rest next fun c hc => h c (List.mem_cons_of_mem current hc)

theorem greedyMergePass_covered {text : Text} (h : Covered chunks (strip text)) :
    Covered (greedyMergePass cfg chunks) (strip text) := by
  unfold greedyMergePass
  split
  · exact h
  · have hsorted : Covered (sortByStart chunks) (strip text) := by
      obtain ⟨c, hc, htext⟩ := h
      exact ⟨c, mem_sortByStart.2 hc, htext⟩
    split
    · rename_i hnil
      rwa [hnil] at hsorted
    · rename_i c cs heq
      rw [heq] at hsorted
      exact greedyLoop_covered cs c hsorted

theorem greedyMergePass_fits (h : AllFit cfg chunks) :
    AllFit cfg (greedyMergePass cfg chunks) := by
  unfold greedyMergePass
  split
  · exact h
  · have hsorted : AllFit cfg (sortByStart chunks) := fun c hc => h c (mem_sortByStart.1 hc)
    split
    · exact List.forall_mem_nil _
    · rename_i c cs heq
      rw [heq] at hsorted
      exact greedyLoop_fits cs c hsorted

end Passes

/-! ## The whole pass -/

/-- The pass ends, and every piece of every chunk that survives deduplication occurs in the
result, stripped. A chunk that fits is its only piece. When a text of the minimum size is
within both limits, so is every chunk of the result. -/
theorem applyCastAlgorithm_covers (hash : Text → ℕ) (proportion : ℕ → ℕ → ℤ → ℤ)
    (cfg : CASTConfig) (languageName : String) (chunks : List UniversalChunk)
    (hlimit : 1 ≤ cfg.safeTokenLimit) :
    ∃ out, applyCastAlgorithm hash proportion cfg languageName chunks = some out ∧
      (chunks ≠ [] → ∀ c ∈ deduplicateChunks hash languageName chunks,
        ∃ pieces, validateAndSplit proportion cfg c = some pieces ∧
          (cfg.fits c.content = true → pieces = [c]) ∧
          ∀ piece ∈ pieces, ∃ o ∈ out, strip piece.content <:+: o.content) ∧
      (cfg.Splittable → ∀ o ∈ out, (nonWhitespaceChars o.content : ℤ) ≤ cfg.maxChunkSize ∧
        estimateTokensChunking o.content ≤ cfg.safeTokenLimit) := by
  unfold applyCastAlgorithm
  split
  · rename_i hnil
    exact ⟨[], rfl, fun hne => absurd hnil hne, fun _ => List.forall_mem_nil _⟩
  · obtain ⟨optimized, hrun, hfits, hcovered⟩ := chunkConcepts_spec proportion
      hlimit (groupBy (·.concept) (deduplicateChunks hash languageName chunks))
    refine ⟨if cfg.greedyMerge then greedyMergePass cfg optimized else optimized, ?_,
      fun _ c hc => ?_, fun hcfg o ho => CASTConfig.fits_iff.1 ?_⟩
    · simp only [hrun]
      rfl
    · obtain ⟨group, hgroup, hmem⟩ : ∃ group ∈ groupBy (·.concept)
          (deduplicateChunks hash languageName chunks), c ∈ group.2 :=
        exists_mem_groupBy _ hc
      obtain ⟨pieces, hpieces, hin⟩ := hcovered c (List.mem_flatMap.2 ⟨group, hgroup, hmem⟩)
      refine ⟨pieces, hpieces, fun hfit => ?_, fun piece hp => ?_⟩
      · rw [validateAndSplit, if_pos hfit] at hpieces
        exact (Option.some.inj hpieces).symm
      · split
        · exact greedyMergePass_covered (hin piece hp)
        · exact hin piece hp
    · revert o
      split
      · exact greedyMergePass_fits (hfits hcfg)
      · exact hfits hcfg

theorem applyCastAlgorithm_covers_tiny :
    ∃ out, applyCastAlgorithm List.length exactProportion tinyConfig "python" [tinyChunk] =
        some out ∧
      ([tinyChunk] ≠ [] → ∀ c ∈ deduplicateChunks List.length "python" [tinyChunk],
        ∃ pieces, validateAndSplit exactProportion tinyConfig c = some pieces ∧
          (tinyConfig.fits c.content = true → pieces = [c]) ∧
          ∀ piece ∈ pieces, ∃ o ∈ out, strip piece.content <:+: o.content) ∧
      (tinyConfig.Splittable → ∀ o ∈ out, (nonWhitespaceChars o.content : ℤ) ≤ 1 ∧
        estimateTokensChunking o.content ≤ 6000) :=
  applyCastAlgorithm_covers List.length exactProportion tinyConfig "python" [tinyChunk]
    (by decide)

/-- A configuration whose minimum size is above the limit. -/
def wideMinimum : CASTConfig := { maxChunkSize := 1, minChunkSize := 3 }

/-- The last resort of a forced split keeps the minimum size and exceeds the limit : "a; b" is
cut in two, and "a;" has two characters. -/
theorem minimum_exceeds_limit :
    ¬ ∀ out, applyCastAlgorithm List.length exactProportion wideMinimum "python" [tinyChunk] =
        some out →
      ∀ o ∈ out, (nonWhitespaceChars o.content : ℤ) ≤ wideMinimum.maxChunkSize := by
  intro h
  have hrun : (applyCastAlgorithm List.length exactProportion wideMinimum "python"
      [tinyChunk]).map (·.map (·.content)) = some [['a', ';'], [' ', 'b']] := by
    decide +kernel
  obtain ⟨out, hout, hcontents⟩ := Option.map_eq_some_iff.1 hrun
  have hmem : ['a', ';'] ∈ out.map (·.content) := by simp [hcontents]
  obtain ⟨o, ho, hcontent⟩ := List.mem_map.1 hmem
  have hle := h out hout o ho
  rw [hcontent] at hle
  exact absurd hle (by decide)

end ChunkHound.Cast
