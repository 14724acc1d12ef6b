import Mathlib.Data.Finset.Card
import ChunkHound.OrderedDict

/-!
# Explored ranges

What a run of `update_global_explored_data` has recorded, and what `is_chunk_duplicate` says of a
chunk then. A file of which more than 50 distinct lines were seen counts as read, by design, and
each later chunk of it as a duplicate. Any other duplicate lies in one range that was recorded for
an earlier chunk of its file (`lines_recorded_of_isChunkDuplicate`).
-/

namespace ChunkHound.ExploredRanges

open OrderedDict

/-! ## The state -/

/-- What is read of a chunk. -/
structure Chunk where
  filePath : Option String
  startLine : Option ℤ
  endLine : Option ℤ

/-- A line range, both ends included. -/
abbrev Range := ℤ × ℤ

/-- The chunks of a node, with the range to which each is expanded when the node is recorded. -/
abbrev Node := List (Chunk × Range)

/-- `global_explored_data`. -/
structure ExploredData where
  filesFullyRead : Finset String
  chunkRanges : List (String × List Range)
  chunks : List Chunk
  fileLineCoverage : List (String × Finset ℤ)

def ExploredData.empty : ExploredData := ⟨∅, [], [], []⟩

/-- The path of a chunk that has one. -/
def Chunk.path (chunk : Chunk) : Option String := chunk.filePath.filter (· ≠ "")

/-- `range(start, stop)`. -/
def intRange (start stop : ℤ) : List ℤ := (List.range (stop - start).toNat).map (start + ·)

def Chunk.lines (chunk : Chunk) : Finset ℤ :=
  (intRange (chunk.startLine.getD 1) (chunk.endLine.getD 1 + 1)).toFinset

def wellCoveredLineThreshold : ℕ := 50

/-! ## Recording a node -/

/-- Track the lines of a chunk. -/
def trackLines (explored : ExploredData) (chunk : Chunk) : ExploredData :=
  match chunk.path with
  | none => explored
  | some path =>
    let coverage := alter (fun lines => lines.getD ∅ ∪ chunk.lines) path explored.fileLineCoverage
    { explored with
      fileLineCoverage := coverage
      filesFullyRead :=
        if wellCoveredLineThreshold < ((coverage.lookup path).getD ∅).card then
          {path} ∪ explored.filesFullyRead
        else explored.filesFullyRead }

/-- Add the expanded range of a chunk. -/
def addRange (explored : ExploredData) (entry : Chunk × Range) : ExploredData :=
  match entry.1.path with
  | none => explored
  | some path =>
    { explored with
      chunkRanges := alter (fun ranges => ranges.getD [] ++ [entry.2]) path explored.chunkRanges
      chunks := explored.chunks ++ [entry.1] }

def updateGlobalExploredData (explored : ExploredData) (node : Node) : ExploredData :=
  node.foldl addRange ((node.map Prod.fst).foldl trackLines explored)

def isChunkDuplicate (chunk : Chunk) (chunkExpandedRange : Range) (explored : ExploredData) :
    Bool :=
  match chunk.path with
  | none => false
  | some path =>
    path ∈ explored.filesFullyRead ∨
      ((explored.chunkRanges.lookup path).getD []).any fun prev =>
        prev.1 ≤ chunkExpandedRange.1 ∧ chunkExpandedRange.2 ≤ prev.2

/-! ## What a run has recorded -/

/-- The lines of a file that some chunks cover. -/
def linesOf (path : String) (chunks : List Chunk) : Finset ℤ :=
  (chunks.filter (·.path = some path)).foldl (fun lines c => lines ∪ c.lines) ∅

/-- The expanded ranges of the chunks of a file. -/
def rangesOf (path : String) (entries : Node) : List Range :=
  (entries.filter (·.1.path = some path)).map Prod.snd

/-- The state after the lines of some chunks were tracked and some ranges were added. -/
structure Represents (explored : ExploredData) (chunks : List Chunk) (entries : Node) : Prop where
  coverage : ∀ path, (explored.fileLineCoverage.lookup path).getD ∅ = linesOf path chunks
  fullyRead : ∀ path, path ∈ explored.filesFullyRead ↔
    wellCoveredLineThreshold < (linesOf path chunks).card
  ranges : ∀ path, (explored.chunkRanges.lookup path).getD [] = rangesOf path entries

theorem linesOf_concat (path : String) (chunks : List Chunk) (c : Chunk) :
    linesOf path (chunks ++ [c]) =
      if c.path = some path then linesOf path chunks ∪ c.lines else linesOf path chunks := by
  unfold linesOf
  rw [List.filter_append, List.foldl_append]
  by_cases h : c.path = some path <;> simp [h]

theorem rangesOf_concat (path : String) (entries : Node) (e : Chunk × Range) :
    rangesOf path (entries ++ [e]) =
      if e.1.path = some path then rangesOf path entries ++ [e.2] else rangesOf path entries := by
  unfold rangesOf
  rw [List.filter_append, List.map_append]
  by_cases h : e.1.path = some path <;> simp [h]

theorem Represents.empty : Represents .empty [] [] where
  coverage _ := rfl
  fullyRead path := by simp [ExploredData.empty, linesOf]
  ranges _ := rfl

variable {explored : ExploredData} {chunks : List Chunk} {entries : Node}

/-- A file stays well covered. -/
theorem Represents.trackLines (h : Represents explored chunks entries) (c : Chunk) :
    Represents (trackLines explored c) (chunks ++ [c]) entries := by
  unfold ExploredRanges.trackLines
  cases hpath : c.path with
  | none =>
    have hlines : ∀ path, linesOf path (chunks ++ [c]) = linesOf path chunks := fun path => by
      rw [linesOf_concat, hpath, if_neg nofun]
    exact ⟨fun path => hlines path ▸ h.coverage path, fun path => hlines path ▸ h.fullyRead path,
      h.ranges⟩
  | some p =>
    have hcoverage : ∀ path, ((alter (fun lines => lines.getD ∅ ∪ c.lines) p
        explored.fileLineCoverage).lookup path).getD ∅ = linesOf path (chunks ++ [c]) := by
      intro path
      rw [lookup_alter, linesOf_concat, hpath]
      by_cases hp : path = p
      · simp [hp, h.coverage]
      · simp [hp, Ne.symm hp, h.coverage]
    refine ⟨hcoverage, fun path => ?_, h.ranges⟩
    have hkeep : path ≠ p → linesOf path (chunks ++ [c]) = linesOf path chunks := fun hp => by
      rw [linesOf_concat, hpath, if_neg fun heq => hp (Option.some.inj heq).symm]
    simp only [hcoverage]
    by_cases hp : path = p
    · subst hp
      have hgrow : (linesOf path chunks).card ≤ (linesOf path (chunks ++ [c])).card := by
        rw [linesOf_concat, if_pos hpath]
        exact Finset.card_le_card Finset.subset_union_left
      split
      · next hcard => simp [hcard]
      · next hcard => simpa [h.fullyRead, hcard] using hgrow.trans (not_lt.1 hcard)
    · rw [hkeep hp, ← h.fullyRead]
      split <;> simp [hp]

theorem Represents.addRange (h : Represents explored chunks entries) (e : Chunk × Range) :
    Represents (addRange explored e) chunks (entries ++ [e]) := by
  unfold ExploredRanges.addRange
  cases hpath : e.1.path with
  | none =>
    refine ⟨h.coverage, h.fullyRead, fun path => ?_⟩
    rw [rangesOf_concat, hpath, if_neg nofun, h.ranges]
  | some p =>
    refine ⟨h.coverage, h.fullyRead, fun path => ?_⟩
    rw [rangesOf_concat, lookup_alter, hpath]
    by_cases hp : path = p
    · simp [hp, h.ranges]
    · simp [hp, Ne.symm hp, h.ranges]

theorem Represents.updateGlobalExploredData (h : Represents explored chunks entries) (node : Node) :
    Represents (updateGlobalExploredData explored node) (chunks ++ node.map Prod.fst)
      (entries ++ node) := by
  have hlines : ∀ (cs : List Chunk) {explored : ExploredData} {chunks : List Chunk},
      Represents explored chunks entries →
      Represents (cs.foldl ExploredRanges.trackLines explored) (chunks ++ cs) entries := by
    intro cs
    induction cs with
    | nil => exact fun h => by rwa [List.append_nil]
    | cons c cs ih => exact fun h => by simpa using ih (h.trackLines c)
  have hranges : ∀ (node : Node) {explored : ExploredData} {chunks : List Chunk} {entries : Node},
      Represents explored chunks entries →
      Represents (node.foldl ExploredRanges.addRange explored) chunks (entries ++ node) := by
    intro node
    induction node with
    | nil => exact fun h => by rwa [List.append_nil]
    | cons e node ih => exact fun h => by simpa using ih (h.addRange e)
  exact hranges node (hlines (node.map Prod.fst) h)

/-- The state after some nodes. -/
def explore (nodes : List Node) : ExploredData :=
  nodes.foldl updateGlobalExploredData .empty

theorem represents_explore (nodes : List Node) :
    Represents (explore nodes) (nodes.flatten.map Prod.fst) nodes.flatten := by
  have hrun : ∀ (nodes : List Node) {explored : ExploredData} {chunks : List Chunk}
      {entries : Node}, Represents explored chunks entries →
      Represents (nodes.foldl updateGlobalExploredData explored)
        (chunks ++ nodes.flatten.map Prod.fst) (entries ++ nodes.flatten) := by
    intro nodes
    induction nodes with
    | nil => exact fun h => by simpa using h
    | cons node nodes ih => exact fun h => by simpa using ih (h.updateGlobalExploredData node)
  exact hrun nodes .empty

/-! ## Duplicates -/

/-- More than the threshold of lines of the file were seen. -/
def WellCovered (nodes : List Node) (path : String) : Prop :=
  wellCoveredLineThreshold < (linesOf path (nodes.flatten.map Prod.fst)).card

/-- A duplicate is a chunk of a file that is well covered, or one whose expanded range is in a range
that was recorded for the file. -/
theorem isChunkDuplicate_iff (nodes : List Node) (chunk : Chunk) (range : Range) :
    isChunkDuplicate chunk range (explore nodes) = true ↔ ∃ path, chunk.path = some path ∧
      (WellCovered nodes path ∨
        ∃ prev ∈ rangesOf path nodes.flatten, prev.1 ≤ range.1 ∧ range.2 ≤ prev.2) := by
  have h := represents_explore nodes
  unfold isChunkDuplicate
  cases chunk.path with
  | none => simp
  | some path =>
    simp only [h.ranges, h.fullyRead, Option.some.injEq, exists_eq_left']
    simp [WellCovered]

/-- Every line of a duplicate's expanded range is in one range that was recorded for the file,
unless the file is well covered. -/
theorem lines_recorded_of_isChunkDuplicate (nodes : List Node) (chunk : Chunk) (range : Range)
    (h : isChunkDuplicate chunk range (explore nodes) = true) :
    ∃ path, chunk.path = some path ∧ (WellCovered nodes path ∨
      ∃ prev ∈ rangesOf path nodes.flatten, ∀ line, range.1 ≤ line → line ≤ range.2 →
        prev.1 ≤ line ∧ line ≤ prev.2) := by
  obtain ⟨path, hpath, hcovered | ⟨prev, hprev, hstart, hend⟩⟩ :=
    (isChunkDuplicate_iff nodes chunk range).1 h
  · exact ⟨path, hpath, Or.inl hcovered⟩
  · refine ⟨path, hpath, Or.inr ⟨prev, hprev, fun line hfrom hto => ?_⟩⟩
    exact ⟨hstart.trans hfrom, hto.trans hend⟩

def linesOfA (startLine endLine : ℤ) : Chunk := ⟨some "a.py", some startLine, some endLine⟩

/-- A chunk inside one that was recorded. -/
theorem lines_recorded_inside : ∃ path, (linesOfA 12 14).path = some path ∧
    (WellCovered [[(linesOfA 10 20, (8, 22))]] path ∨
      ∃ prev ∈ rangesOf path [[(linesOfA 10 20, (8, 22))]].flatten,
        ∀ line, (10 : ℤ) ≤ line → line ≤ 16 → prev.1 ≤ line ∧ line ≤ prev.2) :=
  lines_recorded_of_isChunkDuplicate [[(linesOfA 10 20, (8, 22))]] (linesOfA 12 14) (10, 16)
    ((isChunkDuplicate_iff _ _ _).2 ⟨"a.py", rfl, Or.inr ⟨(8, 22), by decide, by decide⟩⟩)

/-- After 51 lines of a file, each chunk of the file is a duplicate. -/
theorem isChunkDuplicate_of_wellCovered :
    isChunkDuplicate (linesOfA 500 510) (500, 510) (explore [[(linesOfA 1 51, (1, 51))]]) = true ∧
      ¬ ∃ prev ∈ rangesOf "a.py" [[(linesOfA 1 51, (1, 51))]].flatten,
        prev.1 ≤ 500 ∧ 500 ≤ prev.2 := by
  constructor
  · refine (isChunkDuplicate_iff _ _ _).2 ⟨"a.py", rfl, Or.inl ?_⟩
    unfold WellCovered
    decide +kernel
  · rintro ⟨prev, hprev, -, hend⟩
    have hranges : rangesOf "a.py" [[(linesOfA 1 51, (1, 51))]].flatten = [(1, 51)] := by decide
    rw [hranges, List.mem_singleton] at hprev
    subst hprev
    exact absurd hend (by decide)

end ChunkHound.ExploredRanges
