import ChunkHound.ChunkDedup
import ChunkHound.Grouping
import Mathlib

/-!
# Expanding chunks by windows

`expand_chunk_windows` makes one query for each file : the lines from the first window of its chunks
to the last one. A stored chunk in between that is in no window comes too, so that what it adds are
the neighbours exactly when there is no such chunk and the queries answer
(`expandsExactly_iff`). Chunks that are marked as expanded are not expanded again.
-/

namespace ChunkHound.WindowExpansion

open ChunkDedup (ChunkId orId)
open Grouping

/-! ## Stored and retrieved chunks -/

/-- A row of the table of chunks. -/
structure Row where
  id : ℤ
  fileId : ℤ
  startLine : ℤ
  endLine : ℤ
  content : String
  one_le : 1 ≤ startLine
  start_le : startLine ≤ endLine
  deriving DecidableEq

/-- The table, and the files whose query raises. -/
structure Db where
  rows : List Row
  fails : ℤ → Bool
  nodup : (rows.map Row.id).Nodup

/-- What the expansion reads and sets of a chunk dictionary. -/
structure Chunk where
  chunkId : Option ChunkId
  id : Option ChunkId
  fileId : Option ℤ
  startLine : Option ℤ
  endLine : Option ℤ
  content : String
  windowExpanded : Bool
  deriving DecidableEq

def getChunkId (chunk : Chunk) : Option ChunkId := orId chunk.chunkId chunk.id

def Chunk.mark (chunk : Chunk) : Chunk := { chunk with windowExpanded := true }

def Row.toChunk (row : Row) : Chunk where
  chunkId := none
  id := some (.int row.id)
  fileId := some row.fileId
  startLine := some row.startLine
  endLine := some row.endLine
  content := row.content
  windowExpanded := false

/-! ## The query -/

/-- The `WHERE` clause on the lines. -/
def inRange (startLine endLine : ℤ) (row : Row) : Prop :=
  startLine ≤ row.startLine ∧ row.startLine ≤ endLine ∨
    startLine ≤ row.endLine ∧ row.endLine ≤ endLine ∨
    row.startLine ≤ startLine ∧ endLine ≤ row.endLine

instance (startLine endLine : ℤ) (row : Row) : Decidable (inRange startLine endLine row) :=
  inferInstanceAs (Decidable (_ ∨ _ ∨ _))

def getChunksInRange (db : Db) (fileId startLine endLine : ℤ) : List Row :=
  if db.fails fileId then []
  else (db.rows.filter fun row => row.fileId = fileId ∧ inRange startLine endLine row).insertionSort
    fun a b => a.startLine ≤ b.startLine

/-! ## The expansion -/

/-- The lines from the first window of the chunks to the last one. -/
def span (windowLines : ℤ) (chunks : List Chunk) : ℤ × ℤ :=
  (max 1 ((chunks.map (·.startLine.getD 0)).min?.getD 0 - windowLines),
    (chunks.map (·.endLine.getD 0)).max?.getD 0 + windowLines)

/-- A neighbour is appended unless its id is there. -/
def addNeighbor (st : List Chunk × List (Option ChunkId)) (neighbor : Chunk) :
    List Chunk × List (Option ChunkId) :=
  if getChunkId neighbor ∈ st.2 then st
  else (st.1 ++ [neighbor], st.2 ++ [getChunkId neighbor])

/-- The chunks with a file, by file. -/
def byFile (toExpand : List Chunk) : List (ℤ × List (ℤ × Chunk)) :=
  groupBy Prod.fst (toExpand.filterMap fun c => c.fileId.map fun fileId => (fileId, c))

/-- The query of a file. -/
def neighborsOf (db : Db) (windowLines : ℤ) (file : ℤ × List (ℤ × Chunk)) : List Row :=
  getChunksInRange db file.1 (span windowLines (file.2.map Prod.snd)).1
    (span windowLines (file.2.map Prod.snd)).2

def expandChunkWindows (db : Db) (windowLines : ℤ) (chunks : List Chunk) : List Chunk :=
  if chunks = [] then chunks
  else
    let toExpand := chunks.filter (!·.windowExpanded)
    if toExpand = [] then chunks
    else
      ((byFile toExpand).foldl (fun st file =>
        ((neighborsOf db windowLines file).map Row.toChunk).foldl addNeighbor st)
        (chunks, chunks.map getChunkId)).1.map Chunk.mark

/-! ## What is added -/

/-- The chunks of a file that are to be expanded. -/
def toExpandIn (chunks : List Chunk) (fileId : ℤ) : List Chunk :=
  chunks.filter fun c => !c.windowExpanded ∧ c.fileId = some fileId

/-- The stored chunk overlaps the window of the retrieved one. -/
def inWindow (windowLines : ℤ) (c : Chunk) (row : Row) : Prop :=
  c.startLine.getD 0 - windowLines ≤ row.endLine ∧ row.startLine ≤ c.endLine.getD 0 + windowLines

/-- A stored chunk that was not retrieved. -/
def IsNew (db : Db) (chunks : List Chunk) (row : Row) : Prop :=
  row ∈ db.rows ∧ some (.int row.id) ∉ chunks.map getChunkId

/-- The chunks stay, and the new ones in a window come, each once. -/
def ExpandsExactly (db : Db) (windowLines : ℤ) (chunks output : List Chunk) : Prop :=
  ∃ added : List Row, output = (chunks ++ added.map Row.toChunk).map Chunk.mark ∧
    (added.map Row.id).Nodup ∧
    ∀ row, row ∈ added ↔ IsNew db chunks row ∧
      ∃ c ∈ toExpandIn chunks row.fileId, inWindow windowLines c row

/-- What the neighbours add : each new one once. -/
theorem exists_foldl_addNeighbor (rows : List Row) : ∀ (chunks : List Chunk)
    (ids : List (Option ChunkId)), ∃ added : List Row,
    (rows.map Row.toChunk).foldl addNeighbor (chunks, ids) =
        (chunks ++ added.map Row.toChunk, ids ++ added.map fun row => some (.int row.id)) ∧
      (added.map Row.id).Nodup ∧
      (∀ row ∈ added, row ∈ rows ∧ some (.int row.id) ∉ ids) ∧
      ∀ row ∈ rows, some (.int row.id) ∉ ids → ∃ row' ∈ added, row'.id = row.id := by
  induction rows with
  | nil => exact fun chunks ids => ⟨[], by simp⟩
  | cons first rows ih =>
    intro chunks ids
    have hstep : addNeighbor (chunks, ids) first.toChunk =
        if some (.int first.id) ∈ ids then (chunks, ids)
        else (chunks ++ [first.toChunk], ids ++ [some (.int first.id)]) := rfl
    rw [List.map_cons, List.foldl_cons, hstep]
    by_cases hfirst : some (.int first.id) ∈ ids
    · rw [if_pos hfirst]
      obtain ⟨added, heq, hnodup, hmem, hall⟩ := ih chunks ids
      refine ⟨added, heq, hnodup, fun row hrow => ?_, fun row hrow hnew => ?_⟩
      · exact ⟨List.mem_cons_of_mem first (hmem row hrow).1, (hmem row hrow).2⟩
      · obtain rfl | hrow := List.mem_cons.1 hrow
        · exact absurd hfirst hnew
        · exact hall row hrow hnew
    · rw [if_neg hfirst]
      obtain ⟨added, heq, hnodup, hmem, hall⟩ :=
        ih (chunks ++ [first.toChunk]) (ids ++ [some (.int first.id)])
      refine ⟨first :: added, ?_, ?_, fun row hrow => ?_, fun row hrow hnew => ?_⟩
      · simpa using heq
      · refine List.nodup_cons.2 ⟨fun hid => ?_, hnodup⟩
        obtain ⟨row, hrow, hid⟩ := List.mem_map.1 hid
        exact (hmem row hrow).2 (by simp [hid])
      · obtain rfl | hrow := List.mem_cons.1 hrow
        · exact ⟨List.mem_cons_self, hfirst⟩
        · exact ⟨List.mem_cons_of_mem first (hmem row hrow).1, fun h =>
            (hmem row hrow).2 (List.mem_append_left _ h)⟩
      · by_cases hid : row.id = first.id
        · exact ⟨first, List.mem_cons_self, hid.symm⟩
        · obtain rfl | hrow := List.mem_cons.1 hrow
          · exact absurd rfl hid
          · obtain ⟨row', hrow', heq'⟩ := hall row hrow (by simp [hnew, hid])
            exact ⟨row', List.mem_cons_of_mem first hrow', heq'⟩

variable {row : Row} {db : Db}

theorem mem_getChunksInRange {fileId a b : ℤ} :
    row ∈ getChunksInRange db fileId a b ↔
      db.fails fileId = false ∧ row ∈ db.rows ∧ row.fileId = fileId ∧ inRange a b row := by
  unfold getChunksInRange
  cases db.fails fileId <;> simp [List.mem_insertionSort]

/-- The chunks of a group are those of its file. -/
theorem map_snd_filter (fileId : ℤ) (chunks : List Chunk) :
    ((chunks.filterMap fun c => c.fileId.map fun f => (f, c)).filter (·.1 = fileId)).map Prod.snd =
      chunks.filter (·.fileId = some fileId) := by
  induction chunks with
  | nil => rfl
  | cons c chunks ih =>
    rw [List.filterMap_cons, List.filter_cons]
    cases hf : c.fileId with
    | none => simpa using ih
    | some f => by_cases h : f = fileId <;> simpa [h] using ih

theorem toExpandIn_eq (chunks : List Chunk) (fileId : ℤ) : toExpandIn chunks fileId =
    (chunks.filter (!·.windowExpanded)).filter (·.fileId = some fileId) := by
  unfold toExpandIn
  rw [List.filter_filter]
  refine List.filter_congr fun c _ => ?_
  cases c.windowExpanded <;> simp

variable {chunks : List Chunk}

/-- The groups are the files of the chunks that are to be expanded. -/
theorem exists_mem_byFile_iff {fileId : ℤ} {cs : List Chunk} :
    (∃ group, (fileId, group) ∈ byFile (chunks.filter (!·.windowExpanded)) ∧
        group.map Prod.snd = cs) ↔ cs = toExpandIn chunks fileId ∧ cs ≠ [] := by
  have hvalues : (valuesOf (byFile (chunks.filter (!·.windowExpanded))) fileId).map Prod.snd =
      toExpandIn chunks fileId := by
    unfold byFile
    rw [valuesOf_groupBy, map_snd_filter, toExpandIn_eq]
  constructor
  · rintro ⟨group, hgroup, rfl⟩
    have hlookup := (OrderedDict.lookup_eq_some_iff (nodup_keysOf_groupBy Prod.fst _)).2 hgroup
    have hvalue : valuesOf (byFile (chunks.filter (!·.windowExpanded))) fileId = group := by
      unfold valuesOf byFile
      rw [hlookup, Option.getD_some]
    rw [← hvalues, hvalue]
    exact ⟨rfl, fun h => ne_nil_of_mem_groupBy Prod.fst _ _ hgroup (List.map_eq_nil_iff.1 h)⟩
  · rintro ⟨rfl, hne⟩
    cases hlookup : (byFile (chunks.filter (!·.windowExpanded))).lookup fileId with
    | none =>
      unfold valuesOf at hvalues
      rw [hlookup] at hvalues
      exact absurd hvalues.symm hne
    | some group =>
      refine ⟨group, (OrderedDict.lookup_eq_some_iff (nodup_keysOf_groupBy Prod.fst _)).1 hlookup,
        ?_⟩
      rw [← hvalues]
      unfold valuesOf
      rw [hlookup, Option.getD_some]

/-- The rows that the queries return. -/
def neighbors (db : Db) (windowLines : ℤ) (chunks : List Chunk) : List Row :=
  (byFile (chunks.filter (!·.windowExpanded))).flatMap (neighborsOf db windowLines)

variable {w : ℤ}

theorem mem_neighbors :
    row ∈ neighbors db w chunks ↔ db.fails row.fileId = false ∧ row ∈ db.rows ∧
      toExpandIn chunks row.fileId ≠ [] ∧
      inRange (span w (toExpandIn chunks row.fileId)).1 (span w (toExpandIn chunks row.fileId)).2
        row := by
  unfold neighbors neighborsOf
  rw [List.mem_flatMap]
  constructor
  · rintro ⟨⟨fileId, group⟩, hgroup, hrow⟩
    obtain ⟨hanswers, hmem, rfl, hrange⟩ := mem_getChunksInRange.1 hrow
    obtain ⟨hcs, hne⟩ := exists_mem_byFile_iff.1 ⟨group, hgroup, rfl⟩
    rw [← hcs]
    exact ⟨hanswers, hmem, hne, hrange⟩
  · rintro ⟨hanswers, hmem, hne, hrange⟩
    obtain ⟨group, hgroup, hcs⟩ := exists_mem_byFile_iff.2 ⟨rfl, hne⟩
    exact ⟨(row.fileId, group), hgroup, mem_getChunksInRange.2
      ⟨hanswers, hmem, rfl, by rw [hcs]; exact hrange⟩⟩

/-- Marking what is marked changes nothing. -/
theorem map_mark_of_marked : ∀ {chunks : List Chunk},
    chunks.filter (!·.windowExpanded) = [] → chunks.map Chunk.mark = chunks
  | [], _ => rfl
  | c :: chunks, h => by
    obtain ⟨id, id', fileId, startLine, endLine, content, marked⟩ := c
    cases marked with
    | false => simp at h
    | true =>
      have hrest : chunks.filter (!·.windowExpanded) = [] := by simpa using h
      have ih := map_mark_of_marked hrest
      rw [List.map_cons, ih]
      rfl

theorem expandChunkWindows_of_marked
    (h : chunks.filter (!·.windowExpanded) = []) : expandChunkWindows db w chunks = chunks := by
  unfold expandChunkWindows
  simp [h]

/-- The chunks, with what the neighbours add. -/
theorem expandChunkWindows_eq (db : Db) (w : ℤ) (chunks : List Chunk) :
    expandChunkWindows db w chunks = (((neighbors db w chunks).map Row.toChunk).foldl addNeighbor
      (chunks, chunks.map getChunkId)).1.map Chunk.mark := by
  by_cases h : chunks.filter (!·.windowExpanded) = []
  · rw [expandChunkWindows_of_marked h, neighbors, h]
    exact (map_mark_of_marked h).symm
  · have hne : chunks ≠ [] := by
      rintro rfl
      exact h rfl
    unfold expandChunkWindows neighbors
    rw [if_neg hne, List.map_flatMap, List.foldl_flatMap]
    exact if_neg h

/-- What is added are the new rows that the queries return. -/
theorem exists_added (db : Db) (w : ℤ) (chunks : List Chunk) : ∃ added : List Row,
    expandChunkWindows db w chunks = (chunks ++ added.map Row.toChunk).map Chunk.mark ∧
      (added.map Row.id).Nodup ∧
      ∀ row, row ∈ added ↔ IsNew db chunks row ∧ row ∈ neighbors db w chunks := by
  obtain ⟨added, heq, hnodup, hmem, hall⟩ :=
    exists_foldl_addNeighbor (neighbors db w chunks) chunks (chunks.map getChunkId)
  refine ⟨added, by rw [expandChunkWindows_eq, heq], hnodup, fun row => ⟨fun hrow => ?_, ?_⟩⟩
  · obtain ⟨hneighbor, hnew⟩ := hmem row hrow
    exact ⟨⟨(mem_neighbors.1 hneighbor).2.1, hnew⟩, hneighbor⟩
  · rintro ⟨⟨hrow, hnew⟩, hneighbor⟩
    obtain ⟨row', hrow', hid⟩ := hall row hneighbor hnew
    have hstored := (mem_neighbors.1 (hmem row' hrow').1).2.1
    rwa [← List.inj_on_of_nodup_map db.nodup hstored hrow hid]

/-! ## The neighbours of the windows -/

/-- A chunk in a window is in the one range of its file. -/
theorem inRange_span {cs : List Chunk} {c : Chunk} (hc : c ∈ cs)
    (h : inWindow w c row) : inRange (span w cs).1 (span w cs).2 row := by
  have hmin : (cs.map (·.startLine.getD 0)).min?.getD 0 ≤ c.startLine.getD 0 := by
    have hmem : c.startLine.getD 0 ∈ cs.map (·.startLine.getD 0) := List.mem_map_of_mem hc
    cases hm : (cs.map (·.startLine.getD 0)).min? with
    | none => exact absurd (List.min?_eq_none_iff.1 hm) (List.ne_nil_of_mem hmem)
    | some m => exact (List.min?_eq_some_iff.1 hm).2 _ hmem
  have hmax : c.endLine.getD 0 ≤ (cs.map (·.endLine.getD 0)).max?.getD 0 := by
    have hmem : c.endLine.getD 0 ∈ cs.map (·.endLine.getD 0) := List.mem_map_of_mem hc
    cases hm : (cs.map (·.endLine.getD 0)).max? with
    | none => exact absurd (List.max?_eq_none_iff.1 hm) (List.ne_nil_of_mem hmem)
    | some m => exact (List.max?_eq_some_iff.1 hm).2 _ hmem
  obtain ⟨hend, hstart⟩ := h
  have hone := row.one_le
  have hlines := row.start_le
  unfold inRange span
  omega

/-- The queries find what the windows overlap : they answer, and no new chunk is between the
windows. -/
structure WindowsCover (db : Db) (windowLines : ℤ) (chunks : List Chunk) : Prop where
  answers : ∀ {row c}, IsNew db chunks row → c ∈ toExpandIn chunks row.fileId →
    inWindow windowLines c row → db.fails row.fileId = false
  noGap : ∀ {row}, IsNew db chunks row → db.fails row.fileId = false →
    toExpandIn chunks row.fileId ≠ [] →
    inRange (span windowLines (toExpandIn chunks row.fileId)).1
      (span windowLines (toExpandIn chunks row.fileId)).2 row →
    ∃ c ∈ toExpandIn chunks row.fileId, inWindow windowLines c row

theorem mark_toChunk_injective : Function.Injective fun row : Row => row.toChunk.mark := by
  rintro ⟨⟩ ⟨⟩ h
  simp only [Row.toChunk, Chunk.mark, Chunk.mk.injEq, Option.some.injEq, ChunkId.int.injEq] at h
  simp [h]

/-- The expansion adds the neighbours, and a second one nothing, exactly when the queries find what
the windows overlap. -/
theorem expandsExactly_iff (db : Db) (windowLines : ℤ) (chunks : List Chunk) :
    (ExpandsExactly db windowLines chunks (expandChunkWindows db windowLines chunks) ∧
        expandChunkWindows db windowLines (expandChunkWindows db windowLines chunks) =
          expandChunkWindows db windowLines chunks) ↔
      WindowsCover db windowLines chunks := by
  obtain ⟨added, heq, hnodup, hmem⟩ := exists_added db windowLines chunks
  have hrerun : expandChunkWindows db windowLines (expandChunkWindows db windowLines chunks) =
      expandChunkWindows db windowLines chunks := by
    refine expandChunkWindows_of_marked ?_
    rw [heq, List.filter_eq_nil_iff]
    intro c hc
    obtain ⟨c', -, rfl⟩ := List.mem_map.1 hc
    simp [Chunk.mark]
  rw [and_iff_left hrerun, heq]
  constructor
  · rintro ⟨added', heq', -, hmem'⟩
    have hadded : added = added' := by
      rw [List.map_append, List.map_append, List.append_cancel_left_eq, List.map_map,
        List.map_map] at heq'
      exact List.map_injective_iff.2 mark_toChunk_injective heq'
    refine ⟨fun {row c} hnew hc hwindow => ?_, fun {row} hnew hanswers hne hrange => ?_⟩
    · have hrow : row ∈ added := hadded ▸ (hmem' row).2 ⟨hnew, c, hc, hwindow⟩
      exact (mem_neighbors.1 ((hmem row).1 hrow).2).1
    · have hrow : row ∈ added :=
        (hmem row).2 ⟨hnew, mem_neighbors.2 ⟨hanswers, hnew.1, hne, hrange⟩⟩
      exact ((hmem' row).1 (hadded ▸ hrow)).2
  · intro hcover
    refine ⟨added, rfl, hnodup, fun row => ?_⟩
    rw [hmem]
    refine and_congr_right fun hnew => ⟨fun hneighbor => ?_, ?_⟩
    · obtain ⟨hanswers, -, hne, hrange⟩ := mem_neighbors.1 hneighbor
      exact hcover.noGap hnew hanswers hne hrange
    · rintro ⟨c, hc, hwindow⟩
      exact mem_neighbors.2 ⟨hcover.answers hnew hc hwindow, hnew.1, List.ne_nil_of_mem hc,
        inRange_span hc hwindow⟩

theorem farRows_one_le : (1 : ℤ) ≤ 1 := le_refl 1

/-- Three chunks of a file, far from each other. -/
def farRows : Db where
  rows := [⟨1, 1, 1, 10, "a", farRows_one_le, by decide⟩, ⟨2, 1, 500, 510, "b", by decide, by decide⟩,
    ⟨3, 1, 1000, 1010, "c", by decide, by decide⟩]
  fails := fun _ => false
  nodup := by decide

def foundRow (id startLine endLine : ℤ) : Chunk :=
  ⟨some (.int id), none, some 1, some startLine, some endLine, "", false⟩

/-- The first and the last chunk of a file bring all that is in between. -/
theorem not_expandsExactly_between : ¬ ExpandsExactly farRows 50
    [foundRow 1 1 10, foundRow 3 1000 1010]
    (expandChunkWindows farRows 50 [foundRow 1 1 10, foundRow 3 1000 1010]) := by
  rintro ⟨added, heq, -, hmem⟩
  have hlength : (expandChunkWindows farRows 50
      [foundRow 1 1 10, foundRow 3 1000 1010]).length = 3 := by decide
  have hadded : added = [] := by
    refine List.eq_nil_iff_forall_not_mem.2 fun row hrow => ?_
    obtain ⟨⟨hstored, hnew⟩, c, hc, hstart, hend⟩ := (hmem row).1 hrow
    simp only [farRows, List.mem_cons, List.not_mem_nil, or_false] at hstored
    obtain rfl | rfl | rfl := hstored
    · exact hnew (by decide)
    · have hc' : c = foundRow 1 1 10 ∨ c = foundRow 3 1000 1010 := by
        simpa [toExpandIn] using (List.mem_filter.1 hc).1
      obtain rfl | rfl := hc'
      · exact absurd hend (by decide)
      · exact absurd hstart (by decide)
    · exact hnew (by decide)
  rw [heq, hadded] at hlength
  exact absurd hlength (by decide)

end ChunkHound.WindowExpansion
