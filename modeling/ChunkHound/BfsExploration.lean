import ChunkHound.ChunkDedup
import ChunkHound.ChunkDiff
import ChunkHound.ExploredRanges
import ChunkHound.SynthesisSelection
import Mathlib

/-!
# Exploring breadth first

`explore_raw` of `BFSExplorationStrategy` goes through the follow-up questions level by level, and
aggregates the chunks of the nodes that it has listed. The answers of the search, of the follow-up
generator and of the synthesis are arbitrary.

The nodes of a level are listed when their parents are done. A level wider than
`MAX_FOLLOWUP_QUESTIONS` is replaced by new nodes, which are never listed and have no parent : what
they find is lost unless listed nodes find it too, and they generate children as the root does
(`keeps_iff`). No level is that wide when the depth is at most 1, the default.
-/

namespace ChunkHound.BfsExploration

open OrderedDict ChunkDedup ExploredRanges

/-! ## Chunks and nodes -/

abbrev Text := List Char

/-- What is read of a chunk dictionary. -/
structure Chunk where
  chunkId : Option ChunkId
  id : Option ChunkId
  scores : List (String × ℚ)
  filePath : Option String
  startLine : Option ℤ
  endLine : Option ℤ
  expandedStartLine : Option ℤ
  expandedEndLine : Option ℤ
  deriving DecidableEq

def Chunk.score (chunk : Chunk) : ℚ := SynthesisSelection.unifiedScore chunk.scores

/-- `get_chunk_id`, of which a falsy one is none. -/
def Chunk.truthyId (chunk : Chunk) : Option ChunkId :=
  (orId chunk.chunkId chunk.id).filter ChunkId.truthy

/-- The lines of a chunk in its file. -/
def Chunk.lines (chunk : Chunk) : ExploredRanges.Chunk :=
  ⟨chunk.filePath, chunk.startLine, chunk.endLine⟩

/-- `expanded or plain`, where 0 is falsy. -/
def orLine (expanded plain : Option ℤ) : ℤ :=
  match expanded with
  | some line => if line = 0 then plain.getD 1 else line
  | none => plain.getD 1

/-- `_get_chunk_expanded_range`. -/
def Chunk.expandedRange (chunk : Chunk) : Range :=
  (orLine chunk.expandedStartLine chunk.startLine, orLine chunk.expandedEndLine chunk.endLine)

/-- `_is_chunk_duplicate`, of a chunk with its own range. -/
def isDuplicate (explored : ExploredData) (chunk : Chunk) : Bool :=
  isChunkDuplicate chunk.lines chunk.expandedRange explored

/-- A node of the graph. The parent is known by its query. -/
structure Node where
  query : Text
  parent : Option Text
  depth : ℕ
  chunks : List Chunk
  isTerminatedLeaf : Bool
  deriving DecidableEq

/-- A node that was not processed yet. -/
def Node.fresh (query : Text) (parent : Option Text) (depth : ℕ) : Node :=
  ⟨query, parent, depth, [], false⟩

/-- `_update_global_explored_data`. -/
def updateExplored (explored : ExploredData) (node : Node) : ExploredData :=
  updateGlobalExploredData explored (node.chunks.map fun c => (c.lines, c.expandedRange))

/-! ## Questions -/

def maxFollowupQuestions : ℕ := 3

/-- The answers from outside, each of which may fail. A node is known by its depth and its place
in the level. -/
structure Oracles (ε : Type) where
  search : ℕ → ℕ → Text → Except ε (List Chunk)
  followUps : ℕ → ℕ → Text → List Text → List Chunk → Except ε (List Text)
  synthesize : ℕ → List Text → Except ε (List Text)

/-- The questions that synthesis works with. -/
def wellPosed (query : Text) : Bool :=
  10 < (strip query).length ∧
    ¬ ["what is ", "is there ", "does "].any fun start =>
      start.toList.isPrefixOf (strip (query.map Char.toLower))

def questions (nodes : List Node) : List (Text × ℕ) := nodes.map fun n => (n.query, n.depth)

variable {ε : Type}

/-- `QuestionGenerator.synthesize_questions`. -/
def synthesizeQuestions (oracles : Oracles ε) (depth : ℕ) (nodes : List Node) (targetCount : ℕ) :
    List (Text × ℕ) :=
  if nodes.length ≤ targetCount then questions nodes
  else
    let filteredNodes := nodes.filter (wellPosed ·.query)
    if filteredNodes.length ≤ targetCount then questions filteredNodes
    else
      match oracles.synthesize depth (filteredNodes.map Node.query) with
      | .error _ => questions (nodes.take targetCount)
      | .ok [] => questions (filteredNodes.take targetCount)
      | .ok synthesizedQueries =>
        let nonempty := ((synthesizedQueries.take targetCount).map strip).filter (· ≠ [])
        if nonempty = [] then questions (nodes.take targetCount)
        else nonempty.map fun query => (query, (nodes.head?.map Node.depth).getD 0)

/-- `_synthesize_questions` : the new nodes have no parent. -/
def synthesizedNodes (oracles : Oracles ε) (depth : ℕ) (nodes : List Node) : List Node :=
  (synthesizeQuestions oracles depth nodes maxFollowupQuestions).map fun q => .fresh q.1 none q.2

/-! ## Nodes -/

def buildSearchQuery (query : Text) (ancestors : List Text) : Text :=
  if ancestors = [] then query
  else query ++ " | Context: ".toList ++
    [' ', '→', ' '].intercalate (ancestors.drop (ancestors.length - 2))

/-- `_detect_new_information`. -/
def detectNewInformation (node : Node) (explored : ExploredData) : Bool :=
  match node.parent with
  | none => true
  | some _ => node.chunks.any fun c => !isDuplicate explored c

/-- `_process_node` : the node as it is then, and its children. -/
def processNode (oracles : Oracles ε) (maxDepth : ℤ) (depth place : ℕ) (ancestors : List Text)
    (explored : ExploredData) (node : Node) : Node × Except ε (List Node) :=
  let found :=
    if 0 < depth ∨ node.chunks = [] then
      oracles.search depth place (buildSearchQuery node.query ancestors)
    else .ok node.chunks
  match found with
  | .error e => (node, .error e)
  | .ok chunks =>
    let searched := { node with chunks := chunks }
    if chunks = [] then (searched, .ok [])
    else if detectNewInformation searched explored = false then
      ({ searched with isTerminatedLeaf := true }, .ok [])
    else if maxDepth ≤ depth then (searched, .ok [])
    else
      match oracles.followUps depth place node.query ancestors chunks with
      | .error e => (searched, .error e)
      | .ok followUps => (searched, .ok ((followUps.take maxFollowupQuestions).map fun query =>
          .fresh query (some node.query) (depth + 1)))

/-! ## The traversal -/

/-- A node that was processed : how it was left, what was explored before its level, its children,
and whether it is among all nodes. -/
structure Visit where
  node : Node
  depth : ℕ
  explored : ExploredData
  children : List Node
  listed : Bool

/-- `all_nodes` are the nodes of the earlier levels and, when it is listed, the current level. The
log is of the processed nodes. -/
structure State where
  earlier : List Node
  level : List Node
  listed : Bool
  explored : ExploredData
  ancestors : List Text
  log : List Visit

def State.listedLevel (s : State) : List Node := if s.listed then s.level else []

def State.allNodes (s : State) : List Node := s.earlier ++ s.listedLevel

/-- The children that a result adds. -/
def childrenOf (result : Node × Except ε (List Node)) : List Node :=
  match result.2 with
  | .ok children => children
  | .error _ => []

/-- What one result adds to the explored data. -/
def recordResult (explored : ExploredData) (result : Node × Except ε (List Node)) :
    ExploredData :=
  match result.2 with
  | .error _ => explored
  | .ok _ =>
    if result.1.isTerminatedLeaf = false ∧ result.1.chunks ≠ [] then
      updateExplored explored result.1
    else explored

def addAncestor (ancestors : List Text) (node : Node) : List Text :=
  if node.query ∈ ancestors then ancestors else ancestors ++ [node.query]

/-- The nodes of a level, all processed with what was explored before. -/
def results (oracles : Oracles ε) (maxDepth : ℤ) (depth : ℕ) (s : State) :
    List (Node × Except ε (List Node)) :=
  s.level.zipIdx.map fun p =>
    processNode oracles maxDepth depth p.2 s.ancestors s.explored p.1

/-- One pass of the loop of `_traverse_bfs_tree`. Nodes that are replaced stay listed as they
are. -/
def runLevel (oracles : Oracles ε) (maxDepth : ℤ) (depth : ℕ) (s : State) : State :=
  let processed := results oracles maxDepth depth s
  let nodes := processed.map Prod.fst
  let nextLevel := processed.flatMap childrenOf
  let replaced := maxFollowupQuestions < nextLevel.length
  { earlier := s.earlier ++ (if s.listed then nodes else []) ++ if replaced then nextLevel else []
    level := if replaced then synthesizedNodes oracles depth nextLevel else nextLevel
    listed := !replaced
    explored := processed.foldl recordResult s.explored
    ancestors := nodes.foldl addAncestor s.ancestors
    log := s.log ++ processed.map fun r => ⟨r.1, depth, s.explored, childrenOf r, s.listed⟩ }

/-- The passes that are left, from a depth on. -/
def traverse (oracles : Oracles ε) (maxDepth : ℤ) : ℕ → ℕ → State → State
  | 0, _, s => s
  | passes + 1, depth, s =>
    if s.level = [] then s
    else traverse oracles maxDepth passes (depth + 1) (runLevel oracles maxDepth depth s)

/-! ## Aggregation -/

/-- The chunk for an id, of one that comes and the one that is there. -/
def betterChunk (chunk : Chunk) : Option Chunk → Chunk
  | none => chunk
  | some existing => if existing.score < chunk.score then chunk else existing

def enterChunk (chunksMap : List (ChunkId × Chunk)) (chunk : Chunk) : List (ChunkId × Chunk) :=
  match chunk.truthyId with
  | none => chunksMap
  | some id => alter (betterChunk chunk) id chunksMap

/-- `_aggregate_chunks`. -/
def aggregateChunks (allNodes : List Node) : List Chunk :=
  values ((allNodes.flatMap Node.chunks).foldl enterChunk [])

structure Stats where
  nodesExplored : ℕ
  depthReached : ℕ
  chunksTotal : ℕ
  chunksBefore : ℕ
  chunksAdded : ℤ

/-- The root, and what is explored with it. -/
def start (rootQuery : Text) (initialChunks : List Chunk) : State :=
  let root : Node := ⟨rootQuery, none, 0, initialChunks, false⟩
  { earlier := []
    level := [root]
    listed := true
    explored := updateExplored ⟨∅, [], initialChunks.map Chunk.lines, []⟩ root
    ancestors := []
    log := [] }

/-- The traversal of `explore_raw`. -/
def traversal (oracles : Oracles ε) (maxDepth : ℤ) (rootQuery : Text)
    (initialChunks : List Chunk) : State :=
  if initialChunks = [] then { start rootQuery [] with level := [], listed := false }
  else traverse oracles maxDepth (maxDepth + 1).toNat 0 (start rootQuery initialChunks)

def exploreRaw (oracles : Oracles ε) (maxDepth : ℤ) (rootQuery : Text)
    (initialChunks : List Chunk) : List Chunk × Stats :=
  let allNodes := (traversal oracles maxDepth rootQuery initialChunks).allNodes
  let allChunks := aggregateChunks allNodes
  (allChunks, ⟨allNodes.length, ((allNodes.map Node.depth).max?).getD 0, allChunks.length,
    initialChunks.length, (allChunks.length : ℤ) - initialChunks.length⟩)

/-! ## One chunk for each id -/

/-- One chunk for each id among those found, a copy with the greatest score. -/
structure KeepsBest (found : Set Chunk) (returned : List Chunk) : Prop where
  nodup : (returned.map Chunk.truthyId).Nodup
  ids : ∀ c ∈ found, ∀ id, c.truthyId = some id → ∃ c' ∈ returned, c'.truthyId = some id
  best : ∀ c ∈ returned, c ∈ found ∧ ∃ id, c.truthyId = some id ∧
    ∀ c' ∈ found, c'.truthyId = some id → c'.score ≤ c.score

/-- The map holds one of the best chunks for each id of some chunks. -/
structure HoldsBest (chunks : List Chunk) (chunksMap : List (ChunkId × Chunk)) : Prop where
  nodup : (keys chunksMap).Nodup
  ids : ∀ c ∈ chunks, ∀ id, c.truthyId = some id → id ∈ keys chunksMap
  best : ∀ id c, chunksMap.lookup id = some c → c ∈ chunks ∧ c.truthyId = some id ∧
    ∀ c' ∈ chunks, c'.truthyId = some id → c'.score ≤ c.score

theorem betterChunk_cases (chunk : Chunk) (existing : Option Chunk) :
    chunk.score ≤ (betterChunk chunk existing).score ∧
      (∀ c ∈ existing, c.score ≤ (betterChunk chunk existing).score) ∧
      (betterChunk chunk existing = chunk ∨ betterChunk chunk existing ∈ existing) := by
  unfold betterChunk
  cases existing with
  | none => exact ⟨le_rfl, by simp, Or.inl rfl⟩
  | some c =>
    dsimp only
    split
    · rename_i hlt
      exact ⟨le_rfl, by simpa using hlt.le, Or.inl rfl⟩
    · rename_i hle
      exact ⟨not_lt.1 hle, by simp, Or.inr rfl⟩

theorem HoldsBest.enterChunk {chunks : List Chunk} {chunksMap : List (ChunkId × Chunk)}
    (h : HoldsBest chunks chunksMap) (chunk : Chunk) :
    HoldsBest (chunks ++ [chunk]) (enterChunk chunksMap chunk) := by
  unfold BfsExploration.enterChunk
  cases hid : chunk.truthyId with
  | none =>
    refine ⟨h.nodup, fun c hc id hcid => ?_, fun id c hc => ?_⟩
    · rcases List.mem_append.1 hc with hc | hc
      · exact h.ids c hc id hcid
      · rw [List.mem_singleton.1 hc, hid] at hcid
        cases hcid
    · obtain ⟨hmem, hcid, hbest⟩ := h.best id c hc
      refine ⟨List.mem_append_left _ hmem, hcid, fun c' hc' hcid' => ?_⟩
      rcases List.mem_append.1 hc' with hc' | hc'
      · exact hbest c' hc' hcid'
      · rw [List.mem_singleton.1 hc', hid] at hcid'
        cases hcid'
  | some id =>
    refine ⟨nodup_keys_alter h.nodup, fun c hc id' hcid => mem_keys_alter.2 ?_, fun id' c hc => ?_⟩
    · rcases List.mem_append.1 hc with hc | hc
      · exact Or.inl (h.ids c hc id' hcid)
      · rw [List.mem_singleton.1 hc, hid] at hcid
        exact Or.inr (Option.some.inj hcid).symm
    · rw [lookup_alter] at hc
      by_cases heq : id' = id
      · subst heq
        rw [if_pos rfl] at hc
        obtain rfl := Option.some.inj hc
        obtain ⟨hnew, hold, hwhich⟩ := betterChunk_cases chunk (chunksMap.lookup id')
        refine ⟨?_, ?_, fun c' hc' hcid' => ?_⟩
        · rcases hwhich with hwhich | hwhich
          · rw [hwhich]
            exact List.mem_append_right _ (List.mem_singleton_self chunk)
          · exact List.mem_append_left _ (h.best id' _ hwhich).1
        · rcases hwhich with hwhich | hwhich
          · rw [hwhich, hid]
          · exact (h.best id' _ hwhich).2.1
        · rcases List.mem_append.1 hc' with hc' | hc'
          · obtain ⟨c'', hc''⟩ := mem_keys_iff.1 (h.ids c' hc' id' hcid')
            exact ((h.best id' c'' hc'').2.2 c' hc' hcid').trans (hold c'' hc'')
          · rw [List.mem_singleton.1 hc']
            exact hnew
      · rw [if_neg heq] at hc
        obtain ⟨hmem, hcid, hbest⟩ := h.best id' c hc
        refine ⟨List.mem_append_left _ hmem, hcid, fun c' hc' hcid' => ?_⟩
        rcases List.mem_append.1 hc' with hc' | hc'
        · exact hbest c' hc' hcid'
        · rw [List.mem_singleton.1 hc', hid] at hcid'
          exact absurd (Option.some.inj hcid').symm heq

theorem holdsBest_foldl (chunks : List Chunk) :
    HoldsBest chunks (chunks.foldl enterChunk []) := by
  induction chunks using List.reverseRecOn with
  | nil => exact ⟨List.nodup_nil, by simp, by simp⟩
  | append_singleton chunks chunk ih =>
    rw [List.foldl_append]
    exact ih.enterChunk chunk

theorem aggregateChunks_keepsBest (allNodes : List Node) :
    KeepsBest {c | ∃ n ∈ allNodes, c ∈ n.chunks} (aggregateChunks allNodes) := by
  have h := holdsBest_foldl (allNodes.flatMap Node.chunks)
  have hmem : ∀ c, c ∈ allNodes.flatMap Node.chunks ↔ ∃ n ∈ allNodes, c ∈ n.chunks := fun c =>
    List.mem_flatMap
  unfold aggregateChunks
  refine ⟨?_, fun c hc id hid => ?_, fun c hc => ?_⟩
  · -- the ids of the values are the keys
    have hids : (values ((allNodes.flatMap Node.chunks).foldl enterChunk [])).map Chunk.truthyId =
        (keys ((allNodes.flatMap Node.chunks).foldl enterChunk [])).map some := by
      unfold values keys
      rw [List.map_map, List.map_map]
      exact List.map_congr_left fun e he =>
        (h.best e.1 e.2 ((lookup_eq_some_iff h.nodup).2 he)).2.1
    rw [hids]
    exact h.nodup.map (Option.some_injective _)
  · obtain ⟨c', hc'⟩ := mem_keys_iff.1 (h.ids c ((hmem c).2 hc) id hid)
    exact ⟨c', (mem_values_iff h.nodup).2 ⟨id, hc'⟩, (h.best id c' hc').2.1⟩
  · obtain ⟨id, hid⟩ := (mem_values_iff h.nodup).1 hc
    obtain ⟨hin, hcid, hbest⟩ := h.best id c hid
    exact ⟨(hmem c).1 hin, id, hcid, fun c' hc' => hbest c' ((hmem c').2 hc')⟩

/-! ## What a level does -/

section Level

variable {oracles : Oracles ε} {maxDepth : ℤ} {depth place : ℕ} {ancestors : List Text}
  {explored : ExploredData} {node : Node} {s : State} {initial : List Chunk}

/-- The node found only what was explored before. -/
def AllExplored (explored : ExploredData) (node : Node) : Prop :=
  ∀ c ∈ node.chunks, isDuplicate explored c = true

/-- A node has children only above the greatest depth and, if it has a parent, when it found
something new. -/
theorem processNode_cases (oracles : Oracles ε) (maxDepth : ℤ) (depth place : ℕ)
    (ancestors : List Text) (explored : ExploredData) (node : Node) :
    childrenOf (processNode oracles maxDepth depth place ancestors explored node) = [] ∨
      (depth < maxDepth ∧
        (node.parent ≠ none → ¬ AllExplored explored
          (processNode oracles maxDepth depth place ancestors explored node).1) ∧
        ∃ followUps : List Text,
          childrenOf (processNode oracles maxDepth depth place ancestors explored node) =
            (followUps.take maxFollowupQuestions).map fun query =>
              .fresh query (some node.query) (depth + 1)) := by
  unfold processNode
  dsimp only
  split
  · exact Or.inl rfl
  · rename_i chunks _
    split
    · exact Or.inl rfl
    · split
      · exact Or.inl rfl
      · rename_i hnew
        split
        · exact Or.inl rfl
        · rename_i hdepth
          split
          · exact Or.inl rfl
          · rename_i followUps _
            refine Or.inr ⟨by omega, fun hparent hall => hnew ?_, followUps, rfl⟩
            unfold detectNewInformation
            split
            · rename_i hnone
              exact absurd hnone hparent
            · refine List.any_eq_false.2 fun c hc => ?_
              rw [hall c hc]
              simp

/-- The root keeps its chunks. -/
theorem processNode_root (h : node.chunks ≠ []) :
    (processNode oracles maxDepth 0 place ancestors explored node).1.chunks = node.chunks := by
  unfold processNode
  rw [if_neg (by simp [h])]
  dsimp only
  split
  · rfl
  · split
    · rfl
    · split
      · rfl
      · split
        · rfl
        · rfl

theorem mem_results {r : Node × Except ε (List Node)} (h : r ∈ results oracles maxDepth depth s) :
    ∃ node ∈ s.level, ∃ place,
      r = processNode oracles maxDepth depth place s.ancestors s.explored node := by
  obtain ⟨⟨node, place⟩, hp, rfl⟩ := List.mem_map.1 h
  exact ⟨node, List.fst_mem_of_mem_zipIdx hp, place, rfl⟩

/-- Between two levels : the nodes that come were not processed, and listed ones have a parent; the
chunks of the earlier nodes are those that listed nodes found. -/
structure Inv (initial : List Chunk) (s : State) : Prop where
  blank : ∀ n ∈ s.level, n.chunks = []
  parents : s.listed = true → ∀ n ∈ s.level, n.parent ≠ none
  kept : ∀ c, (∃ n ∈ s.earlier, c ∈ n.chunks) ↔
    c ∈ initial ∨ ∃ v ∈ s.log, v.listed = true ∧ c ∈ v.node.chunks
  quiet : ∀ v ∈ s.log, v.listed = true → 0 < v.depth → AllExplored v.explored v.node →
    v.children = []
  deep : ∀ v ∈ s.log, v.listed = false → 0 < v.depth

variable {n : Node}

/-- The nodes of the next level were not processed yet, and those with a parent are listed. -/
theorem blank_children (h : n ∈ (results oracles maxDepth depth s).flatMap childrenOf) :
    n.chunks = [] ∧ n.parent ≠ none := by
  obtain ⟨r, hr, hn⟩ := List.mem_flatMap.1 h
  obtain ⟨node, -, place, rfl⟩ := mem_results hr
  rcases processNode_cases oracles maxDepth depth place s.ancestors s.explored node with
    hnil | ⟨-, -, followUps, hchildren⟩
  · rw [hnil] at hn
    cases hn
  · rw [hchildren] at hn
    obtain ⟨query, -, rfl⟩ := List.mem_map.1 hn
    exact ⟨rfl, Option.some_ne_none _⟩

theorem blank_synthesizedNodes {nodes : List Node}
    (h : n ∈ synthesizedNodes oracles depth nodes) : n.chunks = [] := by
  obtain ⟨q, -, rfl⟩ := List.mem_map.1 h
  rfl

theorem mem_log_runLevel {v : Visit} (h : v ∈ (runLevel oracles maxDepth depth s).log) :
    v ∈ s.log ∨ (v.depth = depth ∧ v.listed = s.listed ∧ v.explored = s.explored ∧
      ∃ r ∈ results oracles maxDepth depth s, v.node = r.1 ∧ v.children = childrenOf r) := by
  rcases List.mem_append.1 h with h | h
  · exact Or.inl h
  · obtain ⟨r, hr, rfl⟩ := List.mem_map.1 h
    exact Or.inr ⟨rfl, rfl, rfl, r, hr, rfl, rfl⟩

theorem mem_level_runLevel (h : n ∈ (runLevel oracles maxDepth depth s).level) :
    n.chunks = [] ∧ ((runLevel oracles maxDepth depth s).listed = true → n.parent ≠ none) := by
  unfold runLevel at h ⊢
  dsimp only at h ⊢
  split at h
  · rename_i hwide
    refine ⟨blank_synthesizedNodes h, fun hlisted => ?_⟩
    rw [decide_eq_true hwide] at hlisted
    cases hlisted
  · exact ⟨(blank_children h).1, fun _ => (blank_children h).2⟩

/-- The chunks of the earlier nodes grow by those of the level, if it was listed. -/
theorem earlier_runLevel (c : Chunk) :
    (∃ n ∈ (runLevel oracles maxDepth depth s).earlier, c ∈ n.chunks) ↔
      (∃ n ∈ s.earlier, c ∈ n.chunks) ∨
        (s.listed = true ∧ ∃ r ∈ results oracles maxDepth depth s, c ∈ r.1.chunks) := by
  unfold runLevel
  simp only [List.mem_append]
  constructor
  · rintro ⟨n, (hn | hn) | hn, hc⟩
    · exact Or.inl ⟨n, hn, hc⟩
    · split at hn
      · rename_i hlisted
        obtain ⟨r, hr, rfl⟩ := List.mem_map.1 hn
        exact Or.inr ⟨hlisted, r, hr, hc⟩
      · cases hn
    · split at hn
      · rw [(blank_children hn).1] at hc
        cases hc
      · cases hn
  · rintro (⟨n, hn, hc⟩ | ⟨hlisted, r, hr, hc⟩)
    · exact ⟨n, Or.inl (Or.inl hn), hc⟩
    · exact ⟨r.1, Or.inl (Or.inr (by rw [if_pos hlisted]; exact List.mem_map_of_mem hr)), hc⟩

theorem listed_runLevel (c : Chunk) :
    (∃ v ∈ (runLevel oracles maxDepth depth s).log, v.listed = true ∧ c ∈ v.node.chunks) ↔
      (∃ v ∈ s.log, v.listed = true ∧ c ∈ v.node.chunks) ∨
        (s.listed = true ∧ ∃ r ∈ results oracles maxDepth depth s, c ∈ r.1.chunks) := by
  constructor
  · rintro ⟨v, hv, hlisted, hc⟩
    rcases mem_log_runLevel hv with hv | ⟨-, hsame, -, r, hr, hnode, -⟩
    · exact Or.inl ⟨v, hv, hlisted, hc⟩
    · exact Or.inr ⟨hsame ▸ hlisted, r, hr, hnode ▸ hc⟩
  · rintro (⟨v, hv, hlisted, hc⟩ | ⟨hlisted, r, hr, hc⟩)
    · exact ⟨v, List.mem_append_left _ hv, hlisted, hc⟩
    · exact ⟨_, List.mem_append_right _ (List.mem_map_of_mem hr), hlisted, hc⟩

theorem Inv.runLevel (h : Inv initial s) (hpos : 0 < depth) :
    Inv initial (runLevel oracles maxDepth depth s) where
  blank _ hn := (mem_level_runLevel hn).1
  parents hlisted _ hn := (mem_level_runLevel hn).2 hlisted
  kept c := by rw [earlier_runLevel, listed_runLevel, h.kept, or_assoc]
  quiet v hv hlisted hdepth hall := by
    rcases mem_log_runLevel hv with hv | ⟨-, hsame, hexplored, r, hr, hnode, hchildren⟩
    · exact h.quiet v hv hlisted hdepth hall
    · obtain ⟨node, hn, place, rfl⟩ := mem_results hr
      rw [hnode, hexplored] at hall
      rw [hchildren]
      rcases processNode_cases oracles maxDepth depth place s.ancestors s.explored node with
        hnil | ⟨-, hnew, -⟩
      · exact hnil
      · exact absurd hall (hnew (h.parents (hsame ▸ hlisted) node hn))
  deep v hv hlisted := by
    rcases mem_log_runLevel hv with hv | ⟨rfl, -⟩
    · exact h.deep v hv hlisted
    · exact hpos

theorem inv_start (rootQuery : Text) (h : initial ≠ []) :
    Inv initial (BfsExploration.runLevel oracles maxDepth 0 (start rootQuery initial)) where
  blank _ hn := (mem_level_runLevel hn).1
  parents hlisted _ hn := (mem_level_runLevel hn).2 hlisted
  kept c := by
    have hroot : (∃ r ∈ results oracles maxDepth 0 (start rootQuery initial), c ∈ r.1.chunks) ↔
        c ∈ initial := by
      unfold results start
      rw [List.zipIdx_singleton, List.map_singleton]
      simp only [List.mem_singleton, exists_eq_left]
      rw [processNode_root h]
    rw [earlier_runLevel, listed_runLevel, hroot]
    simp [start]
  quiet v hv hlisted hdepth hall := by
    rcases mem_log_runLevel hv with hv | ⟨hzero, -⟩
    · cases hv
    · omega
  deep v hv hlisted := by
    rcases mem_log_runLevel hv with hv | ⟨-, hroot, -⟩
    · cases hv
    · rw [hlisted] at hroot
      cases hroot

theorem Inv.traverse (passes : ℕ) : ∀ {depth : ℕ} {s : State}, Inv initial s → 0 < depth →
    Inv initial (traverse oracles maxDepth passes depth s) := by
  induction passes with
  | zero => exact fun h _ => h
  | succ passes ih =>
    intro depth s h hpos
    unfold BfsExploration.traverse
    split
    · exact h
    · exact ih (h.runLevel hpos) depth.succ_pos

theorem Inv.allNodes (h : Inv initial s) (c : Chunk) : (∃ n ∈ s.allNodes, c ∈ n.chunks) ↔
    c ∈ initial ∨ ∃ v ∈ s.log, v.listed = true ∧ c ∈ v.node.chunks := by
  rw [← h.kept c]
  constructor
  · rintro ⟨n, hn, hc⟩
    rcases List.mem_append.1 hn with hn | hn
    · exact ⟨n, hn, hc⟩
    · unfold State.listedLevel at hn
      split at hn
      · rw [h.blank n hn] at hc
        cases hc
      · cases hn
  · rintro ⟨n, hn, hc⟩
    exact ⟨n, List.mem_append_left _ hn, hc⟩

/-- A traversal ends without a level, with the root alone, or between two levels. -/
theorem traversal_cases (oracles : Oracles ε) (maxDepth : ℤ) (rootQuery : Text)
    (initial : List Chunk) :
    (initial = [] ∧ (traversal oracles maxDepth rootQuery initial).allNodes = [] ∧
        (traversal oracles maxDepth rootQuery initial).log = []) ∨
      traversal oracles maxDepth rootQuery initial = start rootQuery initial ∨
      Inv initial (traversal oracles maxDepth rootQuery initial) := by
  unfold traversal
  split
  · rename_i hnil
    exact Or.inl ⟨hnil, rfl, rfl⟩
  · rename_i hne
    cases (maxDepth + 1).toNat with
    | zero => exact Or.inr (Or.inl rfl)
    | succ passes =>
      refine Or.inr (Or.inr ?_)
      have hlevel : (start rootQuery initial).level ≠ [] := List.cons_ne_nil _ _
      unfold BfsExploration.traverse
      rw [if_neg hlevel]
      exact (inv_start rootQuery hne).traverse passes Nat.one_pos

end Level

/-! ## What is kept -/

section Keeps

variable {oracles : Oracles ε} {maxDepth : ℤ} {rootQuery : Text} {initial : List Chunk}

/-- The chunks that the processed nodes found, and the initial ones. -/
def found (initial : List Chunk) (log : List Visit) : Set Chunk :=
  {c | c ∈ initial ∨ ∃ v ∈ log, c ∈ v.node.chunks}

/-- Those of the listed nodes only. -/
def foundListed (initial : List Chunk) (log : List Visit) : Set Chunk :=
  found initial (log.filter Visit.listed)

theorem mem_foundListed {log : List Visit} {c : Chunk} : c ∈ foundListed initial log ↔
    c ∈ initial ∨ ∃ v ∈ log, v.listed = true ∧ c ∈ v.node.chunks := by
  unfold foundListed found
  simp only [Set.mem_ofPred_eq, List.mem_filter, and_assoc]

/-- One chunk is returned for each id that was found, and no node but the root has children when
all it found was explored. -/
def Keeps (oracles : Oracles ε) (maxDepth : ℤ) (rootQuery : Text) (initial : List Chunk) : Prop :=
  KeepsBest (found initial (traversal oracles maxDepth rootQuery initial).log)
      (exploreRaw oracles maxDepth rootQuery initial).1 ∧
    ∀ v ∈ (traversal oracles maxDepth rootQuery initial).log, 0 < v.depth →
      AllExplored v.explored v.node → v.children = []

/-- A node that is not listed does no harm : listed nodes have chunks as good as its own, and it has
no children when all it found was explored. -/
structure Harmless (initial : List Chunk) (log : List Visit) (v : Visit) : Prop where
  covered : ∀ c ∈ v.node.chunks, ∀ id, c.truthyId = some id →
    ∃ c' ∈ foundListed initial log, c'.truthyId = some id ∧ c.score ≤ c'.score
  quiet : AllExplored v.explored v.node → v.children = []

theorem aggregated_eq (oracles : Oracles ε) (maxDepth : ℤ) (rootQuery : Text)
    (initial : List Chunk) :
    {c | ∃ n ∈ (traversal oracles maxDepth rootQuery initial).allNodes, c ∈ n.chunks} =
      foundListed initial (traversal oracles maxDepth rootQuery initial).log := by
  ext c
  rw [Set.mem_ofPred_eq, mem_foundListed]
  rcases traversal_cases oracles maxDepth rootQuery initial with ⟨rfl, hnodes, hlog⟩ | hstart | h
  · rw [hnodes, hlog]
    simp
  · rw [hstart]
    simp [start, State.allNodes, State.listedLevel]
  · exact h.allNodes c

/-- What the log says of a node is as the invariant has it. -/
theorem visit_quiet {v : Visit} (hv : v ∈ (traversal oracles maxDepth rootQuery initial).log) :
    (v.listed = true → 0 < v.depth → AllExplored v.explored v.node → v.children = []) ∧
      (v.listed = false → 0 < v.depth) := by
  rcases traversal_cases oracles maxDepth rootQuery initial with ⟨-, -, hlog⟩ | hstart | h
  · rw [hlog] at hv
    cases hv
  · rw [hstart] at hv
    cases hv
  · exact ⟨h.quiet v hv, h.deep v hv⟩

/-- Everything is kept exactly if the nodes that are not listed do no harm. -/
theorem keeps_iff_harmless : Keeps oracles maxDepth rootQuery initial ↔
    ∀ v ∈ (traversal oracles maxDepth rootQuery initial).log, v.listed = false →
      Harmless initial (traversal oracles maxDepth rootQuery initial).log v := by
  have hlisted : KeepsBest (foundListed initial (traversal oracles maxDepth rootQuery initial).log)
      (exploreRaw oracles maxDepth rootQuery initial).1 :=
    aggregated_eq oracles maxDepth rootQuery initial ▸ aggregateChunks_keepsBest _
  have hsub : foundListed initial (traversal oracles maxDepth rootQuery initial).log ⊆
      found initial (traversal oracles maxDepth rootQuery initial).log := by
    rintro c (hc | ⟨v, hv, hc⟩)
    · exact Or.inl hc
    · exact Or.inr ⟨v, List.mem_of_mem_filter hv, hc⟩
  constructor
  · rintro ⟨hkeeps, hquiet⟩ v hv hunlisted
    refine ⟨fun c hc id hid => ?_, hquiet v hv ((visit_quiet hv).2 hunlisted)⟩
    obtain ⟨c', hc', hid'⟩ := hkeeps.ids c (Or.inr ⟨v, hv, hc⟩) id hid
    obtain ⟨-, id', hsame, hbest⟩ := hkeeps.best c' hc'
    obtain rfl := Option.some.inj (hid'.symm.trans hsame)
    exact ⟨c', (hlisted.best c' hc').1, hid', hbest c (Or.inr ⟨v, hv, hc⟩) hid⟩
  · intro hharmless
    -- what is found is no better than something that a listed node found
    have hcovered : ∀ c ∈ found initial (traversal oracles maxDepth rootQuery initial).log,
        ∀ id, c.truthyId = some id →
          ∃ c' ∈ foundListed initial (traversal oracles maxDepth rootQuery initial).log,
            c'.truthyId = some id ∧ c.score ≤ c'.score := by
      rintro c (hc | ⟨v, hv, hc⟩) id hid
      · exact ⟨c, Or.inl hc, hid, le_rfl⟩
      · cases hv' : v.listed with
        | true => exact ⟨c, mem_foundListed.2 (Or.inr ⟨v, hv, hv', hc⟩), hid, le_rfl⟩
        | false => exact (hharmless v hv hv').covered c hc id hid
    refine ⟨⟨hlisted.nodup, fun c hc id hid => ?_, fun c hc => ?_⟩, fun v hv hpos => ?_⟩
    · obtain ⟨c', hc', hid', -⟩ := hcovered c hc id hid
      exact hlisted.ids c' hc' id hid'
    · obtain ⟨hin, id, hid, hbest⟩ := hlisted.best c hc
      refine ⟨hsub hin, id, hid, fun c' hc' hid' => ?_⟩
      obtain ⟨c'', hc'', hid'', hle⟩ := hcovered c' hc' id hid'
      exact hle.trans (hbest c'' hc'' hid'')
    · cases hv' : v.listed with
      | true => exact (visit_quiet hv).1 hv' hpos
      | false => exact (hharmless v hv hv').quiet

end Keeps

/-! ## The depths at which nothing is lost -/

section Depth

variable {oracles : Oracles ε} {maxDepth : ℤ} {rootQuery : Text} {initial : List Chunk}

/-- The children of the root are few enough. -/
theorem listed_first (oracles : Oracles ε) (maxDepth : ℤ) (rootQuery : Text)
    (initial : List Chunk) :
    (runLevel oracles maxDepth 0 (start rootQuery initial)).listed = true := by
  have hlevel : (results oracles maxDepth 0 (start rootQuery initial)).flatMap childrenOf =
      childrenOf (processNode oracles maxDepth 0 0 [] (start rootQuery initial).explored
        ⟨rootQuery, none, 0, initial, false⟩) := by
    unfold results start
    rw [List.zipIdx_singleton, List.map_singleton, List.flatMap_singleton]
  unfold runLevel
  dsimp only
  rw [hlevel]
  rcases processNode_cases oracles maxDepth 0 0 [] (start rootQuery initial).explored
    ⟨rootQuery, none, 0, initial, false⟩ with hnil | ⟨-, -, followUps, hchildren⟩
  · rw [hnil]
    rfl
  · rw [hchildren, List.length_map, List.length_take,
      decide_eq_false (not_lt.2 (min_le_left _ _))]
    rfl

/-- At most two levels are gone through, and both are listed. -/
theorem listed_of_le_one (h : maxDepth ≤ 1) {v : Visit}
    (hv : v ∈ (traversal oracles maxDepth rootQuery initial).log) : v.listed = true := by
  unfold traversal at hv
  split at hv
  · cases hv
  · have hfirst : ∀ {v}, v ∈ (runLevel oracles maxDepth 0 (start rootQuery initial)).log →
        v.listed = true := fun hv => by
      rcases mem_log_runLevel hv with hv | ⟨-, hlisted, -⟩
      · cases hv
      · exact hlisted
    have hlevel : (start rootQuery initial).level ≠ [] := List.cons_ne_nil _ _
    have hpasses : (maxDepth + 1).toNat ≤ 2 := by omega
    generalize (maxDepth + 1).toNat = passes at hv hpasses
    match passes, hpasses with
    | 0, _ => cases hv
    | 1, _ =>
      unfold traverse at hv
      rw [if_neg hlevel] at hv
      exact hfirst hv
    | 2, _ =>
      unfold traverse at hv
      rw [if_neg hlevel] at hv
      unfold traverse at hv
      split at hv
      · exact hfirst hv
      · rcases mem_log_runLevel hv with hv | ⟨-, hlisted, -⟩
        · exact hfirst hv
        · rw [hlisted]
          exact listed_first oracles maxDepth rootQuery initial

theorem keeps_of_le_one (h : maxDepth ≤ 1) : Keeps oracles maxDepth rootQuery initial :=
  keeps_iff_harmless.2 fun v hv hunlisted => by
    rw [listed_of_le_one h hv] at hunlisted
    cases hunlisted

/-- The greatest depth matters only where there are follow-ups. -/
theorem processNode_congr {maxDepth' : ℤ} {depth : ℕ}
    (h : (maxDepth ≤ depth ↔ maxDepth' ≤ depth) ∨
      ∀ place query ancestors chunks, oracles.followUps depth place query ancestors chunks = .ok [])
    (place : ℕ) (ancestors : List Text) (explored : ExploredData) (node : Node) :
    processNode oracles maxDepth depth place ancestors explored node =
      processNode oracles maxDepth' depth place ancestors explored node := by
  unfold processNode
  rcases h with h | h
  · simp only [h]
  · simp only [h, List.take_nil, List.map_nil, ite_self]

/-- More passes do nothing once the level is empty. -/
theorem traverse_of_level_nil (more : ℕ) : ∀ {passes depth : ℕ} {s : State},
    (traverse oracles maxDepth passes depth s).level = [] →
      traverse oracles maxDepth (passes + more) depth s = traverse oracles maxDepth passes depth s
  | 0, depth, s, h => by
    have hlevel : s.level = [] := h
    cases more with
    | zero => rfl
    | succ more =>
      rw [Nat.zero_add]
      unfold traverse
      rw [if_pos hlevel]
  | passes + 1, depth, s, h => by
    rw [Nat.succ_add]
    unfold traverse at h ⊢
    split
    · rfl
    · rename_i hlevel
      rw [if_neg hlevel] at h
      exact traverse_of_level_nil more h

/-- A chunk of no file. -/
def looseChunk (id : ℤ) : Chunk := ⟨some (.int id), none, [], none, none, none, none, none⟩

/-- Every node above the third level has two long follow-ups, and each level finds a chunk of its
own. The synthesis fails. -/
def wideOracles : Oracles Unit where
  search depth _ _ := .ok [looseChunk (depth + 1)]
  followUps depth _ _ _ _ :=
    .ok (if depth < 2 then ["how are chunks stored".toList, "how are they read".toList] else [])
  synthesize _ _ := .error ()

theorem runLevel_wideOracles (h : 2 ≤ maxDepth) (depth : ℕ) (s : State) :
    runLevel wideOracles maxDepth depth s = runLevel wideOracles 2 depth s := by
  have hcongr : (maxDepth ≤ depth ↔ (2 : ℤ) ≤ depth) ∨ ∀ place query ancestors chunks,
      wideOracles.followUps depth place query ancestors chunks = .ok [] := by
    by_cases hdepth : depth < 2
    · exact Or.inl (by omega)
    · exact Or.inr fun _ _ _ _ => congrArg Except.ok (if_neg hdepth)
  have hresults : results wideOracles maxDepth depth s = results wideOracles 2 depth s :=
    List.map_congr_left fun p _ => processNode_congr hcongr p.2 s.ancestors s.explored p.1
  unfold runLevel
  rw [hresults]

theorem traverse_wideOracles (h : 2 ≤ maxDepth) : ∀ (passes depth : ℕ) (s : State),
    traverse wideOracles maxDepth passes depth s = traverse wideOracles 2 passes depth s
  | 0, _, _ => rfl
  | passes + 1, depth, s => by
    unfold traverse
    rw [runLevel_wideOracles h, traverse_wideOracles h passes]

theorem traversal_wideOracles (h : 2 ≤ maxDepth) :
    traversal wideOracles maxDepth [] [looseChunk 1] =
      traverse wideOracles 2 3 0 (start [] [looseChunk 1]) := by
  have hpasses : (maxDepth + 1).toNat = 3 + (maxDepth - 2).toNat := by omega
  have hend : (traverse wideOracles 2 3 0 (start [] [looseChunk 1])).level = [] := by
    decide +kernel
  unfold traversal
  rw [if_neg (List.cons_ne_nil _ _), hpasses, traverse_wideOracles h, traverse_of_level_nil _ hend]

/-- The four follow-ups of the second level are replaced, and the chunk of the third is lost. -/
theorem not_keeps_wideOracles (h : 2 ≤ maxDepth) :
    ¬ Keeps wideOracles maxDepth [] [looseChunk 1] := by
  rintro ⟨hkeeps, -⟩
  rw [exploreRaw, traversal_wideOracles h] at hkeeps
  have hlost : looseChunk 3 ∈ (traverse wideOracles 2 3 0 (start [] [looseChunk 1])).log.flatMap
      fun v => v.node.chunks := by decide +kernel
  have hreturned : (aggregateChunks (traverse wideOracles 2 3 0
      (start [] [looseChunk 1])).allNodes).map Chunk.truthyId = [some (.int 1), some (.int 2)] := by
    decide +kernel
  obtain ⟨v, hv, hc⟩ := List.mem_flatMap.1 hlost
  obtain ⟨c, hc, hid⟩ := hkeeps.ids _ (Or.inr ⟨v, hv, hc⟩) (.int 3) (by decide)
  have hin := List.mem_map_of_mem (f := Chunk.truthyId) hc
  rw [hreturned, hid] at hin
  exact absurd hin (by decide)

end Depth

/-- What is found is kept exactly if the nodes that are not listed do no harm, and whatever the
answers from outside are exactly if the depth is at most 1. -/
theorem keeps_iff {ε : Type} (oracles : Oracles ε) (maxDepth : ℤ) (rootQuery : Text)
    (initial : List Chunk) :
    (Keeps oracles maxDepth rootQuery initial ↔
      ∀ v ∈ (traversal oracles maxDepth rootQuery initial).log, v.listed = false →
        Harmless initial (traversal oracles maxDepth rootQuery initial).log v) ∧
      ((∀ (answers : Oracles Unit) (query : Text) (chunks : List Chunk),
        Keeps answers maxDepth query chunks) ↔ maxDepth ≤ 1) := by
  refine ⟨keeps_iff_harmless, fun h => ?_, fun h _ _ _ => keeps_of_le_one h⟩
  by_contra hdeep
  exact not_keeps_wideOracles (by omega) (h _ _ _)

/-- A chunk found at depth 2 is lost. -/
theorem third_level_lost : ¬ ∀ (oracles : Oracles Unit) (maxDepth : ℤ) (rootQuery : Text)
    (initial : List Chunk), Keeps oracles maxDepth rootQuery initial := fun h =>
  not_keeps_wideOracles le_rfl (h wideOracles 2 [] [looseChunk 1])

end ChunkHound.BfsExploration
