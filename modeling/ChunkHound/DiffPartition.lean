import ChunkHound.ChunkDiff

/-!
# What a diff of chunks accounts for

`diff_chunks` matches contents, not chunks. The stored chunks are shared out between the
deleted and the unchanged ones (`stored_perm`), and the added chunks are new ones. A content
both sides have keeps all its stored chunks, however many new chunks have it, so the contents
of the unchanged and the added chunks are those of the new ones exactly when every such
content is on both sides equally often (`diffChunks_accounts_iff`).
-/

namespace ChunkHound

open Grouping

/-- The unchanged chunks are the stored ones whose content a new chunk has, in some order. -/
theorem unchanged_perm (order : IterationOrder) (new existing : List Chunk) :
    (diffChunks order new existing).unchanged.Perm
      (existing.filter fun c => hasContent new (normalizedCode c)) := by
  refine (chunksOf_perm order existing ((nodup_keysOf_groupBy normalizedCode existing).filter
    (· ∈ keysOf (groupBy normalizedCode new)))).trans
    (List.Perm.of_eq (List.filter_congr fun c hc => ?_))
  have hex : hasContent existing (normalizedCode c) = true := hasContent_iff.2 ⟨c, hc, rfl⟩
  simp [mem_keysOf_iff, hex]

/-- The deleted chunks are the stored ones whose content no new chunk has, in some order. -/
theorem deleted_perm (order : IterationOrder) (new existing : List Chunk) :
    (diffChunks order new existing).deleted.Perm
      (existing.filter fun c => !hasContent new (normalizedCode c)) := by
  refine (chunksOf_perm order existing ((nodup_keysOf_groupBy normalizedCode existing).filter
    (· ∉ keysOf (groupBy normalizedCode new)))).trans
    (List.Perm.of_eq (List.filter_congr fun c hc => ?_))
  have hex : hasContent existing (normalizedCode c) = true := hasContent_iff.2 ⟨c, hc, rfl⟩
  simp [mem_keysOf_iff, hex]

/-- Every stored chunk is deleted or unchanged, once. -/
theorem stored_perm (order : IterationOrder) (new existing : List Chunk) :
    ((diffChunks order new existing).deleted ++
      (diffChunks order new existing).unchanged).Perm existing := by
  refine ((deleted_perm order new existing).append (unchanged_perm order new existing)).trans ?_
  exact List.perm_append_comm.trans (List.filter_append_perm _ existing)

theorem mem_unchanged {order : IterationOrder} {new existing : List Chunk} {c : Chunk} :
    c ∈ (diffChunks order new existing).unchanged ↔
      c ∈ existing ∧ hasContent new (normalizedCode c) = true := by
  rw [(unchanged_perm order new existing).mem_iff, List.mem_filter]

/-- How many chunks of a list have a content. -/
def contentCount (chunks : List Chunk) (content : String) : ℕ :=
  (chunks.map normalizedCode).count content

theorem hasContent_eq_true_iff (chunks : List Chunk) (content : String) :
    hasContent chunks content = true ↔ 0 < contentCount chunks content := by
  rw [hasContent_iff, contentCount, List.count_pos_iff, List.mem_map]

/-- Keeping chunks by their content keeps all that have a content, or none. -/
theorem contentCount_filter (p : String → Bool) (chunks : List Chunk) (content : String) :
    contentCount (chunks.filter fun c => p (normalizedCode c)) content =
      if p content then contentCount chunks content else 0 := by
  unfold contentCount
  have hmap : (chunks.filter fun c => p (normalizedCode c)).map normalizedCode =
      (chunks.map normalizedCode).filter p := by
    rw [List.filter_map]
    rfl
  rw [hmap]
  split
  · rename_i hp
    exact List.count_filter hp
  · rename_i hp
    refine List.count_eq_zero.2 fun hmem => hp ?_
    exact (List.mem_filter.1 hmem).2

/-- A content that both sides have is counted as often as it is stored, one that only the new
chunks have as often as it is new. -/
theorem contentCount_kept (order : IterationOrder) (new existing : List Chunk)
    (content : String) :
    contentCount ((diffChunks order new existing).unchanged ++
        (diffChunks order new existing).added) content =
      if hasContent new content && hasContent existing content
      then contentCount existing content else contentCount new content := by
  have hkept := ((unchanged_perm order new existing).append
    (added_perm order new existing)).map normalizedCode
  have hunchanged := contentCount_filter (hasContent new) existing content
  have hadded := contentCount_filter (fun k => !hasContent existing k) new content
  have hnew := hasContent_eq_true_iff new content
  have hexisting := hasContent_eq_true_iff existing content
  have hcount : contentCount ((diffChunks order new existing).unchanged ++
        (diffChunks order new existing).added) content =
      contentCount (existing.filter fun c => hasContent new (normalizedCode c)) content +
        contentCount (new.filter fun c => !hasContent existing (normalizedCode c)) content := by
    unfold contentCount
    rw [hkept.count_eq, List.map_append, List.count_append]
  rw [hcount, hunchanged, hadded]
  cases hn : hasContent new content <;> cases he : hasContent existing content <;>
    simp [hn, he] at hnew hexisting ⊢ <;> omega

/-- The diff accounts for both lists : the stored chunks are deleted or unchanged, with the
ids they have, the added chunks are new ones, and the contents of what is kept and added are
those of the new chunks. -/
structure Accounts (new existing : List Chunk) (diff : ChunkDiff) : Prop where
  stored : (diff.deleted ++ diff.unchanged).Perm existing
  disjoint : ∀ c ∈ diff.deleted, c ∉ diff.unchanged
  keepsIds : (diff.unchanged.map Chunk.id).Subperm (existing.map Chunk.id)
  added : diff.added.Subperm new
  contents : ((diff.unchanged ++ diff.added).map normalizedCode).Perm (new.map normalizedCode)

theorem diffChunks_accounts_iff (order : IterationOrder) (new existing : List Chunk) :
    Accounts new existing (diffChunks order new existing) ↔
      ∀ content, hasContent new content = true → hasContent existing content = true →
        contentCount new content = contentCount existing content := by
  constructor
  · intro h content hn he
    have hcount := contentCount_kept order new existing content
    rw [hn, he, Bool.and_self, if_pos rfl] at hcount
    rw [← hcount]
    exact (h.contents.count_eq content).symm
  · intro h
    refine ⟨stored_perm order new existing, ?_, ?_, ?_, ?_⟩
    · intro c hdeleted hunchanged
      have hnone := (mem_deleted.1 hdeleted).2
      rw [(mem_unchanged.1 hunchanged).2] at hnone
      contradiction
    · have hstored := (stored_perm order new existing).map Chunk.id
      rw [List.map_append] at hstored
      exact (List.sublist_append_right _ _).subperm.trans hstored.subperm
    · exact (added_perm order new existing).subperm.trans List.filter_sublist.subperm
    · refine List.perm_iff_count.2 fun content => ?_
      refine (contentCount_kept order new existing content).trans ?_
      split
      · rename_i hboth
        obtain ⟨hn, he⟩ := Bool.and_eq_true_iff.1 hboth
        exact (h content hn he).symm
      · rfl

/-- The function `f`, as it is parsed or, with an id, as it is stored. -/
def chunkOfF (id : Option ℕ) (startLine : ℤ) (h : 1 ≤ startLine) : Chunk where
  id := id
  fileId := 1
  filePath := some "a.py"
  symbol := some "f"
  startLine := startLine
  endLine := startLine + 1
  code := "def f():\n    pass"
  chunkType := .function
  language := "python"
  startByte := none
  endByte := none
  metadata := none
  lines_ok := ⟨h, by omega⟩

def storedOnce : List Chunk := [chunkOfF (some 1) 1 (by decide)]

def parsedTwice : List Chunk := [chunkOfF none 1 (by decide), chunkOfF none 4 (by decide)]

/-- `f` is stored once and parsed twice : the second copy is not accounted for. -/
theorem not_accounts_repeated :
    ¬Accounts parsedTwice storedOnce
      (diffChunks ⟨id, fun _ => .refl _⟩ parsedTwice storedOnce) := by
  intro h
  have hcount := (contentCount_kept _ _ _ _).symm.trans
    (h.contents.count_eq (normalizedCode (chunkOfF none 1 (by decide))))
  simp [hasContent, contentCount, normalizedCode, chunkOfF, parsedTwice, storedOnce] at hcount

end ChunkHound
