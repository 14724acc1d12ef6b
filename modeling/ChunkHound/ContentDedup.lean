import ChunkHound.ChunkSplitter
import Mathlib.Data.List.Sort
import Mathlib.Data.Prod.Lex

/-!
# Deduplication of chunk contents

`chunk_deduplication.py` for any kind of chunk it is given, through the four functions by which it
reads one (`Accessors`). Of the chunks whose normalized contents have one hash the best is kept, and
of these a block is dropped when an overlapping definition holds its content and more.

`mem_deduplicateExactContent` says which chunk is kept, and `mem_removeSubstringOverlaps` what a
block is dropped for. No content comes twice, none is lost, and a second run changes nothing
(`deduplicateChunks_once`).

The docstring of `_remove_substring_overlaps` promises as much for blocks inside a structure, but
`_CONCEPT_SPECIFICITY` ranks a structure below a block (`contained_blocks_iff`).
-/

namespace ChunkHound.Cast

open Grouping

/-- `normalize_content`. -/
def normalizeContent (content : Text) : Text := strip (unixLines content)

/-! ## The ranking -/

/-- `_CONCEPT_SPECIFICITY`. -/
def conceptSpecificity : List (String × ℤ) :=
  [("DEFINITION", 4), ("IMPORT", 3), ("COMMENT", 2), ("BLOCK", 1), ("STRUCTURE", 0),
    ("FUNCTION", 4), ("METHOD", 4), ("CLASS", 4), ("INTERFACE", 4), ("STRUCT", 4), ("ENUM", 4),
    ("TYPE_ALIAS", 3), ("CONSTRUCTOR", 3), ("VARIABLE", 3), ("FIELD", 3), ("PROPERTY", 3),
    ("TYPE", 3), ("MACRO", 3), ("NAMESPACE", 3), ("TRAIT", 3), ("KEY_VALUE", 2), ("TABLE", 2),
    ("OBJECT", 2), ("ARRAY", 1)]

/-- `get_chunk_specificity`, of a type by its name in capitals. -/
def specificityOf (typeName : String) : ℤ := (conceptSpecificity.lookup typeName).getD (-1)

/-- The value of a `UniversalConcept`, in capitals. -/
def Concept.typeName : Concept → String
  | .definition => "DEFINITION"
  | .import_ => "IMPORT"
  | .comment => "COMMENT"
  | .block => "BLOCK"
  | .structure_ => "STRUCTURE"

/-- `get_chunk_specificity` of a `UniversalChunk`. -/
def Concept.specificity (concept : Concept) : ℤ := specificityOf concept.typeName

/-- Python's order of pairs. -/
def rankLt (a b : ℤ × ℤ) : Bool := a.1 < b.1 || (a.1 = b.1 && a.2 < b.2)

theorem rankLt_iff {a b : ℤ × ℤ} : rankLt a b = true ↔ toLex a < toLex b := by
  unfold rankLt
  rw [Prod.Lex.lt_iff]
  simp

/-- `_get_chunk_content`, `get_chunk_specificity`, `_get_start_line` and `_get_end_line`. -/
structure Accessors (C : Type) where
  content : C → Text
  specificity : C → ℤ
  startLine : C → ℤ
  endLine : C → ℤ

namespace Accessors

variable {C : Type} (acc : Accessors C)

def normalized (c : C) : Text := normalizeContent (acc.content c)

/-- The key of the best of several chunks. -/
def rank (c : C) : ℤ × ℤ := (acc.specificity c, -(acc.endLine c - acc.startLine c))

/-- `max(chunk_list, key=…)`, the first of the greatest. -/
def bestOf (c : C) (cs : List C) : C :=
  cs.foldl (fun best c => if rankLt (acc.rank best) (acc.rank c) then c else best) c

/-- `_deduplicate_exact_content`. -/
def deduplicateExactContent (hash : Text → ℕ) (chunks : List C) : List C :=
  let nonempty := chunks.filter fun c => acc.normalized c ≠ []
  (groupBy (fun c => hash (acc.normalized c)) nonempty).filterMap fun (_, cs) =>
    match cs with
    | [] => none
    | c :: cs => some (acc.bestOf c cs)

/-- `definitions.sort(key=…)`. -/
def sortByStart (chunks : List C) : List C :=
  chunks.insertionSort fun a b => acc.startLine a ≤ acc.startLine b

/-- `_find_overlapping_chunks`. -/
def findOverlappingChunks (queryStart queryEnd : ℤ) : List C → List C
  | [] => []
  | c :: cs =>
    if acc.endLine c < queryStart then findOverlappingChunks queryStart queryEnd cs
    else if queryEnd < acc.startLine c then []
    else c :: findOverlappingChunks queryStart queryEnd cs

/-- `is_substring`, for a block. -/
def isSubstring (definitions : List C) (block : C) : Bool :=
  (acc.findOverlappingChunks (acc.startLine block) (acc.endLine block) definitions).any
    fun definition => acc.normalized block <:+: acc.normalized definition ∧
      (acc.normalized block).length < (acc.normalized definition).length

/-- The definitions of `_remove_substring_overlaps`. -/
def definitions (chunks : List C) : List C :=
  acc.sortByStart (chunks.filter fun c => 3 ≤ acc.specificity c)

/-- `_remove_substring_overlaps`. -/
def removeSubstringOverlaps (chunks : List C) : List C :=
  let blocks := chunks.filter fun c => acc.specificity c = 1
  let other := chunks.filter fun c => acc.specificity c ≠ 1 ∧ acc.specificity c < 3
  other ++ acc.definitions chunks ++
    blocks.filter fun block => !acc.isSubstring (acc.definitions chunks) block

/-- The languages that keep duplicates. -/
def preserveDuplicates (languageName : String) : Bool :=
  languageName.toLower ∈ ["vue", "vue_template", "haskell"]

/-- `deduplicate_chunks`. -/
def deduplicateChunks (hash : Text → ℕ) (languageName : String) (chunks : List C) : List C :=
  if preserveDuplicates languageName then chunks
  else acc.removeSubstringOverlaps (acc.deduplicateExactContent hash chunks)

/-! ## Exact duplicates -/

section Best

variable {acc}

/-- The best of some chunks : those before are worse, and those after no better. -/
structure IsBest (acc : Accessors C) (before : List C) (c : C) (after : List C) : Prop where
  before_lt : ∀ x ∈ before, toLex (acc.rank x) < toLex (acc.rank c)
  after_le : ∀ x ∈ after, toLex (acc.rank x) ≤ toLex (acc.rank c)

theorem bestOf_concat (c : C) (cs : List C) (x : C) :
    acc.bestOf c (cs ++ [x]) =
      if rankLt (acc.rank (acc.bestOf c cs)) (acc.rank x) then x else acc.bestOf c cs := by
  unfold bestOf
  rw [List.foldl_append]
  rfl

variable (acc) in
theorem exists_isBest (c : C) (cs : List C) :
    ∃ before after, c :: cs = before ++ acc.bestOf c cs :: after ∧
      acc.IsBest before (acc.bestOf c cs) after := by
  induction cs using List.reverseRecOn with
  | nil => exact ⟨[], [], rfl, ⟨List.forall_mem_nil _, List.forall_mem_nil _⟩⟩
  | append_singleton cs x ih =>
    obtain ⟨before, after, hsplit, hbest⟩ := ih
    rw [bestOf_concat, ← List.cons_append, hsplit]
    split
    · rename_i hlt
      rw [rankLt_iff] at hlt
      refine ⟨before ++ acc.bestOf c cs :: after, [], rfl, fun y hy => ?_, List.forall_mem_nil _⟩
      rcases List.mem_append.1 hy with hy | hy
      · exact (hbest.before_lt y hy).trans hlt
      · rcases List.mem_cons.1 hy with rfl | hy
        · exact hlt
        · exact (hbest.after_le y hy).trans_lt hlt
    · rename_i hle
      rw [rankLt_iff, not_lt] at hle
      refine ⟨before, after ++ [x], by simp, hbest.before_lt, fun y hy => ?_⟩
      rcases List.mem_append.1 hy with hy | hy
      · exact hbest.after_le y hy
      · rw [List.mem_singleton.1 hy]
        exact hle

variable (acc) in
theorem bestOf_mem (c : C) (cs : List C) : acc.bestOf c cs ∈ c :: cs := by
  obtain ⟨before, after, hsplit, -⟩ := exists_isBest acc c cs
  rw [hsplit]
  exact List.mem_append_right _ List.mem_cons_self

/-- There is one best chunk. -/
theorem IsBest.unique {before before' after after' : List C} {c c' : C}
    (h : acc.IsBest before c after) (h' : acc.IsBest before' c' after')
    (heq : before ++ c :: after = before' ++ c' :: after') : c = c' := by
  rcases List.append_eq_append_iff.1 heq with ⟨mid, rfl, hmid⟩ | ⟨mid, rfl, hmid⟩
  · cases mid with
    | nil => exact (List.cons.inj hmid).1
    | cons x mid =>
      obtain ⟨rfl, rfl⟩ := List.cons.inj hmid
      have hlt := h'.before_lt c (List.mem_append_right _ List.mem_cons_self)
      have hle := h.after_le c' (List.mem_append_right _ List.mem_cons_self)
      exact absurd hlt (not_lt.2 hle)
  · cases mid with
    | nil => exact (List.cons.inj hmid).1.symm
    | cons x mid =>
      obtain ⟨rfl, rfl⟩ := List.cons.inj hmid
      have hlt := h.before_lt c' (List.mem_append_right _ List.mem_cons_self)
      have hle := h'.after_le c (List.mem_append_right _ List.mem_cons_self)
      exact absurd hlt (not_lt.2 hle)

end Best

section Exact

variable {acc} {hash : Text → ℕ} {chunks : List C} {c : C}

/-- The chunk is not blank and its content has the hash of the content of `c`. -/
def sameContent (acc : Accessors C) (hash : Text → ℕ) (c x : C) : Bool :=
  acc.normalized x ≠ [] ∧ hash (acc.normalized x) = hash (acc.normalized c)

/-- Of the chunks with the hash of its content, the chunk is the first of the greatest rank. -/
def Kept (acc : Accessors C) (hash : Text → ℕ) (chunks : List C) (c : C) : Prop :=
  acc.normalized c ≠ [] ∧ ∃ before after, chunks = before ++ c :: after ∧
    acc.IsBest (before.filter (acc.sameContent hash c)) c (after.filter (acc.sameContent hash c))

theorem filter_eq_append_cons_iff {p : C → Bool} {l before after : List C} {x : C}
    (h : l.filter p = before ++ x :: after) : ∃ before' after', l = before' ++ x :: after' ∧
      before'.filter p = before ∧ after'.filter p = after := by
  obtain ⟨l₁, l₂, rfl, hbefore, hrest⟩ := List.filter_eq_append_iff.1 h
  obtain ⟨l₃, l₄, rfl, hnone, -, hafter⟩ := List.filter_eq_cons_iff.1 hrest
  refine ⟨l₁ ++ l₃, l₄, by simp, ?_, hafter⟩
  rw [List.filter_append, hbefore, List.filter_eq_nil_iff.2 hnone, List.append_nil]

/-- The group of a chunk. -/
theorem group_eq {g : ℕ × List C}
    (hg : g ∈ groupBy (fun c => hash (acc.normalized c))
      (chunks.filter fun c => acc.normalized c ≠ [])) (hc : c ∈ g.2) :
    acc.normalized c ≠ [] ∧ hash (acc.normalized c) = g.1 ∧
      g.2 = chunks.filter (acc.sameContent hash c) := by
  have hgroup := eq_filter_of_mem_groupBy _ hg
  rw [hgroup, List.mem_filter, List.mem_filter, decide_eq_true_eq, decide_eq_true_eq] at hc
  refine ⟨hc.1.2, hc.2, ?_⟩
  rw [hgroup, List.filter_filter]
  refine List.filter_congr fun x _ => ?_
  unfold sameContent
  rw [hc.2, Bool.decide_and, Bool.and_comm]

/-- Exact deduplication keeps the best chunk of every content. -/
theorem mem_deduplicateExactContent :
    c ∈ acc.deduplicateExactContent hash chunks ↔ acc.Kept hash chunks c := by
  unfold deduplicateExactContent Kept
  simp only [List.mem_filterMap]
  constructor
  · rintro ⟨g, hg, hbest⟩
    split at hbest
    · cases hbest
    · rename_i first rest hgroup
      obtain rfl := Option.some.inj hbest
      obtain ⟨before, after, hsplit, hisBest⟩ := exists_isBest acc first rest
      have hmem : acc.bestOf first rest ∈ g.2 := hgroup ▸ bestOf_mem acc first rest
      obtain ⟨hne, -, hfilter⟩ := group_eq hg hmem
      rw [hgroup, hsplit] at hfilter
      obtain ⟨before', after', hchunks, rfl, rfl⟩ := filter_eq_append_cons_iff hfilter.symm
      exact ⟨hne, before', after', hchunks, hisBest⟩
  · rintro ⟨hne, before, after, hchunks, hisBest⟩
    have hmem : c ∈ chunks.filter fun c => acc.normalized c ≠ [] := by
      rw [List.mem_filter, hchunks, decide_eq_true_eq]
      exact ⟨List.mem_append_right _ List.mem_cons_self, hne⟩
    obtain ⟨g, hg, hc⟩ := exists_mem_groupBy (fun c => hash (acc.normalized c)) hmem
    refine ⟨g, hg, ?_⟩
    obtain ⟨-, -, hfilter⟩ := group_eq hg hc
    have hself : acc.sameContent hash c c = true := by simp [sameContent, hne]
    rw [hchunks, List.filter_append, List.filter_cons_of_pos hself] at hfilter
    split
    · rename_i hnil
      rw [hnil] at hc
      cases hc
    · rename_i first rest hgroup
      obtain ⟨before', after', hsplit, hisBest'⟩ := exists_isBest acc first rest
      rw [hgroup, hsplit] at hfilter
      rw [hisBest'.unique hisBest hfilter]

/-- Every kept content has a hash of its own. -/
theorem deduplicateExactContent_nodup :
    ((acc.deduplicateExactContent hash chunks).map fun c => hash (acc.normalized c)).Nodup := by
  refine (nodup_keysOf_groupBy _ _).sublist (map_filterMap_sublist ?_)
  rintro ⟨k, _ | ⟨first, rest⟩⟩ hg c hbest
  · cases hbest
  · obtain rfl := Option.some.inj hbest
    exact (group_eq hg (bestOf_mem acc first rest)).2.1

/-- Contents that all have hashes of their own are kept as they are. -/
theorem deduplicateExactContent_eq_self (hne : ∀ c ∈ chunks, acc.normalized c ≠ [])
    (hnodup : (chunks.map fun c => hash (acc.normalized c)).Nodup) :
    acc.deduplicateExactContent hash chunks = chunks := by
  unfold deduplicateExactContent
  have hall : chunks.filter (fun c => acc.normalized c ≠ []) = chunks :=
    List.filter_eq_self.2 fun c hc => decide_eq_true (hne c hc)
  simp only [hall]
  rw [groupBy_of_nodup _ hnodup, List.filterMap_map]
  exact List.filterMap_some

end Exact

/-! ## Contained blocks -/

section Contained

variable {acc} {chunks : List C} {c d block : C}

/-- `definition` shares a line with `block`, and holds its content and more. -/
structure Holds (acc : Accessors C) (definition block : C) : Prop where
  first : acc.startLine definition ≤ acc.endLine block
  last : acc.startLine block ≤ acc.endLine definition
  content : acc.normalized block <:+: acc.normalized definition
  more : (acc.normalized block).length < (acc.normalized definition).length

variable (acc) in
theorem sortByStart_pairwise (chunks : List C) :
    (acc.sortByStart chunks).Pairwise fun a b => acc.startLine a ≤ acc.startLine b := by
  have : IsTrans C fun a b => acc.startLine a ≤ acc.startLine b := ⟨fun _ _ _ => le_trans⟩
  have : Std.Total fun a b : C => acc.startLine a ≤ acc.startLine b :=
    ⟨fun a b => le_total (acc.startLine a) (acc.startLine b)⟩
  exact List.pairwise_insertionSort _ chunks

/-- The chunk neither ends before the query starts nor starts after it ends. -/
def touches (acc : Accessors C) (queryStart queryEnd : ℤ) (c : C) : Bool :=
  queryStart ≤ acc.endLine c ∧ acc.startLine c ≤ queryEnd

/-- The sweep stops at the first chunk that starts after the lines, as all later ones do. -/
theorem findOverlappingChunks_eq (queryStart queryEnd : ℤ) : ∀ {chunks : List C},
    chunks.Pairwise (fun a b => acc.startLine a ≤ acc.startLine b) →
      acc.findOverlappingChunks queryStart queryEnd chunks =
        chunks.filter (acc.touches queryStart queryEnd)
  | [], _ => rfl
  | x :: xs, h => by
    obtain ⟨hx, hxs⟩ := List.pairwise_cons.1 h
    have ih := findOverlappingChunks_eq queryStart queryEnd hxs
    unfold findOverlappingChunks
    split
    · rename_i hbefore
      have hnot : acc.touches queryStart queryEnd x = false := by
        simp [touches, hbefore]
      rw [ih, List.filter_cons_of_neg (by simp [hnot])]
    · rename_i hbefore
      split
      · rename_i hafter
        refine (List.filter_eq_nil_iff.2 fun y hy => ?_).symm
        have hle : acc.startLine x ≤ acc.startLine y := by
          rcases List.mem_cons.1 hy with rfl | hy
          · exact le_rfl
          · exact hx y hy
        have hlate : queryEnd < acc.startLine y := hafter.trans_le hle
        simp [touches, hlate]
      · rename_i hafter
        have hin : acc.touches queryStart queryEnd x = true :=
          decide_eq_true ⟨not_lt.1 hbefore, not_lt.1 hafter⟩
        rw [ih, List.filter_cons_of_pos hin]

theorem mem_findOverlappingChunks (queryStart queryEnd : ℤ)
    (h : chunks.Pairwise fun a b => acc.startLine a ≤ acc.startLine b) :
    c ∈ acc.findOverlappingChunks queryStart queryEnd chunks ↔
      c ∈ chunks ∧ queryStart ≤ acc.endLine c ∧ acc.startLine c ≤ queryEnd := by
  rw [findOverlappingChunks_eq queryStart queryEnd h, List.mem_filter, touches, decide_eq_true_eq]

/-- Some line is in the line ranges of both chunks. -/
def SharesLine (acc : Accessors C) (c d : C) : Prop :=
  ∃ line, (acc.startLine c ≤ line ∧ line ≤ acc.endLine c) ∧
    acc.startLine d ≤ line ∧ line ≤ acc.endLine d

theorem touches_iff_sharesLine (hc : acc.startLine c ≤ acc.endLine c)
    (hd : acc.startLine d ≤ acc.endLine d) :
    acc.touches (acc.startLine c) (acc.endLine c) d = true ↔ acc.SharesLine c d := by
  rw [touches, decide_eq_true_eq]
  constructor
  · rintro ⟨hlast, hfirst⟩
    -- the later of the two first lines is in both ranges
    exact ⟨max (acc.startLine c) (acc.startLine d), ⟨le_max_left _ _, max_le hc hfirst⟩,
      le_max_right _ _, max_le hlast hd⟩
  · rintro ⟨line, ⟨hstart, hend⟩, hstart', hend'⟩
    exact ⟨hstart.trans hend', hstart'.trans hend⟩

/-- A chunk of the sorted list finds itself in its place, and around it exactly the other chunks
that do not end before it starts nor start after it ends : those that share a line with it. -/
theorem overlap_search_complete (acc : Accessors C) (chunks before after : List C) (c : C)
    (hsplit : acc.sortByStart chunks = before ++ c :: after) :
    acc.findOverlappingChunks (acc.startLine c) (acc.endLine c) (acc.sortByStart chunks) =
        before.filter (acc.touches (acc.startLine c) (acc.endLine c)) ++
          (if acc.startLine c ≤ acc.endLine c then [c] else []) ++
          after.filter (acc.touches (acc.startLine c) (acc.endLine c)) ∧
      ∀ d ∈ before ++ after, acc.startLine c ≤ acc.endLine c → acc.startLine d ≤ acc.endLine d →
        (acc.touches (acc.startLine c) (acc.endLine c) d = true ↔ acc.SharesLine c d) := by
  refine ⟨?_, fun d _ hc hd => touches_iff_sharesLine hc hd⟩
  rw [findOverlappingChunks_eq _ _ (acc.sortByStart_pairwise chunks), hsplit, List.filter_append]
  by_cases hc : acc.startLine c ≤ acc.endLine c
  · have hself : acc.touches (acc.startLine c) (acc.endLine c) c = true := decide_eq_true ⟨hc, hc⟩
    rw [List.filter_cons_of_pos hself, if_pos hc, List.append_assoc]
    rfl
  · have hself : ¬ acc.touches (acc.startLine c) (acc.endLine c) c = true := by
      simp only [touches, decide_eq_true_eq]
      exact fun h => hc h.1
    rw [List.filter_cons_of_neg hself, if_neg hc, List.append_nil]

theorem mem_definitions : d ∈ acc.definitions chunks ↔ d ∈ chunks ∧ 3 ≤ acc.specificity d := by
  unfold definitions sortByStart
  rw [List.mem_insertionSort, List.mem_filter, decide_eq_true_eq]

theorem isSubstring_iff : acc.isSubstring (acc.definitions chunks) block = true ↔
    ∃ d ∈ chunks, 3 ≤ acc.specificity d ∧ acc.Holds d block := by
  unfold isSubstring
  rw [List.any_eq_true]
  have hsorted : (acc.definitions chunks).Pairwise _ := acc.sortByStart_pairwise _
  simp only [mem_findOverlappingChunks _ _ hsorted, mem_definitions, decide_eq_true_eq]
  constructor
  · rintro ⟨d, ⟨⟨hd, hspec⟩, hlast, hfirst⟩, hcontent, hmore⟩
    exact ⟨d, hd, hspec, hfirst, hlast, hcontent, hmore⟩
  · rintro ⟨d, hd, hspec, hfirst, hlast, hcontent, hmore⟩
    exact ⟨d, ⟨⟨hd, hspec⟩, hlast, hfirst⟩, hcontent, hmore⟩

/-- The chunk is no block, or no definition holds it. -/
def stays (acc : Accessors C) (chunks : List C) (c : C) : Bool :=
  acc.specificity c ≠ 1 || !acc.isSubstring (acc.definitions chunks) c

/-- What is returned are the chunks that stay, in another order. -/
theorem removeSubstringOverlaps_perm :
    (acc.removeSubstringOverlaps chunks).Perm (chunks.filter (acc.stays chunks)) := by
  unfold removeSubstringOverlaps
  have hsort : (acc.definitions chunks).Perm (chunks.filter fun c => 3 ≤ acc.specificity c) :=
    List.perm_insertionSort _ _
  have hkept := filter_append_filter_perm
    (p := fun c => acc.specificity c ≠ 1 ∧ acc.specificity c < 3)
    (q := fun c => 3 ≤ acc.specificity c) chunks (by simp)
  have hall := filter_append_filter_perm
    (p := fun c => decide (acc.specificity c ≠ 1 ∧ acc.specificity c < 3) ||
      decide (3 ≤ acc.specificity c))
    (q := fun c => !acc.isSubstring (acc.definitions chunks) c && acc.specificity c = 1) chunks
    (by simp; omega)
  simp only [List.filter_filter]
  refine (((hsort.append_left _).trans hkept).append_right _).trans (hall.trans ?_)
  refine List.Perm.of_eq (List.filter_congr fun c _ => ?_)
  unfold stays
  by_cases hblock : acc.specificity c = 1
  · simp [hblock]
  · have hrest : acc.specificity c < 3 ∨ 3 ≤ acc.specificity c := by omega
    simp [hblock, hrest]

theorem mem_removeSubstringOverlaps : c ∈ acc.removeSubstringOverlaps chunks ↔ c ∈ chunks ∧
    (acc.specificity c = 1 → ∀ d ∈ chunks, 3 ≤ acc.specificity d → ¬ acc.Holds d c) := by
  rw [removeSubstringOverlaps_perm.mem_iff, List.mem_filter, stays]
  have hiff : acc.isSubstring (acc.definitions chunks) c = true ↔ _ := isSubstring_iff
  by_cases hblock : acc.specificity c = 1
  · cases hsub : acc.isSubstring (acc.definitions chunks) c with
    | true =>
      rw [hsub] at hiff
      obtain ⟨d, hd, hspec, hholds⟩ := hiff.1 rfl
      simp only [hblock, ne_eq, not_true_eq_false, decide_false, Bool.not_true, Bool.or_false,
        Bool.false_eq_true, and_false, false_iff, not_and, true_implies]
      exact fun _ h => h d hd hspec hholds
    | false =>
      rw [hsub] at hiff
      simp only [Bool.not_false, Bool.or_true, and_true, hblock, true_implies, iff_self_and]
      exact fun _ d hd hspec hholds => Bool.false_ne_true (hiff.2 ⟨d, hd, hspec, hholds⟩)
  · simp [hblock]

theorem filter_none {p : C → Bool} {l : List C} (h : ∀ x ∈ l, p x = false) : l.filter p = [] :=
  List.filter_eq_nil_iff.2 fun x hx => Bool.not_eq_true (p x) ▸ h x hx

/-- Chunks that are in the order of the result, with no block to drop, are left as they are. -/
theorem removeSubstringOverlaps_eq_self {other definitions blocks : List C}
    (hother : ∀ x ∈ other, acc.specificity x ≠ 1 ∧ acc.specificity x < 3)
    (hdefinitions : ∀ x ∈ definitions, 3 ≤ acc.specificity x)
    (hsorted : definitions.Pairwise fun a b => acc.startLine a ≤ acc.startLine b)
    (hblocks : ∀ x ∈ blocks, acc.specificity x = 1 ∧ acc.isSubstring definitions x = false) :
    acc.removeSubstringOverlaps (other ++ definitions ++ blocks) =
      other ++ definitions ++ blocks := by
  have hd : acc.definitions (other ++ definitions ++ blocks) = definitions := by
    have hfilter : (other ++ definitions ++ blocks).filter (fun c => 3 ≤ acc.specificity c) =
        definitions := by
      rw [List.filter_append, List.filter_append,
        filter_none fun x hx => decide_eq_false (not_le.2 (hother x hx).2),
        List.filter_eq_self.2 fun x hx => decide_eq_true (hdefinitions x hx),
        filter_none fun x hx => decide_eq_false (by rw [(hblocks x hx).1]; decide),
        List.nil_append, List.append_nil]
    unfold Accessors.definitions
    rw [hfilter]
    exact hsorted.insertionSort_eq
  have hb : (other ++ definitions ++ blocks).filter (fun c => acc.specificity c = 1) = blocks := by
    rw [List.filter_append, List.filter_append,
      filter_none fun x hx => decide_eq_false (hother x hx).1,
      filter_none fun x hx => decide_eq_false (by have := hdefinitions x hx; omega),
      List.filter_eq_self.2 fun x hx => decide_eq_true (hblocks x hx).1, List.nil_append,
      List.nil_append]
  have ho : (other ++ definitions ++ blocks).filter
      (fun c => acc.specificity c ≠ 1 ∧ acc.specificity c < 3) = other := by
    rw [List.filter_append, List.filter_append,
      List.filter_eq_self.2 fun x hx => decide_eq_true (hother x hx),
      filter_none fun x hx => decide_eq_false (by have := hdefinitions x hx; omega),
      filter_none fun x hx => decide_eq_false (by rw [(hblocks x hx).1]; simp), List.append_nil,
      List.append_nil]
  unfold removeSubstringOverlaps
  simp only [hd, hb, ho]
  rw [List.filter_eq_self.2 fun x hx => by rw [(hblocks x hx).2]; rfl]

/-- A second run finds the definitions sorted and no block to drop. -/
theorem removeSubstringOverlaps_idem : acc.removeSubstringOverlaps
    (acc.removeSubstringOverlaps chunks) = acc.removeSubstringOverlaps chunks := by
  refine removeSubstringOverlaps_eq_self (fun x hx => ?_)
    (fun x hx => (mem_definitions.1 hx).2) (acc.sortByStart_pairwise _) fun x hx => ?_
  · rw [List.mem_filter, decide_eq_true_eq] at hx
    exact hx.2
  · rw [List.mem_filter, List.mem_filter, decide_eq_true_eq, Bool.not_eq_true'] at hx
    exact ⟨hx.1.2, hx.2⟩

end Contained

/-! ## Both stages -/

section Both

variable {acc} {hash : Text → ℕ} {chunks : List C} {c : C}

/-- The hashes of the normalized contents tell them apart, blank ones aside. -/
def NoCollision (acc : Accessors C) (hash : Text → ℕ) (chunks : List C) : Prop :=
  ∀ c ∈ chunks, ∀ c' ∈ chunks, acc.normalized c ≠ [] → acc.normalized c' ≠ [] →
    hash (acc.normalized c) = hash (acc.normalized c') → acc.normalized c = acc.normalized c'

/-- Every content that is not blank is kept, by the best chunk with it. -/
theorem exists_kept (hcollision : acc.NoCollision hash chunks) (hc : c ∈ chunks)
    (hne : acc.normalized c ≠ []) : ∃ k ∈ acc.deduplicateExactContent hash chunks,
      acc.normalized k = acc.normalized c := by
  have hmem : c ∈ chunks.filter fun c => acc.normalized c ≠ [] :=
    List.mem_filter.2 ⟨hc, decide_eq_true hne⟩
  obtain ⟨⟨k, cs⟩, hg, hcs⟩ := exists_mem_groupBy (fun c => hash (acc.normalized c)) hmem
  cases cs with
  | nil => cases hcs
  | cons first rest =>
    have hbest := bestOf_mem acc first rest
    refine ⟨acc.bestOf first rest, List.mem_filterMap.2 ⟨_, hg, rfl⟩, ?_⟩
    obtain ⟨-, hkey, -⟩ := group_eq hg hcs
    obtain ⟨hbestNe, hbestKey, hfilter⟩ := group_eq hg hbest
    have hin : acc.bestOf first rest ∈ chunks :=
      (List.mem_filter.1 (Eq.mp (congrArg (acc.bestOf first rest ∈ ·) hfilter) hbest)).1
    exact hcollision _ hin c hc hbestNe hne (hbestKey.trans hkey.symm)

theorem mem_of_mem_deduplicateExactContent (h : c ∈ acc.deduplicateExactContent hash chunks) :
    c ∈ chunks ∧ acc.normalized c ≠ [] := by
  obtain ⟨hne, before, after, rfl, -⟩ := mem_deduplicateExactContent.1 h
  exact ⟨List.mem_append_right _ List.mem_cons_self, hne⟩

theorem mem_of_mem_deduplicateChunks {languageName : String}
    (h : c ∈ acc.deduplicateChunks hash languageName chunks) : c ∈ chunks := by
  rw [deduplicateChunks] at h
  split at h
  · exact h
  · exact (mem_of_mem_deduplicateExactContent (mem_removeSubstringOverlaps.1 h).1).1

/-- Deduplication keeps every content once : the contents returned are distinct, each content
that is not blank is part of one of them, and deduplicating them again changes nothing. -/
theorem deduplicateChunks_once {languageName : String} (acc : Accessors C) (hash : Text → ℕ)
    (chunks : List C) (hlanguage : preserveDuplicates languageName = false)
    (hcollision : acc.NoCollision hash chunks) :
    ((acc.deduplicateChunks hash languageName chunks).map acc.normalized).Nodup ∧
      (∀ c ∈ chunks, acc.normalized c ≠ [] →
        ∃ k ∈ acc.deduplicateChunks hash languageName chunks,
          acc.normalized c <:+: acc.normalized k) ∧
      acc.deduplicateChunks hash languageName (acc.deduplicateChunks hash languageName chunks) =
        acc.deduplicateChunks hash languageName chunks := by
  unfold deduplicateChunks
  simp only [hlanguage, Bool.false_eq_true, if_false]
  have hperm : (acc.removeSubstringOverlaps (acc.deduplicateExactContent hash chunks)).Perm _ :=
    removeSubstringOverlaps_perm
  have hhashes : ((acc.removeSubstringOverlaps (acc.deduplicateExactContent hash chunks)).map
      fun c => hash (acc.normalized c)).Nodup := by
    rw [(hperm.map _).nodup_iff]
    exact deduplicateExactContent_nodup.sublist (List.filter_sublist.map _)
  refine ⟨?_, fun c hc hne => ?_, ?_⟩
  · rw [← Function.comp_def hash, ← List.map_map] at hhashes
    exact hhashes.of_map
  · obtain ⟨k, hk, hcontent⟩ := exists_kept hcollision hc hne
    by_cases hheld : acc.specificity k = 1 ∧ ∃ d ∈ acc.deduplicateExactContent hash chunks,
        3 ≤ acc.specificity d ∧ acc.Holds d k
    · obtain ⟨-, d, hd, hspec, hholds⟩ := hheld
      refine ⟨d, mem_removeSubstringOverlaps.2 ⟨hd, fun hone => ?_⟩, hcontent ▸ hholds.content⟩
      omega
    · refine ⟨k, mem_removeSubstringOverlaps.2 ⟨hk, fun hone d hd hspec hholds => ?_⟩,
        hcontent ▸ List.infix_rfl⟩
      exact hheld ⟨hone, d, hd, hspec, hholds⟩
  · rw [deduplicateExactContent_eq_self (fun c hc => ?_) hhashes, removeSubstringOverlaps_idem]
    exact (mem_of_mem_deduplicateExactContent (mem_removeSubstringOverlaps.1 hc).1).2

end Both

/-! ## Chunks of the parsers -/

/-- How a `UniversalChunk` is read. -/
def universal : Accessors UniversalChunk where
  content c := c.content
  specificity c := c.concept.specificity
  startLine c := c.startLine
  endLine c := c.endLine

/-- A long definition with a short one inside it and one after it. -/
def nestedDefinitions : List UniversalChunk :=
  [⟨.definition, "f", "a".toList, 1, 9, ⟨false, none, none, none⟩, "function"⟩,
    ⟨.definition, "g", "b".toList, 2, 3, ⟨false, none, none, none⟩, "function"⟩,
    ⟨.definition, "h", "c".toList, 5, 6, ⟨false, none, none, none⟩, "function"⟩]

theorem overlap_search_complete_nested :
    universal.findOverlappingChunks 5 6 (universal.sortByStart nestedDefinitions) =
      (nestedDefinitions.take 2).filter (universal.touches 5 6) ++ nestedDefinitions.drop 2 := by
  refine (overlap_search_complete universal nestedDefinitions (nestedDefinitions.take 2) []
    ⟨.definition, "h", "c".toList, 5, 6, ⟨false, none, none, none⟩, "function"⟩
    (by decide +kernel)).1

/-- A chunk finds itself. -/
theorem query_finds_itself :
    ¬ ∀ (chunks before after : List UniversalChunk) (c : UniversalChunk),
      universal.sortByStart chunks = before ++ c :: after → ∀ d,
        d ∈ universal.findOverlappingChunks (universal.startLine c) (universal.endLine c)
            (universal.sortByStart chunks) ↔
          d ∈ before ++ after ∧ universal.SharesLine c d := by
  intro h
  have hself := h (nestedDefinitions.take 1) [] []
    ⟨.definition, "f", "a".toList, 1, 9, ⟨false, none, none, none⟩, "function"⟩
    (by decide +kernel) ⟨.definition, "f", "a".toList, 1, 9, ⟨false, none, none, none⟩, "function"⟩
  exact absurd (hself.1 (by decide +kernel)).1 List.not_mem_nil

end Accessors

open Accessors

/-- `deduplicate_chunks`, of the chunks of a parser. -/
def deduplicateChunks (hash : Text → ℕ) (languageName : String) (chunks : List UniversalChunk) :
    List UniversalChunk :=
  universal.deduplicateChunks hash languageName chunks

/-- A block, and a definition that holds it. -/
def definedBlock : List UniversalChunk :=
  [⟨.block, "b", "a".toList, 2, 2, ⟨false, none, none, none⟩, "block"⟩,
    ⟨.definition, "f", "x a y".toList, 1, 3, ⟨false, none, none, none⟩, "function"⟩]

theorem deduplicateChunks_once_definedBlock :
    ((universal.deduplicateChunks List.length "python" definedBlock).map
      universal.normalized).Nodup :=
  (deduplicateChunks_once universal List.length definedBlock (by decide +kernel)
    (by unfold NoCollision; decide +kernel)).1

/-! ## Blocks inside definitions and structures -/

section Blocks

variable {hash : Text → ℕ} {languageName : String} {chunks : List UniversalChunk}
  {b c : UniversalChunk}

/-- A block whose content is in that of a definition or a structure that shares a line with it. -/
def Contained (chunks : List UniversalChunk) (b : UniversalChunk) : Prop :=
  b.concept = .block ∧ ∃ d ∈ chunks, (d.concept = .definition ∨ d.concept = .structure_) ∧
    d.startLine ≤ b.endLine ∧ b.startLine ≤ d.endLine ∧
    normalizeContent b.content <:+: normalizeContent d.content

theorem Concept.specificity_eq_one {concept : Concept} :
    concept.specificity = 1 ↔ concept = .block := by
  cases concept <;> decide

/-- What is returned : the chunk is the best of its content, and no definition that is kept holds
it if it is a block. -/
theorem mem_deduplicateChunks (hlanguage : preserveDuplicates languageName = false) :
    c ∈ deduplicateChunks hash languageName chunks ↔ universal.Kept hash chunks c ∧
      (c.concept = .block → ∀ d, universal.Kept hash chunks d → 3 ≤ d.concept.specificity →
        ¬ universal.Holds d c) := by
  have hone : universal.specificity c = 1 ↔ c.concept = .block := Concept.specificity_eq_one
  rw [deduplicateChunks, Accessors.deduplicateChunks, hlanguage]
  simp only [Bool.false_eq_true, if_false]
  rw [mem_removeSubstringOverlaps]
  simp only [mem_deduplicateExactContent, hone]
  rfl

/-- Only blocks are removed for what holds them, and a definition that does is returned. -/
theorem removed_by_container (hkept : universal.Kept hash chunks c)
    (hremoved : c ∉ deduplicateChunks hash languageName chunks) :
    ∃ d ∈ deduplicateChunks hash languageName chunks, universal.Holds d c ∧
      c.concept.specificity < d.concept.specificity := by
  cases hlanguage : preserveDuplicates languageName with
  | true =>
    obtain ⟨-, before, after, rfl, -⟩ := hkept
    rw [deduplicateChunks, Accessors.deduplicateChunks, if_pos hlanguage] at hremoved
    exact absurd (List.mem_append_right _ List.mem_cons_self) hremoved
  | false =>
    simp only [mem_deduplicateChunks hlanguage, hkept, true_and, not_forall, not_not] at hremoved ⊢
    obtain ⟨hblock, d, hd, hspec, hholds⟩ := hremoved
    refine ⟨d, ⟨hd, fun hdblock => ?_⟩, hholds, ?_⟩
    · have hlow : d.concept.specificity = 1 := Concept.specificity_eq_one.2 hdblock
      omega
    · have hlow : c.concept.specificity = 1 := Concept.specificity_eq_one.2 hblock
      omega

/-- Contained blocks are removed exactly when each is not the best chunk of its content, or held by
a definition that is the best of its own; and a chunk is removed for being contained by a chunk
that holds it and is more specific. -/
theorem contained_blocks_iff (hash : Text → ℕ) (languageName : String)
    (chunks : List UniversalChunk) :
    ((∀ b ∈ chunks, Contained chunks b → b ∉ deduplicateChunks hash languageName chunks) ∧
        ∀ c, universal.Kept hash chunks c → c ∉ deduplicateChunks hash languageName chunks →
          ∃ d ∈ deduplicateChunks hash languageName chunks, universal.Holds d c ∧
            c.concept.specificity < d.concept.specificity) ↔
      ∀ b ∈ chunks, Contained chunks b → preserveDuplicates languageName = false ∧
        (universal.Kept hash chunks b → ∃ d, universal.Kept hash chunks d ∧
          3 ≤ d.concept.specificity ∧ universal.Holds d b) := by
  rw [and_iff_left fun c hkept hremoved => removed_by_container hkept hremoved]
  refine forall₂_congr fun b hb => forall_congr' fun hcontained => ?_
  cases hlanguage : preserveDuplicates languageName with
  | true =>
    rw [deduplicateChunks, Accessors.deduplicateChunks, if_pos hlanguage]
    simp [hb]
  | false =>
    rw [mem_deduplicateChunks hlanguage]
    simp only [hcontained.1, true_implies, true_and, not_and, not_forall, not_not]
    exact forall_congr' fun _ => exists_congr fun d => by
      constructor
      · rintro ⟨hd, hspec, hholds⟩
        exact ⟨hd, hspec, hholds⟩
      · rintro ⟨hd, hspec, hholds⟩
        exact ⟨hd, hspec, hholds⟩

/-- A block, and a structure that holds it. -/
def structuredBlock : List UniversalChunk :=
  [⟨.block, "b", "a".toList, 2, 2, ⟨false, none, none, none⟩, "block"⟩,
    ⟨.structure_, "s", "x a y".toList, 1, 3, ⟨false, none, none, none⟩, "class"⟩]

/-- The block is returned. -/
theorem structured_block_stays :
    ¬ ∀ (hash : Text → ℕ) (languageName : String) (chunks : List UniversalChunk),
      (∀ b ∈ chunks, Contained chunks b → b ∉ deduplicateChunks hash languageName chunks) ∧
        ∀ c, universal.Kept hash chunks c → c ∉ deduplicateChunks hash languageName chunks →
          ∃ d ∈ deduplicateChunks hash languageName chunks, universal.Holds d c ∧
            c.concept.specificity < d.concept.specificity := fun h =>
  absurd ((h List.length "python" structuredBlock).1 _ List.mem_cons_self
    (by unfold Contained; decide +kernel)) (by decide +kernel)

end Blocks

end ChunkHound.Cast
