import ChunkHound.Paging
import ChunkHound.Ranking
import Mathlib.Algebra.Order.Field.Basic
import Mathlib.Algebra.Order.Field.Rat
import Mathlib.Data.List.Dedup
import Mathlib.Data.List.Perm.Subperm
import Mathlib.Data.Rat.Defs
import Mathlib.Tactic.Linarith

/-!
# Hybrid search

`search_hybrid` of `search_service.py` and of `diff_aware_search_service.py` : a semantic and a
regex search each give a window of twice the page size, `combine_search_results` of
`result_enhancer.py` merges the windows by chunk id and ranks what it has, and the page is the top
of it. The next page takes windows that start one page further in either list.

What a page has left out of its windows may be before the next windows, or be shown again. The
pages agree with the combined result, whatever the similarities and the weight, exactly when
everything fits below one page, or the semantic search finds nothing and the last page is not full.
Semantic results alone have consistent pages where the most similar come first and the last page is
not full (`hybrid_consistent_iff`).

Scores are rational. Every result has an id.
-/

set_option linter.unusedSectionVars false

namespace ChunkHound.HybridSearch

open Paging Ranking

variable {κ : Type*}

/-! ## The combined results -/

structure Found (κ : Type*) where
  chunkId : κ
  similarity : Option ℚ
  content : String
  deriving DecidableEq

inductive SearchType
  | semantic
  | regex
  | hybrid
  deriving DecidableEq

structure Combined (κ : Type*) where
  result : Found κ
  searchType : SearchType
  combinedScore : ℚ
  semanticScore : Option ℚ
  regexScore : Option ℚ
  deriving DecidableEq

def Combined.id (c : Combined κ) : κ := c.result.chunkId

/-- `(len(results) - i) / len(results)` -/
def positionScore (n i : ℕ) : ℚ := ((n : ℚ) - i) / n

/-- The entry of a semantic result. -/
def semanticEntry (semanticWeight : ℚ) (n i : ℕ) (r : Found κ) : Combined κ :=
  let similarityScore := r.similarity.getD (1 / 2)
  { result := r
    searchType := .semantic
    combinedScore := (positionScore n i * (3 / 10) + similarityScore * (7 / 10)) * semanticWeight
    semanticScore := some similarityScore
    regexScore := none }

/-- The entry of a result that only the regex search has. -/
def regexEntry (regexWeight : ℚ) (n i : ℕ) (r : Found κ) : Combined κ where
  result := r
  searchType := .regex
  combinedScore := positionScore n i * regexWeight
  semanticScore := none
  regexScore := some (positionScore n i)

/-- The entry of a result that both have. -/
def boost (regexWeight : ℚ) (n i : ℕ) (c : Combined κ) : Combined κ :=
  { c with
    combinedScore := c.combinedScore + positionScore n i * regexWeight
    searchType := .hybrid
    regexScore := some (positionScore n i) }

section Combine

variable [DecidableEq κ]

/-- `combined[chunk_id] = entry` -/
def put (combined : List (Combined κ)) (entry : Combined κ) : List (Combined κ) :=
  if entry.id ∈ combined.map Combined.id then
    combined.map fun c => if c.id = entry.id then entry else c
  else combined ++ [entry]

/-- The loop of the semantic results, of which there are `n`. -/
def addSemantic (semanticWeight : ℚ) (n : ℕ) :
    List (Combined κ) → ℕ → List (Found κ) → List (Combined κ)
  | combined, _, [] => combined
  | combined, i, r :: results =>
    addSemantic semanticWeight n (put combined (semanticEntry semanticWeight n i r)) (i + 1) results

/-- The loop of the regex results. -/
def addRegex (regexWeight : ℚ) (n : ℕ) :
    List (Combined κ) → ℕ → List (Found κ) → List (Combined κ)
  | combined, _, [] => combined
  | combined, i, r :: results =>
    if r.chunkId ∈ combined.map Combined.id then
      addRegex regexWeight n
        (combined.map fun c => if c.id = r.chunkId then boost regexWeight n i c else c) (i + 1)
        results
    else addRegex regexWeight n (combined ++ [regexEntry regexWeight n i r]) (i + 1) results

/-- The dictionary of the combined results. -/
def entries (semanticResults regexResults : List (Found κ)) (semanticWeight : ℚ) :
    List (Combined κ) :=
  addRegex (1 - semanticWeight) regexResults.length
    (addSemantic semanticWeight semanticResults.length [] 0 semanticResults) 0 regexResults

/-- `combine_search_results` -/
def combineSearchResults (semanticResults regexResults : List (Found κ)) (semanticWeight : ℚ)
    (limit : ℕ) : List (Combined κ) :=
  (rank Combined.combinedScore (entries semanticResults regexResults semanticWeight)).take limit

/-- `search_hybrid`, where the two searches find the lists `semantic` and `regex`. A search that is
not made finds nothing. -/
def searchHybrid (semantic regex : List (Found κ)) (semanticWeight : ℚ) (pageSize offset : ℕ) :
    Page (Combined κ) :=
  let combined := combineSearchResults (slice semantic (pageSize * 2) offset)
    (slice regex (pageSize * 2) offset) semanticWeight pageSize
  { items := combined
    hasMore := combined.length = pageSize
    nextOffset := if combined.length = pageSize then some (offset + pageSize) else none }

/-- The ids of a page. -/
def idPage (semantic regex : List (Found κ)) (semanticWeight : ℚ) (pageSize offset : ℕ) : Page κ :=
  let found := searchHybrid semantic regex semanticWeight pageSize offset
  ⟨found.items.map Combined.id, found.hasMore, found.nextOffset⟩

/-- The ids of the deduplicated combined result in score order. -/
def wholeIds (semantic regex : List (Found κ)) (semanticWeight : ℚ) : List κ :=
  (rank Combined.combinedScore (entries semantic regex semanticWeight)).map Combined.id

/-- The pages are disjoint, together the combined result in its order, and say when there are
more. -/
def Consistent (semantic regex : List (Found κ)) (semanticWeight : ℚ) (pageSize : ℕ) : Prop :=
  ∃ pages, Walk (fun _ o => idPage semantic regex semanticWeight pageSize o) 0 0 pages ∧
    pages.flatten = wholeIds semantic regex semanticWeight ∧
    TellsMore pages (wholeIds semantic regex semanticWeight)

/-! ## The dictionary -/

/-- What the semantic loop appends. -/
def semanticEntries (semanticWeight : ℚ) (n : ℕ) : ℕ → List (Found κ) → List (Combined κ)
  | _, [] => []
  | i, r :: results =>
    semanticEntry semanticWeight n i r :: semanticEntries semanticWeight n (i + 1) results

/-- What the regex loop appends, of results that are not there yet. -/
def regexEntries (regexWeight : ℚ) (n : ℕ) : ℕ → List (Found κ) → List (Combined κ)
  | _, [] => []
  | i, r :: results => regexEntry regexWeight n i r :: regexEntries regexWeight n (i + 1) results

@[simp] theorem semanticEntry_id (w : ℚ) (n i : ℕ) (r : Found κ) :
    (semanticEntry w n i r).id = r.chunkId := rfl

@[simp] theorem regexEntry_id (w : ℚ) (n i : ℕ) (r : Found κ) :
    (regexEntry w n i r).id = r.chunkId := rfl

theorem semanticEntries_ids (w : ℚ) (n : ℕ) : ∀ (i : ℕ) (results : List (Found κ)),
    (semanticEntries w n i results).map Combined.id = results.map Found.chunkId
  | _, [] => rfl
  | i, r :: results => by
    rw [semanticEntries, List.map_cons, List.map_cons, semanticEntries_ids w n (i + 1) results]
    rfl

theorem regexEntries_ids (w : ℚ) (n : ℕ) : ∀ (i : ℕ) (results : List (Found κ)),
    (regexEntries w n i results).map Combined.id = results.map Found.chunkId
  | _, [] => rfl
  | i, r :: results => by
    rw [regexEntries, List.map_cons, List.map_cons, regexEntries_ids w n (i + 1) results]
    rfl

theorem addSemantic_eq (w : ℚ) (n : ℕ) : ∀ (i : ℕ) (results : List (Found κ))
    (combined : List (Combined κ)),
    (combined.map Combined.id ++ results.map Found.chunkId).Nodup →
      addSemantic w n combined i results = combined ++ semanticEntries w n i results
  | _, [], combined, _ => by simp [addSemantic, semanticEntries]
  | i, r :: results, combined, hnodup => by
    have hnew : (semanticEntry w n i r).id ∉ combined.map Combined.id := by
      intro hin
      exact (List.nodup_append'.1 hnodup).2.2 hin List.mem_cons_self
    rw [addSemantic, put, if_neg hnew, addSemantic_eq w n (i + 1) results]
    · simp [semanticEntries]
    · simpa using hnodup

theorem addRegex_eq (w : ℚ) (n : ℕ) : ∀ (i : ℕ) (results : List (Found κ))
    (combined : List (Combined κ)),
    (combined.map Combined.id ++ results.map Found.chunkId).Nodup →
      addRegex w n combined i results = combined ++ regexEntries w n i results
  | _, [], combined, _ => by simp [addRegex, regexEntries]
  | i, r :: results, combined, hnodup => by
    have hnew : r.chunkId ∉ combined.map Combined.id := by
      intro hin
      exact (List.nodup_append'.1 hnodup).2.2 hin List.mem_cons_self
    rw [addRegex, if_neg hnew, addRegex_eq w n (i + 1) results]
    · simp [regexEntries]
    · simpa using hnodup

/-- The regex loop keeps the ids that are there, and appends the others. -/
theorem addRegex_ids (w : ℚ) (n : ℕ) : ∀ (i : ℕ) (results : List (Found κ))
    (combined : List (Combined κ)), (results.map Found.chunkId).Nodup →
      (addRegex w n combined i results).map Combined.id = combined.map Combined.id ++
        (results.map Found.chunkId).filter (· ∉ combined.map Combined.id)
  | _, [], combined, _ => by simp [addRegex]
  | i, r :: results, combined, hnodup => by
    obtain ⟨hfirst, hnodup⟩ := List.nodup_cons.1 hnodup
    unfold addRegex
    split
    · rename_i hin
      have hids : (combined.map fun c =>
          if c.id = r.chunkId then boost w n i c else c).map Combined.id =
            combined.map Combined.id := by
        rw [List.map_map]
        refine List.map_congr_left fun c _ => ?_
        simp only [Function.comp_apply]
        split <;> rfl
      rw [addRegex_ids w n (i + 1) results _ hnodup, hids, List.map_cons,
        List.filter_cons_of_neg (by simpa using hin)]
    · rename_i hnot
      rw [addRegex_ids w n (i + 1) results _ hnodup, List.map_append, List.map_cons, List.map_nil,
        List.map_cons, List.filter_cons_of_pos (by simpa using hnot), List.append_assoc]
      congr 1
      rw [List.singleton_append]
      refine congrArg (r.chunkId :: ·) (List.filter_congr fun x hx => ?_)
      have hne : x ≠ r.chunkId := fun h => hfirst (h ▸ hx)
      simp [regexEntry, Combined.id, hne]

/-- Without weight, the regex loop changes no score, and adds entries of score 0. -/
theorem addRegex_zero (n : ℕ) : ∀ (i : ℕ) (results : List (Found κ))
    (combined : List (Combined κ)), ∀ c ∈ addRegex 0 n combined i results,
      (∃ c' ∈ combined, c'.id = c.id ∧ c'.combinedScore = c.combinedScore) ∨
        c.id ∉ combined.map Combined.id ∧ c.combinedScore = 0
  | _, [], combined, c, hc => Or.inl ⟨c, hc, rfl, rfl⟩
  | i, r :: results, combined, c, hc => by
    unfold addRegex at hc
    split at hc
    · have hids : ∀ c : Combined κ,
          (if c.id = r.chunkId then boost 0 n i c else c).id = c.id ∧
            (if c.id = r.chunkId then boost 0 n i c else c).combinedScore = c.combinedScore := by
        intro c
        split
        · exact ⟨rfl, by simp [boost]⟩
        · exact ⟨rfl, rfl⟩
      rcases addRegex_zero n (i + 1) results _ c hc with ⟨c', hc', hid, hscore⟩ | ⟨hnot, hscore⟩
      · obtain ⟨c₀, hc₀, rfl⟩ := List.mem_map.1 hc'
        exact Or.inl ⟨c₀, hc₀, (hids c₀).1.symm.trans hid, (hids c₀).2.symm.trans hscore⟩
      · refine Or.inr ⟨fun hin => hnot ?_, hscore⟩
        obtain ⟨c₀, hc₀, heq⟩ := List.mem_map.1 hin
        exact List.mem_map.2 ⟨_, List.mem_map_of_mem hc₀, (hids c₀).1.trans heq⟩
    · rename_i hnew
      rcases addRegex_zero n (i + 1) results _ c hc with ⟨c', hc', hid, hscore⟩ | ⟨hnot, hscore⟩
      · rcases List.mem_append.1 hc' with hc' | hc'
        · exact Or.inl ⟨c', hc', hid, hscore⟩
        · obtain rfl := List.mem_singleton.1 hc'
          refine Or.inr ⟨hid ▸ hnew, hscore ▸ ?_⟩
          simp [regexEntry]
      · refine Or.inr ⟨fun hin => hnot ?_, hscore⟩
        rw [List.map_append]
        exact List.mem_append_left _ hin

variable {semantic regex : List (Found κ)}

theorem entries_ids (hs : (semantic.map Found.chunkId).Nodup)
    (hr : (regex.map Found.chunkId).Nodup) (w : ℚ) :
    (entries semantic regex w).map Combined.id = semantic.map Found.chunkId ++
      (regex.map Found.chunkId).filter (· ∉ semantic.map Found.chunkId) := by
  rw [entries, addRegex_ids _ _ 0 regex _ hr,
    addSemantic_eq w semantic.length 0 semantic [] (by simpa using hs), List.nil_append,
    semanticEntries_ids]

theorem entries_ids_nodup (hs : (semantic.map Found.chunkId).Nodup)
    (hr : (regex.map Found.chunkId).Nodup) (w : ℚ) :
    ((entries semantic regex w).map Combined.id).Nodup := by
  rw [entries_ids hs hr]
  refine hs.append (hr.filter _) fun x hx hx' => ?_
  have hnot := (List.mem_filter.1 hx').2
  exact absurd hx (by simpa using hnot)

/-- As many entries as there are distinct ids. -/
theorem entries_length (hs : (semantic.map Found.chunkId).Nodup)
    (hr : (regex.map Found.chunkId).Nodup) (w : ℚ) :
    (entries semantic regex w).length =
      (semantic.map Found.chunkId ++ regex.map Found.chunkId).dedup.length := by
  rw [← List.length_map Combined.id]
  refine ((List.perm_ext_iff_of_nodup (entries_ids_nodup hs hr w) (List.nodup_dedup _)).2
    fun x => ?_).length_eq
  rw [entries_ids hs hr, List.mem_dedup]
  simp only [List.mem_append, List.mem_filter, decide_eq_true_eq]
  tauto

/-! ## Scores -/

theorem positionScore_pos {n i : ℕ} (h : i < n) : 0 < positionScore n i := by
  have hi : (i : ℚ) < n := by exact_mod_cast h
  have hn : (0 : ℚ) < n := by exact_mod_cast Nat.lt_of_le_of_lt (Nat.zero_le i) h
  exact div_pos (by linarith) hn

theorem positionScore_le_one {n i : ℕ} (h : i < n) : positionScore n i ≤ 1 := by
  have hi : (0 : ℚ) ≤ i := Nat.cast_nonneg i
  have hn : (0 : ℚ) < n := by exact_mod_cast Nat.lt_of_le_of_lt (Nat.zero_le i) h
  exact (div_le_one hn).2 (by linarith)

theorem positionScore_succ_le (n i : ℕ) : positionScore n (i + 1) ≤ positionScore n i := by
  unfold positionScore
  refine div_le_div_of_nonneg_right ?_ (Nat.cast_nonneg _)
  push_cast
  linarith

/-- Where the semantic search has all the weight, a result has its score from there, or none. -/
theorem score_of_weight_one (hs : (semantic.map Found.chunkId).Nodup) {c : Combined κ}
    (hc : c ∈ entries semantic regex 1) :
    (∃ r ∈ semantic, r.chunkId = c.id ∧ ∃ p : ℚ, 0 < p ∧ p ≤ 1 ∧
      c.combinedScore = p * (3 / 10) + r.similarity.getD (1 / 2) * (7 / 10)) ∨
    c.id ∉ semantic.map Found.chunkId ∧ c.combinedScore = 0 := by
  have hmem : ∀ (i : ℕ) (results : List (Found κ)), i + results.length ≤ semantic.length →
      ∀ c ∈ semanticEntries 1 semantic.length i results, ∃ r ∈ results, r.chunkId = c.id ∧
        ∃ p : ℚ, 0 < p ∧ p ≤ 1 ∧
          c.combinedScore = p * (3 / 10) + r.similarity.getD (1 / 2) * (7 / 10) := by
    intro i results
    induction results generalizing i with
    | nil => exact fun _ c hc => nomatch hc
    | cons r results ih =>
      intro hlen c hc
      rw [List.length_cons] at hlen
      rcases List.mem_cons.1 hc with rfl | hc
      · exact ⟨r, List.mem_cons_self, rfl, positionScore semantic.length i,
          positionScore_pos (by omega), positionScore_le_one (by omega), by simp [semanticEntry]⟩
      · obtain ⟨r', hr', h⟩ := ih (i + 1) (by omega) c hc
        exact ⟨r', List.mem_cons_of_mem _ hr', h⟩
  rw [entries, sub_self, addSemantic_eq 1 semantic.length 0 semantic [] (by simpa using hs),
    List.nil_append] at hc
  rcases addRegex_zero _ _ _ _ c hc with ⟨c', hc', hid, hscore⟩ | h
  · obtain ⟨r, hr, hrid, p, hp, hp', heq⟩ := hmem 0 semantic (by omega) c' hc'
    exact Or.inl ⟨r, hr, hrid.trans hid, p, hp, hp', hscore ▸ heq⟩
  · rw [semanticEntries_ids] at h
    exact Or.inr h

variable {w : ℚ}

/-- Without semantic results the regex results stay in their order. -/
theorem rank_entries_nil (hr : (regex.map Found.chunkId).Nodup) (hw : w ≤ 1) :
    (rank Combined.combinedScore (entries [] regex w)).map Combined.id =
      regex.map Found.chunkId := by
  have hsorted : ∀ (i : ℕ) (results : List (Found κ)),
      (regexEntries (1 - w) regex.length i results).Pairwise
        (fun a b => b.combinedScore ≤ a.combinedScore) ∧
      ∀ c ∈ regexEntries (1 - w) regex.length i results,
        c.combinedScore ≤ positionScore regex.length i * (1 - w) := by
    intro i results
    induction results generalizing i with
    | nil => exact ⟨List.Pairwise.nil, fun c hc => nomatch hc⟩
    | cons r results ih =>
      obtain ⟨hpair, hbound⟩ := ih (i + 1)
      have hstep := mul_le_mul_of_nonneg_right (positionScore_succ_le regex.length i)
        (sub_nonneg.2 hw)
      refine ⟨List.pairwise_cons.2 ⟨fun c hc => (hbound c hc).trans hstep, hpair⟩, ?_⟩
      intro c hc
      rcases List.mem_cons.1 hc with rfl | hc
      · exact le_rfl
      · exact (hbound c hc).trans hstep
  have heq : entries [] regex w = regexEntries (1 - w) regex.length 0 regex := by
    rw [entries, addSemantic, addRegex_eq _ _ 0 regex [] (by simpa using hr), List.nil_append]
  rw [heq, rank_eq_self (hsorted 0 regex).1, regexEntries_ids]

/-- Semantic results come with the most similar first. -/
def Descending (semantic : List (Found κ)) : Prop :=
  semantic.Pairwise fun a b => b.similarity.getD (1 / 2) ≤ a.similarity.getD (1 / 2)

/-- A result that is as similar has no lower score one place further up. -/
theorem semanticEntry_succ_le (hw : 0 ≤ w) (n i : ℕ) {r r' : Found κ}
    (h : r.similarity.getD (1 / 2) ≤ r'.similarity.getD (1 / 2)) :
    (semanticEntry w n (i + 1) r).combinedScore ≤ (semanticEntry w n i r').combinedScore := by
  have hplace := positionScore_succ_le n i
  refine mul_le_mul_of_nonneg_right ?_ hw
  linarith

theorem semanticEntries_sorted (hw : 0 ≤ w) (n : ℕ) : ∀ (i : ℕ) {results : List (Found κ)},
    Descending results →
      (semanticEntries w n i results).Pairwise (fun a b => b.combinedScore ≤ a.combinedScore) ∧
      ∀ c ∈ semanticEntries w n i results, ∃ r ∈ results,
        c.combinedScore ≤ (semanticEntry w n i r).combinedScore
  | _, [], _ => ⟨List.Pairwise.nil, fun c hc => nomatch hc⟩
  | i, r :: results, h => by
    obtain ⟨hfirst, hrest⟩ := List.pairwise_cons.1 h
    obtain ⟨hpair, hbound⟩ := semanticEntries_sorted hw n (i + 1) hrest
    refine ⟨List.pairwise_cons.2 ⟨fun c hc => ?_, hpair⟩, fun c hc => ?_⟩
    · obtain ⟨r', hr', hle⟩ := hbound c hc
      exact hle.trans (semanticEntry_succ_le hw n i (hfirst r' hr'))
    · rcases List.mem_cons.1 hc with rfl | hc
      · exact ⟨r, List.mem_cons_self, le_rfl⟩
      · obtain ⟨r', hr', hle⟩ := hbound c hc
        exact ⟨r', List.mem_cons_of_mem r hr', hle.trans (semanticEntry_succ_le hw n i le_rfl)⟩

/-- Without regex results the semantic results stay in their order. -/
theorem rank_entries_semantic (hs : (semantic.map Found.chunkId).Nodup) (hw : 0 ≤ w)
    (h : Descending semantic) :
    (rank Combined.combinedScore (entries semantic [] w)).map Combined.id =
      semantic.map Found.chunkId := by
  have heq : entries semantic [] w = semanticEntries w semantic.length 0 semantic := by
    rw [entries, addRegex, addSemantic_eq _ _ 0 semantic [] (by simpa using hs), List.nil_append]
  rw [heq, rank_eq_self (semanticEntries_sorted hw _ 0 h).1, semanticEntries_ids]

/-! ## Pages -/

theorem slice_map {α β : Type*} (f : α → β) (l : List α) (size offset : ℕ) :
    (slice l size offset).map f = slice (l.map f) size offset := by
  simp [slice, List.map_take, List.map_drop]

theorem slice_sublist {α : Type*} (l : List α) (size offset : ℕ) :
    (slice l size offset).Sublist l :=
  (List.take_sublist _ _).trans (List.drop_sublist _ _)

theorem slice_ids_nodup {found : List (Found κ)} (h : (found.map Found.chunkId).Nodup)
    (size offset : ℕ) : ((slice found size offset).map Found.chunkId).Nodup := by
  rw [slice_map]
  exact h.sublist (slice_sublist _ _ _)

theorem idPage_nextOffset (semantic regex : List (Found κ)) (w : ℚ) (size o : ℕ) :
    (idPage semantic regex w size o).nextOffset =
      if (idPage semantic regex w size o).hasMore then some (o + size) else none := by
  simp [idPage, searchHybrid]

theorem idPage_next (semantic regex : List (Found κ)) (w : ℚ) (size o : ℕ)
    (h : (idPage semantic regex w size o).hasMore = true) :
    (idPage semantic regex w size o).nextOffset = some (o + size) := by
  rw [idPage_nextOffset, if_pos h]

/-- The entries that a page is made of. -/
def windowEntries (semantic regex : List (Found κ)) (w : ℚ) (size o : ℕ) : List (Combined κ) :=
  entries (slice semantic (size * 2) o) (slice regex (size * 2) o) w

theorem idPage_items (semantic regex : List (Found κ)) (w : ℚ) (size o : ℕ) :
    (idPage semantic regex w size o).items =
      ((rank Combined.combinedScore (windowEntries semantic regex w size o)).take size).map
        Combined.id := rfl

/-- A page has more when it is full. -/
theorem idPage_hasMore (semantic regex : List (Found κ)) (w : ℚ) (size o : ℕ) :
    (idPage semantic regex w size o).hasMore = true ↔
      size ≤ (windowEntries semantic regex w size o).length := by
  have hlen := (rank_perm Combined.combinedScore (windowEntries semantic regex w size o)).length_eq
  simp only [idPage, searchHybrid, combineSearchResults, decide_eq_true_eq, List.length_take]
  change min size (rank Combined.combinedScore (windowEntries semantic regex w size o)).length =
    size ↔ _
  rw [hlen]
  omega

variable {ids : List κ}

/-- A page of windows that are ranked as they stand. -/
theorem idPage_of_ranked {size o : ℕ}
    (h : (rank Combined.combinedScore (windowEntries semantic regex w size o)).map Combined.id =
      slice ids (size * 2) o) :
    (idPage semantic regex w size o).items = slice ids size o ∧
      ((idPage semantic regex w size o).hasMore = true ↔ (slice ids size o).length = size) := by
  have hitems : (idPage semantic regex w size o).items = slice ids size o := by
    rw [idPage_items, List.map_take, h, slice, slice, List.take_take, Nat.min_eq_left (by omega)]
  refine ⟨hitems, ?_⟩
  rw [← hitems]
  simp [idPage, searchHybrid]

theorem windowEntries_regex (hr : (regex.map Found.chunkId).Nodup) (hw : w ≤ 1) {size o : ℕ}
    (hs : semantic.length ≤ o) :
    (rank Combined.combinedScore (windowEntries semantic regex w size o)).map Combined.id =
      slice (regex.map Found.chunkId) (size * 2) o := by
  have hnil : slice semantic (size * 2) o = [] := by
    rw [slice, List.drop_eq_nil_of_le hs, List.take_nil]
  rw [windowEntries, hnil, rank_entries_nil (slice_ids_nodup hr (size * 2) o) hw, slice_map]

/-- Behind the semantic results a page is one of the regex results. -/
theorem idPage_regex (hr : (regex.map Found.chunkId).Nodup) (hw : w ≤ 1) {size o : ℕ}
    (hs : semantic.length ≤ o) :
    (idPage semantic regex w size o).items = slice (regex.map Found.chunkId) size o ∧
      ((idPage semantic regex w size o).hasMore = true ↔
        (slice (regex.map Found.chunkId) size o).length = size) :=
  idPage_of_ranked (windowEntries_regex hr hw hs)

/-- All results, and the windows of each page, are ranked in the order of some ids. -/
structure InOrder (semantic regex : List (Found κ)) (w : ℚ) (size : ℕ) (ids : List κ) : Prop where
  whole : wholeIds semantic regex w = ids
  window : ∀ o, (rank Combined.combinedScore (windowEntries semantic regex w size o)).map
    Combined.id = slice ids (size * 2) o

theorem inOrder_regex (hr : (regex.map Found.chunkId).Nodup) (hw : w ≤ 1) (size : ℕ) :
    InOrder [] regex w size (regex.map Found.chunkId) :=
  ⟨rank_entries_nil hr hw, fun o => windowEntries_regex hr hw (Nat.zero_le o)⟩

theorem inOrder_semantic (hs : (semantic.map Found.chunkId).Nodup) (hw : 0 ≤ w)
    (h : Descending semantic) (size : ℕ) :
    InOrder semantic [] w size (semantic.map Found.chunkId) := by
  refine ⟨rank_entries_semantic hs hw h, fun o => ?_⟩
  have hnil : slice ([] : List (Found κ)) (size * 2) o = [] := by simp [slice]
  rw [windowEntries, hnil, rank_entries_semantic (slice_ids_nodup hs (size * 2) o) hw
    (List.Pairwise.sublist (slice_sublist _ _ _) h), slice_map]

theorem wholeIds_perm (hs : (semantic.map Found.chunkId).Nodup)
    (hr : (regex.map Found.chunkId).Nodup) (w : ℚ) :
    (wholeIds semantic regex w).Nodup ∧ ∀ x, x ∈ wholeIds semantic regex w ↔
      x ∈ semantic.map Found.chunkId ∨ x ∈ regex.map Found.chunkId := by
  have hperm := (rank_perm Combined.combinedScore (entries semantic regex w)).map Combined.id
  refine ⟨hperm.nodup_iff.2 (entries_ids_nodup hs hr w), fun x => hperm.mem_iff.trans ?_⟩
  rw [entries_ids hs hr]
  simp only [List.mem_append, List.mem_filter, decide_eq_true_eq]
  tauto

/-! ## Consistent pages -/

variable {size : ℕ}

/-- With no more distinct ids than a page holds, the first page has all. -/
theorem idPage_of_few (hs : (semantic.map Found.chunkId).Nodup)
    (hr : (regex.map Found.chunkId).Nodup) (w : ℚ)
    (hfew : (semantic.map Found.chunkId ++ regex.map Found.chunkId).dedup.length ≤ size) :
    windowEntries semantic regex w size 0 = entries semantic regex w ∧
      (idPage semantic regex w size 0).items = wholeIds semantic regex w := by
  have hlen := entries_length hs hr w
  have hids := congrArg List.length (entries_ids hs hr w)
  rw [List.length_map, List.length_append, List.length_map, hlen] at hids
  have hregex : regex.length ≤ (entries semantic regex w).length := by
    have hsub : regex.map Found.chunkId ⊆
        (semantic.map Found.chunkId ++ regex.map Found.chunkId).dedup :=
      fun x hx => List.mem_dedup.2 (List.mem_append_right _ hx)
    have hle := (List.subperm_of_subset hr hsub).length_le
    rwa [List.length_map, ← hlen] at hle
  have hslice : ∀ l : List (Found κ), l.length ≤ size * 2 → slice l (size * 2) 0 = l := by
    intro l hl
    rw [slice, List.drop_zero, List.take_of_length_le hl]
  have hwindow : windowEntries semantic regex w size 0 = entries semantic regex w := by
    rw [windowEntries, hslice semantic (by omega), hslice regex (by omega)]
  refine ⟨hwindow, ?_⟩
  rw [idPage_items, hwindow, List.take_of_length_le, wholeIds]
  rw [(rank_perm _ _).length_eq]
  omega

/-- Everything is on the first page. -/
theorem consistent_of_few (hs : (semantic.map Found.chunkId).Nodup)
    (hr : (regex.map Found.chunkId).Nodup) (w : ℚ)
    (hfew : (semantic.map Found.chunkId ++ regex.map Found.chunkId).dedup.length < size) :
    Consistent semantic regex w size := by
  obtain ⟨hwindow, hitems⟩ := idPage_of_few hs hr w hfew.le
  have hmore : (idPage semantic regex w size 0).hasMore = false := by
    rw [← Bool.not_eq_true, idPage_hasMore, hwindow, entries_length hs hr]
    omega
  have hflat : [(idPage semantic regex w size 0).items].flatten = wholeIds semantic regex w := by
    rw [List.flatten_singleton, hitems]
  exact ⟨_, .last hmore, hflat,
    tellsMore_of_perm (wholeIds_perm hs hr w).1 (by rw [hflat]) nofun⟩

/-- The results are ranked as they stand, and the last page is not full. -/
theorem InOrder.consistent (h : InOrder semantic regex w size ids)
    (hids : ids.Nodup) (hsize : 0 < size) (hmod : ids.length % size ≠ 0) :
    Consistent semantic regex w size := by
  obtain ⟨pages, hwalk, hflat, hmore⟩ := exists_walk_same hids hsize 0
  rw [List.drop_zero, ← h.whole] at hflat hmore
  refine ⟨pages, hwalk.congr_at pageOf_next fun k => ?_, hflat, hmore⟩
  obtain ⟨hitems, hfull⟩ := idPage_of_ranked (h.window (0 + k * size))
  have hlast : ids.length ≠ 0 + k * size + size := by
    intro heq
    refine hmod ?_
    rw [heq, Nat.zero_add, ← Nat.succ_mul]
    exact Nat.mul_mod_left _ _
  have hmore : (pageOf (fun _ => ids) size (0 + k) (0 + k * size)).hasMore =
      (idPage semantic regex w size (0 + k * size)).hasMore := by
    rw [Bool.eq_iff_iff, hfull]
    simp only [pageOf, page, slice, List.length_take, List.length_drop, decide_eq_true_eq]
    omega
  refine Page.ext ?_ hmore ?_
  · rw [hitems]
    rfl
  · rw [pageOf_nextOffset, idPage_nextOffset, hmore]

/-! ## Inconsistent pages -/

section Inconsistent

variable {w : ℚ} {size : ℕ}

/-- The `k`-th page is reached when those before are full. -/
theorem getElem?_of_full {pages : List (List κ)}
    (hwalk : Walk (fun _ o => idPage semantic regex w size o) 0 0 pages) {k : ℕ}
    (hfull : ∀ m < k, (idPage semantic regex w size (m * size)).hasMore = true) :
    pages[k]? = some (idPage semantic regex w size (k * size)).items := by
  have h := hwalk.getElem?_fetch (fun _ => idPage_next semantic regex w size) k fun m hm => by
    rw [Nat.zero_add]
    exact hfull m hm
  rwa [Nat.zero_add] at h

/-- A full page promises more, although everything was shown. -/
theorem not_consistent_of_seen {m : ℕ} (hm : 0 < m)
    (hfull : ∀ k < m, (idPage semantic regex w size (k * size)).hasMore = true)
    (hseen : ∀ x ∈ wholeIds semantic regex w, ∃ k < m,
      x ∈ (idPage semantic regex w size (k * size)).items) :
    ¬ Consistent semantic regex w size := by
  rintro ⟨pages, hwalk, -, hmore⟩
  have hnext := getElem?_of_full hwalk hfull
  obtain ⟨hlen, -⟩ := List.getElem?_eq_some_iff.1 hnext
  obtain ⟨x, hx, hunseen⟩ := (hmore (m - 1) (by omega)).1 (by omega)
  obtain ⟨k, hk, hin⟩ := hseen x hx
  have hpage := getElem?_of_full hwalk fun j hj => hfull j (hj.trans hk)
  obtain ⟨hklen, hpage⟩ := List.getElem?_eq_some_iff.1 hpage
  refine hunseen (List.mem_flatten.2 ⟨_, ?_, hin⟩)
  rw [← hpage]
  exact List.mem_take_iff_getElem.2 ⟨k, by omega, rfl⟩

/-- A result is shown twice. -/
theorem not_consistent_of_repeated (hs : (semantic.map Found.chunkId).Nodup)
    (hr : (regex.map Found.chunkId).Nodup) {k : ℕ} (hk : 0 < k) {x : κ}
    (hfull : ∀ m < k, (idPage semantic regex w size (m * size)).hasMore = true)
    (hfirst : x ∈ (idPage semantic regex w size 0).items)
    (hagain : x ∈ (idPage semantic regex w size (k * size)).items) :
    ¬ Consistent semantic regex w size := by
  rintro ⟨pages, hwalk, hflat, -⟩
  have hnodup := (wholeIds_perm hs hr w).1
  rw [← hflat] at hnodup
  have hdisjoint := List.pairwise_iff_getElem.1 (List.nodup_flatten.1 hnodup).2
  have hzero := getElem?_of_full hwalk (k := 0) fun m hm => absurd hm (Nat.not_lt_zero m)
  rw [Nat.zero_mul] at hzero
  obtain ⟨hlen, hzero⟩ := List.getElem?_eq_some_iff.1 hzero
  obtain ⟨hklen, hpage⟩ := List.getElem?_eq_some_iff.1 (getElem?_of_full hwalk hfull)
  have hpages := hdisjoint 0 k hlen hklen hk
  rw [hzero, hpage] at hpages
  exact hpages hfirst hagain

/-- A result is never shown. -/
theorem not_consistent_of_lost {x : κ} (hx : x ∈ wholeIds semantic regex w)
    (hlost : ∀ k, x ∉ (idPage semantic regex w size (k * size)).items) :
    ¬ Consistent semantic regex w size := by
  rintro ⟨pages, hwalk, hflat, -⟩
  rw [← hflat] at hx
  obtain ⟨p, hp, hin⟩ := List.mem_flatten.1 hx
  obtain ⟨k, hk⟩ := hwalk.exists_of_mem (fun _ => idPage_next semantic regex w size) p hp
  rw [Nat.zero_add] at hk
  exact hlost k (hk ▸ hin)

/-- With empty pages the walk does not end. -/
theorem not_consistent_zero : ¬ Consistent semantic regex w 0 := by
  rintro ⟨pages, hwalk, -⟩
  have hfull : ∀ o, (idPage semantic regex w 0 o).hasMore = true :=
    fun o => (idPage_hasMore semantic regex w 0 o).2 (Nat.zero_le _)
  have hnext := getElem?_of_full hwalk (k := pages.length) fun m _ => hfull _
  rw [List.getElem?_eq_none (Nat.le_refl _)] at hnext
  cases hnext

end Inconsistent

/-! ## One result apart from the others -/

/-- Semantic results of which one has the similarity `s`, and the others 0. -/
def marked (as : List κ) (a : κ) (s : ℚ) : List (Found κ) :=
  as.map fun x => ⟨x, some (if x = a then s else 0), ""⟩

/-- Regex results with the given ids. -/
def plain (bs : List κ) : List (Found κ) := bs.map fun x => ⟨x, none, ""⟩

@[simp] theorem marked_ids (as : List κ) (a : κ) (s : ℚ) :
    (marked as a s).map Found.chunkId = as := by
  simp [marked, Function.comp_def]

@[simp] theorem plain_ids (bs : List κ) : (plain bs).map Found.chunkId = bs := by
  simp [plain, Function.comp_def]

theorem slice_marked (as : List κ) (a : κ) (s : ℚ) (size o : ℕ) :
    slice (marked as a s) size o = marked (slice as size o) a s :=
  (slice_map _ as size o).symm

variable {as bs : List κ} {a : κ} {s : ℚ}

/-- The scores, where the semantic search has all the weight. -/
theorem score_marked (has : as.Nodup) (ha : a ∈ as) {c : Combined κ}
    (hc : c ∈ entries (marked as a s) regex 1) :
    (c.id = a ∧ s * (7 / 10) < c.combinedScore ∧ c.combinedScore ≤ 3 / 10 + s * (7 / 10)) ∨
      (c.id ≠ a ∧ 0 ≤ c.combinedScore ∧ c.combinedScore ≤ 3 / 10) := by
  have hids : ((marked as a s).map Found.chunkId).Nodup := by rwa [marked_ids]
  rcases score_of_weight_one hids hc with ⟨r, hr, hid, p, hp, hp', heq⟩ | ⟨hnot, heq⟩
  · obtain ⟨x, -, rfl⟩ := List.mem_map.1 hr
    simp only at hid
    subst hid
    by_cases hxa : c.id = a
    · rw [Option.getD_some, if_pos hxa] at heq
      exact Or.inl ⟨hxa, by linarith, by linarith⟩
    · rw [Option.getD_some, if_neg hxa] at heq
      exact Or.inr ⟨hxa, by linarith, by linarith⟩
  · rw [marked_ids] at hnot
    exact Or.inr ⟨fun h => hnot (h ▸ ha), by rw [heq], by rw [heq]; norm_num⟩

/-- The most similar result is shown. -/
theorem shown_of_marked (has : as.Nodup) (hr : (regex.map Found.chunkId).Nodup) (ha : a ∈ as)
    {k : ℕ} (hk : 0 < k) :
    a ∈ ((rank Combined.combinedScore (entries (marked as a 1) regex 1)).take k).map
      Combined.id := by
  have hids : ((marked as a 1).map Found.chunkId).Nodup := by rwa [marked_ids]
  have hin : a ∈ (entries (marked as a 1) regex 1).map Combined.id := by
    rw [entries_ids hids hr, marked_ids]
    exact List.mem_append_left _ ha
  obtain ⟨c, hc, hca⟩ := List.mem_map.1 hin
  refine List.mem_map.2 ⟨c, mem_take_of_best hk hc fun b hb hne => ?_, hca⟩
  have hba : b.id ≠ a := fun h =>
    hne (List.inj_on_of_nodup_map (entries_ids_nodup hids hr 1) hb hc (h.trans hca.symm))
  rcases score_marked has ha hc with ⟨-, hlow, -⟩ | ⟨hne', -⟩
  · rcases score_marked has ha hb with ⟨hba', -⟩ | ⟨-, -, hhigh⟩
    · exact absurd hba' hba
    · linarith
  · exact absurd hca hne'

/-- The least similar result is not, if others fill the page. -/
theorem not_shown_of_marked (has : as.Nodup) (hr : (regex.map Found.chunkId).Nodup) (ha : a ∈ as)
    {k : ℕ} (hk : k < (entries (marked as a (-1)) regex 1).length) :
    a ∉ ((rank Combined.combinedScore (entries (marked as a (-1)) regex 1)).take k).map
      Combined.id := by
  have hids : ((marked as a (-1)).map Found.chunkId).Nodup := by rwa [marked_ids]
  have hnodup := entries_ids_nodup hids hr 1
  intro hin
  obtain ⟨c, hc, hca⟩ := List.mem_map.1 hin
  have hmem := mem_rank.1 (List.mem_of_mem_take hc)
  refine not_mem_take_of_worst hk hnodup.of_map (fun b hb hne => ?_) hc
  have hba : b.id ≠ a := fun h =>
    hne (List.inj_on_of_nodup_map hnodup hb hmem (h.trans hca.symm))
  rcases score_marked has ha hmem with ⟨-, -, hhigh⟩ | ⟨hne', -⟩
  · rcases score_marked has ha hb with ⟨hba', -⟩ | ⟨-, hlow, -⟩
    · exact absurd hba' hba
    · linarith
  · exact absurd hca hne'

/-- The first windows have as many distinct ids as there are, up to their size. -/
theorem le_windowEntries (hs : (semantic.map Found.chunkId).Nodup)
    (hr : (regex.map Found.chunkId).Nodup) (w : ℚ) {size m : ℕ} (hm : m ≤ size * 2)
    (h : m ≤ (semantic.map Found.chunkId ++ regex.map Found.chunkId).dedup.length) :
    m ≤ (windowEntries semantic regex w size 0).length := by
  have hs' := slice_ids_nodup hs (size * 2) 0
  have hr' := slice_ids_nodup hr (size * 2) 0
  rw [windowEntries, entries_length hs' hr']
  have hpart : ∀ l : List κ, l.Nodup → l ⊆ ((slice semantic (size * 2) 0).map Found.chunkId ++
      (slice regex (size * 2) 0).map Found.chunkId).dedup → size * 2 ≤ l.length →
        m ≤ ((slice semantic (size * 2) 0).map Found.chunkId ++
          (slice regex (size * 2) 0).map Found.chunkId).dedup.length :=
    fun l hl hsub hlen => hm.trans (hlen.trans (List.subperm_of_subset hl hsub).length_le)
  have hlength : ∀ l : List (Found κ), (slice l (size * 2) 0).length = min (size * 2) l.length := by
    intro l
    rw [slice, List.drop_zero, List.length_take]
  have hall : ∀ l : List (Found κ), l.length ≤ size * 2 → slice l (size * 2) 0 = l := by
    intro l hl
    rw [slice, List.drop_zero, List.take_of_length_le hl]
  by_cases hsemantic : semantic.length ≤ size * 2
  · by_cases hregex : regex.length ≤ size * 2
    · rwa [hall semantic hsemantic, hall regex hregex]
    · refine hpart _ hr' (fun x hx => List.mem_dedup.2 (List.mem_append_right _ hx)) ?_
      rw [List.length_map, hlength]
      omega
  · refine hpart _ hs' (fun x hx => List.mem_dedup.2 (List.mem_append_left _ hx)) ?_
    rw [List.length_map, hlength]
    omega

theorem mem_slice_of_getElem? {α : Type*} {l : List α} {x : α} {i size o : ℕ}
    (hi : l[i]? = some x) (hle : o ≤ i) (hlt : i < o + size) : x ∈ slice l size o := by
  refine List.mem_of_getElem? (i := i - o) ?_
  rw [slice, List.getElem?_take_of_lt (by omega), List.getElem?_drop]
  rwa [Nat.add_sub_cancel' hle]

/-- With more semantic results than a page, one behind the first page may be shown twice. -/
theorem not_consistent_of_long (has : as.Nodup) (hbs : bs.Nodup) (hsize : 0 < size)
    (hlong : size < as.length) : ¬ Consistent (marked as as[size] 1) (plain bs) 1 size := by
  have hget : as[size]? = some as[size] := List.getElem?_eq_getElem hlong
  have hids : ((marked as as[size] 1).map Found.chunkId).Nodup := by rwa [marked_ids]
  have hplain : ((plain bs).map Found.chunkId).Nodup := by rwa [plain_ids]
  have hshown : ∀ o, o ≤ size → size < o + size * 2 →
      as[size] ∈ (idPage (marked as as[size] 1) (plain bs) 1 size o).items := by
    intro o hle hlt
    rw [idPage_items, windowEntries, slice_marked]
    exact shown_of_marked (has.sublist (slice_sublist _ _ _)) (slice_ids_nodup hplain _ _)
      (mem_slice_of_getElem? hget hle hlt) hsize
  refine not_consistent_of_repeated hids hplain Nat.one_pos (fun m hm => ?_)
    (hshown 0 (Nat.zero_le _) (by omega)) (hshown (1 * size) (by omega) (by omega))
  obtain rfl : m = 0 := by omega
  rw [Nat.zero_mul, idPage_hasMore]
  refine le_windowEntries hids hplain 1 (by omega) ?_
  rw [marked_ids, plain_ids]
  exact hlong.le.trans (List.subperm_of_subset has fun x hx =>
    List.mem_dedup.2 (List.mem_append_left _ hx)).length_le

/-- A semantic result that the regex search finds behind its first page may be shown twice. -/
theorem not_consistent_of_behind (has : as.Nodup) (hbs : bs.Nodup) {size j : ℕ} (hsize : 0 < size)
    (hshort : as.length ≤ size) (ha : a ∈ as) (hj : bs[j]? = some a) (hle : size ≤ j) :
    ¬ Consistent (marked as a 1) (plain bs) 1 size := by
  have hids : ((marked as a 1).map Found.chunkId).Nodup := by rwa [marked_ids]
  have hplain : ((plain bs).map Found.chunkId).Nodup := by rwa [plain_ids]
  have hlen : (marked as a 1).length = as.length := List.length_map _
  have hjlen : j < bs.length := (List.getElem?_eq_some_iff.1 hj).1
  have hdiv : j / size * size + j % size = j := Nat.div_add_mod' j size
  have hmod := Nat.mod_lt j hsize
  refine not_consistent_of_repeated hids hplain (Nat.div_pos hle hsize) (fun m hm => ?_) ?_ ?_
    (x := a)
  · rcases Nat.eq_zero_or_pos m with rfl | hpos
    · rw [Nat.zero_mul, idPage_hasMore]
      refine le_windowEntries hids hplain 1 (by omega) ?_
      rw [marked_ids, plain_ids]
      have hlong : bs.length ≤ (as ++ bs).dedup.length :=
        (List.subperm_of_subset hbs fun x hx =>
          List.mem_dedup.2 (List.mem_append_right _ hx)).length_le
      omega
    · have hmul := Nat.mul_le_mul_right size (Nat.succ_le_of_lt hm)
      have hone := Nat.mul_le_mul_right size (Nat.succ_le_of_lt hpos)
      rw [Nat.succ_mul] at hmul
      rw [Nat.succ_mul, Nat.zero_mul, Nat.zero_add] at hone
      rw [(idPage_regex hplain le_rfl (by omega)).2, plain_ids, slice, List.length_take,
        List.length_drop]
      omega
  · rw [idPage_items, windowEntries, slice_marked]
    refine shown_of_marked (has.sublist (slice_sublist _ _ _)) (slice_ids_nodup hplain _ _) ?_ hsize
    rwa [slice, List.drop_zero, List.take_of_length_le (by omega)]
  · have hone : size ≤ j / size * size := Nat.le_mul_of_pos_left size (Nat.div_pos hle hsize)
    rw [(idPage_regex hplain le_rfl (by omega)).1, plain_ids]
    exact mem_slice_of_getElem? hj (by omega) (by omega)

/-- A semantic result that the first page left out is not found again. -/
theorem not_consistent_of_left_out (has : as.Nodup) (hbs : bs.Nodup)
    (hshort : as.length ≤ size) (ha : a ∈ as) (hbehind : a ∉ bs.drop size)
    (hmany : size < (as ++ bs).dedup.length) :
    ¬ Consistent (marked as a (-1)) (plain bs) 1 size := by
  have hids : ((marked as a (-1)).map Found.chunkId).Nodup := by rwa [marked_ids]
  have hplain : ((plain bs).map Found.chunkId).Nodup := by rwa [plain_ids]
  have hlen : (marked as a (-1)).length = as.length := List.length_map _
  have hpos : 0 < as.length := List.length_pos_of_mem ha
  have hwhole : a ∈ wholeIds (marked as a (-1)) (plain bs) 1 :=
    ((wholeIds_perm hids hplain 1).2 a).2 (Or.inl (by rwa [marked_ids]))
  refine not_consistent_of_lost hwhole fun k => ?_
  rcases Nat.eq_zero_or_pos k with rfl | hk
  · have hfull : size + 1 ≤ (windowEntries (marked as a (-1)) (plain bs) 1 size 0).length := by
      refine le_windowEntries hids hplain 1 (by omega) ?_
      rwa [marked_ids, plain_ids]
    rw [Nat.zero_mul, idPage_items]
    rw [windowEntries, slice_marked] at hfull ⊢
    refine not_shown_of_marked (has.sublist (slice_sublist _ _ _)) (slice_ids_nodup hplain _ _) ?_
      hfull
    rwa [slice, List.drop_zero, List.take_of_length_le (by omega)]
  · have hone : size ≤ k * size := Nat.le_mul_of_pos_left size hk
    rw [(idPage_regex hplain le_rfl (by omega)).1, plain_ids]
    intro hin
    have hdrop : a ∈ bs.drop (k * size) := List.mem_of_mem_take hin
    rw [← Nat.add_sub_cancel' hone, ← List.drop_drop] at hdrop
    exact hbehind (List.mem_of_mem_drop hdrop)

/-- As many results as fill the first page, and no more. -/
theorem not_consistent_of_exact (hs : (semantic.map Found.chunkId).Nodup)
    (hr : (regex.map Found.chunkId).Nodup) (w : ℚ)
    (hexact : (semantic.map Found.chunkId ++ regex.map Found.chunkId).dedup.length = size) :
    ¬ Consistent semantic regex w size := by
  obtain ⟨hwindow, hitems⟩ := idPage_of_few hs hr w hexact.le
  refine not_consistent_of_seen Nat.one_pos (fun k hk => ?_) fun x hx => ⟨0, Nat.one_pos, ?_⟩
  · obtain rfl : k = 0 := by omega
    rw [Nat.zero_mul, idPage_hasMore, hwindow, entries_length hs hr, hexact]
  · rwa [Nat.zero_mul, hitems]

/-- The results are ranked as they stand, and the last page is full. -/
theorem InOrder.not_consistent
    (h : InOrder semantic regex w size ids) (hsize : 0 < size) (hlen : size ≤ ids.length)
    (hmod : ids.length % size = 0) : ¬ Consistent semantic regex w size := by
  have hmul := Nat.div_add_mod' ids.length size
  refine not_consistent_of_seen (Nat.div_pos hlen hsize) (fun k hk => ?_) fun x hx => ?_
  · have hk := Nat.mul_le_mul_right size (Nat.succ_le_of_lt hk)
    rw [Nat.succ_mul] at hk
    rw [(idPage_of_ranked (h.window _)).2, slice, List.length_take, List.length_drop]
    omega
  · rw [h.whole] at hx
    obtain ⟨i, hi, rfl⟩ := List.mem_iff_getElem.1 hx
    have hdiv := Nat.div_add_mod' i size
    have hrest := Nat.mod_lt i hsize
    refine ⟨i / size, ?_, ?_⟩
    · rw [Nat.div_lt_iff_lt_mul hsize]
      omega
    · rw [(idPage_of_ranked (h.window _)).1]
      exact mem_slice_of_getElem? (List.getElem?_eq_getElem hi) (by omega) (by omega)

/-! ## Results -/

/-- What the ids that the searches find must be like for the pages to be consistent, whatever the
similarities and the weight. Semantic results alone, the most similar first, have consistent pages
unless their last page is full. -/
theorem hybrid_consistent_iff {as bs : List κ} (has : as.Nodup) (hbs : bs.Nodup) (size : ℕ) :
    ((∀ (semantic regex : List (Found κ)) (w : ℚ), semantic.map Found.chunkId = as →
      regex.map Found.chunkId = bs → 0 ≤ w → w ≤ 1 → Consistent semantic regex w size) ↔
    0 < size ∧ ((as ++ bs).dedup.length < size ∨ as = [] ∧ bs.length % size ≠ 0)) ∧
    ∀ (semantic : List (Found κ)) (w : ℚ), semantic.map Found.chunkId = as →
      Descending semantic → 0 ≤ w → w ≤ 1 →
        (Consistent semantic [] w size ↔
          0 < size ∧ (as.length < size ∨ as.length % size ≠ 0)) := by
  refine ⟨⟨?_, ?_⟩, ?_⟩
  · intro h
    have hsize : 0 < size := by
      refine Nat.pos_of_ne_zero fun hzero => ?_
      subst hzero
      exact not_consistent_zero (h (plain as) (plain bs) 1 (plain_ids _) (plain_ids _)
        (by norm_num) le_rfl)
    have hcons : ∀ semantic : List (Found κ), semantic.map Found.chunkId = as →
        Consistent semantic (plain bs) 1 size :=
      fun semantic hs => h semantic (plain bs) 1 hs (plain_ids _) (by norm_num) le_rfl
    have hplain : ∀ ids : List κ, ids.Nodup → ((plain ids).map Found.chunkId).Nodup :=
      fun ids hids => by rwa [plain_ids]
    refine ⟨hsize, ?_⟩
    by_contra hcond
    rw [not_or, not_lt, not_and_not_right] at hcond
    obtain ⟨hmany, hmod⟩ := hcond
    rcases List.eq_nil_or_concat as with rfl | ⟨init, a, heq⟩
    · rw [List.nil_append, hbs.dedup] at hmany
      have hlen : ((plain bs).map Found.chunkId).length = bs.length := by rw [plain_ids]
      exact (inOrder_regex (hplain bs hbs) le_rfl size).not_consistent hsize (by rwa [hlen])
        (by rw [hlen]; exact hmod rfl) (hcons [] rfl)
    · have ha : a ∈ as := by simp [heq]
      rcases hmany.eq_or_lt with hexact | hmany
      · refine not_consistent_of_exact (hplain as has) (hplain bs hbs) 1 ?_
          (hcons _ (plain_ids as))
        rw [plain_ids, plain_ids, hexact]
      by_cases hlong : size < as.length
      · exact not_consistent_of_long has hbs hsize hlong (hcons _ (marked_ids _ _ _))
      by_cases hbehind : a ∈ bs.drop size
      · obtain ⟨j, hj, heq⟩ := List.mem_drop_iff_getElem.1 hbehind
        exact not_consistent_of_behind has hbs hsize (not_lt.1 hlong) ha
          (List.getElem?_eq_some_iff.2 ⟨by omega, heq⟩) (Nat.le_add_right size j)
          (hcons _ (marked_ids _ _ _))
      · exact not_consistent_of_left_out has hbs (not_lt.1 hlong) ha hbehind hmany
          (hcons _ (marked_ids _ _ _))
  · rintro ⟨hsize, hfew | ⟨rfl, hmod⟩⟩ semantic regex w hs hr - hw
    · exact consistent_of_few (hs ▸ has) (hr ▸ hbs) w (by rwa [hs, hr])
    · obtain rfl := List.map_eq_nil_iff.1 hs
      subst hr
      exact (inOrder_regex hbs hw size).consistent hbs hsize hmod
  · rintro semantic w rfl hdesc hw -
    have horder := inOrder_semantic has hw hdesc size
    refine ⟨fun h => ?_, fun ⟨hsize, h⟩ => ?_⟩
    · have hsize : 0 < size := Nat.pos_of_ne_zero fun hzero => by
        subst hzero
        exact not_consistent_zero h
      refine ⟨hsize, ?_⟩
      by_contra hfull
      rw [not_or, not_lt, not_not] at hfull
      exact horder.not_consistent hsize hfull.1 hfull.2 h
    · rcases h with hfew | hmod
      · have hnil : (([] : List (Found κ)).map Found.chunkId).Nodup := List.nodup_nil
        refine consistent_of_few has hnil w ?_
        rwa [List.map_nil, List.append_nil, has.dedup]
      · exact horder.consistent has hsize hmod

end Combine

/-- One chunk that both find and one more, with pages of three. -/
theorem hybrid_consistent_three : [1].Nodup ∧ [1, 2].Nodup ∧
    ((∀ (semantic regex : List (Found ℕ)) (w : ℚ), semantic.map Found.chunkId = [1] →
      regex.map Found.chunkId = [1, 2] → 0 ≤ w → w ≤ 1 → Consistent semantic regex w 3) ↔
    0 < 3 ∧ (([1] ++ [1, 2]).dedup.length < 3 ∨ [1] = [] ∧ [1, 2].length % 3 ≠ 0)) :=
  ⟨by decide, by decide, (hybrid_consistent_iff (by decide) (by decide) 3).1⟩

/-- The semantic search finds the first chunk, the regex search the second. With pages of one
result and the default weight the second is never shown. -/
theorem hybrid_loses : ¬ Consistent [⟨1, some (1 / 2), "x"⟩] [⟨2, none, "y"⟩] (7 / 10) 1 := by
  have hids : (([⟨2, none, "y"⟩] : List (Found ℕ)).map Found.chunkId).Nodup := by decide
  have hwhole : 2 ∈ wholeIds [⟨1, some (1 / 2), "x"⟩] [⟨2, none, "y"⟩] (7 / 10) :=
    ((wholeIds_perm (by decide) hids _).2 2).2 (by decide)
  refine not_consistent_of_lost hwhole fun k => ?_
  rcases Nat.eq_zero_or_pos k with rfl | hk
  · decide +kernel
  · rw [(idPage_regex hids (by norm_num) (by simpa using Nat.succ_le_of_lt hk)).1, slice,
      List.drop_eq_nil_of_le (by simpa using Nat.succ_le_of_lt hk)]
    simp

end ChunkHound.HybridSearch
