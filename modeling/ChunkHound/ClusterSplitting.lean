import ChunkHound.Grouping
import Mathlib

/-!
# Splitting clusters to a budget

Phase 1 of `cluster_files_hdbscan_bounded` in `services/clustering_service.py` : a cluster of
more than `max_tokens_per_cluster` tokens is cut in two by k-means, or by packing into two
bins when k-means puts everything on one side, and so on for the parts. A part is within the
budget or a single file.

`kmeans paths` is the labelling `fit_predict` gives the vectors of `paths`. The recursion has
fuel; as many steps as there are files are enough (`split_spec`), since a part is smaller than
what it was cut from.
-/

namespace ChunkHound.Clusters

section Split

variable (fileTokens : String → ℤ) (maxTokens : ℤ) (kmeans : List String → List ℤ)

def clusterTokens (paths : List String) : ℤ :=
  (paths.map fileTokens).sum

/-- Put each file in the bin with fewer tokens, the first one when they have as many. -/
def packBins : List String → List String × ℤ → List String × ℤ → List String × List String
  | [], bin0, bin1 => (bin0.1, bin1.1)
  | fp :: fps, bin0, bin1 =>
    if bin0.2 ≤ bin1.2 then packBins fps (bin0.1 ++ [fp], bin0.2 + fileTokens fp) bin1
    else packBins fps bin0 (bin1.1 ++ [fp], bin1.2 + fileTokens fp)

/-- The files with a label. -/
def labelled (paths : List String) (labels : List ℤ) (label : ℤ) : List String :=
  ((paths.zip labels).filter (·.2 = label)).map (·.1)

/-- Two parts : by k-means, or packed in order of falling tokens when one would be empty. -/
def splitInTwo (paths : List String) : List String × List String :=
  let cluster0 := labelled paths (kmeans paths) 0
  let cluster1 := labelled paths (kmeans paths) 1
  if cluster0 = [] ∨ cluster1 = [] then
    packBins fileTokens (paths.mergeSort fun a b => fileTokens b ≤ fileTokens a) ([], 0) ([], 0)
  else (cluster0, cluster1)

/-- `split_cluster_recursively`. -/
def splitClusterRecursively : ℕ → List String → Option (List (List String))
  | 0, _ => none
  | fuel + 1, paths =>
    if clusterTokens fileTokens paths ≤ maxTokens ∨ paths.length ≤ 1 then some [paths]
    else do
      let parts := splitInTwo fileTokens kmeans paths
      let result0 ← splitClusterRecursively fuel parts.1
      let result1 ← splitClusterRecursively fuel parts.2
      return result0 ++ result1

/-- Split the oversized clusters, and count them. -/
def splitOversized (fuel : ℕ) : List (List String) → Option (List (List String) × ℕ)
  | [] => some ([], 0)
  | cluster :: clusters =>
    if maxTokens < clusterTokens fileTokens cluster ∧ 1 < cluster.length then do
      let parts ← splitClusterRecursively fileTokens maxTokens kmeans fuel cluster
      let (rest, numSplits) ← splitOversized fuel clusters
      return (parts ++ rest, numSplits + 1)
    else do
      let (rest, numSplits) ← splitOversized fuel clusters
      return (cluster :: rest, numSplits)

end Split

/-! ## Two parts -/

/-- What `fit_predict` promises of two clusters : a label for each file, zero or one. -/
def TwoLabels (kmeans : List String → List ℤ) : Prop :=
  ∀ paths, (kmeans paths).length = paths.length ∧ ∀ l ∈ kmeans paths, l = 0 ∨ l = 1

section Split

variable {fileTokens : String → ℤ} {maxTokens : ℤ} {kmeans : List String → List ℤ}

theorem clusterTokens_append (as bs : List String) :
    clusterTokens fileTokens (as ++ bs) =
      clusterTokens fileTokens as + clusterTokens fileTokens bs := by
  simp [clusterTokens]

theorem clusterTokens_nonneg (hpos : ∀ fp, 0 < fileTokens fp) :
    ∀ paths, 0 ≤ clusterTokens fileTokens paths
  | [] => by simp [clusterTokens]
  | fp :: fps => by
    have hrest := clusterTokens_nonneg hpos fps
    have hfp := hpos fp
    simp only [clusterTokens, List.map_cons, List.sum_cons] at hrest ⊢
    omega

theorem packBins_perm : ∀ (fps : List String) (bin0 bin1 : List String × ℤ),
    ((packBins fileTokens fps bin0 bin1).1 ++ (packBins fileTokens fps bin0 bin1).2).Perm
      (bin0.1 ++ bin1.1 ++ fps)
  | [], bin0, bin1 => by simp [packBins]
  | fp :: fps, bin0, bin1 => by
    rw [packBins]
    split
    · refine (packBins_perm fps _ _).trans ?_
      have hmove : (bin0.1 ++ [fp] ++ bin1.1).Perm (bin0.1 ++ bin1.1 ++ [fp]) := by
        rw [List.append_assoc, List.append_assoc]
        exact List.perm_append_comm.append_left _
      simpa using hmove.append_right fps
    · refine (packBins_perm fps _ _).trans ?_
      simp

/-- A file stays in its bin. -/
theorem packBins_ne_nil : ∀ (fps : List String) (bin0 bin1 : List String × ℤ),
    (bin0.1 ≠ [] → (packBins fileTokens fps bin0 bin1).1 ≠ []) ∧
      (bin1.1 ≠ [] → (packBins fileTokens fps bin0 bin1).2 ≠ [])
  | [], _, _ => ⟨id, id⟩
  | fp :: fps, bin0, bin1 => by
    rw [packBins]
    split
    · obtain ⟨h0, h1⟩ := packBins_ne_nil fps (bin0.1 ++ [fp], bin0.2 + fileTokens fp) bin1
      exact ⟨fun _ => h0 (by simp), h1⟩
    · obtain ⟨h0, h1⟩ := packBins_ne_nil fps bin0 (bin1.1 ++ [fp], bin1.2 + fileTokens fp)
      exact ⟨h0, fun _ => h1 (by simp)⟩

/-- The first file goes to the first bin, the second one to the other. -/
theorem packBins_two (hpos : ∀ fp, 0 < fileTokens fp) {fps : List String} (h : 2 ≤ fps.length) :
    (packBins fileTokens fps ([], 0) ([], 0)).1 ≠ [] ∧
      (packBins fileTokens fps ([], 0) ([], 0)).2 ≠ [] := by
  match fps, h with
  | a :: b :: fps, _ =>
    have ha := hpos a
    rw [packBins, if_pos (Int.le_refl 0), packBins, if_neg (by simpa using ha)]
    exact ⟨(packBins_ne_nil fps _ _).1 (by simp), (packBins_ne_nil fps _ _).2 (by simp)⟩

theorem labelled_perm (h : TwoLabels kmeans) (paths : List String) :
    (labelled paths (kmeans paths) 0 ++ labelled paths (kmeans paths) 1).Perm paths := by
  obtain ⟨hlen, htwo⟩ := h paths
  have hone : (paths.zip (kmeans paths)).filter (·.2 = 1) =
      (paths.zip (kmeans paths)).filter fun x => !decide (x.2 = 0) := by
    refine List.filter_congr fun x hx => ?_
    rcases htwo x.2 (List.of_mem_zip hx).2 with h | h
    · simp [h]
    · simp [h]
  have hsplit := (List.filter_append_perm (fun x : String × ℤ => decide (x.2 = 0))
    (paths.zip (kmeans paths))).map (·.1)
  rw [List.map_append, List.map_fst_zip (by omega)] at hsplit
  rw [labelled, labelled, hone]
  exact hsplit

variable {paths : List String}

/-- Two files or more are cut in two parts that are not empty. -/
theorem splitInTwo_spec (hpos : ∀ fp, 0 < fileTokens fp) (hk : TwoLabels kmeans)
    (h : 2 ≤ paths.length) :
    ((splitInTwo fileTokens kmeans paths).1 ++ (splitInTwo fileTokens kmeans paths).2).Perm paths ∧
      (splitInTwo fileTokens kmeans paths).1 ≠ [] ∧
      (splitInTwo fileTokens kmeans paths).2 ≠ [] := by
  by_cases hempty : labelled paths (kmeans paths) 0 = [] ∨ labelled paths (kmeans paths) 1 = []
  · have hsort := List.mergeSort_perm paths fun a b => decide (fileTokens b ≤ fileTokens a)
    have hpack : splitInTwo fileTokens kmeans paths = packBins fileTokens
        (paths.mergeSort fun a b => fileTokens b ≤ fileTokens a) ([], 0) ([], 0) := if_pos hempty
    rw [hpack]
    refine ⟨?_, packBins_two hpos (by rw [hsort.length_eq]; exact h)⟩
    exact (packBins_perm _ _ _).trans (by simpa using hsort)
  · have hkmeans : splitInTwo fileTokens kmeans paths =
        (labelled paths (kmeans paths) 0, labelled paths (kmeans paths) 1) := if_neg hempty
    rw [hkmeans]
    rw [not_or] at hempty
    exact ⟨labelled_perm hk paths, hempty.1, hempty.2⟩

/-! ## Splitting -/

/-- Within the budget, or a single file. -/
def Within (fileTokens : String → ℤ) (maxTokens : ℤ) (cluster : List String) : Prop :=
  clusterTokens fileTokens cluster ≤ maxTokens ∨ cluster.length = 1

/-- The clusters share out the files : none is empty, and each is within the budget. -/
structure Shares (fileTokens : String → ℤ) (maxTokens : ℤ) (paths : List String)
    (clusters : List (List String)) : Prop where
  perm : clusters.flatten.Perm paths
  nonempty : ∀ c ∈ clusters, c ≠ []
  within : ∀ c ∈ clusters, Within fileTokens maxTokens c

theorem Shares.append {as bs paths : List String} {cs ds : List (List String)}
    (hc : Shares fileTokens maxTokens as cs) (hd : Shares fileTokens maxTokens bs ds)
    (h : (as ++ bs).Perm paths) : Shares fileTokens maxTokens paths (cs ++ ds) where
  perm := by
    rw [List.flatten_append]
    exact (hc.perm.append hd.perm).trans h
  nonempty c hmem := (List.mem_append.1 hmem).elim (hc.nonempty c) (hd.nonempty c)
  within c hmem := (List.mem_append.1 hmem).elim (hc.within c) (hd.within c)

theorem Shares.of_perm {as bs : List String} {cs : List (List String)}
    (hc : Shares fileTokens maxTokens as cs) (h : as.Perm bs) :
    Shares fileTokens maxTokens bs cs where
  perm := hc.perm.trans h
  nonempty := hc.nonempty
  within := hc.within

theorem Shares.singleton (hne : paths ≠ [])
    (h : Within fileTokens maxTokens paths) : Shares fileTokens maxTokens paths [paths] where
  perm := by simp
  nonempty c hmem := List.mem_singleton.1 hmem ▸ hne
  within c hmem := List.mem_singleton.1 hmem ▸ h

/-- The recursion returns, with as many steps as there are files. -/
theorem split_spec (maxTokens : ℤ) (hpos : ∀ fp, 0 < fileTokens fp) (hk : TwoLabels kmeans) :
    ∀ (n : ℕ) (paths : List String), paths.length ≤ n → paths ≠ [] →
      ∃ parts, Shares fileTokens maxTokens paths parts ∧
        ∀ fuel, n ≤ fuel →
          splitClusterRecursively fileTokens maxTokens kmeans fuel paths = some parts
  | 0, paths, hlen, hne => absurd (List.length_eq_zero_iff.1 (Nat.le_zero.1 hlen)) hne
  | n + 1, paths, hlen, hne => by
    by_cases hdone : clusterTokens fileTokens paths ≤ maxTokens ∨ paths.length ≤ 1
    · refine ⟨[paths], Shares.singleton hne (hdone.imp_right fun h => ?_), fun fuel hfuel => ?_⟩
      · exact Nat.le_antisymm h (List.length_pos_iff.2 hne)
      · obtain ⟨fuel, rfl⟩ := Nat.exists_eq_add_of_le' hfuel
        rw [← Nat.add_assoc, splitClusterRecursively, if_pos hdone]
    · have hlong : 2 ≤ paths.length := by
        rw [not_or] at hdone
        omega
      obtain ⟨hperm, hne0, hne1⟩ := splitInTwo_spec hpos hk hlong
      -- each part leaves the other one's files out
      have hsum := hperm.length_eq
      rw [List.length_append] at hsum
      have hpos0 := List.length_pos_iff.2 hne0
      have hpos1 := List.length_pos_iff.2 hne1
      obtain ⟨parts0, hshare0, hrun0⟩ := split_spec maxTokens hpos hk n _ (by omega) hne0
      obtain ⟨parts1, hshare1, hrun1⟩ := split_spec maxTokens hpos hk n _ (by omega) hne1
      refine ⟨parts0 ++ parts1, hshare0.append hshare1 hperm, fun fuel hfuel => ?_⟩
      obtain ⟨fuel, rfl⟩ := Nat.exists_eq_add_of_le' hfuel
      have hn : n ≤ fuel + n := Nat.le_add_left n fuel
      rw [← Nat.add_assoc, splitClusterRecursively, if_neg hdone]
      simp only [hrun0 _ hn, hrun1 _ hn]
      rfl

/-- Every cluster is left within the budget. -/
theorem splitOversized_spec (maxTokens : ℤ) (hpos : ∀ fp, 0 < fileTokens fp)
    (hk : TwoLabels kmeans) (n : ℕ) :
    ∀ (clusters : List (List String)), (∀ c ∈ clusters, c ≠ [] ∧ c.length ≤ n) →
      ∃ parts numSplits, Shares fileTokens maxTokens clusters.flatten parts ∧
        ∀ fuel, n ≤ fuel →
          splitOversized fileTokens maxTokens kmeans fuel clusters = some (parts, numSplits)
  | [], _ => ⟨[], 0, ⟨by simp, by simp, by simp⟩, fun _ _ => rfl⟩
  | cluster :: clusters, h => by
    obtain ⟨hne, hlen⟩ := h cluster List.mem_cons_self
    obtain ⟨rest, numSplits, hrest, hrun⟩ := splitOversized_spec maxTokens hpos hk n clusters
      fun c hc => h c (List.mem_cons_of_mem _ hc)
    by_cases hover : maxTokens < clusterTokens fileTokens cluster ∧ 1 < cluster.length
    · obtain ⟨parts, hparts, hsplit⟩ := split_spec maxTokens hpos hk n cluster hlen hne
      refine ⟨parts ++ rest, numSplits + 1, hparts.append hrest (by simp), fun fuel hfuel => ?_⟩
      rw [splitOversized, if_pos hover, hsplit fuel hfuel, hrun fuel hfuel]
      rfl
    · have hwithin : Within fileTokens maxTokens cluster := by
        have hpos := List.length_pos_iff.2 hne
        rw [Within]
        omega
      refine ⟨cluster :: rest, numSplits, (Shares.singleton hne hwithin).append hrest (by simp),
        fun fuel hfuel => ?_⟩
      rw [splitOversized, if_neg hover, hrun fuel hfuel]
      rfl

end Split

end ChunkHound.Clusters
