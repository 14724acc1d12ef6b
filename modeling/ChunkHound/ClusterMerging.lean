import ChunkHound.ClusterSplitting

/-!
# Bounded clustering

`cluster_files_hdbscan_bounded` of `services/clustering_service.py` : HDBSCAN labels the
files, oversized clusters are split (`splitOversized`), and then the smallest cluster below
`min_tokens_per_cluster` is merged into the nearest one the budget allows, until there is
none, or none that fits.

`Services` holds the token estimates, the vectors and their arithmetic, and the two
clusterings. The dictionary of files is a list of paths with contents, that of clusters a
list of ids with paths in insertion order. A set of labels is taken in the order they first
occur. `avg_tokens_per_cluster`, a float, is left out.
-/

namespace ChunkHound.Clusters

open Grouping

/-- What clustering relies on. `hdbscan` is the labelling `fit_predict` gives the vectors of the
files for a `min_cluster_size`, none when it raises. -/
structure Services (ε δ : Type) where
  estimateTokens : String → ℤ
  embedding : String → ε
  mean : List ε → ε
  distance : ε → ε → δ
  lt : δ → δ → Bool
  hdbscan : ℤ → List String → Option (List ℤ)
  kmeans : List String → List ℤ

structure ClusterGroup where
  clusterId : ℕ
  filePaths : List String
  filesContent : List (String × String)
  totalTokens : ℤ
  deriving DecidableEq, Repr

/-- `num_unmergeable` is missing for a single file. -/
structure Metadata where
  numClusters : ℕ
  numNativeClusters : ℕ
  numOutliers : ℕ
  numSplits : ℕ
  numMerges : ℕ
  numUnmergeable : Option ℕ
  totalFiles : ℕ
  totalTokens : ℤ
  deriving DecidableEq, Repr

structure MergeState where
  clusters : List (ℕ × List String)
  unmergeable : List ℕ
  numMerges : ℕ
  numUnmergeable : ℕ
  deriving DecidableEq, Repr

section Clustering

variable {ε δ : Type} (services : Services ε δ)

/-! ## HDBSCAN's clusters -/

/-- `min(labels, key=…)` : the first one no other is below. -/
def nearest (key : ℤ → δ) : List ℤ → Option ℤ
  | [] => none
  | l :: ls =>
    match nearest key ls with
    | none => some l
    | some m => if services.lt (key m) (key l) then some m else some l

/-- `_reassign_outliers_to_nearest`. -/
def reassignOutliersToNearest (paths : List String) (labels : List ℤ) : List ℤ :=
  if labels.all (· ≠ -1) then labels
  else
    let validLabels := (labels.filter (· ≠ -1)).dedup
    if validLabels = [] then labels.map fun _ => 0
    else
      let centroid (l : ℤ) := services.mean ((labelled paths labels l).map services.embedding)
      (paths.zip labels).map fun (fp, l) =>
        if l = -1 then
          (nearest services (fun m => services.distance (services.embedding fp) (centroid m))
            validLabels).getD l
        else l

/-- The labels of `fit_predict`, or one label for all the files when it raises. -/
def fitPredict (minClusterSize : ℤ) (paths : List String) : List ℤ :=
  (services.hdbscan (max 2 (min minClusterSize (paths.length - 1))) paths).getD
    (paths.map fun _ => 0)

/-- `cluster_to_files` : the files by label. -/
def initialClusters (paths : List String) (labels : List ℤ) : List (List String) :=
  (groupBy (·.2) (paths.zip labels)).map fun g => g.2.map (·.1)

/-! ## Merging -/

variable (fileTokens : String → ℤ) (minTokens maxTokens : ℤ)

/-- `min(cluster_tokens_map, key=cluster_tokens_map.get)`. -/
def smallestCluster : List (ℕ × List String) → Option (ℕ × List String)
  | [] => none
  | c :: cs =>
    match smallestCluster cs with
    | none => some c
    | some d => if clusterTokens fileTokens d.2 < clusterTokens fileTokens c.2 then some d else some c

def computeCentroid (paths : List String) : ε :=
  services.mean (paths.map services.embedding)

/-- `find_valid_merge_target`. -/
def findValidMergeTarget (smallest : ℕ × List String) (clusters : List (ℕ × List String)) :
    Option ℕ :=
  let candidates := clusters.filterMap fun c =>
    if c.1 = smallest.1 then none
    else if clusterTokens fileTokens smallest.2 + clusterTokens fileTokens c.2 ≤ maxTokens then
      some (c.1, services.distance (computeCentroid services smallest.2)
        (computeCentroid services c.2))
    else none
  (candidates.mergeSort fun a b => !services.lt b.2 a.2).head?.map (·.1)

/-- Extend the target, and delete the cluster merged into it. -/
def mergeInto (smallest : ℕ × List String) (target : ℕ) (clusters : List (ℕ × List String)) :
    List (ℕ × List String) :=
  (clusters.map fun c => if c.1 = target then (c.1, c.2 ++ smallest.2) else c).filter
    (·.1 ≠ smallest.1)

/-- The body of the merge loop. None at a `break`. -/
def mergeStep (st : MergeState) : Option MergeState :=
  if st.clusters.length ≤ 1 then none
  else
    match smallestCluster fileTokens (st.clusters.filter (·.1 ∉ st.unmergeable)) with
    | none => none
    | some smallest =>
      if minTokens ≤ clusterTokens fileTokens smallest.2 then none
      else
        match findValidMergeTarget services fileTokens maxTokens smallest st.clusters with
        | none => some
            { st with
              unmergeable := smallest.1 :: st.unmergeable
              numUnmergeable := st.numUnmergeable + 1 }
        | some target => some
            { st with
              clusters := mergeInto smallest target st.clusters
              numMerges := st.numMerges + 1 }

def mergeLoop : ℕ → MergeState → Option MergeState
  | 0, _ => none
  | fuel + 1, st =>
    match mergeStep services fileTokens minTokens maxTokens st with
    | none => some st
    | some st' => mergeLoop fuel st'

/-! ## The whole clustering -/

/-- `files[fp]`. -/
def contentOf (files : List (String × String)) (fp : String) : String :=
  (files.lookup fp).getD ""

/-- Phase 3 : number the clusters from zero, in the order of their ids. -/
def renumber (files : List (String × String)) (fileTokens : String → ℤ)
    (clusters : List (ℕ × List String)) : List ClusterGroup :=
  (clusters.mergeSort fun a b => a.1 ≤ b.1).zipIdx.map fun (c, newId) =>
    { clusterId := newId
      filePaths := c.2
      filesContent := c.2.map fun fp => (fp, contentOf files fp)
      totalTokens := clusterTokens fileTokens c.2 }

def metadataOf (paths : List String) (totalTokens : ℤ) (labels : List ℤ)
    (groups : List ClusterGroup) (numSplits : ℕ) (st : MergeState) : Metadata where
  numClusters := groups.length
  numNativeClusters := (labels.dedup.filter (0 ≤ ·)).length
  numOutliers := labels.count (-1)
  numSplits := numSplits
  numMerges := st.numMerges
  numUnmergeable := some st.numUnmergeable
  totalFiles := paths.length
  totalTokens := totalTokens

/-- `cluster_files_hdbscan_bounded`. None when the fuel runs out. -/
def clusterFilesHdbscanBounded (minClusterSize minTokens maxTokens : ℤ) (fuel : ℕ)
    (files : List (String × String)) : Option (Except String (List ClusterGroup × Metadata)) :=
  let fileTokens fp := services.estimateTokens (contentOf files fp)
  let filePaths := files.map (·.1)
  let totalTokens := clusterTokens fileTokens filePaths
  if files = [] then some (.error "Cannot cluster empty files dictionary")
  else if files.length = 1 then
    some (.ok ([⟨0, filePaths, files, totalTokens⟩], ⟨1, 1, 0, 0, 0, none, 1, totalTokens⟩))
  else
    let labels := fitPredict services minClusterSize filePaths
    let reassigned := reassignOutliersToNearest services filePaths labels
    do
      let (clusters, numSplits) ← splitOversized fileTokens maxTokens services.kmeans fuel
        (initialClusters filePaths reassigned)
      let st ← mergeLoop services fileTokens minTokens maxTokens fuel
        ⟨clusters.zipIdx.map fun (c, i) => (i, c), [], 0, 0⟩
      let groups := renumber files fileTokens st.clusters
      return .ok (groups, metadataOf filePaths totalTokens labels groups numSplits st)

end Clustering

section Clustering

variable {ε δ : Type} {services : Services ε δ} {fileTokens : String → ℤ}
  {minTokens maxTokens : ℤ} {paths : List String}

/-! ## HDBSCAN's clusters share out the files -/

variable {labels : List ℤ}

theorem length_reassignOutliersToNearest (services : Services ε δ)
    (h : labels.length = paths.length) :
    (reassignOutliersToNearest services paths labels).length = paths.length := by
  unfold reassignOutliersToNearest
  split
  · exact h
  · by_cases hvalid : (labels.filter (· ≠ -1)).dedup = []
    · simp only [if_pos hvalid, List.length_map, h]
    · simp only [if_neg hvalid, List.length_map, List.length_zip, h, Nat.min_self]

theorem initialClusters_perm (h : labels.length = paths.length) :
    (initialClusters paths labels).flatten.Perm paths := by
  have hgroups := (flatMap_groupBy_perm (fun x : String × ℤ => x.2) (paths.zip labels)).map (·.1)
  rw [List.map_fst_zip (by omega)] at hgroups
  have hflat : (initialClusters paths labels).flatten =
      ((groupBy (fun x : String × ℤ => x.2) (paths.zip labels)).flatMap (·.2)).map (·.1) := by
    rw [initialClusters, ← List.flatMap_def, List.map_flatMap]
  rwa [hflat]

theorem ne_nil_of_mem_initialClusters :
    ∀ c ∈ initialClusters paths labels, c ≠ [] := by
  intro c hc
  obtain ⟨g, hg, rfl⟩ := List.mem_map.1 hc
  simpa using ne_nil_of_mem_groupBy _ _ g hg

theorem length_le_of_mem_initialClusters (h : labels.length = paths.length) :
    ∀ c ∈ initialClusters paths labels, c.length ≤ paths.length := by
  intro c hc
  rw [← (initialClusters_perm h).length_eq]
  exact (List.sublist_flatten_of_mem hc).length_le

theorem length_fitPredict (h : ∀ size paths labels, services.hdbscan size paths = some labels →
      labels.length = paths.length) (minClusterSize : ℤ) (paths : List String) :
    (fitPredict services minClusterSize paths).length = paths.length := by
  unfold fitPredict
  cases hl : services.hdbscan (max 2 (min minClusterSize (paths.length - 1))) paths with
  | none => exact List.length_map _
  | some labels => exact h _ _ _ hl

/-! ## One merge -/

theorem smallestCluster_spec : ∀ {cs : List (ℕ × List String)} {c : ℕ × List String},
    smallestCluster fileTokens cs = some c → c ∈ cs ∧
      ∀ d ∈ cs, clusterTokens fileTokens c.2 ≤ clusterTokens fileTokens d.2
  | [], c, h => by simp [smallestCluster] at h
  | a :: cs, c, h => by
    rw [smallestCluster] at h
    cases hs : smallestCluster fileTokens cs with
    | none =>
      obtain rfl : cs = [] := by
        cases cs with
        | nil => rfl
        | cons b bs =>
          rw [smallestCluster] at hs
          split at hs
          · cases hs
          · split at hs <;> cases hs
      obtain rfl : a = c := by simpa [smallestCluster] using h
      simp
    | some d =>
      obtain ⟨hd, hmin⟩ := smallestCluster_spec hs
      simp only [hs] at h
      split at h
      · obtain rfl := Option.some.inj h
        rename_i hlt
        refine ⟨List.mem_cons_of_mem _ hd, fun e he => ?_⟩
        rcases List.mem_cons.1 he with rfl | he
        · exact Int.le_of_lt hlt
        · exact hmin e he
      · obtain rfl := Option.some.inj h
        rename_i hle
        refine ⟨List.mem_cons_self, fun e he => ?_⟩
        rcases List.mem_cons.1 he with rfl | he
        · exact Int.le_refl _
        · exact Int.le_trans (Int.not_lt.1 hle) (hmin e he)

theorem smallestCluster_none {cs : List (ℕ × List String)}
    (h : smallestCluster fileTokens cs = none) : cs = [] := by
  cases cs with
  | nil => rfl
  | cons c cs =>
    rw [smallestCluster] at h
    split at h
    · cases h
    · split at h <;> cases h

variable {clusters : List (ℕ × List String)} {smallest : ℕ × List String}

/-- A target is another cluster that fits. -/
theorem findValidMergeTarget_some {target : ℕ}
    (h : findValidMergeTarget services fileTokens maxTokens smallest clusters = some target) :
    ∃ c ∈ clusters, c.1 = target ∧ c.1 ≠ smallest.1 ∧
      clusterTokens fileTokens smallest.2 + clusterTokens fileTokens c.2 ≤ maxTokens := by
  obtain ⟨x, hx, rfl⟩ := Option.map_eq_some_iff.1 h
  have hmem := List.mem_mergeSort.1 (List.mem_of_head? hx)
  obtain ⟨c, hc, hx⟩ := List.mem_filterMap.1 hmem
  split at hx
  · cases hx
  · split at hx
    · obtain rfl := Option.some.inj hx
      exact ⟨c, hc, rfl, ‹_›, ‹_›⟩
    · cases hx

theorem findValidMergeTarget_none
    (h : findValidMergeTarget services fileTokens maxTokens smallest clusters = none) :
    ∀ c ∈ clusters, c.1 ≠ smallest.1 →
      maxTokens < clusterTokens fileTokens smallest.2 + clusterTokens fileTokens c.2 := by
  intro c hc hne
  by_contra hfit
  have hnil := List.head?_eq_none_iff.1 (Option.map_eq_none_iff.1 h)
  have hmem : (c.1, services.distance (computeCentroid services smallest.2)
      (computeCentroid services c.2)) ∈ clusters.filterMap fun c =>
        if c.1 = smallest.1 then none
        else if clusterTokens fileTokens smallest.2 + clusterTokens fileTokens c.2 ≤ maxTokens then
          some (c.1, services.distance (computeCentroid services smallest.2)
            (computeCentroid services c.2))
        else none :=
    List.mem_filterMap.2 ⟨c, hc, by rw [if_neg hne, if_pos (Int.not_lt.1 hfit)]⟩
  have hsorted := (List.mergeSort_perm _ fun a b : ℕ × δ => !services.lt b.2 a.2).symm.subset hmem
  rw [hnil] at hsorted
  exact List.not_mem_nil hsorted

/-- Two clusters and the rest : the merge leaves one cluster and the rest. -/
theorem mergeInto_perm (hids : (clusters.map (·.1)).Nodup)
    {smallest target : ℕ × List String} (hs : smallest ∈ clusters) (ht : target ∈ clusters)
    (hne : target.1 ≠ smallest.1) : ∃ rest, clusters.Perm (smallest :: target :: rest) ∧
      (mergeInto smallest target.1 clusters).Perm
        ((target.1, target.2 ++ smallest.2) :: rest) := by
  have hs' := List.perm_cons_erase hs
  have ht' : target ∈ clusters.erase smallest :=
    (List.mem_cons.1 (hs'.subset ht)).resolve_left fun h => hne (by rw [h])
  have hperm := hs'.trans ((List.perm_cons_erase ht').cons smallest)
  refine ⟨(clusters.erase smallest).erase target, hperm, ?_⟩
  have hnodup := (hperm.map (·.1)).nodup_iff.1 hids
  generalize (clusters.erase smallest).erase target = rest at hperm hnodup
  rw [List.map_cons, List.map_cons, List.nodup_cons, List.nodup_cons, List.mem_cons,
    not_or] at hnodup
  obtain ⟨⟨-, hsrest⟩, htrest, -⟩ := hnodup
  have hrest : ∀ c ∈ rest, c.1 ≠ target.1 ∧ c.1 ≠ smallest.1 := fun c hc =>
    ⟨fun h => htrest (h ▸ List.mem_map_of_mem hc), fun h => hsrest (h ▸ List.mem_map_of_mem hc)⟩
  have hkept : mergeInto smallest target.1 rest = rest := by
    have hmap : rest.map (fun c => if c.1 = target.1 then (c.1, c.2 ++ smallest.2) else c) =
        rest.map id := List.map_congr_left fun c hc => if_neg (hrest c hc).1
    rw [mergeInto, hmap, List.map_id, List.filter_eq_self]
    exact fun c hc => decide_eq_true (hrest c hc).2
  have hmerged := (hperm.map fun c =>
    if c.1 = target.1 then (c.1, c.2 ++ smallest.2) else c).filter (·.1 ≠ smallest.1)
  rw [List.map_cons, List.map_cons, if_neg (Ne.symm hne), if_pos rfl,
    List.filter_cons_of_neg (by simp), List.filter_cons_of_pos (by simpa using hne)] at hmerged
  exact hmerged.trans (List.Perm.of_eq (by rw [← mergeInto, hkept]))

/-! ## The merge loop -/

/-- The clusters share out the files, and an unmergeable one fits with no other. -/
structure Merging (fileTokens : String → ℤ) (maxTokens : ℤ) (paths : List String)
    (st : MergeState) : Prop where
  ids : (st.clusters.map (·.1)).Nodup
  shares : Shares fileTokens maxTokens paths (st.clusters.map (·.2))
  stuck : ∀ c ∈ st.clusters, c.1 ∈ st.unmergeable → ∀ d ∈ st.clusters, d.1 ≠ c.1 →
    maxTokens < clusterTokens fileTokens c.2 + clusterTokens fileTokens d.2

/-- What a round uses up : a cluster, or one that was not marked yet. -/
def MergeState.remaining (st : MergeState) : ℕ :=
  st.clusters.length + (st.clusters.filter (·.1 ∉ st.unmergeable)).length

variable {st : MergeState}

/-- Marking the smallest cluster. -/
theorem Merging.mark (h : Merging fileTokens maxTokens paths st)
    (hfits : ∀ c ∈ st.clusters, c.1 ≠ smallest.1 →
      maxTokens < clusterTokens fileTokens smallest.2 + clusterTokens fileTokens c.2)
    (hs : smallest ∈ st.clusters) (n : ℕ) : Merging fileTokens maxTokens paths
      { st with unmergeable := smallest.1 :: st.unmergeable, numUnmergeable := n } where
  ids := h.ids
  shares := h.shares
  stuck c hc hmem d hd hne := by
    rcases List.mem_cons.1 hmem with hid | hmem
    · obtain rfl : c = smallest := List.inj_on_of_nodup_map h.ids hc hs hid
      exact hfits d hd hne
    · exact h.stuck c hc hmem d hd hne

theorem remaining_mark (hs : smallest ∈ st.clusters.filter (·.1 ∉ st.unmergeable)) (n : ℕ) :
    MergeState.remaining
        { st with unmergeable := smallest.1 :: st.unmergeable, numUnmergeable := n } <
      st.remaining := by
  have hfewer : (st.clusters.filter (·.1 ∉ smallest.1 :: st.unmergeable)).length <
      (st.clusters.filter (·.1 ∉ st.unmergeable)).length := by
    have hsub : st.clusters.filter (·.1 ∉ smallest.1 :: st.unmergeable) =
        (st.clusters.filter (·.1 ∉ st.unmergeable)).filter (·.1 ≠ smallest.1) := by
      rw [List.filter_filter]
      refine List.filter_congr fun c _ => ?_
      simp [not_or]
    rw [hsub]
    exact List.length_filter_lt_length_iff_exists.2 ⟨smallest, hs, by simp⟩
  exact Nat.add_lt_add_left hfewer _

/-- Merging the smallest cluster into one it fits with. -/
theorem Merging.merge (hpos : ∀ fp, 0 < fileTokens fp)
    (h : Merging fileTokens maxTokens paths st) {smallest target : ℕ × List String}
    (hs : smallest ∈ st.clusters.filter (·.1 ∉ st.unmergeable)) (ht : target ∈ st.clusters)
    (hne : target.1 ≠ smallest.1)
    (hfits : clusterTokens fileTokens smallest.2 + clusterTokens fileTokens target.2 ≤ maxTokens)
    (n : ℕ) :
    Merging fileTokens maxTokens paths
        { st with clusters := mergeInto smallest target.1 st.clusters, numMerges := n } ∧
      MergeState.remaining
          { st with clusters := mergeInto smallest target.1 st.clusters, numMerges := n } <
        st.remaining := by
  obtain ⟨hsmem, hsfree⟩ := List.mem_filter.1 hs
  obtain ⟨rest, hold, hnew⟩ := mergeInto_perm h.ids hsmem ht hne
  have hsum : clusterTokens fileTokens (target.2 ++ smallest.2) =
      clusterTokens fileTokens smallest.2 + clusterTokens fileTokens target.2 := by
    rw [clusterTokens_append, Int.add_comm]
  have hrest : ∀ c ∈ rest, c ∈ st.clusters := fun c hc =>
    hold.symm.subset (List.mem_cons_of_mem _ (List.mem_cons_of_mem _ hc))
  have hmem : ∀ c ∈ mergeInto smallest target.1 st.clusters,
      c = (target.1, target.2 ++ smallest.2) ∨ c ∈ rest := fun c hc =>
    List.mem_cons.1 (hnew.subset hc)
  have hids := (hold.map (·.1)).nodup_iff.1 h.ids
  -- a target that is marked would not have fit
  have htfree : target.1 ∉ st.unmergeable := fun hmarked => by
    have := h.stuck target ht hmarked smallest hsmem (Ne.symm hne)
    omega
  refine ⟨⟨?_, ⟨?_, ?_, ?_⟩, ?_⟩, ?_⟩
  · rw [(hnew.map (·.1)).nodup_iff]
    exact (List.nodup_cons.1 hids).2
  · refine List.Perm.trans ?_ h.shares.perm
    have hflat := (hnew.map (·.2)).flatten
    have hflat' := (hold.map (·.2)).flatten
    refine hflat.trans (List.Perm.trans ?_ hflat'.symm)
    simp only [List.map_cons, List.flatten_cons, ← List.append_assoc]
    exact List.perm_append_comm.append_right _
  · intro c hc
    obtain ⟨d, hd, rfl⟩ := List.mem_map.1 hc
    rcases hmem d hd with rfl | hd
    · have := h.shares.nonempty target.2 (List.mem_map_of_mem ht)
      simp [this]
    · exact h.shares.nonempty d.2 (List.mem_map_of_mem (hrest d hd))
  · intro c hc
    obtain ⟨d, hd, rfl⟩ := List.mem_map.1 hc
    rcases hmem d hd with rfl | hd
    · exact Or.inl (hsum ▸ hfits)
    · exact h.shares.within d.2 (List.mem_map_of_mem (hrest d hd))
  · intro c hc hmarked d hd hdc
    rcases hmem c hc with rfl | hcr
    · exact absurd hmarked htfree
    · rcases hmem d hd with rfl | hdr
      · have := h.stuck c (hrest c hcr) hmarked target ht hdc
        have := clusterTokens_nonneg hpos smallest.2
        simp only [hsum]
        omega
      · exact h.stuck c (hrest c hcr) hmarked d (hrest d hdr) hdc
  · have hlen := hnew.length_eq
    have hlen' := hold.length_eq
    have hfree := (hnew.filter (·.1 ∉ st.unmergeable)).length_eq
    have hfree' := (hold.filter (·.1 ∉ st.unmergeable)).length_eq
    rw [List.filter_cons_of_pos (by simpa using htfree), List.length_cons] at hfree
    rw [List.filter_cons_of_pos (by simpa using hsfree),
      List.filter_cons_of_pos (by simpa using htfree),
      List.length_cons, List.length_cons] at hfree'
    simp only [List.length_cons] at hlen hlen'
    unfold MergeState.remaining
    simp only
    omega

/-- A round keeps the invariant and comes closer to the end. -/
theorem mergeStep_some (hpos : ∀ fp, 0 < fileTokens fp) {st st' : MergeState}
    (h : Merging fileTokens maxTokens paths st)
    (hs : mergeStep services fileTokens minTokens maxTokens st = some st') :
    Merging fileTokens maxTokens paths st' ∧ st'.remaining < st.remaining := by
  unfold mergeStep at hs
  split at hs
  · cases hs
  · split at hs
    · cases hs
    · rename_i smallest hsmallest
      have hmem := (smallestCluster_spec hsmallest).1
      split at hs
      · cases hs
      · split at hs
        · rename_i hnone
          obtain rfl := Option.some.inj hs
          exact ⟨h.mark (findValidMergeTarget_none hnone) (List.mem_filter.1 hmem).1 _,
            remaining_mark hmem _⟩
        · rename_i target htarget
          obtain rfl := Option.some.inj hs
          obtain ⟨c, hc, rfl, hne, hfits⟩ := findValidMergeTarget_some htarget
          exact h.merge hpos hmem hc hne hfits _

/-- No two clusters one of which is below the minimum fit together. -/
def Settled (fileTokens : String → ℤ) (minTokens maxTokens : ℤ)
    (clusters : List (ℕ × List String)) : Prop :=
  ∀ c ∈ clusters, ∀ d ∈ clusters, d.1 ≠ c.1 → clusterTokens fileTokens c.2 < minTokens →
    maxTokens < clusterTokens fileTokens c.2 + clusterTokens fileTokens d.2

theorem mergeStep_none (h : Merging fileTokens maxTokens paths st)
    (hs : mergeStep services fileTokens minTokens maxTokens st = none) :
    Settled fileTokens minTokens maxTokens st.clusters := by
  intro c hc d hd hne hlow
  unfold mergeStep at hs
  split at hs
  · rename_i hlen
    obtain ⟨e, he⟩ : ∃ e, st.clusters = [e] := List.length_eq_one_iff.1
      (Nat.le_antisymm hlen (List.length_pos_of_mem hc))
    rw [he] at hc hd
    rw [List.mem_singleton.1 hc, List.mem_singleton.1 hd] at hne
    exact absurd rfl hne
  · -- a cluster below the minimum is marked
    have hmarked : c.1 ∈ st.unmergeable := by
      by_contra hfree
      have hmem : c ∈ st.clusters.filter (·.1 ∉ st.unmergeable) :=
        List.mem_filter.2 ⟨hc, decide_eq_true hfree⟩
      split at hs
      · rename_i hnone
        rw [smallestCluster_none hnone] at hmem
        exact List.not_mem_nil hmem
      · rename_i smallest hsmallest
        have := (smallestCluster_spec hsmallest).2 c hmem
        split at hs
        · omega
        · split at hs <;> cases hs
    exact h.stuck c hc hmarked d hd hne

/-- The loop ends, with the invariant, where nothing is left to merge. -/
theorem mergeLoop_spec (services : Services ε δ) (minTokens : ℤ)
    (hpos : ∀ fp, 0 < fileTokens fp) :
    ∀ (n : ℕ) {st : MergeState}, st.remaining < n → Merging fileTokens maxTokens paths st →
      ∃ st', Merging fileTokens maxTokens paths st' ∧
        Settled fileTokens minTokens maxTokens st'.clusters ∧
        ∀ fuel, n ≤ fuel → mergeLoop services fileTokens minTokens maxTokens fuel st = some st'
  | 0, _, hn, _ => absurd hn (Nat.not_lt_zero _)
  | n + 1, st, hn, h => by
    cases hs : mergeStep services fileTokens minTokens maxTokens st with
    | none =>
      refine ⟨st, h, mergeStep_none h hs, fun fuel hfuel => ?_⟩
      obtain ⟨fuel, rfl⟩ := Nat.exists_eq_add_of_le' hfuel
      rw [← Nat.add_assoc, mergeLoop, hs]
    | some st₁ =>
      obtain ⟨h₁, hlt⟩ := mergeStep_some hpos h hs
      obtain ⟨st', h', hsettled, hrun⟩ := mergeLoop_spec services minTokens hpos n (by omega) h₁
      refine ⟨st', h', hsettled, fun fuel hfuel => ?_⟩
      obtain ⟨fuel, rfl⟩ := Nat.exists_eq_add_of_le' hfuel
      rw [← Nat.add_assoc, mergeLoop, hs]
      exact hrun _ (Nat.le_add_left n fuel)

/-! ## The groups -/

/-- The groups share out the files, within the budget, and no group below the minimum fits with
another one. -/
structure Bounded (services : Services ε δ) (files : List (String × String))
    (minTokens maxTokens : ℤ) (groups : List ClusterGroup) : Prop where
  partition : (groups.flatMap (·.filePaths)).Perm (files.map (·.1))
  nonempty : ∀ g ∈ groups, g.filePaths ≠ []
  contents : ∀ g ∈ groups, g.filesContent = g.filePaths.map fun fp => (fp, contentOf files fp)
  tokens : ∀ g ∈ groups, g.totalTokens =
    clusterTokens (fun fp => services.estimateTokens (contentOf files fp)) g.filePaths
  within : ∀ g ∈ groups, maxTokens < g.totalTokens → g.filePaths.length = 1
  merged : groups.Pairwise fun g h => g.totalTokens < minTokens ∨ h.totalTokens < minTokens →
    maxTokens < g.totalTokens + h.totalTokens

theorem map_snd_zipIdx_map {clusters : List (List String)} :
    ((clusters.zipIdx.map fun (c, i) => (i, c)).map (·.2)) = clusters := by
  rw [List.map_map]
  exact List.zipIdx_map_fst 0 clusters

/-- The clusters the merge loop starts from. -/
theorem Merging.start {clusters : List (List String)}
    (h : Shares fileTokens maxTokens paths clusters) :
    Merging fileTokens maxTokens paths ⟨clusters.zipIdx.map fun (c, i) => (i, c), [], 0, 0⟩ where
  ids := by
    have hids : (clusters.zipIdx.map fun (c, i) => (i, c)).map (·.1) =
        clusters.zipIdx.map (·.2) := by
      rw [List.map_map]
      rfl
    rw [hids, List.zipIdx_map_snd]
    exact List.nodup_range'
  shares := by rwa [map_snd_zipIdx_map]
  stuck _ _ hmem := absurd hmem List.not_mem_nil

variable {files : List (String × String)}

theorem mem_renumber {g : ClusterGroup} (hg : g ∈ renumber files fileTokens clusters) :
    ∃ c ∈ clusters, g.filePaths = c.2 ∧
      g.filesContent = c.2.map (fun fp => (fp, contentOf files fp)) ∧
      g.totalTokens = clusterTokens fileTokens c.2 := by
  obtain ⟨⟨c, i⟩, hc, rfl⟩ := List.mem_map.1 hg
  exact ⟨c, List.mem_mergeSort.1 (List.fst_mem_of_mem_zipIdx hc), rfl, rfl, rfl⟩

theorem renumber_filePaths (files : List (String × String)) (clusters : List (ℕ × List String)) :
    (renumber files fileTokens clusters).map (·.filePaths) =
      (clusters.mergeSort fun a b => a.1 ≤ b.1).map (·.2) := by
  have hfst := congrArg (List.map (·.2))
    (List.zipIdx_map_fst 0 (clusters.mergeSort fun a b => a.1 ≤ b.1))
  rw [List.map_map] at hfst
  rw [renumber, List.map_map]
  exact hfst

/-- A relation of the tokens of two clusters is one of those of their groups. -/
theorem pairwise_renumber {R : ℤ → ℤ → Prop}
    (h : (clusters.mergeSort fun a b => a.1 ≤ b.1).Pairwise fun c d =>
      R (clusterTokens fileTokens c.2) (clusterTokens fileTokens d.2)) :
    (renumber files fileTokens clusters).Pairwise fun g h => R g.totalTokens h.totalTokens := by
  rw [renumber, List.pairwise_map]
  rw [← List.zipIdx_map_fst 0 (clusters.mergeSort fun a b => a.1 ≤ b.1), List.pairwise_map] at h
  exact h

theorem bounded_renumber
    (h : Merging (fun fp => services.estimateTokens (contentOf files fp)) maxTokens
      (files.map (·.1)) st)
    (hsettled : Settled (fun fp => services.estimateTokens (contentOf files fp)) minTokens
      maxTokens st.clusters) :
    Bounded services files minTokens maxTokens
      (renumber files (fun fp => services.estimateTokens (contentOf files fp)) st.clusters) where
  partition := by
    have hsort := List.mergeSort_perm st.clusters fun a b => decide (a.1 ≤ b.1)
    rw [List.flatMap_def, renumber_filePaths]
    exact ((hsort.map (·.2)).flatten).trans h.shares.perm
  nonempty g hg := by
    obtain ⟨c, hc, hpaths, -, -⟩ := mem_renumber hg
    rw [hpaths]
    exact h.shares.nonempty c.2 (List.mem_map_of_mem hc)
  contents g hg := by
    obtain ⟨c, -, hpaths, hcontent, -⟩ := mem_renumber hg
    rw [hcontent, hpaths]
  tokens g hg := by
    obtain ⟨c, -, hpaths, -, htokens⟩ := mem_renumber hg
    rw [htokens, hpaths]
  within g hg hover := by
    obtain ⟨c, hc, hpaths, -, htokens⟩ := mem_renumber hg
    rw [htokens] at hover
    rw [hpaths]
    exact (h.shares.within c.2 (List.mem_map_of_mem hc)).resolve_left (Int.not_le.2 hover)
  merged := by
    have hsort := List.mergeSort_perm st.clusters fun a b => decide (a.1 ≤ b.1)
    have hids := (hsort.map (·.1)).nodup_iff.2 h.ids
    rw [List.Nodup, List.pairwise_map] at hids
    refine pairwise_renumber (R := fun m n => m < minTokens ∨ n < minTokens → maxTokens < m + n)
      (hids.imp_of_mem fun {c d} hc hd hne hlow => ?_)
    have hc := hsort.subset hc
    have hd := hsort.subset hd
    rcases hlow with hlow | hlow
    · exact hsettled c hc d hd (Ne.symm hne) hlow
    · have := hsettled d hd c hc hne hlow
      omega

theorem bounded_single (services : Services ε δ) (minTokens maxTokens : ℤ)
    (file : String × String) :
    Bounded services [file] minTokens maxTokens [⟨0, [file.1], [file],
      clusterTokens (fun fp => services.estimateTokens (contentOf [file] fp)) [file.1]⟩] where
  partition := by simp
  nonempty := by simp
  contents := by simp [contentOf, List.lookup]
  tokens := by simp
  within := by simp
  merged := List.pairwise_singleton _ _

/-- The clustering ends, and its groups are bounded, whatever the vectors are and whatever label
HDBSCAN gives a file. -/
theorem clusterFilesHdbscanBounded_spec (services : Services ε δ)
    (hpos : ∀ content, 0 < services.estimateTokens content) (hk : TwoLabels services.kmeans)
    (hlabels : ∀ size paths labels, services.hdbscan size paths = some labels →
      labels.length = paths.length)
    (minClusterSize minTokens maxTokens : ℤ) (files : List (String × String)) :
    (files = [] → ∀ fuel, clusterFilesHdbscanBounded services minClusterSize minTokens maxTokens
        fuel files = some (.error "Cannot cluster empty files dictionary")) ∧
      (files ≠ [] → ∃ groups metadata n, Bounded services files minTokens maxTokens groups ∧
        ∀ fuel, n ≤ fuel → clusterFilesHdbscanBounded services minClusterSize minTokens maxTokens
          fuel files = some (.ok (groups, metadata))) := by
  refine ⟨fun h fuel => if_pos h, fun hne => ?_⟩
  by_cases hone : files.length = 1
  · obtain ⟨file, rfl⟩ := List.length_eq_one_iff.1 hone
    exact ⟨_, ⟨1, 1, 0, 0, 0, none, 1, clusterTokens _ _⟩, 0,
      bounded_single services minTokens maxTokens file, fun fuel _ => rfl⟩
  · have hpos' : ∀ fp, 0 < services.estimateTokens (contentOf files fp) := fun fp => hpos _
    have hlen := length_reassignOutliersToNearest services
      (length_fitPredict hlabels minClusterSize (files.map (·.1)))
    have hperm := initialClusters_perm hlen
    obtain ⟨clusters, numSplits, hshares, hsplit⟩ := splitOversized_spec maxTokens
      hpos' hk files.length _ fun c hc => ⟨ne_nil_of_mem_initialClusters c hc,
        (length_le_of_mem_initialClusters hlen c hc).trans (List.length_map _).le⟩
    have hstart := Merging.start (hshares.of_perm hperm)
    obtain ⟨n, hn⟩ : ∃ n,
        MergeState.remaining ⟨clusters.zipIdx.map fun (c, i) => (i, c), [], 0, 0⟩ < n :=
      ⟨_, Nat.lt_succ_self _⟩
    obtain ⟨st, hst, hsettled, hmerge⟩ := mergeLoop_spec services minTokens hpos' n hn hstart
    have hgroups := bounded_renumber hst hsettled
    generalize hg : renumber files _ st.clusters = groups at hgroups
    refine ⟨groups, metadataOf (files.map (·.1))
      (clusterTokens (fun fp => services.estimateTokens (contentOf files fp)) (files.map (·.1)))
      (fitPredict services minClusterSize (files.map (·.1))) groups numSplits st,
      max files.length n, hgroups, fun fuel hfuel => ?_⟩
    rw [clusterFilesHdbscanBounded, if_neg hne, if_neg hone]
    simp only [hsplit fuel (le_trans (le_max_left _ _) hfuel), Option.bind_eq_bind,
      Option.bind_some, hmerge fuel (le_trans (le_max_right _ _) hfuel), hg]
    rfl

end Clustering

/-- Every file is noise, and k-means puts everything on one side. -/
def degenerate : Services ℕ ℕ where
  estimateTokens content := content.length + 1
  embedding fp := fp.length
  mean xs := xs.sum / xs.length
  distance x y := (x - y) + (y - x)
  lt x y := decide (x < y)
  hdbscan _ paths := some (paths.map fun _ => -1)
  kmeans paths := paths.map fun _ => 0

theorem degenerate_bounded : ∃ groups metadata n,
    Bounded degenerate [("a.py", "x"), ("b.py", "yyyyy"), ("c.py", "zz")] 3 5 groups ∧
      ∀ fuel, n ≤ fuel → clusterFilesHdbscanBounded degenerate 2 3 5 fuel
        [("a.py", "x"), ("b.py", "yyyyy"), ("c.py", "zz")] = some (.ok (groups, metadata)) :=
  (clusterFilesHdbscanBounded_spec degenerate
    (fun content => Int.lt_add_one_of_le (Int.natCast_nonneg content.length))
    (fun paths => ⟨List.length_map _, fun l hl => Or.inl (by
      obtain ⟨_, -, rfl⟩ := List.mem_map.1 hl
      rfl)⟩)
    (fun _ paths labels h => by
      obtain rfl := Option.some.inj h
      exact List.length_map _)
    2 3 5 _).2 (List.cons_ne_nil _ _)

end ChunkHound.Clusters
