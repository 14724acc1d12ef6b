import Mathlib.Data.List.Dedup
import Mathlib.Data.List.NodupEquivFin
import Mathlib.Data.List.Perm.Subperm
import Mathlib.Data.List.Sort
import Mathlib.Data.String.Basic
import Mathlib.Order.WellFounded
import ChunkHound.DelimitedWords
import ChunkHound.OrderedDict

/-!
# Remapping citations

`build_file_reference_map` numbers the files of a set in their order, from 1.
`remap_cluster_citations` replaces the numbers of a cluster by those of all files one after the
other, from the highest down. A file has no smaller number among all files than in its cluster, so
that a number that was written is not replaced again, and the text is that of one simultaneous
substitution (`remapClusterCitations_eq`).
-/

namespace ChunkHound.CitationRemap

open DelimitedWords OrderedDict

abbrev Text := List Char

/-! ## The two functions -/

section Model

variable {P : Type} [LinearOrder P]

/-- The files in their order. -/
def sortedFiles (files : List (P × String)) : List P :=
  (keys files).dedup.insertionSort (· ≤ ·)

/-- The files with their numbers. -/
def buildFileReferenceMap (files : List (P × String)) : List (P × ℕ) := (sortedFiles files).zipIdx 1

/-- `str(n)`. -/
def digits (n : ℕ) : Text := Nat.toDigits 10 n

/-- `[n]`. -/
def citation (n : ℕ) : Text := '[' :: digits n ++ [']']

/-- The files by their numbers. -/
def clusterNumToFile (clusterFileMap : List (P × ℕ)) : List (ℕ × P) :=
  update [] (clusterFileMap.map fun e => (e.2, e.1))

/-- The numbers of a cluster whose files have a global number, with that number. -/
def remapping (clusterFileMap globalFileMap : List (P × ℕ)) : List (ℕ × ℕ) :=
  update [] ((clusterNumToFile clusterFileMap).filterMap fun e =>
    (globalFileMap.lookup e.2).map fun globalNum => (e.1, globalNum))

/-- Replace the citations of one number. -/
def remapCitation (numbers : ℕ → Option ℕ) (text : Text) (clusterNum : ℕ) : Text :=
  match numbers clusterNum with
  | some globalNum => replaceAll (citation clusterNum) (citation globalNum) text
  | none => text

def remapClusterCitations (clusterSummary : Text) (clusterFileMap globalFileMap : List (P × ℕ)) :
    Text :=
  ((keys (remapping clusterFileMap globalFileMap)).insertionSort (· ≥ ·)).foldl
    (remapCitation fun n => (remapping clusterFileMap globalFileMap).lookup n) clusterSummary

/-! ## The simultaneous substitution -/

/-- The number of a citation. -/
def numberOf (body : Text) : Option ℕ :=
  if digits (Nat.ofDigitChars 10 body 0) = body then some (Nat.ofDigitChars 10 body 0) else none

/-- The body of a citation with its number replaced. -/
def renumber (numbers : ℕ → Option ℕ) (body : Text) : Text :=
  match (numberOf body).bind numbers with
  | some n => digits n
  | none => body

/-- All citations with their numbers replaced. -/
def substitute (numbers : ℕ → Option ℕ) (text : Text) : Text :=
  mapWords '[' ']' (renumber numbers) text

/-- The number among all files of the file that has a number in a cluster. -/
def globalNumber (clusterFileMap globalFileMap : List (P × ℕ)) (clusterNum : ℕ) : Option ℕ :=
  (clusterFileMap.find? (·.2 = clusterNum)).bind fun e => globalFileMap.lookup e.1

end Model

/-! ## Citations -/

theorem numberOf_digits (n : ℕ) : numberOf (digits n) = some n := by
  have hdecode : Nat.ofDigitChars 10 (digits n) 0 = n := Nat.ofDigitChars_ten_toDigits
  unfold numberOf
  rw [hdecode, if_pos rfl]

theorem eq_digits_of_numberOf {body : Text} {n : ℕ} (h : numberOf body = some n) :
    body = digits n := by
  unfold numberOf at h
  split at h
  · next hbody =>
    obtain rfl := Option.some.inj h
    exact hbody.symm
  · exact nomatch h

theorem bare_digits (n : ℕ) : Bare '[' ']' (digits n) := by
  have hdigit : ∀ c ∈ digits n, c.isDigit = true := fun c hc =>
    Nat.isDigit_of_mem_toDigits (by decide) (by decide) hc
  exact ⟨fun h => absurd (hdigit _ h) (by decide), fun h => absurd (hdigit _ h) (by decide)⟩

/-- Replacing the citations of a number is renumbering that number. -/
theorem replaceAll_citation (n g : ℕ) (text : Text) :
    replaceAll (citation n) (citation g) text =
      substitute (fun k => if k = n then some g else none) text := by
  unfold citation substitute
  rw [replaceAll_word (by decide) (digits g) (bare_digits n)]
  congr 1
  funext body
  unfold renumber
  cases hbody : numberOf body with
  | none =>
    rw [if_neg]
    · rfl
    · rintro rfl
      rw [numberOf_digits] at hbody
      exact nomatch hbody
  | some k =>
    obtain rfl := eq_digits_of_numberOf hbody
    by_cases hk : k = n
    · simp [hk]
    · have hne : digits k ≠ digits n := fun heq => by
        rw [heq, numberOf_digits] at hbody
        exact hk (Option.some.inj hbody).symm
      simp [hk, hne]

theorem bare_renumber (numbers : ℕ → Option ℕ) {body : Text} (h : Bare '[' ']' body) :
    Bare '[' ']' (renumber numbers body) := by
  unfold renumber
  split
  · exact bare_digits _
  · exact h

/-- Replacing one citation before the others is no different, when what replaces it is not replaced
by them. -/
theorem renumber_comp {numbers : ℕ → Option ℕ} (n : ℕ) {g : ℕ} (hg : numbers g = none) :
    renumber numbers ∘ renumber (fun k => if k = n then some g else none) =
      renumber fun k => if k = n then some g else numbers k := by
  funext body
  rw [Function.comp_apply]
  unfold renumber
  cases hbody : numberOf body with
  | none => simp [hbody]
  | some k =>
    by_cases hk : k = n
    · simp [hk, numberOf_digits, hg]
    · simp [hk, hbody]

/-- Citations that are replaced from the highest number down, each by a number that is not smaller,
are replaced at once. -/
theorem foldl_remapCitation (numbers : ℕ → Option ℕ) : ∀ {ns : List ℕ} (text : Text),
    ns.Pairwise (· > ·) → (∀ n ∈ ns, ∀ g ∈ numbers n, n ≤ g) →
    ns.foldl (remapCitation numbers) text =
      substitute (fun n => if n ∈ ns then numbers n else none) text
  | [], text, _, _ => by
    have hid : renumber (fun n => if n ∈ ([] : List ℕ) then numbers n else none) = fun b => b := by
      funext body
      unfold renumber
      cases numberOf body <;> simp
    unfold substitute
    rw [hid, mapWords_id]
    rfl
  | n :: ns, text, hsorted, hle => by
    obtain ⟨hn, hns⟩ := List.pairwise_cons.1 hsorted
    have ih := fun text => foldl_remapCitation numbers text hns fun k hk =>
      hle k (List.mem_cons_of_mem n hk)
    have hnot : n ∉ ns := fun hmem => lt_irrefl n (hn n hmem)
    rw [List.foldl_cons, ih]
    unfold remapCitation
    cases hg : numbers n with
    | none =>
      congr 1
      funext k
      by_cases hk : k = n
      · simp [hk, hnot, hg]
      · simp [hk]
    | some g =>
      have hgn : n ≤ g := hle n List.mem_cons_self g hg
      have hgns : g ∉ ns := fun hmem => absurd hgn (not_le.2 (hn g hmem))
      simp only [replaceAll_citation]
      unfold substitute
      rw [mapWords_mapWords (by decide) fun b => bare_renumber _, renumber_comp n (by simp [hgns])]
      congr 2
      funext k
      by_cases hk : k = n
      · simp [hk, hg]
      · simp [hk]

/-! ## The numbers of the files -/

section Files

variable {P : Type} [LinearOrder P]

theorem nodup_sortedFiles (files : List (P × String)) : (sortedFiles files).Nodup :=
  (List.perm_insertionSort _ _).nodup_iff.2 (List.nodup_dedup _)

variable {files : List (P × String)}

variable {p : P}

theorem mem_sortedFiles :
    p ∈ sortedFiles files ↔ p ∈ keys files := by
  unfold sortedFiles
  rw [List.mem_insertionSort, List.mem_dedup]

/-- The number of a file is its place. -/
theorem mem_buildFileReferenceMap {n : ℕ} :
    (p, n) ∈ buildFileReferenceMap files ↔ ∃ i, (sortedFiles files)[i]? = some p ∧ n = i + 1 := by
  unfold buildFileReferenceMap
  rw [List.mk_mem_zipIdx_iff_le_and_getElem?_sub]
  constructor
  · rintro ⟨hle, hp⟩
    exact ⟨n - 1, hp, by omega⟩
  · rintro ⟨i, hp, rfl⟩
    exact ⟨by omega, hp⟩

theorem keys_buildFileReferenceMap (files : List (P × String)) :
    keys (buildFileReferenceMap files) = sortedFiles files :=
  List.zipIdx_map_fst 1 _

theorem lookup_buildFileReferenceMap {n : ℕ} :
    (buildFileReferenceMap files).lookup p = some n ↔
      ∃ i, (sortedFiles files)[i]? = some p ∧ n = i + 1 := by
  have hnodup : (keys (buildFileReferenceMap files)).Nodup := by
    rw [keys_buildFileReferenceMap]
    exact nodup_sortedFiles files
  rw [lookup_eq_some_iff hnodup, mem_buildFileReferenceMap]

theorem nodup_numbers (files : List (P × String)) :
    ((buildFileReferenceMap files).map Prod.snd).Nodup := by
  unfold buildFileReferenceMap
  rw [List.zipIdx_map_snd]
  exact List.nodup_range'

variable {n g : ℕ}

/-- A file has no smaller number among more files. -/
theorem number_le {cluster files : List (P × String)} (h : keys cluster ⊆ keys files)
    (hn : (p, n) ∈ buildFileReferenceMap cluster)
    (hg : (buildFileReferenceMap files).lookup p = some g) : n ≤ g := by
  obtain ⟨i, hi, rfl⟩ := mem_buildFileReferenceMap.1 hn
  obtain ⟨j, hj, rfl⟩ := lookup_buildFileReferenceMap.1 hg
  have hsub : sortedFiles cluster ⊆ sortedFiles files := fun q hq =>
    mem_sortedFiles.2 (h (mem_sortedFiles.1 hq))
  have hsublist : (sortedFiles cluster).Sublist (sortedFiles files) :=
    List.sublist_of_subperm_of_pairwise ((nodup_sortedFiles cluster).subperm hsub)
      (List.pairwise_insertionSort _ _) (List.pairwise_insertionSort _ _)
  obtain ⟨f, hf⟩ := List.sublist_iff_exists_orderEmbedding_getElem?_eq.1 hsublist
  have hij : f i = j := by
    have hfi : (sortedFiles files)[f i]? = some p := by rw [← hf, hi]
    have hlt : f i < (sortedFiles files).length := (List.getElem?_eq_some_iff.1 hfi).1
    exact (List.getElem?_inj hlt (nodup_sortedFiles files)).1 (hfi.trans hj.symm)
  have hle : i ≤ f i := f.strictMono.le_apply
  omega

variable {clusterFileMap : List (P × ℕ)}

/-- The numbers of a cluster that are replaced, with what replaces them. -/
theorem lookup_remapping (globalFileMap : List (P × ℕ)) (h : (clusterFileMap.map Prod.snd).Nodup) :
    (remapping clusterFileMap globalFileMap).lookup n = some g ↔
      ∃ p, (p, n) ∈ clusterFileMap ∧ globalFileMap.lookup p = some g := by
  have hfile : clusterNumToFile clusterFileMap = clusterFileMap.map fun e => (e.2, e.1) := by
    refine update_nil ?_
    unfold keys
    rwa [List.map_map]
  have hpairs : (clusterFileMap.map fun e => (e.2, e.1)).Pairwise fun e e' => e.1 ≠ e'.1 := by
    rw [List.pairwise_map]
    exact List.pairwise_map.1 h
  have hnodup : (keys ((clusterFileMap.map fun e => (e.2, e.1)).filterMap fun e =>
      (globalFileMap.lookup e.2).map fun globalNum => (e.1, globalNum))).Nodup := by
    unfold keys
    refine List.pairwise_map.2 (hpairs.filterMap _ fun e e' hne r hr r' hr' => ?_)
    obtain ⟨-, -, rfl⟩ := Option.map_eq_some_iff.1 hr
    obtain ⟨-, -, rfl⟩ := Option.map_eq_some_iff.1 hr'
    exact hne
  unfold remapping
  rw [hfile, update_nil hnodup, lookup_eq_some_iff hnodup, List.mem_filterMap]
  simp only [List.mem_map, Option.map_eq_some_iff, Prod.mk.injEq]
  constructor
  · rintro ⟨-, ⟨⟨p, n⟩, hmem, rfl⟩, g, hg, rfl, rfl⟩
    exact ⟨p, hmem, hg⟩
  · rintro ⟨p, hmem, hg⟩
    exact ⟨(n, p), ⟨(p, n), hmem, rfl⟩, g, hg, rfl, rfl⟩

theorem globalNumber_eq_some_iff (globalFileMap : List (P × ℕ))
    (h : (clusterFileMap.map Prod.snd).Nodup) :
    globalNumber clusterFileMap globalFileMap n = some g ↔
      ∃ p, (p, n) ∈ clusterFileMap ∧ globalFileMap.lookup p = some g := by
  unfold globalNumber
  rw [Option.bind_eq_some_iff]
  constructor
  · rintro ⟨⟨p, k⟩, hfind, hg⟩
    obtain rfl : k = n := by simpa using List.find?_some hfind
    exact ⟨p, List.mem_of_find?_eq_some hfind, hg⟩
  · rintro ⟨p, hmem, hg⟩
    cases hfind : clusterFileMap.find? (·.2 = n) with
    | none => simpa using List.find?_eq_none.1 hfind (p, n) hmem
    | some e =>
      have he : e.2 = n := by simpa using List.find?_some hfind
      obtain rfl : e = (p, n) :=
        List.inj_on_of_nodup_map h (List.mem_of_find?_eq_some hfind) hmem he
      exact ⟨(p, n), rfl, hg⟩

/-- Remapping the citations of a cluster whose files are among all files replaces them at once by
the numbers of the same files. -/
theorem remapClusterCitations_eq {cluster files : List (P × String)}
    (h : keys cluster ⊆ keys files) (clusterSummary : Text) :
    remapClusterCitations clusterSummary (buildFileReferenceMap cluster)
        (buildFileReferenceMap files) =
      substitute (globalNumber (buildFileReferenceMap cluster) (buildFileReferenceMap files))
        clusterSummary := by
  have hremap := fun n g => lookup_remapping (buildFileReferenceMap files) (nodup_numbers cluster)
    (n := n) (g := g)
  have hperm := List.perm_insertionSort (· ≥ ·)
    (keys (remapping (buildFileReferenceMap cluster) (buildFileReferenceMap files)))
  have hsorted := List.pairwise_insertionSort (· ≥ ·)
    (keys (remapping (buildFileReferenceMap cluster) (buildFileReferenceMap files)))
  have hnodup : (keys (remapping (buildFileReferenceMap cluster)
      (buildFileReferenceMap files))).Nodup := nodup_keys_update List.nodup_nil
  unfold remapClusterCitations
  rw [foldl_remapCitation]
  · congr 1
    funext n
    refine Option.ext fun g => ?_
    rw [globalNumber_eq_some_iff _ (nodup_numbers cluster), ← hremap]
    split
    · exact Iff.rfl
    · next hn => rw [lookup_eq_none_iff.2 fun hmem => hn (hperm.mem_iff.2 hmem)]
  · exact (hsorted.and (hperm.nodup_iff.2 hnodup)).imp fun ⟨hge, hne⟩ => lt_of_le_of_ne hge hne.symm
  · intro n _ g hg
    obtain ⟨p, hp, hglobal⟩ := (hremap n g).1 hg
    exact number_le h hp hglobal

/-- A cluster of two files of three. -/
theorem remapClusterCitations_two :
    remapClusterCitations "a [1], b [2], [3]".toList
        (buildFileReferenceMap [("b.py", ""), ("c.py", "")])
        (buildFileReferenceMap [("c.py", ""), ("a.py", ""), ("b.py", "")]) =
      substitute (globalNumber (buildFileReferenceMap [("b.py", ""), ("c.py", "")])
        (buildFileReferenceMap [("c.py", ""), ("a.py", ""), ("b.py", "")]))
        "a [1], b [2], [3]".toList :=
  remapClusterCitations_eq (by decide) _

end Files

end ChunkHound.CitationRemap
