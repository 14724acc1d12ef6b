import ChunkHound.NativeDiscovery

/-!
# Pruning by include prefixes

Include patterns that are anchored in a directory give prefixes, and `walk_directory_tree` does not
enter a directory that lies neither under a prefix nor on the way to one. The prefixes of some
patterns also decide for files that other patterns take : a list with `src/**/*.ts` and `**/*.py`
never enters `lib`.

No directory above a wanted file is pruned exactly when its own directory lies under a prefix or on
the way to one, or there is no prefix at all (`pruning_sound_iff`). That is so for the files of an
anchored pattern (`onTheWay_of_anchored`).
-/

namespace ChunkHound.Discovery

open Ignore

/-- The components of one are the first of the other. -/
def Comparable (a b : List Segment) : Prop := a <+: b ∨ b <+: a

instance (a b : List Segment) : Decidable (Comparable a b) :=
  inferInstanceAs (Decidable (_ ∨ _))

/-- There is no prefix, or the directory lies under one or on the way to one. -/
def OnTheWay (patterns : List (List Char)) (dir : List Segment) : Prop :=
  extractIncludePrefixes patterns = [] ∨
    ∃ p ∈ extractIncludePrefixes patterns, Comparable (p.splitOn '/') dir

instance (patterns : List (List Char)) (dir : List Segment) : Decidable (OnTheWay patterns dir) :=
  inferInstanceAs (Decidable (_ ∨ _))

/-! ## The test, by components -/

section Test

variable {rel : PurePath}

/-- A relative path neither begins nor ends with a slash. -/
theorem strip_posix (h : rel.parts ≠ []) :
    (rel.posix.dropWhile (· = '/')).rdropWhile (· = '/') = rel.posix := by
  have hdrop : rel.posix.dropWhile (· = '/') = rel.posix := by
    have hhead := PurePath.head?_posix h
    cases hposix : rel.posix with
    | nil => rfl
    | cons x xs =>
      rw [hposix, List.head?_cons] at hhead
      refine List.dropWhile_cons_of_neg fun hx => hhead ?_
      rw [of_decide_eq_true hx]
  have hlast : lastPart rel ∈ rel.parts := by
    unfold lastPart
    rw [List.getLast?_eq_some_getLast h]
    exact List.getLast_mem h
  obtain ⟨hne, -, hslash⟩ := rel.clean _ hlast
  rw [hdrop, List.rdropWhile_eq_self_iff]
  intro hnil hend
  refine hslash (of_decide_eq_true hend ▸ ?_)
  -- the last character of the path is the last one of its name
  rcases posix_last h with heq | ⟨y, hy⟩
  · simp only [heq]
    exact List.getLast_mem hne
  · simp only [hy, List.getLast_append_of_ne_nil _ (List.cons_ne_nil _ _), List.getLast_cons hne]
    exact List.getLast_mem hne

theorem comparable_posix_iff (h : rel.parts ≠ []) (p : List Char) :
    (p = rel.posix ∨ rel.posix ++ ['/'] <+: p ∨ p ++ ['/'] <+: rel.posix) ↔
      Comparable (p.splitOn '/') rel.parts := by
  have hposix : rel.posix = ['/'].intercalate rel.parts := if_neg h
  have hslash : ∀ c ∈ p.splitOn '/', '/' ∉ c := fun c => Joined.notMem_of_mem_splitOn
  have hiff := Joined.comparable_iff hslash (fun c hc => (rel.clean c hc).2.2)
    (List.splitOn_ne_nil '/' p) h
  rwa [List.intercalate_splitOn, ← hposix] at hiff

variable {patterns : List (List Char)}

/-- A directory is kept when there is no prefix, or it lies under one or on the way to one. -/
theorem canPrune_eq_false_iff (h : rel.parts ≠ []) :
    canPruneDirByPrefix (extractIncludePrefixes patterns) rel.posix = false ↔
      OnTheWay patterns rel.parts := by
  have hread : PurePath.segments rel.posix = rel.parts := rel.segments_posix
  have hne : rel.posix ≠ [] ∧ rel.posix ≠ ['.'] := by
    constructor
    · intro heq
      rw [heq] at hread
      exact h hread.symm
    · intro heq
      rw [heq] at hread
      exact h hread.symm
  unfold canPruneDirByPrefix OnTheWay
  rw [strip_posix h]
  by_cases hnil : extractIncludePrefixes patterns = []
  · simp [hnil]
  · rw [if_neg (by simp [hnil, hne])]
    simp only [Bool.not_eq_false', List.any_eq_true, Bool.or_eq_true, decide_eq_true_eq,
      List.isPrefixOf_iff_prefix, or_assoc, hnil, false_or]
    exact exists_congr fun p => and_congr_right fun _ => comparable_posix_iff h p

/-- A directory on the way to one that is on the way to a prefix. -/
theorem OnTheWay.above {d dir : List Segment}
    (h : OnTheWay patterns dir) (hd : d <+: dir) : OnTheWay patterns d := by
  rcases h with hnil | ⟨p, hp, hunder | habove⟩
  · exact Or.inl hnil
  · exact Or.inr ⟨p, hp, List.prefix_or_prefix_of_prefix hunder hd⟩
  · exact Or.inr ⟨p, hp, Or.inr (hd.trans habove)⟩

theorem prunedByPrefix_eq_false_iff {root d : PurePath}
    (hroot : root.parts <+: d.parts) (hne : d ≠ root) :
    prunedByPrefix patterns root d = false ↔
      OnTheWay patterns (d.parts.drop root.parts.length) := by
  obtain ⟨rel, hrel⟩ := PurePath.relativeTo_of_isPrefix hroot
  have hparts := PurePath.relativeTo_ok hrel
  have hdrop : d.parts.drop root.parts.length = rel.parts := by
    rw [← hparts, List.drop_left]
  have hrelne : rel.parts ≠ [] := fun hnil => by
    rw [hnil, List.append_nil] at hparts
    exact hne (PurePath.ext hparts.symm)
  unfold prunedByPrefix relChild
  rw [hrel, hdrop]
  exact canPrune_eq_false_iff hrelne

end Test

/-! ## Anchored patterns -/

/-- The directory of a file, relative to the root. -/
def relativeDir (root file : PurePath) : List Segment :=
  (parentDir file).parts.drop root.parts.length

section Anchored

variable {patterns : List (List Char)} {root file rel : PurePath}

/-- What a pattern matches begins with what the pattern begins with. -/
theorem matchPattern_begins : ∀ (n : ℕ) {t p s : List Char}, NoWildcard t →
    matchPattern n (t ++ p) s = true → t <+: s
  | _, [], _, s, _, _ => List.nil_prefix
  | 0, _ :: _, _, _, _, h => by simp [matchPattern] at h
  | n + 1, c :: t, p, s, ht, h => by
    obtain ⟨⟨hstar, hquestion, hbracket⟩, ht⟩ := ht.tail
    obtain ⟨d, s', rfl, hc, hm⟩ := matchPattern_char n hstar hbracket h
    rw [hc.resolve_left hquestion]
    exact List.prefix_cons_inj d |>.2 (matchPattern_begins n ht hm)

theorem noWildcard_intercalate {parts : List Segment} (h : ∀ s ∈ parts, hasWildcard s = false) :
    NoWildcard (['/'].intercalate parts) := by
  have hfree : ∀ c ∈ wildcards, c ∉ ['/'].intercalate parts := fun c hc hmem => by
    rcases Joined.mem_of_mem_intercalate hmem with hslash | ⟨part, hpart, hin⟩
    · rw [List.mem_singleton.1 hslash] at hc
      simp [wildcards] at hc
    · have hany := List.any_eq_false.1 (h part hpart) c hin
      exact hany (decide_eq_true hc)
  exact ⟨hfree '*' (by simp [wildcards]), hfree '?' (by simp [wildcards]),
    hfree '[' (by simp [wildcards])⟩

variable {pattern p : List Char}

/-- The prefix of a pattern, which the pattern goes on behind if it is not all of it. -/
theorem includePrefix_spec (hstars : dropStars pattern = pattern)
    (hp : includePrefix pattern = some p) : NoWildcard p ∧ '/' ∈ pattern ∧
      (pattern = p ∨ p ++ ['/'] <+: pattern) := by
  unfold includePrefix at hp
  rw [hstars] at hp
  dsimp only at hp
  split at hp
  · cases hp
  · rename_i hshape
    split at hp
    · cases hp
    · rename_i hacc
      obtain rfl := Option.some.inj hp
      have hplain : ∀ s ∈ (pattern.splitOn '/').takeWhile (!hasWildcard ·), hasWildcard s = false :=
        fun s hs => by simpa using List.mem_takeWhile_imp hs
      refine ⟨noWildcard_intercalate hplain, ?_, ?_⟩
      · by_contra hslash
        exact hshape (Or.inr (Or.inr hslash))
      · by_cases hrest : (pattern.splitOn '/').dropWhile (!hasWildcard ·) = []
        · left
          rw [List.dropWhile_eq_nil_iff] at hrest
          rw [List.takeWhile_eq_self_iff.2 hrest, List.intercalate_splitOn]
        · right
          have hjoin := Joined.intercalate_append ['/'] hacc hrest
          rw [List.takeWhile_append_dropWhile, List.intercalate_splitOn] at hjoin
          exact ⟨_, hjoin.symm⟩

/-- An anchored pattern of the list takes the file, which is `rel` from the root. -/
structure TakesAnchored (patterns : List (List Char)) (root rel file : PurePath)
    (pattern p : List Char) : Prop where
  mem : pattern ∈ patterns
  stars : dropStars pattern = pattern
  anchored : includePrefix pattern = some p
  below : root.join rel = file
  takes : fnmatch pattern rel.posix = true ∨ fnmatch pattern (lastPart file) = true

/-- The files that an anchored pattern takes lie under its prefix. -/
theorem onTheWay_of_anchored (h : TakesAnchored patterns root rel file pattern p) :
    OnTheWay patterns (relativeDir root file) := by
  obtain ⟨hmem, hstars, hp, hfile, htakes⟩ := h
  obtain ⟨hplain, hslash, hshape⟩ := includePrefix_spec hstars hp
  -- what the pattern takes is its prefix, or goes on behind it
  have hbegin : ∀ s, fnmatch pattern s = true → '/' ∈ s ∧ (s = p ∨ p ++ ['/'] <+: s) :=
    fun s hs => by
      rcases hshape with rfl | ⟨rest, hrest⟩
      · rw [matchPattern_plain _ hplain hs]
        exact ⟨hslash, Or.inl rfl⟩
      · have hsep : NoWildcard (p ++ ['/']) := by simpa [NoWildcard] using hplain
        unfold fnmatch at hs
        rw [← hrest] at hs
        have hpre := matchPattern_begins _ hsep hs
        exact ⟨hpre.subset (by simp), Or.inr hpre⟩
  have hposix : '/' ∈ rel.posix ∧ (rel.posix = p ∨ p ++ ['/'] <+: rel.posix) := by
    refine htakes.elim (hbegin _) fun hname => absurd (hbegin _ hname).1 ?_
    unfold lastPart
    cases hlast : file.parts.getLast? with
    | none => simp
    | some name => exact (file.clean name (List.mem_of_getLast? hlast)).2.2
  have hne : rel.parts ≠ [] := fun hnil => by
    simp [PurePath.posix, hnil] at hposix
  have hcomparable : Comparable (p.splitOn '/') rel.parts := by
    refine (comparable_posix_iff hne p).1 ?_
    rcases hposix.2 with heq | hpre
    · exact Or.inl heq.symm
    · exact Or.inr (Or.inr hpre)
  have hdir : relativeDir root file = rel.parts.dropLast := by
    rw [← hfile]
    change (root.parts ++ rel.parts).dropLast.drop root.parts.length = _
    rw [List.dropLast_append_of_ne_nil hne, List.drop_left]
  have hprefix : p ∈ extractIncludePrefixes patterns :=
    List.mem_dedup.2 (List.mem_filterMap.2 ⟨pattern, hmem, hp⟩)
  have habove := List.dropLast_prefix rel.parts
  rw [hdir]
  exact OnTheWay.above (Or.inr ⟨p, hprefix, hcomparable⟩) habove

end Anchored

/-! ## The files of a tree -/

section Sound

variable {root start file : PurePath}

/-- The directories above a wanted file are kept exactly when the walk starts in its directory, or
its directory lies under a prefix or on the way to one, as it does where an anchored pattern takes
it. A directory that is not kept is not entered. -/
theorem pruning_sound_iff (fs : FileSystem) (patterns : List (List Char)) (volume : Volume)
    (hstart : root.parts <+: start.parts) {regular : Bool}
    (hfile : (volume.entries start).Holds start file regular) :
    ((shouldIncludeFile fs file root patterns = true →
        ∀ d, Entries.Between start d file → prunedByPrefix patterns root d = false) ↔
      (shouldIncludeFile fs file root patterns = true →
        parentDir file = start ∨ OnTheWay patterns (relativeDir root file))) ∧
    (∀ rel pattern p, TakesAnchored patterns root rel file pattern p →
      OnTheWay patterns (relativeDir root file)) ∧
    (∀ req : WalkRequest, req.patterns = patterns → req.rootDirectory = root →
      ∀ d, prunedByPrefix patterns root d = true → enters volume req d = false) := by
  refine ⟨?_, fun _ _ _ => onTheWay_of_anchored, fun req hpatterns hroot d hpruned => ?_⟩
  rotate_left
  · simp [enters, hpatterns, hroot, hpruned]
  obtain ⟨hbelow, hne⟩ := Entries.prefix_of_holds hfile
  have hfilene : file.parts ≠ [] := fun hnil => by
    rw [hnil, List.prefix_nil] at hbelow
    exact hne (PurePath.ext (hnil.trans hbelow.symm))
  have hlen := List.length_pos_iff.2 hfilene
  have hdirlen : (parentDir file).parts.length = file.parts.length - 1 := List.length_dropLast
  have hdir : (parentDir file).parts <+: file.parts := List.dropLast_prefix file.parts
  -- what is a prefix of the file and not the file is a prefix of its directory
  have hparent : ∀ d : PurePath, d.parts <+: file.parts → d ≠ file →
      d.parts <+: (parentDir file).parts := fun d hd hdne => by
    refine List.prefix_of_prefix_length_le hd hdir ?_
    have hshort : d.parts.length ≠ file.parts.length := fun heq =>
      hdne (PurePath.ext (hd.eq_of_length heq))
    have := hd.length_le
    omega
  refine imp_congr_right fun _ => ⟨fun h => ?_, fun h d hd => ?_⟩
  · by_cases hroot : parentDir file = start
    · exact Or.inl hroot
    · right
      have hstartdir := hparent start hbelow hne.symm
      have hfilene' : parentDir file ≠ file := fun heq => by
        rw [heq] at hdirlen
        omega
      have hbetween : Entries.Between start (parentDir file) file :=
        ⟨hstartdir, hroot, hdir, hfilene'⟩
      refine (prunedByPrefix_eq_false_iff (hstart.trans hstartdir) fun heq => hroot ?_).1
        (h _ hbetween)
      have hback := hstart.eq_of_length_le (heq ▸ hstartdir.length_le)
      exact heq.trans (PurePath.ext hback)
  · have hddir := hparent d hd.above hd.directory
    have hrootd := hstart.trans hd.below
    have hdne : d ≠ root := fun heq => hd.ne (PurePath.ext
      (hd.below.eq_of_length_le (heq ▸ hstart.length_le)).symm)
    refine (prunedByPrefix_eq_false_iff hrootd hdne).2 ?_
    rcases h with hroot | hway
    · exact absurd (PurePath.ext (hd.below.eq_of_length_le (hroot ▸ hddir.length_le)).symm) hd.ne
    · exact hway.above (hddir.drop _)

end Sound

theorem pruning_sound_twoSources :
    shouldIncludeFile flatDisk (.ofString "/r/src/a.py") (.ofString "/r") ["src/*.py".toList] =
        true ∧
      ∀ d, Entries.Between (.ofString "/r") d (.ofString "/r/src/a.py") →
        prunedByPrefix ["src/*.py".toList] (.ofString "/r") d = false := by
  have hfile : (twoSourcesVolume.entries (.ofString "/r")).Holds (.ofString "/r")
      (.ofString "/r/src/a.py") true := Or.inl (Or.inl ⟨rfl, rfl⟩)
  have htaken : shouldIncludeFile flatDisk (.ofString "/r/src/a.py") (.ofString "/r")
      ["src/*.py".toList] = true := by decide +kernel
  exact ⟨htaken, (pruning_sound_iff flatDisk _ twoSourcesVolume (by decide) hfile).1.2
    (fun _ => Or.inr (by decide +kernel)) htaken⟩

/-- A list with an anchored pattern and one that is not. -/
def mixedPatterns : List (List Char) := ["src/**/*.py".toList, "**/b.py".toList]

/-- The directory of a file that the other pattern takes is pruned. -/
theorem mixed_patterns_prune : ¬ ∀ (fs : FileSystem) (patterns : List (List Char))
    (volume : Volume) (root start file : PurePath) (regular : Bool),
    root.parts <+: start.parts → (volume.entries start).Holds start file regular →
    shouldIncludeFile fs file root patterns = true →
      ∀ d, Entries.Between start d file → prunedByPrefix patterns root d = false := by
  intro h
  have hkept := h flatDisk mixedPatterns twoSourcesVolume (.ofString "/r") (.ofString "/r")
    (.ofString "/r/other/b.py") true (by decide) (Or.inr (Or.inl (Or.inl ⟨rfl, rfl⟩)))
    (by decide +kernel) (.ofString "/r/other")
    ⟨by decide, by decide, by decide, by decide⟩
  exact absurd hkept (by decide +kernel)

end ChunkHound.Discovery
