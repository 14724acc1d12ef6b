import ChunkHound.NativeDiscovery

/-!
# The include prefilter

Where no include pattern is complex, the walk of `walk_directory_tree` looks at the name of a file
before it matches any pattern : it drops the file unless its name or its `suffix` was collected.

The `suffix` is what follows the last `.`, but for a `.` in front or at the end of the name, while a
pattern `*.test.js` or `*.py` takes any name that ends so, `.py` as well. So the prefilter keeps a
file exactly when it is called like a collected name, or like a stem and a collected extension with
no other `.` in it and something behind it (`passesPrefilter_iff`), and the walks with and without
it agree exactly when every file that passes the other rules is so (`prefilter_iff`).
-/

namespace ChunkHound.Discovery

open Ignore

/-! ## The two walks -/

/-- The prefilter keeps a file. -/
def passesPrefilter (patterns : List (List Char)) (filename : Segment) : Bool :=
  let (incAllowExts, incAllowNames, incHasComplex) := summarizeIncludePatterns patterns
  incHasComplex || filename ∈ incAllowNames || suffix filename ∈ incAllowExts

section Unfiltered

variable (volume : Volume) (req : WalkRequest)

/-- A file is appended to `files` when nothing is asked about its name first. -/
def takesUnfiltered (filePath : PurePath) : Bool :=
  !excluded volume req filePath false &&
    shouldIncludeFile volume.fs filePath req.rootDirectory req.patterns

/-- What the walk finds without the prefilter and without a cap. -/
def unfilteredFiles : List PurePath :=
  (volume.entries req.startPath).walk (enters volume req)
    (fun path _ => takesUnfiltered volume req path) req.startPath

/-- The walk without the prefilter. -/
def unfilteredWalk : List PurePath :=
  match req.maxFiles with
  | none => unfilteredFiles volume req
  | some maxFiles => (unfilteredFiles volume req).take (max 1 maxFiles.toNat)

theorem takes_eq_and (filePath : PurePath) : takes volume req filePath =
    (takesUnfiltered volume req filePath && passesPrefilter req.patterns (lastPart filePath)) := by
  unfold takes takesUnfiltered passesPrefilter
  dsimp only
  ac_rfl

end Unfiltered

/-! ## Walks that take fewer files -/

section Filter

variable {enter : PurePath → Bool} {keep : PurePath → Bool → Bool} {f : PurePath → Bool}

theorem walkFiles_and (path : PurePath) : ∀ e : Entries,
    e.walkFiles (fun p r => keep p r && f p) path = (e.walkFiles keep path).filter f
  | .nil => rfl
  | .file name regular rest => by
    have ih := walkFiles_and path rest
    simp only [Entries.walkFiles, Bool.and_eq_true]
    by_cases hkeep : keep (child path name) regular = true
    · by_cases hf : f (child path name) = true
      · simp [hkeep, hf, ih]
      · simp [hkeep, hf, ih]
    · simp [hkeep, ih]
  | .dir _ _ rest => walkFiles_and path rest

theorem walkDirs_and : ∀ (e : Entries) (path : PurePath),
    e.walkDirs enter (fun p r => keep p r && f p) path = (e.walkDirs enter keep path).filter f
  | .nil, _ => rfl
  | .file _ _ rest, path => walkDirs_and rest path
  | .dir name below rest, path => by
    have hbelow := walkDirs_and below (child path name)
    have hrest := walkDirs_and rest path
    have hfiles : below.walkFiles (fun p r => keep p r && f p) (child path name) =
        (below.walkFiles keep (child path name)).filter f := walkFiles_and _ below
    simp only [Entries.walkDirs, List.filter_append, hrest]
    congr 1
    split
    · rw [hbelow, hfiles, List.filter_append]
    · rfl

/-- A walk that asks one thing more of a file finds those that pass it. -/
theorem walk_and (path : PurePath) (e : Entries) :
    e.walk enter (fun p r => keep p r && f p) path = (e.walk enter keep path).filter f := by
  unfold Entries.walk
  rw [walkFiles_and, walkDirs_and, List.filter_append]

end Filter

/-! ## Names that pass -/

/-- A file is called like the name, or like a stem and the extension, whose only `.` is in front. -/
def Kind.Plain (file : Segment) : Kind → Prop
  | ext value => ∃ stem, stem ≠ [] ∧ file = stem ++ value ∧ value.tail ≠ [] ∧ '.' ∉ value.tail
  | name value => value = file

/-- A file is called like a collected name, or has a collected extension. -/
def CollectedPlainly (patterns : List (List Char)) (file : Segment) : Prop :=
  ∃ kind, some kind ∈ kinds patterns ∧ kind.Plain file

/-- The last `.` of a name and what follows is its `suffix`, where it has a stem and something
follows. -/
theorem suffix_eq_iff {file e : Segment} :
    suffix file = '.' :: e ↔ ∃ stem, stem ≠ [] ∧ file = stem ++ '.' :: e ∧ e ≠ [] ∧ '.' ∉ e := by
  constructor
  · intro h
    unfold suffix at h
    split at h
    case isFalse => cases h
    rename_i hdot
    obtain ⟨hdot, hlast⟩ := hdot
    obtain rfl := (List.cons.inj h).2
    have hno : '.' ∉ file.rtakeWhile (· ≠ '.') := fun hmem => by
      have := List.mem_rtakeWhile_imp hmem
      simp at this
    obtain ⟨stem, hstem⟩ := dot_suffix (List.mem_of_mem_tail hdot)
    refine ⟨stem, ?_, hstem.symm, ?_, hno⟩
    · rintro rfl
      rw [← hstem] at hdot
      exact hno hdot
    · intro hnil
      rw [hnil] at hstem
      rw [← hstem] at hlast
      simp at hlast
  · rintro ⟨stem, hstem, rfl, hne, hno⟩
    have htail : '.' ∈ (stem ++ '.' :: e).tail := by
      obtain ⟨c, cs, rfl⟩ := List.exists_cons_of_ne_nil hstem
      simp
    have hlast : (stem ++ '.' :: e).getLast? ≠ some '.' := by
      rw [List.getLast?_append_of_ne_nil _ (List.cons_ne_nil _ _), List.getLast?_cons_of_ne_nil hne]
      exact fun h => hno (List.mem_of_getLast? h)
    rw [suffix, if_pos ⟨htail, hlast⟩]
    have htake : (stem ++ '.' :: e).rtakeWhile (· ≠ '.') = e := by
      rw [List.rtakeWhile, List.reverse_append, List.reverse_cons, List.append_assoc,
        List.takeWhile_append_of_pos, List.singleton_append, List.takeWhile_cons_of_neg (by simp),
        List.append_nil, List.reverse_reverse]
      intro c hc
      have hce : c ≠ '.' := fun heq => hno (heq ▸ List.mem_reverse.1 hc)
      simpa using hce
    rw [htake]

variable {patterns : List (List Char)}

/-- A collected extension has its `.` in front. -/
theorem dot_of_collected {ext : Segment}
    (h : some (.ext ext) ∈ kinds patterns) : ∃ e, ext = '.' :: e := by
  obtain ⟨pattern, -, hkind⟩ := List.mem_map.1 h
  obtain ⟨a, t, hsimple⟩ := simple_of_classify hkind
  rcases tailKind_some hsimple.tail with ⟨value, hvalue, he⟩ | ⟨name, hname, -⟩
  · obtain rfl := Kind.ext.inj hvalue
    obtain ⟨-, -, -, hhead⟩ := isSimpleExt_some he
    exact List.head?_eq_some_iff.1 hhead
  · cases hname

theorem passesPrefilter_iff {file : Segment}
    (hcomplex : (summarizeIncludePatterns patterns).2.2 = false) :
    passesPrefilter patterns file = true ↔ CollectedPlainly patterns file := by
  have hpasses : passesPrefilter patterns file = true ↔
      file ∈ (summarizeIncludePatterns patterns).2.1 ∨
        suffix file ∈ (summarizeIncludePatterns patterns).1 := by
    simp [passesPrefilter, hcomplex]
  rw [hpasses, mem_names, mem_exts]
  constructor
  · rintro (hname | hext)
    · exact ⟨_, hname, rfl⟩
    · refine ⟨_, hext, ?_⟩
      obtain ⟨e, he⟩ := dot_of_collected hext
      rw [he]
      exact suffix_eq_iff.1 he
  · rintro ⟨value | value, hkind, hplain⟩
    · obtain ⟨e, rfl⟩ := dot_of_collected hkind
      rw [suffix_eq_iff.2 hplain]
      exact Or.inr hkind
    · obtain rfl : value = file := hplain
      exact Or.inl hkind

/-! ## Walks with and without the prefilter -/

section Sound

variable {volume : Volume} {req : WalkRequest}

/-- The cap says nothing of ignore files. -/
theorem gitignoresUpTo_cap (maxFiles : Option ℤ) : ∀ (n : ℕ) (dir : PurePath),
    gitignoresUpTo volume { req with maxFiles } n dir = gitignoresUpTo volume req n dir
  | 0, _ => rfl
  | n + 1, dir => by
    rw [gitignoresUpTo, gitignoresUpTo, gitignoresUpTo_cap maxFiles n]
    rfl

theorem excluded_cap (maxFiles : Option ℤ) :
    excluded volume { req with maxFiles } = excluded volume req := by
  funext path isDir
  simp only [excluded, allGitignorePatterns, gitignoresUpTo_cap]

theorem enters_cap (maxFiles : Option ℤ) :
    enters volume { req with maxFiles } = enters volume req := by
  funext dirPath
  simp only [enters, excluded_cap]

theorem takes_cap (maxFiles : Option ℤ) :
    takes volume { req with maxFiles } = takes volume req := by
  funext filePath
  simp only [takes, excluded_cap]

theorem takesUnfiltered_cap (maxFiles : Option ℤ) :
    takesUnfiltered volume { req with maxFiles } = takesUnfiltered volume req := by
  funext filePath
  simp only [takesUnfiltered, excluded_cap]

theorem walk_takes : (volume.entries req.startPath).walk (enters volume req)
      (fun path _ => takes volume req path) req.startPath =
    (unfilteredFiles volume req).filter
      fun p => passesPrefilter req.patterns (lastPart p) := by
  have htakes : (fun (path : PurePath) (_ : Bool) => takes volume req path) =
      fun path _ => takesUnfiltered volume req path &&
        passesPrefilter req.patterns (lastPart path) := by
    funext path _
    exact takes_eq_and volume req path
  rw [htakes]
  exact walk_and _ _

/-- With any cap the walks find the same exactly when every file that passes the other rules
passes the prefilter. -/
theorem pythonWalk_eq_iff : (∀ maxFiles, pythonWalk volume { req with maxFiles } =
      unfilteredWalk volume { req with maxFiles }) ↔
    ∀ p, (volume.entries req.startPath).Reaches (enters volume req)
      (fun path _ => takesUnfiltered volume req path) req.startPath p →
        passesPrefilter req.patterns (lastPart p) = true := by
  have hall : (∀ p, (volume.entries req.startPath).Reaches (enters volume req)
      (fun path _ => takesUnfiltered volume req path) req.startPath p →
        passesPrefilter req.patterns (lastPart p) = true) ↔
      (unfilteredFiles volume req).filter (fun p => passesPrefilter req.patterns (lastPart p)) =
        unfilteredFiles volume req := by
    rw [List.filter_eq_self]
    exact forall_congr' fun p => imp_congr_left Entries.mem_walk.symm
  simp only [pythonWalk, unfilteredWalk, unfilteredFiles, enters_cap, takes_cap,
    takesUnfiltered_cap]
  rw [hall, ← walk_takes, unfilteredFiles]
  constructor
  · intro h
    exact h none
  · intro h maxFiles
    cases maxFiles with
    | none => exact h
    | some n => exact congrArg (List.take (max 1 n.toNat)) h

/-- The prefilter keeps an included file exactly when it is called like a collected name or has a
collected extension, and the walks agree exactly when all files that pass the other rules do. -/
theorem prefilter_iff (volume : Volume) (req : WalkRequest)
    (hcomplex : (summarizeIncludePatterns req.patterns).2.2 = false) :
    (∀ fs path root, (shouldIncludeFile fs path root req.patterns = true →
        passesPrefilter req.patterns (lastPart path) = true) ↔
      (shouldIncludeFile fs path root req.patterns = true →
        CollectedPlainly req.patterns (lastPart path))) ∧
    ((∀ maxFiles, pythonWalk volume { req with maxFiles } =
        unfilteredWalk volume { req with maxFiles }) ↔
      ∀ p, (volume.entries req.startPath).Reaches (enters volume req)
        (fun path _ => takesUnfiltered volume req path) req.startPath p →
          CollectedPlainly req.patterns (lastPart p)) := by
  constructor
  · intro fs path root
    exact imp_congr_right fun _ => passesPrefilter_iff hcomplex
  · rw [pythonWalk_eq_iff]
    exact forall₂_congr fun p _ => passesPrefilter_iff hcomplex

end Sound

/-- `app.py` and `app.test.js`. -/
def testSources : Entries :=
  .file (nameOf "app.py" (by decide)) true (.file (nameOf "app.test.js" (by decide)) true .nil)

theorem testSourcesVolume_name :
    "r".toList ≠ [] ∧ "r".toList ≠ ['.'] ∧ '/' ∉ "r".toList := by
  decide

def testSourcesVolume : Volume where
  top := .dir (nameOf "r" testSourcesVolume_name) testSources .nil
  fs := flatDisk
  gitignore := fun _ => none

def testsRequest : WalkRequest :=
  { anchoredRequest with patterns := ["*.test.js".toList, "**/*.py".toList] }

theorem prefilter_python :
    (summarizeIncludePatterns testsRequest.patterns).2.2 = false ∧
      ((∀ fs path root, (shouldIncludeFile fs path root testsRequest.patterns = true →
          passesPrefilter testsRequest.patterns (lastPart path) = true) ↔
        (shouldIncludeFile fs path root testsRequest.patterns = true →
          CollectedPlainly testsRequest.patterns (lastPart path))) ∧
      ((∀ maxFiles, pythonWalk testSourcesVolume { testsRequest with maxFiles } =
          unfilteredWalk testSourcesVolume { testsRequest with maxFiles }) ↔
        ∀ p, (testSourcesVolume.entries testsRequest.startPath).Reaches
          (enters testSourcesVolume testsRequest)
          (fun path _ => takesUnfiltered testSourcesVolume testsRequest path)
          testsRequest.startPath p → CollectedPlainly testsRequest.patterns (lastPart p))) :=
  ⟨by decide, prefilter_iff testSourcesVolume testsRequest (by decide)⟩

/-- The prefilter drops `app.test.js`, which `*.test.js` includes. -/
theorem test_file_dropped :
    (summarizeIncludePatterns testsRequest.patterns).2.2 = false ∧
      shouldIncludeFile flatDisk (.ofString "/r/app.test.js") (.ofString "/r")
        testsRequest.patterns = true ∧
      passesPrefilter testsRequest.patterns (lastPart (.ofString "/r/app.test.js")) = false ∧
      unfilteredWalk testSourcesVolume testsRequest =
        [.ofString "/r/app.py", .ofString "/r/app.test.js"] ∧
      pythonWalk testSourcesVolume testsRequest = [.ofString "/r/app.py"] := by
  decide +kernel

end ChunkHound.Discovery
