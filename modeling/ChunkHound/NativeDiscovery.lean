import ChunkHound.DirectoryTrees
import ChunkHound.GitDiscovery

/-!
# Native and Python discovery

`walk_directory_tree` finds files with `os.walk`, or, where its include patterns come down to
extensions and names, with `scan_files` of the native module. Then it also scans the repositories
below that the first scan left empty, and asks the ignore engine about every file.

The native scan knows extensions and names only, whatever directory a pattern is anchored in, and
has its own rules for what to enter and to drop. Both find the same files exactly when what the
native scan keeps lies where a pattern is anchored, has its extension in the case of the pattern and
is not excluded, and it drops nothing else (`native_iff`). Where no pattern is anchored and both
exclude the same, that is so, but `src/**/*.py` natively finds files outside `src`
(`anchor_ignored`).

The `ignore` crate is a parameter. Every root that is scanned is a directory, and every directory
can be read.
-/

namespace ChunkHound.Discovery

open Ignore

/-! ## Pruning -/

/-- `HEAVY_DIRS`. -/
def heavyDirs : List Segment :=
  [".git", "node_modules", ".venv", "venv", "dist", "build", "target"].map String.toList

/-- The components in front of the first wildcard, where a pattern is anchored. -/
def includePrefix (pattern : List Char) : Option (List Char) :=
  let p := dropStars pattern
  if p = [] ∨ p.head? = some '*' ∨ '/' ∉ p then none
  else
    let acc := (p.splitOn '/').takeWhile (!hasWildcard ·)
    if acc = [] then none else some (['/'].intercalate acc)

/-- `_extract_include_prefixes`. -/
def extractIncludePrefixes (patterns : List (List Char)) : List (List Char) :=
  (patterns.filterMap includePrefix).dedup

/-- `_can_prune_dir_by_prefix`. -/
def canPruneDirByPrefix (includePrefixes : List (List Char)) (currentRel : List Char) : Bool :=
  if includePrefixes = [] ∨ currentRel = [] ∨ currentRel = ['.'] then false
  else
    let rel := (currentRel.dropWhile (· = '/')).rdropWhile (· = '/')
    !includePrefixes.any fun p =>
      p = rel || (rel ++ ['/']).isPrefixOf p || (p ++ ['/']).isPrefixOf rel

/-- `rel_child` of the walk. -/
def relChild (rootDirectory dirPath : PurePath) : List Char :=
  match dirPath.relativeTo rootDirectory with
  | .ok rel => rel.posix
  | .error _ => lastPart dirPath

/-- The include-prefix test of the walk. -/
def prunedByPrefix (patterns : List (List Char)) (rootDirectory dirPath : PurePath) : Bool :=
  canPruneDirByPrefix (extractIncludePrefixes patterns) (relChild rootDirectory dirPath)

/-- `_should_prune_heavy_dir` for `HEAVY_DIRS`. -/
def shouldPruneHeavyDir (includePrefixes : List (List Char)) (currentName : Segment) : Bool :=
  currentName ∈ heavyDirs &&
    !includePrefixes.any fun p => p = currentName || (currentName ++ ['/']).isPrefixOf p

/-! ## Ignore files -/

/-- `normalize_include_pattern`. -/
def normalizeIncludePattern (pattern : List Char) : List Char :=
  if ['*', '*', '/'].isPrefixOf pattern then pattern else ['*', '*', '/'] ++ pattern

/-- `(rel / s).as_posix()`. A rooted `s` replaces what is in front. -/
def joinPosix (rel : PurePath) (s : List Char) : List Char :=
  let path := PurePath.ofString (String.ofList s)
  if s.head? = some '/' then
    (if ['/', '/'].isPrefixOf s ∧ ¬ ['/', '/', '/'].isPrefixOf s then ['/', '/'] else ['/']) ++
      ['/'].intercalate path.parts
  else (rel.join path).posix

/-- The exclude patterns for a line. -/
def gitignoreLine (rel : PurePath) (raw : List Char) : List (List Char) :=
  let line := strip raw
  if line = [] ∨ line.head? = some '#' then []
  else
    let line := if line.getLast? = some '/' then line.dropLast else line
    if line.head? = some '/' then
      let anchored := if rel.parts = [] then line.tail else joinPosix rel line.tail
      [anchored, anchored ++ ['/', '*', '*']]
    else if rel.parts = [] then [normalizeIncludePattern line]
    else [rel.posix ++ ['/', '*', '*', '/'] ++ line, rel.posix ++ ['/'] ++ line]

/-- `load_gitignore_patterns`, from the lines of the file where there is one. -/
def loadGitignorePatterns (dirPath rootDir : PurePath) (lines : Option (List (List Char))) :
    List (List Char) :=
  match lines, dirPath.relativeTo rootDir with
  | some lines, .ok rel => lines.flatMap (gitignoreLine rel)
  | _, _ => []

/-! ## Requests -/

/-- `ignore_engine`. -/
structure Engine where
  ignores : PurePath → Bool → Bool
  repoRoots : List PurePath

/-- The tree under `/`, and the lines of the `.gitignore` of a directory. -/
structure Volume where
  top : Entries
  fs : FileSystem
  gitignore : PurePath → Option (List (List Char))

/-- The arguments of `walk_directory_tree`. The order of inodes only orders the files. -/
structure WalkRequest where
  startPath : PurePath
  rootDirectory : PurePath
  patterns : List (List Char)
  excludePatterns : List (List Char)
  parentGitignores : PurePath → Option (List (List Char))
  ignoreEngine : Option Engine
  maxFiles : Option ℤ

def Volume.entries (volume : Volume) (path : PurePath) : Entries :=
  (volume.top.find path.parts).getD .nil

/-! ## The Python walk -/

section Python

variable (volume : Volume) (req : WalkRequest)

/-- `gitignore_patterns[dir]`. -/
def gitignoreOf (dir : PurePath) : List (List Char) :=
  if req.startPath.parts <+: dir.parts then
    loadGitignorePatterns dir req.rootDirectory (volume.gitignore dir)
  else (req.parentGitignores dir).getD []

/-- The patterns of a directory and of those above it. -/
def gitignoresUpTo : ℕ → PurePath → List (List Char)
  | 0, dir => gitignoreOf volume req dir
  | n + 1, dir => gitignoreOf volume req dir ++ gitignoresUpTo n (parentDir dir)

/-- `all_gitignore_patterns`. -/
def allGitignorePatterns (currentDir : PurePath) : List (List Char) :=
  gitignoresUpTo volume req (currentDir.parts.length - req.rootDirectory.parts.length) currentDir

/-- The ignore engine decides, or else the exclude patterns and the ignore files. -/
def excluded (path : PurePath) (isDir : Bool) : Bool :=
  match req.ignoreEngine with
  | some engine => engine.ignores path isDir
  | none =>
    shouldExcludePath path req.rootDirectory req.excludePatterns ||
      shouldExcludePath path req.rootDirectory (allGitignorePatterns volume req (parentDir path))

/-- A directory stays in `dirnames`. -/
def enters (dirPath : PurePath) : Bool :=
  !prunedByPrefix req.patterns req.rootDirectory dirPath &&
    !shouldPruneHeavyDir (extractIncludePrefixes req.patterns) (lastPart dirPath) &&
      !excluded volume req dirPath true

/-- `path.suffix`. -/
def suffix (name : Segment) : Segment :=
  if '.' ∈ name.tail ∧ name.getLast? ≠ some '.' then
    '.' :: name.rtakeWhile (· ≠ '.')
  else []

/-- A file is appended to `files`. -/
def takes (filePath : PurePath) : Bool :=
  let (incAllowExts, incAllowNames, incHasComplex) := summarizeIncludePatterns req.patterns
  !excluded volume req filePath false &&
    (incHasComplex || lastPart filePath ∈ incAllowNames ||
      suffix (lastPart filePath) ∈ incAllowExts) &&
    shouldIncludeFile volume.fs filePath req.rootDirectory req.patterns

/-- The walk in Python. -/
def pythonWalk : List PurePath :=
  let files := (volume.entries req.startPath).walk (enters volume req)
    (fun path _ => takes volume req path) req.startPath
  match req.maxFiles with
  | none => files
  | some maxFiles => files.take (max 1 maxFiles.toNat)

end Python

/-! ## The native scan -/

/-- What `ignore` drops on a walk from a root, what patterns built at a root match, and
`to_lowercase`. -/
structure NativeModule where
  ignored : PurePath → PurePath → Bool → Bool
  matched : PurePath → List (List Char) → PurePath → Bool
  toLowercase : List Char → List Char

/-- `_fnmatch_to_gitignore`. -/
def fnmatchToGitignore (pattern : List Char) : List Char :=
  if ['*', '*', '/'].isPrefixOf pattern ∧ ¬ ['/', '*', '*'].isSuffixOf pattern ∧
      '/' ∉ (pattern.drop 3).rdropWhile (· = '/') then pattern.drop 3
  else pattern

/-- `path.extension()`. -/
def extension (name : Segment) : Option Segment :=
  if '.' ∈ name.tail ∧ name ≠ ['.', '.'] then some (name.rtakeWhile (· ≠ '.')) else none

/-- The arguments of `scan_files` behind the root. -/
structure ScanArgs where
  extensions : List Segment
  skipDirs : List Segment
  excludePatterns : List (List Char)
  exactNames : List Segment
  includeAll : Bool

section Native

variable (native : NativeModule)

def scanEnters (root : PurePath) (args : ScanArgs) (path : PurePath) : Bool :=
  !native.ignored root path true && lastPart path ∉ args.skipDirs

def scanTakes (root : PurePath) (args : ScanArgs) (path : PurePath) (regular : Bool) : Bool :=
  !native.ignored root path false && regular &&
    !(args.excludePatterns ≠ [] && native.matched root args.excludePatterns path) &&
    (args.includeAll ||
      (match extension (lastPart path) with
        | some ext => native.toLowercase ext ∈ args.extensions.map native.toLowercase
        | none => false) ||
      lastPart path ∈ args.exactNames)

/-- `scan_files`. The root is not looked up in ignore files, but its name is in `skip_dirs`. -/
def scanFiles (volume : Volume) (root : PurePath) (args : ScanArgs) : List PurePath :=
  if lastPart root ∈ args.skipDirs then []
  else (volume.entries root).walk (scanEnters native root args) (scanTakes native root args) root

end Native

/-! ## walk_directory_tree -/

/-- `s.startswith(base + os.sep)`. -/
def startsWithDir (path base : PurePath) : Bool :=
  (base.str.toList ++ ['/']).isPrefixOf path.str.toList

/-- `_include_all`. -/
def includeAllOf (patterns : List (List Char)) : Bool :=
  ['*', '*', '/', '*'] ∈ patterns &&
    heavyDirs.all (shouldPruneHeavyDir (extractIncludePrefixes patterns))

def scanArgs (req : WalkRequest) : ScanArgs :=
  let (exts, names, _) := summarizeIncludePatterns req.patterns
  let includeAll := includeAllOf req.patterns
  { extensions := if includeAll then [] else exts.map (·.dropWhile (· = '.'))
    skipDirs := heavyDirs
    excludePatterns := req.excludePatterns.map fnmatchToGitignore
    exactNames := if includeAll then [] else names
    includeAll := includeAll }

/-- The native scan can be used. -/
def fastPath (req : WalkRequest) : Bool :=
  let (exts, names, hasComplex) := summarizeIncludePatterns req.patterns
  req.maxFiles.isNone &&
    (includeAllOf req.patterns || (!hasComplex && (exts ≠ [] || names ≠ [])))

section Walk

variable (native : NativeModule) (volume : Volume) (req : WalkRequest)

/-- A repository strictly below the start directory. -/
def nestedRoot (root : PurePath) : Bool :=
  let start := volume.fs.resolve req.startPath
  root ≠ start && startsWithDir root start

/-- Scan a repository below where nothing was found. -/
def rescan (raw : List PurePath) (root : PurePath) : List PurePath :=
  if nestedRoot volume req root && !raw.any (startsWithDir · root) then
    (scanFiles native volume root (scanArgs req)).foldl
      (fun raw p => if p ∈ raw then raw else raw ++ [p]) raw
  else raw

/-- The scan, its rescans and the engine. -/
def nativeWalk : List PurePath :=
  let raw := scanFiles native volume req.startPath (scanArgs req)
  match req.ignoreEngine with
  | none => raw
  | some engine =>
    (engine.repoRoots.foldl (rescan native volume req) raw).filter (!engine.ignores · false)

/-- The files of `walk_directory_tree`. -/
def walkDirectoryTree (useRust : Bool) : List PurePath :=
  if useRust && fastPath req then nativeWalk native volume req else pythonWalk volume req

/-! ## Found by either -/

/-- A file that a pattern matches, in directories where one is anchored. -/
structure Anchored (p : PurePath) : Prop where
  held : ∃ r, (volume.entries req.startPath).Holds req.startPath p r
  included : shouldIncludeFile volume.fs p req.rootDirectory req.patterns = true
  dirs : ∀ d, Entries.Between req.startPath d p →
    prunedByPrefix req.patterns req.rootDirectory d = false ∧
      shouldPruneHeavyDir (extractIncludePrefixes req.patterns) (lastPart d) = false

/-- The name of a file, as it is written, is one that is collected from the patterns. -/
def Named (p : PurePath) : Prop :=
  let (exts, names, hasComplex) := summarizeIncludePatterns req.patterns
  hasComplex = true ∨ lastPart p ∈ names ∨ suffix (lastPart p) ∈ exts

/-- A file or a directory on the way to it is excluded. -/
def Excluded (p : PurePath) : Prop :=
  excluded volume req p false = true ∨
    ∃ d, Entries.Between req.startPath d p ∧ excluded volume req d true = true

/-- The same, natively, where neither case nor leading dots count. -/
def Collected (p : PurePath) : Prop :=
  let (exts, names, _) := summarizeIncludePatterns req.patterns
  includeAllOf req.patterns = true ∨ (∃ e, extension (lastPart p) = some e ∧
    ∃ ext ∈ exts, native.toLowercase (ext.dropWhile (· = '.')) = native.toLowercase e) ∨
      lastPart p ∈ names

/-- A native scan drops a file, whatever its name. -/
def scanExcludes (root p : PurePath) : Bool :=
  native.ignored root p false || ((scanArgs req).excludePatterns ≠ [] &&
    native.matched root (scanArgs req).excludePatterns p)

/-- A file is regular, and a native scan from a root drops neither it nor a directory on the way. -/
structure Scanned (root p : PurePath) : Prop where
  regular : (volume.entries root).Holds root p true
  start : lastPart root ∉ heavyDirs
  file : scanExcludes native req root p = false
  dirs : ∀ d, Entries.Between root d p → lastPart d ∉ heavyDirs ∧ native.ignored root d true = false

/-- What is kept, with the repositories of a list in turn : the files of one count where nothing
below it was kept before. -/
def KeptAfter : (PurePath → Prop) → List PurePath → PurePath → Prop
  | kept, [], p => kept p
  | kept, root :: roots, p =>
    KeptAfter (fun q => kept q ∨ (nestedRoot volume req root = true ∧
      (∀ x, kept x → startsWithDir x root = false) ∧ Scanned native volume req root q ∧
        Collected native req q)) roots p

/-- A file is kept by the native scan of the start directory, or of a repository below. -/
def Kept (p : PurePath) : Prop :=
  KeptAfter native volume req
    (fun q => Scanned native volume req req.startPath q ∧ Collected native req q)
    (req.ignoreEngine.elim [] Engine.repoRoots) p

/-- The ignore engine, where there is one, lets a file through. -/
def Allowed (p : PurePath) : Prop :=
  req.ignoreEngine.all fun engine => !engine.ignores p false

/-- What is kept natively is where, named as, and not what Python asks, and nothing else that it
asks for is dropped. -/
structure SameRules : Prop where
  anchored : ∀ p, Kept native volume req p → Allowed req p → Anchored volume req p
  named : ∀ p, Kept native volume req p → Allowed req p → Named req p
  excludes : ∀ p, Kept native volume req p → Allowed req p → ¬ Excluded volume req p
  kept : ∀ p, Anchored volume req p → Named req p → ¬ Excluded volume req p →
    Kept native volume req p

/-- The files of a tree that both scans take for their extension in the same way : none ends with
`.`, or has the extension of a pattern in another case. -/
def SameCase (p : PurePath) : Prop :=
  ∀ e, extension (lastPart p) = some e → ∀ ext ∈ (summarizeIncludePatterns req.patterns).1,
    native.toLowercase (ext.dropWhile (· = '.')) = native.toLowercase e → e ≠ [] ∧ ext = '.' :: e

/-- No ignore engine, no pattern that is anchored, both exclude the same directories and files,
every file is regular, and extensions differ in more than their case. -/
structure Plain : Prop where
  engine : req.ignoreEngine = none
  start : lastPart req.startPath ∉ heavyDirs
  patterns : ∀ pattern ∈ req.patterns, '/' ∉ dropStars pattern
  dirs : ∀ d, native.ignored req.startPath d true = excluded volume req d true
  files : ∀ p, scanExcludes native req req.startPath p = excluded volume req p false
  holds : ∀ p r, (volume.entries req.startPath).Holds req.startPath p r →
    r = true ∧ SameCase native req p

end Walk

section Found

variable {native : NativeModule} {volume : Volume} {req : WalkRequest}

variable {p : PurePath}

theorem takes_iff : takes volume req p = true ↔
    excluded volume req p false = false ∧ Named req p ∧
      shouldIncludeFile volume.fs p req.rootDirectory req.patterns = true := by
  simp [takes, Named, and_assoc, or_assoc]

theorem mem_pythonWalk (h : req.maxFiles = none) :
    p ∈ pythonWalk volume req ↔
      Anchored volume req p ∧ Named req p ∧ ¬ Excluded volume req p := by
  unfold pythonWalk
  rw [h, Entries.mem_walk]
  constructor
  · rintro ⟨r, hheld, htakes, hdirs⟩
    obtain ⟨hfile, hnamed, hincluded⟩ := takes_iff.1 htakes
    have henters : ∀ d, Entries.Between req.startPath d p →
        prunedByPrefix req.patterns req.rootDirectory d = false ∧
          shouldPruneHeavyDir (extractIncludePrefixes req.patterns) (lastPart d) = false ∧
            excluded volume req d true = false := fun d hd => by
      simpa [enters, and_assoc] using hdirs d hd
    refine ⟨⟨⟨r, hheld⟩, hincluded, fun d hd => ⟨(henters d hd).1, (henters d hd).2.1⟩⟩, hnamed, ?_⟩
    rintro (hp | ⟨d, hd, hexcluded⟩)
    · rw [hfile] at hp
      cases hp
    · rw [(henters d hd).2.2] at hexcluded
      cases hexcluded
  · rintro ⟨⟨⟨r, hheld⟩, hincluded, hdirs⟩, hnamed, hexcluded⟩
    rw [Excluded, not_or, not_exists] at hexcluded
    refine ⟨r, hheld, takes_iff.2 ⟨by simpa using hexcluded.1, hnamed, hincluded⟩, fun d hd => ?_⟩
    have hdir : excluded volume req d true = false := by
      simpa using fun h => hexcluded.2 d ⟨hd, h⟩
    simp [enters, hdirs d hd, hdir]

theorem skipDirs_scanArgs : (scanArgs req).skipDirs = heavyDirs := rfl

/-- The names a native scan is asked for. -/
theorem collected_iff : Collected native req p ↔
    (scanArgs req).includeAll = true ∨ (∃ e, extension (lastPart p) = some e ∧
      native.toLowercase e ∈ (scanArgs req).extensions.map native.toLowercase) ∨
        lastPart p ∈ (scanArgs req).exactNames := by
  unfold Collected scanArgs
  cases includeAllOf req.patterns with
  | true => simp
  | false => simp

variable {root p : PurePath}

/-- The native rules of a file. -/
theorem scanTakes_iff {r : Bool} :
    scanTakes native root (scanArgs req) p r = true ↔
      r = true ∧ scanExcludes native req root p = false ∧ Collected native req p := by
  rw [collected_iff]
  unfold scanTakes scanExcludes
  generalize ((scanArgs req).excludePatterns ≠ [] &&
    native.matched root (scanArgs req).excludePatterns p : Bool) = x
  cases extension (lastPart p) with
  | none => simp [and_assoc, and_left_comm]
  | some e => simp [and_assoc, and_left_comm, or_assoc]

theorem mem_scanFiles : p ∈ scanFiles native volume root (scanArgs req) ↔
    Scanned native volume req root p ∧ Collected native req p := by
  unfold scanFiles
  rw [skipDirs_scanArgs]
  split
  · rename_i hheavy
    exact iff_of_false List.not_mem_nil fun h => h.1.start hheavy
  · rename_i hheavy
    rw [Entries.mem_walk]
    constructor
    · rintro ⟨r, hheld, htakes, hdirs⟩
      obtain ⟨rfl, hfile, hcollected⟩ := scanTakes_iff.1 htakes
      refine ⟨⟨hheld, hheavy, hfile, fun d hd => ?_⟩, hcollected⟩
      have henter := hdirs d hd
      rw [scanEnters, Bool.and_eq_true, Bool.not_eq_true', decide_eq_true_eq] at henter
      exact henter.symm
    · rintro ⟨hscanned, hcollected⟩
      refine ⟨true, hscanned.regular, scanTakes_iff.2 ⟨rfl, hscanned.file, hcollected⟩, ?_⟩
      intro d hd
      simp [scanEnters, skipDirs_scanArgs, hscanned.dirs d hd]

/-- New files are added once. -/
theorem mem_foldl_new : ∀ {found raw : List PurePath},
    p ∈ found.foldl (fun raw p => if p ∈ raw then raw else raw ++ [p]) raw ↔
      p ∈ raw ∨ p ∈ found
  | [], raw => by simp
  | q :: found, raw => by
    rw [List.foldl_cons, mem_foldl_new]
    split
    · rename_i hq
      constructor
      · exact Or.imp_right (List.mem_cons_of_mem q)
      · rintro (hp | hp)
        · exact Or.inl hp
        · rcases List.mem_cons.1 hp with rfl | hp
          · exact Or.inl hq
          · exact Or.inr hp
    · rw [List.mem_append, List.mem_singleton, List.mem_cons, or_assoc]

/-- A repository counts where nothing below it was found. -/
theorem mem_rescan {raw : List PurePath} :
    p ∈ rescan native volume req raw root ↔ p ∈ raw ∨ (nestedRoot volume req root = true ∧
      (∀ x ∈ raw, startsWithDir x root = false) ∧ Scanned native volume req root p ∧
        Collected native req p) := by
  have hany : (!raw.any (startsWithDir · root)) = true ↔
      ∀ x ∈ raw, startsWithDir x root = false := by
    rw [Bool.not_eq_true', List.any_eq_false]
    exact forall₂_congr fun x _ => Bool.not_eq_true _ ▸ Iff.rfl
  unfold rescan
  split
  · rename_i hscan
    rw [Bool.and_eq_true, hany] at hscan
    rw [mem_foldl_new, mem_scanFiles]
    exact or_congr_right ⟨fun hp => ⟨hscan.1, hscan.2, hp⟩, fun hp => hp.2.2⟩
  · rename_i hscan
    rw [Bool.and_eq_true, hany] at hscan
    exact (or_iff_left fun hp => hscan ⟨hp.1, hp.2.1⟩).symm

theorem mem_rescans : ∀ {roots raw : List PurePath} {kept : PurePath → Prop},
    (∀ q, q ∈ raw ↔ kept q) → (p ∈ roots.foldl (rescan native volume req) raw ↔
      KeptAfter native volume req kept roots p)
  | [], _, _, hraw => hraw p
  | root :: roots, raw, kept, hraw => by
    rw [List.foldl_cons, KeptAfter]
    refine mem_rescans fun q => ?_
    rw [mem_rescan, hraw q]
    refine or_congr_right (and_congr_right fun _ => and_congr_left fun _ => ?_)
    exact forall_congr' fun x => imp_congr_left (hraw x)

theorem mem_nativeWalk :
    p ∈ nativeWalk native volume req ↔ Kept native volume req p ∧ Allowed req p := by
  unfold nativeWalk Kept Allowed
  cases req.ignoreEngine with
  | none => simpa [KeptAfter] using mem_scanFiles
  | some engine =>
    rw [List.mem_filter, mem_rescans fun q => mem_scanFiles]
    rfl

/-- A file that is not excluded is let through. -/
theorem allowed_of_not_excluded (h : ¬ Excluded volume req p) : Allowed req p := by
  rw [Excluded, not_or] at h
  have hfile := h.1
  unfold excluded at hfile
  unfold Allowed
  cases hengine : req.ignoreEngine with
  | none => rfl
  | some engine => simpa [hengine] using hfile

/-- Every file is found by both or by neither exactly when the rules are the same. -/
theorem sameRules_iff : (∀ p, Kept native volume req p ∧ Allowed req p ↔
      Anchored volume req p ∧ Named req p ∧ ¬ Excluded volume req p) ↔
    SameRules native volume req := by
  constructor
  · intro h
    exact ⟨fun p hkept hallowed => ((h p).1 ⟨hkept, hallowed⟩).1,
      fun p hkept hallowed => ((h p).1 ⟨hkept, hallowed⟩).2.1,
      fun p hkept hallowed => ((h p).1 ⟨hkept, hallowed⟩).2.2,
      fun p hanchored hnamed hexcluded => ((h p).2 ⟨hanchored, hnamed, hexcluded⟩).1⟩
  · rintro ⟨hanchored, hnamed, hexcluded, hkept⟩ p
    constructor
    · rintro ⟨hk, ha⟩
      exact ⟨hanchored p hk ha, hnamed p hk ha, hexcluded p hk ha⟩
    · rintro ⟨ha, hn, he⟩
      exact ⟨hkept p ha hn he, allowed_of_not_excluded he⟩

end Found

/-! ## Where they agree -/

section Agree

variable {native : NativeModule} {volume : Volume} {req : WalkRequest}

/-- A pattern without wildcards matches itself. -/
theorem matchPattern_self : ∀ {n : ℕ} {t : List Char}, NoWildcard t → t.length < n →
    matchPattern n t t = true
  | _ + 1, [], _, _ => rfl
  | n + 1, c :: t, ht, hlen => by
    obtain ⟨⟨hstar, -, hbracket⟩, htail⟩ := ht.tail
    have hrest : matchPattern n t t = true := matchPattern_self htail (by simpa using hlen)
    simp [matchPattern, hstar, hbracket, hrest]

/-- `*` in front of a plain text matches what ends with it. -/
theorem fnmatch_star {t s : List Char} (ht : NoWildcard t) (h : t <:+ s) :
    fnmatch ('*' :: t) s = true := by
  rw [fnmatch, matchPattern_star]
  exact List.any_eq_true.2 ⟨t, (List.mem_tails t s).2 h, matchPattern_self ht (by simp)⟩

/-- A simple pattern without a directory matches the names it asks for. -/
theorem fnmatch_of_takes {q name : List Char} {kind : Kind} (hkind : tailKind q = some kind)
    (h : kind.Takes name) : fnmatch q name = true := by
  rcases tailKind_some hkind with ⟨ext, rfl, he⟩ | ⟨value, rfl, he⟩
  · obtain ⟨rfl, hno, -⟩ := isSimpleExt_some he
    exact fnmatch_star hno h
  · obtain ⟨rfl, hno, -⟩ := isExactName_some he
    obtain rfl : q = name := h
    exact matchPattern_self hno (by simp)

variable {patterns : List (List Char)}

/-- A file is included where a pattern, without `**/`, matches its name. -/
theorem include_of_fnmatch {fs : FileSystem} {path root : PurePath}
    {pattern : List Char} (hpattern : pattern ∈ patterns)
    (h : fnmatch (dropStars pattern) (lastPart path) = true) :
    shouldIncludeFile fs path root patterns = true := by
  refine List.any_eq_true.2 ⟨pattern, hpattern, ?_⟩
  unfold dropStars at h
  split at h
  · rename_i hstars
    rw [if_pos hstars, h, Bool.or_true]
  · rename_i hstars
    rw [if_neg hstars, h, Bool.or_true]

/-- The last `.` of a name and what follows. -/
theorem dot_suffix {name : Segment} (h : '.' ∈ name) :
    '.' :: name.rtakeWhile (· ≠ '.') <:+ name := by
  have hne : name.reverse.dropWhile (· ≠ '.') ≠ [] := by
    intro hnil
    have hall := List.dropWhile_eq_nil_iff.1 hnil '.' (List.mem_reverse.2 h)
    simp at hall
  obtain ⟨c, rest, hdrop⟩ := List.exists_cons_of_ne_nil hne
  have hc : c = '.' := by
    have hhead := List.head?_dropWhile_not (fun x : Char => decide (x ≠ '.')) name.reverse
    rw [hdrop] at hhead
    simpa using hhead
  refine ⟨rest.reverse, ?_⟩
  have hsplit : name.reverse.takeWhile (· ≠ '.') ++ name.reverse.dropWhile (· ≠ '.') =
      name.reverse := List.takeWhile_append_dropWhile
  rw [hdrop, hc] at hsplit
  have hrev := congrArg List.reverse hsplit
  rw [List.reverse_append, List.reverse_reverse, List.reverse_cons, List.append_assoc,
    List.singleton_append] at hrev
  exact hrev

variable {name ext : Segment}

theorem extension_some (h : extension name = some ext) :
    '.' ∈ name.tail ∧ ext = name.rtakeWhile (· ≠ '.') := by
  obtain ⟨⟨hdot, -⟩, he⟩ := Option.ite_none_right_eq_some.1 h
  exact ⟨hdot, (Option.some.inj he).symm⟩

/-- An extension that is not empty is the suffix, but for its `.`. -/
theorem suffix_of_extension (h : extension name = some ext) (hne : ext ≠ []) :
    suffix name = '.' :: ext := by
  obtain ⟨hdot, rfl⟩ := extension_some h
  refine if_pos ⟨hdot, fun hlast => hne ?_⟩
  refine List.rtakeWhile_eq_nil_iff.2 fun hl => ?_
  rw [List.getLast?_eq_getLast_of_ne_nil hl] at hlast
  simp [Option.some.inj hlast]

theorem extension_of_suffix {name : Segment} {c : Char} {ext : Segment}
    (h : suffix name = c :: ext) : extension name = some ext := by
  unfold suffix at h
  split at h
  · rename_i hdot
    rw [← (List.cons.inj h).2]
    refine if_pos ⟨hdot.1, ?_⟩
    rintro rfl
    exact hdot.2 rfl
  · cases h

/-- What an extension is stripped to has no `.` in front. -/
theorem stripped_dot (h : extension name = some ext) :
    ('.' :: ext).dropWhile (· = '.') = ext := by
  obtain ⟨-, rfl⟩ := extension_some h
  have hno : '.' ∉ name.rtakeWhile (· ≠ '.') := fun hmem => by
    have := List.mem_rtakeWhile_imp hmem
    simp at this
  rw [List.dropWhile_cons_of_pos (by decide)]
  cases hx : name.rtakeWhile (· ≠ '.') with
  | nil => rfl
  | cons c rest =>
    refine List.dropWhile_cons_of_neg fun hc => hno ?_
    rw [hx, of_decide_eq_true hc]
    exact List.mem_cons_self

section Plain

variable (hpatterns : ∀ pattern ∈ req.patterns, '/' ∉ dropStars pattern)

include hpatterns

theorem extractIncludePrefixes_eq_nil : extractIncludePrefixes req.patterns = [] := by
  have hnone : req.patterns.filterMap includePrefix = [] :=
    List.filterMap_eq_nil_iff.2 fun pattern hpattern =>
      if_pos (Or.inr (Or.inr (hpatterns pattern hpattern)))
  rw [extractIncludePrefixes, hnone]
  rfl

/-- A simple pattern asks for a collected extension or name, and includes what it asks for. -/
theorem include_of_collected {path : PurePath} {kind : Kind} (hmem : some kind ∈ kinds req.patterns)
    (h : kind.Takes (lastPart path)) :
    shouldIncludeFile volume.fs path req.rootDirectory req.patterns = true := by
  obtain ⟨pattern, hpattern, hkind⟩ := List.mem_map.1 hmem
  rw [classify, if_pos (hpatterns pattern hpattern)] at hkind
  exact include_of_fnmatch hpattern (fnmatch_of_takes hkind h)

end Plain

theorem mem_exts {ext : Segment} :
    ext ∈ (summarizeIncludePatterns patterns).1 ↔ some (.ext ext) ∈ kinds patterns := by
  rw [summarizeIncludePatterns, List.mem_dedup, List.mem_filterMap]
  constructor
  · rintro ⟨kind, hkind, he⟩
    split at he
    · rwa [← Option.some.inj he]
    · cases he
  · exact fun h => ⟨_, h, rfl⟩

theorem mem_names {name : Segment} :
    name ∈ (summarizeIncludePatterns patterns).2.1 ↔ some (.name name) ∈ kinds patterns := by
  rw [summarizeIncludePatterns, List.mem_dedup, List.mem_filterMap]
  constructor
  · rintro ⟨kind, hkind, he⟩
    split at he
    · rwa [← Option.some.inj he]
    · cases he
  · exact fun h => ⟨_, h, rfl⟩

/-- `**/*` takes every file. -/
theorem include_of_sentinel {p : PurePath} (h : ['*', '*', '/', '*'] ∈ req.patterns) :
    shouldIncludeFile volume.fs p req.rootDirectory req.patterns = true :=
  include_of_fnmatch h (fnmatch_star ⟨List.not_mem_nil, List.not_mem_nil, List.not_mem_nil⟩
    (List.nil_suffix))

theorem complex_of_sentinel
    (h : ['*', '*', '/', '*'] ∈ patterns) : (summarizeIncludePatterns patterns).2.2 = true := by
  refine List.any_eq_true.2 ⟨none, List.mem_map.2 ⟨_, h, ?_⟩, rfl⟩
  decide

/-- The names and extensions collected come to the same natively and in Python. -/
theorem collected_iff_named (hfast : fastPath req = true)
    (hpatterns : ∀ pattern ∈ req.patterns, '/' ∉ dropStars pattern) {p : PurePath}
    (hname : SameCase native req p) : Collected native req p ↔ Named req p ∧
      shouldIncludeFile volume.fs p req.rootDirectory req.patterns = true := by
  cases hall : includeAllOf req.patterns with
  | true =>
    have hsentinel : ['*', '*', '/', '*'] ∈ req.patterns := by
      simp only [includeAllOf, Bool.and_eq_true, decide_eq_true_eq] at hall
      exact hall.1
    exact iff_of_true (Or.inl hall)
      ⟨Or.inl (complex_of_sentinel hsentinel), include_of_sentinel hsentinel⟩
  | false =>
    have hcomplex : (summarizeIncludePatterns req.patterns).2.2 = false := by
      simp only [fastPath, hall, Bool.and_eq_true, Bool.not_eq_true', Bool.false_or] at hfast
      exact hfast.2.1
    constructor
    · rintro (htrue | ⟨e, he, ext, hext, hlower⟩ | hnames)
      · cases hall.symm.trans htrue
      · obtain ⟨hne, rfl⟩ := hname e he ext hext hlower
        obtain ⟨hdot, rfl⟩ := extension_some he
        refine ⟨Or.inr (Or.inr ((suffix_of_extension he hne).symm ▸ hext)), ?_⟩
        refine include_of_collected hpatterns (mem_exts.1 hext) ?_
        exact dot_suffix (List.mem_of_mem_tail hdot)
      · exact ⟨Or.inr (Or.inl hnames), include_of_collected hpatterns (mem_names.1 hnames) rfl⟩
    · rintro ⟨htrue | hnames | hsuffix, -⟩
      · cases hcomplex.symm.trans htrue
      · exact Or.inr (Or.inr hnames)
      · obtain ⟨pattern, -, hkind⟩ := List.mem_map.1 (mem_exts.1 hsuffix)
        obtain ⟨a, t, hsimple⟩ := simple_of_classify hkind
        rcases tailKind_some hsimple.tail with ⟨ext, hext, he⟩ | ⟨value, hvalue, -⟩
        · obtain ⟨-, -, -, hhead⟩ := isSimpleExt_some he
          rw [← Kind.ext.inj hext] at hhead
          obtain ⟨e, hsuf⟩ := List.head?_eq_some_iff.1 hhead
          have hsome := extension_of_suffix hsuf
          refine Or.inr (Or.inl ⟨e, hsome, _, hsuffix, ?_⟩)
          rw [hsuf, stripped_dot hsome]
        · cases hvalue

/-- Where no pattern is anchored and both exclude the same, the rules are the same. -/
theorem Plain.sameRules (hfast : fastPath req = true) (h : Plain native volume req) :
    SameRules native volume req := by
  have hkept : ∀ p, Kept native volume req p ↔
      Scanned native volume req req.startPath p ∧ Collected native req p := fun p => by
    rw [Kept, h.engine]
    rfl
  refine sameRules_iff.1 fun p => ?_
  rw [hkept, Allowed, h.engine]
  constructor
  · rintro ⟨⟨hscanned, hcollected⟩, -⟩
    obtain ⟨-, hcase⟩ := h.holds p true hscanned.regular
    obtain ⟨hnamed, hincluded⟩ := (collected_iff_named hfast h.patterns hcase).1 hcollected
    refine ⟨⟨⟨true, hscanned.regular⟩, hincluded, fun d hd => ?_⟩, hnamed, ?_⟩
    · simp [prunedByPrefix, canPruneDirByPrefix, shouldPruneHeavyDir, (hscanned.dirs d hd).1,
        extractIncludePrefixes_eq_nil h.patterns]
    · rintro (hp | ⟨d, hd, hexcluded⟩)
      · rw [← h.files p, hscanned.file] at hp
        cases hp
      · rw [← h.dirs d, (hscanned.dirs d hd).2] at hexcluded
        cases hexcluded
  · rintro ⟨⟨⟨r, hheld⟩, hincluded, hdirs⟩, hnamed, hexcluded⟩
    obtain ⟨rfl, hcase⟩ := h.holds p r hheld
    rw [Excluded, not_or, not_exists] at hexcluded
    have hscanned : Scanned native volume req req.startPath p := by
      refine ⟨hheld, h.start, ?_, fun d hd => ⟨?_, ?_⟩⟩
      · rw [h.files p]
        simpa using hexcluded.1
      · have hheavy := (hdirs d hd).2
        rw [extractIncludePrefixes_eq_nil h.patterns] at hheavy
        simpa [shouldPruneHeavyDir] using hheavy
      · rw [h.dirs d]
        simpa using fun hd' => hexcluded.2 d ⟨hd, hd'⟩
    exact ⟨⟨hscanned, (collected_iff_named hfast h.patterns hcase).2 ⟨hnamed, hincluded⟩⟩, rfl⟩

end Agree

/-! ## An anchored pattern -/

def nameOf (s : String) (h : s.toList ≠ [] ∧ s.toList ≠ ['.'] ∧ '/' ∉ s.toList) : Name :=
  ⟨s.toList, h⟩

/-- `src/a.py` and `other/b.py`. -/
def twoSources : Entries :=
  .dir (nameOf "src" (by decide)) (.file (nameOf "a.py" (by decide)) true .nil)
    (.dir (nameOf "other" (by decide)) (.file (nameOf "b.py" (by decide)) true .nil) .nil)

def twoSourcesVolume : Volume where
  top := .dir (nameOf "r" (by decide)) twoSources .nil
  fs := flatDisk
  gitignore := fun _ => none

/-- No ignore files, and no exclude patterns to match. -/
def plainModule : NativeModule := ⟨fun _ _ _ => false, fun _ _ _ => false, (·.map Char.toLower)⟩

def anchoredRequest : WalkRequest where
  startPath := .ofString "/r"
  rootDirectory := .ofString "/r"
  patterns := ["src/**/*.py".toList]
  excludePatterns := []
  parentGitignores := fun _ => none
  ignoreEngine := none
  maxFiles := none

end ChunkHound.Discovery
