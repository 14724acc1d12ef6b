import ChunkHound.ChunkDiff
import ChunkHound.Joined

/-!
# Relative keys

`core/utils/path_utils.py` : `getRelativePathSafe` is the path of a file relative to a base
directory. Its `as_posix` is the key a file's row is stored under. A symlink keeps its spelling,
any other path is resolved first, and a path that is not below the base once resolved is tried
as it is spelled.

A `PurePath` is a `pathlib` path without its root : the paths of files and directories are
absolute, the keys are relative. What the disk says of a path is a `FileSystem`.
-/

namespace ChunkHound

/-! ## Paths -/

/-- The parts of a path : `pathlib` drops empty ones and `.`. -/
structure PurePath where
  parts : List (List Char)
  clean : ∀ c ∈ parts, c ≠ [] ∧ c ≠ ['.'] ∧ '/' ∉ c
  deriving DecidableEq

namespace PurePath

@[ext] theorem ext : ∀ {p q : PurePath}, p.parts = q.parts → p = q
  | ⟨_, _⟩, ⟨_, _⟩, rfl => rfl

/-- The parts of a string. -/
def segments (s : List Char) : List (List Char) :=
  (s.splitOn '/').filter fun c => c ≠ [] ∧ c ≠ ['.']

/-- `Path(s)`. -/
def ofString (s : String) : PurePath where
  parts := segments s.toList
  clean c hc := by
    obtain ⟨hmem, hne⟩ := List.mem_filter.1 hc
    have hne : c ≠ [] ∧ c ≠ ['.'] := of_decide_eq_true hne
    exact ⟨hne.1, hne.2, Joined.notMem_of_mem_splitOn hmem⟩

/-- `base / path` for a relative `path`. -/
def join (base path : PurePath) : PurePath where
  parts := base.parts ++ path.parts
  clean c hc := (List.mem_append.1 hc).elim (base.clean c) (path.clean c)

def posix (p : PurePath) : List Char :=
  if p.parts = [] then ['.'] else ['/'].intercalate p.parts

/-- `as_posix()` of a relative path. -/
def asPosix (p : PurePath) : String :=
  String.ofList p.posix

/-- `str()` of an absolute path. -/
def str (p : PurePath) : String :=
  String.ofList ('/' :: ['/'].intercalate p.parts)

/-- `path.relative_to(base)`. -/
def relativeTo (path base : PurePath) : Except String PurePath :=
  if base.parts <+: path.parts then
    .ok ⟨path.parts.drop base.parts.length, fun c hc => path.clean c (List.mem_of_mem_drop hc)⟩
  else .error ("'" ++ path.str ++ "' is not in the subpath of '" ++ base.str ++ "'")

theorem segments_append (s t : List Char) :
    segments (s ++ '/' :: t) = segments s ++ segments t := by
  rw [segments, List.splitOn_append_cons_self, List.filter_append, segments, segments]

theorem segments_intercalate (p : PurePath) (h : p.parts ≠ []) :
    segments (['/'].intercalate p.parts) = p.parts := by
  rw [segments, List.splitOn_intercalate _ (fun c hc => (p.clean c hc).2.2) h, List.filter_eq_self]
  exact fun c hc => decide_eq_true ⟨(p.clean c hc).1, (p.clean c hc).2.1⟩

/-- A path is read back from its key. -/
theorem segments_posix (p : PurePath) : segments p.posix = p.parts := by
  unfold posix
  split
  · rename_i h
    rw [h]
    rfl
  · exact segments_intercalate p ‹_›

/-- A relative path does not begin with a slash. -/
theorem head?_posix {p : PurePath} (h : p.parts ≠ []) : p.posix.head? ≠ some '/' := by
  obtain ⟨c, rest, hparts⟩ := List.exists_cons_of_ne_nil h
  obtain ⟨hc, -, hslash⟩ := p.clean c (hparts ▸ List.mem_cons_self)
  obtain ⟨x, xs, rfl⟩ := List.exists_cons_of_ne_nil hc
  have hx : x ≠ '/' := fun h => hslash (h ▸ List.mem_cons_self)
  have hhead : p.posix.head? = some x := by
    rw [posix, if_neg h, hparts]
    cases rest with
    | nil => simp
    | cons d ds => rfl
  rw [hhead]
  exact fun h => hx (Option.some.inj h)

theorem ofString_asPosix (p : PurePath) : ofString p.asPosix = p :=
  ext (by
    change segments (String.ofList p.posix).toList = p.parts
    rw [String.toList_ofList, segments_posix])

theorem asPosix_injective : Function.Injective asPosix := fun p q h => by
  rw [← ofString_asPosix p, h, ofString_asPosix]

theorem str_injective : Function.Injective str := fun p q h => by
  have hi : ['/'].intercalate p.parts = ['/'].intercalate q.parts := by
    have := congrArg String.toList h
    simpa [str] using this
  have hnil : ∀ r : PurePath, r.parts ≠ [] → ['/'].intercalate r.parts ≠ [] := fun r hr he =>
    hr (by rw [← segments_intercalate r hr, he]; rfl)
  by_cases hp : p.parts = []
  · by_cases hq : q.parts = []
    · exact ext (hp.trans hq.symm)
    · exact absurd (by rw [← hi, hp]; rfl) (hnil q hq)
  · by_cases hq : q.parts = []
    · exact absurd (by rw [hi, hq]; rfl) (hnil p hp)
    · exact ext (by rw [← segments_intercalate p hp, hi, segments_intercalate q hq])

theorem relativeTo_ok {path base rel : PurePath} (h : path.relativeTo base = .ok rel) :
    base.parts ++ rel.parts = path.parts := by
  unfold relativeTo at h
  split at h
  · obtain rfl := Except.ok.inj h
    exact List.prefix_append_drop ‹_› |>.symm
  · cases h

theorem relativeTo_of_isPrefix {path base : PurePath} (h : base.parts <+: path.parts) :
    ∃ rel, path.relativeTo base = .ok rel :=
  ⟨_, if_pos h⟩

theorem relativeTo_join (base rel : PurePath) : (base.join rel).relativeTo base = .ok rel := by
  have hpre : base.parts <+: (base.join rel).parts := List.prefix_append _ _
  obtain ⟨rel', h⟩ := relativeTo_of_isPrefix hpre
  have hparts : base.parts ++ rel'.parts = base.parts ++ rel.parts := relativeTo_ok h
  rw [h, ext (List.append_cancel_left hparts)]

end PurePath

/-! ## The key of a file -/

/-- The part `..`. -/
def parentPart : List Char := ['.', '.']

/-- What is read of the disk : `is_symlink()`, `resolve()` and `exists()`. -/
structure FileSystem where
  isSymlink : PurePath → Bool
  resolve : PurePath → PurePath
  onDisk : PurePath → Bool

namespace FileSystem

variable (fs : FileSystem)

/-- `resolve_path_for_relative`. -/
def resolvePathForRelative (path baseDir : PurePath) : PurePath × PurePath :=
  if fs.isSymlink path then (path, baseDir) else (fs.resolve path, fs.resolve baseDir)

/-- `get_relative_path_safe`. -/
def getRelativePathSafe (path baseDir : PurePath) : Except String PurePath :=
  let (pathToUse, baseToUse) := fs.resolvePathForRelative path baseDir
  let relativePath :=
    (pathToUse.relativeTo baseToUse).orElseLazy fun _ => path.relativeTo baseDir
  match relativePath with
  | .error e => .error e
  | .ok rel =>
    if parentPart ∈ rel.parts then
      .error ("Path " ++ path.str ++ " escapes base directory " ++ baseDir.str)
    else .ok rel

variable {fs} {path baseDir rel : PurePath}

/-- The key spells the way from the base to the path, or from the resolved base to the resolved
path. -/
theorem getRelativePathSafe_ok (h : fs.getRelativePathSafe path baseDir = .ok rel) :
    baseDir.parts ++ rel.parts = path.parts ∨
      (fs.resolve baseDir).parts ++ rel.parts = (fs.resolve path).parts := by
  have hrel : ((fs.resolvePathForRelative path baseDir).1.relativeTo
      (fs.resolvePathForRelative path baseDir).2).orElseLazy
        (fun _ => path.relativeTo baseDir) = .ok rel := by
    simp only [getRelativePathSafe] at h
    split at h
    · cases h
    · split at h
      · cases h
      · rename_i hr _
        exact hr.trans h
  have hrel : (fs.resolvePathForRelative path baseDir).1.relativeTo
      (fs.resolvePathForRelative path baseDir).2 = .ok rel ∨ path.relativeTo baseDir = .ok rel := by
    cases hto : (fs.resolvePathForRelative path baseDir).1.relativeTo
        (fs.resolvePathForRelative path baseDir).2 with
    | ok r => exact Or.inl (by simpa [hto, Except.orElseLazy] using hrel)
    | error e => exact Or.inr (by simpa [hto, Except.orElseLazy] using hrel)
  rcases hrel with hrel | hrel
  · unfold resolvePathForRelative at hrel
    split at hrel
    · exact Or.inl (PurePath.relativeTo_ok hrel)
    · exact Or.inr (PurePath.relativeTo_ok hrel)
  · exact Or.inl (PurePath.relativeTo_ok hrel)

/-- A link, and a resolved path under a resolved base, have the key they are spelled with. -/
theorem getRelativePathSafe_of_isPrefix (hpre : baseDir.parts <+: path.parts)
    (hno : parentPart ∉ path.parts) (hb : fs.resolve baseDir = baseDir)
    (hp : fs.isSymlink path = true ∨ fs.resolve path = path) :
    ∃ rel, fs.getRelativePathSafe path baseDir = .ok rel ∧
      baseDir.parts ++ rel.parts = path.parts := by
  obtain ⟨rel, hrel⟩ := PurePath.relativeTo_of_isPrefix hpre
  have hparts := PurePath.relativeTo_ok hrel
  have huse : fs.resolvePathForRelative path baseDir = (path, baseDir) := by
    rcases hp with hp | hp
    · simp [resolvePathForRelative, hp]
    · simp [resolvePathForRelative, hp, hb]
  have hno : parentPart ∉ rel.parts := fun hmem =>
    hno (hparts ▸ List.mem_append_right _ hmem)
  refine ⟨rel, ?_, hparts⟩
  simp [getRelativePathSafe, huse, hrel, hno, Except.orElseLazy]

end FileSystem

/-! ## Disks with one link -/

namespace FileSystem

/-- Where a walk goes on from a directory. `..` goes back, and the link goes to its target. -/
def followStep (link : Option (List (List Char) × PurePath)) (place : List (List Char))
    (c : List Char) : List (List Char) :=
  if c = parentPart then place.dropLast
  else
    match link with
    | some (name, target) => if place ++ [c] = name then target.parts else place ++ [c]
    | none => place ++ [c]

/-- Where a path leads. -/
def follow (link : Option (List (List Char) × PurePath)) (parts : List (List Char)) :
    List (List Char) :=
  parts.foldl (followStep link) []

variable {link : Option (List (List Char) × PurePath)}

theorem mem_followStep {place : List (List Char)}
    {c d : List Char} (h : c ∈ followStep link place d) :
    c ∈ place ++ [d] ∨ ∃ l ∈ link, c ∈ l.2.parts := by
  unfold followStep at h
  split at h
  · exact Or.inl (List.mem_append_left _ (List.mem_of_mem_dropLast h))
  · split at h
    · split at h
      · exact Or.inr ⟨_, rfl, h⟩
      · exact Or.inl h
    · exact Or.inl h

/-- The parts a walk ends with are parts of the path or of the target of the link. -/
theorem mem_follow {parts : List (List Char)}
    {c : List Char} (h : c ∈ follow link parts) : c ∈ parts ∨ ∃ l ∈ link, c ∈ l.2.parts := by
  unfold follow at h
  induction parts using List.reverseRecOn with
  | nil => exact absurd h List.not_mem_nil
  | append_singleton parts d ih =>
    rw [List.foldl_append, List.foldl_cons, List.foldl_nil] at h
    rcases mem_followStep h with h | h
    · rcases List.mem_append.1 h with h | h
      · exact (ih h).imp_left (List.mem_append_left _)
      · exact Or.inl (List.mem_append_right _ h)
    · exact Or.inr h

/-- A disk with these files, and one link or none. -/
def diskWith (link : Option (List (List Char) × PurePath)) (present : List PurePath) :
    FileSystem where
  isSymlink p :=
    match p.parts.getLast? with
    | none => false
    | some c => c ≠ parentPart && link.any fun l => follow link p.parts.dropLast ++ [c] = l.1
  resolve p :=
    ⟨follow link p.parts, fun c hc => (mem_follow hc).elim (p.clean c) fun ⟨l, _, hl⟩ =>
      l.2.clean c hl⟩
  onDisk p := p ∈ present

end FileSystem

end ChunkHound
