import ChunkHound.LanceFiles

/-!
# The three path normalizers

`get_relative_path_safe`, `normalize_path_for_lookup` and `normalize_realtime_path` of
`core/utils/path_utils.py`, for any spelling of a path. What they ask of the disk is a `FileSystem`,
and what `resolve()` and `is_symlink()` promise of each other are its laws (`Lawful`).

An absolute spelling has one key, or none. A relative one is left as it is by the lookup, "just
normalize slashes", while the realtime path is below the base and `get_relative_path_safe`, which
documents an absolute path, goes by the working directory. In each case the key leads from the base
to the file (`KeyOf.leads`), so that no two files share one.
-/

namespace ChunkHound

open PurePath

/-! ## Spellings -/

/-- `is_absolute()` of a path as it is spelled. -/
def isAbsolute (input : String) : Prop := input.toList.head? = some '/'

instance (input : String) : Decidable (isAbsolute input) :=
  inferInstanceAs (Decidable (_ = _))

/-- The path that is meant, where a relative one goes from a directory. -/
def named (dir : PurePath) (input : String) : PurePath :=
  if isAbsolute input then ofString input else dir.join (ofString input)

/-- The first part of a relative path begins with `~`. -/
def fromHome (input : String) : Prop :=
  ¬ isAbsolute input ∧ ∃ user rest, (ofString input).parts = ('~' :: user) :: rest

namespace FileSystem

variable (fs : FileSystem)

/-- `get_relative_path_safe`, of any path. A relative path is never relative to the base as it is
spelled. -/
def getRelativePathOf (cwd baseDir : PurePath) (input : String) : Except String PurePath :=
  if isAbsolute input then fs.getRelativePathSafe (ofString input) baseDir
  else
    let notBelow := "'" ++ (ofString input).asPosix ++ "' is not in the subpath of '" ++
      baseDir.str ++ "'"
    if fs.isSymlink (named cwd input) then .error notBelow
    else
      match (fs.resolve (named cwd input)).relativeTo (fs.resolve baseDir) with
      | .error _ => .error notBelow
      | .ok rel =>
        if parentPart ∈ rel.parts then
          .error ("Path " ++ (ofString input).asPosix ++ " escapes base directory " ++ baseDir.str)
        else .ok rel

/-- `Path(input_path).expanduser()`, and the directory from which a relative path goes then. -/
def expandUser (home : List Char → Option PurePath) (dir : PurePath) (input : String) :
    Except String PurePath :=
  if isAbsolute input then .ok (ofString input)
  else
    match h : (ofString input).parts with
    | ('~' :: user) :: rest =>
      match home user with
      | some userHome => .ok (userHome.join
          ⟨rest, fun c hc => (ofString input).clean c (h ▸ List.mem_cons_of_mem _ hc)⟩)
      | none => .error "Could not determine home directory."
    | _ => .ok (dir.join (ofString input))

/-- `normalize_realtime_path`. -/
def normalizeRealtimePath (home : List Char → Option PurePath) (cwd : PurePath)
    (baseDir : Option PurePath) (input : String) : Except String PurePath := do
  match baseDir with
  | none => return fs.resolve (← expandUser home cwd input)
  | some logicalBase =>
    let path ← expandUser home logicalBase input
    match fs.getRelativePathSafe path logicalBase with
    | .ok relativePath => return logicalBase.join relativePath
    | .error _ => return fs.resolve path

/-- The key of the realtime path. -/
def realtimeKey (home : List Char → Option PurePath) (cwd baseDir : PurePath) (input : String) :
    Except String PurePath := do
  fs.getRelativePathSafe (← fs.normalizeRealtimePath home cwd (some baseDir) input) baseDir

/-- What `resolve()` and `is_symlink()` promise of a base directory that exists, on a disk where no
links go in a circle : a path goes on from where its beginning leads, what is below the base is a
link or not however the base is spelled, and what is resolved is no link and has no `..`. -/
structure Lawful (baseDir : PurePath) : Prop where
  resolve_join : ∀ p q, fs.resolve ((fs.resolve p).join q) = fs.resolve (p.join q)
  isSymlink_join : ∀ q : PurePath, q.parts ≠ [] → parentPart ∉ q.parts →
    fs.isSymlink ((fs.resolve baseDir).join q) = fs.isSymlink (baseDir.join q)
  isSymlink_resolve : ∀ p, fs.isSymlink (fs.resolve p) = false
  resolve_parts : ∀ p, parentPart ∉ (fs.resolve p).parts

/-! ## Keys of absolute paths -/

section Keys

variable {fs} {path baseDir rel : PurePath}

theorem Lawful.resolve_resolve (hfs : fs.Lawful baseDir) (p : PurePath) :
    fs.resolve (fs.resolve p) = fs.resolve p := by
  have hjoin : ∀ q : PurePath, q.join ⟨[], List.forall_mem_nil _⟩ = q := fun q =>
    ext (List.append_nil q.parts)
  have h := hfs.resolve_join p ⟨[], List.forall_mem_nil _⟩
  rwa [hjoin, hjoin] at h

theorem parentPart_notMem (h : fs.getRelativePathSafe path baseDir = .ok rel) :
    parentPart ∉ rel.parts := by
  simp only [getRelativePathSafe] at h
  split at h
  · cases h
  · split at h
    · cases h
    · rename_i hno
      rwa [← Except.ok.inj h]

/-- From the base the key leads to where the path leads. -/
theorem Lawful.leads (hfs : fs.Lawful baseDir) (h : fs.getRelativePathSafe path baseDir = .ok rel) :
    fs.resolve (baseDir.join rel) = fs.resolve path := by
  rcases getRelativePathSafe_ok h with hparts | hparts
  · rw [show baseDir.join rel = path from ext hparts]
  · have hresolved : (fs.resolve baseDir).join rel = fs.resolve path := ext hparts
    rw [← hfs.resolve_join, hresolved, hfs.resolve_resolve]

/-- A path that is no link and leads below the base has the key of where it leads. -/
theorem getRelativePathSafe_of_resolved (hlink : fs.isSymlink path = false)
    (hparts : (fs.resolve baseDir).parts ++ rel.parts = (fs.resolve path).parts)
    (hno : parentPart ∉ rel.parts) : fs.getRelativePathSafe path baseDir = .ok rel := by
  have hjoin : (fs.resolve baseDir).join rel = fs.resolve path := ext hparts
  have hrel : (fs.resolve path).relativeTo (fs.resolve baseDir) = .ok rel :=
    hjoin ▸ relativeTo_join (fs.resolve baseDir) rel
  simp [getRelativePathSafe, resolvePathForRelative, hlink, hrel, hno, Except.orElseLazy]

/-- A link has the key that it is spelled with. -/
theorem getRelativePathSafe_of_link (hlink : fs.isSymlink path = true)
    (hparts : baseDir.parts ++ rel.parts = path.parts) (hno : parentPart ∉ rel.parts) :
    fs.getRelativePathSafe path baseDir = .ok rel := by
  have hrel : path.relativeTo baseDir = .ok rel :=
    (show baseDir.join rel = path from ext hparts) ▸ relativeTo_join baseDir rel
  simp [getRelativePathSafe, resolvePathForRelative, hlink, hrel, hno, Except.orElseLazy]

/-- The path of a key below the base has this key again. -/
theorem Lawful.key_of_join (hfs : fs.Lawful baseDir)
    (h : fs.getRelativePathSafe path baseDir = .ok rel) (hne : rel.parts ≠ []) :
    fs.getRelativePathSafe (baseDir.join rel) baseDir = .ok rel := by
  rcases getRelativePathSafe_ok h with hparts | hparts
  · rwa [show baseDir.join rel = path from ext hparts]
  · have hresolved : (fs.resolve baseDir).join rel = fs.resolve path := ext hparts
    refine getRelativePathSafe_of_resolved ?_ ?_ (parentPart_notMem h)
    · rw [← hfs.isSymlink_join rel hne (parentPart_notMem h), hresolved, hfs.isSymlink_resolve]
    · rw [hfs.leads h]
      exact hparts

end Keys

/-! ## Keys of spellings -/

section Spellings

variable {fs} {home : List Char → Option PurePath} {cwd baseDir rel : PurePath} {input : String}

theorem named_of_isAbsolute {dir : PurePath} (h : isAbsolute input) :
    named dir input = ofString input :=
  if_pos h

/-- Only a relative path from `~` is not taken from the directory. -/
theorem expandUser_eq {dir : PurePath} (h : ¬ fromHome input) :
    expandUser home dir input = .ok (named dir input) := by
  unfold expandUser named
  split
  · rfl
  · rename_i hrelative
    split
    · rename_i user rest hparts
      exact absurd ⟨hrelative, user, rest, hparts⟩ h
    · rfl

theorem normalizePathForLookup_of_isAbsolute (h : isAbsolute input) :
    (∀ rel, fs.getRelativePathSafe (ofString input) baseDir = .ok rel →
        fs.normalizePathForLookup (some baseDir) input = .ok rel.asPosix) ∧
      ∀ key, fs.normalizePathForLookup (some baseDir) input = .ok key →
        ∃ rel, fs.getRelativePathSafe (ofString input) baseDir = .ok rel ∧ key = rel.asPosix := by
  have hhead : ¬ input.toList.head? ≠ some '/' := not_not.2 h
  unfold normalizePathForLookup
  simp only [if_neg hhead]
  cases hrel : fs.getRelativePathSafe (ofString input) baseDir with
  | error e => exact ⟨fun rel hok => (by cases hok), fun key hok => (by cases hok)⟩
  | ok rel => exact ⟨fun rel' hok => by rw [Except.ok.inj hok], fun key hok =>
      ⟨rel, rfl, (Except.ok.inj hok).symm⟩⟩

/-- A relative spelling stays as it is. -/
theorem normalizePathForLookup_of_not (h : ¬ isAbsolute input) :
    fs.normalizePathForLookup (some baseDir) input = .ok (ofString input).asPosix :=
  if_pos h

theorem normalizeRealtimePath_eq (h : ¬ fromHome input) :
    fs.normalizeRealtimePath home cwd (some baseDir) input =
      match fs.getRelativePathSafe (named baseDir input) baseDir with
      | .ok relativePath => .ok (baseDir.join relativePath)
      | .error _ => .ok (fs.resolve (named baseDir input)) := by
  unfold normalizeRealtimePath
  dsimp only
  rw [expandUser_eq h]
  cases hkey : fs.getRelativePathSafe (named baseDir input) baseDir with
  | error e => simp only [bind, Except.bind, hkey, pure, Except.pure]
  | ok rel => simp only [bind, Except.bind, hkey, pure, Except.pure]

/-- The realtime path leads where the path leads. -/
theorem Lawful.realtime_leads (hfs : fs.Lawful baseDir) (h : ¬ fromHome input) {path : PurePath}
    (hpath : fs.normalizeRealtimePath home cwd (some baseDir) input = .ok path) :
    fs.resolve path = fs.resolve (named baseDir input) := by
  rw [normalizeRealtimePath_eq h] at hpath
  split at hpath
  · rename_i rel hrel
    rw [← Except.ok.inj hpath, hfs.leads hrel]
  · rw [← Except.ok.inj hpath, hfs.resolve_resolve]

/-- Where a path has a key, this is the key of its realtime path. -/
theorem Lawful.realtimeKey_eq (hfs : fs.Lawful baseDir) (h : ¬ fromHome input)
    (hrel : fs.getRelativePathSafe (named baseDir input) baseDir = .ok rel)
    (hne : rel.parts ≠ []) : fs.realtimeKey home cwd baseDir input = .ok rel := by
  unfold realtimeKey
  rw [normalizeRealtimePath_eq h, hrel]
  exact hfs.key_of_join hrel hne

theorem Lawful.getRelativePathOf_leads (hfs : fs.Lawful baseDir)
    (h : fs.getRelativePathOf cwd baseDir input = .ok rel) :
    fs.resolve (baseDir.join rel) = fs.resolve (named cwd input) := by
  unfold getRelativePathOf at h
  split at h
  · rename_i habsolute
    rw [named_of_isAbsolute habsolute]
    exact hfs.leads h
  · dsimp only at h
    split at h
    · cases h
    · split at h
      · cases h
      · rename_i rel' hrel
        split at h
        · cases h
        · obtain rfl := Except.ok.inj h
          have hjoin : (fs.resolve baseDir).join rel' = fs.resolve (named cwd input) :=
            ext (relativeTo_ok hrel)
          rw [← hfs.resolve_join, hjoin, hfs.resolve_resolve]

end Spellings

end FileSystem

/-! ## The three keys -/

/-- A key that one of the functions gives for a spelling, and the file that this function means. -/
inductive KeyOf (fs : FileSystem) (home : List Char → Option PurePath) (cwd baseDir : PurePath)
    (input : String) : PurePath → PurePath → Prop
  | relative {key : PurePath} : fs.getRelativePathOf cwd baseDir input = .ok key →
    KeyOf fs home cwd baseDir input (fs.resolve (named cwd input)) key
  | lookup {key : PurePath} : fs.normalizePathForLookup (some baseDir) input = .ok key.asPosix →
    KeyOf fs home cwd baseDir input (fs.resolve (named baseDir input)) key
  | realtime {key : PurePath} : ¬ fromHome input →
    fs.realtimeKey home cwd baseDir input = .ok key →
    KeyOf fs home cwd baseDir input (fs.resolve (named baseDir input)) key

theorem KeyOf.leads {fs : FileSystem} {home : List Char → Option PurePath}
    {cwd baseDir file key : PurePath} {input : String} (hfs : fs.Lawful baseDir)
    (h : KeyOf fs home cwd baseDir input file key) : fs.resolve (baseDir.join key) = file := by
  cases h with
  | relative hkey => exact hfs.getRelativePathOf_leads hkey
  | lookup hkey =>
    by_cases habsolute : isAbsolute input
    · obtain ⟨rel, hrel, heq⟩ :=
        (FileSystem.normalizePathForLookup_of_isAbsolute habsolute).2 _ hkey
      rw [asPosix_injective heq, FileSystem.named_of_isAbsolute habsolute]
      exact hfs.leads hrel
    · rw [FileSystem.normalizePathForLookup_of_not habsolute] at hkey
      rw [← asPosix_injective (Except.ok.inj hkey), named, if_neg habsolute]
  | realtime hhome hkey =>
    obtain ⟨path, hpath, hrel⟩ : ∃ path, fs.normalizeRealtimePath home cwd (some baseDir) input =
        .ok path ∧ fs.getRelativePathSafe path baseDir = .ok key := by
      unfold FileSystem.realtimeKey at hkey
      cases hpath : fs.normalizeRealtimePath home cwd (some baseDir) input with
      | error e =>
        rw [hpath] at hkey
        cases hkey
      | ok path =>
        rw [hpath] at hkey
        exact ⟨path, rfl, hkey⟩
    rw [hfs.leads hrel, hfs.realtime_leads hhome hpath]

section Agreement

variable {fs : FileSystem} {home : List Char → Option PurePath} {cwd baseDir rel : PurePath}
  {input : String}

theorem isAbsolute_str (p : PurePath) : isAbsolute p.str := by
  unfold isAbsolute PurePath.str
  rw [String.toList_ofList]
  rfl

/-- An absolute path is read back from its spelling. -/
theorem ofString_str (p : PurePath) : ofString p.str = p := by
  refine ext ?_
  change segments p.str.toList = p.parts
  have hslash : segments (['/'].intercalate p.parts) = p.parts := by
    by_cases hnil : p.parts = []
    · rw [hnil]
      rfl
    · exact segments_intercalate p hnil
  unfold PurePath.str
  rw [String.toList_ofList, ← List.nil_append ('/' :: _), segments_append, hslash]
  rfl

theorem not_fromHome_of_isAbsolute (h : isAbsolute input) : ¬ fromHome input := fun hhome =>
  hhome.1 h

/-- What is no link and leads below the base has the key of where it leads, from the working
directory if it is relative. -/
theorem FileSystem.Lawful.getRelativePathOf_eq (hfs : fs.Lawful baseDir)
    (hlink : fs.isSymlink (named cwd input) = false)
    (hparts : (fs.resolve baseDir).parts ++ rel.parts = (fs.resolve (named cwd input)).parts) :
    fs.getRelativePathOf cwd baseDir input = .ok rel := by
  have hno : parentPart ∉ rel.parts := fun hmem =>
    hfs.resolve_parts (named cwd input) (hparts ▸ List.mem_append_right _ hmem)
  unfold FileSystem.getRelativePathOf
  split
  · rename_i habsolute
    rw [FileSystem.named_of_isAbsolute habsolute] at hlink hparts
    exact FileSystem.getRelativePathSafe_of_resolved hlink hparts hno
  · have hjoin : (fs.resolve baseDir).join rel = fs.resolve (named cwd input) := ext hparts
    have hrel : (fs.resolve (named cwd input)).relativeTo (fs.resolve baseDir) = .ok rel :=
      hjoin ▸ relativeTo_join (fs.resolve baseDir) rel
    simp [hlink, hrel, hno]

/-- An absolute spelling has the same key from all three functions, or the lookup refuses it too and
the realtime path is where it leads. It has a key if it is no link and leads below the base, or is
a link spelled below the base without `..`. A relative spelling stays as it is in the lookup, and
its realtime path is that of the same spelling below the base. No key is of two files. -/
theorem path_keys_agree {baseDir : PurePath} (hfs : fs.Lawful baseDir)
    (home : List Char → Option PurePath) (cwd : PurePath) (input : String) :
    (isAbsolute input → ∀ rel : PurePath, rel.parts ≠ [] →
        fs.getRelativePathOf cwd baseDir input = .ok rel →
          fs.normalizePathForLookup (some baseDir) input = .ok rel.asPosix ∧
            fs.realtimeKey home cwd baseDir input = .ok rel) ∧
      (isAbsolute input → (∀ rel, fs.getRelativePathOf cwd baseDir input ≠ .ok rel) →
        (∀ key, fs.normalizePathForLookup (some baseDir) input ≠ .ok key) ∧
          fs.normalizeRealtimePath home cwd (some baseDir) input =
            .ok (fs.resolve (ofString input))) ∧
      (∀ rel : PurePath, fs.isSymlink (named cwd input) = false →
        (fs.resolve baseDir).parts ++ rel.parts = (fs.resolve (named cwd input)).parts →
          fs.getRelativePathOf cwd baseDir input = .ok rel) ∧
      (isAbsolute input → ∀ rel : PurePath, fs.isSymlink (ofString input) = true →
        baseDir.parts ++ rel.parts = (ofString input).parts → parentPart ∉ rel.parts →
          fs.getRelativePathOf cwd baseDir input = .ok rel) ∧
      (¬ isAbsolute input →
        fs.normalizePathForLookup (some baseDir) input = .ok (ofString input).asPosix ∧
          (¬ fromHome input → fs.normalizeRealtimePath home cwd (some baseDir) input =
            fs.normalizeRealtimePath home cwd (some baseDir)
              (baseDir.join (ofString input)).str)) ∧
      ∀ input' file file' key, KeyOf fs home cwd baseDir input file key →
        KeyOf fs home cwd baseDir input' file' key → file = file' := by
  have hof : isAbsolute input → fs.getRelativePathOf cwd baseDir input =
      fs.getRelativePathSafe (ofString input) baseDir := fun h => if_pos h
  refine ⟨fun h rel hne hrel => ?_, fun h hnone => ?_,
    fun rel hlink hparts => hfs.getRelativePathOf_eq hlink hparts,
    fun h rel hlink hparts hno => ?_, fun h => ⟨FileSystem.normalizePathForLookup_of_not h,
      fun hhome => ?_⟩, fun input' file file' key hkey hkey' => ?_⟩
  · rw [hof h] at hrel
    refine ⟨(FileSystem.normalizePathForLookup_of_isAbsolute h).1 rel hrel,
      hfs.realtimeKey_eq (not_fromHome_of_isAbsolute h) ?_ hne⟩
    rwa [FileSystem.named_of_isAbsolute h]
  · rw [hof h] at hnone
    refine ⟨fun key hkey => ?_, ?_⟩
    · obtain ⟨rel, hrel, -⟩ := (FileSystem.normalizePathForLookup_of_isAbsolute h).2 key hkey
      exact hnone rel hrel
    · rw [FileSystem.normalizeRealtimePath_eq (not_fromHome_of_isAbsolute h),
        FileSystem.named_of_isAbsolute h]
      split
      · rename_i rel hrel
        exact absurd hrel (hnone rel)
      · rfl
  · rw [hof h]
    exact FileSystem.getRelativePathSafe_of_link hlink hparts hno
  · have habsolute := isAbsolute_str (baseDir.join (ofString input))
    rw [FileSystem.normalizeRealtimePath_eq hhome,
      FileSystem.normalizeRealtimePath_eq (not_fromHome_of_isAbsolute habsolute),
      FileSystem.named_of_isAbsolute habsolute, ofString_str, named, if_neg h]
  · exact (hkey.leads hfs).symm.trans (hkey'.leads hfs)

/-! ## Disks with one link -/

open FileSystem (follow followStep)

/-- No link is on the way to a place. -/
structure Straight (link : Option (List (List Char) × PurePath)) (place : List (List Char)) :
    Prop where
  noParent : parentPart ∉ place
  noLink : ∀ l ∈ link, ¬l.1 <+: place

variable {link : Option (List (List Char) × PurePath)}

variable {place : List (List Char)}

theorem Straight.step
    (htarget : ∀ l ∈ link, Straight link l.2.parts) (h : Straight link place) (c : List Char) :
    Straight link (followStep link place c) := by
  unfold followStep
  split
  · exact ⟨fun hmem => h.noParent (List.mem_of_mem_dropLast hmem),
      fun l hl hpre => h.noLink l hl (hpre.trans (List.dropLast_prefix place))⟩
  · rename_i hc
    have hparent : parentPart ∉ place ++ [c] := by
      rw [List.mem_append, List.mem_singleton, not_or]
      exact ⟨h.noParent, fun heq => hc heq.symm⟩
    split
    · rename_i name target
      split
      · exact htarget _ rfl
      · rename_i hne
        refine ⟨hparent, fun l hl hpre => ?_⟩
        obtain rfl := Option.some.inj hl
        rcases List.prefix_concat_iff.1 hpre with heq | hpre
        · exact hne heq.symm
        · exact h.noLink _ rfl hpre
    · exact ⟨hparent, fun l hl => nomatch hl⟩

theorem straight_follow
    (hname : ∀ l ∈ link, l.1 ≠ []) (htarget : ∀ l ∈ link, Straight link l.2.parts)
    (parts : List (List Char)) : Straight link (follow link parts) := by
  unfold follow
  induction parts using List.reverseRecOn with
  | nil => exact ⟨List.not_mem_nil, fun l hl hpre => hname l hl (List.prefix_nil.1 hpre)⟩
  | append_singleton parts c ih =>
    rw [List.foldl_append, List.foldl_cons, List.foldl_nil]
    exact ih.step htarget c

/-- A straight way leads where it says. -/
theorem Straight.follow_eq (h : Straight link place) : follow link place = place := by
  unfold follow
  induction place using List.reverseRecOn with
  | nil => rfl
  | append_singleton place c ih =>
    have hc : c ≠ parentPart := fun heq =>
      h.noParent (heq ▸ List.mem_append_right _ (List.mem_singleton_self c))
    rw [List.foldl_append, List.foldl_cons, List.foldl_nil,
      ih ⟨fun hmem => h.noParent (List.mem_append_left _ hmem),
        fun l hl hpre => h.noLink l hl (hpre.trans (List.prefix_append _ _))⟩]
    unfold followStep
    rw [if_neg hc]
    split
    · rename_i name target
      exact if_neg fun heq : place ++ [c] = name => h.noLink _ rfl (heq ▸ List.prefix_refl _)
    · rfl

theorem follow_append (link : Option (List (List Char) × PurePath)) (p q : List (List Char)) :
    follow link (p ++ q) = q.foldl (followStep link) (follow link p) :=
  List.foldl_append

/-- A disk with one link whose target is no link keeps the laws. -/
theorem diskWith_lawful (present : List PurePath)
    (hname : ∀ l ∈ link, l.1 ≠ []) (htarget : ∀ l ∈ link, Straight link l.2.parts)
    (baseDir : PurePath) : (FileSystem.diskWith link present).Lawful baseDir := by
  have hself : ∀ p, follow link (follow link p) = follow link p := fun p =>
    (straight_follow hname htarget p).follow_eq
  have happend : ∀ p q, follow link (follow link p ++ q) = follow link (p ++ q) := fun p q => by
    rw [follow_append, hself, ← follow_append]
  refine ⟨fun p q => ext (happend p.parts q.parts), fun q hne _ => ?_, fun p => ?_,
    fun p => (straight_follow hname htarget p.parts).noParent⟩
  · obtain ⟨init, c, hq⟩ := (List.eq_nil_or_concat q.parts).resolve_left hne
    have hparts : ∀ base : PurePath, (base.join q).parts = base.parts ++ init ++ [c] := by
      intro base
      rw [List.append_assoc, ← List.concat_eq_append, ← hq]
      rfl
    simp only [FileSystem.diskWith, hparts, List.getLast?_concat, List.dropLast_concat, happend]
  · have hstraight := straight_follow hname htarget p.parts
    have hnone : ∀ c init, follow link p.parts = init ++ [c] →
        (link.any fun l => follow link init ++ [c] = l.1) = false := by
      intro c init hinit
      rw [hinit] at hstraight
      have hfront : Straight link init :=
        ⟨fun hmem => hstraight.noParent (List.mem_append_left _ hmem),
          fun l hl hpre => hstraight.noLink l hl (hpre.trans (List.prefix_append _ _))⟩
      rw [hfront.follow_eq]
      cases link with
      | none => rfl
      | some l =>
        exact decide_eq_false fun heq : init ++ [c] = l.1 =>
          hstraight.noLink l rfl (heq ▸ List.prefix_refl _)
    simp only [FileSystem.diskWith]
    split
    · rfl
    · rename_i c hlast
      obtain ⟨init, hinit⟩ := List.getLast?_eq_some_iff.1 hlast
      have hfront : (follow link p.parts).dropLast = init := by
        rw [hinit, List.dropLast_concat]
      rw [hfront, hnone c init hinit, Bool.and_false]

/-- The directory `/b/l` is a link to `/b/a`. -/
def linkedDisk : FileSystem :=
  .diskWith (some ((ofString "/b/l").parts, ofString "/b/a")) [ofString "/b/a/f.py"]

theorem linkedDisk_lawful (baseDir : PurePath) : linkedDisk.Lawful baseDir := by
  refine diskWith_lawful _ ?_ ?_ baseDir
  · rintro l ⟨⟩
    decide
  · rintro l ⟨⟩
    refine ⟨by decide, ?_⟩
    rintro l ⟨⟩
    decide

/-- A file below a link and its other spellings have one key. -/
theorem path_keys_agree_linked :
    linkedDisk.isSymlink (ofString "/b/l") = true ∧
      linkedDisk.normalizePathForLookup (some (ofString "/b")) "/b/l/../l/f.py" =
        .ok (ofString "a/f.py").asPosix ∧
      linkedDisk.realtimeKey (fun _ => none) (ofString "/b") (ofString "/b") "/b/l/../l/f.py" =
        .ok (ofString "a/f.py") :=
  ⟨by decide, (path_keys_agree (linkedDisk_lawful (ofString "/b")) (fun _ => none)
    (ofString "/b") "/b/l/../l/f.py").1 (by decide) (ofString "a/f.py") (by decide) (by decide)⟩

/-- The lookup keeps the `..` of a relative spelling. -/
theorem relative_spelling_differs : ¬ ∀ (fs : FileSystem) (home : List Char → Option PurePath)
    (baseDir : PurePath) (input : String), fs.Lawful baseDir → ¬ fromHome input →
      (fs.resolve baseDir).parts <+: (fs.resolve (named baseDir input)).parts →
        ∃ key, fs.getRelativePathOf baseDir baseDir input = .ok key ∧
          fs.normalizePathForLookup (some baseDir) input = .ok key.asPosix ∧
          fs.realtimeKey home baseDir baseDir input = .ok key := by
  intro h
  have hhome : ¬ fromHome "a/../f.py" := by
    rintro ⟨-, user, rest, hparts⟩
    have hfirst : (ofString "a/../f.py").parts.head? = some ['a'] := by decide
    rw [hparts] at hfirst
    cases hfirst
  obtain ⟨key, hrel, hlookup, -⟩ := h linkedDisk (fun _ => none) (ofString "/b") "a/../f.py"
    (linkedDisk_lawful _) hhome (by decide)
  have hkey : ofString "f.py" = key := Except.ok.inj hrel
  rw [← hkey] at hlookup
  exact absurd hlookup (by decide)

end Agreement

end ChunkHound
