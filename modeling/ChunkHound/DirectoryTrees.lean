import ChunkHound.RelativePaths

/-!
# Walking a directory tree

A walk goes through a directory tree, enters some directories and takes some files. What it finds
are the files it takes whose directories it all enters (`mem_walk`), in whatever order it goes.
-/

namespace ChunkHound

/-! ## Trees -/

/-- The name of a file or a directory. -/
abbrev Name := { name : List Char // name ≠ [] ∧ name ≠ ['.'] ∧ '/' ∉ name }

/-- `path / name`. -/
def child (path : PurePath) (name : Name) : PurePath where
  parts := path.parts ++ [name.1]
  clean c hc := (List.mem_append.1 hc).elim (path.clean c) fun h =>
    List.mem_singleton.1 h ▸ name.2

/-- `path.parent`. -/
def parentDir (path : PurePath) : PurePath where
  parts := path.parts.dropLast
  clean c hc := path.clean c (List.mem_of_mem_dropLast hc)

/-- What a directory holds. A file that is not regular is a link to one, a pipe or a device; links
to directories are left out, since no walk follows them. -/
inductive Entries
  | nil
  | file (name : Name) (regular : Bool) (rest : Entries)
  | dir (name : Name) (below rest : Entries)

namespace Entries

/-- The directory behind a path. -/
def find : Entries → List (List Char) → Option Entries
  | e, [] => some e
  | .nil, _ :: _ => none
  | .file _ _ rest, c :: path => rest.find (c :: path)
  | .dir name below rest, c :: path =>
    if name.1 = c then below.find path else rest.find (c :: path)

/-! ## Walks -/

section Walk

variable (enter : PurePath → Bool) (keep : PurePath → Bool → Bool)

/-- The files of a directory. -/
def walkFiles (path : PurePath) : Entries → List PurePath
  | .nil => []
  | .file name regular rest =>
    if keep (child path name) regular then child path name :: rest.walkFiles path
    else rest.walkFiles path
  | .dir _ _ rest => rest.walkFiles path

/-- The directories of a directory, each one with its files first. -/
def walkDirs (path : PurePath) : Entries → List PurePath
  | .nil => []
  | .file _ _ rest => rest.walkDirs path
  | .dir name below rest =>
    (if enter (child path name) then
      below.walkFiles keep (child path name) ++ below.walkDirs (child path name)
    else []) ++ rest.walkDirs path

def walk (path : PurePath) (e : Entries) : List PurePath :=
  e.walkFiles keep path ++ e.walkDirs enter keep path

end Walk

/-- A file of the tree, and whether it is regular. -/
def Holds (path : PurePath) : Entries → PurePath → Bool → Prop
  | .nil, _, _ => False
  | .file name regular rest, p, r => (p = child path name ∧ r = regular) ∨ rest.Holds path p r
  | .dir name below rest, p, r => below.Holds (child path name) p r ∨ rest.Holds path p r

/-- A directory on the way to a file. -/
structure Between (path d p : PurePath) : Prop where
  below : path.parts <+: d.parts
  ne : d ≠ path
  above : d.parts <+: p.parts
  directory : d ≠ p

/-- A file of the tree that is kept, and all directories on the way are entered. -/
def Reaches (enter : PurePath → Bool) (keep : PurePath → Bool → Bool) (path : PurePath)
    (e : Entries) (p : PurePath) : Prop :=
  ∃ r, e.Holds path p r ∧ keep p r = true ∧ ∀ d, Between path d p → enter d = true

/-! ## What a walk finds -/

section Found

variable {enter : PurePath → Bool} {keep : PurePath → Bool → Bool}

theorem length_child (path : PurePath) (name : Name) :
    (child path name).parts.length = path.parts.length + 1 :=
  List.length_append

/-- A file lies below its directory. -/
theorem prefix_of_holds : ∀ {e : Entries} {path p : PurePath} {r : Bool}, e.Holds path p r →
    path.parts <+: p.parts ∧ p ≠ path
  | .file name regular rest, path, p, r, h => by
    rcases h with ⟨rfl, -⟩ | h
    · refine ⟨List.prefix_append _ _, fun heq => ?_⟩
      have hlen := length_child path name
      rw [heq] at hlen
      omega
    · exact prefix_of_holds h
  | .dir name below rest, path, p, r, h => by
    rcases h with h | h
    · obtain ⟨hpre, -⟩ := prefix_of_holds h
      refine ⟨(List.prefix_append _ _).trans hpre, ?_⟩
      rintro rfl
      have hlen := hpre.length_le
      rw [length_child] at hlen
      omega
    · exact prefix_of_holds h

/-- No directory lies between a directory and its own files. -/
theorem not_between_child {path d : PurePath} {name : Name} :
    ¬ Between path d (child path name) := by
  intro h
  have habove := h.above.length_le
  have hbelow := h.below.length_le
  rw [length_child] at habove
  by_cases hlen : d.parts.length = path.parts.length
  · exact h.ne (PurePath.ext (h.below.eq_of_length hlen.symm).symm)
  · refine h.directory (PurePath.ext (h.above.eq_of_length ?_))
    rw [length_child]
    omega

/-- What lies between a directory and a file below one of its directories. -/
theorem between_iff {path d p : PurePath} {name : Name}
    (hpre : (child path name).parts <+: p.parts) (hne : p ≠ child path name) :
    Between path d p ↔ d = child path name ∨ Between (child path name) d p := by
  constructor
  · intro h
    by_cases hd : d = child path name
    · exact Or.inl hd
    · refine Or.inr ⟨?_, hd, h.above, h.directory⟩
      -- both are prefixes of the path, and the directory is not the shorter one
      refine List.prefix_of_prefix_length_le hpre h.above ?_
      have hlen := h.below.length_le
      rw [length_child]
      by_contra hlt
      have heq : path.parts.length = d.parts.length := by omega
      exact h.ne (PurePath.ext (h.below.eq_of_length heq).symm)
  · rintro (rfl | h)
    · refine ⟨List.prefix_append _ _, fun heq => ?_, hpre, hne.symm⟩
      have hlen := length_child path name
      rw [heq] at hlen
      omega
    · refine ⟨(List.prefix_append _ _).trans h.below, ?_, h.above, h.directory⟩
      rintro rfl
      have hlen := h.below.length_le
      rw [length_child] at hlen
      omega

/-- A walk finds the kept files whose directories it enters. -/
theorem mem_walk : ∀ {e : Entries} {path p : PurePath},
    p ∈ e.walk enter keep path ↔ e.Reaches enter keep path p
  | .nil, path, p => by
    simp [walk, walkFiles, walkDirs, Reaches, Holds]
  | .file name regular rest, path, p => by
    have hstep : p ∈ (file name regular rest).walk enter keep path ↔
        (p = child path name ∧ keep p regular = true) ∨ p ∈ rest.walk enter keep path := by
      simp only [walk, walkFiles, walkDirs, List.mem_append]
      split
      · rename_i hkeep
        rw [List.mem_cons, or_assoc]
        exact or_congr_left ⟨fun hp => ⟨hp, hp ▸ hkeep⟩, And.left⟩
      · rename_i hkeep
        refine (or_iff_right ?_).symm
        rintro ⟨rfl, hp⟩
        exact hkeep hp
    rw [hstep, mem_walk]
    constructor
    · rintro (⟨rfl, hkeep⟩ | ⟨r, hholds, hkeep, henter⟩)
      · exact ⟨regular, Or.inl ⟨rfl, rfl⟩, hkeep, fun d hd => absurd hd not_between_child⟩
      · exact ⟨r, Or.inr hholds, hkeep, henter⟩
    · rintro ⟨r, ⟨rfl, rfl⟩ | hholds, hkeep, henter⟩
      · exact Or.inl ⟨rfl, hkeep⟩
      · exact Or.inr ⟨r, hholds, hkeep, henter⟩
  | .dir name below rest, path, p => by
    have hstep : p ∈ (dir name below rest).walk enter keep path ↔
        (enter (child path name) = true ∧ p ∈ below.walk enter keep (child path name)) ∨
          p ∈ rest.walk enter keep path := by
      simp only [walk, walkFiles, walkDirs, List.mem_append]
      split
      · rename_i henter
        simp only [List.mem_append, henter, true_and]
        tauto
      · rename_i henter
        simp [henter]
    rw [hstep, mem_walk, mem_walk]
    constructor
    · rintro (⟨hname, r, hholds, hkeep, henter⟩ | ⟨r, hholds, hkeep, henter⟩)
      · obtain ⟨hpre, hne⟩ := prefix_of_holds hholds
        refine ⟨r, Or.inl hholds, hkeep, fun d hd => ?_⟩
        rcases (between_iff hpre hne).1 hd with rfl | hd
        · exact hname
        · exact henter d hd
      · exact ⟨r, Or.inr hholds, hkeep, henter⟩
    · rintro ⟨r, hholds | hholds, hkeep, henter⟩
      · obtain ⟨hpre, hne⟩ := prefix_of_holds hholds
        refine Or.inl ⟨henter _ ((between_iff hpre hne).2 (Or.inl rfl)), r, hholds, hkeep, ?_⟩
        exact fun d hd => henter d ((between_iff hpre hne).2 (Or.inr hd))
      · exact Or.inr ⟨r, hholds, hkeep, henter⟩

end Found

end Entries

end ChunkHound
