import ChunkHound.LastMatch
import Mathlib.Data.List.Infix

/-!
# Git's ignore patterns

How git reads a line of a `.gitignore` file, what the pattern matches, and git's rule : a path
is ignored when it, or a directory it lies in, is excluded by the last line that matches it,
the lines of deeper files coming later. `PathSpec` reads a line and matches it the same way,
but asks all lines at once whether they match the path or a directory it lies in.

A path is the list of its components. What one component of a pattern matches is a parameter
`glob`, but for `**`.
-/

namespace ChunkHound.Ignore

open LastMatch

abbrev Segment := List Char

/-- The component `**`. -/
def stars : Segment := ['*', '*']

/-- Spaces at the end of a line are dropped unless escaped. -/
def trimTrailing : List Char → List Char
  | [] => []
  | ['\\'] => ['\\']
  | '\\' :: c :: cs => '\\' :: c :: trimTrailing cs
  | ' ' :: cs =>
    match trimTrailing cs with
    | [] => []
    | d :: ds => ' ' :: d :: ds
  | c :: cs => c :: trimTrailing cs

/-- A line without the `!` in front and the `/` behind, and whether they were there. -/
def splitMarks (line : List Char) : Bool × Bool × List Char :=
  let negated := line.head? = some '!'
  let line := if negated then line.tail else line
  let dirOnly := line.getLast? = some '/'
  (negated, dirOnly, if dirOnly then line.dropLast else line)

structure Pattern where
  negated : Bool
  dirOnly : Bool
  segments : List Segment
  deriving DecidableEq

/-- The components of a pattern that has a `/` : one in front only anchors it. -/
def components (core : List Char) : List Segment :=
  (if core.head? = some '/' then core.tail else core).splitOn '/'

/-- A pattern without a `/` matches at any depth. -/
def coreSegments (core : List Char) : List Segment :=
  if '/' ∈ core then components core else [stars, core]

/-- The pattern of a line, if it is neither blank nor a comment. -/
def readLine (line : List Char) : Option Pattern :=
  let line := trimTrailing line
  if line = [] ∨ line.head? = some '#' then none
  else
    let (negated, dirOnly, core) := splitMarks line
    some ⟨negated, dirOnly, coreSegments core⟩

section Match

variable (glob : Segment → Segment → Bool)

/-- Match the components of a pattern with those of a path. `**` stands for any directories, and
at the end for anything below, or for the slash behind the path. -/
def matchSegments (slash : Bool) : List Segment → List Segment → Bool
  | [], path => path.isEmpty
  | p :: ps, path =>
    if p = stars then
      if ps.isEmpty then !path.isEmpty || slash
      else path.tails.any fun t => matchSegments slash ps t
    else
      match path with
      | [] => false
      | x :: rest => glob p x && matchSegments slash ps rest

def Pattern.covers (pat : Pattern) (isDir slash : Bool) (path : List Segment) : Bool :=
  (!pat.dirOnly || isDir) && matchSegments glob slash pat.segments path

/-- A `.gitignore` file : its directory, and its lines. -/
structure IgnoreFile where
  dir : List Segment
  lines : List (List Char)

/-- The lines of files, each with its directory. -/
def linesOf (files : List IgnoreFile) : List (List Segment × List Char) :=
  files.flatMap fun f => f.lines.map fun line => (f.dir, line)

/-- A line matches a path below its directory. -/
def lineCovers (l : List Segment × List Char) (path : List Segment) (isDir : Bool) : Bool :=
  match readLine l.2 with
  | none => false
  | some pat =>
    l.1.isPrefixOf path && l.1 ≠ path && pat.covers glob isDir false (path.drop l.1.length)

def lineNegates (l : List Segment × List Char) : Bool :=
  match readLine l.2 with
  | none => false
  | some pat => pat.negated

/-- The path and the directories it lies in. -/
def prefixes (path : List Segment) : List (List Segment) := path.inits.filter (· ≠ [])

/-- The lines git asks about a path : those of the files in the directories above it, from the
root down. -/
def linesAbove (files : List IgnoreFile) (path : List Segment) :
    List (List Segment × List Char) :=
  (List.range path.length).flatMap fun n => linesOf (files.filter (·.dir = path.take n))

/-- What the last line that matches the path says of it : that it is negated, or not. -/
def status (files : List IgnoreFile) (path : List Segment) (isDir : Bool) : Option Bool :=
  lastMatch (lineCovers glob · path isDir) lineNegates (linesAbove files path)

/-- Git's rule. -/
def gitIgnores (files : List IgnoreFile) (path : List Segment) (isDir : Bool) : Bool :=
  (prefixes path).any fun q => status glob files q (q ≠ path || isDir) = some false

end Match

/-! ## The components of a pattern -/

section Segments

variable {glob : Segment → Segment → Bool} {slash : Bool} {ps : List Segment}
  {path : List Segment}

theorem matchSegments_star (hps : ps ≠ []) : matchSegments glob slash (stars :: ps) path = true ↔
    ∃ above below, path = above ++ below ∧ matchSegments glob slash ps below = true := by
  have hempty : ps.isEmpty = false := by simpa using hps
  simp only [matchSegments, if_true, hempty, Bool.false_eq_true, if_false, List.any_eq_true,
    List.mem_tails]
  constructor
  · rintro ⟨below, ⟨above, rfl⟩, hm⟩
    exact ⟨above, below, rfl, hm⟩
  · rintro ⟨above, below, rfl, hm⟩
    exact ⟨below, List.suffix_append above below, hm⟩

theorem matchSegments_stars_end : matchSegments glob slash [stars] path = true ↔
    path ≠ [] ∨ slash = true := by
  simp [matchSegments]

theorem matchSegments_segment {p : Segment} (hp : p ≠ stars) :
    matchSegments glob slash (p :: ps) path = true ↔
      ∃ x rest, path = x :: rest ∧ glob p x = true ∧ matchSegments glob slash ps rest = true := by
  cases path with
  | nil => simp [matchSegments, hp]
  | cons x rest => simp [matchSegments, hp]

/-- Nothing but the slash behind a path is matched by a pattern without it. -/
theorem matchSegments_mono : ∀ {ps path : List Segment},
    matchSegments glob false ps path = true → matchSegments glob slash ps path = true
  | [], _, h => h
  | p :: ps, path, h => by
    by_cases hp : p = stars
    · subst hp
      by_cases hps : ps = []
      · subst hps
        rw [matchSegments_stars_end] at h ⊢
        exact h.imp_right nofun
      · rw [matchSegments_star hps] at h ⊢
        obtain ⟨above, below, rfl, hm⟩ := h
        exact ⟨above, below, rfl, matchSegments_mono hm⟩
    · rw [matchSegments_segment hp] at h ⊢
      obtain ⟨x, rest, rfl, hg, hm⟩ := h
      exact ⟨x, rest, rfl, hg, matchSegments_mono hm⟩

/-- A pattern that matches with the slash matches without it, or matches everything below. -/
theorem matchSegments_slash : ∀ {ps path : List Segment},
    matchSegments glob slash ps path = true →
      matchSegments glob false ps path = true ∨
        ∀ x, matchSegments glob false ps (path ++ [x]) = true
  | [], _, h => Or.inl h
  | p :: ps, path, h => by
    by_cases hp : p = stars
    · subst hp
      by_cases hps : ps = []
      · subst hps
        refine Or.inr fun x => matchSegments_stars_end.2 (Or.inl ?_)
        simp
      · obtain ⟨above, below, rfl, hm⟩ := (matchSegments_star hps).1 h
        rcases matchSegments_slash hm with hfalse | hbelow
        · exact Or.inl ((matchSegments_star hps).2 ⟨above, below, rfl, hfalse⟩)
        · refine Or.inr fun x => (matchSegments_star hps).2 ⟨above, below ++ [x], ?_, hbelow x⟩
          rw [List.append_assoc]
    · obtain ⟨x, rest, rfl, hg, hm⟩ := (matchSegments_segment hp).1 h
      rcases matchSegments_slash hm with hfalse | hbelow
      · exact Or.inl ((matchSegments_segment hp).2 ⟨x, rest, rfl, hg, hfalse⟩)
      · exact Or.inr fun y => (matchSegments_segment hp).2 ⟨x, rest ++ [y], rfl, hg, hbelow y⟩

/-- A pattern does not match the directory it is read in. -/
theorem matchSegments_nil : ∀ {ps : List Segment}, ps ≠ [] →
    matchSegments glob false ps [] = false
  | p :: ps, _ => by
    rw [Bool.eq_false_iff]
    intro h
    by_cases hp : p = stars
    · subst hp
      by_cases hps : ps = []
      · subst hps
        rcases matchSegments_stars_end.1 h with hne | hfalse
        · exact hne rfl
        · cases hfalse
      · obtain ⟨above, below, hnil, hm⟩ := (matchSegments_star hps).1 h
        obtain ⟨-, rfl⟩ := List.append_eq_nil_iff.1 hnil.symm
        rw [matchSegments_nil hps] at hm
        cases hm
    · obtain ⟨x, rest, hnil, -⟩ := (matchSegments_segment hp).1 h
      cases hnil

/-- A pattern followed by `**` matches what lies below what it matches. -/
theorem matchSegments_append_stars : ∀ {ps path : List Segment}, ps ≠ [] →
    ps.getLast? ≠ some stars →
    (matchSegments glob slash (ps ++ [stars]) path = true ↔
      ∃ above below, path = above ++ below ∧ matchSegments glob false ps above = true ∧
        (below ≠ [] ∨ slash = true))
  | [p], path, _, hlast => by
    have hp : p ≠ stars := by simpa using hlast
    rw [List.singleton_append, matchSegments_segment hp]
    constructor
    · rintro ⟨x, rest, rfl, hg, hm⟩
      refine ⟨[x], rest, rfl, ?_, matchSegments_stars_end.1 hm⟩
      exact (matchSegments_segment hp).2 ⟨x, [], rfl, hg, rfl⟩
    · rintro ⟨above, below, rfl, hm, hbelow⟩
      obtain ⟨x, rest, rfl, hg, hrest⟩ := (matchSegments_segment hp).1 hm
      obtain rfl : rest = [] := by simpa [matchSegments] using hrest
      exact ⟨x, below, rfl, hg, matchSegments_stars_end.2 hbelow⟩
  | p :: p' :: ps, path, _, hlast => by
    have hne : p' :: ps ≠ [] := by simp
    have ih : ∀ {path}, (matchSegments glob slash ((p' :: ps) ++ [stars]) path = true ↔
        ∃ above below, path = above ++ below ∧ matchSegments glob false (p' :: ps) above = true ∧
          (below ≠ [] ∨ slash = true)) :=
      matchSegments_append_stars hne (by simpa using hlast)
    by_cases hp : p = stars
    · subst hp
      rw [List.cons_append, matchSegments_star (by simp)]
      constructor
      · rintro ⟨above, below, rfl, hm⟩
        obtain ⟨mid, rest, rfl, hmid, hrest⟩ := ih.1 hm
        refine ⟨above ++ mid, rest, (List.append_assoc ..).symm, ?_, hrest⟩
        exact (matchSegments_star hne).2 ⟨above, mid, rfl, hmid⟩
      · rintro ⟨above, below, rfl, hm, hbelow⟩
        obtain ⟨top, mid, rfl, hmid⟩ := (matchSegments_star hne).1 hm
        exact ⟨top, mid ++ below, List.append_assoc .., ih.2 ⟨mid, below, rfl, hmid, hbelow⟩⟩
    · rw [List.cons_append, matchSegments_segment hp]
      constructor
      · rintro ⟨x, rest, rfl, hg, hm⟩
        obtain ⟨mid, below, rfl, hmid, hbelow⟩ := ih.1 hm
        exact ⟨x :: mid, below, rfl, (matchSegments_segment hp).2 ⟨x, mid, rfl, hg, hmid⟩, hbelow⟩
      · rintro ⟨above, below, rfl, hm, hbelow⟩
        obtain ⟨x, rest, rfl, hg, hrest⟩ := (matchSegments_segment hp).1 hm
        exact ⟨x, rest ++ below, rfl, hg, ih.2 ⟨rest, below, rfl, hrest, hbelow⟩⟩

/-- A name that matches only itself. -/
def Literal (glob : Segment → Segment → Bool) (name : Segment) : Prop :=
  name ≠ stars ∧ ∀ x, glob name x = true ↔ x = name

/-- Literal components in front are compared. -/
theorem matchSegments_literal : ∀ {dir ps path : List Segment}, (∀ n ∈ dir, Literal glob n) →
    (matchSegments glob slash (dir ++ ps) path = true ↔
      ∃ rest, path = dir ++ rest ∧ matchSegments glob slash ps rest = true)
  | [], ps, path, _ => by simp
  | n :: dir, ps, path, h => by
    obtain ⟨hn, hdir⟩ := List.forall_mem_cons.1 h
    rw [List.cons_append, matchSegments_segment hn.1]
    constructor
    · rintro ⟨x, rest, rfl, hg, hm⟩
      obtain ⟨below, rfl, hbelow⟩ := (matchSegments_literal hdir).1 hm
      obtain rfl := (hn.2 x).1 hg
      exact ⟨below, rfl, hbelow⟩
    · rintro ⟨rest, rfl, hm⟩
      exact ⟨n, dir ++ rest, rfl, (hn.2 n).2 rfl, (matchSegments_literal hdir).2 ⟨rest, rfl, hm⟩⟩

end Segments

end ChunkHound.Ignore
