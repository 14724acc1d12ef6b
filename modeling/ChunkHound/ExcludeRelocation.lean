import ChunkHound.GitDiscovery

/-!
# Exclusion under another parent directory

`should_exclude_path` compares the target of a subtree pattern `**/X/**` with the components of the
path relative to the base, and with those of the absolute path too. So a base that lies below a
directory called `build` is excluded whole by `**/build/**`.

What is excluded under a base is what the relative path alone excludes, and everything if a
component of the base is a target (`shouldExcludePath_join`). Two bases exclude the same exactly
where the relative path decides, or both hold a target, or neither (`relocation_iff`).
-/

namespace ChunkHound.Discovery

open Ignore

/-! ## The two parts of the test -/

/-- A component is the target of a subtree pattern. -/
def targetSeen (target : List Char) (parts : List Segment) : Bool :=
  if '*' ∈ target ∨ '?' ∈ target ∨ ('[' ∈ target ∧ ']' ∈ target) then
    parts.any (fnmatch target ·)
  else target ∈ parts

theorem targetSeen_append (target : List Char) (xs ys : List Segment) :
    targetSeen target (xs ++ ys) = (targetSeen target xs || targetSeen target ys) := by
  unfold targetSeen
  split
  · exact List.any_append
  · simp

/-- Any other pattern matches the relative path, as text. -/
def matchesText (pattern relPathStr : List Char) : Bool :=
  if ['*', '*', '/'].isPrefixOf pattern then
    fnmatch pattern relPathStr || fnmatch (pattern.drop 3) relPathStr
  else fnmatch pattern relPathStr

/-- Any other pattern matches the name. -/
def matchesName (pattern pathName : List Char) : Bool :=
  if ['*', '*', '/'].isPrefixOf pattern then fnmatch (pattern.drop 3) pathName
  else fnmatch pattern pathName

/-- The relative path alone is excluded. The base itself, `.`, has no name there. -/
def relExcluded (rel : PurePath) (patterns : List (List Char)) : Bool :=
  patterns.any fun pattern =>
    match subtreeTarget pattern with
    | some target => targetSeen target rel.parts
    | none => matchesText pattern rel.posix ||
        (rel.parts ≠ [] && matchesName pattern (lastPart rel))

/-- A component of the base is a target, or the base is asked for by its own name. -/
def baseExcluded (baseDir rel : PurePath) (patterns : List (List Char)) : Bool :=
  patterns.any fun pattern =>
    match subtreeTarget pattern with
    | some target => targetSeen target (['/'] :: baseDir.parts)
    | none => rel.parts = [] && matchesName pattern (lastPart baseDir)

theorem any_or {α : Type} (f g : α → Bool) (xs : List α) :
    xs.any (fun x => f x || g x) = (xs.any f || xs.any g) := by
  induction xs with
  | nil => rfl
  | cons x xs ih =>
    rw [List.any_cons, List.any_cons, List.any_cons, ih]
    ac_rfl

/-! ## Below a base -/

section Join

variable (baseDir rel : PurePath)

theorem lastPart_join :
    lastPart (baseDir.join rel) = if rel.parts = [] then lastPart baseDir else lastPart rel := by
  have hparts : (baseDir.join rel).parts = baseDir.parts ++ rel.parts := rfl
  unfold lastPart
  rw [hparts]
  split
  · rename_i h
    rw [h, List.append_nil]
  · rename_i h
    rw [List.getLast?_append_of_ne_nil _ h]

/-- Below a base a path is excluded as the relative path is, or with the whole base. -/
theorem shouldExcludePath_join (patterns : List (List Char)) :
    shouldExcludePath (baseDir.join rel) baseDir patterns =
      (relExcluded rel patterns || baseExcluded baseDir rel patterns) := by
  unfold shouldExcludePath relExcluded baseExcluded
  rw [PurePath.relativeTo_join, lastPart_join, ← any_or]
  refine congrArg patterns.any (funext fun pattern => ?_)
  cases subtreeTarget pattern with
  | some target =>
    change targetSeen target (rel.parts ++ (['/'] :: (baseDir.parts ++ rel.parts))) = _
    rw [← List.cons_append, targetSeen_append, targetSeen_append, Bool.or_comm _ (targetSeen _ _),
      ← Bool.or_assoc, Bool.or_self]
  | none =>
    unfold matchesText matchesName
    by_cases hrel : rel.parts = []
    · by_cases hstars : ['*', '*', '/'].isPrefixOf pattern = true
      · simp [hrel, hstars]
      · simp [hrel, hstars]
    · by_cases hstars : ['*', '*', '/'].isPrefixOf pattern = true
      · simp [hrel, hstars]
      · simp [hrel, hstars]

end Join

/-! ## Under two bases -/

/-- Under two bases a path is excluded the same exactly when it is excluded for itself, or both
bases are, or neither. -/
theorem relocation_iff (base₁ base₂ rel : PurePath) (patterns : List (List Char)) :
    shouldExcludePath (base₁.join rel) base₁ patterns =
        shouldExcludePath (base₂.join rel) base₂ patterns ↔
      relExcluded rel patterns = true ∨
        baseExcluded base₁ rel patterns = baseExcluded base₂ rel patterns := by
  rw [shouldExcludePath_join, shouldExcludePath_join]
  cases relExcluded rel patterns with
  | false => simp
  | true => simp

/-- Below a directory called `build` the pattern `**/build/**` excludes everything. -/
theorem build_parent_excludes :
    ¬ ∀ (base₁ base₂ rel : PurePath) (patterns : List (List Char)),
      shouldExcludePath (base₁.join rel) base₁ patterns =
        shouldExcludePath (base₂.join rel) base₂ patterns := by
  intro h
  have hmoved := h (.ofString "/home/build/p") (.ofString "/home/p") (.ofString "src/a.py")
    ["**/build/**".toList]
  revert hmoved
  decide +kernel

end ChunkHound.Discovery
